import MaelysJson.Reading.Representation

/-! Handles and paths. Every token that is no key is the value at the end of one path from the
root, and lookups lead to no other token: no two paths meet, and no value is out of reach. -/
namespace MaelysJson

open Forest

variable {document : Document} {s : Source}

/-! ### Paths -/

theorem valueAt_append (document : Document) (value : Nat) (path path' : List Step) :
    valueAt document value (path ++ path') = valueAt document value path >>=
      fun v => valueAt document v path' := by
  induction path generalizing value with
  | nil => rfl
  | cons step path ih =>
      cases step with
      | key name =>
          rw [List.cons_append, valueAt, valueAt, bind_assoc]
          exact congrArg (objectGetSized document value name >>= ·) (funext fun v => ih v)
      | index position =>
          rw [List.cons_append, valueAt, valueAt, bind_assoc]
          exact congrArg (arrayGet document value position >>= ·) (funext fun v => ih v)

theorem valueAt_key (document : Document) (value : Nat) (name : Bytes) :
    valueAt document value [.key name] = objectGetSized document value name := by
  rw [valueAt]
  exact bind_pure _

theorem valueAt_index (document : Document) (value position : Nat) :
    valueAt document value [.index position] = arrayGet document value position := by
  rw [valueAt]
  exact bind_pure _

theorem except_bind_eq_ok {α β ε : Type} {x : Except ε α} {f : α → Except ε β} {b : β}
    (h : x >>= f = .ok b) :
    ∃ a, x = .ok a ∧ f a = .ok b := by
  cases x with
  | error e => cases h
  | ok a => exact ⟨a, rfl, h⟩

/-! ### Children -/

namespace Document.Published

theorem parent_childAt (h : document.Published (s.rows 0 none)) {i k : Nat}
    (hi : i < document.tokens.length) (hk : k < (document.token i).links.childCount) :
    (document.token (childAt document (document.token i) k)).links.parent = some i ∧
      i < childAt document (document.token i) k ∧
      childAt document (document.token i) k < document.tokens.length := by
  rw [h.shows.length] at hi ⊢
  rw [h.shows.childCount hi] at hk
  rw [h.childAt_eq hi (h.container_of_child (List.getElem_mem hk)) hk, List.getD_eq_getElem _ _ hk]
  have hMem := List.getElem_mem hk
  obtain ⟨hBelow, hLt⟩ := h.shows.child_below hMem
  have hRow := (mem_children i).mp hMem
  rw [List.getElem?_map, Option.map_eq_some_iff] at hRow
  obtain ⟨⟨parent, cell⟩, hRow, rfl⟩ := hRow
  exact ⟨h.shows.parent hRow, hBelow, hLt⟩

theorem childAt_inj (h : document.Published (s.rows 0 none)) {i k k' : Nat}
    (hi : i < document.tokens.length) (hk : k < (document.token i).links.childCount)
    (hk' : k' < (document.token i).links.childCount)
    (hSame : childAt document (document.token i) k = childAt document (document.token i) k') :
    k = k' := by
  rw [h.shows.length] at hi
  rw [h.shows.childCount hi] at hk hk'
  have hContainer := h.container_of_child (List.getElem_mem hk)
  rw [h.childAt_eq hi hContainer hk, h.childAt_eq hi hContainer hk', List.getD_eq_getElem _ _ hk,
    List.getD_eq_getElem _ _ hk'] at hSame
  exact (List.Nodup.getElem_inj_iff (children_sorted i _).nodup).mp hSame

/-- Every token but the root is a child of its parent. -/
theorem exists_childAt (h : document.Published (s.rows 0 none)) {j : Nat} (hPos : 0 < j)
    (hj : j < document.tokens.length) :
    ∃ i k, i < j ∧ k < (document.token i).links.childCount ∧
      childAt document (document.token i) k = j := by
  have hSound := h.childrenSound
  obtain ⟨i, -, hi, hContainer, hMem⟩ := hSound.own j hPos hj
  have hBelow := (hSound.after i hi hContainer j hMem).1
  rw [h.shows.length] at hi
  rw [h.slice_eq hi hContainer] at hMem
  obtain ⟨k, hk, hAt⟩ := List.mem_iff_getElem.mp hMem
  refine ⟨i, k, hBelow, by rwa [h.shows.childCount hi], ?_⟩
  rw [h.childAt_eq hi hContainer hk, List.getD_eq_getElem _ _ hk, hAt]

/-- The token of a value is that of no key. -/
theorem value_objectKey (h : document.Published (s.rows 0 none)) {part : Source} {i : Nat}
    (hAt : Rose.At (s.rows 0 none) part.rose i) : (document.token i).objectKey = false := by
  obtain ⟨parent, hRow⟩ := row_of_value hAt
  rw [h.shows.objectKey hRow]
  cases part <;> rfl

theorem key_objectKey (h : document.Published (s.rows 0 none)) {key : Literal} {i : Nat}
    (hAt : Rose.At (s.rows 0 none) (.node (Source.keyCell key) []) i) :
    (document.token i).objectKey = true := by
  obtain ⟨⟨parent, cell⟩, hRow, rfl⟩ := Option.map_eq_some_iff.mp hAt.1
  rw [h.shows.objectKey hRow]
  rfl

/-! ### One step -/

/-- The position among the children that a step leads to. -/
def Position (document : Document) (i : Nat) (step : Step) (k : Nat) : Prop :=
  match step with
  | .index position => (document.token i).type = .array ∧ k = position
  | .key name => (document.token i).type = .object ∧
      ∃ member, k = 2 * member + 1 ∧
      document.textOf (document.keyAt (document.token i) member) = name

theorem tokenOf_ok_iff {i : Nat} {expected : ValueType} {token : Token} :
    tokenOf document i expected = .ok token ↔
      i < document.tokens.length ∧ (document.token i).type = expected ∧
      token = document.token i := by
  rw [tokenOf]
  split_ifs with hPast hType
  · simp [hPast]
  · simp [hType]
  · simp [not_le.mp hPast, not_not.mp hType, eq_comm]

/-- A lookup that succeeds leads to a child of its kind. -/
theorem step_child (h : document.Published (s.rows 0 none)) (hUnique : s.json.uniqueKeys = true)
    {i v : Nat} {step : Step} (hStep : valueAt document i [step] = .ok v) :
    ∃ k, i < document.tokens.length ∧ k < (document.token i).links.childCount ∧
      childAt document (document.token i) k = v ∧ Position document i step k := by
  cases step with
  | index position =>
      rw [valueAt_index, arrayGet] at hStep
      obtain ⟨token, hToken, hRest⟩ := except_bind_eq_ok hStep
      obtain ⟨hi, hType, rfl⟩ := tokenOf_ok_iff.mp hToken
      by_cases hRange : position ≥ (document.token i).links.childCount
      · rw [if_pos hRange] at hRest
        cases hRest
      · rw [if_neg hRange] at hRest
        exact ⟨position, hi, not_le.mp hRange, Except.ok.inj hRest, hType, rfl⟩
  | key name =>
      rw [valueAt_key] at hStep
      obtain ⟨token, hToken, -⟩ := except_bind_eq_ok hStep
      obtain ⟨hi, hType, rfl⟩ := tokenOf_ok_iff.mp hToken
      have hObject : valueType document i = .object := by rw [valueType, if_pos hi, hType]
      obtain ⟨member, hMember⟩ := ((h.lookupsAgree hUnique).found i hObject name v).mp hStep
      obtain ⟨hRange, hKey, hValue⟩ := (objectMemberAt_iff hToken).mp hMember
      exact ⟨2 * member + 1, hi, by omega, hValue, hType, member, rfl, hKey⟩

/-- A child is a key, or some lookup leads to it. -/
theorem child_step (h : document.Published (s.rows 0 none)) (hUnique : s.json.uniqueKeys = true)
    {i k : Nat} (hi : i < document.tokens.length) (hk : k < (document.token i).links.childCount) :
    (document.token (childAt document (document.token i) k)).objectKey = true ∨
      (document.token i).objectKey = false ∧
        (document.token (childAt document (document.token i) k)).objectKey = false ∧
        ∃ step, valueAt document i [step] = .ok (childAt document (document.token i) k) := by
  have hLt : i < (s.rows 0 none).length := by rwa [h.shows.length] at hi
  rcases h.stands hLt with ⟨hPart, hAt⟩ | ⟨hPart, hm, hAt⟩
  · rename_i part
    cases part with
    | object span members =>
        obtain ⟨hCount, hMembers⟩ := h.object_children hAt
        rw [hCount] at hk
        have hMember : k / 2 < members.length := by omega
        obtain ⟨hKeyAt, hValueAt, -⟩ := hMembers (k / 2) hMember
        rcases Nat.mod_two_eq_zero_or_one k with hEven | hOdd
        · left
          rw [show k = 2 * (k / 2) by omega]
          exact h.key_objectKey hKeyAt
        · right
          rw [show k = 2 * (k / 2) + 1 by omega]
          refine ⟨h.value_objectKey hAt, h.value_objectKey hValueAt,
            .key (members[k / 2]).1.text, ?_⟩
          have hToken : tokenOf document i .object = .ok (document.token i) := h.tokenOf_eq hAt
          rw [valueAt_key, (h.lookupsAgree hUnique).found i (h.valueType_eq hAt)]
          exact ⟨k / 2, (objectMemberAt_iff hToken).mpr ⟨by omega, h.key_text hKeyAt, rfl⟩⟩
    | array span elements =>
        obtain ⟨hCount, hElements⟩ := h.array_children hAt
        rw [hCount] at hk
        have hToken : tokenOf document i .array = .ok (document.token i) := h.tokenOf_eq hAt
        refine Or.inr ⟨h.value_objectKey hAt, h.value_objectKey (hElements k hk).1, .index k, ?_⟩
        rw [valueAt_index, arrayGet, hToken]
        simp only [bind, Except.bind,
          if_neg (show ¬k ≥ (document.token i).links.childCount by omega)]
        rfl
    | _ =>
        rw [h.shows.childCount hLt, children_of_leaf hAt] at hk
        exact absurd hk (Nat.not_lt_zero k)
  · rw [h.shows.childCount hLt, children_of_leaf hAt] at hk
    exact absurd hk (Nat.not_lt_zero k)

/-- One position belongs to one step. -/
theorem Position.unique {i k : Nat} {step step' : Step} (h : Position document i step k)
    (h' : Position document i step' k) :
    step' = step := by
  cases step with
  | index position =>
      cases step' with
      | index position' => rw [← h.2, ← h'.2]
      | key name' => exact absurd (h.1.symm.trans h'.1) (by simp)
  | key name =>
      cases step' with
      | index position' => exact absurd (h.1.symm.trans h'.1) (by simp)
      | key name' =>
          obtain ⟨-, member, hMember, rfl⟩ := h
          obtain ⟨-, member', hMember', rfl⟩ := h'
          obtain rfl : member = member' := by omega
          rfl

/-- What a lookup leads to is no key. -/
theorem step_objectKey (h : document.Published (s.rows 0 none)) (hUnique : s.json.uniqueKeys = true)
    {i v : Nat} {step : Step} (hStep : valueAt document i [step] = .ok v) :
    (document.token v).objectKey = false := by
  obtain ⟨k, hi, hk, rfl, hPosition⟩ := h.step_child hUnique hStep
  have hLt : i < (s.rows 0 none).length := by rwa [h.shows.length] at hi
  rcases h.stands hLt with ⟨hPart, hAt⟩ | ⟨hPart, hm, hAt⟩
  · rename_i part
    cases part with
    | object span members =>
        obtain ⟨hCount, hMembers⟩ := h.object_children hAt
        cases step with
        | index position =>
            exact absurd ((h.token_type hAt).symm.trans hPosition.1) (by simp [Source.cell])
        | key name =>
            obtain ⟨-, member, rfl, -⟩ := hPosition
            exact h.value_objectKey (hMembers member (by omega)).2.1
    | array span elements =>
        obtain ⟨hCount, hElements⟩ := h.array_children hAt
        exact h.value_objectKey (hElements k (by omega)).1
    | _ =>
        rw [h.shows.childCount hLt, children_of_leaf hAt] at hk
        exact absurd hk (Nat.not_lt_zero k)
  · rw [h.shows.childCount hLt, children_of_leaf hAt] at hk
    exact absurd hk (Nat.not_lt_zero k)

/-- No other lookup leads to the same value. -/
theorem step_unique (h : document.Published (s.rows 0 none)) (hUnique : s.json.uniqueKeys = true)
    {i i' v : Nat} {step step' : Step} (hStep : valueAt document i [step] = .ok v)
    (hStep' : valueAt document i' [step'] = .ok v) :
    i' = i ∧ step' = step ∧ i < v := by
  obtain ⟨k, hi, hk, rfl, hPosition⟩ := h.step_child hUnique hStep
  obtain ⟨k', hi', hk', hSame, hPosition'⟩ := h.step_child hUnique hStep'
  obtain ⟨hParent, hBelow, -⟩ := h.parent_childAt hi hk
  have hParent' := (h.parent_childAt hi' hk').1
  rw [hSame, hParent, Option.some.injEq] at hParent'
  subst hParent'
  obtain rfl := h.childAt_inj hi hk' hk hSame
  exact ⟨rfl, hPosition.unique hPosition', hBelow⟩

/-! ### Whole paths -/

/-- Some path leads to every token that is no key. -/
theorem exists_path (h : document.Published (s.rows 0 none)) (hUnique : s.json.uniqueKeys = true)
    {v : Nat} (hv : v < document.tokens.length) (hValue : (document.token v).objectKey = false) :
    ∃ path, valueAt document 0 path = .ok v := by
  induction v using Nat.strong_induction_on with
  | _ v ih =>
      rcases Nat.eq_zero_or_pos v with rfl | hPos
      · exact ⟨[], rfl⟩
      · obtain ⟨i, k, hBelow, hk, rfl⟩ := h.exists_childAt hPos hv
        have hi := hBelow.trans hv
        rcases h.child_step hUnique hi hk with hKey | ⟨hOuter, -, step, hStep⟩
        · exact absurd (hKey.symm.trans hValue) (by simp)
        · obtain ⟨path, hPath⟩ := ih i hBelow hi hOuter
          refine ⟨path ++ [step], ?_⟩
          rw [valueAt_append, hPath]
          exact hStep

/-- A path is the only one to its end. -/
theorem path_unique (h : document.Published (s.rows 0 none)) (hUnique : s.json.uniqueKeys = true)
    {v : Nat} {path path' : List Step} (hPath : valueAt document 0 path = .ok v)
    (hPath' : valueAt document 0 path' = .ok v) : path' = path := by
  induction path using List.reverseRecOn generalizing v path' with
  | nil =>
      obtain rfl : 0 = v := Except.ok.inj hPath
      rcases List.eq_nil_or_concat path' with rfl | ⟨init', step', rfl⟩
      · rfl
      · rw [List.concat_eq_append, valueAt_append] at hPath'
        obtain ⟨i', -, hStep'⟩ := except_bind_eq_ok hPath'
        exact absurd (h.step_unique hUnique hStep' hStep').2.2 (Nat.not_lt_zero _)
  | append_singleton init step ih =>
      rw [valueAt_append] at hPath
      obtain ⟨i, hInit, hStep⟩ := except_bind_eq_ok hPath
      rcases List.eq_nil_or_concat path' with rfl | ⟨init', step', rfl⟩
      · obtain rfl : 0 = v := Except.ok.inj hPath'
        exact absurd (h.step_unique hUnique hStep hStep).2.2 (Nat.not_lt_zero _)
      · rw [List.concat_eq_append, valueAt_append] at hPath'
        obtain ⟨i', hInit', hStep'⟩ := except_bind_eq_ok hPath'
        obtain ⟨rfl, rfl, -⟩ := h.step_unique hUnique hStep hStep'
        rw [List.concat_eq_append, ih hInit hInit']

/-- A path leads to a token that is no key. -/
theorem path_value (h : document.Published (s.rows 0 none)) (hUnique : s.json.uniqueKeys = true)
    {v : Nat} {path : List Step} (hPath : valueAt document 0 path = .ok v) :
    v < document.tokens.length ∧ (document.token v).objectKey = false := by
  rcases List.eq_nil_or_concat path with rfl | ⟨init, step, rfl⟩
  · obtain rfl : 0 = v := Except.ok.inj hPath
    have hAt : Rose.At (s.rows 0 none) s.rose 0 := Rose.at_rows s.rose
    exact ⟨by rw [h.shows.length]; exact hAt.lt_length, h.value_objectKey hAt⟩
  · rw [List.concat_eq_append, valueAt_append] at hPath
    obtain ⟨i, -, hStep⟩ := except_bind_eq_ok hPath
    obtain ⟨k, hi, hk, rfl, -⟩ := h.step_child hUnique hStep
    exact ⟨(h.parent_childAt hi hk).2.2, h.step_objectKey hUnique hStep⟩

end Document.Published

/-- In every document that a parse returns, the handles of values and the paths from the root to
them are the same thing: each value has one path, keys have none, and every lookup ends at a
value. -/
theorem documentParse_handles {heap : Heap} {input : CText} {profile : Profile}
    {requested : Option Limits} {errorGiven : Bool}
    (hParse : (documentParse heap input profile requested errorGiven).document = some document) :
    ∃ root, documentRoot document = some root ∧ ∀ v,
      (v < document.tokens.length ∧ (document.token v).objectKey = false ↔
        ∃ path, valueAt document root path = .ok v) ∧
        ∀ path path', valueAt document root path = .ok v → valueAt document root path' = .ok v →
          path' = path := by
  obtain ⟨limits, source, survivor, -, -, hPublished, hJson, -⟩ := documentParse_returns hParse
  have hUnique : survivor.json.uniqueKeys = true := by
    rw [hJson]
    exact Tree.uniqueKeys_lastWins _
  have hAt : Rose.At (survivor.rows 0 none) survivor.rose 0 := Rose.at_rows survivor.rose
  refine ⟨0, ?_, fun v =>
      ⟨⟨fun hValue => hPublished.exists_path hUnique hValue.1 hValue.2, ?_⟩, fun path path' =>
    hPublished.path_unique hUnique⟩⟩
  · rw [documentRoot, if_neg (by rw [hPublished.shows.length]; exact hAt.lt_length.ne')]
  · rintro ⟨path, hPath⟩
    exact hPublished.path_value hUnique hPath

/-- The element of `[1]`. -/
theorem documentParse_handles_element :
    ∃ document, (documentParse ⟨fun _ => true, []⟩ (.buffer [0x5b, 0x31, 0x5d]) .rfc8259 none
      true).document = some document ∧ ∃ root, documentRoot document = some root ∧ ∀ v,
        (v < document.tokens.length ∧ (document.token v).objectKey = false ↔
          ∃ path, valueAt document root path = .ok v) ∧
          ∀ path path', valueAt document root path = .ok v → valueAt document root path' = .ok v →
            path' = path := by
  obtain ⟨document, hDocument⟩ :
    ∃ document, (documentParse ⟨fun _ => true, []⟩ (.buffer [0x5b, 0x31, 0x5d]) .rfc8259 none
    true).document = some document := Option.isSome_iff_exists.mp (by decide +kernel)
  exact ⟨document, hDocument, documentParse_handles hDocument⟩

end MaelysJson
