import MaelysJson.Reading.Publication

/-! What a caller reads from a published document: at the index of a value every
accessor answers with the parts of that value, and reading all of them gives back
the tree. -/
namespace MaelysJson

open Forest

/-- The tree that the accessors show at a value; `fuel` bounds the nesting. -/
def valueTree (document : Document) : Nat → Nat → Except Result Json
  | 0, _ => .error .errState
  | fuel + 1, value =>
      match valueType document value with
      | .object => do
          let count ← objectSize document value
          let members ← (List.range count).mapM fun i => do
            let (key, member) ← objectMemberAt document value i
            let tree ← valueTree document fuel member
            return (key, tree)
          return .object members
      | .array => do
          let count ← arraySize document value
          let elements ← (List.range count).mapM fun i => do
            let element ← arrayGet document value i
            valueTree document fuel element
          return .array elements
      | .string => do
          let text ← valueString document value
          return .string text
      | .number => do
          let lexeme ← valueNumberText document value
          return .number lexeme
      | .boolean => do
          let enabled ← valueBoolean document value
          return .boolean enabled
      | .null => if valueIsNull document value then .ok .null else .error .errState
      | .none => .error .errArgument

/-- The tree of a whole document, read from its root. -/
def documentTree (document : Document) : Except Result Json :=
  match documentRoot document with
  | none => .error .errState
  | some root => valueTree document document.tokens.length root

/-- The value at the end of a path of lookups by key and by position. -/
def valueAt (document : Document) : Nat → List Step → Except Result Nat
  | value, [] => .ok value
  | value, .key name :: path => do
      let member ← objectGetSized document value name
      valueAt document member path
  | value, .index position :: path => do
      let element ← arrayGet document value position
      valueAt document element path

variable {document : Document} {rows : List (Row Cell)}

/-! ### Tokens of values -/

/-- What the first token of a value shows. -/
def Source.cell : Source → Cell
  | .object span _ => ⟨.object, span, none, false, false⟩
  | .array span _ => ⟨.array, span, none, false, false⟩
  | .string literal => ⟨.string, literal.span, some literal.text, false, false⟩
  | .number span lexeme => ⟨.number, span, some lexeme, false, false⟩
  | .boolean span value => ⟨.boolean, span, none, false, value⟩
  | .null span => ⟨.null, span, none, false, false⟩

theorem row_of_value {s : Source} {i : Nat} (hAt : Rose.At rows s.rose i) :
    ∃ parent, rows[i]? = some (parent, s.cell) := by
  have hCell : (rows[i]?).map Prod.snd = some s.cell := by
    cases s with
    | object span members =>
        rw [Source.rose_object] at hAt
        exact hAt.1
    | array span elements =>
        rw [Source.rose_array] at hAt
        exact hAt.1
    | _ => exact hAt.1
  obtain ⟨⟨parent, cell⟩, hRow, rfl⟩ := Option.map_eq_some_iff.mp hCell
  exact ⟨parent, hRow⟩

/-! ### Children of containers -/

theorem length_memberTrees (members : List (Literal × Source)) :
    (memberTrees members).length = 2 * members.length := by
  induction members with
  | nil => rfl
  | cons m members ih =>
      rw [memberTrees, List.flatMap_cons, List.length_append, ih, List.length_cons]
      simp only [List.length_cons, List.length_nil]
      omega

/-- Key and value of a member, by their position among the children of the object. -/
theorem member_at {members : List (Literal × Source)} {kids : List Nat}
    (hAll : List.Forall₂ (Rose.At rows) (memberTrees members) kids) {k : Nat}
    (hk : k < members.length) :
    Rose.At rows (.node (Source.keyCell (members[k]).1) []) (kids.getD (2 * k) 0) ∧
      Rose.At rows (members[k]).2.rose (kids.getD (2 * k + 1) 0) := by
  induction members generalizing kids k with
  | nil => exact absurd hk (Nat.not_lt_zero k)
  | cons m members ih =>
      obtain ⟨key, rest, hKeyAt, hRest, rfl⟩ := List.forall₂_cons_left_iff.mp hAll
      obtain ⟨value, rest', hValueAt, hRest', rfl⟩ := List.forall₂_cons_left_iff.mp hRest
      cases k with
      | zero => exact ⟨hKeyAt, hValueAt⟩
      | succ k => exact ih hRest' (Nat.lt_of_succ_lt_succ hk)

theorem element_at {elements : List Source} {kids : List Nat}
    (hAll : List.Forall₂ (Rose.At rows) (elements.map Source.rose) kids) {k : Nat}
    (hk : k < elements.length) :
    Rose.At rows (elements[k]).rose (kids.getD k 0) := by
  induction elements generalizing kids k with
  | nil => exact absurd hk (Nat.not_lt_zero k)
  | cons s elements ih =>
      obtain ⟨value, rest, hAt, hRest, rfl⟩ := List.forall₂_cons_left_iff.mp hAll
      cases k with
      | zero => exact hAt
      | succ k => exact ih hRest (Nat.lt_of_succ_lt_succ hk)

namespace Document.Published

theorem token_type (h : document.Published rows) {s : Source} {i : Nat}
    (hAt : Rose.At rows s.rose i) :
    (document.token i).type = s.cell.type := by
  obtain ⟨parent, hRow⟩ := row_of_value hAt
  exact h.shows.type hRow

theorem token_text (h : document.Published rows) {s : Source} {i : Nat}
    (hAt : Rose.At rows s.rose i) :
    document.textOf (document.token i) = s.cell.text.getD [] := by
  obtain ⟨parent, hRow⟩ := row_of_value hAt
  exact h.shows.textOf hRow

theorem key_text (h : document.Published rows) {key : Literal} {i : Nat}
    (hAt : Rose.At rows (.node (Source.keyCell key) []) i) :
    document.textOf (document.token i) = key.text := by
  obtain ⟨⟨parent, cell⟩, hRow, rfl⟩ := Option.map_eq_some_iff.mp hAt.1
  exact h.shows.textOf hRow

theorem tokenOf_eq (h : document.Published rows) {s : Source} {i : Nat}
    (hAt : Rose.At rows s.rose i) :
    tokenOf document i s.cell.type = .ok (document.token i) := by
  have hLt : ¬i ≥ document.tokens.length := by
    rw [h.shows.length]
    exact not_le.mpr hAt.lt_length
  rw [tokenOf, if_neg hLt, if_neg (not_not.mpr (h.token_type hAt))]

theorem valueType_eq (h : document.Published rows) {s : Source} {i : Nat}
    (hAt : Rose.At rows s.rose i) :
    valueType document i = s.cell.type := by
  rw [valueType, if_pos (by rw [h.shows.length]; exact hAt.lt_length), h.token_type hAt]

theorem textView_eq (h : document.Published rows) {s : Source} {i : Nat}
    (hAt : Rose.At rows s.rose i) :
    textView document i s.cell.type = .ok (s.cell.text.getD []) := by
  rw [textView, h.tokenOf_eq hAt]
  exact congrArg Except.ok (h.token_text hAt)

theorem childAt_eq (h : document.Published rows) {i k : Nat} (hi : i < rows.length)
    (hContainer : (document.token i).isContainer = true)
    (hk : k < (Forest.children (rows.map Prod.fst) i).length) :
    childAt document (document.token i) k = (Forest.children (rows.map Prod.fst) i).getD k 0 := by
  obtain ⟨before, after, hChildren, hOffset⟩ := h.slices hi hContainer
  rw [childAt, hChildren, hOffset, List.append_assoc, List.getD_append_right _ _ _ _ (by omega),
    Nat.add_sub_cancel_left, List.getD_append _ _ _ _ hk]

theorem object_children (h : document.Published rows) {span : Span}
    {members : List (Literal × Source)} {i : Nat}
    (hAt : Rose.At rows (Source.object span members).rose i) :
    (document.token i).links.childCount = 2 * members.length ∧
      ∀ k (hk : k < members.length),
        Rose.At rows (.node (Source.keyCell (members[k]).1) [])
          (childAt document (document.token i) (2 * k)) ∧
          Rose.At rows (members[k]).2.rose (childAt document (document.token i) (2 * k + 1)) ∧
          i < childAt document (document.token i) (2 * k + 1) := by
  have hLt := hAt.lt_length
  have hType := h.token_type hAt
  have hContainer : (document.token i).isContainer = true := by
    rw [Token.isContainer, hType]
    rfl
  rw [Source.rose_object] at hAt
  have hAll := Rose.allAt_iff.mp hAt.2
  have hLength : (Forest.children (rows.map Prod.fst) i).length = 2 * members.length := by
    rw [← hAll.length_eq]
    exact length_memberTrees members
  refine ⟨by rw [h.shows.childCount hLt, hLength], fun k hk => ?_⟩
  rw [h.childAt_eq hLt hContainer (by omega), h.childAt_eq hLt hContainer (by omega)]
  obtain ⟨hKeyAt, hValueAt⟩ := member_at hAll hk
  refine ⟨hKeyAt, hValueAt, (h.shows.child_below ?_).1⟩
  rw [List.getD_eq_getElem _ _ (by omega)]
  exact List.getElem_mem _

theorem array_children (h : document.Published rows) {span : Span} {elements : List Source}
    {i : Nat} (hAt : Rose.At rows (Source.array span elements).rose i) :
    (document.token i).links.childCount = elements.length ∧
      ∀ k (hk : k < elements.length),
        Rose.At rows (elements[k]).rose (childAt document (document.token i) k) ∧
          i < childAt document (document.token i) k := by
  have hLt := hAt.lt_length
  have hType := h.token_type hAt
  have hContainer : (document.token i).isContainer = true := by
    rw [Token.isContainer, hType]
    rfl
  rw [Source.rose_array] at hAt
  have hAll := Rose.allAt_iff.mp hAt.2
  have hLength : (Forest.children (rows.map Prod.fst) i).length = elements.length := by
    rw [← hAll.length_eq, List.length_map]
  refine ⟨by rw [h.shows.childCount hLt, hLength], fun k hk => ?_⟩
  rw [h.childAt_eq hLt hContainer (by omega)]
  refine ⟨element_at hAll hk, (h.shows.child_below ?_).1⟩
  rw [List.getD_eq_getElem _ _ (by omega)]
  exact List.getElem_mem _

/-! ### Accessors -/

theorem objectSize_eq (h : document.Published rows) {span : Span}
    {members : List (Literal × Source)} {i : Nat}
    (hAt : Rose.At rows (Source.object span members).rose i) :
    objectSize document i = .ok members.length := by
  have hToken : tokenOf document i .object = .ok (document.token i) := h.tokenOf_eq hAt
  rw [objectSize, hToken]
  refine congrArg Except.ok ?_
  rw [(h.object_children hAt).1, Nat.mul_div_cancel_left _ Nat.zero_lt_two]

theorem objectMemberAt_eq (h : document.Published rows) {span : Span}
    {members : List (Literal × Source)} {i : Nat}
    (hAt : Rose.At rows (Source.object span members).rose i) {k : Nat} (hk : k < members.length) :
    ∃ v, objectMemberAt document i k = .ok ((members[k]).1.text, v) ∧
      Rose.At rows (members[k]).2.rose v ∧ i < v := by
  have hToken : tokenOf document i .object = .ok (document.token i) := h.tokenOf_eq hAt
  obtain ⟨hCount, hMembers⟩ := h.object_children hAt
  obtain ⟨hKeyAt, hValueAt, hBelow⟩ := hMembers k hk
  refine ⟨childAt document (document.token i) (2 * k + 1), ?_, hValueAt, hBelow⟩
  have hRange : ¬k ≥ (document.token i).links.childCount / 2 := by
    rw [hCount, Nat.mul_div_cancel_left _ Nat.zero_lt_two]
    omega
  rw [objectMemberAt, hToken]
  simp only [bind, Except.bind, if_neg hRange, h.key_text hKeyAt]
  rfl

theorem arraySize_eq (h : document.Published rows) {span : Span} {elements : List Source} {i : Nat}
    (hAt : Rose.At rows (Source.array span elements).rose i) :
    arraySize document i = .ok elements.length := by
  have hToken : tokenOf document i .array = .ok (document.token i) := h.tokenOf_eq hAt
  rw [arraySize, hToken]
  exact congrArg Except.ok (h.array_children hAt).1

theorem arrayGet_eq (h : document.Published rows) {span : Span} {elements : List Source} {i : Nat}
    (hAt : Rose.At rows (Source.array span elements).rose i) {k : Nat} (hk : k < elements.length) :
    ∃ v, arrayGet document i k = .ok v ∧ Rose.At rows (elements[k]).rose v ∧ i < v := by
  have hToken : tokenOf document i .array = .ok (document.token i) := h.tokenOf_eq hAt
  obtain ⟨hCount, hElements⟩ := h.array_children hAt
  refine ⟨_, ?_, hElements k hk⟩
  rw [arrayGet, hToken]
  simp only [bind, Except.bind, if_neg (show ¬k ≥ (document.token i).links.childCount by omega)]
  rfl

theorem objectGetFrom_eq (h : document.Published rows) {span : Span}
    {members : List (Literal × Source)} {i : Nat}
    (hAt : Rose.At rows (Source.object span members).rose i) (key : Bytes) (rounds k : Nat)
    (hRounds : k + rounds = members.length) :
    match (members.drop k).find? (fun m => m.1.text == key) with
    | some m => ∃ v, objectGetFrom document (document.token i) key rounds k = .ok v ∧
      Rose.At rows m.2.rose v
    | none => objectGetFrom document (document.token i) key rounds k = .error .errNotFound := by
  induction rounds generalizing k with
  | zero =>
      rw [List.drop_eq_nil_of_le (by omega)]
      rfl
  | succ rounds ih =>
      have hk : k < members.length := by omega
      obtain ⟨hKeyAt, hValueAt, -⟩ := (h.object_children hAt).2 k hk
      obtain ⟨⟨parent, cell⟩, hRow, hCell⟩ := Option.map_eq_some_iff.mp hKeyAt.1
      have hSize : (document.token (childAt document (document.token i) (2 * k))).textSize =
          (members[k]).1.text.length := by
        rw [h.shows.textSize hRow, hCell]
        rfl
      rw [List.drop_eq_getElem_cons hk, List.find?_cons, objectGetFrom, h.key_text hKeyAt, hSize]
      by_cases hKey : (members[k]).1.text = key
      · rw [if_pos ⟨by rw [hKey], hKey⟩]
        simp only [hKey, beq_self_eq_true]
        exact ⟨_, rfl, hValueAt⟩
      · rw [if_neg fun h => hKey h.2]
        simp only [beq_eq_false_iff_ne.mpr hKey]
        exact ih (k + 1) (by omega)

theorem objectGetSized_eq (h : document.Published rows) {span : Span}
    {members : List (Literal × Source)} {i : Nat}
    (hAt : Rose.At rows (Source.object span members).rose i) (key : Bytes) :
    match members.find? (fun m => m.1.text == key) with
    | some m => ∃ v, objectGetSized document i key = .ok v ∧ Rose.At rows m.2.rose v
    | none => objectGetSized document i key = .error .errNotFound := by
  have hToken : tokenOf document i .object = .ok (document.token i) := h.tokenOf_eq hAt
  have hCount : (document.token i).links.childCount / 2 = members.length := by
    rw [(h.object_children hAt).1, Nat.mul_div_cancel_left _ Nat.zero_lt_two]
  rw [objectGetSized, hToken]
  simp only [bind, Except.bind, hCount]
  exact h.objectGetFrom_eq hAt key members.length 0 (Nat.zero_add _)

/-- A lookup in a value of another type is refused. -/
theorem tokenOf_error (h : document.Published rows) {s : Source} {i : Nat}
    (hAt : Rose.At rows s.rose i) {expected : ValueType} (hType : s.cell.type ≠ expected) :
    tokenOf document i expected = .error .errType := by
  have hLt : ¬i ≥ document.tokens.length := by
    rw [h.shows.length]
    exact not_le.mpr hAt.lt_length
  rw [tokenOf, if_neg hLt, if_pos (by rwa [h.token_type hAt])]

theorem valueBoolean_eq (h : document.Published rows) {span : Span} {value : Bool} {i : Nat}
    (hAt : Rose.At rows (Source.boolean span value).rose i) :
    valueBoolean document i = .ok value := by
  have hToken : tokenOf document i .boolean = .ok (document.token i) := h.tokenOf_eq hAt
  obtain ⟨parent, hRow⟩ := row_of_value hAt
  rw [valueBoolean, hToken]
  exact congrArg Except.ok (h.shows.booleanValue hRow)

theorem valueIsNull_eq (h : document.Published rows) {span : Span} {i : Nat}
    (hAt : Rose.At rows (Source.null span).rose i) : valueIsNull document i = true := by
  rw [valueIsNull, h.token_type hAt, h.shows.length, decide_eq_true hAt.lt_length]
  rfl

end Document.Published

/-! ### Whole trees -/

theorem mapM_eq_ok {α β ε : Type} {f : α → Except ε β} {xs : List α} {ys : List β}
    (h : List.Forall₂ (fun x y => f x = .ok y) xs ys) : xs.mapM f = .ok ys := by
  induction h with
  | nil => rfl
  | cons hHead _ ih =>
      rw [List.mapM_cons, hHead, ih]
      rfl

theorem mapM_range {β ε : Type} {f : Nat → Except ε β} {ys : List β} {n : Nat}
    (hLength : ys.length = n) (h : ∀ k (hk : k < ys.length), f k = .ok ys[k]) :
    (List.range n).mapM f = .ok ys := by
  subst hLength
  refine mapM_eq_ok (List.forall₂_iff_get.mpr ⟨List.length_range, fun k hk hk' => ?_⟩)
  rw [List.get_eq_getElem, List.get_eq_getElem, List.getElem_range]
  exact h k hk'

theorem mapM_range_iff {β ε : Type} {f : Nat → Except ε β} {ys : List β} {n : Nat} :
    (List.range n).mapM f = .ok ys ↔ ys.length = n ∧ ∀ k (hk : k < ys.length), f k = .ok ys[k] := by
  have hForall {xs : List Nat} {ys : List β} (h : xs.mapM f = .ok ys) :
      List.Forall₂ (fun x y => f x = .ok y) xs ys := by
    induction xs generalizing ys with
    | nil =>
        cases h
        exact .nil
    | cons x xs ih =>
        rw [List.mapM_cons] at h
        cases hHead : f x with
        | error e =>
            rw [hHead] at h
            cases h
        | ok y =>
            rw [hHead] at h
            cases hTail : xs.mapM f with
            | error e =>
                rw [hTail] at h
                cases h
            | ok ys' =>
                rw [hTail] at h
                cases h
                exact .cons hHead (ih hTail)
  refine ⟨fun h => ?_, fun h => mapM_range h.1 h.2⟩
  have hAll := hForall h
  have hLength : ys.length = n := by rw [← hAll.length_eq, List.length_range]
  refine ⟨hLength, fun k hk => ?_⟩
  have hAt := (List.forall₂_iff_get.mp hAll).2 k (by rwa [List.length_range, ← hLength]) hk
  rwa [List.get_eq_getElem, List.get_eq_getElem, List.getElem_range] at hAt

section

variable {fuel value : Nat} {t : Json}

/-- The tree at an object shows its members one by one. -/
theorem valueTree_object (hType : valueType document value = .object)
    (h : valueTree document (fuel + 1) value = .ok t) :
    ∃ members, t = .object members ∧ objectSize document value = .ok members.length ∧
      ∀ k (hk : k < members.length), ∃ v, objectMemberAt document value k = .ok (members[k].1, v) ∧
        valueTree document fuel v = .ok members[k].2 := by
  rw [valueTree, hType] at h
  simp only [bind, Except.bind] at h
  cases hSize : objectSize document value with
  | error r =>
      rw [hSize] at h
      cases h
  | ok count =>
      rw [hSize] at h
      simp only at h
      split at h
      · cases h
      · rename_i members hMembers
        cases h
        obtain ⟨hLength, hEach⟩ := mapM_range_iff.mp hMembers
        refine ⟨members, rfl, by rw [hLength], fun k hk => ?_⟩
        have hMember := hEach k hk
        cases hAt : objectMemberAt document value k with
        | error r =>
            rw [hAt] at hMember
            cases hMember
        | ok m =>
            rw [hAt] at hMember
            simp only at hMember
            cases hTree : valueTree document fuel m.2 with
            | error r =>
                rw [hTree] at hMember
                cases hMember
            | ok tree =>
                rw [hTree] at hMember
                have hSame : (m.1, tree) = members[k] := Except.ok.inj hMember
                rw [← hSame]
                exact ⟨m.2, rfl, hTree⟩

theorem valueTree_array (hType : valueType document value = .array)
    (h : valueTree document (fuel + 1) value = .ok t) :
    ∃ elements, t = .array elements ∧ arraySize document value = .ok elements.length ∧
      ∀ k (hk : k < elements.length), ∃ v, arrayGet document value k = .ok v ∧
        valueTree document fuel v = .ok elements[k] := by
  rw [valueTree, hType] at h
  simp only [bind, Except.bind] at h
  cases hSize : arraySize document value with
  | error r =>
      rw [hSize] at h
      cases h
  | ok count =>
      rw [hSize] at h
      simp only at h
      split at h
      · cases h
      · rename_i elements hElements
        cases h
        obtain ⟨hLength, hEach⟩ := mapM_range_iff.mp hElements
        refine ⟨elements, rfl, by rw [hLength], fun k hk => ?_⟩
        have hElement := hEach k hk
        cases hAt : arrayGet document value k with
        | error r =>
            rw [hAt] at hElement
            cases hElement
        | ok v =>
            rw [hAt] at hElement
            exact ⟨v, rfl, hElement⟩

/-- What is shown is shown with more room for nesting as well. -/
theorem valueTree_succ (h : valueTree document fuel value = .ok t) :
    valueTree document (fuel + 1) value = .ok t := by
  induction fuel generalizing value t with
  | zero => cases h
  | succ fuel ih =>
      cases hType : valueType document value with
      | object =>
          obtain ⟨members, rfl, hSize, hMembers⟩ := valueTree_object hType h
          have hAll : (List.range members.length).mapM (fun k => do
              let (key, member) ← objectMemberAt document value k
              let tree ← valueTree document (fuel + 1) member
              return (key, tree)) = .ok members := by
            refine mapM_range rfl fun k hk => ?_
            obtain ⟨v, hAt, hTree⟩ := hMembers k hk
            rw [hAt]
            simp only [bind, Except.bind, ih hTree]
            rfl
          rw [valueTree, hType]
          simp only [hSize, bind, Except.bind] at hAll ⊢
          rw [hAll]
          rfl
      | array =>
          obtain ⟨elements, rfl, hSize, hElements⟩ := valueTree_array hType h
          have hAll : (List.range elements.length).mapM (fun k => do
              let element ← arrayGet document value k
              valueTree document (fuel + 1) element) = .ok elements := by
            refine mapM_range rfl fun k hk => ?_
            obtain ⟨v, hAt, hTree⟩ := hElements k hk
            rw [hAt]
            exact ih hTree
          rw [valueTree, hType]
          simp only [hSize, bind, Except.bind] at hAll ⊢
          rw [hAll]
          rfl
      | _ =>
          rw [valueTree, hType] at h ⊢
          exact h

end

/-- The accessors show the value that stands in the table. -/
theorem valueTree_eq (h : document.Published rows) (s : Source) {i fuel : Nat}
    (hAt : Rose.At rows s.rose i) (hFuel : rows.length ≤ i + fuel) :
    valueTree document fuel i = .ok s.json := by
  have hLt := hAt.lt_length
  obtain ⟨fuel, rfl⟩ : ∃ n, fuel = n + 1 := ⟨fuel - 1, by omega⟩
  induction s generalizing i fuel with
  | object span members ih =>
      have hMembers : (List.range members.length).mapM (fun k => do
          let (key, member) ← objectMemberAt document i k
          let tree ← valueTree document fuel member
          return (key, tree)) = .ok (members.map fun m => (m.1.text, m.2.json)) := by
        refine mapM_range (List.length_map _) fun k hk => ?_
        rw [List.length_map] at hk
        obtain ⟨v, hMember, hAtV, hBelow⟩ := h.objectMemberAt_eq hAt hk
        have hLtV := hAtV.lt_length
        obtain ⟨fuel, rfl⟩ : ∃ n, fuel = n + 1 := ⟨fuel - 1, by omega⟩
        have hTree := ih _ (List.getElem_mem hk) hAtV hLtV fuel (by omega)
        rw [hMember, List.getElem_map]
        simp only [bind, Except.bind, hTree]
        rfl
      rw [valueTree, h.valueType_eq hAt, Source.cell]
      simp only [h.objectSize_eq hAt, bind, Except.bind] at hMembers ⊢
      rw [hMembers, Source.json_object]
      rfl
  | array span elements ih =>
      have hElements : (List.range elements.length).mapM (fun k => do
          let element ← arrayGet document i k
          valueTree document fuel element) = .ok (elements.map Source.json) := by
        refine mapM_range (List.length_map _) fun k hk => ?_
        rw [List.length_map] at hk
        obtain ⟨v, hElement, hAtV, hBelow⟩ := h.arrayGet_eq hAt hk
        have hLtV := hAtV.lt_length
        obtain ⟨fuel, rfl⟩ : ∃ n, fuel = n + 1 := ⟨fuel - 1, by omega⟩
        have hTree := ih _ (List.getElem_mem hk) hAtV hLtV fuel (by omega)
        rw [hElement, List.getElem_map]
        exact hTree
      rw [valueTree, h.valueType_eq hAt, Source.cell]
      simp only [h.arraySize_eq hAt, bind, Except.bind] at hElements ⊢
      rw [hElements, Source.json_array]
      rfl
  | string literal =>
      have hText : valueString document i = .ok literal.text := h.textView_eq hAt
      rw [valueTree, h.valueType_eq hAt, Source.cell]
      simp only [hText]
      rfl
  | number span lexeme =>
      have hText : valueNumberText document i = .ok lexeme := h.textView_eq hAt
      rw [valueTree, h.valueType_eq hAt, Source.cell]
      simp only [hText]
      rfl
  | boolean span value =>
      rw [valueTree, h.valueType_eq hAt, Source.cell]
      simp only [h.valueBoolean_eq hAt]
      rfl
  | null span =>
      rw [valueTree, h.valueType_eq hAt, Source.cell]
      simp only [h.valueIsNull_eq hAt, if_true]
      rfl

/-- A path leads where it leads in the tree, or nowhere. -/
theorem valueAt_eq (h : document.Published rows) (s : Source) {i : Nat}
    (hAt : Rose.At rows s.rose i) (path : List Step) :
    match s.json.follow path with
    | some t => ∃ (v : Nat) (s' : Source), valueAt document i path = .ok v ∧
      Rose.At rows s'.rose v ∧ s'.json = t
    | none => ∃ result, valueAt document i path = .error result := by
  induction path generalizing s i with
  | nil => exact ⟨i, s, rfl, hAt, rfl⟩
  | cons step path ih =>
      -- a step that the value has no room for
      have hKey (name : Bytes) (hType : s.cell.type ≠ .object) :
          ∃ result, valueAt document i (.key name :: path) = .error result := by
        rw [valueAt, objectGetSized, h.tokenOf_error hAt hType]
        exact ⟨_, rfl⟩
      have hIndex (position : Nat) (hType : s.cell.type ≠ .array) :
          ∃ result, valueAt document i (.index position :: path) = .error result := by
        rw [valueAt, arrayGet, h.tokenOf_error hAt hType]
        exact ⟨_, rfl⟩
      cases step with
      | key name =>
          cases s with
          | object span members =>
              have hGet := h.objectGetSized_eq hAt name
              have hFind : (members.map fun m => (m.1.text, m.2.json)).find? (·.1 == name) =
                  (members.find? fun m => m.1.text == name).map fun m => (m.1.text, m.2.json) := by
                rw [List.find?_map]
                rfl
              rw [Source.json_object, Tree.follow, hFind, valueAt]
              cases hMember : members.find? fun m => m.1.text == name with
              | none =>
                  rw [hMember] at hGet
                  rw [hGet]
                  exact ⟨_, rfl⟩
              | some m =>
                  rw [hMember] at hGet
                  obtain ⟨v, hGet, hAtV⟩ := hGet
                  rw [hGet]
                  exact ih m.2 hAtV
          | _ => exact hKey name nofun
      | index position =>
          cases s with
          | array span elements =>
              rw [Source.json_array, Tree.follow, List.getElem?_map, valueAt]
              by_cases hPosition : position < elements.length
              · obtain ⟨v, hGet, hAtV, -⟩ := h.arrayGet_eq hAt hPosition
                rw [List.getElem?_eq_getElem hPosition, hGet]
                exact ih _ hAtV
              · have hToken : tokenOf document i .array = .ok (document.token i) := h.tokenOf_eq hAt
                have hCount := (h.array_children hAt).1
                rw [List.getElem?_eq_none (by omega), arrayGet, hToken]
                simp only [bind, Except.bind,
                  if_pos (show position ≥ (document.token i).links.childCount by omega)]
                exact ⟨_, rfl⟩
          | _ => exact hIndex position nofun

/-- A document published from the rows of a value shows that value. -/
theorem documentTree_eq {s : Source} (h : document.Published (s.rows 0 none)) :
    documentTree document = .ok s.json := by
  have hAt : Rose.At (s.rows 0 none) s.rose 0 := Rose.at_rows s.rose
  have hPos := hAt.lt_length
  have hRoot : documentRoot document = some 0 := by
    rw [documentRoot, if_neg (by rw [h.shows.length]; omega)]
  rw [documentTree, hRoot]
  exact valueTree_eq h s hAt (by rw [h.shows.length, Nat.zero_add])

end MaelysJson
