import MaelysJson.Reading.Language

/-! The representation of a published document: where the children of every container
stand, where every text stands in the arena, and that the two ways to a member of an
object, by key and by position, lead to the same value. -/
namespace MaelysJson

open Forest

/-! ### Parts of a value -/

/-- The values inside a value, itself included. -/
inductive Source.Part (s : Source) : Source → Prop where
  | self : Part s s
  | member {span : Span} {members : List (Literal × Source)} {m : Literal × Source}
      (outer : Part s (.object span members)) (hm : m ∈ members) : Part s m.2
  | element {span : Span} {elements : List Source} {v : Source}
      (outer : Part s (.array span elements)) (hv : v ∈ elements) : Part s v

theorem Source.Part.uniqueKeys {s part : Source} (h : s.Part part)
    (hUnique : s.json.uniqueKeys = true) :
    part.json.uniqueKeys = true := by
  induction h with
  | self => exact hUnique
  | member outer hm ih =>
      rw [json_object, Tree.uniqueKeys_object] at ih
      exact ih.2 _ (List.mem_map_of_mem hm)
  | element outer hv ih =>
      rw [json_array, Tree.uniqueKeys_array] at ih
      exact ih _ (List.mem_map_of_mem hv)

/-! ### Rows of a table -/

theorem forall₂_right {α β : Type} {R : α → β → Prop} {xs : List α} {ys : List β}
    (h : List.Forall₂ R xs ys) {y : β} (hy : y ∈ ys) : ∃ x ∈ xs, R x y := by
  induction h with
  | nil => cases hy
  | cons hHead _ ih =>
      rcases List.mem_cons.mp hy with rfl | hy
      · exact ⟨_, List.mem_cons_self, hHead⟩
      · obtain ⟨x, hx, hR⟩ := ih hy
        exact ⟨x, List.mem_cons_of_mem _ hx, hR⟩

/-- What stands at an index of the table of `s`: a value inside it, or a key. -/
inductive Source.Stands (s : Source) (rows : List (Row Cell)) (j : Nat) : Prop where
  | value {part : Source} (hPart : s.Part part) (hAt : Rose.At rows part.rose j)
  | key {span : Span} {members : List (Literal × Source)} {m : Literal × Source}
      (hPart : s.Part (.object span members)) (hm : m ∈ members)
      (hAt : Rose.At rows (.node (Source.keyCell m.1) []) j)

variable {document : Document} {s : Source}

namespace Document.Published

/-- Every row belongs to a part of the value. The induction follows the parents, which
come before their children. -/
theorem stands (h : document.Published (s.rows 0 none)) {j : Nat}
    (hj : j < (s.rows 0 none).length) :
    s.Stands (s.rows 0 none) j := by
  induction j using Nat.strong_induction_on with
  | _ j ih =>
      rcases Nat.eq_zero_or_pos j with rfl | hPos
      · exact .value .self (Rose.at_rows s.rose)
      obtain ⟨⟨parent, cell⟩, hRow⟩ : ∃ row, (s.rows 0 none)[j]? = some row :=
        ⟨_, List.getElem?_eq_getElem hj⟩
      obtain ⟨p, hParent⟩ := Rose.parent_of_rows s.rose hPos hRow
      obtain rfl : parent = some p := hParent
      have hBelow := h.shows.below hRow
      have hChild : j ∈ Forest.children ((s.rows 0 none).map Prod.fst) p := by
        rw [mem_children, List.getElem?_map, hRow]
        rfl
      rcases ih p hBelow (hBelow.trans hj) with ⟨hPart, hAt⟩ | ⟨hPart, hm, hAt⟩
      · rename_i part
        cases part with
        | object span members =>
            rw [Source.rose_object] at hAt
            obtain ⟨tree, hTree, hTreeAt⟩ := forall₂_right (Rose.allAt_iff.mp hAt.2) hChild
            obtain ⟨m, hm, hTree⟩ := List.mem_flatMap.mp hTree
            simp only [List.mem_cons, List.not_mem_nil, or_false] at hTree
            rcases hTree with rfl | rfl
            · exact .key hPart hm hTreeAt
            · exact .value (hPart.member hm) hTreeAt
        | array span elements =>
            rw [Source.rose_array] at hAt
            obtain ⟨tree, hTree, hTreeAt⟩ := forall₂_right (Rose.allAt_iff.mp hAt.2) hChild
            obtain ⟨v, hv, rfl⟩ := List.mem_map.mp hTree
            exact .value (hPart.element hv) hTreeAt
        | _ =>
            rw [children_of_leaf hAt] at hChild
            cases hChild
      · rw [children_of_leaf hAt] at hChild
        cases hChild

/-- The parent of every row but the first is a container. -/
theorem container_of_child (h : document.Published (s.rows 0 none)) {p j : Nat}
    (hChild : j ∈ Forest.children ((s.rows 0 none).map Prod.fst) p) :
    (document.token p).isContainer = true := by
  obtain ⟨hBelow, hj⟩ := h.shows.child_below hChild
  rcases h.stands (hBelow.trans hj) with ⟨hPart, hAt⟩ | ⟨hPart, hm, hAt⟩
  · rename_i part
    have hType := h.token_type hAt
    cases part with
    | object span members => rw [Token.isContainer, hType]; rfl
    | array span elements => rw [Token.isContainer, hType]; rfl
    | _ =>
        rw [children_of_leaf hAt] at hChild
        cases hChild
  · rw [children_of_leaf hAt] at hChild
    cases hChild

/-- Strings, keys and numbers have a text, other tokens none. -/
theorem text_isSome (h : document.Published (s.rows 0 none)) {j : Nat}
    (hj : j < (s.rows 0 none).length) :
    (document.token j).text.isSome = true ↔ (document.token j).type = .string ∨
      (document.token j).type = .number ∨ (document.token j).objectKey = true := by
  have hRow {cell : Cell} {kids : List (Rose Cell)}
      (hAt : Rose.At (s.rows 0 none) (.node cell kids) j)
      (hCell : cell.text.isSome = true ↔ cell.type = .string ∨ cell.type = .number ∨
        cell.objectKey = true) :
      (document.token j).text.isSome = true ↔ (document.token j).type = .string ∨
        (document.token j).type = .number ∨ (document.token j).objectKey = true := by
    obtain ⟨⟨parent, cell⟩, hRow, rfl⟩ := Option.map_eq_some_iff.mp hAt.1
    rw [h.shows.text hRow, h.shows.type hRow, h.shows.objectKey hRow, Option.isSome_map]
    exact hCell
  rcases h.stands hj with ⟨hPart, hAt⟩ | ⟨hPart, hm, hAt⟩
  · rename_i part
    cases part with
    | object span members => rw [Source.rose_object] at hAt; exact hRow hAt (by simp)
    | array span elements => rw [Source.rose_array] at hAt; exact hRow hAt (by simp)
    | _ => exact hRow hAt (by simp)
  · exact hRow hAt (by simp [Source.keyCell])

end Document.Published

/-! ### Children -/

/-- The children of a container, as the array of children holds them. -/
def Document.slice (document : Document) (container : Nat) : List Nat :=
  (document.children.drop (document.token container).childrenOffset).take
    (document.token container).links.childCount

/-- Every token but the root stands once in the array of children, in the slice of its parent;
slices do not meet, and each holds later tokens in increasing order. -/
structure Document.ChildrenSound (document : Document) : Prop where
  once : ∀ i, 0 < i → i < document.tokens.length → document.children.count i = 1
  own : ∀ i, 0 < i → i < document.tokens.length → ∃ p, (document.token i).links.parent = some p ∧
    p < document.tokens.length ∧ (document.token p).isContainer = true ∧ i ∈ document.slice p
  inside : ∀ c < document.tokens.length, (document.token c).isContainer = true →
    (document.token c).childrenOffset + (document.token c).links.childCount ≤
      document.children.length
  disjoint : ∀ c < document.tokens.length, ∀ d < document.tokens.length,
    (document.token c).isContainer = true → (document.token d).isContainer = true → c ≠ d →
    (document.token c).childrenOffset + (document.token c).links.childCount ≤
        (document.token d).childrenOffset ∨
      (document.token d).childrenOffset + (document.token d).links.childCount ≤
        (document.token c).childrenOffset
  increasing : ∀ c < document.tokens.length, (document.token c).isContainer = true →
    (document.slice c).Pairwise (· < ·)
  after : ∀ c < document.tokens.length, (document.token c).isContainer = true →
    ∀ i ∈ document.slice c, c < i ∧ i < document.tokens.length

namespace Document.Published

theorem slice_eq {rows : List (Row Cell)} (h : document.Published rows) {c : Nat}
    (hc : c < rows.length) (hContainer : (document.token c).isContainer = true) :
    document.slice c = Forest.children (rows.map Prod.fst) c := by
  obtain ⟨before, after, hChildren, hOffset⟩ := h.slices hc hContainer
  rw [Document.slice, hChildren, hOffset, h.shows.childCount hc, List.append_assoc, List.drop_left,
    List.take_left]

theorem childrenSound (h : document.Published (s.rows 0 none)) : document.ChildrenSound := by
  have hLength := h.shows.length
  have hParent (i : Nat) (hPos : 0 < i) (hi : i < (s.rows 0 none).length) :
      ∃ p cell, (s.rows 0 none)[i]? = some (some p, cell) ∧
        i ∈ Forest.children ((s.rows 0 none).map Prod.fst) p := by
    obtain ⟨⟨parent, cell⟩, hRow⟩ : ∃ row, (s.rows 0 none)[i]? = some row :=
      ⟨_, List.getElem?_eq_getElem hi⟩
    obtain ⟨p, hParent⟩ := Rose.parent_of_rows s.rose hPos hRow
    obtain rfl : parent = some p := hParent
    refine ⟨p, cell, hRow, ?_⟩
    rw [mem_children, List.getElem?_map, hRow]
    rfl
  constructor
  · intro i hPos hi
    rw [hLength] at hi
    obtain ⟨p, cell, hRow, hChild⟩ := hParent i hPos hi
    have hMem := (mem_children p).mp hChild
    rw [h.laid, count_layout fun q hq => h.container_of_child ((mem_children q).mpr hq), if_pos]
    exact ⟨p, (h.shows.below hRow).trans hi, hMem⟩
  · intro i hPos hi
    rw [hLength] at hi
    obtain ⟨p, cell, hRow, hChild⟩ := hParent i hPos hi
    have hp := (h.shows.below hRow).trans hi
    have hContainer := h.container_of_child hChild
    refine ⟨p, h.shows.parent hRow, by rwa [hLength], hContainer, ?_⟩
    rwa [h.slice_eq hp hContainer]
  · intro c hc hContainer
    rw [hLength] at hc
    obtain ⟨before, after, hChildren, hOffset⟩ := h.slices hc hContainer
    rw [hChildren, hOffset, h.shows.childCount hc, List.length_append, List.length_append]
    exact Nat.le_add_right _ _
  · intro c hc d hd hContainer hContainer' hne
    rw [hLength] at hc hd
    rw [h.offsets c hc hContainer, h.offsets d hd hContainer', h.shows.childCount hc,
      h.shows.childCount hd]
    rcases Nat.lt_or_gt_of_ne hne with hlt | hlt
    · exact Or.inl (layout_disjoint hlt hContainer)
    · exact Or.inr (layout_disjoint hlt hContainer')
  · intro c hc hContainer
    rw [hLength] at hc
    rw [h.slice_eq hc hContainer]
    exact children_sorted c _
  · intro c hc hContainer i hi
    rw [hLength] at hc
    rw [h.slice_eq hc hContainer] at hi
    rw [hLength]
    exact h.shows.child_below hi

end Document.Published

/-! ### Texts -/

/-- Every string, key and number has its text in the arena, followed by the only NUL of its
view, and no two views meet. -/
structure Document.TextsSound (document : Document) : Prop where
  stored : ∀ i < document.tokens.length, (document.token i).type = .string ∨
    (document.token i).type = .number ∨ (document.token i).objectKey = true →
      ∃ offset, (document.token i).text = some offset
  terminated : ∀ i < document.tokens.length, ∀ offset, (document.token i).text = some offset →
    document.arena[offset + (document.token i).textSize]? = some 0
  nulFree : ∀ i < document.tokens.length, ∀ offset, (document.token i).text = some offset →
    ∀ k < (document.token i).textSize, document.arena[offset + k]? ≠ some 0
  apart : ∀ i < document.tokens.length, ∀ j < document.tokens.length, i ≠ j →
    ∀ offset offset', (document.token i).text = some offset →
      (document.token j).text = some offset' →
      offset + (document.token i).textSize < offset' ∨
      offset' + (document.token j).textSize < offset

namespace Document.Published

/-- Where the text of a row stands. -/
theorem view {rows : List (Row Cell)} (h : document.Published rows) {i offset : Nat}
    (hi : i < rows.length) (hText : (document.token i).text = some offset) :
    ∃ row text, rows[i]? = some row ∧ row.2.text = some text ∧
      offset = (arenaOf (rows.take i)).length ∧ (document.token i).textSize = text.length ∧
      document.arena.drop offset = text ++ [0] ++ arenaOf (rows.drop (i + 1)) := by
  obtain ⟨row, hRow⟩ : ∃ row, rows[i]? = some row := ⟨_, List.getElem?_eq_getElem hi⟩
  rw [h.shows.text hRow, Option.map_eq_some_iff] at hText
  obtain ⟨text, hCell, hOffset⟩ := hText
  refine ⟨row, text, hRow, hCell, hOffset.symm, ?_, ?_⟩
  · rw [h.shows.textSize hRow, hCell]
    rfl
  · rw [← hOffset, h.shows.drop_arena hRow, cellText, hCell]

/-- A view ends before the text of any later row begins. -/
theorem view_before {rows : List (Row Cell)} (h : document.Published rows)
    {i j offset offset' : Nat} (hij : i < j) (hj : j < rows.length)
    (hText : (document.token i).text = some offset)
    (hText' : (document.token j).text = some offset') :
    offset + (document.token i).textSize < offset' := by
  obtain ⟨row, text, hRow, hCell, rfl, hSize, -⟩ := h.view (hij.trans hj) hText
  obtain ⟨-, -, -, -, rfl, -, -⟩ := h.view hj hText'
  obtain ⟨rest, hRest⟩ : rows.take (i + 1) <+: rows.take j := (List.take_prefix_take_left hij)
  have hTake : rows.take (i + 1) = rows.take i ++ [row] := by
    rw [List.take_add_one, hRow]
    rfl
  rw [hSize, ← hRest, hTake, arenaOf_append, arenaOf_append, arenaOf_singleton, cellText, hCell]
  simp only [List.length_append, List.length_singleton]
  omega

theorem textsSound (h : document.Published (s.rows 0 none))
    (hNul : ∀ text ∈ s.json.texts, (0 : UInt8) ∉ text) :
    document.TextsSound := by
  have hLength := h.shows.length
  constructor
  · intro i hi hType
    rw [hLength] at hi
    rw [← Option.isSome_iff_exists, h.text_isSome hi]
    exact hType
  · intro i hi offset hText
    rw [hLength] at hi
    obtain ⟨row, text, -, -, -, hSize, hArena⟩ := h.view hi hText
    rw [← List.getElem?_drop, hArena, hSize, List.append_assoc, List.getElem?_append_right le_rfl,
      Nat.sub_self]
    rfl
  · intro i hi offset hText k hk hZero
    rw [hLength] at hi
    obtain ⟨row, text, hRow, hCell, -, hSize, hArena⟩ := h.view hi hText
    rw [hSize] at hk
    rw [← List.getElem?_drop, hArena, List.append_assoc, List.getElem?_append_left hk] at hZero
    refine hNul text ?_ (List.mem_of_getElem? hZero)
    rw [← s.texts_rows 0 none, List.mem_filterMap]
    exact ⟨row, List.mem_of_getElem? hRow, hCell⟩
  · intro i hi j hj hne offset offset' hText hText'
    rw [hLength] at hi hj
    rcases Nat.lt_or_gt_of_ne hne with hlt | hlt
    · exact Or.inl (h.view_before hlt hj hText hText')
    · exact Or.inr (h.view_before hlt hi hText' hText)

end Document.Published

/-! ### Lookups -/

/-- A key leads to the member that a position shows under that key, and to no other. -/
structure Document.LookupsAgree (document : Document) : Prop where
  found : ∀ object, valueType document object = .object → ∀ key v,
    objectGetSized document object key = .ok v ↔
    ∃ i, objectMemberAt document object i = .ok (key, v)
  unique : ∀ object, valueType document object = .object → ∀ key i j v w,
    objectMemberAt document object i = .ok (key, v) →
    objectMemberAt document object j = .ok (key, w) → i = j
  missing : ∀ object, valueType document object = .object → ∀ key,
    (∀ i v, objectMemberAt document object i ≠ .ok (key, v)) →
      objectGetSized document object key = .error .errNotFound

/-- The key at a position of an object. -/
def Document.keyAt (document : Document) (container : Token) (i : Nat) : Token :=
  document.token (childAt document container (2 * i))

/-- The search stops at the first member with the key. -/
theorem objectGetFrom_cases (document : Document) (container : Token) (key : Bytes)
    (rounds start : Nat)
    (hSizes : ∀ i, start ≤ i → i < start + rounds →
      (document.keyAt container i).textSize =
        (document.textOf (document.keyAt container i)).length) :
    (∃ i, start ≤ i ∧ i < start + rounds ∧ document.textOf (document.keyAt container i) = key ∧
        objectGetFrom document container key rounds start =
          .ok (childAt document container (2 * i + 1))) ∨
      ((∀ i, start ≤ i → i < start + rounds → document.textOf (document.keyAt container i) ≠ key) ∧
        objectGetFrom document container key rounds start = .error .errNotFound) := by
  induction rounds generalizing start with
  | zero => exact Or.inr ⟨fun i _ _ => by omega, rfl⟩
  | succ rounds ih =>
      have hSize := hSizes start le_rfl (by omega)
      rw [objectGetFrom]
      simp only [Document.keyAt] at hSize ⊢
      by_cases hKey : document.textOf (document.token (childAt document container (2 * start))) =
        key
      · refine Or.inl ⟨start, le_rfl, by omega, hKey, ?_⟩
        rw [if_pos ⟨by rw [hSize, hKey], hKey⟩]
      · rw [if_neg fun h => hKey h.2]
        rcases ih (start + 1) fun i hi hi' => hSizes i (by omega) (by omega) with
          ⟨i, hi, hi', hText, hGet⟩ | ⟨hNone, hGet⟩
        · exact Or.inl ⟨i, by omega, by omega, hText, hGet⟩
        · refine Or.inr ⟨fun i hi hi' => ?_, hGet⟩
          rcases hi.eq_or_lt with rfl | hlt
          · exact hKey
          · exact hNone i hlt (by omega)

theorem objectMemberAt_iff {object i v : Nat} {container : Token} {key : Bytes}
    (hToken : tokenOf document object .object = .ok container) :
    objectMemberAt document object i = .ok (key, v) ↔ i < container.links.childCount / 2 ∧
      document.textOf (document.keyAt container i) = key ∧
      childAt document container (2 * i + 1) = v := by
  rw [objectMemberAt, hToken]
  by_cases hRange : i ≥ container.links.childCount / 2
  · simp only [bind, Except.bind, if_pos hRange]
    exact ⟨(by simp), fun h => absurd h.1 (not_lt.mpr hRange)⟩
  · simp only [bind, Except.bind, if_neg hRange]
    constructor
    · intro h
      cases h
      exact ⟨not_le.mp hRange, rfl, rfl⟩
    · rintro ⟨-, rfl, rfl⟩
      rfl

theorem Document.Published.lookupsAgree (h : document.Published (s.rows 0 none))
    (hUnique : s.json.uniqueKeys = true) : document.LookupsAgree := by
  -- an object handle stands for a part of the value, and its keys are those of that part
  have hObject (object : Nat) (hType : valueType document object = .object) :
      ∃ container, tokenOf document object .object = .ok container ∧
        (∀ i < container.links.childCount / 2,
          (document.keyAt container i).textSize =
            (document.textOf (document.keyAt container i)).length) ∧
        ∀ i < container.links.childCount / 2, ∀ j < container.links.childCount / 2,
          document.textOf (document.keyAt container i) =
            document.textOf (document.keyAt container j) → i = j := by
    have hLt : object < (s.rows 0 none).length := by
      rw [valueType] at hType
      split_ifs at hType with hLt
      rwa [h.shows.length] at hLt
    rcases h.stands hLt with ⟨hPart, hAt⟩ | ⟨hPart, hm, hAt⟩
    · rename_i part
      have hPartType := (h.valueType_eq hAt).symm.trans hType
      cases part with
      | object span members =>
          obtain ⟨hCount, hMembers⟩ := h.object_children hAt
          have hHalf : (document.token object).links.childCount / 2 = members.length := by
            rw [hCount, Nat.mul_div_cancel_left _ Nat.zero_lt_two]
          have hText (i : Nat) (hi : i < members.length) :
              document.textOf (document.keyAt (document.token object) i) = (members[i]).1.text :=
            h.key_text (hMembers i hi).1
          have hKeys := hPart.uniqueKeys hUnique
          rw [Source.json_object, Tree.uniqueKeys_object, List.map_map] at hKeys
          refine ⟨document.token object, h.tokenOf_eq hAt, fun i hi => ?_, fun i hi j hj hEq => ?_⟩
          · rw [hHalf] at hi
            obtain ⟨⟨parent, cell⟩, hRow, hCell⟩ := Option.map_eq_some_iff.mp (hMembers i hi).1.1
            rw [hText i hi, Document.keyAt, h.shows.textSize hRow, hCell]
            rfl
          · rw [hHalf] at hi hj
            rw [hText i hi, hText j hj] at hEq
            have hInjective := List.nodup_iff_injective_get.mp hKeys.1
            have hFin := @hInjective ⟨i, by rwa [List.length_map]⟩ ⟨j, by rwa [List.length_map]⟩ (by
              simpa only [List.get_eq_getElem, List.getElem_map, Function.comp_apply] using hEq)
            exact Fin.mk.inj hFin
      | _ => cases hPartType
    · obtain ⟨⟨parent, cell⟩, hRow, rfl⟩ := Option.map_eq_some_iff.mp hAt.1
      rw [valueType, if_pos (by rwa [h.shows.length]), h.shows.type hRow] at hType
      cases hType
  have hGet (object : Nat) (container : Token)
      (hToken : tokenOf document object .object = .ok container)
      (key : Bytes) : objectGetSized document object key =
        objectGetFrom document container key (container.links.childCount / 2) 0 := by
    rw [objectGetSized, hToken]
    rfl
  constructor
  · intro object hType key v
    obtain ⟨container, hToken, hSizes, hDistinct⟩ := hObject object hType
    rw [hGet object container hToken]
    simp only [objectMemberAt_iff hToken]
    rcases objectGetFrom_cases document container key (container.links.childCount / 2) 0
        fun i _ hi => hSizes i (by omega) with ⟨i, -, hi, hText, hFound⟩ | ⟨hNone, hMissing⟩
    · rw [hFound]
      constructor
      · intro hEq
        exact ⟨i, by omega, hText, Except.ok.inj hEq⟩
      · rintro ⟨j, hj, hText', rfl⟩
        rw [hDistinct i (by omega) j hj (hText.trans hText'.symm)]
    · rw [hMissing]
      constructor
      · simp
      · rintro ⟨j, hj, hText', -⟩
        exact absurd hText' (hNone j (Nat.zero_le _) (by omega))
  · intro object hType key i j v w hi hj
    obtain ⟨container, hToken, -, hDistinct⟩ := hObject object hType
    rw [objectMemberAt_iff hToken] at hi hj
    exact hDistinct i hi.1 j hj.1 (hi.2.1.trans hj.2.1.symm)
  · intro object hType key hAbsent
    obtain ⟨container, hToken, hSizes, -⟩ := hObject object hType
    rw [hGet object container hToken]
    rcases objectGetFrom_cases document container key (container.links.childCount / 2) 0
        fun i _ hi => hSizes i (by omega) with ⟨i, -, hi, hText, -⟩ | ⟨-, hMissing⟩
    · exact absurd ((objectMemberAt_iff hToken).mpr ⟨by omega, hText, rfl⟩) (hAbsent i _)
    · exact hMissing

/-! ### Documents that a parse returns -/

/-- However a document was obtained, its children, its texts and its lookups are in order. -/
theorem documentParse_representation {heap : Heap} {input : CText} {profile : Profile}
    {requested : Option Limits} {errorGiven : Bool} {document : Document}
    (h : (documentParse heap input profile requested errorGiven).document = some document) :
    document.ChildrenSound ∧ document.TextsSound ∧ document.LookupsAgree := by
  obtain ⟨limits, s, survivor, -, hRead, hPublished, hSurvivor, -⟩ := documentParse_returns h
  have hText := ((Reading.readText_iff _ s.json).mp ⟨s, hRead, rfl⟩).1
  refine ⟨hPublished.childrenSound, hPublished.textsSound fun text hMem => ?_,
    hPublished.lookupsAgree ?_⟩
  · rw [hSurvivor] at hMem
    exact hText.zero_notMem text (s.json.texts_lastWins.subset hMem)
  · rw [hSurvivor]
    exact Tree.uniqueKeys_lastWins s.json

/-- `{"a":1,"a":[]}` under the tolerant profile. -/
theorem documentParse_representation_repeated :
    ∃ document, (documentParse ⟨fun _ => true, []⟩
        (.buffer [0x7b, 0x22, 0x61, 0x22, 0x3a, 0x31, 0x2c, 0x22, 0x61, 0x22, 0x3a, 0x5b,
          0x5d, 0x7d])
        .rfc8259LastWins none true).document = some document ∧
      document.ChildrenSound ∧ document.TextsSound ∧ document.LookupsAgree := by
  obtain ⟨document, hDocument⟩ : ∃ document, (documentParse ⟨fun _ => true, []⟩
      (.buffer [0x7b, 0x22, 0x61, 0x22, 0x3a, 0x31, 0x2c, 0x22, 0x61, 0x22, 0x3a, 0x5b, 0x5d, 0x7d])
      .rfc8259LastWins none true).document = some document :=
      Option.isSome_iff_exists.mp (by decide +kernel)
  exact ⟨document, hDocument, documentParse_representation hDocument⟩

end MaelysJson
