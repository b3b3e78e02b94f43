import MaelysJson.Json.LastWins
import MaelysJson.Table.Keys

/-! The repeated keys of a value: as the key set counts them they are those of its
objects, and the members that survive are those of the tree without them. -/
namespace MaelysJson.Source

open Forest

/-! ### Surviving members -/

/-- The members whose key does not come again, in their order. -/
def survivors {β : Type} : List (Literal × β) → List (Literal × β)
  | [] => []
  | m :: members =>
      if m.1.text ∈ members.map (fun m => m.1.text) then survivors members
      else m :: survivors members

/-- Every object keeps exactly the last occurrence of each key. -/
def lastWins : Source → Source :=
  fold
    { object := fun span members => .object span (survivors members)
      array := .array
      string := .string
      number := .number
      boolean := .boolean
      null := .null }

theorem survivors_map {β γ : Type} (f : β → γ) (members : List (Literal × β)) :
    survivors (members.map fun m => (m.1, f m.2)) = (survivors members).map fun m =>
      (m.1, f m.2) := by
  induction members with
  | nil => rfl
  | cons m members ih =>
      rw [List.map_cons, survivors, survivors, ih, List.map_map]
      split_ifs with h h' h'
      · rfl
      · exact absurd h h'
      · exact absurd h' h
      · rfl

theorem lastWins_object (span : Span) (members : List (Literal × Source)) :
    (object span members).lastWins =
      .object span ((survivors members).map fun m => (m.1, m.2.lastWins)) := by
  rw [lastWins, fold_object]
  exact congrArg (Source.object span) (survivors_map _ members)

theorem lastWins_array (span : Span) (elements : List Source) :
    (array span elements).lastWins = .array span (elements.map lastWins) := by
  rw [lastWins, fold_array]

theorem map_survivors {β γ : Type} (f : β → γ) (members : List (Literal × β)) :
    (survivors members).map (fun m => (m.1.text, f m.2)) =
      Tree.lastOccurrences (members.map fun m => (m.1.text, f m.2)) := by
  induction members with
  | nil => rfl
  | cons m members ih =>
      have hKeys : (members.map fun m => (m.1.text, f m.2)).map Prod.fst =
          members.map fun m => m.1.text := by
        rw [List.map_map]
        rfl
      rw [List.map_cons, survivors, Tree.lastOccurrences, hKeys]
      split_ifs
      · exact ih
      · rw [List.map_cons, ih]

theorem json_lastWins (s : Source) : s.lastWins.json = s.json.lastWins := by
  induction s with
  | object span members ih =>
      have hMembers : members.map (fun m => (m.1.text, m.2.lastWins.json)) =
          members.map fun m => (m.1.text, m.2.json.lastWins) :=
        List.map_congr_left fun m hm => by rw [ih m hm]
      rw [lastWins_object, json_object, json_object, Tree.lastWins_object, List.map_map,
        List.map_map]
      exact congrArg Tree.object ((map_survivors (fun s => s.lastWins.json) members).trans
        (by rw [hMembers]; rfl))
  | array span elements ih =>
      rw [lastWins_array, json_array, json_array, Tree.lastWins_array, List.map_map, List.map_map]
      exact congrArg Tree.array (List.map_congr_left ih)
  | _ => rfl

/-! ### Counting -/

theorem keysOf_cons_plain {row : Row Cell} (h : rowKey row = none) (rows : List (Row Cell)) :
    keysOf (row :: rows) = keysOf rows := List.filterMap_cons_none h

/-- The keys of an object's members and, apart from them, those of their values. -/
theorem keysOf_memberRows {members : List (Literal × Source)} {object start : Nat}
    (hObject : object < start)
    (hRepeats : ∀ m ∈ members, ∀ base parent,
      repeats (keysOf (m.2.rows base parent)) = m.2.json.duplicates) :
    ∃ inner, (keysOf (memberRows members start object)).Perm
        ((members.map fun m => m.1.text).map (KeysetKey.mk (some object)) ++ inner) ∧
      (∀ key ∈ inner, ∃ q, key.parent = some q ∧ start ≤ q) ∧
      repeats inner = (members.map fun m => m.2.json.duplicates).sum := by
  induction members generalizing start with
  | nil => exact ⟨[], .nil, nofun, rfl⟩
  | cons m members ih =>
      obtain ⟨key, value⟩ := m
      obtain ⟨inner, hPerm, hInner, hSum⟩ := @ih (start + 1 + value.rose.size) (by omega)
        fun m hm => hRepeats m (List.mem_cons_of_mem _ hm)
      refine ⟨keysOf (value.rows (start + 1) (some object)) ++ inner, ?_, ?_, ?_⟩
      · have hKey : rowKey (some object, keyCell key) = some ⟨some object, key.text⟩ := rfl
        rw [memberRows_cons, keysOf, List.filterMap_cons_some hKey, ← keysOf, keysOf_append,
          List.map_cons, List.map_cons, List.cons_append]
        refine List.Perm.cons _ ?_
        refine (List.Perm.append_left _ hPerm).trans ?_
        rw [← List.append_assoc, ← List.append_assoc]
        exact List.Perm.append_right _ List.perm_append_comm
      · intro k hk
        rcases List.mem_append.mp hk with hk | hk
        · obtain ⟨q, hq, hLe, -⟩ := value.keysOf_rows _ _ hk
          exact ⟨q, hq, by omega⟩
        · obtain ⟨q, hq, hLe⟩ := hInner k hk
          exact ⟨q, hq, by omega⟩
      · have hDisjoint : List.Disjoint (keysOf (value.rows (start + 1) (some object))) inner := by
          intro k hk hk'
          obtain ⟨q, hq, -, hLt⟩ := value.keysOf_rows _ _ hk
          obtain ⟨q', hq', hLe⟩ := hInner k hk'
          rw [hq, Option.some.injEq] at hq'
          omega
        rw [repeats_append hDisjoint, hSum, hRepeats _ List.mem_cons_self, List.map_cons,
          List.sum_cons]

theorem repeats_elementRows {elements : List Source} {array start : Nat}
    (hRepeats : ∀ v ∈ elements, ∀ base parent, repeats (keysOf (v.rows base parent)) =
      v.json.duplicates) :
    repeats (keysOf (elementRows elements start array)) =
      (elements.map fun v => v.json.duplicates).sum ∧
      ∀ key ∈ keysOf (elementRows elements start array), ∃ q, key.parent = some q ∧ start ≤ q := by
  induction elements generalizing start with
  | nil => exact ⟨rfl, nofun⟩
  | cons value elements ih =>
      obtain ⟨hSum, hInner⟩ := @ih (start + value.rose.size)
        fun v hv => hRepeats v (List.mem_cons_of_mem _ hv)
      rw [elementRows_cons, keysOf_append]
      constructor
      · have hDisjoint : List.Disjoint (keysOf (value.rows start (some array)))
            (keysOf (elementRows elements (start + value.rose.size) array)) := by
          intro k hk hk'
          obtain ⟨q, hq, -, hLt⟩ := value.keysOf_rows _ _ hk
          obtain ⟨q', hq', hLe⟩ := hInner k hk'
          rw [hq, Option.some.injEq] at hq'
          omega
        rw [repeats_append hDisjoint, hSum, hRepeats _ List.mem_cons_self, List.map_cons,
          List.sum_cons]
      · intro k hk
        rcases List.mem_append.mp hk with hk | hk
        · obtain ⟨q, hq, hLe, -⟩ := value.keysOf_rows _ _ hk
          exact ⟨q, hq, by omega⟩
        · obtain ⟨q, hq, hLe⟩ := hInner k hk
          exact ⟨q, hq, by omega⟩

/-- The keys that repeat an earlier one are the members that are left out. -/
theorem repeats_rows (s : Source) (base : Nat) (parent : Option Nat) :
    repeats (keysOf (s.rows base parent)) = s.json.duplicates := by
  induction s generalizing base parent with
  | object span members ih =>
      obtain ⟨inner, hPerm, hInner, hSum⟩ :=
        @keysOf_memberRows _ _ (base + 1) (Nat.lt_succ_self base) ih
      have hDisjoint : List.Disjoint
          ((members.map fun m => m.1.text).map (KeysetKey.mk (some base))) inner := by
        intro k hk hk'
        obtain ⟨text, -, rfl⟩ := List.mem_map.mp hk
        obtain ⟨q, hq, hLe⟩ := hInner _ hk'
        rw [Option.some.injEq] at hq
        omega
      rw [rows_object, keysOf_cons_plain rfl, repeats_perm hPerm, repeats_append hDisjoint,
        repeats_texts, hSum, json_object, Tree.duplicates_object, List.length_map, List.length_map,
        List.map_map, List.map_map]
      rfl
  | array span elements ih =>
      rw [rows_array, keysOf_cons_plain rfl, (repeats_elementRows ih).1, json_array,
        Tree.duplicates_array, List.map_map]
      rfl
  | _ => rfl

end MaelysJson.Source
