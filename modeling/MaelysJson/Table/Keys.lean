import MaelysJson.Table.Keyset
import MaelysJson.Table.Layout

/-! The keys of a token table: which row holds a key last, which rows a later one
supersedes, and how many repeat an earlier one. -/
namespace MaelysJson

open Forest

/-- The key that a row enters into the key set, when it is the row of a key. -/
def rowKey (row : Row Cell) : Option KeysetKey :=
  if row.2.objectKey then some ⟨row.1, row.2.text.getD []⟩ else none

def keysOf (rows : List (Row Cell)) : List KeysetKey := rows.filterMap rowKey

/-- The index, counted from `start`, of the last row of `key`. -/
def lastKeyFrom (key : KeysetKey) : List (Row Cell) → Nat → Option Nat
  | [], _ => none
  | row :: rows, start =>
      (lastKeyFrom key rows (start + 1)).or (if rowKey row = some key then some start else none)

def lastKey (rows : List (Row Cell)) (key : KeysetKey) : Option Nat := lastKeyFrom key rows 0

/-- The rows of a key that comes again later in the same object. -/
def Superseded (rows : List (Row Cell)) (i : Nat) : Prop :=
  ∃ row key, rows[i]? = some row ∧ rowKey row = some key ∧ lastKey rows key ≠ some i

/-- How many keys repeat an earlier one of the same object. -/
def repeats (keys : List KeysetKey) : Nat := keys.length - keys.dedup.length

theorem keysOf_append (left right : List (Row Cell)) :
    keysOf (left ++ right) = keysOf left ++ keysOf right := List.filterMap_append

theorem lastKeyFrom_append (key : KeysetKey) (left right : List (Row Cell)) (start : Nat) :
    lastKeyFrom key (left ++ right) start =
      (lastKeyFrom key right (start + left.length)).or (lastKeyFrom key left start) := by
  induction left generalizing start with
  | nil => rw [List.nil_append, lastKeyFrom, Option.or_none]; rfl
  | cons row left ih =>
      rw [List.cons_append, lastKeyFrom, lastKeyFrom, ih, Option.or_assoc, List.length_cons]
      congr 2
      omega

theorem lastKeyFrom_some {key : KeysetKey} {rows : List (Row Cell)} {start i : Nat}
    (h : lastKeyFrom key rows start = some i) :
    start ≤ i ∧ ∃ row, rows[i - start]? = some row ∧ rowKey row = some key := by
  induction rows generalizing start with
  | nil => cases h
  | cons row rows ih =>
      rw [lastKeyFrom, Option.or_eq_some_iff] at h
      rcases h with h | ⟨-, h⟩
      · obtain ⟨hLe, row', hRow, hKey⟩ := ih h
        refine ⟨by omega, row', ?_, hKey⟩
        rwa [show i - start = i - (start + 1) + 1 by omega, List.getElem?_cons_succ]
      · split_ifs at h with hKey
        cases h
        exact ⟨le_rfl, row, by rw [Nat.sub_self]; rfl, hKey⟩

theorem lastKey_some {key : KeysetKey} {rows : List (Row Cell)} {i : Nat}
    (h : lastKey rows key = some i) :
    ∃ row, rows[i]? = some row ∧ rowKey row = some key := by
  obtain ⟨-, hRow⟩ := lastKeyFrom_some h
  simpa using hRow

theorem lastKeyFrom_isSome {key : KeysetKey} {rows : List (Row Cell)} {start : Nat} :
    (lastKeyFrom key rows start).isSome = true ↔ key ∈ keysOf rows := by
  induction rows generalizing start with
  | nil => simp [lastKeyFrom, keysOf]
  | cons row rows ih =>
      rw [lastKeyFrom, Option.isSome_or, Bool.or_eq_true, ih, ← List.singleton_append (l := rows),
        keysOf_append, List.mem_append, or_comm]
      refine or_congr_left ?_
      cases hKey : rowKey row with
      | none => simp [keysOf, hKey]
      | some key' =>
          by_cases hEq : key' = key
          · simp [keysOf, hKey, hEq]
          · simp [keysOf, hKey, hEq, Ne.symm hEq]

theorem lastKey_isSome {key : KeysetKey} {rows : List (Row Cell)} :
    (lastKey rows key).isSome = true ↔ key ∈ keysOf rows := lastKeyFrom_isSome

theorem lastKey_eq_none {key : KeysetKey} {rows : List (Row Cell)} :
    lastKey rows key = none ↔ key ∉ keysOf rows := by
  rw [← lastKey_isSome, Bool.not_eq_true, Option.isSome_eq_false_iff, Option.isNone_iff_eq_none]

theorem lastKey_concat_plain {rows : List (Row Cell)} {row : Row Cell} (h : rowKey row = none) :
    lastKey (rows ++ [row]) = lastKey rows := by
  funext key
  rw [lastKey, lastKeyFrom_append, lastKeyFrom, h]
  simp [lastKeyFrom, lastKey]

theorem lastKey_concat_key {rows : List (Row Cell)} {row : Row Cell} {key : KeysetKey}
    (h : rowKey row = some key) :
    lastKey (rows ++ [row]) = Function.update (lastKey rows) key (some rows.length) := by
  funext key'
  rw [lastKey, lastKeyFrom_append, lastKeyFrom, h]
  by_cases hEq : key' = key
  · subst hEq
    simp [lastKeyFrom, Function.update_self]
  · rw [Function.update_of_ne hEq]
    simp [lastKeyFrom, lastKey, Ne.symm hEq]

theorem superseded_concat_plain {rows : List (Row Cell)} {row : Row Cell} (h : rowKey row = none)
    (i : Nat) :
    Superseded (rows ++ [row]) i ↔ Superseded rows i := by
  simp only [Superseded, lastKey_concat_plain h]
  constructor
  · rintro ⟨row', key, hRow, hKey, hLast⟩
    refine ⟨row', key, ?_, hKey, hLast⟩
    rw [List.getElem?_append] at hRow
    split_ifs at hRow with hi
    · exact hRow
    · have hMem := List.mem_of_getElem? hRow
      rw [List.mem_singleton] at hMem
      rw [hMem, h] at hKey
      cases hKey
  · rintro ⟨row', key, hRow, hKey, hLast⟩
    exact ⟨row', key,
      by rw [List.getElem?_append_left (List.getElem?_eq_some_iff.mp hRow).1, hRow], hKey, hLast⟩

/-- A new key supersedes the row that held it last, and no other. -/
theorem superseded_concat_key {rows : List (Row Cell)} {row : Row Cell} {key : KeysetKey}
    (h : rowKey row = some key) (i : Nat) :
    Superseded (rows ++ [row]) i ↔ Superseded rows i ∨ lastKey rows key = some i := by
  simp only [Superseded, lastKey_concat_key h]
  constructor
  · rintro ⟨row', key', hRow, hKey, hLast⟩
    rw [List.getElem?_append] at hRow
    split_ifs at hRow with hi
    · by_cases hEq : key' = key
      · subst hEq
        by_cases hHeld : lastKey rows key' = some i
        · exact Or.inr hHeld
        · exact Or.inl ⟨row', key', hRow, hKey, hHeld⟩
      · rw [Function.update_of_ne hEq] at hLast
        exact Or.inl ⟨row', key', hRow, hKey, hLast⟩
    · obtain ⟨hLt, hEq⟩ := List.getElem?_eq_some_iff.mp hRow
      rw [List.length_singleton] at hLt
      have hMem := List.mem_of_getElem? hRow
      rw [List.mem_singleton] at hMem
      rw [hMem, h, Option.some.injEq] at hKey
      rw [← hKey, Function.update_self, Ne, Option.some.injEq] at hLast
      omega
  · have hOld {row' : Row Cell} (hRow : rows[i]? = some row') :
        i < rows.length ∧ (rows ++ [row])[i]? = some row' := by
      have hLt := (List.getElem?_eq_some_iff.mp hRow).1
      exact ⟨hLt, by rw [List.getElem?_append_left hLt, hRow]⟩
    rintro (⟨row', key', hRow, hKey, hLast⟩ | hHeld)
    · obtain ⟨hLt, hGet⟩ := hOld hRow
      refine ⟨row', key', hGet, hKey, ?_⟩
      by_cases hEq : key' = key
      · rw [hEq, Function.update_self, Ne, Option.some.injEq]
        omega
      · rwa [Function.update_of_ne hEq]
    · obtain ⟨row', hRow, hKey⟩ := lastKey_some hHeld
      obtain ⟨hLt, hGet⟩ := hOld hRow
      refine ⟨row', key, hGet, hKey, ?_⟩
      rw [Function.update_self, Ne, Option.some.injEq]
      omega

theorem keysOf_concat_key {rows : List (Row Cell)} {row : Row Cell} {key : KeysetKey}
    (h : rowKey row = some key) : keysOf (rows ++ [row]) = keysOf rows ++ [key] := by
  rw [keysOf_append]
  simp [keysOf, h]

theorem keysOf_concat_plain {rows : List (Row Cell)} {row : Row Cell} (h : rowKey row = none) :
    keysOf (rows ++ [row]) = keysOf rows := by
  rw [keysOf_append]
  simp [keysOf, h]

theorem length_dedup_eq (keys : List KeysetKey) : keys.dedup.length = keys.toFinset.card :=
  (List.card_toFinset keys).symm

theorem repeats_concat (keys : List KeysetKey) (key : KeysetKey) :
    repeats (keys ++ [key]) = repeats keys + if key ∈ keys then 1 else 0 := by
  have hLe : keys.dedup.length ≤ keys.length := (List.dedup_sublist keys).length_le
  have hUnion : (keys ++ [key]).toFinset = insert key keys.toFinset := by
    ext k
    simp
  rw [repeats, repeats, length_dedup_eq, hUnion, List.length_append, List.length_singleton]
  rw [length_dedup_eq] at *
  split_ifs with hMem
  · rw [Finset.insert_eq_of_mem (List.mem_toFinset.mpr hMem)]
    omega
  · rw [Finset.card_insert_of_notMem (mt List.mem_toFinset.mp hMem)]
    omega

/-! ### The last row of a key -/

theorem lastKeyFrom_eq_some {key : KeysetKey} {rows : List (Row Cell)} {start i : Nat}
    (hLe : start ≤ i) :
    lastKeyFrom key rows start = some i ↔
      (rows[i - start]?).bind rowKey = some key ∧
        ∀ j, i < j → (rows[j - start]?).bind rowKey ≠ some key := by
  induction rows generalizing start with
  | nil => simp [lastKeyFrom]
  | cons row rows ih =>
      rw [lastKeyFrom, Option.or_eq_some_iff]
      have hShift (j : Nat) (hj : start < j) :
          (row :: rows)[j - start]? = rows[j - (start + 1)]? := by
        rw [show j - start = j - (start + 1) + 1 by omega, List.getElem?_cons_succ]
      have hNone : lastKeyFrom key rows (start + 1) = none ↔
          ∀ j, start < j → (rows[j - (start + 1)]?).bind rowKey ≠ some key := by
        constructor
        · intro h j hj hKey
          obtain ⟨row', hRow, hKey⟩ := Option.bind_eq_some_iff.mp hKey
          have hMem : key ∈ keysOf rows :=
            List.mem_filterMap.mpr ⟨row', List.mem_of_getElem? hRow, hKey⟩
          have hSome : (lastKeyFrom key rows (start + 1)).isSome = true :=
            lastKeyFrom_isSome.mpr hMem
          rw [h] at hSome
          cases hSome
        · intro h
          cases hLast : lastKeyFrom key rows (start + 1) with
          | none => rfl
          | some j =>
              obtain ⟨hj, row', hRow, hKey⟩ := lastKeyFrom_some hLast
              exact absurd (Option.bind_eq_some_iff.mpr ⟨row', hRow, hKey⟩) (h j hj)
      rcases hLe.eq_or_lt with rfl | hLt
      · rw [hNone, Nat.sub_self, List.getElem?_cons_zero, Option.bind_some]
        constructor
        · rintro (h | ⟨h, hKey⟩)
          · have := (lastKeyFrom_some h).1
            omega
          · refine ⟨?_, fun j hj => by rw [hShift j hj]; exact h j hj⟩
            split_ifs at hKey with hRow
            exact hRow
        · rintro ⟨hRow, h⟩
          exact Or.inr ⟨fun j hj => by rw [← hShift j hj]; exact h j hj, by rw [if_pos hRow]⟩
      · rw [ih hLt, hShift i hLt]
        constructor
        · rintro (⟨hRow, h⟩ | ⟨-, hKey⟩)
          · exact ⟨hRow, fun j hj => by rw [hShift j (by omega)]; exact h j hj⟩
          · split_ifs at hKey
            cases hKey
            omega
        · rintro ⟨hRow, h⟩
          exact Or.inl ⟨hRow, fun j hj => by rw [← hShift j (by omega)]; exact h j hj⟩

/-- A row is superseded when it is the row of a key that comes again. -/
theorem superseded_iff {rows : List (Row Cell)} {i : Nat} :
    Superseded rows i ↔
      ∃ key j, (rows[i]?).bind rowKey = some key ∧ i < j ∧ (rows[j]?).bind rowKey = some key := by
  have hLast (key : KeysetKey) (hRow : (rows[i]?).bind rowKey = some key) :
      lastKey rows key = some i ↔ ∀ j, i < j → (rows[j]?).bind rowKey ≠ some key := by
    rw [lastKey, lastKeyFrom_eq_some (Nat.zero_le i)]
    simp only [Nat.sub_zero, hRow, true_and]
  constructor
  · rintro ⟨row, key, hGet, hKey, hNe⟩
    have hRow : (rows[i]?).bind rowKey = some key := by rw [hGet, Option.bind_some, hKey]
    rw [Ne, hLast key hRow] at hNe
    push Not at hNe
    obtain ⟨j, hj, hKey'⟩ := hNe
    exact ⟨key, j, hRow, hj, hKey'⟩
  · rintro ⟨key, j, hRow, hj, hKey'⟩
    obtain ⟨row, hGet, hKey⟩ := Option.bind_eq_some_iff.mp hRow
    exact ⟨row, key, hGet, hKey, fun h => (hLast key hRow).mp h j hj hKey'⟩

/-! ### Counting repeated keys -/

theorem repeats_perm {keys keys' : List KeysetKey} (h : keys.Perm keys') :
    repeats keys = repeats keys' := by
  rw [repeats, repeats, h.length_eq, length_dedup_eq, length_dedup_eq,
    List.toFinset_eq_of_perm _ _ h]

theorem repeats_append {left right : List KeysetKey} (h : List.Disjoint left right) :
    repeats (left ++ right) = repeats left + repeats right := by
  have hUnion : (left ++ right).toFinset.card = left.toFinset.card + right.toFinset.card := by
    rw [List.toFinset_append]
    exact Finset.card_union_of_disjoint (List.disjoint_toFinset_iff_disjoint.mpr h)
  have hLeft := List.toFinset_card_le left
  have hRight := List.toFinset_card_le right
  rw [repeats, repeats, repeats, length_dedup_eq, length_dedup_eq, length_dedup_eq, hUnion,
    List.length_append]
  omega

theorem repeats_texts (parent : Option Nat) (texts : List Bytes) :
    repeats (texts.map (KeysetKey.mk parent)) = texts.length - texts.dedup.length := by
  have hInjective : Function.Injective (KeysetKey.mk parent) := by
    intro a b h
    exact (KeysetKey.mk.injEq _ _ _ _ ▸ h).2
  rw [repeats, List.length_map, List.dedup_map_of_injective hInjective, List.length_map]

/-! ### Keys of a value -/

namespace Source

/-- The keys of a value belong to its own objects. -/
theorem keysOf_rows (s : Source) (base : Nat) (parent : Option Nat) {key : KeysetKey}
    (h : key ∈ keysOf (s.rows base parent)) :
    ∃ q, key.parent = some q ∧ base ≤ q ∧ q < base + s.rose.size := by
  obtain ⟨cell, children, hRose, hCell⟩ := s.rose_root
  obtain ⟨row, hRow, hKey⟩ := List.mem_filterMap.mp h
  rw [rows, hRose, Rose.rows, List.mem_cons] at hRow
  rw [hRose, Rose.size]
  rcases hRow with rfl | hRow
  · rw [rowKey, if_neg (by rw [hCell]; simp)] at hKey
    cases hKey
  · rw [rowKey] at hKey
    split_ifs at hKey
    cases hKey
    rcases Rose.within_rowsAll _ _ _ row hRow with hParent | ⟨q, hParent, hq, hq'⟩
    · exact ⟨base, hParent, le_rfl, by omega⟩
    · exact ⟨q, hParent, by omega, by omega⟩

end Source

end MaelysJson
