import MaelysJson.Code.Keyset
import MaelysJson.General.Probing

/-! The key set as a finite map: every operation is stated by the map it leaves. -/
namespace MaelysJson

open Probing

/-- Where the search for a key starts in a table of `capacity` slots. -/
def startSlot (capacity : Nat) (key : KeysetKey) : Nat := (hashKey key).toNat &&& (capacity - 1)

/-- The set holds exactly the indices of `map`: `capacity` is a power of two and
at most half of the slots are used. -/
structure Keyset.Holds (keyOf : Nat → KeysetKey) (set : Keyset) (map : KeysetKey → Option Nat) :
    Prop where
  power : ∃ n, set.capacity = 2 ^ n
  length : set.slots.length = set.capacity
  represents : Represents keyOf (startSlot set.capacity) set.slots map
  count : set.count = occupied set.slots
  half : set.count * 2 ≤ set.capacity

theorem and_capacity_pred {n capacity : Nat} (x : Nat) (h : capacity = 2 ^ n) :
    x &&& (capacity - 1) = x % capacity := by
  rw [h, Nat.and_two_pow_sub_one_eq_mod]

theorem startSlot_lt {n capacity : Nat} (h : capacity = 2 ^ n) (key : KeysetKey) :
    startSlot capacity key < capacity := by
  rw [startSlot, and_capacity_pred _ h]
  exact Nat.mod_lt _ (h ▸ Nat.two_pow_pos n)

theorem findSlot_eq {n capacity : Nat} (keyOf : Nat → KeysetKey) {slots : List (Option Nat)}
    (h : capacity = 2 ^ n) (hLength : slots.length = capacity) (key : KeysetKey) :
    findSlot keyOf slots capacity key = find keyOf (startSlot capacity) slots key := by
  have hFrom (rounds slot : Nat) :
      findSlotFrom keyOf slots (capacity - 1) key rounds slot =
        probe keyOf slots key rounds slot := by
    induction rounds generalizing slot with
    | zero => rfl
    | succ rounds ih =>
        rw [findSlotFrom, probe, and_capacity_pred _ h, ih, hLength]
        cases slots.getD slot none <;> rfl
  rw [findSlot, find, hFrom, hLength]
  rfl

variable {keyOf : Nat → KeysetKey} {set : Keyset} {map : KeysetKey → Option Nat}

theorem Keyset.Holds.exists_empty (h : set.Holds keyOf map) : none ∈ set.slots := by
  refine none_mem_of_occupied_lt ?_
  obtain ⟨n, hn⟩ := h.power
  have hPos := Nat.two_pow_pos n
  have hHalf := h.half
  have hCount := h.count
  have hLength := h.length
  omega

theorem Keyset.Holds.findSlot_eq (h : set.Holds keyOf map) (key : KeysetKey) :
    findSlot keyOf set.slots set.capacity key =
      find keyOf (startSlot set.capacity) set.slots key := by
  obtain ⟨n, hn⟩ := h.power
  exact MaelysJson.findSlot_eq keyOf hn h.length key

theorem Keyset.Holds.congr {keyOf' : Nat → KeysetKey} (h : set.Holds keyOf map)
    (hKeys : ∀ key index, map key = some index → keyOf' index = keyOf index) :
    set.Holds keyOf' map := by
  refine ⟨h.power, h.length, h.represents.congr fun index hIndex => ?_, h.count, h.half⟩
  exact hKeys (keyOf index) index ((h.represents.mem _ _).mpr ⟨rfl, hIndex⟩)

theorem keysetContains_eq (h : set.Holds keyOf map) (key : KeysetKey) :
    keysetContains keyOf set key = (map key).isSome := by
  rw [keysetContains, h.findSlot_eq, (h.represents.find_eq _ h.exists_empty).1]

/-- An index stored in a free slot of a table with room. -/
theorem Keyset.Holds.store (h : set.Holds keyOf map) {index : Nat} (hNew : map (keyOf index) = none)
    (hRoom : (set.count + 1) * 2 ≤ set.capacity) :
    Keyset.Holds keyOf
      { set with
        slots := set.slots.set (findSlot keyOf set.slots set.capacity (keyOf index)).1 (some index)
        count := set.count + 1 }
      (Function.update map (keyOf index) (some index)) := by
  rw [h.findSlot_eq]
  have hEmpty := h.exists_empty
  have hFree := (h.represents.find_eq _ hEmpty).2.1 hNew
  refine ⟨h.power, by rw [List.length_set]; exact h.length,
    h.represents.set hEmpty index, ?_, hRoom⟩
  rw [occupied_set_none hFree, h.count]

theorem Keyset.Holds.replace (h : set.Holds keyOf map) {index old : Nat}
    (hOld : map (keyOf index) = some old) :
    Keyset.Holds keyOf
      { set with
        slots := set.slots.set (findSlot keyOf set.slots set.capacity (keyOf index)).1
          (some index) }
      (Function.update map (keyOf index) (some index)) := by
  rw [h.findSlot_eq]
  have hEmpty := h.exists_empty
  have hHeld := (h.represents.find_eq _ hEmpty).2.2 old hOld
  refine ⟨h.power, by rw [List.length_set]; exact h.length, h.represents.set hEmpty index,
    ?_, h.half⟩
  rw [occupied_set_some hHeld, h.count]

/-- The rehash loop moves entries one by one. -/
theorem foldl_rehash_eq {n capacity : Nat} (hPower : capacity = 2 ^ n) (entries : List (Option Nat))
    {slots : List (Option Nat)} (hLength : slots.length = capacity) :
    entries.foldl (rehash keyOf capacity) slots =
      entries.foldl (transfer keyOf (startSlot capacity)) slots := by
  induction entries generalizing slots with
  | nil => rfl
  | cons entry entries ih =>
      have hStep : rehash keyOf capacity slots entry =
          transfer keyOf (startSlot capacity) slots entry := by
        cases entry with
        | none => rfl
        | some entry => rw [rehash, transfer, findSlot_eq keyOf hPower hLength]
      rw [List.foldl_cons, List.foldl_cons, hStep]
      exact ih (by rw [length_transfer, hLength])

theorem Keyset.Holds.double_power (h : set.Holds keyOf map) : ∃ n, set.capacity * 2 = 2 ^ n := by
  obtain ⟨n, hn⟩ := h.power
  exact ⟨n + 1, by rw [hn, Nat.pow_succ]⟩

/-- The doubled table has room for every entry. -/
theorem Keyset.Holds.occupied_lt (h : set.Holds keyOf map) :
    occupied set.slots < set.capacity * 2 := by
  obtain ⟨n, hn⟩ := h.power
  have hPos := Nat.two_pow_pos n
  have hHalf := h.half
  have hCount := h.count
  omega

theorem keysetGrow_holds (heap : Heap) (h : set.Holds keyOf map)
    (hCapacity : set.capacity ≤ sizeMax / 2 / sizeOfSize)
    (hGrant : (heap.request (wrap (set.capacity * 2 * sizeOfSize))).1 = true) :
    ∃ grown, keysetGrow keyOf set heap =
        (.ok, grown, (heap.request (wrap (set.capacity * 2 * sizeOfSize))).2) ∧
      grown.Holds keyOf map ∧ grown.capacity = set.capacity * 2 ∧ grown.count = set.count := by
  obtain ⟨n, hPower⟩ := h.double_power
  have hFold := @foldl_rehash_eq keyOf n _ hPower set.slots (List.replicate (set.capacity * 2) none)
    List.length_replicate
  obtain ⟨hRep, hLength, hOccupied⟩ :=
    h.represents.rebuild (set.capacity * 2) (startSlot_lt hPower) h.occupied_lt
  rw [← hFold] at hRep hLength hOccupied
  refine ⟨⟨set.slots.foldl (rehash keyOf (set.capacity * 2))
      (List.replicate (set.capacity * 2) none), set.capacity * 2, set.count⟩, ?_,
    ⟨⟨n, hPower⟩, hLength, hRep, h.count.trans hOccupied.symm, ?_⟩, rfl, rfl⟩
  · simp only [keysetGrow, allocateSlots, hGrant, if_true]
    rw [if_neg (by omega)]
  · exact h.half.trans (Nat.le_mul_of_pos_right _ Nat.two_pos)

theorem keysetInsertWith_present (replace : Bool) (heap : Heap) {index old : Nat}
    (h : set.Holds keyOf map) (hOld : map (keyOf index) = some old) :
    keysetInsertWith keyOf replace set heap index =
      if replace then
        ⟨.ok, some old,
          { set with
            slots := set.slots.set (findSlot keyOf set.slots set.capacity (keyOf index)).1
              (some index) },
          heap⟩
      else ⟨.errDuplicateKey, none, set, heap⟩ := by
  have hFind := h.represents.find_eq (keyOf index) h.exists_empty
  have hFound : (findSlot keyOf set.slots set.capacity (keyOf index)).2 = true := by
    rw [h.findSlot_eq, hFind.1, hOld]
    rfl
  have hHeld : set.slots.getD (findSlot keyOf set.slots set.capacity (keyOf index)).1 none =
      some old := by
    rw [h.findSlot_eq, List.getD_eq_getElem?_getD, hFind.2.2 old hOld]
    rfl
  simp only [keysetInsertWith, hFound, if_true, hHeld]

theorem keysetInsertWith_absent (replace : Bool) (heap : Heap) {index : Nat}
    (h : set.Holds keyOf map) (hNew : map (keyOf index) = none)
    (hRoom : (set.count + 1) * 2 ≤ set.capacity) :
    keysetInsertWith keyOf replace set heap index =
      ⟨.ok, none,
        { set with
          slots := set.slots.set (findSlot keyOf set.slots set.capacity (keyOf index)).1
            (some index)
          count := set.count + 1 }, heap⟩ := by
  have hFound : (findSlot keyOf set.slots set.capacity (keyOf index)).2 = false := by
    rw [h.findSlot_eq, (h.represents.find_eq _ h.exists_empty).1, hNew]
    rfl
  simp only [keysetInsertWith, hFound, Bool.false_eq_true, if_false]
  rw [if_neg (by omega)]

/-- A new key of a full table: the table grows first, if the heap allows it. -/
theorem keysetInsertWith_full (replace : Bool) (heap : Heap) {index : Nat} (h : set.Holds keyOf map)
    (hNew : map (keyOf index) = none) (hFull : ¬(set.count + 1) * 2 ≤ set.capacity)
    (hCount : set.count ≤ sizeMax / 256) :
    (heap.grant heap.requests.length = false →
        ∃ heap', keysetInsertWith keyOf replace set heap index = ⟨.errMemory, none, set, heap'⟩) ∧
      (heap.grant heap.requests.length = true →
        ∃ set', keysetInsertWith keyOf replace set heap index =
            ⟨.ok, none, set', (heap.request (wrap (set.capacity * 2 * sizeOfSize))).2⟩ ∧
          set'.Holds keyOf (Function.update map (keyOf index) (some index)) ∧
          set'.count = set.count + 1) := by
  have hCapacity : set.capacity ≤ sizeMax / 2 / sizeOfSize := by
    simp only [sizeMax, sizeOfSize] at *
    omega
  have hFound : (findSlot keyOf set.slots set.capacity (keyOf index)).2 = false := by
    rw [h.findSlot_eq, (h.represents.find_eq _ h.exists_empty).1, hNew]
    rfl
  refine ⟨fun hRefused => ?_, fun hGrant => ?_⟩
  · have hGrow : keysetGrow keyOf set heap =
        (.errMemory, set, (heap.request (wrap (set.capacity * 2 * sizeOfSize))).2) := by
      have hRequest : (heap.request (wrap (set.capacity * 2 * sizeOfSize))).1 = false := hRefused
      rw [keysetGrow, if_neg (not_lt.mpr hCapacity)]
      simp only [allocateSlots, hRequest, Bool.false_eq_true, if_false]
    refine ⟨(heap.request (wrap (set.capacity * 2 * sizeOfSize))).2, ?_⟩
    simp only [keysetInsertWith, hFound, Bool.false_eq_true, if_false, hGrow]
    rw [if_pos (not_le.mp hFull)]
  · obtain ⟨grown, hGrow, hHolds, hDouble, hSame⟩ := keysetGrow_holds heap h hCapacity hGrant
    have hHalf := h.half
    have hPower : 0 < set.capacity := by
      obtain ⟨n, hn⟩ := h.power
      exact hn ▸ Nat.two_pow_pos n
    refine ⟨_, ?_, hHolds.store hNew (by omega), congrArg (· + 1) hSame⟩
    simp only [keysetInsertWith, hFound, Bool.false_eq_true, if_false, hGrow]
    rw [if_pos (not_le.mp hFull)]

/-- With a heap that refuses nothing, a new key always finds room. -/
theorem keysetInsert_new {heap : Heap} {index : Nat} (h : set.Holds keyOf map)
    (hNew : map (keyOf index) = none) (hCount : set.count ≤ sizeMax / 256) (hHeap : heap.Generous) :
    ∃ set' heap', keysetInsert keyOf set heap index = ⟨.ok, none, set', heap'⟩ ∧
      set'.Holds keyOf (Function.update map (keyOf index) (some index)) ∧
      set'.count = set.count + 1 ∧ heap'.Generous := by
  by_cases hRoom : (set.count + 1) * 2 ≤ set.capacity
  · exact ⟨_, heap, keysetInsertWith_absent _ _ h hNew hRoom, h.store hNew hRoom, rfl, hHeap⟩
  · obtain ⟨set', hInsert, hHolds, hMore⟩ :=
      (keysetInsertWith_full false heap h hNew hRoom hCount).2 (hHeap _)
    exact ⟨set', _, hInsert, hHolds, hMore, fun n => hHeap n⟩

/-- The slots that hold `expected` keys at most half full: the first power of two that is
large enough. -/
def slotsFor (expected : Nat) : Nat := 2 ^ Nat.clog 2 (max keysetMinimumCapacity (expected * 2))

/-- The doubling loop stops there. -/
theorem keysetCapacity_eq {expected : Nat} (h : expected ≤ 2 ^ 60) :
    keysetCapacity expected = slotsFor expected := by
  have hWrap : wrap (expected * 2) = expected * 2 := Nat.mod_eq_of_lt (by omega)
  have hClog : Nat.clog 2 (max keysetMinimumCapacity (expected * 2)) ≤ 61 := by
    rw [Nat.clog_le_iff_le_pow Nat.one_lt_two, max_le_iff]
    exact ⟨by decide, by omega⟩
  have hLoop (rounds n : Nat) (hn : n + rounds = 67) (hStart : 3 ≤ n)
      (hLow : n ≤ Nat.clog 2 (max keysetMinimumCapacity (expected * 2))) :
      keysetCapacityFrom expected rounds (2 ^ n) = slotsFor expected := by
    induction rounds generalizing n with
    | zero => omega
    | succ rounds ih =>
        rw [keysetCapacityFrom, hWrap]
        split_ifs with hSmall
        · have hNext : n < Nat.clog 2 (max keysetMinimumCapacity (expected * 2)) := by
            rw [Nat.lt_clog_iff_pow_lt Nat.one_lt_two]
            exact lt_max_of_lt_right hSmall
          have hPow : 2 ^ (n + 1) ≤ 2 ^ 61 := Nat.pow_le_pow_right Nat.two_pos (by omega)
          have hDouble : wrap (2 ^ n <<< 1) = 2 ^ (n + 1) := by
            rw [Nat.shiftLeft_eq, ← Nat.pow_add, wrap]
            exact Nat.mod_eq_of_lt (lt_of_le_of_lt hPow (by decide))
          rw [hDouble]
          exact ih (n + 1) (by omega) (by omega) hNext
        · have hMinimum : keysetMinimumCapacity ≤ 2 ^ n :=
            show 2 ^ 3 ≤ 2 ^ n from Nat.pow_le_pow_right Nat.two_pos hStart
          have hEnd := (Nat.clog_le_iff_le_pow Nat.one_lt_two).mpr
            (max_le hMinimum (not_lt.mp hSmall))
          rw [slotsFor, le_antisymm hLow hEnd]
  refine hLoop 64 3 rfl le_rfl ?_
  have hMinimum := Nat.clog_mono_right 2 (le_max_left keysetMinimumCapacity (expected * 2))
  exact le_trans (by decide) hMinimum

theorem le_slotsFor (expected : Nat) : expected * 2 ≤ slotsFor expected :=
  (le_max_right _ _).trans (Nat.le_pow_clog Nat.one_lt_two _)

theorem slotsFor_mono {expected expected' : Nat} (h : expected ≤ expected') :
    slotsFor expected ≤ slotsFor expected' := by
  apply Nat.pow_le_pow_right Nat.two_pos
  apply Nat.clog_mono_right
  exact max_le_max le_rfl (Nat.mul_le_mul_right 2 h)

theorem slotsFor_le {expected bits : Nat} (hMinimum : keysetMinimumCapacity ≤ 2 ^ bits)
    (h : expected * 2 ≤ 2 ^ bits) : slotsFor expected ≤ 2 ^ bits := by
  apply Nat.pow_le_pow_right Nat.two_pos
  rw [Nat.clog_le_iff_le_pow Nat.one_lt_two, max_le_iff]
  exact ⟨hMinimum, h⟩

theorem keysetInit_holds {heap : Heap} {expected : Nat} (h : expected ≤ 2 ^ 60)
    (hGrant : (heap.request (wrap (keysetCapacity expected * sizeOfSize))).1 = true)
    (keyOf : Nat → KeysetKey) :
    ∃ set, keysetInit heap expected =
        (.ok, set, (heap.request (wrap (keysetCapacity expected * sizeOfSize))).2) ∧
      set.Holds keyOf (fun _ => none) ∧ expected * 2 ≤ set.capacity ∧ set.count = 0 := by
  have hPower : keysetCapacity expected =
      2 ^ Nat.clog 2 (max keysetMinimumCapacity (expected * 2)) := keysetCapacity_eq h
  have hLarge : expected * 2 ≤ keysetCapacity expected :=
    (le_slotsFor expected).trans (keysetCapacity_eq h).ge
  refine ⟨⟨List.replicate (keysetCapacity expected) none, keysetCapacity expected, 0⟩, ?_,
    ⟨⟨_, hPower⟩, List.length_replicate, .empty (startSlot_lt hPower), (occupied_replicate _).symm,
      Nat.zero_le _⟩, hLarge, rfl⟩
  simp only [keysetInit, allocateSlots, hGrant, if_true]

end MaelysJson
