import MaelysJson.Table.Keyset

/-! The key set over whole runs: whatever was inserted, in any order and with any
collisions, it answers like the list of its insertions. -/
namespace MaelysJson

open Probing

/-- The latest of the inserted indices with a key; `inserted` lists the latest first. -/
def latest (keyOf : Nat → KeysetKey) (inserted : List Nat) (key : KeysetKey) : Option Nat :=
  inserted.find? fun index => keyOf index = key

/-- A later key function still gives the inserted indices their keys. -/
def KeepsKeys (keyOf keyOf' : Nat → KeysetKey) (inserted : List Nat) : Prop :=
  ∀ index ∈ inserted, keyOf' index = keyOf index

/-- The sets that initialization and any insertions lead to, each insertion with a key function
and a heap of its own, together with the indices that were inserted. -/
inductive Keyset.Reached (expected : Nat) : (Nat → KeysetKey) → Keyset → List Nat → Prop where
  | init {keyOf : Nat → KeysetKey} {heap heap' : Heap} {set : Keyset}
      (hInit : keysetInit heap expected = (.ok, set, heap')) : Reached expected keyOf set []
  | insert {keyOf keyOf' : Nat → KeysetKey} {set : Keyset} {inserted : List Nat}
      (hReached : Reached expected keyOf set inserted) (hKeeps : KeepsKeys keyOf keyOf' inserted)
      (replace : Bool) (heap : Heap) (index : Nat) :
      Reached expected keyOf' (keysetInsertWith keyOf' replace set heap index).set
        (if (keysetInsertWith keyOf' replace set heap index).result = .ok then
          index :: inserted else inserted)

variable {keyOf keyOf' : Nat → KeysetKey} {set : Keyset} {inserted : List Nat} {expected : Nat}
  {key : KeysetKey}

theorem latest_cons (index : Nat) :
    latest keyOf (index :: inserted) =
      Function.update (latest keyOf inserted) (keyOf index) (some index) := by
  funext key
  rw [latest, List.find?_cons]
  by_cases hKey : keyOf index = key
  · subst hKey
    rw [Function.update_self, decide_eq_true rfl]
  · rw [Function.update_of_ne (Ne.symm hKey), decide_eq_false hKey]
    rfl

theorem latest_isSome :
    (latest keyOf inserted key).isSome = true ↔ ∃ index ∈ inserted, keyOf index = key := by
  rw [latest, List.find?_isSome]
  simp only [decide_eq_true_eq]

theorem latest_eq_none :
    latest keyOf inserted key = none ↔ ¬∃ index ∈ inserted, keyOf index = key := by
  rw [← latest_isSome, Bool.not_eq_true, Option.isSome_eq_false_iff, Option.isNone_iff_eq_none]

theorem KeepsKeys.latest_eq (h : KeepsKeys keyOf keyOf' inserted) :
    latest keyOf' inserted = latest keyOf inserted := by
  funext key
  apply List.find?_congr
  intro index hIndex
  rw [h index hIndex]

/-- The set holds the latest index of every inserted key, and no more entries than insertions. -/
structure Keyset.Records (keyOf : Nat → KeysetKey) (set : Keyset) (inserted : List Nat) : Prop where
  holds : set.Holds keyOf (latest keyOf inserted)
  count : set.count ≤ inserted.length

theorem Keyset.Records.keeps (h : set.Records keyOf inserted)
    (hKeeps : KeepsKeys keyOf keyOf' inserted) :
    set.Records keyOf' inserted := by
  refine ⟨?_, h.count⟩
  rw [hKeeps.latest_eq]
  apply h.holds.congr
  intro key index hIndex
  exact hKeeps index (List.mem_of_find?_eq_some hIndex)

/-- What one insertion does, whether its key is present, new, or new to a full table. -/
theorem Keyset.Records.insert (h : set.Records keyOf inserted)
    (hInserted : inserted.length ≤ sizeMax / 256) (replace : Bool) (heap : Heap) (index : Nat) :
    (∃ old, latest keyOf inserted (keyOf index) = some old ∧
      if replace then
        ∃ set', keysetInsertWith keyOf replace set heap index = ⟨.ok, some old, set', heap⟩ ∧
          set'.Records keyOf (index :: inserted)
      else keysetInsertWith keyOf replace set heap index = ⟨.errDuplicateKey, none, set, heap⟩) ∨
    (latest keyOf inserted (keyOf index) = none ∧
      ((∃ set' heap', keysetInsertWith keyOf replace set heap index = ⟨.ok, none, set', heap'⟩ ∧
          set'.Records keyOf (index :: inserted) ∧
          ((set.count + 1) * 2 > set.capacity → heap.grant heap.requests.length = true)) ∨
        ((set.count + 1) * 2 > set.capacity ∧ heap.grant heap.requests.length = false ∧
          ∃ heap', keysetInsertWith keyOf replace set heap index =
            ⟨.errMemory, none, set, heap'⟩))) := by
  have hCount := h.count
  cases hLatest : latest keyOf inserted (keyOf index) with
  | some old =>
      have hInsert := keysetInsertWith_present replace heap h.holds hLatest
      cases replace with
      | true =>
          refine Or.inl ⟨old, rfl, _, hInsert, ?_, Nat.le_succ_of_le hCount⟩
          rw [latest_cons]
          exact h.holds.replace hLatest
      | false => exact Or.inl ⟨old, rfl, hInsert⟩
  | none =>
      refine Or.inr ⟨rfl, ?_⟩
      by_cases hRoom : (set.count + 1) * 2 ≤ set.capacity
      · refine Or.inl ⟨_, heap, keysetInsertWith_absent replace heap h.holds hLatest hRoom,
          ⟨?_, Nat.succ_le_succ hCount⟩, fun hFull => absurd hRoom (not_le.mpr hFull)⟩
        rw [latest_cons]
        exact h.holds.store hLatest hRoom
      · have hInsert := keysetInsertWith_full replace heap h.holds hLatest hRoom
          (hCount.trans hInserted)
        cases hGrant : heap.grant heap.requests.length with
        | true =>
            obtain ⟨set', hRun, hHolds, hMore⟩ := hInsert.2 hGrant
            refine Or.inl ⟨set', _, hRun, ⟨?_, ?_⟩, fun _ => rfl⟩
            · rwa [latest_cons]
            · rw [hMore]
              exact Nat.succ_le_succ hCount
        | false => exact Or.inr ⟨not_le.mp hRoom, rfl, hInsert.1 hGrant⟩

/-- A reached set answers for what was inserted. -/
theorem Keyset.Reached.records (hExpected : expected ≤ sizeMax / 512 + 1)
    (hReached : Keyset.Reached expected keyOf set inserted)
    (hInserted : inserted.length ≤ sizeMax / 256) :
    set.Records keyOf inserted := by
  induction hReached with
  | @init keyOf heap heap' set hInit =>
      have hGrant : (heap.request (wrap (keysetCapacity expected * sizeOfSize))).1 = true := by
        by_contra hRefused
        simp only [keysetInit, allocateSlots, hRefused] at hInit
        cases hInit
      have hSmall : expected ≤ 2 ^ 60 := hExpected.trans (by decide)
      obtain ⟨set', hInit', hHolds, -, hNone⟩ := keysetInit_holds hSmall hGrant keyOf
      rw [hInit', Prod.mk.injEq, Prod.mk.injEq] at hInit
      obtain ⟨-, rfl, -⟩ := hInit
      exact ⟨hHolds, hNone.le⟩
  | @insert keyOf keyOf' set inserted hReached hKeeps replace heap index ih =>
      have hLess : inserted.length ≤ sizeMax / 256 := by
        split_ifs at hInserted
        · exact (Nat.le_succ _).trans hInserted
        · exact hInserted
      have hRecords := (ih hLess).keeps hKeeps
      rcases hRecords.insert hLess replace heap index with ⟨old, -, hPresent⟩ | ⟨-, hNew | hRefused⟩
      · cases replace with
        | true =>
            obtain ⟨set', hRun, hRecords'⟩ := hPresent
            rw [hRun]
            exact hRecords'
        | false =>
            have hRun : keysetInsertWith keyOf' false set heap index =
              ⟨.errDuplicateKey, none, set, heap⟩ := hPresent
            rw [hRun]
            exact hRecords
      · obtain ⟨set', heap', hRun, hRecords', -⟩ := hNew
        rw [hRun]
        exact hRecords'
      · obtain ⟨-, -, heap', hRun⟩ := hRefused
        rw [hRun]
        exact hRecords

/-- The search of a key in a table ends, at the slot that holds the key or at an empty one. -/
def SearchEnds (keyOf : Nat → KeysetKey) (slots : List (Option Nat)) (capacity : Nat)
    (key : KeysetKey) : Prop :=
  ((findSlot keyOf slots capacity key).2 = false ∧
    slots[(findSlot keyOf slots capacity key).1]? = some none) ∨
    ((findSlot keyOf slots capacity key).2 = true ∧
      ∃ index, slots[(findSlot keyOf slots capacity key).1]? = some (some index) ∧
      keyOf index = key)

theorem searchEnds {n capacity : Nat} {slots : List (Option Nat)} (hPower : capacity = 2 ^ n)
    (hLength : slots.length = capacity) (hEmpty : none ∈ slots) (key : KeysetKey) :
    SearchEnds keyOf slots capacity key := by
  have hStart : startSlot capacity key < slots.length := hLength ▸ startSlot_lt hPower key
  obtain ⟨k, -, -, -, hEnd⟩ := @find_ends _ _ keyOf _ _ _ _ hStart hEmpty
  rw [SearchEnds, findSlot_eq keyOf hPower hLength]
  exact hEnd

/-- The latest of the inserted indices with a key is the one that a search finds. -/
theorem Keyset.Records.stored (h : set.Records keyOf inserted) {index : Nat}
    (hLatest : latest keyOf inserted key = some index) :
    set.slots[(findSlot keyOf set.slots set.capacity key).1]? = some (some index) := by
  rw [h.holds.findSlot_eq]
  exact (h.holds.represents.find_eq _ h.holds.exists_empty).2.2 index hLatest

/-- The key set is a faithful set in every state that insertions lead to. -/
theorem keyset_faithful (hExpected : expected ≤ sizeMax / 512 + 1)
    (hReached : Keyset.Reached expected keyOf set inserted)
    (hInserted : inserted.length ≤ sizeMax / 256) (hKeeps : KeepsKeys keyOf keyOf' inserted) :
    ((∃ n, set.capacity = 2 ^ n) ∧ set.slots.length = set.capacity ∧
      occupied set.slots * 2 ≤ set.capacity) ∧
    (∀ key, SearchEnds keyOf' set.slots set.capacity key) ∧
    (∀ moved rest key, set.slots = moved ++ rest →
      SearchEnds keyOf'
        (moved.foldl (rehash keyOf' (set.capacity * 2)) (List.replicate (set.capacity * 2) none))
        (set.capacity * 2) key) ∧
    (∀ key, keysetContains keyOf' set key = true ↔ ∃ index ∈ inserted, keyOf' index = key) ∧
    (∀ heap index,
      ((keysetInsert keyOf' set heap index).result = .errDuplicateKey ↔
        ∃ other ∈ inserted, keyOf' other = keyOf' index) ∧
      ((keysetInsert keyOf' set heap index).result = .errDuplicateKey →
        (keysetInsert keyOf' set heap index).set = set) ∧
      (heap.Generous → (¬∃ other ∈ inserted, keyOf' other = keyOf' index) →
        (keysetInsert keyOf' set heap index).result = .ok) ∧
      (heap.grant heap.requests.length = false → (set.count + 1) * 2 > set.capacity →
        (¬∃ other ∈ inserted, keyOf' other = keyOf' index) →
          (keysetInsert keyOf' set heap index).result = .errMemory ∧
          (keysetInsert keyOf' set heap index).set = set)) ∧
    ∀ heap index, heap.Generous →
      let inserting := keysetInsertLast keyOf' set heap index
      inserting.result = .ok ∧ inserting.previous = latest keyOf' inserted (keyOf' index) ∧
        inserting.set.slots[(findSlot keyOf' inserting.set.slots inserting.set.capacity
          (keyOf' index)).1]? = some (some index) := by
  have hRecords := (hReached.records hExpected hInserted).keeps hKeeps
  have hHolds := hRecords.holds
  obtain ⟨n, hPower⟩ := hHolds.power
  obtain ⟨m, hDouble⟩ := hHolds.double_power
  refine ⟨⟨⟨n, hPower⟩, hHolds.length, hHolds.count ▸ hHolds.half⟩,
    searchEnds hPower hHolds.length hHolds.exists_empty, fun moved rest key hSplit =>
      ?_, fun key => ?_,
    fun heap index => ?_, fun heap index hHeap => ?_⟩
  · obtain ⟨_, -, -, hLength, -, hEmpty⟩ :=
      hHolds.represents.rebuild_part (startSlot_lt hDouble) hHolds.occupied_lt moved rest hSplit
    rw [← foldl_rehash_eq hDouble moved List.length_replicate] at hLength hEmpty
    exact searchEnds hDouble hLength hEmpty key
  · rw [keysetContains_eq hHolds, latest_isSome]
  · rw [← latest_eq_none, ← latest_isSome, keysetInsert]
    rcases hRecords.insert hInserted false heap index with
      ⟨old, hLatest, hPresent⟩ |
        ⟨hLatest, ⟨set', heap', hRun, -, hGranted⟩ | ⟨-, hRefused, heap', hRun⟩⟩
    · have hRun : keysetInsertWith keyOf' false set heap index =
        ⟨.errDuplicateKey, none, set, heap⟩ := hPresent
      rw [hRun, hLatest]
      exact ⟨⟨fun _ => rfl, fun _ => rfl⟩, fun _ => rfl, fun _ => nofun, fun _ _ => nofun⟩
    · rw [hRun, hLatest]
      refine ⟨⟨nofun, nofun⟩, nofun, fun _ _ => rfl, fun hNot hFull => ?_⟩
      rw [hGranted hFull] at hNot
      cases hNot
    · rw [hRun, hLatest]
      refine ⟨⟨nofun, nofun⟩, nofun, fun hHeap => ?_, fun _ _ _ => ⟨rfl, rfl⟩⟩
      rw [hHeap] at hRefused
      cases hRefused
  · rw [keysetInsertLast]
    have hStored {set' : Keyset} (h : set'.Records keyOf' (index :: inserted)) :
        set'.slots[(findSlot keyOf' set'.slots set'.capacity (keyOf' index)).1]? =
          some (some index) := by
      apply h.stored
      rw [latest_cons, Function.update_self]
    rcases hRecords.insert hInserted true heap index with
      ⟨old, hLatest, set', hRun, hRecords'⟩ |
        ⟨hLatest, ⟨set', heap', hRun, hRecords', -⟩ | ⟨-, hRefused, -⟩⟩
    · rw [hRun, hLatest]
      exact ⟨rfl, rfl, hStored hRecords'⟩
    · rw [hRun, hLatest]
      exact ⟨rfl, rfl, hStored hRecords'⟩
    · rw [hHeap] at hRefused
      cases hRefused

/-- Two indices with one key: the second is a duplicate of the first. -/
theorem keyset_faithful_repeated :
    let keyOf : Nat → KeysetKey := fun _ => ⟨none, []⟩
    let heap : Heap := ⟨fun _ => true, []⟩
    (keysetInsert keyOf (keysetInsertWith keyOf false (keysetInit heap 0).2.1 heap 0).set heap
      1).result = .errDuplicateKey :=
  ((@keyset_faithful (fun _ => ⟨none, []⟩) (fun _ => ⟨none, []⟩)
    (keysetInsertWith (fun _ => ⟨none, []⟩) false (keysetInit ⟨fun _ => true, []⟩ 0).2.1
      ⟨fun _ => true, []⟩ 0).set
    _ 0 (by decide)
    (.insert (@Keyset.Reached.init 0 _ ⟨fun _ => true, []⟩ (keysetInit ⟨fun _ => true, []⟩ 0).2.2
      _ (by rfl)) (fun _ _ => rfl) false ⟨fun _ => true, []⟩ 0) (by decide +kernel)
    (fun _ _ => rfl)).2.2.2.2.1 ⟨fun _ => true, []⟩ 1).1.mpr ⟨0, by decide +kernel, rfl⟩

end MaelysJson
