import Mathlib.Tactic

/-! Open addressing with linear probing. A table holds entries, the owner knows
their keys, and a search goes from the start slot of a key to the first slot that
is empty or holds that key. A table represents a finite map from keys to entries;
every operation is stated by what it does to the map. -/
namespace Probing

variable {ι κ : Type}

variable (keyOf : ι → κ) (start : κ → Nat)

/-- The `k`-th slot of the search for `key`. -/
def slotAt (slots : List (Option ι)) (key : κ) (k : Nat) : Nat := (start key + k) % slots.length

/-- The search for `key` passes over its first `k` slots: they hold other keys. -/
def Passes (slots : List (Option ι)) (key : κ) (k : Nat) : Prop :=
  ∀ n < k, ∃ entry, slots[slotAt start slots key n]? = some (some entry) ∧ keyOf entry ≠ key

/-- `slots` holds exactly the entries of `map`, each where the search for its key finds it. -/
structure Represents (slots : List (Option ι)) (map : κ → Option ι) : Prop where
  mem : ∀ key entry, map key = some entry ↔ keyOf entry = key ∧ some entry ∈ slots
  start_lt : ∀ key, start key < slots.length
  reach : ∀ slot entry, slots[slot]? = some (some entry) →
    ∃ k < slots.length, slotAt start slots (keyOf entry) k = slot ∧
    Passes keyOf start slots (keyOf entry) k

variable {keyOf start} {slots : List (Option ι)} {map : κ → Option ι} {key : κ}

theorem slotAt_lt (hSlots : 0 < slots.length) (k : Nat) : slotAt start slots key k < slots.length :=
  Nat.mod_lt _ hSlots

theorem slotAt_zero (h : start key < slots.length) : slotAt start slots key 0 = start key :=
  Nat.mod_eq_of_lt h

theorem slotAt_succ (k : Nat) :
    slotAt start slots key (k + 1) = (slotAt start slots key k + 1) % slots.length := by
  rw [slotAt, slotAt, Nat.mod_add_mod, Nat.add_assoc]

/-- Every slot comes up in the search for any key. -/
theorem exists_slotAt (h : start key < slots.length) {slot : Nat} (hSlot : slot < slots.length) :
    ∃ k < slots.length, slotAt start slots key k = slot := by
  by_cases hLe : start key ≤ slot
  · refine ⟨slot - start key, by omega, ?_⟩
    rw [slotAt, Nat.add_sub_cancel' hLe, Nat.mod_eq_of_lt hSlot]
  · refine ⟨slot + slots.length - start key, by omega, ?_⟩
    rw [slotAt, Nat.add_sub_cancel' (by omega), Nat.add_mod_right, Nat.mod_eq_of_lt hSlot]

theorem slotAt_set {slot : Nat} {entry : Option ι} (k : Nat) :
    slotAt start (slots.set slot entry) key k = slotAt start slots key k := by
  rw [slotAt, slotAt, List.length_set]

/-- An empty table represents the empty map. -/
theorem Represents.empty {capacity : Nat} (hStart : ∀ key, start key < capacity) :
    Represents keyOf start (List.replicate capacity none) fun _ => none := by
  refine ⟨fun key entry => ?_, fun key => by rw [List.length_replicate]; exact hStart key,
    fun slot entry hGet => ?_⟩
  · simp [List.mem_replicate]
  · have := List.mem_of_getElem? hGet
    simp [List.mem_replicate] at this

/-- Only the keys of stored entries matter. -/
theorem Represents.congr {keyOf' : ι → κ} (h : Represents keyOf start slots map)
    (hKeys : ∀ entry, some entry ∈ slots → keyOf' entry = keyOf entry) :
    Represents keyOf' start slots map := by
  refine ⟨fun key entry => ?_, h.start_lt, fun slot entry hGet => ?_⟩
  · rw [h.mem]
    exact and_congr_left fun hMem => by rw [hKeys entry hMem]
  · obtain ⟨k, hk, hSlot, hPasses⟩ := h.reach slot entry hGet
    rw [hKeys entry (List.mem_of_getElem? hGet)]
    refine ⟨k, hk, hSlot, fun n hn => ?_⟩
    obtain ⟨met, hMet, hNe⟩ := hPasses n hn
    exact ⟨met, hMet, by rwa [hKeys met (List.mem_of_getElem? hMet)]⟩

/-- Entries of one table in different slots have different keys. -/
theorem Represents.distinct (h : Represents keyOf start slots map) {left right : List (Option ι)}
    {entry other : ι} (hSplit : slots = left ++ some entry :: right) (hMem : some other ∈ left) :
    keyOf other ≠ keyOf entry := by
  intro hKey
  obtain ⟨slot, hSlotLt, hGet⟩ := List.getElem_of_mem hMem
  have hOther : slots[slot]? = some (some other) := by
    rw [hSplit, List.getElem?_append_left hSlotLt, List.getElem?_eq_getElem hSlotLt, hGet]
  have hEntry : slots[left.length]? = some (some entry) := by
    rw [hSplit, List.getElem?_append_right le_rfl, Nat.sub_self]
    rfl
  obtain ⟨k, hk, hSlot, hPasses⟩ := h.reach slot other hOther
  obtain ⟨k', hk', hSlot', hPasses'⟩ := h.reach left.length entry hEntry
  rw [hKey] at hSlot hPasses
  rcases Nat.lt_trichotomy k k' with hLt | rfl | hLt
  · obtain ⟨met, hMet, hNe⟩ := hPasses' k hLt
    rw [hSlot, hOther] at hMet
    cases hMet
    exact hNe hKey
  · omega
  · obtain ⟨met, hMet, hNe⟩ := hPasses k' hLt
    rw [hSlot', hEntry] at hMet
    cases hMet
    exact hNe rfl

/-! ### Occupancy -/

def occupied (slots : List (Option ι)) : Nat := slots.countP Option.isSome

theorem none_mem_of_occupied_lt (h : occupied slots < slots.length) : none ∈ slots := by
  by_contra hne
  have hAll : occupied slots = slots.length := by
    rw [occupied, List.countP_eq_length]
    intro entry hEntry
    cases entry with
    | none => exact absurd hEntry hne
    | some entry => rfl
  omega

theorem occupied_replicate (capacity : Nat) :
    occupied (List.replicate capacity (none : Option ι)) = 0 := by
  rw [occupied, List.countP_replicate]
  rfl

theorem occupied_set_none {slot : Nat} (h : slots[slot]? = some none) (entry : ι) :
    occupied (slots.set slot (some entry)) = occupied slots + 1 := by
  obtain ⟨hLt, hGet⟩ := List.getElem?_eq_some_iff.mp h
  rw [occupied, List.countP_set hLt, hGet]
  simp [occupied]

theorem occupied_set_some {slot : Nat} {old : ι} (h : slots[slot]? = some (some old)) (entry : ι) :
    occupied (slots.set slot (some entry)) = occupied slots := by
  obtain ⟨hLt, hGet⟩ := List.getElem?_eq_some_iff.mp h
  rw [occupied, List.countP_set hLt, hGet]
  have hPos : 0 < slots.countP Option.isSome :=
    List.countP_pos_iff.mpr ⟨_, List.mem_of_getElem? h, rfl⟩
  simp only [Option.isSome_some, if_true, occupied]
  omega

/-! ### Searching -/

variable [DecidableEq κ]

/-- The search for `key` from `slot`, at most `rounds` slots long. -/
def probe (keyOf : ι → κ) (slots : List (Option ι)) (key : κ) : Nat → Nat → Nat × Bool
  | 0, slot => (slot, false)
  | rounds + 1, slot =>
      match slots.getD slot none with
      | none => (slot, false)
      | some entry =>
          if keyOf entry = key then (slot, true)
          else probe keyOf slots key rounds ((slot + 1) % slots.length)

/-- The slot of `key`: the one that holds it, or the empty one where it belongs. -/
def find (keyOf : ι → κ) (start : κ → Nat) (slots : List (Option ι)) (key : κ) : Nat × Bool :=
  probe keyOf slots key slots.length (start key)

/-- What the search for `key` ends with after `k` slots. -/
def Ends (keyOf : ι → κ) (start : κ → Nat) (slots : List (Option ι)) (key : κ) (k : Nat)
    (result : Nat × Bool) : Prop :=
  result.1 = slotAt start slots key k ∧ Passes keyOf start slots key k ∧
    ((result.2 = false ∧ slots[result.1]? = some none) ∨
      (result.2 = true ∧ ∃ entry, slots[result.1]? = some (some entry) ∧ keyOf entry = key))

theorem probe_ends {k m rounds : Nat} (hSlots : 0 < slots.length)
    (hPasses : Passes keyOf start slots key k)
    (hEmpty : slots[slotAt start slots key m]? = some none) (hLe : k ≤ m)
    (hRounds : m < k + rounds) :
    ∃ k' ≤ m, Ends keyOf start slots key k'
      (probe keyOf slots key rounds (slotAt start slots key k)) := by
  induction rounds generalizing k with
  | zero => omega
  | succ rounds ih =>
      have hLt := @slotAt_lt _ _ start _ key hSlots k
      have hGet := List.getElem?_eq_getElem hLt
      rw [probe, List.getD_eq_getElem?_getD, hGet, Option.getD_some]
      cases hEntry : slots[slotAt start slots key k] with
      | none =>
          rw [hEntry] at hGet
          exact ⟨k, hLe, rfl, hPasses, Or.inl ⟨rfl, hGet⟩⟩
      | some entry =>
          rw [hEntry] at hGet
          by_cases hKey : keyOf entry = key
          · simp only [if_pos hKey]
            exact ⟨k, hLe, rfl, hPasses, Or.inr ⟨rfl, entry, hGet, hKey⟩⟩
          · simp only [if_neg hKey]
            rw [← slotAt_succ]
            refine ih (fun n hn => ?_) (hLe.lt_of_ne ?_) (by omega)
            · rcases Nat.lt_succ_iff_lt_or_eq.mp hn with hn | rfl
              · exact hPasses n hn
              · exact ⟨entry, hGet, hKey⟩
            · rintro rfl
              rw [hGet] at hEmpty
              cases hEmpty

/-- With an empty slot in the table the search ends where it should. -/
theorem find_ends (hStart : start key < slots.length) (hEmpty : none ∈ slots) :
    ∃ k < slots.length, Ends keyOf start slots key k (find keyOf start slots key) := by
  obtain ⟨slot, hSlot, hNone⟩ := List.getElem_of_mem hEmpty
  obtain ⟨m, hm, rfl⟩ := @exists_slotAt _ _ start _ key hStart _ hSlot
  have hGet : slots[slotAt start slots key m]? = some none := by
    rw [List.getElem?_eq_getElem hSlot, hNone]
  obtain ⟨k, hk, hEnds⟩ := @probe_ends _ _ keyOf _ _ _ _ 0 _ slots.length
    (Nat.zero_lt_of_lt hStart) nofun hGet (Nat.zero_le m) (by omega)
  rw [slotAt_zero hStart] at hEnds
  exact ⟨k, by omega, hEnds⟩

/-- A search finds the entry of its key, and fails when there is none. -/
theorem Represents.find_eq (h : Represents keyOf start slots map) (key : κ)
    (hEmpty : none ∈ slots) :
    (find keyOf start slots key).2 = (map key).isSome ∧
      (map key = none → slots[(find keyOf start slots key).1]? = some none) ∧
      ∀ entry, map key = some entry →
        slots[(find keyOf start slots key).1]? = some (some entry) := by
  obtain ⟨k, hk, hSlot, hPasses, hEnd⟩ := @find_ends _ _ keyOf _ _ _ _ (h.start_lt key) hEmpty
  rcases hEnd with ⟨hFalse, hNone⟩ | ⟨hTrue, entry, hEntry, hKey⟩
  · have hMap : map key = none := by
      rw [Option.eq_none_iff_forall_ne_some]
      intro entry hMap
      obtain ⟨rfl, hMem⟩ := (h.mem key entry).mp hMap
      obtain ⟨slot, hSlotLt, hGet⟩ := List.getElem_of_mem hMem
      obtain ⟨k', hk', hSlot', hPasses'⟩ := h.reach slot entry
        (by rw [List.getElem?_eq_getElem hSlotLt, hGet])
      -- the entry would have been met at `k'`, or the empty slot at `k` passed over
      rcases Nat.lt_trichotomy k k' with hLt | rfl | hLt
      · obtain ⟨other, hOther, -⟩ := hPasses' k hLt
        rw [← hSlot, hNone] at hOther
        cases hOther
      · rw [hSlot, hSlot', List.getElem?_eq_getElem hSlotLt, hGet] at hNone
        cases hNone
      · obtain ⟨other, hOther, hNe⟩ := hPasses k' hLt
        rw [hSlot', List.getElem?_eq_getElem hSlotLt, hGet] at hOther
        cases hOther
        exact hNe rfl
    exact ⟨by rw [hFalse, hMap]; rfl, fun _ => hNone,
      fun entry hEntry => absurd (hMap.symm.trans hEntry) (by simp)⟩
  · have hMap : map key = some entry := (h.mem key entry).mpr ⟨hKey, List.mem_of_getElem? hEntry⟩
    refine ⟨by rw [hTrue, hMap]; rfl, fun hNone => absurd (hMap.symm.trans hNone) (by simp),
      fun other hOther => ?_⟩
    rw [hMap] at hOther
    rw [hEntry, Option.some.inj hOther]

/-! ### Storing -/

/-- Storing an entry in the slot found for its key adds it to the map, in place
of the entry of that key if there was one. -/
theorem Represents.set (h : Represents keyOf start slots map) (hEmpty : none ∈ slots) (entry : ι) :
    Represents keyOf start (slots.set (find keyOf start slots (keyOf entry)).1 (some entry))
      (Function.update map (keyOf entry) (some entry)) := by
  obtain ⟨k, hk, hSlot, hPasses, hEnd⟩ :=
    @find_ends _ _ keyOf _ _ _ _ (h.start_lt (keyOf entry)) hEmpty
  generalize hj : (find keyOf start slots (keyOf entry)).1 = j at hSlot hEnd
  have hLt : j < slots.length := by
    rw [hSlot]
    exact slotAt_lt (Nat.zero_lt_of_lt (h.start_lt (keyOf entry))) k
  -- whatever the slot held before had the key of the new entry
  have hOld (old : ι) (hOld : slots[j]? = some (some old)) : keyOf old = keyOf entry := by
    rcases hEnd with ⟨-, hNone⟩ | ⟨-, found, hFound, hKey⟩
    · rw [hNone] at hOld
      cases hOld
    · rw [hFound] at hOld
      cases hOld
      exact hKey
  have hMemSet (other : ι) : some other ∈ slots.set j (some entry) ↔
      other = entry ∨ ∃ slot, slot ≠ j ∧ slots[slot]? = some (some other) := by
    rw [List.mem_iff_getElem?]
    constructor
    · rintro ⟨slot, hGet⟩
      by_cases hEq : slot = j
      · rw [hEq, List.getElem?_set_self hLt] at hGet
        exact Or.inl (Option.some.inj (Option.some.inj hGet)).symm
      · rw [List.getElem?_set_ne (Ne.symm hEq)] at hGet
        exact Or.inr ⟨slot, hEq, hGet⟩
    · rintro (rfl | ⟨slot, hNe, hGet⟩)
      · exact ⟨j, List.getElem?_set_self hLt⟩
      · exact ⟨slot, by rw [List.getElem?_set_ne (Ne.symm hNe), hGet]⟩
  -- no other slot holds the key: it would be passed over, or met first
  have hOther (slot : Nat) (other : ι) (hNe : slot ≠ j) (hGet : slots[slot]? = some (some other)) :
      keyOf other ≠ keyOf entry := by
    intro hKey
    obtain ⟨k', hk', hSlot', hPasses'⟩ := h.reach slot other hGet
    rw [hKey] at hSlot' hPasses'
    rcases Nat.lt_trichotomy k k' with hLt' | rfl | hLt'
    · obtain ⟨met, hMet, hMetNe⟩ := hPasses' k hLt'
      rw [← hSlot] at hMet
      exact hMetNe (hOld met hMet)
    · exact hNe (hSlot'.symm.trans hSlot.symm)
    · obtain ⟨met, hMet, hMetNe⟩ := hPasses k' hLt'
      rw [hSlot', hGet] at hMet
      cases hMet
      exact hMetNe hKey
  refine ⟨fun key other => ?_, fun key => by rw [List.length_set]; exact h.start_lt key,
    fun slot other hGet => ?_⟩
  · rw [hMemSet]
    by_cases hKey : key = keyOf entry
    · subst hKey
      rw [Function.update_self, Option.some.injEq]
      constructor
      · rintro rfl
        exact ⟨rfl, Or.inl rfl⟩
      · rintro ⟨hEq, rfl | ⟨slot, hNe, hGet⟩⟩
        · rfl
        · exact absurd hEq (hOther slot other hNe hGet)
    · rw [Function.update_of_ne hKey, h.mem]
      refine and_congr_right fun hEq => ?_
      constructor
      · intro hMem
        obtain ⟨slot, hGet⟩ := List.mem_iff_getElem?.mp hMem
        refine Or.inr ⟨slot, ?_, hGet⟩
        rintro rfl
        exact hKey (hEq.symm.trans (hOld other hGet))
      · rintro (rfl | ⟨slot, -, hGet⟩)
        · exact absurd hEq.symm hKey
        · exact List.mem_of_getElem? hGet
  · have hPassesSet {key : κ} {n : Nat}
        (hKey : key ≠ keyOf entry ∨ ∀ n' < n, slotAt start slots key n' ≠ j)
        (hPasses : Passes keyOf start slots key n) :
        Passes keyOf start (slots.set j (some entry)) key n := by
      intro n' hn'
      obtain ⟨met, hMet, hNe⟩ := hPasses n' hn'
      rw [slotAt_set]
      by_cases hEq : slotAt start slots key n' = j
      · rw [hEq, List.getElem?_set_self hLt]
        rcases hKey with hKey | hKey
        · exact ⟨entry, rfl, hKey.symm⟩
        · exact absurd hEq (hKey n' hn')
      · rw [List.getElem?_set_ne (Ne.symm hEq)]
        exact ⟨met, hMet, hNe⟩
    by_cases hEq : slot = j
    · rw [hEq, List.getElem?_set_self hLt] at hGet
      cases hGet
      refine ⟨k, by rwa [List.length_set], by rw [slotAt_set, hEq, hSlot],
        hPassesSet (Or.inr ?_) hPasses⟩
      intro n hn hEq'
      obtain ⟨met, hMet, hNe⟩ := hPasses n hn
      rw [hEq'] at hMet
      exact hNe (hOld met hMet)
    · rw [List.getElem?_set_ne (Ne.symm hEq)] at hGet
      obtain ⟨k', hk', hSlot', hPasses'⟩ := h.reach slot other hGet
      refine ⟨k', by rwa [List.length_set], by rw [slotAt_set, hSlot'],
        hPassesSet (Or.inl (hOther slot other hEq hGet)) hPasses'⟩

/-! ### Rebuilding -/

/-- One entry of an old table enters a new one. -/
def transfer (keyOf : ι → κ) (start : κ → Nat) (slots : List (Option ι)) :
    Option ι → List (Option ι)
  | none => slots
  | some entry => slots.set (find keyOf start slots (keyOf entry)).1 (some entry)

theorem length_transfer (entry : Option ι) :
    (transfer keyOf start slots entry).length = slots.length := by
  cases entry <;> simp [transfer]

/-- A table under construction represents the entries that have moved so far, and has room. -/
theorem Represents.rebuild_part {start' : κ → Nat} {capacity : Nat}
    (h : Represents keyOf start slots map) (hStart : ∀ key, start' key < capacity)
    (hRoom : occupied slots < capacity) (left right : List (Option ι))
    (hSplit : slots = left ++ right) :
    ∃ partMap, Represents keyOf start'
      (left.foldl (transfer keyOf start') (List.replicate capacity none)) partMap ∧
      (∀ key entry, partMap key = some entry ↔ keyOf entry = key ∧ some entry ∈ left) ∧
      (left.foldl (transfer keyOf start') (List.replicate capacity none)).length = capacity ∧
      occupied (left.foldl (transfer keyOf start') (List.replicate capacity none)) = occupied left ∧
      none ∈ left.foldl (transfer keyOf start') (List.replicate capacity none) := by
  induction left using List.reverseRecOn generalizing right with
  | nil =>
      refine ⟨_, .empty hStart, by simp, List.length_replicate, occupied_replicate _, ?_⟩
      rw [List.foldl_nil, List.mem_replicate]
      exact ⟨by omega, rfl⟩
  | append_singleton left entry ih =>
      have hLe : occupied (left ++ [entry]) ≤ occupied slots := by
        rw [hSplit]
        simp only [occupied, List.countP_append]
        omega
      rw [List.append_assoc] at hSplit
      obtain ⟨partMap, hRep, hMem, hLength, hOccupied, hEmpty⟩ := ih _ hSplit
      rw [List.foldl_append, List.foldl_cons, List.foldl_nil]
      generalize left.foldl (transfer keyOf start') (List.replicate capacity none) = table at *
      have hCount : occupied (left ++ [entry]) = occupied left + occupied [entry] :=
        List.countP_append
      cases entry with
      | none =>
          refine ⟨partMap, hRep, fun key entry => ?_, hLength, ?_, hEmpty⟩
          · rw [hMem]
            simp
          · rw [hCount, transfer, hOccupied]
            rfl
      | some entry =>
          have hFresh : partMap (keyOf entry) = none := by
            rw [Option.eq_none_iff_forall_ne_some]
            intro other hOther
            obtain ⟨hKey, hLeft⟩ := (hMem _ _).mp hOther
            exact h.distinct hSplit hLeft hKey
          have hMore : occupied (transfer keyOf start' table (some entry)) =
              occupied (left ++ [some entry]) := by
            rw [hCount, transfer,
              occupied_set_none ((hRep.find_eq (keyOf entry) hEmpty).2.1 hFresh), hOccupied]
            rfl
          have hSame : (transfer keyOf start' table (some entry)).length = capacity := by
            rw [length_transfer, hLength]
          refine ⟨_, hRep.set hEmpty entry, fun key other => ?_, hSame, hMore,
            none_mem_of_occupied_lt (by omega)⟩
          by_cases hKey : key = keyOf entry
          · subst hKey
            rw [Function.update_self, Option.some.injEq, List.mem_append, List.mem_singleton]
            constructor
            · rintro rfl
              exact ⟨rfl, Or.inr rfl⟩
            · rintro ⟨hKey, hLeft | hEq⟩
              · exact absurd hKey (h.distinct hSplit hLeft)
              · exact (Option.some.inj hEq).symm
          · rw [Function.update_of_ne hKey, hMem, List.mem_append, List.mem_singleton]
            refine and_congr_right fun hEq => ⟨Or.inl, fun hMem => hMem.resolve_right ?_⟩
            rintro ⟨⟩
            exact hKey hEq.symm

/-- A table rebuilt from the slots of another represents the same map. -/
theorem Represents.rebuild {start' : κ → Nat} (capacity : Nat)
    (h : Represents keyOf start slots map) (hStart : ∀ key, start' key < capacity)
    (hRoom : occupied slots < capacity) :
    Represents keyOf start'
      (slots.foldl (transfer keyOf start') (List.replicate capacity none)) map ∧
      (slots.foldl (transfer keyOf start') (List.replicate capacity none)).length = capacity ∧
      occupied (slots.foldl (transfer keyOf start') (List.replicate capacity none)) =
        occupied slots := by
  obtain ⟨partMap, hRep, hMem, hLength, hOccupied, -⟩ :=
    h.rebuild_part hStart hRoom slots [] (List.append_nil _).symm
  have hEq : partMap = map := by
    funext key
    refine Option.ext fun entry => ?_
    rw [hMem, h.mem]
  exact ⟨hEq ▸ hRep, hLength, hOccupied⟩

end Probing
