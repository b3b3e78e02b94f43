import MaelysJson.Writing.Outcomes

/-! The growing output buffer with memory granted: its arithmetic never wraps, its
doubling loop ends, and it holds the appended chunks up to the maximum. -/
namespace MaelysJson

open Run Heap Allocating

variable {s : Serializer} {bytes : Bytes} {needed maximum capacity extra : Nat} {heap : Heap}
  {indent ascii : Bool}

/-- An output under its maximum, with memory granted. -/
structure Serializer.Steady (s : Serializer) : Prop where
  generous : s.heap.Generous
  fits : s.bytes.length ≤ s.maximum
  bounded : s.maximum < sizeMax / 2

/-- No subtraction wraps while the output is within its maximum. -/
theorem Serializer.Steady.room (h : s.Steady) :
    wrapSub s.maximum s.bytes.length = s.maximum - s.bytes.length := by
  have hMaximum : s.maximum < 2 ^ 64 := h.bounded.trans (by decide)
  have hFits := h.fits
  have hSplit : s.maximum + 2 ^ 64 - s.bytes.length = s.maximum - s.bytes.length + 2 ^ 64 := by
    omega
  rw [wrapSub, wrap, hSplit, Nat.add_mod_right, Nat.mod_eq_of_lt (by omega)]

/-! ### The doubling loop -/

/-- A run of the doubling loop from one capacity to the one it ends with, in exact arithmetic. -/
inductive Doubles (needed maximum : Nat) : Nat → Nat → Prop where
  | ended {capacity : Nat} (hEnough : needed ≤ capacity) : Doubles needed maximum capacity capacity
  | clamped {capacity grown : Nat} (hShort : capacity < needed) (hClamp : capacity > maximum / 2)
      (hNext : Doubles needed maximum maximum grown) : Doubles needed maximum capacity grown
  | doubled {capacity grown : Nat} (hShort : capacity < needed) (hClamp : ¬capacity > maximum / 2)
      (hExact : capacity * 2 < 2 ^ 64) (hNext : Doubles needed maximum (capacity * 2) grown) :
      Doubles needed maximum capacity grown

theorem Doubles.enough (h : Doubles needed maximum capacity extra) : needed ≤ extra := by
  induction h with
  | ended hEnough => exact hEnough
  | clamped _ _ _ ih => exact ih
  | doubled _ _ _ _ ih => exact ih

/-- The loop ends with the capacity it had or with one within the maximum. -/
theorem Doubles.le (h : Doubles needed maximum capacity extra) : extra ≤ max capacity maximum := by
  induction h with
  | ended _ => exact le_max_left _ _
  | clamped _ _ _ ih =>
      rw [max_self] at ih
      exact ih.trans (le_max_right _ _)
  | @doubled capacity _ _ hClamp _ _ ih =>
      have hWithin : capacity * 2 ≤ maximum := by omega
      rw [max_eq_right hWithin] at ih
      exact ih.trans (le_max_right _ _)

theorem reserveCapacity_of_le (h : needed ≤ capacity) (rounds : Nat) :
    reserveCapacity needed maximum rounds capacity = capacity := by
  cases rounds with
  | zero => rfl
  | succ rounds => exact if_neg (not_lt.mpr h)

/-- Enough rounds bring the loop to its end. -/
theorem reserveCapacity_doubles (hNeeded : needed ≤ maximum) (hBounded : maximum < sizeMax / 2)
    {rounds : Nat} (hRounds : needed ≤ capacity * 2 ^ rounds) :
    Doubles needed maximum capacity (reserveCapacity needed maximum rounds capacity) := by
  have hWord : maximum < 2 ^ 63 := hBounded.trans (by decide)
  induction rounds generalizing capacity with
  | zero =>
      rw [pow_zero, mul_one] at hRounds
      exact .ended hRounds
  | succ rounds ih =>
      by_cases hShort : capacity < needed
      · rw [reserveCapacity, if_pos hShort]
        by_cases hClamp : capacity > maximum / 2
        · rw [if_pos hClamp, reserveCapacity_of_le hNeeded]
          exact .clamped hShort hClamp (.ended hNeeded)
        · have hExact : capacity * 2 < 2 ^ 64 := by omega
          rw [if_neg hClamp, wrap, Nat.mod_eq_of_lt hExact]
          rw [pow_succ', ← mul_assoc] at hRounds
          exact .doubled hShort hClamp hExact (ih hRounds)
      · rw [reserveCapacity_of_le (not_lt.mp hShort)]
        exact .ended (not_lt.mp hShort)

/-! ### One append -/

/-- The capacity the loop starts with. -/
def Serializer.initialCapacity (s : Serializer) : Nat := if s.capacity ≠ 0 then s.capacity else 128

/-- A reservation of `extra` bytes that ends with `capacity`, in exact arithmetic. -/
structure Reserved (s : Serializer) (extra capacity : Nat) : Prop where
  size : s.bytes.length ≤ s.maximum
  needed : s.bytes.length + extra < 2 ^ 64
  enough : s.bytes.length + extra ≤ capacity
  kept : s.bytes.length + extra ≤ s.capacity → capacity = s.capacity
  grown : s.capacity < s.bytes.length + extra →
    Doubles (s.bytes.length + extra) s.maximum s.initialCapacity capacity ∧ capacity + 1 < 2 ^ 64

theorem reserve_fits (h : s.Steady) (hFits : s.bytes.length + extra ≤ s.maximum) :
    ∃ capacity heap, reserve extra s = .ok () { s with capacity, heap } ∧ heap.Generous ∧
      Reserved s extra capacity := by
  have hLimit : ¬extra > wrapSub s.maximum s.bytes.length := by
    rw [h.room]
    omega
  have hWord : s.maximum < 2 ^ 63 := h.bounded.trans (by decide)
  have hExact : wrap (s.bytes.length + extra) = s.bytes.length + extra :=
    Nat.mod_eq_of_lt (by omega)
  by_cases hRoom : s.bytes.length + extra ≤ s.capacity
  · refine ⟨s.capacity, s.heap, ?_, h.generous, h.fits, by omega, hRoom, fun _ => rfl,
      fun hShort => ?_⟩
    · rw [reserve, if_neg hLimit, hExact]
      exact if_pos hRoom
    · exact absurd hRoom (not_le.mpr hShort)
  · have hInitial : 0 < s.initialCapacity := by
      rw [Serializer.initialCapacity]
      split_ifs with hCapacity
      · exact Nat.pos_of_ne_zero hCapacity
      · decide
    let capacity := reserveCapacity (s.bytes.length + extra) s.maximum 64 s.initialCapacity
    have hDoubles : Doubles (s.bytes.length + extra) s.maximum s.initialCapacity capacity := by
      apply reserveCapacity_doubles hFits h.bounded
      calc s.bytes.length + extra ≤ 1 * 2 ^ 64 := by omega
        _ ≤ s.initialCapacity * 2 ^ 64 := Nat.mul_le_mul_right _ hInitial
    have hRun : reserve extra s =
        if s.heap.grant s.heap.requests.length = true then
          .ok () { s with capacity, heap := s.heap.after [wrap (capacity + 1)] }
        else .error .errMemory { s with heap := s.heap.after [wrap (capacity + 1)] } := by
      rw [reserve, if_neg hLimit, hExact]
      exact if_neg hRoom
    refine ⟨capacity, s.heap.after [wrap (capacity + 1)], ?_, h.generous.after _, h.fits, by omega,
      hDoubles.enough, fun h => absurd h hRoom, fun _ => ⟨hDoubles, ?_⟩⟩
    · rw [hRun, if_pos (h.generous _)]
    · have hLe := hDoubles.le
      rw [Serializer.initialCapacity] at hLe
      split_ifs at hLe <;> omega

theorem append_fits (h : s.Steady) (hFits : s.bytes.length + bytes.length ≤ s.maximum) :
    ∃ capacity heap, append bytes s = .ok () { s with bytes := s.bytes ++ bytes, capacity, heap } ∧
      heap.Generous ∧
      if bytes = [] then capacity = s.capacity else Reserved s bytes.length capacity := by
  by_cases hEmpty : bytes = []
  · subst hEmpty
    refine ⟨s.capacity, s.heap, ?_, h.generous, rfl⟩
    rw [List.append_nil]
    rfl
  · obtain ⟨capacity, heap, hReserve, hHeap, hReserved⟩ := reserve_fits h hFits
    refine ⟨capacity, heap, ?_, hHeap, ?_⟩
    · have hLength : ¬bytes.length = 0 := fun h => hEmpty (List.length_eq_zero_iff.mp h)
      exact (congrFun (if_neg hLength) s).trans (bind_of_ok hReserve)
    · rw [if_neg hEmpty]
      exact hReserved

theorem append_exceeds (h : s.Steady) (hExceeds : s.maximum < s.bytes.length + bytes.length) :
    append bytes s = .error .errLimit s := by
  have hFits := h.fits
  have hLength : ¬bytes.length = 0 := by omega
  have hLimit : bytes.length > wrapSub s.maximum s.bytes.length := by
    rw [h.room]
    omega
  have hReserve : reserve bytes.length s = .error .errLimit s := if_pos hLimit
  exact (congrFun (if_neg hLength) s).trans (bind_of_error hReserve)

/-! ### Any sequence of appends -/

/-- An empty serializer, before its first append. -/
def Serializer.fresh (maximum : Nat) (indent ascii : Bool) (heap : Heap) : Serializer :=
  { bytes := [], capacity := 0, maximum, indent, ascii, heap }

/-- The state after one append, whatever it returned. -/
def Serializer.afterAppend (s : Serializer) (bytes : Bytes) : Serializer :=
  match append bytes s with
  | .ok _ t => t
  | .error _ t => t

/-- A text that takes a chunk only as a whole and only within a maximum. -/
def extended (maximum : Nat) (text chunk : Bytes) : Bytes :=
  if (text ++ chunk).length ≤ maximum then text ++ chunk else text

/-- What holds between appends. -/
structure Serializer.Holds (s : Serializer) (maximum : Nat) (text : Bytes) : Prop where
  steady : s.Steady
  maximum_eq : s.maximum = maximum
  bytes_eq : s.bytes = text
  capacity : s.bytes.length ≤ s.capacity

theorem Serializer.Holds.afterAppend {text : Bytes} (h : s.Holds maximum text) (chunk : Bytes) :
    (s.afterAppend chunk).Holds maximum (extended maximum text chunk) := by
  obtain ⟨hSteady, rfl, rfl, hCapacity⟩ := h
  rw [extended, List.length_append, Serializer.afterAppend]
  by_cases hFits : s.bytes.length + chunk.length ≤ s.maximum
  · obtain ⟨capacity, heap, hRun, hHeap, hReserved⟩ := append_fits hSteady hFits
    rw [hRun, if_pos hFits]
    refine ⟨⟨hHeap, ?_, hSteady.bounded⟩, rfl, rfl, ?_⟩
    · exact (List.length_append ..).trans_le hFits
    · rw [List.length_append]
      split_ifs at hReserved with hEmpty
      · rw [hEmpty, hReserved]
        exact hCapacity
      · exact hReserved.enough
  · rw [append_exceeds hSteady (not_le.mp hFits), if_neg hFits]
    exact ⟨hSteady, rfl, rfl, hCapacity⟩

theorem foldl_extended (chunks : List Bytes) (text : Bytes)
    (h : (text ++ chunks.flatten).length ≤ maximum) :
    chunks.foldl (extended maximum) text = text ++ chunks.flatten := by
  induction chunks generalizing text with
  | nil => exact (List.append_nil text).symm
  | cons chunk chunks ih =>
      rw [List.flatten_cons, ← List.append_assoc] at h
      have hFits : (text ++ chunk).length ≤ maximum := by
        rw [List.length_append] at h
        omega
      rw [List.foldl_cons, extended, if_pos hFits, ih _ h, List.flatten_cons, List.append_assoc]

/-- After any appends, the next one is exact: it adds its chunk without wrapping, or
reports the limit because the whole would be longer than the maximum. -/
theorem append_exact (hPos : 1 ≤ maximum) (hMaximum : maximum ≤ sizeMax / 2 - 1)
    (hHeap : heap.Generous) (chunks : List Bytes) :
    let s := chunks.foldl Serializer.afterAppend (.fresh maximum indent ascii heap)
    s.bytes = chunks.foldl (extended maximum) [] ∧ s.bytes.length ≤ maximum ∧
      s.bytes.length ≤ s.capacity ∧ (chunks.flatten.length ≤ maximum → s.bytes = chunks.flatten) ∧
      ∀ chunk,
        (maximum < s.bytes.length + chunk.length → append chunk s = .error .errLimit s) ∧
        (s.bytes.length + chunk.length ≤ maximum →
          ∃ capacity heap, append chunk s =
            .ok () { s with bytes := s.bytes ++ chunk, capacity, heap } ∧
            if chunk = [] then capacity = s.capacity else Reserved s chunk.length capacity) := by
  intro s
  have hRun (chunks : List Bytes) {s : Serializer} {text : Bytes} (h : s.Holds maximum text) :
      (chunks.foldl Serializer.afterAppend s).Holds maximum
        (chunks.foldl (extended maximum) text) := by
    induction chunks generalizing s text with
    | nil => exact h
    | cons chunk chunks ih => exact ih (h.afterAppend chunk)
  have hBounded : maximum < sizeMax / 2 := by omega
  have hHolds : s.Holds maximum (chunks.foldl (extended maximum) []) :=
    hRun chunks ⟨⟨hHeap, Nat.zero_le _, hBounded⟩, rfl, rfl, Nat.zero_le _⟩
  obtain ⟨hSteady, hSame, hBytes, hCapacity⟩ := hHolds
  refine ⟨hBytes, hSame ▸ hSteady.fits, hCapacity,
    fun hFits => hBytes.trans (foldl_extended chunks [] hFits),
    fun chunk => ⟨fun hExceeds => append_exceeds hSteady (hSame ▸ hExceeds), fun hFits => ?_⟩⟩
  obtain ⟨capacity, heap, hAppend, -, hReserved⟩ := append_fits hSteady (hSame ▸ hFits)
  exact ⟨capacity, heap, hAppend, hReserved⟩

/-- Under a maximum of one byte: the second byte does not fit, the empty chunk does. -/
theorem append_exact_tiny :
    let s := [[0x61], [0x62], []].foldl Serializer.afterAppend
      (.fresh 1 false false ⟨fun _ => true, []⟩)
    s.bytes = [0x61] ∧ s.bytes.length ≤ s.capacity ∧ append [0x63] s = .error .errLimit s :=
  let h := @append_exact 1 ⟨fun _ => true, []⟩ false false (by decide) (by decide) (fun _ => rfl)
    [[0x61], [0x62], []]
  ⟨h.1, h.2.2.1, (h.2.2.2.2 [0x63]).1 (by decide)⟩

end MaelysJson
