import MaelysJson.Pointer.Path

/-! The error pointer of a failed parse names the value that was being read. -/
namespace MaelysJson

open Heap

/-- With memory granted the rescan at `offset` is what a caller gets, whatever the room. -/
theorem errorPointer_emits {heap : Heap} (hHeap : heap.Generous) (bytes : Bytes) {error : Error}
    (hOffset : error.offset ≤ bytes.length) (buffer : Option Bytes) (capacity : Nat)
    (hBuffer : ∀ memory, buffer = some memory → capacity ≤ memory.length) :
    let pointer := encodePath (framesPath bytes (scan bytes error.offset))
    let pointed := errorPointer heap (.buffer bytes) (some error) buffer capacity
    pointed.length = pointer.length ∧ ∀ memory, buffer = some memory → 1 ≤ capacity →
      pointed.buffer = some (pointer.take (min pointer.length (capacity - 1)) ++
        0 :: memory.drop (min pointer.length (capacity - 1) + 1)) := by
  intro pointer pointed
  have hRoom : ∀ memory, buffer = some memory →
      (if buffer.isSome then capacity else 0) ≤ memory.length := by
    intro memory hMemory
    rw [hMemory]
    exact hBuffer memory hMemory
  -- what is emitted is the pointer, and the frame is closed by a NUL
  have hPointed : pointed.length = pointer.length ∧ pointed.buffer =
      (emitFinish (.written buffer (if buffer.isSome then capacity else 0) pointer)).buffer := by
    by_cases hEmpty : bytes.length = 0
    · have hNil : pointer = [] := by
        have hScan : scan bytes error.offset = [] := by
          rw [scan, scanFrom, if_neg (by simp only; omega)]
          rfl
        simp only [pointer, hScan]
        rfl
      have hRun : pointed = ⟨0, (emitFinish (.init buffer capacity)).buffer, heap⟩ := by
        simp only [pointed, errorPointer, if_pos hEmpty]
      rw [hNil, hRun, init_written]
      exact ⟨rfl, rfl⟩
    · have hLimit : (if error.offset < bytes.length then error.offset else bytes.length) =
          error.offset := by
        split_ifs <;> omega
      have hEmitted := emitFrames_eq (hHeap.after [maximumDepthCeiling * sizeOfFrame]) bytes
        (scan bytes error.offset) (.init buffer capacity)
      rw [init_written, emitBytes_written hRoom, List.nil_append, ← init_written] at hEmitted
      have hRun : pointed =
          ⟨(Emitter.written buffer (if buffer.isSome then capacity else 0) pointer).length,
          (emitFinish (.written buffer (if buffer.isSome then capacity else 0) pointer)).buffer,
          (emitFrames bytes (scan bytes error.offset) (.init buffer capacity)
            (heap.after [maximumDepthCeiling * sizeOfFrame])).2⟩ := by
        simp only [pointed, errorPointer, if_neg hEmpty, hLimit, request_eq, hHeap _, if_true,
          hEmitted, pointer]
      rw [hRun]
      exact ⟨rfl, rfl⟩
  refine ⟨hPointed.1, fun memory hMemory hPos => ?_⟩
  rw [hPointed.2, hMemory]
  exact emitFinish_written (hBuffer memory hMemory) hPos pointer

theorem errorPointer_bytes (heap : Heap) (input : CText) (error : Option Error)
    (buffer : Option Bytes) (capacity : Nat) :
    errorPointer heap input error buffer capacity =
      errorPointer heap (.buffer input.bytes) error buffer capacity := by
  cases input with
  | buffer bytes => rfl
  | null size => cases error <;> rfl

/-- How a call fails on account of its text: for what the text says, or because it is
deeper or has more tokens than the limits allow. -/
def FailsReading (parsed : Parsed) (bound : Except Result Nat) : Prop :=
  parsed.result ∈ [Result.errSyntax, .errUtf8, .errDuplicateKey] ∨
    (parsed.result = .errLimit ∧ bound.isOk = true)

instance (parsed : Parsed) (bound : Except Result Nat) : Decidable (FailsReading parsed bound) :=
  inferInstanceAs (Decidable (_ ∨ _))

/-- Such a call has read its text. -/
theorem FailsReading.proceeds {heap : Heap} {input : CText} {profile : Profile}
    {requested : Option Limits} {errorGiven : Bool}
    (h : FailsReading (documentParse heap input profile requested errorGiven)
      (documentParseAllocationBound input.size profile requested)) :
    ∃ limits bound, limitsResolve requested = .ok limits ∧
      input.bytes.length ≤ limits.maximumBytes ∧
      documentParseAllocationBound input.bytes.length profile requested = .ok bound ∧
      documentParse heap input profile requested errorGiven =
        documentParse heap (.buffer input.bytes) profile requested errorGiven := by
  rcases h with hText | ⟨hLimit, hBound⟩
  · rcases documentParse_arguments input profile requested errorGiven with
      ⟨limits, bound, hLimits, hSize, hBound, hSame⟩ | ⟨result, error, hResult, hRefused⟩
    · exact ⟨limits, bound, hLimits, hSize, hBound, hSame heap⟩
    · rw [hRefused] at hText
      rcases hResult with rfl | rfl <;> simp at hText
  · cases hAllocation : documentParseAllocationBound input.size profile requested with
    | error code =>
        rw [hAllocation] at hBound
        cases hBound
    | ok bound =>
        obtain ⟨limits, hLimits⟩ : ∃ limits, limitsResolve requested = .ok limits := by
          cases hLimits : limitsResolve requested with
          | ok limits => exact ⟨limits, rfl⟩
          | error code =>
              rw [documentParseAllocationBound, hLimits] at hAllocation
              cases hAllocation
        have hSame : input.size = input.bytes.length ∧
            documentParse heap input profile requested errorGiven =
            documentParse heap (.buffer input.bytes) profile requested errorGiven := by
          cases input with
          | buffer bytes => exact ⟨rfl, rfl⟩
          | null size =>
              by_cases hSize : size = 0
              · subst hSize
                exact ⟨rfl, documentParse_null heap profile requested errorGiven⟩
              · have hArgument : (CText.null size = .null (CText.null size).size ∧
                    (CText.null size).size ≠ 0) ∨
                    (CText.null size).size = sizeMax := Or.inl ⟨rfl, hSize⟩
                simp only [documentParse, hLimits, if_pos hArgument] at hLimit
                cases hLimit
        rw [hSame.1] at hAllocation
        exact ⟨limits, bound, hLimits, documentParseAllocationBound_size hLimits hAllocation,
          hAllocation, hSame.2⟩

/-- The error pointer of a parse that fails at its text is the path to the value under
construction: of every open array the number of commas so far, of every open object
the key, if its colon has been read. -/
theorem errorPointer_path {heap heap' : Heap} (hHeap : heap.Generous) (hHeap' : heap'.Generous)
    (input : CText) (profile : Profile) (requested : Option Limits)
    (hFails : FailsReading (documentParse heap input profile requested true)
      (documentParseAllocationBound input.size profile requested))
    (buffer : Option Bytes) (capacity : Nat)
    (hBuffer : ∀ memory, buffer = some memory → capacity ≤ memory.length) :
    let parsed := documentParse heap input profile requested true
    let pointed := errorPointer heap' input parsed.error buffer capacity
    ∃ limits fault, limitsResolve requested = .ok limits ∧
      (readingOf input.bytes profile limits).readText = .error fault ∧ parsed.result = fault.code ∧
      parsed.error.map Error.offset = some fault.offset ∧
      pointed.length = (encodePath fault.path).length ∧
      ∀ memory, buffer = some memory → 1 ≤ capacity →
        pointed.buffer = some
          ((encodePath fault.path).take (min (encodePath fault.path).length (capacity - 1)) ++
          0 :: memory.drop (min (encodePath fault.path).length (capacity - 1) + 1)) := by
  intro parsed pointed
  obtain ⟨limits, bound, hLimits, hSize, hBound, hSame⟩ := hFails.proceeds
  have hReads := documentParse_reads hHeap hLimits hSize hBound true
  cases hRead : (readingOf input.bytes profile limits).readText with
  | ok s =>
      rw [hRead, ← hSame] at hReads
      obtain ⟨_, _, published, heap'', -, -, -, hRun⟩ := hReads
      rw [hRun] at hFails
      rcases hFails with hFails | hFails <;> simp at hFails
  | error fault =>
      rw [hRead, ← hSame] at hReads
      obtain ⟨heap'', hRun⟩ := hReads
      obtain ⟨hOffset, hPath⟩ := @Reading.readText_scan (readingOf input.bytes profile limits)
        (limitsResolve_ok hLimits).2.1 fault hRead
      have hClamped : (if fault.offset > input.bytes.length then input.bytes.length else
        fault.offset) =
          fault.offset := if_neg (not_lt.mpr hOffset)
      obtain ⟨error, hError, hAt⟩ : ∃ error, parsed.error = some error ∧
          error.offset = fault.offset := by
        refine ⟨_, congrArg Parsed.error hRun, ?_⟩
        exact hClamped
      have hEmits := errorPointer_emits hHeap' input.bytes (by rw [hAt]; exact hOffset) buffer
        capacity hBuffer
      simp only [pointed, hError, errorPointer_bytes heap' input]
      rw [hAt] at hEmits
      rw [show framesPath input.bytes (scan input.bytes fault.offset) = fault.path from hPath]
        at hEmits
      exact ⟨limits, fault, hLimits, hRead, congrArg Parsed.result hRun, congrArg some hAt, hEmits⟩

/-- In `[1,x` the value at index 1 is not one. -/
theorem errorPointer_path_element :
    let input := CText.buffer [0x5b, 0x31, 0x2c, 0x78]
    let parsed := documentParse ⟨fun _ => true, []⟩ input .rfc8259 none true
    ∃ fault : Fault, parsed.result = fault.code ∧
      (errorPointer ⟨fun _ => true, []⟩ input parsed.error (some [1, 1, 1]) 2).length =
        (encodePath fault.path).length :=
  have ⟨_, fault, _, _, hCode, _, hLength, _⟩ := @errorPointer_path ⟨fun _ => true, []⟩
    ⟨fun _ => true, []⟩ (fun _ => rfl) (fun _ => rfl) (.buffer [0x5b, 0x31, 0x2c, 0x78]) .rfc8259
    none (by decide +kernel) (some [1, 1, 1]) 2 (by rintro memory ⟨⟩; decide)
  ⟨fault, hCode, hLength⟩

end MaelysJson
