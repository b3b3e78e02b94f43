import MaelysJson.Code.Stdio
import MaelysJson.Reading.Strictness

/-! Parsing a file. However its bytes arrive, the call sees the contents of the file, and
parses them as a buffer of the same bytes. -/
namespace MaelysJson

/-- What a stream still has to give. -/
def InputStream.contents (stream : InputStream) : Bytes := stream.pieces.flatten

/-- Neither flag is set, as after `fopen`. -/
def InputStream.Open (stream : InputStream) : Prop := stream.eof = false ∧ stream.error = false

section

variable {stream : InputStream} {bytes : Bytes} {capacity rounds : Nat}

/-! ### One call of `fread` -/

/-- A call gives all it was asked for, or uses up a piece, or comes to the end. -/
theorem InputStream.fread_cases (hOpen : stream.Open) (count : Nat) :
    (∃ read rest, stream.fread count = (read, { stream with pieces := rest }) ∧
      read ++ rest.flatten = stream.contents ∧ read.length ≤ count ∧
      (read.length = count ∨ rest.length < stream.pieces.length)) ∨
    (stream.fread count = (stream.contents,
        { stream with pieces := [], eof := !stream.breaks, error := stream.breaks }) ∧
      stream.contents.length < count) := by
  obtain ⟨pieces, breaks, closes, eof, error⟩ := stream
  obtain ⟨rfl, rfl⟩ : eof = false ∧ error = false := hOpen
  simp only [contents, fread, Bool.false_or]
  cases pieces with
  | nil =>
      by_cases hCount : count = 0
      · exact Or.inl ⟨[], [], by simp [hCount], rfl, Nat.zero_le _, Or.inl hCount.symm⟩
      · have hPos : 0 < count := Nat.pos_of_ne_zero hCount
        exact Or.inr ⟨by simp [hPos], hPos⟩
  | cons piece pieces =>
      by_cases hMore : piece.length > count
      · refine Or.inl ⟨piece.take count, piece.drop count :: pieces, by simp [hMore], ?_,
          ?_, Or.inl ?_⟩
        · rw [List.flatten_cons, List.flatten_cons, ← List.append_assoc, List.take_append_drop]
        · exact List.length_take_le _ _
        · exact List.length_take_of_le hMore.le
      · have hTake : piece.take count = piece := List.take_of_length_le (not_lt.mp hMore)
        by_cases hEnded : pieces = [] ∧ piece.length < count
        · obtain ⟨rfl, hLess⟩ := hEnded
          exact Or.inr ⟨by simp [hMore, hTake, hLess], by simpa using hLess⟩
        · have hFlag : (pieces.isEmpty && decide (piece.length < count)) = false := by
            rw [← Bool.not_eq_true, Bool.and_eq_true, List.isEmpty_iff, decide_eq_true_iff]
            exact hEnded
          exact Or.inl ⟨piece, pieces, by simp [hMore, hTake, hFlag], rfl, not_lt.mp hMore,
            Or.inr (Nat.lt_succ_self _)⟩

/-! ### The loop -/

theorem readStreamFrom_full (h : capacity ≤ bytes.length) :
    readStreamFrom capacity rounds bytes stream = (bytes, stream) := by
  cases rounds with
  | zero => rfl
  | succ rounds => simp [readStreamFrom, not_lt.mpr h]

theorem readStreamFrom_flagged (h : ¬stream.Open) :
    readStreamFrom capacity rounds bytes stream = (bytes, stream) := by
  cases rounds with
  | zero => rfl
  | succ rounds =>
      have hFlag : ((!stream.eof) && !stream.error) = false := by
        rw [← Bool.not_eq_true, Bool.and_eq_true, Bool.not_eq_true', Bool.not_eq_true']
        exact h
      simp [readStreamFrom, Bool.and_assoc, hFlag]

/-- Whatever the pieces, the loop reads up to the capacity and leaves the rest. The error
flag tells a stream that breaks before the buffer is full. -/
theorem readStreamFrom_reads (hOpen : stream.Open) (hRoom : bytes.length ≤ capacity)
    (hRounds : stream.pieces.length < rounds) :
    ∃ rest, readStreamFrom capacity rounds bytes stream =
      ((bytes ++ stream.contents).take capacity, rest) ∧
      rest.contents = (bytes ++ stream.contents).drop capacity ∧ rest.closes = stream.closes ∧
      rest.error = (stream.breaks && decide ((bytes ++ stream.contents).length < capacity)) := by
  induction rounds generalizing bytes stream with
  | zero => exact absurd hRounds (Nat.not_lt_zero _)
  | succ rounds ih =>
      -- a full buffer ends the loop in every round
      have hFull {read : Bytes} {next : InputStream} (hNext : next.Open)
          (hAll : read ++ next.contents = bytes ++ stream.contents)
          (hLength : read.length = capacity) (hCloses : next.closes = stream.closes) :
          ∃ rest, (read, next) = ((bytes ++ stream.contents).take capacity, rest) ∧
            rest.contents = (bytes ++ stream.contents).drop capacity ∧ rest.closes = stream.closes ∧
            rest.error = (stream.breaks &&
              decide ((bytes ++ stream.contents).length < capacity)) := by
        rw [← hAll]
        refine ⟨next, by rw [← hLength, List.take_left], by rw [← hLength, List.drop_left],
          hCloses, ?_⟩
        rw [hNext.2, List.length_append, hLength, decide_eq_false (by omega), Bool.and_false]
      by_cases hLess : bytes.length < capacity
      · have hStep : readStreamFrom capacity (rounds + 1) bytes stream =
            readStreamFrom capacity rounds (bytes ++ (stream.fread (capacity - bytes.length)).1)
              (stream.fread (capacity - bytes.length)).2 := by
          simp [readStreamFrom, hLess, hOpen.1, hOpen.2]
        rw [hStep]
        rcases stream.fread_cases hOpen (capacity - bytes.length) with
          ⟨read, pieces, hRead, hAll, hLength, hProgress⟩ | ⟨hRead, hLength⟩
        · rw [hRead]
          have hContents : (bytes ++ read) ++ pieces.flatten = bytes ++ stream.contents := by
            rw [List.append_assoc, hAll]
          by_cases hDone : (bytes ++ read).length = capacity
          · rw [readStreamFrom_full hDone.ge]
            exact hFull hOpen hContents hDone rfl
          · rw [List.length_append] at hDone
            obtain ⟨rest, hRun, hRest⟩ := @ih { stream with pieces } (bytes ++ read) hOpen
              (by rw [List.length_append]; omega) (by simp only; omega)
            exact ⟨rest, by rw [hRun, ← hContents]; rfl, by rw [← hContents]; exact hRest⟩
        · rw [hRead, readStreamFrom_flagged (by simp [InputStream.Open])]
          have hShort : (bytes ++ stream.contents).length < capacity := by
            rw [List.length_append]
            omega
          refine ⟨{ stream with pieces := [], eof := !stream.breaks, error := stream.breaks },
            by rw [List.take_of_length_le hShort.le], ?_, rfl, ?_⟩
          · rw [List.drop_of_length_le hShort.le]
            rfl
          · rw [decide_eq_true hShort, Bool.and_true]
      · rw [readStreamFrom_full (not_lt.mp hLess)]
        exact hFull hOpen rfl (Nat.le_antisymm hRoom (not_lt.mp hLess)) rfl

theorem readStream_reads (hOpen : stream.Open) (capacity : Nat) :
    (readStream stream capacity).1 =
        (if stream.breaks = true ∧ stream.contents.length < capacity then .error .errIo
        else .ok (stream.contents.take capacity)) ∧
      (readStream stream capacity).2.contents = stream.contents.drop capacity ∧
      (readStream stream capacity).2.closes = stream.closes := by
  obtain ⟨rest, hRun, hContents, hCloses, hError⟩ := @readStreamFrom_reads stream [] capacity
    (stream.pieces.length + 1) hOpen (Nat.zero_le _) (Nat.lt_succ_self _)
  rw [List.nil_append] at hRun hContents hError
  rw [readStream, hRun]
  refine ⟨?_, hContents, hCloses⟩
  simp [hError]

end

/-! ### The call -/

/-- What a call leaves that ends before the parser runs. -/
def unparsed (result : Result) (errorGiven : Bool) (heap : Heap) : Parsed :=
  ⟨result, none, errorSet (freshError errorGiven) result none 0 0, heap⟩

/-- The capacity of the file's buffer does not wrap. -/
theorem fileCapacity {requested : Option Limits} {limits : Limits}
    (hLimits : limitsResolve requested = .ok limits) :
    wrap (limits.maximumBytes + 1) = limits.maximumBytes + 1 := by
  have hBytes := (limitsResolve_ok hLimits).1
  simp only [sizeMax] at hBytes
  exact Nat.mod_eq_of_lt (by omega)

/-- A parse depends on the limits as they are resolved. -/
theorem documentParse_resolved {requested : Option Limits} {limits : Limits}
    (hLimits : limitsResolve requested = .ok limits) (heap : Heap) (input : CText)
    (profile : Profile) (errorGiven : Bool) :
    documentParse heap input profile (some limits) errorGiven =
      documentParse heap input profile requested errorGiven := by
  simp only [documentParse, hLimits, limitsResolve_resolved hLimits]

section

variable {fopen : Bytes → Option InputStream} {path : Bytes} {stream : InputStream}
  {requested : Option Limits} {limits : Limits} {heap : Heap}

/-- Without memory for the contents nothing is read. -/
theorem documentParseFile_refused (hFile : fopen path = some stream)
    (hLimits : limitsResolve requested = .ok limits)
    (hRefused : ¬heap.Grants [limits.maximumBytes + 1]) (profile : Profile) (errorGiven : Bool) :
    documentParseFile fopen heap (some path) profile requested errorGiven =
      unparsed .errMemory errorGiven (heap.after [limits.maximumBytes + 1]) := by
  rw [Heap.grants_singleton, Bool.not_eq_true] at hRefused
  simp [documentParseFile, hLimits, hFile, fileCapacity hLimits, Heap.request_eq, hRefused,
    unparsed, freshError]

/-- Contents within the limit are parsed, once they are read and the file is closed. -/
theorem documentParseFile_fits (hFile : fopen path = some stream) (hOpen : stream.Open)
    (hLimits : limitsResolve requested = .ok limits)
    (hGranted : heap.Grants [limits.maximumBytes + 1])
    (hFits : stream.contents.length ≤ limits.maximumBytes) (profile : Profile)
    (errorGiven : Bool) :
    documentParseFile fopen heap (some path) profile requested errorGiven =
      let heap' := heap.after [limits.maximumBytes + 1]
      if stream.breaks = true ∨ stream.closes = false then unparsed .errIo errorGiven heap'
      else documentParse heap' (.buffer stream.contents) profile requested errorGiven := by
  obtain ⟨hRead, -, hCloses⟩ := readStream_reads hOpen (limits.maximumBytes + 1)
  rw [Heap.grants_singleton] at hGranted
  simp only [documentParseFile, hLimits, hFile, fileCapacity hLimits, Heap.request_eq, hGranted,
    Bool.not_true, Bool.false_eq_true, if_false, hRead, hCloses]
  rw [List.take_of_length_le (Nat.le_succ_of_le hFits)]
  cases hBreaks : stream.breaks with
  | true => simp [Nat.lt_succ_of_le hFits, unparsed, freshError]
  | false =>
      cases hCloses : stream.closes with
      | true => simp [not_lt.mpr hFits, documentParse_resolved hLimits]
      | false => simp [unparsed, freshError]

/-- Contents beyond the limit fill the buffer, so the stream shows no error. -/
theorem documentParseFile_exceeds (hFile : fopen path = some stream) (hOpen : stream.Open)
    (hLimits : limitsResolve requested = .ok limits)
    (hGranted : heap.Grants [limits.maximumBytes + 1])
    (hExceeds : limits.maximumBytes < stream.contents.length) (profile : Profile)
    (errorGiven : Bool) :
    documentParseFile fopen heap (some path) profile requested errorGiven =
      unparsed (if stream.closes = true then .errLimit else .errIo) errorGiven
        (heap.after [limits.maximumBytes + 1]) := by
  obtain ⟨hRead, -, hCloses⟩ := readStream_reads hOpen (limits.maximumBytes + 1)
  rw [Heap.grants_singleton] at hGranted
  have hShort : ¬stream.contents.length < limits.maximumBytes + 1 := by omega
  simp only [documentParseFile, hLimits, hFile, fileCapacity hLimits, Heap.request_eq, hGranted,
    Bool.not_true, Bool.false_eq_true, if_false, hRead, hCloses]
  cases hCloses : stream.closes with
  | true => simp [hExceeds, hShort, unparsed, freshError]
  | false => simp [hShort, unparsed, freshError]

end

/-- Of a file that opens, the contents alone decide, and whether reading and closing succeed:
no file is parsed that is longer than the limit, or that could not be read to its end. -/
theorem documentParseFile_contents {fopen : Bytes → Option InputStream} {path : Bytes}
    {stream : InputStream} {requested : Option Limits} {limits : Limits}
    (hFile : fopen path = some stream) (hOpen : stream.Open)
    (hLimits : limitsResolve requested = .ok limits) (heap : Heap) (profile : Profile)
    (errorGiven : Bool) :
    documentParseFile fopen heap (some path) profile requested errorGiven =
      let heap' := heap.after [limits.maximumBytes + 1]
      if ¬heap.Grants [limits.maximumBytes + 1] then unparsed .errMemory errorGiven heap'
      else if stream.contents.length ≤ limits.maximumBytes then
        if stream.breaks = true ∨ stream.closes = false then unparsed .errIo errorGiven heap'
        else documentParse heap' (.buffer stream.contents) profile requested errorGiven
      else unparsed (if stream.closes = true then .errLimit else .errIo) errorGiven heap' := by
  by_cases hGranted : heap.Grants [limits.maximumBytes + 1]
  · simp only [hGranted, not_true_eq_false, if_false]
    by_cases hFits : stream.contents.length ≤ limits.maximumBytes
    · rw [if_pos hFits]
      exact documentParseFile_fits hFile hOpen hLimits hGranted hFits profile errorGiven
    · rw [if_neg hFits]
      exact documentParseFile_exceeds hFile hOpen hLimits hGranted (not_le.mp hFits) profile
        errorGiven
  · simp only [hGranted, not_false_eq_true, if_true]
    exact documentParseFile_refused hFile hLimits hGranted profile errorGiven

/-- The array `[1,2]` in three pieces, one of them empty. -/
theorem documentParseFile_contents_pieces :
    (documentParseFile
      (fun _ => some ⟨[[0x5b, 0x31], [], [0x2c, 0x32, 0x5d]], false, true, false, false⟩)
        ⟨fun _ => true, []⟩
      (some [0x61]) .rfc8259 none true).result = .ok := by
  rw [documentParseFile_contents rfl ⟨rfl, rfl⟩ rfl]
  decide +kernel

end MaelysJson
