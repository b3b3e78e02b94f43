import MaelysJson.Reading.Parse

/-! Where an error is reported: the line counts the line feeds before the offset, the column
the bytes since the last of them, and both together tell the offset. -/
namespace MaelysJson

open Heap

/-! ### Lines and columns -/

theorem linePosition_concat (bytes : Bytes) (byte : UInt8) :
    linePosition (bytes ++ [byte]) =
      if byte = 0x0a then ((linePosition bytes).1 + 1, 1)
        else ((linePosition bytes).1, (linePosition bytes).2 + 1) := by
  rw [linePosition, List.foldl_append]
  rfl

theorem linePosition_line (bytes : Bytes) : (linePosition bytes).1 = 1 + bytes.count 0x0a := by
  induction bytes using List.reverseRecOn with
  | nil => rfl
  | append_singleton bytes byte ih =>
      rw [linePosition_concat, List.count_append, List.count_singleton]
      by_cases hFeed : byte = 0x0a
      · simp [hFeed, ih]
        omega
      · simp [hFeed, ih]

theorem linePosition_column (bytes : Bytes) :
    (linePosition bytes).2 = 1 + (bytes.reverse.takeWhile (· != 0x0a)).length := by
  induction bytes using List.reverseRecOn with
  | nil => rfl
  | append_singleton bytes byte ih =>
      rw [linePosition_concat, List.reverse_concat]
      by_cases hFeed : byte = 0x0a
      · simp [hFeed]
      · simp [hFeed, ih]
        omega

/-- The order of positions: lines first. -/
def Before (position position' : Nat × Nat) : Prop :=
  position.1 < position'.1 ∨ (position.1 = position'.1 ∧ position.2 < position'.2)

theorem linePosition_before (bytes : Bytes) {more : Bytes} (hMore : more ≠ []) :
    Before (linePosition bytes) (linePosition (bytes ++ more)) := by
  induction more using List.reverseRecOn with
  | nil => exact absurd rfl hMore
  | append_singleton more byte ih =>
      rw [← List.append_assoc, linePosition_concat, Before]
      by_cases hNil : more = []
      · subst hNil
        rw [List.append_nil]
        split_ifs <;> simp
      · have hPrior := ih hNil
        rw [Before] at hPrior
        split_ifs <;> simp only <;> omega

/-- Within one text, positions are in the order of the offsets. -/
theorem linePosition_take {bytes : Bytes} {offset offset' : Nat} (h : offset ≤ bytes.length)
    (h' : offset' ≤ bytes.length) :
    Before (linePosition (bytes.take offset)) (linePosition (bytes.take offset')) ↔
      offset < offset' := by
  have hLess {n n' : Nat} (hLt : n < n') (hEnd : n' ≤ bytes.length) :
      Before (linePosition (bytes.take n)) (linePosition (bytes.take n')) := by
    have hSplit : bytes.take n' = bytes.take n ++ (bytes.drop n).take (n' - n) := by
      rw [← List.take_add, Nat.add_sub_cancel' hLt.le]
    rw [hSplit]
    refine linePosition_before _ fun hNil => ?_
    have hLength := congrArg List.length hNil
    simp only [List.length_take, List.length_drop, List.length_nil] at hLength
    omega
  refine ⟨fun hBefore => ?_, fun hLt => hLess hLt h'⟩
  by_contra hNot
  rcases (not_lt.mp hNot).lt_or_eq with hLt | rfl
  · have hAfter := hLess hLt h
    rw [Before] at hBefore hAfter
    omega
  · rw [Before] at hBefore
    omega

/-! ### Errors of a parse -/

/-- The error has this code and a position within the text. -/
structure Error.Locates (error : Error) (code : Result) (bytes : Bytes) : Prop where
  code_eq : error.code = code
  offset : error.offset ≤ bytes.length
  position : (error.line, error.column) = linePosition (bytes.take error.offset)

theorem errorSet_locates {given : Option Error} {code : Result} {error : Error} (bytes : Bytes)
    (offset : Nat) (h : errorSet given code (some bytes) bytes.length offset = some error) :
    error.Locates code bytes := by
  obtain ⟨_, -, rfl⟩ := Option.map_eq_some_iff.mp h
  refine ⟨rfl, ?_, rfl⟩
  simp only
  split_ifs <;> omega

/-- An error without a place is one at the start. -/
theorem errorSet_start {given : Option Error} {code : Result} {error : Error} (bytes : Bytes)
    {text : Option Bytes} {size : Nat} (h : errorSet given code text size 0 = some error) :
    error.Locates code bytes := by
  obtain ⟨_, -, rfl⟩ := Option.map_eq_some_iff.mp h
  refine ⟨rfl, Nat.zero_le _, ?_⟩
  cases text <;> rfl

/-- Whatever fails a parse, its error is one of the text. -/
theorem documentParse_located {heap : Heap} {input : CText} {profile : Profile}
    {requested : Option Limits} {errorGiven : Bool} {error : Error}
    (hResult : (documentParse heap input profile requested errorGiven).result ≠ .ok)
    (hError : (documentParse heap input profile requested errorGiven).error = some error) :
    error.Locates (documentParse heap input profile requested errorGiven).result input.bytes := by
  rcases documentParse_starts input profile requested errorGiven with
    ⟨limits, bound, hLimits, hSize, hBound, hSame⟩ | ⟨result, text, size, -, hRefused⟩
  · rw [hSame] at hResult hError ⊢
    have hAsks := documentParse_asks hLimits hSize hBound errorGiven
    -- a refused request is reported at the start
    have hMemory (hRun :
        (documentParse heap (.buffer input.bytes) profile requested errorGiven).outcome =
        refusedOutcome errorGiven input.bytes) :
        error.Locates (documentParse heap (.buffer input.bytes) profile requested errorGiven).result
          input.bytes := by
      simp only [Parsed.outcome, refusedOutcome, Prod.mk.injEq] at hRun
      rw [hRun.2.2] at hError
      rw [hRun.1]
      exact errorSet_start _ hError
    cases hRead : (readingOf input.bytes profile limits).readText with
    | ok s =>
        rw [hRead] at hAsks
        obtain ⟨parsed, -, hAsks⟩ := hAsks
        refine (hAsks.ends heap).elim (fun hRun => ?_) hMemory
        exact absurd (congrArg Prod.fst hRun) hResult
    | error fault =>
        rw [hRead] at hAsks
        refine (hAsks.ends heap).elim (fun hRun => ?_) hMemory
        simp only [Parsed.outcome, Prod.mk.injEq] at hRun
        rw [hRun.2.2] at hError
        rw [hRun.1]
        exact errorSet_locates _ _ hError
  · rw [hRefused] at hError ⊢
    exact errorSet_start _ hError

/-- Of two parses of one text that fail, the errors stand in the order of their offsets: a
position tells the offset, as the number of lines before it and the bytes since the last. -/
theorem documentParse_positions {heap heap' : Heap} {input input' : CText}
    {profile profile' : Profile} {requested requested' : Option Limits} {error error' : Error}
    (hSame : input'.bytes = input.bytes)
    (hResult : (documentParse heap input profile requested true).result ≠ .ok)
    (hResult' : (documentParse heap' input' profile' requested' true).result ≠ .ok)
    (hError : (documentParse heap input profile requested true).error = some error)
    (hError' : (documentParse heap' input' profile' requested' true).error = some error') :
    error.code = (documentParse heap input profile requested true).result ∧
      error.line = 1 + (input.bytes.take error.offset).count 0x0a ∧
      error.column = 1 + ((input.bytes.take error.offset).reverse.takeWhile (· != 0x0a)).length ∧
      (Before (error.line, error.column) (error'.line, error'.column) ↔
        error.offset < error'.offset) := by
  have hLocated := documentParse_located hResult hError
  have hLocated' := documentParse_located hResult' hError'
  rw [hSame] at hLocated'
  refine ⟨hLocated.code_eq, ?_, ?_, ?_⟩
  · rw [← linePosition_line, ← hLocated.position]
  · rw [← linePosition_column, ← hLocated.position]
  · rw [hLocated.position, hLocated'.position, linePosition_take hLocated.offset hLocated'.offset]

/-- The text `[1` and a line feed, cut short there, and with room for one token only. -/
theorem documentParse_positions_lines :
    let parsed := documentParse ⟨fun _ => true, []⟩ (.buffer [0x5b, 0x31, 0x0a]) .rfc8259 none true
    let limited := documentParse ⟨fun _ => true, []⟩ (.buffer [0x5b, 0x31, 0x0a]) .rfc8259
      (some ⟨0, 0, 1⟩) true
    ∃ error error', limited.error = some error ∧ parsed.error = some error' ∧
      error.offset < error'.offset ∧
      Before (error.line, error.column) (error'.line, error'.column) := by
  refine ⟨⟨.errLimit, 1, 1, 2⟩, ⟨.errSyntax, 3, 2, 1⟩, by decide +kernel, by decide +kernel,
    by decide, ?_⟩
  exact (@documentParse_positions ⟨fun _ => true, []⟩ ⟨fun _ => true, []⟩
    (.buffer [0x5b, 0x31, 0x0a]) (.buffer [0x5b, 0x31, 0x0a])
    .rfc8259 .rfc8259 (some ⟨0, 0, 1⟩) none ⟨.errLimit, 1, 1, 2⟩ ⟨.errSyntax, 3, 2, 1⟩ rfl
    (by decide +kernel) (by decide +kernel) (by decide +kernel) (by decide +kernel)).2.2.2.mpr
    (by decide)

end MaelysJson
