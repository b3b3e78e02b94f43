import MaelysJson.Code.Pointer
import MaelysJson.Text.Content
import MaelysJson.Text.Number

/-! The rescan next to the text: what each byte does to the open containers, how it
passes over spaces, string literals and primitives, and where it stops. -/
namespace MaelysJson

/-- Rounds of the scan inside the text. -/
inductive Scans (bytes : Bytes) : Scanner → Scanner → Prop where
  | refl (s : Scanner) : Scans bytes s s
  | next {s t : Scanner} (inside : s.offset < bytes.length)
      (rest : Scans bytes (scanStep bytes s) t) : Scans bytes s t

/-- Rounds of the scan up to its limit. -/
inductive Stops (bytes : Bytes) (limit : Nat) : Scanner → Scanner → Prop where
  | stop {s : Scanner} (reached : limit ≤ s.offset) : Stops bytes limit s s
  | next {s t : Scanner} (before : s.offset < limit)
      (rest : Stops bytes limit (scanStep bytes s) t) : Stops bytes limit s t

variable {bytes : Bytes}

theorem Scans.trans {s t u : Scanner} (h : Scans bytes s t) (h' : Scans bytes t u) :
    Scans bytes s u := by
  induction h with
  | refl => exact h'
  | next inside _ ih => exact .next inside (ih h')

/-! ### Single rounds -/

theorem scanStep_space {s : Scanner} (h : isSpace (byteAt bytes s.offset) = true) :
    scanStep bytes s = ⟨s.offset + 1, s.frames⟩ := by
  rw [scanStep, if_pos h]

theorem scanStep_opening {s : Scanner} {byte : UInt8} (h : byteAt bytes s.offset = byte)
    (hByte : byte = 0x7b ∨ byte = 0x5b) (hDepth : s.frames.length < maximumDepthCeiling) :
    scanStep bytes s = ⟨s.offset + 1, .opening (byte = 0x7b) :: s.frames⟩ := by
  have hSpace : ¬isSpace byte = true := by rcases hByte with rfl | rfl <;> decide
  rw [scanStep, h, if_neg hSpace, if_pos hByte, if_pos hDepth]

theorem scanStep_closing {s : Scanner} {byte : UInt8} (h : byteAt bytes s.offset = byte)
    (hByte : byte = 0x7d ∨ byte = 0x5d) : scanStep bytes s = ⟨s.offset + 1, s.frames.tail⟩ := by
  have hSpace : ¬isSpace byte = true := by rcases hByte with rfl | rfl <;> decide
  have hOpening : ¬(byte = 0x7b ∨ byte = 0x5b) := by rcases hByte with rfl | rfl <;> decide
  rw [scanStep, h, if_neg hSpace, if_neg hOpening, if_pos hByte]

theorem scanStep_comma {s : Scanner} (h : byteAt bytes s.offset = 0x2c) :
    scanStep bytes s = ⟨s.offset + 1, Scanner.updateTop s.frames Frame.comma⟩ := by
  rw [scanStep, h]
  rfl

theorem scanStep_colon {s : Scanner} (h : byteAt bytes s.offset = 0x3a) :
    scanStep bytes s = ⟨s.offset + 1, Scanner.updateTop s.frames Frame.colon⟩ := by
  rw [scanStep, h]
  rfl

theorem scanStep_quote {s : Scanner} (h : byteAt bytes s.offset = 0x22) :
    scanStep bytes s = ⟨skipString bytes s.offset,
      Scanner.updateTop s.frames (Frame.literal bytes s.offset (skipString bytes s.offset))⟩ := by
  rw [scanStep, h]
  rfl

/-- A byte that the scan takes for the start or a part of a primitive. -/
def LexemeByte (byte : UInt8) : Prop :=
  isPointerDelimiter byte = false ∧ byte ≠ 0x7b ∧ byte ≠ 0x5b ∧ byte ≠ 0x22

theorem scanStep_lexeme {s : Scanner} (h : LexemeByte (byteAt bytes s.offset)) :
    scanStep bytes s =
      ⟨scanWhile (fun byte => !isPointerDelimiter byte) bytes s.offset, s.frames⟩ := by
  obtain ⟨hDelimiter, hObject, hArray, hQuote⟩ := h
  simp only [isPointerDelimiter, Bool.or_eq_false_iff, beq_eq_false_iff_ne] at hDelimiter
  obtain ⟨⟨⟨⟨hComma, hBrace⟩, hBracket⟩, hColon⟩, hSpace⟩ := hDelimiter
  rw [scanStep, if_neg (Bool.not_eq_true _ ▸ hSpace), if_neg (not_or.mpr ⟨hObject, hArray⟩),
    if_neg (not_or.mpr ⟨hBrace, hBracket⟩), if_neg hComma, if_neg hColon, if_neg hQuote]

/-! ### Progress -/

theorem le_skipStringFrom (rounds offset : Nat) : offset ≤ skipStringFrom bytes rounds offset := by
  induction rounds generalizing offset with
  | zero => exact le_rfl
  | succ rounds ih =>
      rw [skipStringFrom]
      split_ifs
      · exact (Nat.le_add_right _ _).trans (ih _)
      · exact (Nat.le_add_right _ _).trans (ih _)
      · exact le_rfl

theorem lt_skipString {offset : Nat} (h : offset < bytes.length) :
    offset < skipString bytes offset := by
  have hSkip := @le_skipStringFrom bytes (bytes.length + 1) (offset + 1)
  simp only [skipString]
  split_ifs <;> omega

theorem scanStep_advances {s : Scanner} (h : s.offset < bytes.length) :
    s.offset < (scanStep bytes s).offset := by
  simp only [scanStep]
  split_ifs with hSpace hOpening hDepth hClosing hComma hColon hQuote
  · exact Nat.lt_succ_self _
  · exact Nat.lt_succ_self _
  · exact Nat.lt_succ_self _
  · exact Nat.lt_succ_self _
  · exact Nat.lt_succ_self _
  · exact Nat.lt_succ_self _
  · exact lt_skipString h
  · rw [not_or] at hClosing
    have hByte : isPointerDelimiter (byteAt bytes s.offset) = false := by
      simp only [isPointerDelimiter, Bool.or_eq_false_iff, beq_eq_false_iff_ne]
      exact ⟨⟨⟨⟨hComma, hClosing.1⟩, hClosing.2⟩, hColon⟩, Bool.eq_false_of_not_eq_true hSpace⟩
    rw [scanWhile, drop_eq_byteAt_cons h, List.takeWhile_cons, hByte]
    exact Nat.lt_add_of_pos_right (Nat.succ_pos _)

theorem Scans.le {s t : Scanner} (h : Scans bytes s t) : s.offset ≤ t.offset := by
  induction h with
  | refl => exact le_rfl
  | next inside _ ih => exact (scanStep_advances inside).le.trans ih

/-- Rounds inside the text before the limit belong to the loop. -/
theorem Scans.stops {limit : Nat} {s t u : Scanner} (h : Scans bytes s t)
    (hLimit : t.offset ≤ limit) (hStops : Stops bytes limit t u) : Stops bytes limit s u := by
  induction h with
  | refl => exact hStops
  | next inside rest ih =>
      have hNext := rest.le
      have hAdvance := scanStep_advances inside
      exact .next (by omega) (ih hLimit hStops)

/-- The loop has rounds enough to reach its limit. -/
theorem Stops.scanFrom {limit rounds : Nat} {s t : Scanner} (h : Stops bytes limit s t)
    (hLimit : limit ≤ bytes.length) (hRounds : limit < s.offset + rounds) :
    scanFrom bytes limit rounds s = t := by
  induction h generalizing rounds with
  | stop reached =>
      cases rounds with
      | zero => rfl
      | succ rounds => rw [MaelysJson.scanFrom, if_neg (not_lt.mpr reached)]
  | @next s t before rest ih =>
      cases rounds with
      | zero => omega
      | succ rounds =>
          have hAdvance := scanStep_advances (before.trans_le hLimit)
          rw [MaelysJson.scanFrom, if_pos before]
          exact ih (by omega)

/-! ### Spaces, literals and primitives -/

theorem Scans.space (offset : Nat) (frames : List Frame) :
    Scans bytes ⟨offset, frames⟩ ⟨spaceEnd bytes offset, frames⟩ := by
  have hGap (gap rest : Bytes) (offset : Nat) (hDrop : bytes.drop offset = gap ++ rest)
      (hGap : ∀ byte ∈ gap, isSpace byte = true) :
      Scans bytes ⟨offset, frames⟩ ⟨offset + gap.length, frames⟩ := by
    induction gap generalizing offset with
    | nil => exact .refl _
    | cons byte gap ih =>
        have hByte := byteAt_of_drop hDrop
        have hStep : scanStep bytes ⟨offset, frames⟩ = ⟨offset + 1, frames⟩ :=
          scanStep_space (by rw [hByte]; exact hGap byte List.mem_cons_self)
        have hRest := ih (offset + 1) (drop_succ_of_drop hDrop) fun byte h =>
          hGap byte (List.mem_cons_of_mem _ h)
        apply Scans.next (lt_length_of_drop hDrop)
        rw [hStep, List.length_cons, Nat.add_comm gap.length, ← Nat.add_assoc]
        exact hRest
  exact hGap _ _ offset (drop_eq_scanned isSpace bytes offset) fun byte h =>
    List.mem_takeWhile_imp h

variable {profile : Profile}

theorem skipStringFrom_closed {rounds offset stop : Nat}
    (h : scanStringFrom profile bytes rounds offset = .closed stop) :
    skipStringFrom bytes rounds offset = stop := by
  induction rounds generalizing offset with
  | zero => cases h
  | succ rounds ih =>
      simp only [scanStringFrom] at h
      rw [skipStringFrom]
      split_ifs at h with hEnd hQuote hControl hAscii hSlash hNext
      · cases h
        exact if_neg fun h => h.2 hQuote
      · rw [if_pos ⟨hEnd, hQuote⟩, if_pos hSlash]
        exact ih h
      · rw [if_pos ⟨hEnd, hQuote⟩, if_neg hSlash]
        exact ih h

theorem skipStringFrom_refused {rounds offset stop : Nat}
    (h : scanStringFrom profile bytes rounds offset = .refused stop) :
    stop ≤ skipStringFrom bytes rounds offset ∧ stop < bytes.length := by
  induction rounds generalizing offset with
  | zero => cases h
  | succ rounds ih =>
      simp only [scanStringFrom] at h
      split_ifs at h with hEnd hQuote hControl hAscii hSlash hNext
      · cases h
        exact ⟨le_skipStringFrom _ _, hEnd⟩
      · cases h
        exact ⟨le_skipStringFrom _ _, hEnd⟩
      · rw [skipStringFrom, if_pos ⟨hEnd, hQuote⟩, if_pos hSlash]
        exact ih h
      · rw [skipStringFrom, if_pos ⟨hEnd, hQuote⟩, if_neg hSlash]
        exact ih h

/-- Where the parser closes a literal, the scan leaves it. -/
theorem skipString_closed {opening stop : Nat}
    (h : scanStringFrom profile bytes (bytes.length + 1) (opening + 1) = .closed stop) :
    skipString bytes opening = stop + 1 ∧ opening < stop ∧ stop < bytes.length ∧
    byteAt bytes stop = 0x22 := by
  obtain ⟨content, -, hDrop, hStop⟩ := scanStringFrom_sound h
  have hQuote := drop_add_of_drop hDrop
  rw [← hStop] at hQuote
  have hEnd := lt_length_of_drop hQuote
  simp only [skipString, skipStringFrom_closed h, if_pos hEnd]
  exact ⟨trivial, by omega, hEnd, byteAt_of_drop hQuote⟩

/-- Where the parser refuses a byte of a literal, the scan is still inside it. -/
theorem skipString_refused {opening stop : Nat}
    (h : scanStringFrom profile bytes (bytes.length + 1) (opening + 1) = .refused stop) :
    stop ≤ skipString bytes opening ∧ stop < bytes.length := by
  obtain ⟨hSkip, hEnd⟩ := skipStringFrom_refused h
  refine ⟨?_, hEnd⟩
  simp only [skipString]
  split_ifs <;> omega

theorem NumberByte.lexeme {byte : UInt8} (h : NumberByte byte) : LexemeByte byte := by
  rcases h with ⟨hLow, hHigh⟩ | rfl | rfl | rfl | rfl | rfl
  · have hNe (other : UInt8) (hOther : other < 0x30 ∨ 0x39 < other) : byte ≠ other := by
      rintro rfl
      rcases hOther with h | h
      · exact UInt8.not_lt.mpr hLow h
      · exact UInt8.not_lt.mpr hHigh h
    simp only [LexemeByte, isPointerDelimiter, isSpace, Bool.or_eq_false_iff, beq_eq_false_iff_ne]
    exact ⟨⟨⟨⟨⟨hNe _ (by decide), hNe _ (by decide)⟩, hNe _ (by decide)⟩, hNe _ (by decide)⟩,
      ⟨⟨hNe _ (by decide), hNe _ (by decide)⟩, hNe _ (by decide)⟩, hNe _ (by decide)⟩,
      hNe _ (by decide), hNe _ (by decide), hNe _ (by decide)⟩
  all_goals exact ⟨rfl, by decide, by decide, by decide⟩

instance (byte : UInt8) : Decidable (LexemeByte byte) := inferInstanceAs (Decidable (_ ∧ _))

/-- The bytes of a primitive, none of which means anything to the scan. -/
theorem primitiveType_lexeme {lexeme : Bytes} {type : ValueType × Bool}
    (h : primitiveType lexeme = some type) :
    lexeme ≠ [] ∧ ∀ byte ∈ lexeme, LexemeByte byte := by
  simp only [primitiveType] at h
  split_ifs at h with hTrue hFalse hNull hNumber
  · rw [hTrue]
    exact ⟨nofun, by decide +kernel⟩
  · rw [hFalse]
    exact ⟨nofun, by decide +kernel⟩
  · rw [hNull]
    exact ⟨nofun, by decide +kernel⟩
  · have hGrammar := (numberSyntax_iff lexeme).mp hNumber
    exact ⟨hGrammar.ne_nil, fun byte h => (hGrammar.mem byte h).lexeme⟩

/-- The scan and the parser agree on where a primitive ends. -/
theorem Scans.primitive {offset : Nat} {type : ValueType × Bool}
    (h : primitiveType ((bytes.drop offset).take (primitiveEnd bytes offset - offset)) = some type)
    (frames : List Frame) : Scans bytes ⟨offset, frames⟩ ⟨primitiveEnd bytes offset, frames⟩ := by
  rw [primitiveEnd, take_scanned] at h
  obtain ⟨hNil, hBytes⟩ := primitiveType_lexeme h
  have hDrop := drop_eq_scanned (fun byte => !isDelimiter byte) bytes offset
  have hEnd : scanWhile (fun byte => !isPointerDelimiter byte) bytes offset =
      primitiveEnd bytes offset := by
    apply scanWhile_eq hDrop
    · intro byte hByte
      rw [(hBytes byte hByte).1, Bool.not_false]
    · intro byte hByte
      rw [drop_scanWhile] at hByte
      have hStop := List.head?_dropWhile_not (fun byte => !isDelimiter byte) (bytes.drop offset)
      rw [Option.mem_def.mp hByte] at hStop
      simp only [Bool.not_eq_false', isDelimiter, Bool.or_eq_true] at hStop
      simp only [isPointerDelimiter, Bool.not_eq_false', Bool.or_eq_true]
      tauto
  obtain ⟨byte, rest, hHead⟩ := List.exists_cons_of_ne_nil hNil
  rw [hHead] at hDrop
  have hByte : LexemeByte (byteAt bytes offset) := by
    rw [byteAt_of_drop hDrop]
    exact hBytes byte (by rw [hHead]; exact List.mem_cons_self)
  apply Scans.next (lt_length_of_drop hDrop)
  rw [@scanStep_lexeme bytes ⟨offset, frames⟩ hByte, hEnd]
  exact .refl _

end MaelysJson
