import MaelysJson.Text.Integer
import MaelysJson.Writing.Operations

/-! A copied number: the integer that it denotes, or its own lexeme where it is no integer.
The readers give up at a long integer part before they see what follows it. -/
namespace MaelysJson

open Grammar Run

/-! ### Parts of a lexeme -/

def negativeLexeme (lexeme : Bytes) : Bool := lexeme.head? == some 0x2d

def unsignedLexeme (lexeme : Bytes) : Bytes :=
  if negativeLexeme lexeme = true then lexeme.tail else lexeme

/-- The digits before a fraction and an exponent. -/
def wholeDigits (lexeme : Bytes) : Bytes := (unsignedLexeme lexeme).takeWhile isDigit

/-- The number has neither a fraction nor an exponent. -/
def WrittenWhole (lexeme : Bytes) : Prop := wholeDigits lexeme = unsignedLexeme lexeme

instance (lexeme : Bytes) : Decidable (WrittenWhole lexeme) := inferInstanceAs (Decidable (_ = _))

def wholeMagnitude (lexeme : Bytes) : Nat := decimalValue 0 (wholeDigits lexeme)

/-- The integer of a number without fraction and exponent. -/
def wholeValue (lexeme : Bytes) : Int :=
  if negativeLexeme lexeme = true then -wholeMagnitude lexeme else wholeMagnitude lexeme

/-- The integer part is one that the reader of its sign passes. -/
def WholeFits (lexeme : Bytes) : Prop :=
  -2 ^ 63 ≤ wholeValue lexeme ∧ wholeValue lexeme ≤ 2 ^ 64 - 1

instance (lexeme : Bytes) : Decidable (WholeFits lexeme) := inferInstanceAs (Decidable (_ ∧ _))

/-- What a copy makes of a number. -/
def numeralOf (lexeme : Bytes) : Except Result Numeral :=
  if WholeFits lexeme then
    if WrittenWhole lexeme then
      if negativeLexeme lexeme = true then .ok (.signed (.ofInt (wholeValue lexeme)))
      else .ok (.unsigned (.ofNat (wholeMagnitude lexeme)))
    else .ok (.lexeme lexeme)
  else .error .errRange

section

variable {parts : NumberParts} (h : parts.WellFormed)
include h

theorem negativeLexeme_parts : negativeLexeme parts.bytes = true ↔ parts.minus ≠ [] := by
  rw [negativeLexeme, h.unsigned.1, decide_eq_true_eq]

theorem unsignedLexeme_parts :
    unsignedLexeme parts.bytes = parts.integer ++ (parts.fraction ++ parts.exponent) := by
  rw [← h.unsigned.2, unsignedLexeme]
  simp only [negativeLexeme_parts h, decide_eq_true_eq]

theorem wholeDigits_parts : wholeDigits parts.bytes = parts.integer := by
  have hInteger : parts.integer.takeWhile isDigit = parts.integer :=
    List.takeWhile_eq_self_iff.mpr fun byte hByte =>
      (isDigit_iff byte).mpr (h.integer.digits.2 byte hByte)
  have hRest : (parts.fraction ++ parts.exponent).takeWhile isDigit = [] := by
    cases hAfter : parts.fraction ++ parts.exponent with
    | nil => rfl
    | cons byte rest =>
        have hStop := h.fraction.stop h.exponent
        rw [hAfter] at hStop
        rw [List.takeWhile_cons, if_neg (by rw [hStop byte rfl]; exact Bool.false_ne_true)]
  rw [wholeDigits, unsignedLexeme_parts h,
    List.takeWhile_append_of_pos fun byte hByte =>
      (isDigit_iff byte).mpr (h.integer.digits.2 byte hByte), hRest,
    List.append_nil]

theorem writtenWhole_parts : WrittenWhole parts.bytes ↔ parts.IsInteger := by
  rw [WrittenWhole, wholeDigits_parts h, unsignedLexeme_parts h, List.self_eq_append_right,
    List.append_eq_nil_iff]
  exact Iff.rfl

theorem wholeValue_parts : wholeValue parts.bytes = parts.denoted := by
  rw [wholeValue, wholeMagnitude, wholeDigits_parts h, NumberParts.denoted, NumberParts.magnitude]
  by_cases hMinus : parts.minus = []
  · rw [if_pos hMinus, if_neg ((negativeLexeme_parts h).not.mpr (not_not.mpr hMinus))]
  · rw [if_neg hMinus, if_pos ((negativeLexeme_parts h).mpr hMinus)]

end

/-! ### The copy of a number -/

section

variable {document : Document} {value : Nat} {lexeme : Bytes}

/-- What the reader of the sign answers, and what is written for its answer. -/
theorem copyNumber_reads (hText : valueNumberText document value = .ok lexeme)
    (hNumber : Number lexeme) (w : Writer) :
    copyNumber document value w =
      match numeralOf lexeme with
      | .error r => .error r w
      | .ok (.unsigned number) => writerU64 number w
      | .ok (.signed number) => writerI64 number w
      | .ok (.lexeme text) => writeNumberLexeme (.buffer text) w.limits.maximumBytes w := by
  obtain ⟨parts, hParts, rfl⟩ := hNumber
  have hMinus : (parts.bytes.head? = some 0x2d) ↔ parts.minus ≠ [] := by
    rw [← negativeLexeme_parts hParts, negativeLexeme, beq_iff_eq]
  have hRun : copyNumber document value w =
      if parts.bytes.head? = some 0x2d then
      copyRead (valueI64 document value) parts.bytes writerI64 w
      else copyRead (valueU64 document value) parts.bytes writerU64 w := by
    rw [copyNumber_eq, hText]
    exact apply_ite (fun x : WriterM Unit => x w) _ _ _
  have hMagnitude : wholeMagnitude parts.bytes = parts.magnitude := by
    rw [wholeMagnitude, wholeDigits_parts hParts, NumberParts.magnitude]
  have hFits : WholeFits parts.bytes ↔ -2 ^ 63 ≤ parts.denoted ∧ parts.denoted ≤ 2 ^ 64 - 1 := by
    rw [WholeFits, wholeValue_parts hParts]
  have hNumeral : numeralOf parts.bytes =
      if WholeFits parts.bytes then
        if parts.IsInteger then
          if parts.minus ≠ [] then .ok (.signed (.ofInt parts.denoted))
          else .ok (.unsigned (.ofNat parts.magnitude))
        else .ok (.lexeme parts.bytes)
      else .error .errRange := by
    simp only [numeralOf, writtenWhole_parts hParts, negativeLexeme_parts hParts,
      wholeValue_parts hParts, hMagnitude]
  rw [hRun, hNumeral]
  by_cases hSign : parts.minus = []
  · have hDenoted : parts.denoted = parts.magnitude := if_pos hSign
    have hSame : WholeFits parts.bytes ↔ ¬2 ^ 64 - 1 < parts.magnitude := by
      rw [hFits, hDenoted]
      omega
    have hNatural : 0 ≤ parts.denoted := by omega
    rw [if_neg (hMinus.not.mpr (not_not.mpr hSign)), valueU64_eq hText hParts, if_pos hNatural]
    by_cases hOver : 2 ^ 64 - 1 < parts.magnitude
    · rw [if_pos hOver, if_neg (hSame.not.mpr (not_not.mpr hOver))]
      rfl
    rw [if_neg hOver, if_pos (hSame.mpr hOver)]
    by_cases hInteger : parts.IsInteger
    · rw [if_pos hInteger, if_neg (not_not.mpr hInteger), if_neg (not_not.mpr hSign)]
      rfl
    · rw [if_neg hInteger, if_pos hInteger]
      rfl
  · have hDenoted : parts.denoted = -parts.magnitude := if_neg hSign
    have hSame : WholeFits parts.bytes ↔ ¬2 ^ 63 < parts.magnitude := by
      rw [hFits, hDenoted]
      omega
    have hSmall : parts.denoted ≤ 2 ^ 63 - 1 := by omega
    rw [if_pos (hMinus.mpr hSign), valueI64_eq hText hParts, if_pos hSmall]
    by_cases hOver : 2 ^ 63 < parts.magnitude
    · rw [if_pos hOver, if_neg (hSame.not.mpr (not_not.mpr hOver))]
      rfl
    rw [if_neg hOver, if_pos (hSame.mpr hOver)]
    by_cases hInteger : parts.IsInteger
    · rw [if_pos hInteger, if_neg (not_not.mpr hInteger), if_pos hSign]
      rfl
    · rw [if_neg hInteger, if_pos hInteger]
      rfl

end

end MaelysJson
