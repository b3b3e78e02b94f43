import MaelysJson.Code.Parser
import MaelysJson.Text.Number

/-! The integer readers: one loop accumulates the magnitude, guards it against
overflow and meets the first byte that is no digit. -/
namespace MaelysJson

open Grammar

/-! ### The number a lexeme denotes -/

/-- The value of decimal digits read after a number with value `value`. -/
def decimalValue (value : Nat) (digits : Bytes) : Nat :=
  digits.foldl (fun value byte => value * 10 + (byte.toNat - 0x30)) value

def Grammar.NumberParts.IsInteger (parts : NumberParts) : Prop :=
  parts.fraction = [] ∧ parts.exponent = []

instance (parts : NumberParts) : Decidable parts.IsInteger :=
  inferInstanceAs (Decidable (_ ∧ _))

def Grammar.NumberParts.magnitude (parts : NumberParts) : Nat := decimalValue 0 parts.integer

/-- The integer denoted by a lexeme without fraction and exponent. -/
def Grammar.NumberParts.denoted (parts : NumberParts) : Int :=
  if parts.minus = [] then parts.magnitude else -parts.magnitude

theorem decimalValue_cons (value : Nat) (byte : UInt8) (digits : Bytes) :
    decimalValue value (byte :: digits) =
      decimalValue (value * 10 + (byte.toNat - 0x30)) digits := by
  rw [decimalValue, List.foldl_cons, decimalValue]

theorem le_decimalValue (digits : Bytes) (value : Nat) : value ≤ decimalValue value digits := by
  induction digits generalizing value with
  | nil => exact le_rfl
  | cons byte digits ih =>
      have := ih (value * 10 + (byte.toNat - 0x30))
      rw [decimalValue_cons]
      omega

/-! ### The loop -/

/-- Every 64-bit operation of the loop of `readMagnitude` is exact. -/
def MagnitudeExact (maximum : UInt64) : Bytes → UInt64 → Prop
  | [], _ => True
  | byte :: rest, magnitude =>
      ¬(byte < 0x30 ∨ byte > 0x39) →
        let digit := (byte - 0x30).toUInt64
        digit.toNat + 0x30 = byte.toNat ∧ (maximum - digit).toNat + digit.toNat = maximum.toNat ∧
          (¬magnitude > (maximum - digit) / 10 →
            (magnitude * 10).toNat = magnitude.toNat * 10 ∧
              (magnitude * 10 + digit).toNat = magnitude.toNat * 10 + digit.toNat ∧
              MagnitudeExact maximum rest (magnitude * 10 + digit))

theorem digit_toNat {byte : UInt8} (h : Digit byte) :
    (byte - 0x30).toUInt64.toNat = byte.toNat - 0x30 ∧ byte.toNat ≤ 0x39 ∧ 0x30 ≤ byte.toNat := by
  obtain ⟨hLow, hHigh⟩ := h
  rw [UInt8.le_iff_toNat_le] at hLow hHigh
  rw [UInt8.toNat_toUInt64, UInt8.toNat_sub_of_le _ _ (UInt8.le_iff_toNat_le.mpr hLow)]
  exact ⟨rfl, hHigh, hLow⟩

theorem not_digit_iff (byte : UInt8) : (byte < 0x30 ∨ byte > 0x39) ↔ ¬Digit byte := by
  rw [Digit, not_and_or, UInt8.not_le, UInt8.not_le]

/-- One round on a digit: the guard holds back exactly the magnitudes that
would pass the maximum, and the next magnitude does not wrap. -/
theorem magnitude_step {maximum magnitude : UInt64} {byte : UInt8} (hByte : Digit byte)
    (hMaximum : 9 ≤ maximum.toNat) :
    (maximum - (byte - 0x30).toUInt64).toNat + (byte - 0x30).toUInt64.toNat = maximum.toNat ∧
    (magnitude > (maximum - (byte - 0x30).toUInt64) / 10 ↔
      maximum.toNat < magnitude.toNat * 10 + (byte.toNat - 0x30)) ∧
    (magnitude.toNat * 10 + (byte.toNat - 0x30) ≤ maximum.toNat →
      (magnitude * 10).toNat = magnitude.toNat * 10 ∧
        (magnitude * 10 + (byte - 0x30).toUInt64).toNat =
          magnitude.toNat * 10 + (byte.toNat - 0x30)) := by
  obtain ⟨hDigit, hHigh, hLow⟩ := digit_toNat hByte
  have hBound := maximum.toNat_lt
  have hBase : (10 : UInt64).toNat = 10 := rfl
  have hSub : (maximum - (byte - 0x30).toUInt64).toNat = maximum.toNat - (byte.toNat - 0x30) := by
    rw [UInt64.toNat_sub_of_le _ _ (UInt64.le_iff_toNat_le.mpr (by omega)), hDigit]
  refine ⟨by omega, ?_, fun hFits => ?_⟩
  · rw [gt_iff_lt, UInt64.lt_iff_toNat_lt, UInt64.toNat_div, hSub, hBase]
    omega
  · have hTen : (magnitude * 10).toNat = magnitude.toNat * 10 := by
      rw [UInt64.toNat_mul, hBase, Nat.mod_eq_of_lt (by omega)]
    rw [UInt64.toNat_add, hTen, hDigit, Nat.mod_eq_of_lt (by omega)]
    exact ⟨rfl, rfl⟩

/-- The loop over some digits and what follows them. -/
theorem magnitudeFrom_eq {maximum : UInt64} (hMaximum : 9 ≤ maximum.toNat) {digits rest : Bytes}
    (hDigits : ∀ byte ∈ digits, Digit byte) (hRest : ∀ byte ∈ rest.head?, isDigit byte = false)
    (magnitude : UInt64) (hMagnitude : magnitude.toNat ≤ maximum.toNat) :
    magnitudeFrom maximum (digits ++ rest) magnitude =
      if maximum.toNat < decimalValue magnitude.toNat digits then .error .errRange
      else if rest = [] then .ok (.ofNat (decimalValue magnitude.toNat digits))
      else .error .errNotInteger := by
  induction digits generalizing magnitude with
  | nil =>
      have hFits : ¬maximum.toNat < decimalValue magnitude.toNat [] := Nat.not_lt.mpr hMagnitude
      rw [List.nil_append, if_neg hFits]
      cases rest with
      | nil => simp [magnitudeFrom, decimalValue]
      | cons byte rest =>
          have hByte : ¬Digit byte := by
            rw [← isDigit_iff, hRest byte rfl]
            exact Bool.false_ne_true
          rw [magnitudeFrom, if_pos ((not_digit_iff byte).mpr hByte), if_neg (List.cons_ne_nil _ _)]
  | cons byte digits ih =>
      have hByte := hDigits byte List.mem_cons_self
      obtain ⟨-, hGuard, hNext⟩ := @magnitude_step maximum magnitude byte hByte hMaximum
      rw [List.cons_append, magnitudeFrom, if_neg (mt (not_digit_iff byte).mp (not_not.mpr hByte)),
        decimalValue_cons]
      by_cases hOver : maximum.toNat < magnitude.toNat * 10 + (byte.toNat - 0x30)
      · have := le_decimalValue digits (magnitude.toNat * 10 + (byte.toNat - 0x30))
        simp only [if_pos (hGuard.mpr hOver)]
        rw [if_pos (by omega)]
      · obtain ⟨-, hEq⟩ := hNext (by omega)
        simp only [if_neg (mt hGuard.mp hOver)]
        rw [ih (fun b hb => hDigits b (List.mem_cons_of_mem _ hb)) _ (by omega), hEq]

theorem magnitudeExact (maximum : UInt64) (hMaximum : 9 ≤ maximum.toNat) (bytes : Bytes)
    (magnitude : UInt64) : MagnitudeExact maximum bytes magnitude := by
  induction bytes generalizing magnitude with
  | nil => trivial
  | cons byte bytes ih =>
      intro hByte
      rw [not_digit_iff, not_not] at hByte
      obtain ⟨hDigit, hHigh, hLow⟩ := digit_toNat hByte
      obtain ⟨hSub, hGuard, hNext⟩ := @magnitude_step maximum magnitude byte hByte hMaximum
      refine ⟨by omega, hSub, fun hFits => ?_⟩
      obtain ⟨hTen, hEq⟩ := hNext (by rw [hGuard] at hFits; omega)
      exact ⟨hTen, by rw [hEq, hDigit], ih _⟩

/-! ### The readers -/

/-- What an integer reader should tell of a lexeme: the integer when it is one
within the bounds, and otherwise why not. -/
structure Classifies {α : Type} (read : Except Result α) (toInt : α → Int) (lower upper : Int)
    (parts : NumberParts) : Prop where
  ok : ∀ n, read = .ok n ↔
    parts.IsInteger ∧ lower ≤ parts.denoted ∧ parts.denoted ≤ upper ∧ toInt n = parts.denoted
  notInteger : read = .error .errNotInteger ↔ ¬parts.IsInteger
  range : read = .error .errRange ↔
    parts.IsInteger ∧ ¬(lower ≤ parts.denoted ∧ parts.denoted ≤ upper)

theorem Grammar.NumberParts.WellFormed.unsigned {parts : NumberParts} (h : parts.WellFormed) :
    (parts.bytes.head? == some 0x2d) = decide (parts.minus ≠ []) ∧
    (if decide (parts.minus ≠ []) = true then parts.bytes.tail else parts.bytes) =
      parts.integer ++ (parts.fraction ++ parts.exponent) := by
  obtain ⟨byte, digits, hInteger⟩ := List.exists_cons_of_ne_nil h.integer.digits.1
  have hByte : byte ≠ 0x2d := by
    rintro rfl
    exact absurd (h.integer.digits.2 0x2d (by rw [hInteger]; exact List.mem_cons_self)).1
      (by decide)
  rcases h.minus with hMinus | hMinus
  · simp [NumberParts.bytes, hMinus, hInteger, hByte]
  · simp [NumberParts.bytes, hMinus]

/-- What the shared part of the readers returns, by the parts of the lexeme. -/
theorem readMagnitude_eq {document : Document} {value : Nat} {parts : NumberParts}
    {maximum : UInt64} (hLexeme : valueNumberText document value = .ok parts.bytes)
    (hParts : parts.WellFormed) (hMaximum : 9 ≤ maximum.toNat) :
    readMagnitude document value maximum =
      if maximum.toNat < parts.magnitude then .error .errRange
      else if parts.IsInteger then .ok (.ofNat parts.magnitude, decide (parts.minus ≠ []))
      else .error .errNotInteger := by
  rw [valueNumberText, textView] at hLexeme
  cases hToken : tokenOf document value .number with
  | error result =>
      rw [hToken] at hLexeme
      cases hLexeme
  | ok token =>
      rw [hToken] at hLexeme
      have hText : document.textOf token = parts.bytes := Except.ok.inj hLexeme
      obtain ⟨hNegative, hUnsigned⟩ := hParts.unsigned
      have hRun : magnitudeFrom maximum (parts.integer ++ (parts.fraction ++ parts.exponent)) 0 =
          if maximum.toNat < parts.magnitude then .error .errRange
          else if parts.fraction ++ parts.exponent = [] then .ok (.ofNat parts.magnitude)
          else .error .errNotInteger :=
        magnitudeFrom_eq hMaximum hParts.integer.digits.2 (hParts.fraction.stop hParts.exponent) 0
          (Nat.zero_le _)
      have hIff : parts.fraction ++ parts.exponent = [] ↔ parts.IsInteger := List.append_eq_nil_iff
      simp only [readMagnitude, hToken, bind, Except.bind, hText, hUnsigned, hRun, hIff, hNegative]
      by_cases hOver : maximum.toNat < parts.magnitude
      · simp only [if_pos hOver]
      · by_cases hInteger : parts.IsInteger
        · simp only [if_neg hOver, if_pos hInteger]
          rfl
        · simp only [if_neg hOver, if_neg hInteger]

theorem valueU64_eq {document : Document} {value : Nat} {parts : NumberParts}
    (hLexeme : valueNumberText document value = .ok parts.bytes) (hParts : parts.WellFormed) :
    valueU64 document value =
      if 2 ^ 64 - 1 < parts.magnitude then .error .errRange
      else if ¬parts.IsInteger then .error .errNotInteger
      else if 0 ≤ parts.denoted then .ok (.ofNat parts.magnitude)
      else .error .errRange := by
  have hMaximum : (18446744073709551615 : UInt64).toNat = 2 ^ 64 - 1 := rfl
  rw [valueU64, readMagnitude_eq hLexeme hParts (by rw [hMaximum]; decide), hMaximum]
  by_cases hOver : 2 ^ 64 - 1 < parts.magnitude
  · rw [if_pos hOver, if_pos hOver]
    rfl
  rw [if_neg hOver, if_neg hOver]
  by_cases hInteger : parts.IsInteger
  swap
  · rw [if_neg hInteger, if_pos hInteger]
    rfl
  rw [if_pos hInteger, if_neg (not_not.mpr hInteger)]
  have hNat : (UInt64.ofNat parts.magnitude).toNat = parts.magnitude :=
    UInt64.toNat_ofNat_of_lt' (show parts.magnitude < 2 ^ 64 by omega)
  have hZero : UInt64.ofNat parts.magnitude ≠ 0 ↔ parts.magnitude ≠ 0 := by
    rw [ne_eq, ← UInt64.toNat_inj, hNat]
    rfl
  simp only [bind, Except.bind, decide_eq_true_eq, hZero]
  by_cases hMinus : parts.minus = []
  · have hDenoted : parts.denoted = parts.magnitude := if_pos hMinus
    rw [if_neg fun h => h.1 hMinus, if_pos (by rw [hDenoted]; exact Int.natCast_nonneg _)]
    rfl
  · have hDenoted : parts.denoted = -parts.magnitude := if_neg hMinus
    by_cases hMagnitude : parts.magnitude = 0
    · rw [if_neg fun h => h.2 hMagnitude, if_pos (by omega)]
      rfl
    · rw [if_pos ⟨hMinus, hMagnitude⟩, if_neg (by omega)]
      rfl

theorem toInt_toInt64 {magnitude : UInt64} (h : magnitude.toNat < 2 ^ 63) :
    magnitude.toInt64.toInt = magnitude.toNat := by
  have hBits : 2 * magnitude.toBitVec.toNat < 2 ^ 64 := by
    rw [UInt64.toNat_toBitVec]
    omega
  exact BitVec.toInt_eq_toNat_of_lt hBits

theorem toInt_neg_toInt64 {magnitude : UInt64} (h : magnitude.toNat < 2 ^ 63) :
    (-magnitude.toInt64).toInt = -magnitude.toNat := by
  rw [Int64.toInt_neg, toInt_toInt64 h]
  exact Int.bmod_eq_of_le (by omega) (by omega)

theorem valueI64_eq {document : Document} {value : Nat} {parts : NumberParts}
    (hLexeme : valueNumberText document value = .ok parts.bytes) (hParts : parts.WellFormed) :
    valueI64 document value =
      if 2 ^ 63 < parts.magnitude then .error .errRange
      else if ¬parts.IsInteger then .error .errNotInteger
      else if parts.denoted ≤ 2 ^ 63 - 1 then .ok (.ofInt parts.denoted)
      else .error .errRange := by
  have hMaximum : (9223372036854775808 : UInt64).toNat = 2 ^ 63 := rfl
  have hLargest : (9223372036854775807 : UInt64).toNat = 2 ^ 63 - 1 := rfl
  rw [valueI64]
  simp only [readMagnitude_eq hLexeme hParts
    (show 9 ≤ (9223372036854775808 : UInt64).toNat by decide), hMaximum]
  by_cases hOver : 2 ^ 63 < parts.magnitude
  · rw [if_pos hOver, if_pos hOver]
    rfl
  rw [if_neg hOver, if_neg hOver]
  by_cases hInteger : parts.IsInteger
  swap
  · rw [if_neg hInteger, if_pos hInteger]
    rfl
  rw [if_pos hInteger, if_neg (not_not.mpr hInteger)]
  have hNat : (UInt64.ofNat parts.magnitude).toNat = parts.magnitude :=
    UInt64.toNat_ofNat_of_lt' (show parts.magnitude < 2 ^ 64 by omega)
  have hLarge : UInt64.ofNat parts.magnitude > 9223372036854775807 ↔
      2 ^ 63 - 1 < parts.magnitude := by
    rw [gt_iff_lt, UInt64.lt_iff_toNat_lt, hNat, hLargest]
  have hMinimum : UInt64.ofNat parts.magnitude = 9223372036854775808 ↔
      parts.magnitude = 2 ^ 63 := by
    rw [← UInt64.toNat_inj, hNat, hMaximum]
  simp only [bind, Except.bind, decide_eq_true_eq, hLarge, hMinimum]
  by_cases hMinus : parts.minus = []
  · have hDenoted : parts.denoted = parts.magnitude := if_pos hMinus
    have hFirst : ¬(parts.minus ≠ [] ∧ parts.magnitude = 2 ^ 63) := fun h => h.1 hMinus
    by_cases hAbove : 2 ^ 63 - 1 < parts.magnitude
    · have hTop : ¬parts.denoted ≤ 2 ^ 63 - 1 := by omega
      rw [if_pos ⟨not_not.mpr hMinus, hAbove⟩, if_neg hTop]
      rfl
    · have hTop : parts.denoted ≤ 2 ^ 63 - 1 := by omega
      have hResult : (UInt64.ofNat parts.magnitude).toInt64 = Int64.ofInt parts.denoted := by
        rw [← Int64.toInt_inj, toInt_toInt64 (by omega), hNat,
          Int64.toInt_ofInt_of_le (by omega) (by omega), hDenoted]
      rw [if_neg fun h => hAbove h.2, if_pos hTop, ← hResult]
      simp only [pure, Except.pure]
      rw [if_neg hFirst, if_neg (not_not.mpr hMinus)]
  · have hDenoted : parts.denoted = -parts.magnitude := if_neg hMinus
    have hTop : parts.denoted ≤ 2 ^ 63 - 1 := by omega
    have hSigned : ¬(¬parts.minus ≠ [] ∧ 2 ^ 63 - 1 < parts.magnitude) := fun h => h.1 hMinus
    rw [if_neg hSigned, if_pos hTop]
    simp only [pure, Except.pure]
    by_cases hLowest : parts.magnitude = 2 ^ 63
    · rw [if_pos ⟨hMinus, hLowest⟩, hDenoted, hLowest]
      rfl
    · have hResult : -(UInt64.ofNat parts.magnitude).toInt64 = Int64.ofInt parts.denoted := by
        rw [← Int64.toInt_inj, toInt_neg_toInt64 (by omega), hNat,
          Int64.toInt_ofInt_of_le (by omega) (by omega), hDenoted]
      have hFirst : ¬(parts.minus ≠ [] ∧ parts.magnitude = 2 ^ 63) := fun h => hLowest h.2
      rw [if_neg hFirst, if_pos hMinus, hResult]

/-- A reader with a ceiling on the magnitude classifies a lexeme unless the
ceiling stops it before a fraction or an exponent. -/
theorem classifies_iff {α : Type} {read : Except Result α} {toInt : α → Int} {lower upper : Int}
    {parts : NumberParts} {ceiling : Nat} {fits : Prop} [Decidable fits] {n : α}
    (hRead : read =
      if ceiling < parts.magnitude then .error .errRange
      else if ¬parts.IsInteger then .error .errNotInteger
      else if fits then .ok n
      else .error .errRange)
    (hOver : ceiling < parts.magnitude → ¬(lower ≤ parts.denoted ∧ parts.denoted ≤ upper))
    (hFits : ¬ceiling < parts.magnitude → (fits ↔ lower ≤ parts.denoted ∧ parts.denoted ≤ upper))
    (hValue : lower ≤ parts.denoted → parts.denoted ≤ upper → toInt n = parts.denoted)
    (hInjective : Function.Injective toInt) :
    Classifies read toInt lower upper parts ↔ parts.IsInteger ∨ parts.magnitude ≤ ceiling := by
  by_cases hCeiling : ceiling < parts.magnitude
  · rw [if_pos hCeiling] at hRead
    have hOut := hOver hCeiling
    rw [or_iff_left (Nat.not_le.mpr hCeiling)]
    constructor
    · intro h
      by_contra hInteger
      have hNot := h.notInteger.mpr hInteger
      rw [hRead] at hNot
      cases hNot
    · intro hInteger
      refine ⟨fun m => ?_, ?_, ?_⟩ <;> rw [hRead]
      · exact ⟨nofun, fun h => (hOut ⟨h.2.1, h.2.2.1⟩).elim⟩
      · exact ⟨nofun, fun h => (h hInteger).elim⟩
      · exact ⟨fun _ => ⟨hInteger, hOut⟩, fun _ => rfl⟩
  rw [if_neg hCeiling] at hRead
  refine iff_of_true ?_ (Or.inr (Nat.not_lt.mp hCeiling))
  by_cases hInteger : parts.IsInteger
  swap
  · rw [if_pos hInteger] at hRead
    refine ⟨fun m => ?_, ?_, ?_⟩ <;> rw [hRead]
    · exact ⟨nofun, fun h => (hInteger h.1).elim⟩
    · exact ⟨fun _ => hInteger, fun _ => rfl⟩
    · exact ⟨nofun, fun h => (hInteger h.1).elim⟩
  rw [if_neg (not_not.mpr hInteger)] at hRead
  by_cases hIn : fits
  · obtain ⟨hLower, hUpper⟩ := (hFits hCeiling).mp hIn
    have hn := hValue hLower hUpper
    rw [if_pos hIn] at hRead
    refine ⟨fun m => ?_, ?_, ?_⟩ <;> rw [hRead]
    · constructor
      · rintro ⟨⟩
        exact ⟨hInteger, hLower, hUpper, hn⟩
      · rintro ⟨-, -, -, hm⟩
        rw [hInjective (hn.trans hm.symm)]
    · exact ⟨nofun, fun h => (h hInteger).elim⟩
    · exact ⟨nofun, fun h => (h.2 ⟨hLower, hUpper⟩).elim⟩
  · have hOut := mt (hFits hCeiling).mpr hIn
    rw [if_neg hIn] at hRead
    refine ⟨fun m => ?_, ?_, ?_⟩ <;> rw [hRead]
    · exact ⟨nofun, fun h => (hOut ⟨h.2.1, h.2.2.1⟩).elim⟩
    · exact ⟨nofun, fun h => (h hInteger).elim⟩
    · exact ⟨fun _ => ⟨hInteger, hOut⟩, fun _ => rfl⟩

/-- The readers classify exactly the lexemes whose integer part stays below the
ceiling or has nothing after it, and no 64-bit operation of theirs wraps. -/
theorem integerReaders_classify {document : Document} {value : Nat} {parts : NumberParts}
    (hLexeme : valueNumberText document value = .ok parts.bytes) (hParts : parts.WellFormed) :
    (Classifies (valueU64 document value) (fun n => (n.toNat : Int)) 0 (2 ^ 64 - 1) parts ↔
      parts.IsInteger ∨ parts.magnitude ≤ 2 ^ 64 - 1) ∧
    (Classifies (valueI64 document value) Int64.toInt (-2 ^ 63) (2 ^ 63 - 1) parts ↔
      parts.IsInteger ∨ parts.magnitude ≤ 2 ^ 63) ∧
    (∀ bytes magnitude, MagnitudeExact 18446744073709551615 bytes magnitude ∧
      MagnitudeExact 9223372036854775808 bytes magnitude) := by
  have hDenoted : parts.denoted = parts.magnitude ∨ parts.denoted = -parts.magnitude := by
    rw [NumberParts.denoted]
    split_ifs
    · exact Or.inl rfl
    · exact Or.inr rfl
  refine ⟨?_, ?_, fun bytes magnitude =>
    ⟨magnitudeExact _ (by decide) _ _, magnitudeExact _ (by decide) _ _⟩⟩
  · refine classifies_iff (valueU64_eq hLexeme hParts) (fun h => by omega) (fun h => by omega)
      (fun hLow hHigh => ?_) fun m n h => UInt64.toNat_inj.mp (Int.ofNat_inj.mp h)
    have hNat : (UInt64.ofNat parts.magnitude).toNat = parts.magnitude :=
      UInt64.toNat_ofNat_of_lt' (show parts.magnitude < 2 ^ 64 by omega)
    simp only [hNat]
    omega
  · exact classifies_iff (valueI64_eq hLexeme hParts) (fun h => by omega) (fun h => by omega)
      (fun hLow hHigh => Int64.toInt_ofInt_of_le hLow (by omega)) fun m n h => Int64.toInt_inj.mp h

/-- The text `18446744073709551616.5`: both readers give up at its last
integer digit, before they meet the point. -/
def overflowingFraction : NumberParts :=
  ⟨[], [0x31, 0x38, 0x34, 0x34, 0x36, 0x37, 0x34, 0x34, 0x30, 0x37, 0x33, 0x37, 0x30, 0x39,
    0x35, 0x35, 0x31, 0x36, 0x31, 0x36], [0x2e, 0x35], []⟩

theorem overflowingFraction_wellFormed : overflowingFraction.WellFormed := by
  have hDigits (digits : Bytes) (h : digits.all isDigit = true) : ∀ byte ∈ digits, Digit byte :=
    fun byte hByte => (isDigit_iff byte).mp (List.all_eq_true.mp h byte hByte)
  refine ⟨Or.inl rfl, Or.inr ⟨⟨nofun, hDigits _ (by decide)⟩, by decide⟩, Or.inr ⟨[0x35], ?_, rfl⟩,
    Or.inl rfl⟩
  exact ⟨nofun, hDigits _ (by decide)⟩

theorem overflowingFraction_range :
    ∃ document, (documentParse ⟨fun _ => true, []⟩ (.buffer overflowingFraction.bytes) .rfc8259 none
        true).document = some document ∧
      valueNumberText document 0 = .ok overflowingFraction.bytes ∧ overflowingFraction.WellFormed ∧
      ¬Classifies (valueU64 document 0) (fun n => (n.toNat : Int)) 0 (2 ^ 64 - 1)
        overflowingFraction ∧
      ¬Classifies (valueI64 document 0) Int64.toInt (-2 ^ 63) (2 ^ 63 - 1) overflowingFraction := by
  have hFraction : ¬overflowingFraction.IsInteger := by decide
  refine ⟨⟨.rfc8259, overflowingFraction.bytes,
    [{ Token.blank with type := .number, stop := 22, text := some 0, textSize := 22 }], 22,
    overflowingFraction.bytes ++ [0], 45, [], 0⟩, by decide +kernel, by
      decide, overflowingFraction_wellFormed,
    fun h => ?_, fun h => ?_⟩
  · exact hFraction (h.range.mp (by decide +kernel)).1
  · exact hFraction (h.range.mp (by decide +kernel)).1

/-- The document of the text `-0`. -/
def negativeZero : Document :=
  ⟨.rfc8259, [0x2d, 0x30],
    [{ Token.blank with type := .number, stop := 2, text := some 0, textSize := 2 }], 2,
    [0x2d, 0x30, 0], 5, [], 0⟩

theorem integerReaders_classify_negativeZero :
    Classifies (valueU64 negativeZero 0) (fun n => (n.toNat : Int)) 0 (2 ^ 64 - 1)
      ⟨[0x2d], [0x30], [], []⟩ ∧
      Classifies (valueI64 negativeZero 0) Int64.toInt (-2 ^ 63) (2 ^ 63 - 1)
        ⟨[0x2d], [0x30], [], []⟩ := by
  have hParts : NumberParts.WellFormed ⟨[0x2d], [0x30], [], []⟩ :=
    ⟨Or.inr rfl, Or.inl rfl, Or.inl rfl, Or.inl rfl⟩
  have h := @integerReaders_classify negativeZero 0 ⟨[0x2d], [0x30], [], []⟩ (by decide) hParts
  exact ⟨h.1.mpr (Or.inl ⟨rfl, rfl⟩), h.2.1.mpr (Or.inl ⟨rfl, rfl⟩)⟩

end MaelysJson
