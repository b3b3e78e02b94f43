import MaelysJson.Json.Grammar
import MaelysJson.Text.Scan

/-! Number lexemes: the scanner accepts exactly the number rule, part by part. -/
namespace MaelysJson

open Grammar

theorem isDigit_iff (byte : UInt8) : isDigit byte = true ↔ Digit byte := by
  simp only [isDigit, Digit, Bool.and_eq_true, decide_eq_true_eq]

theorem not_isDigit_of {byte : UInt8}
    (h : byte = 0x2b ∨ byte = 0x2d ∨ byte = 0x2e ∨ byte = 0x65 ∨ byte = 0x45) :
    isDigit byte = false := by
  rcases h with rfl | rfl | rfl | rfl | rfl <;> decide

theorem Grammar.Digits.pos {digits : Bytes} (h : Digits digits) : 0 < digits.length :=
  List.length_pos_of_ne_nil h.1

/-- The digits a scan passes over. -/
theorem scanned_digits {bytes : Bytes} {offset : Nat}
    (h : scanWhile isDigit bytes offset ≠ offset) :
    ∃ digits, Digits digits ∧
      bytes.drop offset = digits ++ bytes.drop (scanWhile isDigit bytes offset) := by
  refine ⟨_, ⟨?_, fun byte hByte => ?_⟩, drop_eq_scanned isDigit bytes offset⟩
  · intro hNil
    rw [scanWhile, hNil] at h
    exact h rfl
  · exact (isDigit_iff byte).mp
      (List.all_eq_true.mp (List.all_takeWhile (l := bytes.drop offset)) byte hByte)

theorem scan_digits {bytes digits rest : Bytes} {offset : Nat}
    (hDigits : ∀ byte ∈ digits, Digit byte) (hDrop : bytes.drop offset = digits ++ rest)
    (hRest : ∀ byte ∈ rest.head?, isDigit byte = false) :
    scanWhile isDigit bytes offset = offset + digits.length :=
  scanWhile_eq hDrop (fun byte hByte => (isDigit_iff byte).mpr (hDigits byte hByte)) hRest

/-! ### The parts of a number -/

theorem Grammar.ExponentPart.head {bytes : Bytes} (h : ExponentPart bytes) :
    ∀ byte ∈ bytes.head?, byte = 0x65 ∨ byte = 0x45 := by
  rcases h with rfl | ⟨marker, sign, digits, hMarker, -, -, rfl⟩
  · exact nofun
  · rintro _ ⟨⟩
    exact hMarker

/-- Nothing that may follow the digits of a number is a digit. -/
theorem Grammar.FractionPart.stop {fraction exponent : Bytes} (hFraction : FractionPart fraction)
    (hExponent : ExponentPart exponent) :
    ∀ byte ∈ (fraction ++ exponent).head?, isDigit byte = false := by
  intro byte hByte
  rcases hFraction with rfl | ⟨digits, -, rfl⟩
  · exact not_isDigit_of (Or.inr (Or.inr (Or.inr (hExponent.head byte hByte))))
  · cases hByte
    decide

theorem numberExponent_iff {bytes : Bytes} {offset : Nat} (hOffset : offset ≤ bytes.length) :
    numberExponent bytes offset = true ↔ ExponentPart (bytes.drop offset) := by
  constructor
  · intro h
    simp only [numberExponent] at h
    split_ifs at h with hMarker hSign hNone hNone'
    · have hSigned := hMarker.1
      rw [beq_iff_eq] at h
      obtain ⟨digits, hDigits, hDrop⟩ := scanned_digits hNone
      rw [h, List.drop_length, List.append_nil] at hDrop
      refine Or.inr ⟨_, [byteAt bytes (offset + 1)], digits, hMarker.2, ?_, hDigits, ?_⟩
      · rcases hSign.2 with hSign | hSign <;> simp [hSign]
      · rw [drop_eq_byteAt_cons hMarker.1, drop_eq_byteAt_cons hSign.1, hDrop]
        rfl
    · rw [beq_iff_eq] at h
      obtain ⟨digits, hDigits, hDrop⟩ := scanned_digits hNone'
      rw [h, List.drop_length, List.append_nil] at hDrop
      exact Or.inr ⟨_, [], digits, hMarker.2, Or.inl rfl, hDigits, by
        rw [drop_eq_byteAt_cons hMarker.1, hDrop]; rfl⟩
    · rw [beq_iff_eq] at h
      rw [h, List.drop_length]
      exact Or.inl rfl
  · rintro (hNil | ⟨marker, sign, digits, hMarker, hSign, hDigits, hDrop⟩)
    · have hEnd : offset = bytes.length := by
        have := List.drop_eq_nil_iff.mp hNil
        omega
      simp [numberExponent, hEnd]
    · rw [List.cons_append] at hDrop
      have hNext := drop_succ_of_drop hDrop
      have hStop : offset + 1 + sign.length + digits.length = bytes.length := by
        have hLength := congrArg List.length hDrop
        simp only [List.length_drop, List.length_cons, List.length_append] at hLength
        omega
      have hPos := hDigits.pos
      have hSigned : (if offset + 1 < bytes.length ∧ (byteAt bytes (offset + 1) = 0x2b ∨
          byteAt bytes (offset + 1) = 0x2d) then offset + 1 + 1 else offset + 1) =
          offset + 1 + sign.length := by
        rcases hSign with rfl | rfl | rfl
        · rw [if_neg]
          · rfl
          · rintro ⟨-, hSign⟩
            obtain ⟨digit, rest, rfl⟩ := List.exists_cons_of_ne_nil hDigits.1
            rw [byteAt_of_drop hNext] at hSign
            have := (isDigit_iff digit).mpr (hDigits.2 digit List.mem_cons_self)
            rw [not_isDigit_of (hSign.elim Or.inl fun h => Or.inr (Or.inl h))] at this
            cases this
        · rw [if_pos ⟨lt_length_of_drop hNext, Or.inl (byteAt_of_drop hNext)⟩]
          rfl
        · rw [if_pos ⟨lt_length_of_drop hNext, Or.inr (byteAt_of_drop hNext)⟩]
          rfl
      have hDigitsAt := drop_add_of_drop hNext
      have hScan := @scan_digits _ _ [] _ hDigits.2 (by rw [hDigitsAt, List.append_nil]) nofun
      simp only [numberExponent]
      rw [if_pos ⟨lt_length_of_drop hDrop, by rw [byteAt_of_drop hDrop]; exact hMarker⟩,
        hSigned, hScan, if_neg (by omega), beq_iff_eq]
      exact hStop

theorem numberFraction_iff {bytes : Bytes} {offset : Nat} (hOffset : offset ≤ bytes.length) :
    numberFraction bytes offset = true ↔
      ∃ fraction exponent, FractionPart fraction ∧ ExponentPart exponent ∧
        bytes.drop offset = fraction ++ exponent := by
  constructor
  · intro h
    simp only [numberFraction] at h
    split_ifs at h with hPoint hNone
    · obtain ⟨digits, hDigits, hDrop⟩ := scanned_digits hNone
      refine ⟨0x2e :: digits, _, Or.inr ⟨digits, hDigits, rfl⟩,
        (numberExponent_iff (scanWhile_le _ _ _ hPoint.1)).mp h, ?_⟩
      rw [drop_eq_byteAt_cons hPoint.1, hPoint.2, hDrop]
      rfl
    · exact ⟨[], _, Or.inl rfl, (numberExponent_iff hOffset).mp h, rfl⟩
  · rintro ⟨fraction, exponent, hFraction, hExponent, hDrop⟩
    rcases hFraction with rfl | ⟨digits, hDigits, rfl⟩
    · have hPoint : ¬(offset < bytes.length ∧ byteAt bytes offset = 0x2e) := by
        rintro ⟨hEnd, hPoint⟩
        rw [drop_eq_byteAt_cons hEnd, hPoint] at hDrop
        have := hExponent.head 0x2e (by rw [← List.nil_append exponent, ← hDrop]; rfl)
        revert this
        decide
      rw [numberFraction, if_neg hPoint, numberExponent_iff hOffset, hDrop]
      exact hExponent
    · rw [List.cons_append] at hDrop
      have hNext := drop_succ_of_drop hDrop
      have hScan := scan_digits hDigits.2 hNext (FractionPart.stop (Or.inl rfl) hExponent)
      have hPos := hDigits.pos
      simp only [numberFraction]
      rw [if_pos ⟨lt_length_of_drop hDrop, byteAt_of_drop hDrop⟩, hScan, if_neg (by omega),
        numberExponent_iff (le_length_of_drop (lt_length_of_drop hDrop) hNext),
        drop_add_of_drop hNext]
      exact hExponent

/-- The integer part and what follows it, after the minus sign. -/
theorem numberInteger_iff {bytes : Bytes} {offset : Nat} (hOffset : offset ≤ bytes.length) :
    (if offset ≥ bytes.length then false
      else if byteAt bytes offset = 0x30 then numberFraction bytes (offset + 1)
      else if byteAt bytes offset < 0x31 ∨ byteAt bytes offset > 0x39 then false
      else numberFraction bytes (scanWhile isDigit bytes offset)) = true ↔
      ∃ integer fraction exponent, IntegerPart integer ∧ FractionPart fraction ∧
        ExponentPart exponent ∧ bytes.drop offset = integer ++ (fraction ++ exponent) := by
  constructor
  · intro h
    split_ifs at h with hEnd hZero hRange
    · obtain ⟨fraction, exponent, hFraction, hExponent, hDrop⟩ :=
        (numberFraction_iff (by omega)).mp h
      refine ⟨[0x30], fraction, exponent, Or.inl rfl, hFraction, hExponent, ?_⟩
      rw [drop_eq_byteAt_cons (by omega), hZero, hDrop]
      rfl
    · obtain ⟨fraction, exponent, hFraction, hExponent, hDrop⟩ :=
        (numberFraction_iff (scanWhile_le _ _ _ hOffset)).mp h
      have hDigit : isDigit (byteAt bytes offset) = true := by
        simp only [not_or, UInt8.not_lt, gt_iff_lt] at hRange
        rw [isDigit_iff]
        exact ⟨UInt8.le_trans (by decide) hRange.1, hRange.2⟩
      have hNe : scanWhile isDigit bytes offset ≠ offset := by
        rw [scanWhile, drop_eq_byteAt_cons (by omega), List.takeWhile_cons_of_pos hDigit,
          List.length_cons]
        omega
      obtain ⟨digits, hDigits, hDrop'⟩ := scanned_digits hNe
      refine ⟨digits, fraction, exponent, Or.inr ⟨hDigits, fun hHead => ?_⟩, hFraction,
        hExponent, ?_⟩
      · obtain ⟨rest, rfl⟩ := List.head?_eq_some_iff.mp hHead
        exact hZero (byteAt_of_drop (by rw [hDrop', List.cons_append]))
      · rw [← hDrop]
        exact hDrop'
  · rintro ⟨integer, fraction, exponent, hInteger, hFraction, hExponent, hDrop⟩
    rcases hInteger with rfl | ⟨hDigits, hHead⟩
    · rw [List.cons_append, List.nil_append] at hDrop
      have hEnd := lt_length_of_drop hDrop
      rw [if_neg (by omega), if_pos (byteAt_of_drop hDrop), numberFraction_iff hEnd]
      exact ⟨fraction, exponent, hFraction, hExponent, drop_succ_of_drop hDrop⟩
    · have hScan := scan_digits hDigits.2 hDrop (hFraction.stop hExponent)
      have hStop := le_length_of_drop hOffset hDrop
      obtain ⟨digit, rest, rfl⟩ := List.exists_cons_of_ne_nil hDigits.1
      have hDigit := hDigits.2 digit List.mem_cons_self
      have hZero : digit ≠ 0x30 := fun h => hHead (by rw [h]; rfl)
      have hByte := @byteAt_of_drop bytes _ offset _ (by rw [hDrop, List.cons_append])
      rw [List.length_cons] at hStop
      rw [if_neg (by omega), hByte, if_neg hZero, if_neg,
        numberFraction_iff (by rw [hScan]; exact hStop), hScan]
      · exact ⟨fraction, exponent, hFraction, hExponent, drop_add_of_drop hDrop⟩
      · obtain ⟨hLow, hHigh⟩ := hDigit
        rw [Ne, ← UInt8.toNat_inj] at hZero
        simp only [UInt8.le_iff_toNat_le, UInt8.reduceToNat] at hLow hHigh hZero
        simp only [gt_iff_lt, UInt8.lt_iff_toNat_lt, UInt8.reduceToNat]
        omega

/-- The scanner accepts exactly the number rule. -/
theorem numberSyntax_iff (bytes : Bytes) : numberSyntax bytes = true ↔ Number bytes := by
  have hParts (minus : Bytes) (offset : Nat) (hMinus : minus = [] ∨ minus = [0x2d])
      (hDrop : bytes = minus ++ bytes.drop offset) :
      (∃ integer fraction exponent, IntegerPart integer ∧ FractionPart fraction ∧
        ExponentPart exponent ∧ bytes.drop offset = integer ++ (fraction ++ exponent)) →
          Number bytes := by
    rintro ⟨integer, fraction, exponent, hInteger, hFraction, hExponent, hRest⟩
    refine ⟨⟨minus, integer, fraction, exponent⟩, ⟨hMinus, hInteger, hFraction, hExponent⟩, ?_⟩
    rw [NumberParts.bytes, List.append_assoc, List.append_assoc, ← hRest]
    exact hDrop
  rw [numberSyntax]
  by_cases hMinus : 0 < bytes.length ∧ byteAt bytes 0 = 0x2d
  · simp only [if_pos hMinus]
    have hCons : bytes = 0x2d :: bytes.drop 1 := by
      have := drop_eq_byteAt_cons hMinus.1
      rwa [hMinus.2, List.drop_zero] at this
    refine (numberInteger_iff (by omega)).trans ⟨hParts [0x2d] 1 (Or.inr rfl) hCons, ?_⟩
    rintro ⟨parts, h, hBytes⟩
    have hSign := h.minus
    have hInteger := h.integer
    rw [NumberParts.bytes, List.append_assoc, List.append_assoc] at hBytes
    refine ⟨parts.integer, parts.fraction, parts.exponent, h.integer, h.fraction, h.exponent, ?_⟩
    rcases hSign with hSign | hSign
    · exfalso
      rw [hSign, List.nil_append, hCons] at hBytes
      rcases hInteger with hInteger | ⟨hDigits, -⟩
      · rw [hInteger] at hBytes
        exact absurd (List.cons.inj hBytes).1 (by decide)
      · obtain ⟨digit, rest, hEq⟩ := List.exists_cons_of_ne_nil hDigits.1
        rw [hEq] at hBytes
        have := hDigits.2 digit (by rw [hEq]; exact List.mem_cons_self)
        rw [← (List.cons.inj hBytes).1] at this
        revert this
        unfold Digit
        decide
    · rw [hSign, hCons] at hBytes
      exact (List.cons.inj hBytes).2
  · simp only [if_neg hMinus]
    refine (numberInteger_iff (Nat.zero_le _)).trans ⟨hParts [] 0 (Or.inl rfl) rfl, ?_⟩
    rintro ⟨parts, h, hBytes⟩
    rw [NumberParts.bytes, List.append_assoc, List.append_assoc] at hBytes
    refine ⟨parts.integer, parts.fraction, parts.exponent, h.integer, h.fraction, h.exponent, ?_⟩
    rcases h.minus with hSign | hSign
    · rwa [hSign] at hBytes
    · rw [hSign] at hBytes
      exact absurd ⟨by rw [hBytes]; exact Nat.succ_pos _, by rw [hBytes]; rfl⟩ hMinus

/-! ### The bytes of a number -/

/-- What a number is made of. -/
def NumberByte (byte : UInt8) : Prop :=
  Digit byte ∨ byte = 0x2b ∨ byte = 0x2d ∨ byte = 0x2e ∨ byte = 0x65 ∨ byte = 0x45

theorem Grammar.IntegerPart.digits {bytes : Bytes} (h : IntegerPart bytes) : Digits bytes := by
  rcases h with rfl | ⟨hDigits, -⟩
  · exact ⟨nofun, by rintro byte ⟨⟩ <;> [exact ⟨by decide, by decide⟩; contradiction]⟩
  · exact hDigits

theorem Grammar.Number.mem {bytes : Bytes} (h : Number bytes) :
    ∀ byte ∈ bytes, NumberByte byte := by
  obtain ⟨parts, ⟨hMinus, hInteger, hFraction, hExponent⟩, rfl⟩ := h
  intro byte hByte
  simp only [NumberParts.bytes, List.mem_append] at hByte
  rcases hByte with ((hByte | hByte) | hByte) | hByte
  · rcases hMinus with hMinus | hMinus <;>
      simp only [hMinus, List.mem_singleton, List.not_mem_nil] at hByte
    exact Or.inr (Or.inr (Or.inl hByte))
  · exact Or.inl (hInteger.digits.2 byte hByte)
  · rcases hFraction with hFraction | ⟨digits, hDigits, hFraction⟩ <;>
      simp only [hFraction, List.mem_cons, List.not_mem_nil] at hByte
    rcases hByte with hByte | hByte
    · exact Or.inr (Or.inr (Or.inr (Or.inl hByte)))
    · exact Or.inl (hDigits.2 byte hByte)
  · rcases hExponent with hExponent | ⟨marker, sign, digits, hMarker, hSign, hDigits, hExponent⟩ <;>
      simp only [hExponent, List.cons_append, List.mem_cons, List.mem_append, List.not_mem_nil]
        at hByte
    rcases hByte with rfl | hByte | hByte
    · exact Or.inr (Or.inr (Or.inr (Or.inr hMarker)))
    · rcases hSign with rfl | rfl | rfl <;>
        simp only [List.mem_singleton, List.not_mem_nil] at hByte
      · exact Or.inr (Or.inl hByte)
      · exact Or.inr (Or.inr (Or.inl hByte))
    · exact Or.inl (hDigits.2 byte hByte)

theorem Grammar.Number.ne_nil {bytes : Bytes} (h : Number bytes) : bytes ≠ [] := by
  obtain ⟨parts, ⟨-, hInteger, -, -⟩, rfl⟩ := h
  intro hNil
  simp only [NumberParts.bytes, List.append_eq_nil_iff] at hNil
  exact hInteger.digits.1 hNil.1.1.2

end MaelysJson
