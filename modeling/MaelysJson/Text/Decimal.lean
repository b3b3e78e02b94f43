import MaelysJson.Code.Serialize
import MaelysJson.General.Utf8
import MaelysJson.Text.Integer

/-! The decimals that the writer prints: each is the one integer of the grammar with its
value, so reading one back gives the number that was printed. -/
namespace MaelysJson

open Grammar

/-! ### Digits -/

theorem decimalValue_append (value : Nat) (left right : Bytes) :
    decimalValue value (left ++ right) = decimalValue (decimalValue value left) right :=
  List.foldl_append ..

theorem decimalValue_concat (digits : Bytes) (byte : UInt8) :
    decimalValue 0 (digits ++ [byte]) = decimalValue 0 digits * 10 + (byte.toNat - 0x30) := by
  rw [decimalValue_append, decimalValue_cons]
  rfl

/-- The byte of a decimal digit. -/
theorem digit_ofNat {n : Nat} (h : n < 10) :
    Digit (.ofNat (0x30 + n)) ∧ (UInt8.ofNat (0x30 + n)).toNat = 0x30 + n := by
  have hByte : (UInt8.ofNat (0x30 + n)).toNat = 0x30 + n := Utf8.toNat_ofNat_of_lt (by omega)
  refine ⟨⟨UInt8.le_iff_toNat_le.mpr ?_, UInt8.le_iff_toNat_le.mpr ?_⟩, hByte⟩
  · rw [hByte]
    exact Nat.le_add_right _ _
  · rw [hByte]
    exact Nat.add_le_add_left (Nat.le_of_lt_succ h) _

theorem digits_decimalFrom {rounds : Nat} (hRounds : 0 < rounds) (n : Nat) :
    Digits (decimalFrom rounds n) := by
  induction rounds generalizing n with
  | zero => exact absurd hRounds (Nat.lt_irrefl 0)
  | succ rounds ih =>
      rw [decimalFrom]
      split_ifs with hOne
      · exact ⟨List.cons_ne_nil _ _, List.forall_mem_singleton.mpr (digit_ofNat hOne).1⟩
      · have hLast : Digit (.ofNat (0x30 + n % 10)) := (digit_ofNat (Nat.mod_lt _ (by decide))).1
        refine ⟨by simp, List.forall_mem_append.mpr ⟨?_, List.forall_mem_singleton.mpr hLast⟩⟩
        cases rounds with
        | zero => exact nofun
        | succ rounds => exact (ih (Nat.succ_pos _) _).2

theorem decimalValue_decimalFrom {rounds n : Nat} (h : n < 10 ^ rounds) :
    decimalValue 0 (decimalFrom rounds n) = n := by
  induction rounds generalizing n with
  | zero =>
      rw [Nat.pow_zero, Nat.lt_one_iff] at h
      rw [h]
      rfl
  | succ rounds ih =>
      rw [decimalFrom]
      split_ifs with hOne
      · rw [decimalValue_cons, (digit_ofNat hOne).2]
        simp [decimalValue]
      · have hTail : n / 10 < 10 ^ rounds := by
          rw [Nat.div_lt_iff_lt_mul (by decide), ← Nat.pow_succ]
          exact h
        rw [decimalValue_concat, ih hTail, (digit_ofNat (Nat.mod_lt _ (by decide))).2]
        omega

/-- An integer of more than one digit is one of fewer digits, which is not zero, and a last
digit. -/
theorem Grammar.IntegerPart.concat {digits : Bytes} {byte : UInt8}
    (h : IntegerPart (digits ++ [byte])) (hMore : digits ≠ []) :
    IntegerPart digits ∧ 0 < decimalValue 0 digits ∧ Digit byte := by
  obtain ⟨first, rest, rfl⟩ := List.exists_cons_of_ne_nil hMore
  rcases h with hZero | ⟨⟨-, hDigits⟩, hHead⟩
  · simp at hZero
  rw [List.cons_append, List.head?_cons] at hHead
  rw [List.forall_mem_append, List.forall_mem_singleton] at hDigits
  refine ⟨Or.inr ⟨⟨hMore, hDigits.1⟩, hHead⟩, ?_, hDigits.2⟩
  obtain ⟨hLow, -⟩ := hDigits.1 first List.mem_cons_self
  have hLow : 0x30 ≤ first.toNat := UInt8.le_iff_toNat_le.mp hLow
  have hFirst : first.toNat ≠ 0x30 := fun hSame => hHead (congrArg some (UInt8.toNat_inj.mp hSame))
  have hValue := le_decimalValue rest (first.toNat - 0x30)
  rw [decimalValue_cons]
  simp only [Nat.zero_mul, Nat.zero_add]
  omega

/-- An integer of the grammar is the decimal of its value. -/
theorem decimalFrom_decimalValue {digits : Bytes} (h : IntegerPart digits) {rounds : Nat}
    (hLength : digits.length ≤ rounds) :
    decimalFrom rounds (decimalValue 0 digits) = digits := by
  induction rounds generalizing digits with
  | zero => exact absurd (List.eq_nil_of_length_eq_zero (Nat.le_zero.mp hLength)) h.digits.1
  | succ rounds ih =>
      obtain ⟨init, last, rfl⟩ : ∃ init last, digits = init ++ [last] :=
        ⟨digits.dropLast, digits.getLast h.digits.1, (List.dropLast_append_getLast h.digits.1).symm⟩
      have hByte : UInt8.ofNat (0x30 + (last.toNat - 0x30)) = last ∧ last.toNat - 0x30 < 10 := by
        obtain ⟨-, hHigh, hLow⟩ := digit_toNat (h.digits.2 last (by simp))
        rw [Nat.add_sub_cancel' hLow, UInt8.ofNat_toNat]
        exact ⟨rfl, by omega⟩
      rw [decimalFrom, decimalValue_concat]
      by_cases hMore : init = []
      · subst hMore
        have hZero : decimalValue 0 [] * 10 + (last.toNat - 0x30) = last.toNat - 0x30 := by
          simp [decimalValue]
        rw [hZero, if_pos hByte.2, hByte.1]
        rfl
      · obtain ⟨hInit, hPos, -⟩ := h.concat hMore
        rw [List.length_append, List.length_singleton, Nat.add_le_add_iff_right] at hLength
        have hDiv : (decimalValue 0 init * 10 + (last.toNat - 0x30)) / 10 =
          decimalValue 0 init := by omega
        have hMod : (decimalValue 0 init * 10 + (last.toNat - 0x30)) % 10 = last.toNat - 0x30 := by
          omega
        rw [if_neg (by omega), hDiv, hMod, ih hInit hLength, hByte.1]

/-- Decimals have no leading zeros. -/
theorem integerPart_decimalFrom {rounds n : Nat} (h : n < 10 ^ rounds) (hRounds : 0 < rounds) :
    IntegerPart (decimalFrom rounds n) := by
  induction rounds generalizing n with
  | zero => exact absurd hRounds (Nat.lt_irrefl 0)
  | succ rounds ih =>
      have hDigits := digits_decimalFrom hRounds n
      by_cases hZero : n = 0
      · rw [hZero]
        exact Or.inl rfl
      refine Or.inr ⟨hDigits, ?_⟩
      rw [decimalFrom]
      split_ifs with hOne
      · rw [List.head?_cons, ne_eq, Option.some.injEq, ← UInt8.toNat_inj, (digit_ofNat hOne).2]
        exact fun hSame => hZero (by simpa using hSame)
      · have hTail : n / 10 < 10 ^ rounds := by
          rw [Nat.div_lt_iff_lt_mul (by decide), ← Nat.pow_succ]
          exact h
        have hPos : 0 < rounds := by
          by_contra hNot
          rw [Nat.le_zero.mp (not_lt.mp hNot)] at hTail
          omega
        have hInit := ih hTail hPos
        rw [List.head?_append_of_ne_nil _ hInit.digits.1]
        rcases hInit with hSame | hHead
        · have hValue := decimalValue_decimalFrom hTail
          rw [hSame] at hValue
          simp [decimalValue] at hValue
          omega
        · exact hHead.2

/-! ### Printed integers -/

/-- The parts of a printed integer. -/
def decimalParts (negative : Bool) (magnitude : Nat) : NumberParts :=
  ⟨if negative then [0x2d] else [], decimalFrom 20 magnitude, [], []⟩

theorem decimalParts_wellFormed (negative : Bool) {magnitude : Nat} (h : magnitude < 2 ^ 64) :
    (decimalParts negative magnitude).WellFormed where
  minus := by
    cases negative with
    | false => exact Or.inl rfl
    | true => exact Or.inr rfl
  integer := integerPart_decimalFrom (h.trans (by decide)) (by decide)
  fraction := Or.inl rfl
  exponent := Or.inl rfl

theorem decimalParts_denoted (negative : Bool) {magnitude : Nat} (h : magnitude < 2 ^ 64) :
    (decimalParts negative magnitude).denoted = if negative then -(magnitude : Int) else
      magnitude := by
  have hMagnitude : (decimalParts negative magnitude).magnitude = magnitude :=
    decimalValue_decimalFrom (h.trans (by decide))
  rw [NumberParts.denoted, hMagnitude]
  cases negative <;> rfl

theorem decimalU64_eq (value : UInt64) :
    decimalU64 value = (decimalParts false value.toNat).bytes := by
  simp [decimalU64, decimalParts, NumberParts.bytes]

theorem decimalI64_eq (value : Int64) :
    decimalI64 value = (decimalParts (value < 0) value.toInt.natAbs).bytes := by
  rw [decimalI64, decimalParts, NumberParts.bytes]
  by_cases hNegative : value < 0
  · simp [hNegative]
  · simp [hNegative]

theorem natAbs_toInt_lt (value : Int64) : value.toInt.natAbs < 2 ^ 64 := by
  have hLow := value.le_toInt
  have hHigh := value.toInt_lt
  omega

theorem number_decimalU64 (value : UInt64) : Number (decimalU64 value) :=
  ⟨_, decimalParts_wellFormed false value.toNat_lt, decimalU64_eq value⟩

theorem number_decimalI64 (value : Int64) : Number (decimalI64 value) :=
  ⟨_, decimalParts_wellFormed _ (natAbs_toInt_lt value), decimalI64_eq value⟩

/-- The printed integer denotes the number. -/
theorem denoted_decimalU64 (value : UInt64) :
    (decimalParts false value.toNat).denoted = value.toNat :=
  decimalParts_denoted false value.toNat_lt

theorem denoted_decimalI64 (value : Int64) :
    (decimalParts (value < 0) value.toInt.natAbs).denoted = value.toInt := by
  rw [decimalParts_denoted _ (natAbs_toInt_lt value)]
  have hSign : value < 0 ↔ value.toInt < 0 := by
    rw [Int64.lt_iff_toInt_lt]
    rfl
  by_cases hNegative : value < 0
  · have hInt := hSign.mp hNegative
    rw [decide_eq_true hNegative, if_pos rfl]
    omega
  · have hInt := hSign.not.mp hNegative
    rw [decide_eq_false hNegative, if_neg Bool.false_ne_true]
    omega

end MaelysJson
