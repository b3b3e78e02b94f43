import MaelysJson.Code.Messages
import MaelysJson.Reading.Locations
import MaelysJson.Reading.Prefixes
import MaelysJson.Text.Decimal

/-! The text of an error tells all of it: its position and its code. A caller that asks for
the length first, or brings the 128 bytes of the tool, receives the whole text. -/
namespace MaelysJson

open Grammar

/-! ### Sizes and results -/

theorem digits_decimalSize (n : Nat) : Digits (decimalSize n) := digits_decimalFrom (by decide) n

theorem decimalSize_inj {m n : Nat} (hm : m ≤ sizeMax) (hn : n ≤ sizeMax)
    (h : decimalSize m = decimalSize n) : m = n := by
  simp only [sizeMax] at hm hn
  rw [← @decimalValue_decimalFrom 20 m (by omega), ← @decimalValue_decimalFrom 20 n (by omega)]
  exact congrArg (decimalValue 0) h

theorem length_decimalFrom_le (rounds n : Nat) : (decimalFrom rounds n).length ≤ rounds := by
  induction rounds generalizing n with
  | zero => simp [decimalFrom]
  | succ rounds ih =>
      rw [decimalFrom]
      split_ifs
      · simp
      · simpa using ih (n / 10)

theorem resultString_injective : Function.Injective resultString := by
  intro r r' h
  have hNodup : ([.ok, .errArgument, .errMemory, .errLimit, .errSyntax, .errUtf8, .errDuplicateKey,
      .errType, .errRange, .errState, .errNotFound, .errNotInteger, .errIo].map
      resultString).Nodup := by decide
  exact List.inj_on_of_nodup_map hNodup (by cases r <;> simp) (by cases r' <;> simp) h

theorem length_resultString_le (r : Result) : (resultString r).length ≤ 26 := by
  cases r <;> decide

/-! ### Errors -/

/-- The fields fit `size_t`. -/
structure Error.Sized (error : Error) : Prop where
  line : error.line ≤ sizeMax
  column : error.column ≤ sizeMax
  offset : error.offset ≤ sizeMax

/-- The digits of a number end where a separator begins. -/
theorem decimalSize_cut {m n : Nat} {separator rest rest' : Bytes}
    (hByte : ∀ byte ∈ separator.head?, isDigit byte = false) (hSeparator : separator ≠ [])
    (h : decimalSize m ++ (separator ++ rest) = decimalSize n ++ (separator ++ rest')) :
    decimalSize m = decimalSize n ∧ rest = rest' := by
  have hDigits (k : Nat) : ∀ byte ∈ decimalSize k, isDigit byte = true := by
    intro byte hMem
    simpa [isDigit, Digit] using (digits_decimalSize k).2 byte hMem
  have hStop (tail : Bytes) : ∀ byte ∈ (separator ++ tail).head?, isDigit byte = false := by
    rwa [List.head?_append_of_ne_nil _ hSeparator]
  obtain ⟨hSame, hRest⟩ := run_cut (hDigits m) (hDigits n) (hStop rest) (hStop rest') h
  exact ⟨hSame, List.append_cancel_left hRest⟩

/-- Different errors have different texts. -/
theorem errorText_inj {error error' : Error} (hSized : error.Sized) (hSized' : error'.Sized)
    (h : errorText error = errorText error') : error = error' := by
  simp only [errorText, List.append_assoc] at h
  obtain ⟨hLine, h⟩ :=
    decimalSize_cut (by decide +kernel) (by decide +kernel) (List.append_cancel_left h)
  obtain ⟨hColumn, h⟩ := decimalSize_cut (by decide +kernel) (by decide +kernel) h
  obtain ⟨hOffset, h⟩ := decimalSize_cut (by decide +kernel) (by decide +kernel) h
  obtain ⟨code, offset, line, column⟩ := error
  obtain ⟨code', offset', line', column'⟩ := error'
  obtain rfl := decimalSize_inj hSized.line hSized'.line hLine
  obtain rfl := decimalSize_inj hSized.column hSized'.column hColumn
  obtain rfl := decimalSize_inj hSized.offset hSized'.offset hOffset
  obtain rfl := resultString_injective h
  rfl

theorem length_errorText_le (error : Error) : (errorText error).length ≤ 112 := by
  have hLine := length_decimalFrom_le 20 error.line
  have hColumn := length_decimalFrom_le 20 error.column
  have hOffset := length_decimalFrom_le 20 error.offset
  have hCode := length_resultString_le error.code
  have hPieces : (ascii "line ").length = 5 ∧ (ascii ", column ").length = 9 ∧
      (ascii " (offset ").length = 9 ∧ (ascii "): ").length = 3 := by decide
  simp only [errorText, decimalSize, List.length_append, hPieces]
  omega

/-! ### What is safe to print -/

/-- Printable ASCII, the space included. -/
def Printable (bytes : Bytes) : Prop := ∀ byte ∈ bytes, 0x20 ≤ byte ∧ byte ≤ 0x7e

instance (bytes : Bytes) : Decidable (Printable bytes) :=
  inferInstanceAs (Decidable (∀ byte ∈ bytes, 0x20 ≤ byte ∧ byte ≤ 0x7e))

@[simp] theorem printable_append (left right : Bytes) :
    Printable (left ++ right) ↔ Printable left ∧ Printable right :=
  List.forall_mem_append

theorem printable_decimalSize (n : Nat) : Printable (decimalSize n) := by
  intro byte hByte
  obtain ⟨hLow, hHigh⟩ := (digits_decimalSize n).2 byte hByte
  exact ⟨UInt8.le_trans (by decide) hLow, UInt8.le_trans hHigh (by decide)⟩

theorem printable_resultString (r : Result) : Printable (resultString r) := by
  cases r <;> decide +kernel

theorem printable_errorText (error : Error) : Printable (errorText error) := by
  have hPieces : Printable (ascii "line ") ∧ Printable (ascii ", column ") ∧
      Printable (ascii " (offset ") ∧ Printable (ascii "): ") := by decide +kernel
  simp [errorText, hPieces, printable_decimalSize, printable_resultString]

/-! ### The buffer of the caller -/

/-- The C string before the first NUL of a memory that begins with printable bytes. -/
theorem cString_printable {text rest : Bytes} (h : Printable text) :
    cString (text ++ 0 :: rest) = text := by
  have hNonzero : ∀ byte ∈ text, (byte != 0) = true := by
    intro byte hByte
    rw [bne_iff_ne]
    rintro rfl
    exact absurd (h 0 hByte).1 (by decide)
  rw [cString, List.takeWhile_append_of_pos hNonzero]
  simp

theorem Printable.take {text : Bytes} (h : Printable text) (n : Nat) : Printable (text.take n) :=
  fun byte hByte => h byte (List.mem_of_mem_take hByte)

/-- Whatever the memory held, it holds the beginning of the text and a NUL, and nothing is
written past the capacity. The length that is returned does not depend on the capacity. -/
theorem errorFormat_writes (error : Error) {memory : Bytes} {capacity : Nat} (hPos : 0 < capacity)
    (hRoom : capacity ≤ memory.length) :
    ∃ written, errorFormat (some error) (some memory) capacity =
      ((errorText error).length, some written) ∧
      cString written = (errorText error).take (capacity - 1) ∧ written.length = memory.length ∧
      written.drop capacity = memory.drop capacity := by
  have hCapacity : capacity ≠ 0 := hPos.ne'
  refine ⟨(errorText error).take (capacity - 1) ++
      0 :: memory.drop (min (errorText error).length (capacity - 1) + 1), ?_, ?_, ?_, ?_⟩
  · simp [errorFormat, snprintf, hCapacity]
  · exact cString_printable ((printable_errorText error).take _)
  · simp only [List.length_append, List.length_take, List.length_cons, List.length_drop]
    omega
  · have hStart : ((errorText error).take (capacity - 1)).length =
        min (errorText error).length (capacity - 1) := by
      rw [List.length_take, Nat.min_comm]
    rw [List.append_cons, List.drop_append, List.drop_of_length_le (by simp; omega),
      List.nil_append, List.drop_drop]
    congr 1
    simp only [List.length_append, List.length_singleton, hStart]
    omega

theorem errorFormat_length (error : Error) :
    (errorFormat (some error) none 0).1 = (errorText error).length := by
  simp [errorFormat, snprintf]

/-- The errors of texts that can be parsed fit. -/
theorem Error.Locates.sized {error : Error} {code : Result} {bytes : Bytes}
    (h : error.Locates code bytes) (hBytes : bytes.length < sizeMax) : error.Sized := by
  have hLine : error.line = 1 + (bytes.take error.offset).count 0x0a := by
    rw [← linePosition_line, ← h.position]
  have hColumn : error.column =
      1 + ((bytes.take error.offset).reverse.takeWhile (· != 0x0a)).length := by
    rw [← linePosition_column, ← h.position]
  have hFeeds := List.count_le_length (l := bytes.take error.offset) (a := (0x0a : UInt8))
  have hSince := (List.takeWhile_sublist (l := (bytes.take error.offset).reverse)
    (· != (0x0a : UInt8))).length_le
  rw [List.length_reverse] at hSince
  rw [List.length_take] at hFeeds hSince
  have hOffset := h.offset
  exact ⟨by omega, by omega, by omega⟩

/-- A caller that asks for the length first and brings one byte more receives a text that no
other error has. 113 bytes are enough for every error. -/
theorem errorFormat_tells {error error' : Error} (hSized : error.Sized) (hSized' : error'.Sized)
    {memory memory' : Bytes} {capacity capacity' : Nat} (hRoom : capacity ≤ memory.length)
    (hRoom' : capacity' ≤ memory'.length) (hLong : (errorFormat (some error) none 0).1 < capacity)
    (hLong' : (errorFormat (some error') none 0).1 < capacity')
    (hSame : (errorFormat (some error) (some memory) capacity).2.map cString =
      (errorFormat (some error') (some memory') capacity').2.map cString) :
    error = error' ∧ (errorFormat (some error) none 0).1 < 113 := by
  rw [errorFormat_length] at hLong hLong' ⊢
  obtain ⟨written, hWritten, hText, -⟩ := errorFormat_writes error (by omega) hRoom
  obtain ⟨written', hWritten', hText', -⟩ := errorFormat_writes error' (by omega) hRoom'
  rw [hWritten, hWritten', Option.map_some, Option.map_some, Option.some.injEq, hText, hText',
    List.take_of_length_le (by omega), List.take_of_length_le (by omega)] at hSame
  exact ⟨errorText_inj hSized hSized' hSame, Nat.lt_succ_of_le (length_errorText_le error)⟩

/-- `line 1, column 4 (offset 3): invalid JSON syntax`, in two buffers: with the theorem, only this
error reads so. -/
theorem errorFormat_tells_syntax :
    let error : Error := ⟨.errSyntax, 3, 1, 4⟩
    let text := ascii "line 1, column 4 (offset 3): invalid JSON syntax"
    (errorFormat (some error) (some (List.replicate 50 1)) 50).2.map cString = some text ∧
      (errorFormat (some error) (some (List.replicate 60 2)) 60).2.map cString = some text ∧
      (errorFormat (some error) none 0).1 < 113 := by
  intro error text
  have hSized : error.Sized := ⟨by decide, by decide, by decide⟩
  have hFirst : (errorFormat (some error) (some (List.replicate 50 1)) 50).2.map cString =
    some text := by decide +kernel
  have hSecond : (errorFormat (some error) (some (List.replicate 60 2)) 60).2.map cString =
    some text := by decide +kernel
  refine ⟨hFirst, hSecond, ?_⟩
  exact (@errorFormat_tells error error hSized hSized (List.replicate 50 1) (List.replicate 60 2) 50
    60 (by decide) (by decide) (by decide +kernel) (by decide +kernel)
    (hFirst.trans hSecond.symm)).2

end MaelysJson
