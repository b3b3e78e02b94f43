import MaelysJson.Json.Grammar
import MaelysJson.Text.Scan
import MaelysJson.Text.Utf8

/-! String literals: the decoder accepts exactly the sequences of string units
and reports the first unit that fails, and the scan for the closing quotation
mark passes over units one by one. -/
namespace MaelysJson

open Grammar Utf8

/-! ### Hexadecimal digits and escapes -/

theorem hexValue_iff (byte : UInt8) (value : Nat) :
    hexValue byte = some value ↔ HexDigit byte value := by
  simp only [hexValue, HexDigit, UInt8.le_iff_toNat_le, UInt8.reduceToNat]
  split_ifs <;> simp only [Option.some.injEq, false_iff] <;> omega

theorem Grammar.HexDigit.lt {byte : UInt8} {value : Nat} (h : HexDigit byte value) :
    value < 16 := by
  unfold HexDigit at h
  omega

/-- A hexadecimal digit stands for itself inside a literal. -/
theorem Grammar.HexDigit.plain {byte : UInt8} {value : Nat} (h : HexDigit byte value) :
    0x20 ≤ byte.toNat ∧ byte ≠ 0x22 ∧ byte ≠ 0x5c := by
  unfold HexDigit at h
  refine ⟨by omega, ?_, ?_⟩ <;> rintro rfl <;> simp at h

theorem Grammar.CodeUnit.length {digits : Bytes} {unit : Nat} (h : CodeUnit digits unit) :
    digits.length = 4 := by
  obtain ⟨a, b, c, d, p, q, r, s, rfl, -⟩ := h
  rfl

theorem readU16_iff (bytes : Bytes) (offset unit : Nat) (h : offset + 4 ≤ bytes.length) :
    readU16 bytes offset = some unit ↔ CodeUnit ((bytes.drop offset).take 4) unit := by
  have hTake : (bytes.drop offset).take 4 = [byteAt bytes offset, byteAt bytes (offset + 1),
      byteAt bytes (offset + 2), byteAt bytes (offset + 3)] := by
    rw [drop_eq_byteAt_cons (by omega), drop_eq_byteAt_cons (by omega),
      drop_eq_byteAt_cons (by omega), drop_eq_byteAt_cons (by omega)]
    rfl
  simp only [readU16, CodeUnit, hTake, Option.bind_eq_bind, Option.bind_eq_some_iff, hexValue_iff,
    Option.pure_def, Option.some.injEq]
  constructor
  · rintro ⟨p, hp, q, hq, r, hr, s, hs, rfl⟩
    exact ⟨_, _, _, _, p, q, r, s, rfl, hp, hq, hr, hs, rfl⟩
  · rintro ⟨a, b, c, d, p, q, r, s, hBytes, hp, hq, hr, hs, rfl⟩
    simp only [List.cons.injEq, and_true] at hBytes
    obtain ⟨rfl, rfl, rfl, rfl⟩ := hBytes
    exact ⟨p, hp, q, hq, r, hr, s, hs, rfl⟩

theorem simpleEscape_iff (escape byte : UInt8) :
    simpleEscape escape = some byte ↔ (escape, byte) ∈ simpleEscapes := by
  simp only [simpleEscape, simpleEscapes, List.mem_cons, List.not_mem_nil, Prod.mk.injEq, or_false]
  split_ifs <;> simp_all [eq_comm]

theorem readU16_of_drop {bytes digits rest : Bytes} {offset unit : Nat}
    (h : bytes.drop offset = digits ++ rest) (hUnit : CodeUnit digits unit)
    (hOffset : offset ≤ bytes.length) :
    readU16 bytes offset = some unit ∧ offset + 4 ≤ bytes.length := by
  have hLength := le_length_of_drop hOffset h
  rw [hUnit.length] at hLength
  refine ⟨(readU16_iff _ _ _ hLength).mpr ?_, hLength⟩
  rw [h, ← hUnit.length, List.take_left]
  exact hUnit

/-! ### Bytes of encoded scalar values -/

theorem mem_encodeChar {c : Char} {byte : UInt8} (h : byte ∈ String.utf8EncodeChar c) :
    0x80 ≤ byte.toNat ∨
      (byte.toNat = c.val.toNat ∧ String.utf8EncodeChar c = [byte]) := by
  rcases encode_cases c with ⟨a, he, ha, _⟩ | ⟨a, b, he, ha, hb, _⟩ | ⟨a, b, d, he, ha, hb, hd, _⟩ |
    ⟨a, b, d, e, he, ha, hb, hd, hE, _⟩ <;> rw [he] at h
  all_goals simp only [List.mem_cons, List.not_mem_nil, or_false] at h
  · subst h
    exact Or.inr ⟨ha, he⟩
  · rcases h with rfl | rfl <;> omega
  · rcases h with rfl | rfl | rfl <;> omega
  · rcases h with rfl | rfl | rfl | rfl <;> omega

/-- A scalar value other than an ASCII byte is encoded without that byte. -/
theorem ne_of_mem_encodeChar {c : Char} {byte ascii : UInt8} (hAscii : ascii.toNat < 0x80)
    (hc : c.val.toNat ≠ ascii.toNat) (h : byte ∈ String.utf8EncodeChar c) : byte ≠ ascii := by
  rintro rfl
  rcases mem_encodeChar h with h | h
  · omega
  · exact hc h.1.symm

theorem ne_of_mem_encode {text : List Char} {byte ascii : UInt8} (hAscii : ascii.toNat < 0x80)
    (hText : ∀ c ∈ text, c.val.toNat ≠ ascii.toNat) (h : byte ∈ encode text) : byte ≠ ascii := by
  obtain ⟨c, hc, hByte⟩ := List.mem_flatMap.mp h
  exact ne_of_mem_encodeChar hAscii (hText c hc) hByte

/-- An encoded text holds an ASCII byte only where it holds that scalar value. -/
theorem ne_of_encode {text : List Char} {ascii : UInt8} (hAscii : ascii.toNat < 0x80)
    (h : ascii ∉ encode text) : ∀ c ∈ text, c.val.toNat ≠ ascii.toNat := by
  intro c hc hEq
  refine h (List.mem_flatMap.mpr ⟨c, hc, ?_⟩)
  rw [encode_one (by omega), hEq, UInt8.ofNat_toNat]
  exact List.mem_singleton.mpr rfl

/-! ### Units -/

/-- What may stand for itself as far as the decoder is concerned. -/
def NotEscape (c : Char) : Prop := c.val.toNat ≠ 0x5c

theorem Grammar.StringUnit.mono {Raw Raw' : Char → Prop} (hRaw : ∀ c, Raw c → Raw' c)
    {unit decoded : Bytes} (h : StringUnit Raw unit decoded) : StringUnit Raw' unit decoded := by
  cases h with
  | scalar c raw => exact .scalar c (hRaw c raw)
  | simple escapes => exact .simple escapes
  | point c unit nonzero => exact .point c unit nonzero
  | pair c high low highRange lowRange value => exact .pair c high low highRange lowRange value

theorem Grammar.StringUnits.mono {Raw Raw' : Char → Prop} (hRaw : ∀ c, Raw c → Raw' c)
    {bytes text : Bytes} (h : StringUnits Raw bytes text) : StringUnits Raw' bytes text := by
  induction h with
  | nil => exact .nil
  | cons head tail ih => exact .cons (head.mono hRaw) ih

theorem Grammar.StringUnit.ne_nil {Raw : Char → Prop} {unit decoded : Bytes}
    (h : StringUnit Raw unit decoded) :
    unit ≠ [] := by
  cases h with
  | scalar c raw => exact String.utf8EncodeChar_ne_nil
  | simple escapes => simp
  | point c unit nonzero => simp
  | pair c high low highRange lowRange value => simp

theorem Grammar.StringUnits.append {Raw : Char → Prop} {left leftText right rightText : Bytes}
    (hLeft : StringUnits Raw left leftText) (hRight : StringUnits Raw right rightText) :
    StringUnits Raw (left ++ right) (leftText ++ rightText) := by
  induction hLeft with
  | nil => exact hRight
  | cons head tail ih =>
      rw [List.append_assoc, List.append_assoc]
      exact .cons head ih

/-- Scalar values that may stand for themselves are units, decoded to themselves. -/
theorem Grammar.StringUnits.encode {Raw : Char → Prop} {text : List Char} (h : ∀ c ∈ text, Raw c) :
    StringUnits Raw (Utf8.encode text) (Utf8.encode text) := by
  induction text with
  | nil => exact .nil
  | cons c text ih =>
      exact .cons (.scalar c (h c List.mem_cons_self))
        (ih fun c hc => h c (List.mem_cons_of_mem _ hc))

/-- A unit that starts with a reverse solidus is an escape: a simple one, or
the four or ten bytes after `\u` that denote a scalar value. -/
inductive UnitTail : UInt8 → Bytes → Bytes → Prop where
  | simple {escape byte : UInt8} (escapes : (escape, byte) ∈ simpleEscapes) :
      UnitTail escape [] [byte]
  | point (c : Char) {digits : Bytes} (unit : CodeUnit digits c.val.toNat)
      (nonzero : c.val.toNat ≠ 0) : UnitTail 0x75 digits (String.utf8EncodeChar c)
  | pair (c : Char) {high low : Nat} {highDigits lowDigits : Bytes}
      (highUnit : CodeUnit highDigits high) (lowUnit : CodeUnit lowDigits low)
      (highRange : 0xd800 ≤ high ∧ high ≤ 0xdbff) (lowRange : 0xdc00 ≤ low ∧ low ≤ 0xdfff)
      (value : c.val.toNat = 0x10000 + (high - 0xd800) * 0x400 + (low - 0xdc00)) :
      UnitTail 0x75 (highDigits ++ [0x5c, 0x75] ++ lowDigits) (String.utf8EncodeChar c)

theorem UnitTail.unit {Raw : Char → Prop} {escape : UInt8} {tail decoded : Bytes}
    (h : UnitTail escape tail decoded) : StringUnit Raw (0x5c :: escape :: tail) decoded := by
  cases h with
  | simple escapes => exact .simple escapes
  | point c unit nonzero => exact .point c unit nonzero
  | pair c high low highRange lowRange value =>
      have h : StringUnit Raw _ _ := .pair c high low highRange lowRange value
      simpa only [List.append_assoc, List.cons_append, List.nil_append] using h

theorem Grammar.StringUnit.cases_head {Raw : Char → Prop} {unit decoded : Bytes}
    (h : StringUnit Raw unit decoded) :
    (∃ c, Raw c ∧ unit = String.utf8EncodeChar c ∧ decoded = unit) ∨
      ∃ escape tail, unit = 0x5c :: escape :: tail ∧ UnitTail escape tail decoded := by
  cases h with
  | scalar c raw => exact Or.inl ⟨c, raw, rfl, rfl⟩
  | simple escapes => exact Or.inr ⟨_, _, rfl, .simple escapes⟩
  | point c unit nonzero => exact Or.inr ⟨_, _, rfl, .point c unit nonzero⟩
  | pair c high low highRange lowRange value =>
      refine Or.inr ⟨0x75, _, ?_, .pair c high low highRange lowRange value⟩
      simp only [List.append_assoc, List.cons_append, List.nil_append]

theorem Grammar.CodeUnit.unique {digits digits' r s : Bytes} {unit unit' : Nat}
    (h : CodeUnit digits unit) (h' : CodeUnit digits' unit') (hEq : digits ++ r = digits' ++ s) :
    digits = digits' ∧ unit = unit' ∧ r = s := by
  obtain ⟨rfl, rfl⟩ := List.append_inj hEq (h.length.trans h'.length.symm)
  refine ⟨rfl, ?_, rfl⟩
  have hLength : 0 + 4 ≤ digits.length := by rw [h.length]
  have hTake : (digits.drop 0).take 4 = digits := by
    rw [List.drop_zero]
    exact List.take_of_length_le (by rw [h.length])
  have hu := (readU16_iff digits 0 unit hLength).mpr (by rwa [hTake])
  have hu' := (readU16_iff digits 0 unit' hLength).mpr (by rwa [hTake])
  exact Option.some.inj (hu.symm.trans hu')

theorem UnitTail.unique {escape : UInt8} {tail tail' decoded decoded' r s : Bytes}
    (h : UnitTail escape tail decoded) (h' : UnitTail escape tail' decoded')
    (hEq : tail ++ r = tail' ++ s) : tail = tail' ∧ decoded = decoded' := by
  cases h with
  | simple escapes =>
      cases h' with
      | simple escapes' =>
          have hByte := (simpleEscape_iff _ _).mpr escapes
          rw [(simpleEscape_iff _ _).mpr escapes'] at hByte
          exact ⟨rfl, by rw [Option.some.inj hByte]⟩
      | point c unit nonzero => simp [simpleEscapes] at escapes
      | pair c high low highRange lowRange value => simp [simpleEscapes] at escapes
  | point c unit nonzero =>
      have hc := scalar_range c
      cases h' with
      | simple escapes => simp [simpleEscapes] at escapes
      | point c' unit' nonzero' =>
          obtain ⟨rfl, hValue, -⟩ := unit.unique unit' hEq
          exact ⟨rfl, by rw [Char.ext (UInt32.toNat_inj.mp hValue)]⟩
      | pair c' high low highRange lowRange value =>
          rw [List.append_assoc, List.append_assoc] at hEq
          obtain ⟨-, hValue, -⟩ := unit.unique high hEq
          omega
  | pair c high low highRange lowRange value =>
      cases h' with
      | simple escapes => simp [simpleEscapes] at escapes
      | point c' unit' nonzero' =>
          have hc := scalar_range c'
          rw [List.append_assoc, List.append_assoc] at hEq
          obtain ⟨-, hValue, -⟩ := high.unique unit' hEq
          omega
      | pair c' high' low' highRange' lowRange' value' =>
          simp only [List.append_assoc] at hEq
          obtain ⟨rfl, hHigh, hRest⟩ := high.unique high' hEq
          obtain ⟨rfl, hLow, -⟩ := low.unique low' (List.append_cancel_left hRest)
          refine ⟨rfl, ?_⟩
          rw [Char.ext (UInt32.toNat_inj.mp (value.trans (by rw [hHigh, hLow, value'])))]

/-- The first unit of a sequence of bytes is determined by the bytes. -/
theorem Grammar.StringUnit.unique {Raw : Char → Prop} (hRaw : ∀ c, Raw c → NotEscape c)
    {unit unit' decoded decoded' r s : Bytes} (h : StringUnit Raw unit decoded)
    (h' : StringUnit Raw unit' decoded') (hEq : unit ++ r = unit' ++ s) :
    unit = unit' ∧ decoded = decoded' := by
  have hHead {c : Char} {tail r s : Bytes} (hc : Raw c)
      (hEq : String.utf8EncodeChar c ++ r = 0x5c :: tail ++ s) : False := by
    obtain ⟨b, rest, hb⟩ := List.exists_cons_of_ne_nil (String.utf8EncodeChar_ne_nil (c := c))
    rw [hb] at hEq
    refine @ne_of_mem_encodeChar _ _ 0x5c (by decide) (hRaw c hc) ?_ (List.cons.inj hEq).1
    rw [hb]
    exact List.mem_cons_self
  rcases h.cases_head with ⟨c, hc, rfl, rfl⟩ | ⟨escape, tail, rfl, hTail⟩
  · rcases h'.cases_head with ⟨c', hc', rfl, rfl⟩ | ⟨escape', tail', rfl, hTail'⟩
    · obtain ⟨rfl, -⟩ := encodeChar_append_inj hEq
      exact ⟨rfl, rfl⟩
    · exact (hHead hc hEq).elim
  · rcases h'.cases_head with ⟨c', hc', rfl, rfl⟩ | ⟨escape', tail', rfl, hTail'⟩
    · exact (hHead hc' hEq.symm).elim
    · simp only [List.cons_append, List.cons.injEq, true_and] at hEq
      obtain ⟨rfl, hEq⟩ := hEq
      obtain ⟨rfl, rfl⟩ := hTail.unique hTail' hEq
      exact ⟨rfl, rfl⟩

end MaelysJson
