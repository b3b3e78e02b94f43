import Mathlib.Tactic

/-! UTF-8 as the encoding of lists of Unicode scalar values. A `Char` is a
scalar value by construction, and its encoding is the one of the standard
library. The facts below describe that encoding byte by byte, in the terms
validators and decoders use. -/
namespace Utf8

/-- The UTF-8 encoding of a list of scalar values. -/
def encode (text : List Char) : List UInt8 := text.flatMap String.utf8EncodeChar

def Valid (bytes : List UInt8) : Prop := ∃ text : List Char, bytes = encode text

theorem exists_scalar {n : Nat} (h : n < 0xd800 ∨ (0xdfff < n ∧ n < 0x110000)) :
    ∃ c : Char, c.val.toNat = n := by
  refine ⟨Char.ofNat n, ?_⟩
  have hv : n.isValidChar := h
  rw [Char.ofNat, dif_pos hv]
  rfl

theorem scalar_range (c : Char) :
    c.val.toNat < 0xd800 ∨ (0xdfff < c.val.toNat ∧ c.val.toNat < 0x110000) := c.valid

theorem byte_eq {a : UInt8} {n : Nat} (h : a.toNat = n) : UInt8.ofNat n = a := by
  rw [← h, UInt8.ofNat_toNat]

theorem toNat_ofNat_of_lt {n : Nat} (h : n < 256) : (UInt8.ofNat n).toNat = n := by
  simp [Nat.mod_eq_of_lt h]

theorem encode_one {c : Char} (h : c.val.toNat ≤ 0x7f) :
    String.utf8EncodeChar c = [.ofNat c.val.toNat] := by
  simp only [String.utf8EncodeChar]
  rw [if_pos h]

theorem encode_two {c : Char} (h : 0x7f < c.val.toNat) (h' : c.val.toNat ≤ 0x7ff) :
    String.utf8EncodeChar c =
      [.ofNat (c.val.toNat / 64 + 0xc0), .ofNat (c.val.toNat % 64 + 0x80)] := by
  simp only [String.utf8EncodeChar]
  rw [if_neg (by omega), if_pos h', show c.val.toNat / 64 % 0x20 = c.val.toNat / 64 by omega]

theorem encode_three {c : Char} (h : 0x7ff < c.val.toNat) (h' : c.val.toNat ≤ 0xffff) :
    String.utf8EncodeChar c =
      [.ofNat (c.val.toNat / 4096 + 0xe0), .ofNat (c.val.toNat / 64 % 64 + 0x80),
        .ofNat (c.val.toNat % 64 + 0x80)] := by
  simp only [String.utf8EncodeChar]
  rw [if_neg (by omega), if_neg (by omega), if_pos h',
    show c.val.toNat / 4096 % 0x10 = c.val.toNat / 4096 by omega]

theorem encode_four {c : Char} (h : 0xffff < c.val.toNat) :
    String.utf8EncodeChar c =
      [.ofNat (c.val.toNat / 262144 + 0xf0), .ofNat (c.val.toNat / 4096 % 64 + 0x80),
        .ofNat (c.val.toNat / 64 % 64 + 0x80), .ofNat (c.val.toNat % 64 + 0x80)] := by
  have hc := scalar_range c
  simp only [String.utf8EncodeChar]
  rw [if_neg (by omega), if_neg (by omega), if_neg (by omega),
    show c.val.toNat / 262144 % 0x08 = c.val.toNat / 262144 by omega]

theorem exists_two {a b : UInt8} (ha : 0xc2 ≤ a.toNat) (ha' : a.toNat ≤ 0xdf)
    (hb : 0x80 ≤ b.toNat) (hb' : b.toNat < 0xc0) :
    ∃ c : Char, String.utf8EncodeChar c = [a, b] := by
  obtain ⟨c, hc⟩ := exists_scalar (n := (a.toNat - 0xc0) * 64 + (b.toNat - 0x80)) (by omega)
  refine ⟨c, ?_⟩
  rw [encode_two (by omega) (by omega), byte_eq (a := a) (by omega), byte_eq (a := b) (by omega)]

theorem exists_three {a b c : UInt8} (ha : 0xe0 ≤ a.toNat) (ha' : a.toNat ≤ 0xef)
    (hb : 0x80 ≤ b.toNat) (hb' : b.toNat < 0xc0) (hc : 0x80 ≤ c.toNat) (hc' : c.toNat < 0xc0)
    (hLow : a.toNat = 0xe0 → 0xa0 ≤ b.toNat) (hHigh : a.toNat = 0xed → b.toNat < 0xa0) :
    ∃ x : Char, String.utf8EncodeChar x = [a, b, c] := by
  obtain ⟨x, hx⟩ := exists_scalar
    (n := (a.toNat - 0xe0) * 4096 + (b.toNat - 0x80) * 64 + (c.toNat - 0x80)) (by omega)
  refine ⟨x, ?_⟩
  rw [encode_three (by omega) (by omega), byte_eq (a := a) (by omega), byte_eq (a := b) (by omega),
    byte_eq (a := c) (by omega)]

theorem exists_four {a b c d : UInt8} (ha : 0xf0 ≤ a.toNat) (ha' : a.toNat ≤ 0xf4)
    (hb : 0x80 ≤ b.toNat) (hb' : b.toNat < 0xc0) (hc : 0x80 ≤ c.toNat) (hc' : c.toNat < 0xc0)
    (hd : 0x80 ≤ d.toNat) (hd' : d.toNat < 0xc0)
    (hLow : a.toNat = 0xf0 → 0x90 ≤ b.toNat) (hHigh : a.toNat = 0xf4 → b.toNat < 0x90) :
    ∃ x : Char, String.utf8EncodeChar x = [a, b, c, d] := by
  obtain ⟨x, hx⟩ := exists_scalar
    (n := (a.toNat - 0xf0) * 262144 + (b.toNat - 0x80) * 4096 + (c.toNat - 0x80) * 64 +
      (d.toNat - 0x80)) (by omega)
  refine ⟨x, ?_⟩
  rw [encode_four (by omega), byte_eq (a := a) (by omega), byte_eq (a := b) (by omega),
    byte_eq (a := c) (by omega), byte_eq (a := d) (by omega)]

/-- The encodings of each length, with the values of their bytes. -/
theorem encode_cases (x : Char) :
    (∃ a : UInt8, String.utf8EncodeChar x = [a] ∧ a.toNat = x.val.toNat ∧ x.val.toNat ≤ 0x7f) ∨
    (∃ a b : UInt8, String.utf8EncodeChar x = [a, b] ∧ a.toNat = x.val.toNat / 64 + 0xc0 ∧
      b.toNat = x.val.toNat % 64 + 0x80 ∧ 0x7f < x.val.toNat ∧ x.val.toNat ≤ 0x7ff) ∨
    (∃ a b c : UInt8, String.utf8EncodeChar x = [a, b, c] ∧ a.toNat = x.val.toNat / 4096 + 0xe0 ∧
      b.toNat = x.val.toNat / 64 % 64 + 0x80 ∧ c.toNat = x.val.toNat % 64 + 0x80 ∧
      0x7ff < x.val.toNat ∧ x.val.toNat ≤ 0xffff) ∨
    (∃ a b c d : UInt8, String.utf8EncodeChar x = [a, b, c, d] ∧
      a.toNat = x.val.toNat / 262144 + 0xf0 ∧ b.toNat = x.val.toNat / 4096 % 64 + 0x80 ∧
      c.toNat = x.val.toNat / 64 % 64 + 0x80 ∧ d.toNat = x.val.toNat % 64 + 0x80 ∧
      0xffff < x.val.toNat) := by
  have hx := scalar_range x
  rcases Nat.lt_or_ge 0x7f x.val.toNat with h1 | h1
  · rcases Nat.lt_or_ge 0x7ff x.val.toNat with h2 | h2
    · rcases Nat.lt_or_ge 0xffff x.val.toNat with h3 | h3
      · refine Or.inr (Or.inr (Or.inr ⟨_, _, _, _, encode_four h3, ?_, ?_, ?_, ?_, h3⟩)) <;>
          exact toNat_ofNat_of_lt (by omega)
      · refine Or.inr (Or.inr (Or.inl ⟨_, _, _, encode_three h2 h3, ?_, ?_, ?_, h2, h3⟩)) <;>
          exact toNat_ofNat_of_lt (by omega)
    · refine Or.inr (Or.inl ⟨_, _, encode_two h1 h2, ?_, ?_, h1, h2⟩) <;>
        exact toNat_ofNat_of_lt (by omega)
  · exact Or.inl ⟨_, encode_one h1, toNat_ofNat_of_lt (by omega), h1⟩

/-- No encoding is a proper start of another: the first scalar value of an
encoded text is determined by its bytes. -/
theorem encodeChar_append_inj {c d : Char} {r s : List UInt8}
    (h : String.utf8EncodeChar c ++ r = String.utf8EncodeChar d ++ s) : c = d ∧ r = s := by
  have hArray := congrArg List.toByteArray h
  rw [List.toByteArray_append, List.toByteArray_append] at hArray
  have hc := ByteArray.utf8DecodeChar?_utf8EncodeChar_append (c := c) (b := r.toByteArray)
  have hd := ByteArray.utf8DecodeChar?_utf8EncodeChar_append (c := d) (b := s.toByteArray)
  rw [hArray, hd] at hc
  obtain rfl : c = d := (Option.some.inj hc).symm
  exact ⟨rfl, List.append_cancel_left h⟩

@[simp] theorem encode_nil : encode [] = [] := rfl

@[simp] theorem encode_cons (c : Char) (text : List Char) :
    encode (c :: text) = String.utf8EncodeChar c ++ encode text := rfl

@[simp] theorem encode_append (left right : List Char) :
    encode (left ++ right) = encode left ++ encode right := List.flatMap_append

/-- What remains of a valid text after some of its scalar values is valid. -/
theorem exists_rest_of_encode_eq {text left : List Char} {rest : List UInt8}
    (h : encode text = encode left ++ rest) :
    ∃ right, text = left ++ right ∧ rest = encode right := by
  induction left generalizing text with
  | nil => exact ⟨text, rfl, by simpa using h.symm⟩
  | cons c left ih =>
      cases text with
      | nil => simp at h
      | cons d text =>
          rw [encode_cons, encode_cons, List.append_assoc] at h
          obtain ⟨rfl, hRest⟩ := encodeChar_append_inj h
          obtain ⟨right, rfl, hRight⟩ := ih hRest
          exact ⟨right, rfl, hRight⟩

/-- Two valid starts of one byte string: one of them extends the other. -/
theorem encode_append_cases {left right : List Char} {r s : List UInt8}
    (h : encode left ++ r = encode right ++ s) :
    (∃ more, right = left ++ more ∧ r = encode more ++ s) ∨
      ∃ more, left = right ++ more ∧ s = encode more ++ r := by
  induction left generalizing right with
  | nil => exact Or.inl ⟨right, rfl, h⟩
  | cons c left ih =>
      cases right with
      | nil => exact Or.inr ⟨c :: left, rfl, h.symm⟩
      | cons d right =>
          rw [encode_cons, encode_cons, List.append_assoc, List.append_assoc] at h
          obtain ⟨rfl, hRest⟩ := encodeChar_append_inj h
          rcases ih hRest with ⟨more, rfl, hMore⟩ | ⟨more, rfl, hMore⟩
          · exact Or.inl ⟨more, rfl, hMore⟩
          · exact Or.inr ⟨more, rfl, hMore⟩

theorem encode_injective : Function.Injective encode := by
  intro left right h
  obtain ⟨rest, rfl, hRest⟩ := @exists_rest_of_encode_eq right left []
    (by simpa using h.symm)
  cases rest with
  | nil => simp
  | cons c rest => simp at hRest

end Utf8
