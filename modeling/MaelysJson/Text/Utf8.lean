import MaelysJson.Code.Utf8
import MaelysJson.General.Utf8

/-! The UTF-8 functions of the code against the encoding of scalar values:
one round of the validator is one scalar value, the validator stops at the end
of the longest valid start, and the decoder inverts the encoder. -/
namespace MaelysJson

open Utf8

theorem continuation_eq (b : UInt8) :
    continuation b = decide (0x80 ≤ b.toNat ∧ b.toNat < 0xc0) := by
  have h : ∀ n : Fin 256, continuation (UInt8.ofFin n) =
      decide (0x80 ≤ (UInt8.ofFin n).toNat ∧ (UInt8.ofFin n).toNat < 0xc0) := by decide +kernel
  exact h b.toFin

theorem byteAt_drop (bytes : Bytes) (i k : Nat) :
    byteAt (bytes.drop i) k = byteAt bytes (i + k) := by
  simp [byteAt, List.getD_eq_getElem?_getD, List.getElem?_drop]

theorem utf8SequenceEnd_drop (bytes : Bytes) (i : Nat) :
    utf8SequenceEnd bytes i = (utf8SequenceEnd (bytes.drop i) 0).map (i + ·) := by
  have hLength : ∀ k, (k ≥ (bytes.drop i).length) = (i + k ≥ bytes.length) := by
    intro k
    rw [List.length_drop, ge_iff_le, ge_iff_le, eq_iff_iff]
    omega
  simp only [utf8SequenceEnd, byteAt_drop, hLength, Nat.zero_add, Nat.add_zero]
  split_ifs <;> rfl

theorem utf8SequenceEnd_encode (x : Char) (rest : Bytes) :
    utf8SequenceEnd (String.utf8EncodeChar x ++ rest) 0 =
      some (String.utf8EncodeChar x).length := by
  have hx := scalar_range x
  rcases encode_cases x with ⟨a, h, ha, _⟩ | ⟨a, b, h, ha, hb, _, _⟩ |
    ⟨a, b, c, h, ha, hb, hc, _, _⟩ | ⟨a, b, c, d, h, ha, hb, hc, hd, _⟩ <;> rw [h]
  all_goals
    simp only [utf8SequenceEnd, byteAt, List.cons_append, List.nil_append, List.getD_cons_zero,
      List.getD_cons_succ, continuation_eq, UInt8.le_iff_toNat_le, UInt8.lt_iff_toNat_lt,
      ← UInt8.toNat_inj, UInt8.reduceToNat, List.length_cons, List.length_nil,
      Nat.zero_add, ge_iff_le, Bool.not_eq_true', decide_eq_false_iff_not]
    split_ifs <;> first | rfl | omega

private theorem exists_cons_of_lt {α : Type} {l : List α} {n : Nat} (h : n < l.length) :
    ∃ a rest, l = a :: rest ∧ rest.length = l.length - 1 := by
  cases l with
  | nil => simp at h
  | cons a rest => exact ⟨a, rest, rfl, by simp⟩

theorem utf8SequenceEnd_sound {bytes : Bytes} {n : Nat} (hBytes : bytes ≠ [])
    (h : utf8SequenceEnd bytes 0 = some n) :
    ∃ x : Char, ∃ rest, bytes = String.utf8EncodeChar x ++ rest ∧
      (String.utf8EncodeChar x).length = n := by
  obtain ⟨a, tail, rfl⟩ := List.exists_cons_of_ne_nil hBytes
  simp only [utf8SequenceEnd, byteAt, List.getD_cons_zero,
      continuation_eq, UInt8.le_iff_toNat_le, UInt8.lt_iff_toNat_lt,
      ← UInt8.toNat_inj, UInt8.reduceToNat, Nat.zero_add, ge_iff_le,
      Bool.not_eq_true', decide_eq_false_iff_not, List.length_cons, List.getD_cons_succ] at h
  split_ifs at h with h1 h2 h3 h4 h5 h6 h7 h8 h9
  · obtain ⟨x, hx⟩ := exists_scalar (n := a.toNat) (by omega)
    refine ⟨x, tail, ?_, ?_⟩ <;> rw [encode_one (by omega), byte_eq hx.symm] <;> simp_all
  · obtain ⟨b, rest, rfl, _⟩ := exists_cons_of_lt (l := tail) (n := 0) (by omega)
    obtain ⟨x, hx⟩ := exists_two (a := a) (b := b) (by omega) (by omega)
      (by simp at h3; omega) (by simp at h3; omega)
    exact ⟨x, rest, by rw [hx]; rfl, by rw [hx]; simpa using h⟩
  · obtain ⟨b, rest, rfl, h₁⟩ := exists_cons_of_lt (l := tail) (n := 0) (by omega)
    obtain ⟨c, rest, rfl, _⟩ := exists_cons_of_lt (l := rest) (n := 0) (by omega)
    simp only [List.getD_cons_zero, List.getD_cons_succ, not_or, not_not] at h5 h6
    obtain ⟨x, hx⟩ := exists_three (a := a) (b := b) (c := c) (by omega) (by omega) (by omega)
      (by omega) (by omega) (by omega) (by omega) (by omega)
    exact ⟨x, rest, by rw [hx]; rfl, by rw [hx]; simpa using h⟩
  · obtain ⟨b, rest, rfl, h₁⟩ := exists_cons_of_lt (l := tail) (n := 0) (by omega)
    obtain ⟨c, rest, rfl, h₂⟩ := exists_cons_of_lt (l := rest) (n := 0) (by omega)
    obtain ⟨d, rest, rfl, _⟩ := exists_cons_of_lt (l := rest) (n := 0) (by omega)
    simp only [List.getD_cons_zero, List.getD_cons_succ, not_or, not_not] at h8 h9
    obtain ⟨x, hx⟩ := exists_four (a := a) (b := b) (c := c) (d := d) (by omega)
      (by omega) (by omega) (by omega) (by omega) (by omega) (by omega) (by omega)
      (by omega) (by omega)
    exact ⟨x, rest, by rw [hx]; rfl, by rw [hx]; simpa using h⟩

theorem utf8Decode_encode (x : Char) (rest : Bytes) :
    utf8Decode (String.utf8EncodeChar x ++ rest) =
      ((String.utf8EncodeChar x).length, x.val.toNat) := by
  have hx := scalar_range x
  have hOr (a b i : Nat) (hb : b < 2 ^ i) : a <<< i ||| b = a * 2 ^ i + b := by
    rw [← Nat.shiftLeft_add_eq_or_of_lt hb, Nat.shiftLeft_eq]
  have h3f (n : Nat) : n &&& 0x3f = n % 64 := Nat.and_two_pow_sub_one_eq_mod n 6
  have h1f (n : Nat) : n &&& 0x1f = n % 32 := Nat.and_two_pow_sub_one_eq_mod n 5
  have h0f (n : Nat) : n &&& 0x0f = n % 16 := Nat.and_two_pow_sub_one_eq_mod n 4
  have h07 (n : Nat) : n &&& 0x07 = n % 8 := Nat.and_two_pow_sub_one_eq_mod n 3
  rcases encode_cases x with ⟨a, h, ha, _⟩ | ⟨a, b, h, ha, hb, _, _⟩ |
    ⟨a, b, c, h, ha, hb, hc, _, _⟩ | ⟨a, b, c, d, h, ha, hb, hc, hd, _⟩ <;> rw [h]
  all_goals
    simp only [utf8Decode, byteAt, List.cons_append, List.nil_append, List.getD_cons_zero,
      List.getD_cons_succ, h3f, h1f, h0f, h07, List.length_cons, List.length_nil, Nat.zero_add]
  · rw [if_pos (by omega), ha]
  · rw [if_neg (by omega), if_pos (by omega), hOr _ _ 6 (by omega)]
    simp only [Prod.mk.injEq, true_and]
    omega
  · rw [if_neg (by omega), if_neg (by omega), if_pos (by omega), Nat.or_assoc,
      hOr _ _ 6 (by omega), hOr _ _ 12 (by omega)]
    simp only [Prod.mk.injEq, true_and]
    omega
  · rw [if_neg (by omega), if_neg (by omega), if_neg (by omega), Nat.or_assoc, Nat.or_assoc,
      hOr _ _ 6 (by omega), hOr _ _ 12 (by omega), hOr _ _ 18 (by omega)]
    simp only [Prod.mk.injEq, true_and]
    omega

theorem encodeUtf8_eq (x : Char) : encodeUtf8 x.val.toNat = String.utf8EncodeChar x := by
  have hx := scalar_range x
  have h3f (n : Nat) : n &&& 0x3f = n % 64 := Nat.and_two_pow_sub_one_eq_mod n 6
  have hShift (n i : Nat) : n >>> i = n / 2 ^ i := Nat.shiftRight_eq_div_pow n i
  have hOr (a b i : Nat) (hb : b < 2 ^ i) : a * 2 ^ i ||| b = b + a * 2 ^ i := by
    rw [← Nat.shiftLeft_eq, ← Nat.shiftLeft_add_eq_or_of_lt hb, Nat.add_comm]
  have h80 (n : Nat) (h : n < 64) : 0x80 ||| n = n + 0x80 := hOr 2 n 6 h
  have hc0 (n : Nat) (h : n < 32) : 0xc0 ||| n = n + 0xc0 := hOr 3 n 6 (by omega)
  have he0 (n : Nat) (h : n < 16) : 0xe0 ||| n = n + 0xe0 := hOr 14 n 4 h
  have hf0 (n : Nat) (h : n < 8) : 0xf0 ||| n = n + 0xf0 := hOr 30 n 3 h
  simp only [encodeUtf8, h3f, hShift, Nat.reducePow]
  split_ifs with h1 h2 h3
  · rw [encode_one h1]
  · rw [encode_two (by omega) h2, hc0 _ (by omega), h80 _ (by omega)]
  · rw [encode_three (by omega) h3, he0 _ (by omega), h80 _ (by omega), h80 _ (by omega)]
  · rw [encode_four (by omega), hf0 _ (by omega), h80 _ (by omega), h80 _ (by omega),
      h80 _ (by omega)]

/-- One round of the validator accepts exactly one encoded scalar value. -/
theorem utf8SequenceEnd_iff {bytes : Bytes} {i next : Nat} (hi : i < bytes.length) :
    utf8SequenceEnd bytes i = some next ↔
      ∃ x : Char, bytes.drop i = String.utf8EncodeChar x ++ bytes.drop next ∧
        next = i + (String.utf8EncodeChar x).length := by
  rw [utf8SequenceEnd_drop]
  constructor
  · intro h
    obtain ⟨n, hn, rfl⟩ := Option.map_eq_some_iff.mp h
    obtain ⟨x, rest, hRest, rfl⟩ := utf8SequenceEnd_sound (by simpa using hi) hn
    refine ⟨x, ?_, rfl⟩
    rw [← List.drop_drop, hRest, List.drop_left]
  · rintro ⟨x, hx, rfl⟩
    rw [hx, utf8SequenceEnd_encode]
    rfl

/-- Where the loop of the validator stops: after a valid text, at the end of
the bytes or before a sequence it refuses. -/
theorem utf8ValidPrefixFrom_spec (bytes : Bytes) (rounds i : Nat) (hi : i ≤ bytes.length)
    (hRounds : bytes.length < rounds + i) :
    ∃ text, bytes.drop i = encode text ++ bytes.drop (utf8ValidPrefixFrom bytes rounds i) ∧
      utf8ValidPrefixFrom bytes rounds i = i + (encode text).length ∧
      (utf8ValidPrefixFrom bytes rounds i = bytes.length ∨
        utf8SequenceEnd bytes (utf8ValidPrefixFrom bytes rounds i) = none) := by
  induction rounds generalizing i with
  | zero => omega
  | succ rounds ih =>
      rw [utf8ValidPrefixFrom]
      split_ifs with hEnd
      · cases hNext : utf8SequenceEnd bytes i with
        | none => exact ⟨[], by simp, by simp, Or.inr hNext⟩
        | some next =>
            obtain ⟨x, hx, hNextEq⟩ := (utf8SequenceEnd_iff hEnd).mp hNext
            have hPos : 0 < (String.utf8EncodeChar x).length :=
              List.length_pos_of_ne_nil String.utf8EncodeChar_ne_nil
            have hLength := congrArg List.length hx
            simp only [List.length_drop, List.length_append] at hLength
            obtain ⟨text, hText, hStop, hLast⟩ := ih next (by omega) (by omega)
            refine ⟨x :: text, ?_, ?_, hLast⟩
            · rw [hx, hText, encode_cons, List.append_assoc]
            · simp only [encode_cons, List.length_append]
              omega
      · obtain rfl : i = bytes.length := by omega
        exact ⟨[], by simp, by simp, Or.inl rfl⟩

/-- The validator returns the end of a valid text that no longer one extends. -/
theorem utf8ValidPrefix_spec (bytes : Bytes) :
    ∃ text, bytes = encode text ++ bytes.drop (utf8ValidPrefix bytes) ∧
      utf8ValidPrefix bytes = (encode text).length ∧
      (utf8ValidPrefix bytes = bytes.length ∨
        utf8SequenceEnd bytes (utf8ValidPrefix bytes) = none) := by
  obtain ⟨text, hText, hStop, hLast⟩ :=
    utf8ValidPrefixFrom_spec bytes (bytes.length + 1) 0 (by omega) (by omega)
  exact ⟨text, by simpa [utf8ValidPrefix] using hText,
    by simpa [utf8ValidPrefix] using hStop, hLast⟩

theorem utf8ValidPrefix_eq_length_iff (bytes : Bytes) :
    utf8ValidPrefix bytes = bytes.length ↔ Valid bytes := by
  obtain ⟨text, hText, hStop, hLast⟩ := utf8ValidPrefix_spec bytes
  constructor
  · intro h
    refine ⟨text, ?_⟩
    rw [h, List.drop_length, List.append_nil] at hText
    exact hText
  · rintro ⟨whole, hWhole⟩
    rcases hLast with hLast | hLast
    · exact hLast
    · obtain ⟨rest, -, hRest⟩ := exists_rest_of_encode_eq (hWhole.symm.trans hText)
      by_contra hne
      have hLength := congrArg List.length hText
      simp only [List.length_append, List.length_drop] at hLength
      cases rest with
      | nil =>
          have hNil := congrArg List.length hRest
          simp only [List.length_drop, encode_nil, List.length_nil] at hNil
          omega
      | cons x rest =>
          have hLt : utf8ValidPrefix bytes < bytes.length := by omega
          have hSome := (utf8SequenceEnd_iff hLt).mpr
            ⟨x, by rw [← List.drop_drop, hRest, encode_cons, List.drop_left], rfl⟩
          rw [hLast] at hSome
          cases hSome

theorem utf8Validate_iff (bytes : Bytes) : utf8Validate bytes = true ↔ Valid bytes := by
  rw [utf8Validate, beq_iff_eq, utf8ValidPrefix_eq_length_iff]

/-! ### Code points -/

/-- A Unicode scalar value: a code point that is no surrogate. -/
def Scalar (point : Nat) : Prop := point ≤ 0x10ffff ∧ ¬(0xd800 ≤ point ∧ point ≤ 0xdfff)

def encodePoints (points : List Nat) : Bytes := points.flatMap encodeUtf8

/-- Decoding until nothing is left, as long as no sequence passes the end. -/
def decodePoints : Nat → Bytes → Option (List Nat)
  | 0, bytes => if bytes = [] then some [] else none
  | rounds + 1, bytes =>
      if bytes = [] then some []
      else
        let (length, point) := utf8Decode bytes
        if length ≤ bytes.length then (decodePoints rounds (bytes.drop length)).map (point :: ·)
        else none

theorem scalar_iff (point : Nat) : Scalar point ↔ ∃ c : Char, c.val.toNat = point := by
  constructor
  · rintro ⟨hMax, hSurrogate⟩
    exact exists_scalar (by omega)
  · rintro ⟨c, rfl⟩
    have := scalar_range c
    exact ⟨by omega, by omega⟩

/-- The scalar values of a text are the lists of scalar code points. -/
theorem scalars_iff (points : List Nat) :
    (∀ point ∈ points, Scalar point) ↔ ∃ text : List Char, text.map (·.val.toNat) = points := by
  constructor
  · intro h
    induction points with
    | nil => exact ⟨[], rfl⟩
    | cons point points ih =>
        obtain ⟨c, rfl⟩ := (scalar_iff point).mp (h _ List.mem_cons_self)
        obtain ⟨text, rfl⟩ := ih fun p hp => h p (List.mem_cons_of_mem _ hp)
        exact ⟨c :: text, rfl⟩
  · rintro ⟨text, rfl⟩ point hPoint
    obtain ⟨c, -, rfl⟩ := List.mem_map.mp hPoint
    exact (scalar_iff _).mpr ⟨c, rfl⟩

theorem encodePoints_text (text : List Char) :
    encodePoints (text.map (·.val.toNat)) = encode text := by
  rw [encodePoints, List.flatMap_map, encode]
  exact List.flatMap_congr fun c _ => encodeUtf8_eq c

/-- The decoder takes an encoded text apart, one scalar value a call. -/
theorem decodePoints_encode (text : List Char) (rounds : Nat) (hRounds : text.length ≤ rounds) :
    decodePoints rounds (encode text) = some (text.map (·.val.toNat)) := by
  induction text generalizing rounds with
  | nil => cases rounds <;> rfl
  | cons c text ih =>
      obtain ⟨rounds, rfl⟩ : ∃ n, rounds = n + 1 := by
        rw [List.length_cons] at hRounds
        exact ⟨rounds - 1, by omega⟩
      have hNonempty : encode (c :: text) ≠ [] := by simp [encode_cons]
      rw [decodePoints, if_neg hNonempty, encode_cons, utf8Decode_encode]
      simp only [List.length_append, Nat.le_add_right, if_true, List.drop_left]
      rw [ih rounds (by simpa using hRounds)]
      rfl

theorem length_le_encode (text : List Char) : text.length ≤ (encode text).length := by
  induction text with
  | nil => exact Nat.zero_le _
  | cons c text ih =>
      have hPos : 0 < (String.utf8EncodeChar c).length :=
        List.length_pos_of_ne_nil String.utf8EncodeChar_ne_nil
      rw [encode_cons, List.length_append, List.length_cons]
      omega

/-- Nothing valid reaches further than the validator does. -/
theorem encode_le_utf8ValidPrefix {bytes rest : Bytes} {text : List Char}
    (h : bytes = encode text ++ rest) : (encode text).length ≤ utf8ValidPrefix bytes := by
  obtain ⟨found, hFound, hStop, hLast⟩ := utf8ValidPrefix_spec bytes
  rcases encode_append_cases (h.symm.trans hFound) with ⟨more, rfl, -⟩ | ⟨more, rfl, hMore⟩
  · rw [hStop, encode_append, List.length_append]
    omega
  · cases more with
    | nil => rw [List.append_nil, hStop]
    | cons x more =>
        -- the validator would have gone on over `x`
        rw [encode_cons, List.append_assoc] at hMore
        have hPos : 0 < (String.utf8EncodeChar x).length :=
          List.length_pos_of_ne_nil String.utf8EncodeChar_ne_nil
        have hLength := congrArg List.length hMore
        rw [List.length_drop, List.length_append] at hLength
        have hSome := (utf8SequenceEnd_iff (show utf8ValidPrefix bytes < bytes.length by omega)).mpr
          ⟨x, by rw [← List.drop_drop, hMore, List.drop_left], rfl⟩
        rcases hLast with hLast | hLast
        · omega
        · rw [hLast] at hSome
          cases hSome

/-- The validator stops at the end of the longest start that encodes scalar
values; it accepts exactly the encodings; an encoding determines its scalar
values, and the decoder returns them without reading past the end. -/
theorem utf8_scalars (bytes : Bytes) :
    IsGreatest {n | ∃ points, (∀ point ∈ points, Scalar point) ∧ encodePoints points <+: bytes ∧
      n = (encodePoints points).length} (utf8ValidPrefix bytes) ∧
    (utf8Validate bytes = true ↔
      ∃ points, (∀ point ∈ points, Scalar point) ∧ bytes = encodePoints points) ∧
    (utf8Validate bytes = true →
      ∃! points, (∀ point ∈ points, Scalar point) ∧ bytes = encodePoints points) ∧
    ∀ points, (∀ point ∈ points, Scalar point) → bytes = encodePoints points →
      decodePoints bytes.length bytes = some points := by
  have hAccepts : utf8Validate bytes = true ↔
      ∃ points, (∀ point ∈ points, Scalar point) ∧ bytes = encodePoints points := by
    rw [utf8Validate_iff]
    constructor
    · rintro ⟨text, rfl⟩
      exact ⟨_, (scalars_iff _).mpr ⟨text, rfl⟩, (encodePoints_text text).symm⟩
    · rintro ⟨points, hPoints, rfl⟩
      obtain ⟨text, rfl⟩ := (scalars_iff points).mp hPoints
      exact ⟨text, encodePoints_text text⟩
  refine ⟨⟨?_, ?_⟩, hAccepts, fun h => ?_, fun points hPoints hBytes => ?_⟩
  · obtain ⟨text, hText, hStop, -⟩ := utf8ValidPrefix_spec bytes
    refine ⟨_, (scalars_iff _).mpr ⟨text, rfl⟩, ?_, ?_⟩ <;> rw [encodePoints_text]
    · exact ⟨_, hText.symm⟩
    · exact hStop
  · rintro _ ⟨points, hPoints, ⟨rest, hRest⟩, rfl⟩
    obtain ⟨text, rfl⟩ := (scalars_iff points).mp hPoints
    rw [encodePoints_text] at hRest ⊢
    exact encode_le_utf8ValidPrefix hRest.symm
  · obtain ⟨points, hPoints, hBytes⟩ := hAccepts.mp h
    refine ⟨points, ⟨hPoints, hBytes⟩, ?_⟩
    rintro points' ⟨hPoints', hBytes'⟩
    obtain ⟨text, rfl⟩ := (scalars_iff points).mp hPoints
    obtain ⟨text', rfl⟩ := (scalars_iff points').mp hPoints'
    rw [encodePoints_text] at hBytes hBytes'
    rw [encode_injective (hBytes'.symm.trans hBytes)]
  · obtain ⟨text, rfl⟩ := (scalars_iff points).mp hPoints
    rw [encodePoints_text] at hBytes
    have hLength := length_le_encode text
    rw [hBytes]
    exact decodePoints_encode text _ hLength

end MaelysJson
