import MaelysJson.Text.Utf8

/-! Keys as arrays of UTF-16 code units, and their comparison by two cursors: it is the
lexicographic order of the arrays. -/
namespace MaelysJson

open Utf8

/-- The scalar values of a valid text. -/
def codePoints (bytes : Bytes) : List Nat := (decodePoints bytes.length bytes).getD []

/-- The UTF-16 code units of a scalar value. -/
def codeUnits (point : Nat) : List Nat :=
  if point ≥ 0x10000 then [0xd800 + (point - 0x10000) / 1024, 0xdc00 + (point - 0x10000) % 1024]
  else [point]

/-- A text as an array of UTF-16 code units. -/
def utf16 (bytes : Bytes) : List Nat := (codePoints bytes).flatMap codeUnits

theorem codePoints_encode (text : List Char) :
    codePoints (encode text) = text.map (·.val.toNat) := by
  rw [codePoints, decodePoints_encode text _ (length_le_encode text)]
  rfl

theorem utf16_encode (text : List Char) :
    utf16 (encode text) = text.flatMap fun c => codeUnits c.val.toNat := by
  rw [utf16, codePoints_encode, List.flatMap_map]

theorem utf16_cons (c : Char) (text : List Char) :
    utf16 (encode (c :: text)) = codeUnits c.val.toNat ++ utf16 (encode text) := by
  rw [utf16_encode, utf16_encode, List.flatMap_cons]

/-! ### Units determine the text -/

theorem codeUnits_append_inj {c d : Char} {left right : List Nat}
    (h : codeUnits c.val.toNat ++ left = codeUnits d.val.toNat ++ right) :
    c = d ∧ left = right := by
  have hRange := scalar_range c
  have hRange' := scalar_range d
  suffices hSame : c.val.toNat = d.val.toNat ∧ left = right by
    refine ⟨?_, hSame.2⟩
    exact Char.ext (UInt32.toNat_inj.mp hSame.1)
  unfold codeUnits at h
  split_ifs at h
  · simp only [List.cons_append, List.nil_append, List.cons.injEq] at h
    exact ⟨by omega, h.2.2⟩
  · simp only [List.cons_append, List.nil_append, List.cons.injEq] at h
    omega
  · simp only [List.cons_append, List.nil_append, List.cons.injEq] at h
    omega
  · simpa only [List.cons_append, List.nil_append, List.cons.injEq] using h

theorem codeUnits_ne_nil (point : Nat) : codeUnits point ≠ [] := by
  unfold codeUnits
  split_ifs <;> nofun

/-- Two valid texts with the same code units are the same. -/
theorem utf16_injective {left right : Bytes} (hLeft : Valid left) (hRight : Valid right)
    (h : utf16 left = utf16 right) : left = right := by
  obtain ⟨text, rfl⟩ := hLeft
  obtain ⟨text', rfl⟩ := hRight
  induction text generalizing text' with
  | nil =>
      cases text' with
      | nil => rfl
      | cons c text' =>
          rw [utf16_cons] at h
          exact absurd (List.append_eq_nil_iff.mp h.symm).1 (codeUnits_ne_nil _)
  | cons c text ih =>
      cases text' with
      | nil =>
          rw [utf16_cons] at h
          exact absurd (List.append_eq_nil_iff.mp h).1 (codeUnits_ne_nil _)
      | cons d text' =>
          rw [utf16_cons, utf16_cons] at h
          obtain ⟨rfl, hRest⟩ := codeUnits_append_inj h
          rw [encode_cons, encode_cons, ih text' hRest]

theorem length_codeUnits_le (c : Char) :
    (codeUnits c.val.toNat).length ≤ (String.utf8EncodeChar c).length := by
  unfold codeUnits
  split_ifs with h
  · rw [encode_four (by omega)]
    simp
  · exact List.length_pos_of_ne_nil String.utf8EncodeChar_ne_nil

theorem length_utf16_le {bytes : Bytes} (h : Valid bytes) :
    (utf16 bytes).length ≤ bytes.length := by
  obtain ⟨text, rfl⟩ := h
  induction text with
  | nil => exact Nat.zero_le _
  | cons c text ih =>
      rw [utf16_cons, encode_cons, List.length_append, List.length_append]
      exact Nat.add_le_add (length_codeUnits_le c) ih

/-! ### Cursors -/

/-- The cursor has these units still to give. -/
def Utf16Cursor.Gives (cursor : Utf16Cursor) (units : List Nat) : Prop :=
  ∃ text, cursor.bytes.drop cursor.offset = encode text ∧
    units = (if cursor.pendingLowSurrogate ≠ 0 then [cursor.pendingLowSurrogate] else []) ++
    utf16 (encode text)

theorem gives_start {bytes : Bytes} (h : Valid bytes) :
    Utf16Cursor.Gives ⟨bytes, 0, 0⟩ (utf16 bytes) := by
  obtain ⟨text, rfl⟩ := h
  exact ⟨text, rfl, rfl⟩

/-- What one call gives: the first of the units, if there is one. -/
def Utf16Cursor.Next (cursor : Utf16Cursor) : List Nat → Prop
  | [] => utf16Next cursor = none
  | unit :: units => ∃ next, utf16Next cursor = some (unit, next) ∧ next.Gives units

theorem Utf16Cursor.Gives.next {cursor : Utf16Cursor} {units : List Nat} (h : cursor.Gives units) :
    cursor.Next units := by
  obtain ⟨text, hText, rfl⟩ := h
  by_cases hPending : cursor.pendingLowSurrogate ≠ 0
  · rw [if_pos hPending]
    exact ⟨_, if_pos hPending, text, hText, rfl⟩
  rw [if_neg hPending, List.nil_append]
  cases text with
  | nil =>
      have hEnd : cursor.offset ≥ cursor.bytes.length := List.drop_eq_nil_iff.mp hText
      rw [show utf16 (encode []) = [] from rfl]
      exact (if_neg hPending).trans (if_pos hEnd)
  | cons c text =>
      have hEnd : ¬cursor.offset ≥ cursor.bytes.length := by
        intro hEnd
        rw [List.drop_eq_nil_iff.mpr hEnd, encode_cons] at hText
        exact absurd (List.append_eq_nil_iff.mp hText.symm).1 String.utf8EncodeChar_ne_nil
      have hRest : cursor.bytes.drop (cursor.offset + (String.utf8EncodeChar c).length) =
          encode text := by
        rw [← List.drop_drop, hText, encode_cons, List.drop_left]
      have hDecode : utf8Decode (cursor.bytes.drop cursor.offset) =
          ((String.utf8EncodeChar c).length, c.val.toNat) := by
            rw [hText, encode_cons, utf8Decode_encode]
      have hNext : utf16Next cursor =
          if c.val.toNat ≥ 0x10000 then
            some (0xd800 + (c.val.toNat - 0x10000) >>> 10,
              { cursor with
                offset := cursor.offset + (String.utf8EncodeChar c).length
                pendingLowSurrogate := 0xdc00 + ((c.val.toNat - 0x10000) &&& 0x3ff) })
          else some (c.val.toNat,
              { cursor with offset := cursor.offset + (String.utf8EncodeChar c).length }) := by
        rw [utf16Next, if_neg hPending, if_neg hEnd, hDecode]
      have hLow : (c.val.toNat - 0x10000) &&& 0x3ff = (c.val.toNat - 0x10000) % 1024 :=
        Nat.and_two_pow_sub_one_eq_mod _ 10
      rw [Nat.shiftRight_eq_div_pow, hLow] at hNext
      rw [utf16_cons, codeUnits]
      by_cases hHigh : c.val.toNat ≥ 0x10000
      · rw [if_pos hHigh] at hNext ⊢
        refine ⟨_, hNext, text, hRest, ?_⟩
        rw [if_pos (by simp)]
        rfl
      · rw [if_neg hHigh] at hNext ⊢
        refine ⟨_, hNext, text, hRest, ?_⟩
        rw [if_neg hPending]
        rfl

/-! ### Comparison -/

/-- The three outcomes of a comparison. -/
def signOf (left right : List Nat) : Int :=
  if left = right then 0 else if left < right then -1 else 1

theorem utf16CompareFrom_eq {rounds : Nat} {a b : Utf16Cursor} {left right : List Nat}
    (ha : a.Gives left) (hb : b.Gives right) (hRounds : left.length < rounds) :
    utf16CompareFrom rounds a b = signOf left right := by
  induction rounds generalizing a b left right with
  | zero => exact absurd hRounds (Nat.not_lt_zero _)
  | succ rounds ih =>
      have hNextA := ha.next
      have hNextB := hb.next
      cases left with
      | nil =>
          cases right with
          | nil => rw [utf16CompareFrom, hNextA, hNextB]; rfl
          | cons unit right =>
              obtain ⟨next, hNext, -⟩ := hNextB
              rw [utf16CompareFrom, hNextA, hNext, signOf, if_neg nofun,
                if_pos (List.nil_lt_cons _ _)]
      | cons unit left =>
          obtain ⟨next, hNext, hGives⟩ := hNextA
          cases right with
          | nil =>
              rw [utf16CompareFrom, hNext, hNextB, signOf, if_neg nofun, if_neg (List.not_lt_nil _)]
          | cons unit' right =>
              obtain ⟨next', hNext', hGives'⟩ := hNextB
              rw [utf16CompareFrom, hNext, hNext']
              by_cases hUnit : unit = unit'
              · subst hUnit
                have hRest := ih hGives hGives' (Nat.lt_of_succ_lt_succ hRounds)
                simp only [ne_eq, not_true_eq_false, if_false, hRest, signOf,
                  List.cons.injEq, true_and, List.cons_lt_cons_self]
              · simp only [ne_eq, hUnit, not_false_eq_true, if_true, signOf, List.cons.injEq,
                  false_and, if_false, List.cons_lt_cons_iff, or_false]

/-- The comparison of two valid keys is that of their arrays of code units. -/
theorem utf16Compare_eq {left right : Bytes} (hLeft : Valid left) (hRight : Valid right) :
    utf16Compare left right = signOf (utf16 left) (utf16 right) :=
  utf16CompareFrom_eq (gives_start hLeft) (gives_start hRight)
    (Nat.lt_succ_of_le (length_utf16_le hLeft))

theorem signOf_nonpos {left right : List Nat} : signOf left right ≤ 0 ↔ ¬right < left := by
  unfold signOf
  rcases lt_trichotomy left right with hLess | rfl | hMore
  · simp [hLess.ne, hLess, hLess.asymm]
  · simp
  · simp [hMore.ne', hMore, hMore.asymm]

end MaelysJson
