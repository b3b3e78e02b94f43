import MaelysJson.General.Lexicographic
import MaelysJson.Text.Utf16

/-! The key order of the canonical form, next to the order of the bytes. -/
namespace MaelysJson

open Lexicographic Utf8

/-! ### Two orders of scalar values -/

/-- One needs a surrogate pair and the other stands above the surrogates without one. -/
def Crossing (point point' : Nat) : Prop :=
  (0x10000 ≤ point ∧ 0xe000 ≤ point' ∧ point' ≤ 0xffff) ∨
    (0x10000 ≤ point' ∧ 0xe000 ≤ point ∧ point ≤ 0xffff)

instance (point point' : Nat) : Decidable (Crossing point point') :=
  inferInstanceAs (Decidable (_ ∨ _))

/-- How the code units of two scalar values compare. -/
def unitsPrecede (c d : Char) : Prop :=
  if Crossing c.val.toNat d.val.toNat then d.val.toNat < c.val.toNat else c.val.toNat < d.val.toNat

theorem codeUnits_ordered : OrderedBy (fun c : Char => codeUnits c.val.toNat) unitsPrecede := by
  refine ⟨fun c => codeUnits_ne_nil _, fun c => ?_, fun {c d} hDiffer l r => ?_⟩
  · unfold unitsPrecede
    split_ifs <;> exact lt_irrefl _
  · have hRange := scalar_range c
    have hRange' := scalar_range d
    have hPoints : c.val.toNat ≠ d.val.toNat := fun h => hDiffer (Char.ext (UInt32.toNat_inj.mp h))
    unfold unitsPrecede codeUnits
    by_cases hCrossing : Crossing c.val.toNat d.val.toNat
    all_goals
      simp only [hCrossing, if_true, if_false]
      unfold Crossing at hCrossing
      split_ifs <;> simp only [List.cons_append, List.nil_append, List.cons_lt_cons_iff] <;> omega

/-- The encodings of scalar values compare as the values. -/
theorem encodeChar_ordered :
    OrderedBy (fun c : Char => (String.utf8EncodeChar c).map UInt8.toNat) fun c d =>
      c.val.toNat < d.val.toNat := by
  refine ⟨fun c h => String.utf8EncodeChar_ne_nil (List.map_eq_nil_iff.mp h), fun c => lt_irrefl _,
    fun {c d} hDiffer l r => ?_⟩
  have hRange := scalar_range c
  have hRange' := scalar_range d
  have hPoints : c.val.toNat ≠ d.val.toNat := fun h => hDiffer (Char.ext (UInt32.toNat_inj.mp h))
  rcases encode_cases c with ⟨a, hCode, ha, hTop⟩ | ⟨a, b, hCode, ha, hb, hBottom, hTop⟩ |
    ⟨a, b, e, hCode, ha, hb, he, hBottom, hTop⟩ | ⟨a, b, e, f, hCode, ha, hb, he, hf, hBottom⟩ <;>
  rcases encode_cases d with
    ⟨a', hCode', ha', hTop'⟩ | ⟨a', b', hCode', ha', hb', hBottom', hTop'⟩ |
    ⟨a', b', e', hCode', ha', hb', he', hBottom', hTop'⟩ |
    ⟨a', b', e', f', hCode', ha', hb', he', hf', hBottom'⟩ <;>
  simp only [hCode, hCode', List.map_cons, List.map_nil, List.cons_append, List.nil_append,
    List.cons_lt_cons_iff] <;> omega

/-! ### Two orders of texts -/

/-- `memcmp` over the bytes, a proper prefix first. -/
def bytesCompare (left right : Bytes) : Int := signOf (left.map UInt8.toNat) (right.map UInt8.toNat)

/-- At the first scalar values that differ, the two orders disagree. -/
def CrossingAtDifference (points points' : List Nat) : Prop :=
  ∃ common point point' rest rest', points = common ++ point :: rest ∧
    points' = common ++ point' :: rest' ∧ Crossing point point'

theorem Crossing.ne {point point' : Nat} (h : Crossing point point') : point ≠ point' := by
  unfold Crossing at h
  omega

theorem crossingAtDifference_cons {point point' : Nat} {points points' : List Nat} :
    CrossingAtDifference (point :: points) (point' :: points') ↔
      if point = point' then CrossingAtDifference points points' else Crossing point point' := by
  split_ifs with hSame
  · subst hSame
    constructor
    · rintro ⟨common, a, b, rest, rest', hLeft, hRight, hCrossing⟩
      cases common with
      | nil =>
          simp only [List.nil_append, List.cons.injEq] at hLeft hRight
          exact absurd (hLeft.1.symm.trans hRight.1) hCrossing.ne
      | cons first common =>
          simp only [List.cons_append, List.cons.injEq] at hLeft hRight
          exact ⟨common, a, b, rest, rest', hLeft.2, hRight.2, hCrossing⟩
    · rintro ⟨common, a, b, rest, rest', rfl, rfl, hCrossing⟩
      exact ⟨point :: common, a, b, rest, rest', rfl, rfl, hCrossing⟩
  · constructor
    · rintro ⟨common, a, b, rest, rest', hLeft, hRight, hCrossing⟩
      cases common with
      | nil =>
          simp only [List.nil_append, List.cons.injEq] at hLeft hRight
          rwa [hLeft.1, hRight.1]
      | cons first common =>
          simp only [List.cons_append, List.cons.injEq] at hLeft hRight
          exact absurd (hLeft.1.trans hRight.1.symm) hSame
    · intro hCrossing
      exact ⟨[], point, point', points, points', rfl, rfl, hCrossing⟩

/-- The two orders agree unless they cross where the texts first differ. -/
theorem lex_agree_iff (text text' : List Char) :
    (List.Lex unitsPrecede text text' ↔
      List.Lex (fun c d : Char => c.val.toNat < d.val.toNat) text text') ↔
      ¬CrossingAtDifference (text.map (·.val.toNat)) (text'.map (·.val.toNat)) := by
  induction text generalizing text' with
  | nil =>
      have hNone : ¬CrossingAtDifference [] (text'.map (·.val.toNat)) := by
        rintro ⟨common, _, _, _, _, hLeft, -⟩
        cases common <;> cases hLeft
      refine ⟨fun _ => hNone, fun _ => ?_⟩
      cases text' with
      | nil => exact ⟨nofun, nofun⟩
      | cons d text' => exact ⟨fun _ => .nil, fun _ => .nil⟩
  | cons c text ih =>
      cases text' with
      | nil =>
          have hNone : ¬CrossingAtDifference ((c :: text).map (·.val.toNat)) [] := by
            rintro ⟨common, _, _, _, _, -, hRight, -⟩
            cases common <;> cases hRight
          exact ⟨fun _ => hNone, fun _ => ⟨nofun, nofun⟩⟩
      | cons d text' =>
          have hBytes := @lex_cons_iff _ _
            (fun c d : Char => c.val.toNat < d.val.toNat) c d text text' (lt_irrefl _)
          rw [List.map_cons, List.map_cons, lex_cons_iff (codeUnits_ordered.irrefl c), hBytes,
            crossingAtDifference_cons]
          by_cases hSame : c = d
          · subst hSame
            simp only [if_true, ih]
          · have hPoints : c.val.toNat ≠ d.val.toNat :=
              fun h => hSame (Char.ext (UInt32.toNat_inj.mp h))
            rw [if_neg hSame, if_neg hSame, if_neg hPoints, unitsPrecede]
            split_ifs with hCrossing
            · simp only [hCrossing, not_true_eq_false, iff_false]
              omega
            · simp only [hCrossing, not_false_eq_true]

/-! ### The comparison of keys -/

theorem signOf_eq_zero {left right : List Nat} : signOf left right = 0 ↔ left = right := by
  unfold signOf
  split_ifs with h h' <;> simp [h]

theorem signOf_swap (left right : List Nat) : signOf right left = -signOf left right := by
  unfold signOf
  rcases lt_trichotomy left right with hLess | rfl | hMore
  · simp [hLess.ne, hLess.ne', hLess, hLess.asymm]
  · simp
  · simp [hMore.ne, hMore.ne', hMore, hMore.asymm]

theorem signOf_eq_iff {left right left' right' : List Nat} (hSame : left = right ↔ left' = right') :
    signOf left right = signOf left' right' ↔ (left < right ↔ left' < right') := by
  unfold signOf
  by_cases hLeft : left = right
  · have hLeft' := hSame.mp hLeft
    subst hLeft hLeft'
    simp
  · have hLeft' : ¬left' = right' := fun h => hLeft (hSame.mpr h)
    rw [if_neg hLeft, if_neg hLeft']
    split_ifs with h h' h' <;> simp [h, h']

theorem encode_map_toNat (text : List Char) :
    (encode text).map UInt8.toNat = text.flatMap fun c =>
      (String.utf8EncodeChar c).map UInt8.toNat :=
  List.map_flatMap

/-- The comparison of validated keys is the order of their arrays of UTF-16 code units;
it differs from that of the bytes only at a crossing. -/
theorem utf16Compare_order {a b c : Bytes} (ha : utf8Validate a = true) (hb : utf8Validate b = true)
    (hc : utf8Validate c = true) :
    ((∀ point ∈ codePoints a, Scalar point) ∧ a = encodePoints (codePoints a) ∧
        utf16 a = (codePoints a).flatMap codeUnits) ∧
      utf16Compare a b = signOf (utf16 a) (utf16 b) ∧ (utf16Compare a b = 0 ↔ a = b) ∧
      utf16Compare b a = -utf16Compare a b ∧
      (utf16Compare a b ≤ 0 → utf16Compare b c ≤ 0 → utf16Compare a c ≤ 0) ∧
      (utf16Compare a b = bytesCompare a b ↔
        ¬CrossingAtDifference (codePoints a) (codePoints b)) := by
  rw [utf8Validate_iff] at ha hb hc
  rw [utf16Compare_eq ha hb, utf16Compare_eq hb ha, utf16Compare_eq hb hc, utf16Compare_eq ha hc,
    signOf_eq_zero, signOf_nonpos, signOf_nonpos, signOf_nonpos, not_lt, not_lt, not_lt]
  have hInjective : utf16 a = utf16 b ↔ a = b := ⟨utf16_injective ha hb, fun h => h ▸ rfl⟩
  refine ⟨?_, rfl, hInjective, signOf_swap _ _, le_trans, ?_⟩
  · obtain ⟨text, rfl⟩ := ha
    rw [codePoints_encode]
    exact ⟨(scalars_iff _).mpr ⟨text, rfl⟩, (encodePoints_text text).symm,
      by rw [utf16, codePoints_encode]⟩
  · have hBytes : a.map UInt8.toNat = b.map UInt8.toNat ↔ a = b :=
      (List.map_injective_iff.mpr fun _ _ => UInt8.toNat_inj.mp).eq_iff
    rw [bytesCompare, signOf_eq_iff (hInjective.trans hBytes.symm)]
    obtain ⟨text, rfl⟩ := ha
    obtain ⟨text', rfl⟩ := hb
    rw [utf16_encode, utf16_encode, codeUnits_ordered.flatMap_lt_iff, encode_map_toNat,
      encode_map_toNat, encodeChar_ordered.flatMap_lt_iff, codePoints_encode, codePoints_encode]
    exact lex_agree_iff text text'

/-- U+10000 and U+FFFF: the pair comes first among keys, and last among bytes. -/
theorem utf16Compare_order_crossing :
    utf16Compare [0xf0, 0x90, 0x80, 0x80] [0xef, 0xbf, 0xbf] ≠
      bytesCompare [0xf0, 0x90, 0x80, 0x80] [0xef, 0xbf, 0xbf] :=
  fun h => (@utf16Compare_order [0xf0, 0x90, 0x80, 0x80] [0xef, 0xbf, 0xbf] [] (by decide +kernel)
    (by decide +kernel) (by decide +kernel)).2.2.2.2.2.mp h ⟨[], 0x10000, 0xffff, [], [], by
      decide +kernel, by decide +kernel, by decide⟩

end MaelysJson
