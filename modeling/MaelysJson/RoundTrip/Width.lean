import MaelysJson.RoundTrip.Reference

/-! The canonical spelling is the shortest one that a parser accepts: of a literal, of a number and
of a whole value. -/
namespace MaelysJson

open Grammar Utf8

/-! ### The length of a spelling -/

/-- The length of the canonical spelling. Each member and each element stands with one byte more,
its separator or the end of the container; an empty container has its end alone. -/
def Tree.width : Json → Nat :=
  fold
    { object := fun members =>
        1 + max 1 (members.map fun m => (spellText m.1).length + 1 + m.2 + 1).sum
      array := fun elements => 1 + max 1 (elements.map (· + 1)).sum
      string := fun text => (spellText text).length
      number := List.length
      boolean := fun value => (spellBoolean value).length
      null := 4 }

namespace Tree

theorem width_object (members : List (Bytes × Json)) :
    (object members).width =
      1 + max 1 (members.map fun m => (spellText m.1).length + 1 + m.2.width + 1).sum := by
  simp only [width, fold_object, List.map_map]
  rfl

theorem width_array (elements : List Json) :
    (array elements).width = 1 + max 1 (elements.map fun v => v.width + 1).sum := by
  simp only [width, fold_array, List.map_map]
  rfl

end Tree

theorem length_plainEnclose (level : Nat) (opening closing : UInt8) (items : List Bytes) :
    (plainLayout.enclose level opening closing items).length =
      1 + max 1 (items.map fun item => item.length + 1).sum := by
  cases items with
  | nil => rfl
  | cons item items =>
      have hGap (level : Nat) : plainLayout.gap level = [] := rfl
      have hLength : (plainLayout.more level items).length =
          (items.map fun item => item.length + 1).sum := by
        rw [Layout.more, List.length_flatMap]
        refine congrArg List.sum (List.map_congr_left fun item _ => ?_)
        rw [hGap, List.nil_append, List.length_append, List.length_singleton, Nat.add_comm]
      rw [enclose_cons, hGap, hGap]
      simp only [List.length_append, List.length_singleton, List.length_nil, hLength, List.map_cons,
        List.sum_cons]
      omega

theorem Tree.length_spell (t : Json) (level : Nat) :
    (t.spell plainLayout level).length = t.width := by
  induction t using Tree.induct generalizing level with
  | object members ih =>
      rw [spell_object, length_plainEnclose, width_object, List.map_map]
      refine congrArg (fun sizes => 1 + max 1 (List.sum sizes)) (List.map_congr_left fun m hm => ?_)
      have hColon : plainLayout.colon.length = 1 := rfl
      simp only [Function.comp_apply, Layout.member, List.length_append, ← spellText_eq, hColon,
        ih m hm (level + 1)]
      omega
  | array elements ih =>
      rw [spell_array, length_plainEnclose, width_array, List.map_map]
      refine congrArg (fun sizes => 1 + max 1 (List.sum sizes)) (List.map_congr_left fun v hv => ?_)
      rw [Function.comp_apply, ih v hv (level + 1)]
  | string text => exact congrArg List.length (spellText_eq text).symm
  | number lexeme => rfl
  | boolean value => rfl
  | null => rfl

theorem Tree.Reordered.width {t t' : Json} (h : Reordered t t') : t.width = t'.width := by
  induction h with
  | refl t => rfl
  | trans _ _ ih ih' => exact ih.trans ih'
  | permute h => rw [width_object, width_object, (h.map _).sum_eq]
  | member _ ih => simp only [width_object, List.map_append, List.map_cons, ih]
  | element _ ih => simp only [width_array, List.map_append, List.map_cons, ih]

/-- Only the numbers are spelled differently. -/
theorem Tree.width_map_le {f : Bytes → Bytes} {OnText : Bytes → Prop} {t : Json}
    (h : t.Every OnText fun lexeme => (f lexeme).length ≤ lexeme.length) :
    (t.map f).width ≤ t.width := by
  induction t using Tree.induct with
  | object members ih =>
      rw [every_object] at h
      rw [map_object, width_object, width_object, List.map_map]
      have hSum : (members.map ((fun m => (spellText m.1).length + 1 + m.2.width + 1) ∘ fun m =>
          (m.1, m.2.map f))).sum ≤
              (members.map fun m => (spellText m.1).length + 1 + m.2.width + 1).sum := by
        refine List.sum_le_sum fun m hm => ?_
        have := ih m hm (h m hm).2
        simp only [Function.comp_apply]
        omega
      exact Nat.add_le_add_left (max_le_max le_rfl hSum) 1
  | array elements ih =>
      rw [every_array] at h
      rw [map_array, width_array, width_array, List.map_map]
      have hSum : (elements.map ((fun v : Json => v.width + 1) ∘ Tree.map f)).sum ≤
        (elements.map fun v => v.width + 1).sum :=
        List.sum_le_sum fun v hv => Nat.add_le_add_right (ih v hv (h v hv)) 1
      exact Nat.add_le_add_left (max_le_max le_rfl hSum) 1
  | string text => exact le_rfl
  | number lexeme => exact h
  | boolean value => exact le_rfl
  | null => exact le_rfl

theorem Tree.width_lastWins_le (t : Json) : t.lastWins.width ≤ t.width := by
  induction t using Tree.induct with
  | object members ih =>
      let size (m : Bytes × Json) : Nat := (spellText m.1).length + 1 + m.2.width + 1
      have hKept := ((lastOccurrences_sublist (members.map fun m => (m.1, m.2.lastWins))).map
        size).sum_le_sum fun _ _ => Nat.zero_le _
      have hSum : (members.map (size ∘ fun m => (m.1, m.2.lastWins))).sum ≤
          (members.map size).sum := by
        refine List.sum_le_sum fun m hm => ?_
        have := ih m hm
        simp only [Function.comp_apply, size]
        omega
      rw [List.map_map] at hKept
      rw [lastWins_object, width_object, width_object]
      exact Nat.add_le_add_left (max_le_max le_rfl (hKept.trans hSum)) 1
  | array elements ih =>
      rw [lastWins_array, width_array, width_array, List.map_map]
      have hSum : (elements.map ((fun v : Json => v.width + 1) ∘ Tree.lastWins)).sum ≤
        (elements.map fun v => v.width + 1).sum :=
        List.sum_le_sum fun v hv => Nat.add_le_add_right (ih v hv) 1
      exact Nat.add_le_add_left (max_le_max le_rfl hSum) 1
  | string text => exact le_rfl
  | number lexeme => exact le_rfl
  | boolean value => exact le_rfl
  | null => exact le_rfl

/-! ### Literals -/

theorem canonicalEscape_length_le (byte : UInt8) : (canonicalEscape byte).length ≤ 6 := by
  rcases canonicalEscape_cases byte with ⟨escape, -, hEscape⟩ | ⟨-, -, -, hEscape⟩ | hEscape
  · simp [hEscape]
  · simp [hEscape]
  · simp [hEscape, u16Escape]

/-- Unescaped characters stand as themselves. -/
theorem flatMap_canonicalEscape_unescaped {c : Char} (h : Unescaped c) :
    (String.utf8EncodeChar c).flatMap canonicalEscape = String.utf8EncodeChar c := by
  rw [List.flatMap_congr (g := fun byte => [byte]) ?_, List.flatMap_singleton']
  intro byte hByte
  rcases mem_encodeChar hByte with hHigh | ⟨hSame, -⟩
  · exact canonicalEscape_high hHigh
  · obtain ⟨hLow, hQuote, hSlash⟩ := h
    rw [← hSame] at hLow hQuote hSlash
    refine canonicalEscape_plain hLow ?_ ?_
    · rintro rfl
      exact hQuote rfl
    · rintro rfl
      exact hSlash rfl

/-- What a `\\uxxxx` can denote takes at most its six bytes. -/
theorem length_spelled_char (c : Char) :
    ((String.utf8EncodeChar c).flatMap canonicalEscape).length ≤ 6 := by
  by_cases hAscii : c.val.toNat < 0x80
  · rw [(encode_ascii hAscii).1, List.flatMap_singleton]
    exact canonicalEscape_length_le _
  · rw [flatMap_canonicalEscape_unescaped (unescaped_high (not_lt.mp hAscii))]
    exact (length_encodeChar_le c).1.trans (by decide)

/-- No spelling of a character is shorter than the canonical one. -/
theorem Grammar.StringUnit.length_spelled_le {unit decoded : Bytes}
    (h : StringUnit Unescaped unit decoded) :
    (decoded.flatMap canonicalEscape).length ≤ unit.length := by
  have hDigits {digits : Bytes} {unit : Nat} (hUnit : CodeUnit digits unit) :
      digits.length = 4 := by
    obtain ⟨a, b, c, d, p, q, r, s, rfl, -⟩ := hUnit
    rfl
  cases h with
  | scalar c raw => rw [flatMap_canonicalEscape_unescaped raw]
  | @simple escape byte hEscapes =>
      have hAll : ∀ e ∈ simpleEscapes, (canonicalEscape e.2).length ≤ 2 := by
        simp [simpleEscapes, canonicalEscape, shortEscape]
      rw [List.flatMap_singleton]
      exact hAll _ hEscapes
  | point c hUnit hNonzero =>
      have hSpelled := length_spelled_char c
      rw [List.length_append, hDigits hUnit]
      exact hSpelled
  | pair c hHigh hLow hHighRange hLowRange hValue =>
      have hSpelled := length_spelled_char c
      simp only [List.length_append, hDigits hHigh, hDigits hLow, List.length_cons, List.length_nil]
      omega

theorem Grammar.Content.length_spelled_le {profile : Profile} {content text : Bytes}
    (h : Content profile content text) :
    (spellText text).length ≤ (quoted content).length := by
  have hSpell : spellByte = canonicalEscape := funext spellByte_eq
  have hText : (text.flatMap canonicalEscape).length ≤ content.length := by
    rw [Content] at h
    split_ifs at h
    · obtain ⟨hPlain, rfl⟩ := h
      rw [List.flatMap_congr fun byte hByte => canonicalEscape_plainAscii (hPlain byte hByte),
        List.flatMap_singleton']
    · induction h with
      | nil => exact le_rfl
      | cons head tail ih =>
          have hHead := head.length_spelled_le
          rw [List.flatMap_append, List.length_append, List.length_append]
          omega
  rw [spellText, quoted, hSpell]
  simpa using hText

/-! ### Values -/

/-- No text is shorter than the canonical spelling of its value. -/
theorem Grammar.Value.width_le {profile : Profile} {body : Bytes} {t : Json}
    (h : Value profile body t) :
    t.width ≤ body.length := by
  induction t using Tree.induct generalizing body with
  | object members ih =>
      rw [Tree.width_object]
      cases h with
      | emptyObject hGap => simp
      | object hBefore hBody hAfter =>
          have hMembers := @Members.sum_separated_le _ _ _ (fun text => (spellText text).length + 1)
            Tree.width hBody (fun content text hContent => by
              have hLe := hContent.length_spelled_le
              simp only [quoted, List.length_append, List.length_singleton] at hLe
              omega) fun m hm body => ih m hm
          simp only [List.length_append, List.length_singleton]
          omega
  | array elements ih =>
      rw [Tree.width_array]
      cases h with
      | emptyArray hGap => simp
      | array hBefore hBody hAfter =>
          have hElements := hBody.sum_separated_le fun v hv body => ih v hv
          simp only [List.length_append, List.length_singleton]
          omega
  | string text =>
      cases h with
      | string hContent => exact hContent.length_spelled_le
  | number lexeme =>
      cases h
      exact le_rfl
  | boolean value => cases h <;> exact le_rfl
  | null =>
      cases h
      exact le_rfl

theorem Grammar.Text.width_le {profile : Profile} {bytes : Bytes} {t : Json}
    (h : Text profile bytes t) :
    t.width ≤ bytes.length := by
  obtain ⟨before, body, after, -, hValue, -, rfl⟩ := h
  have := hValue.width_le
  simp only [List.length_append]
  omega

/-- The length of the output without flags. -/
theorem length_outputOf (t : Json) : (outputOf 0 t).length = t.width := by
  have hTrailer : trailer 0 = [] := rfl
  have hLayout : flagsLayout 0 = plainLayout := rfl
  rw [outputOf, hTrailer, List.append_nil, hLayout, Tree.length_spell,
    ← (Tree.reordered_sorted t).width]

end MaelysJson
