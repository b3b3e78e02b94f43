import MaelysJson.Serializing.Finish
import MaelysJson.Text.Decimal

/-! What the writer spells is a text of its own profile, and it denotes the value that was
spelled: the two tables of escapes are inverse to each other, in every layout. -/
namespace MaelysJson

open Grammar Utf8

/-! ### Escapes -/

theorem hexDigit_spec {value : Nat} (h : value < 16) : HexDigit (hexDigit value) value := by
  have hAll : ∀ value : Fin 16, hexValue (hexDigit value) = some value.val := by decide
  exact (hexValue_iff _ _).mp (hAll ⟨value, h⟩)

/-- The digits of an escape spell its code unit. -/
theorem u16Escape_codeUnit {unit : Nat} (h : unit < 0x10000) :
    ∃ digits, u16Escape unit = [0x5c, 0x75] ++ digits ∧ CodeUnit digits unit := by
  refine ⟨[hexDigit (unit / 4096 % 16), hexDigit (unit / 256 % 16), hexDigit (unit / 16 % 16),
    hexDigit (unit % 16)], rfl, _, _, _, _, unit / 4096 % 16, unit / 256 % 16, unit / 16 % 16,
    unit % 16, rfl, ?_, ?_, ?_, ?_, by omega⟩
  · exact hexDigit_spec (Nat.mod_lt _ (by decide))
  · exact hexDigit_spec (Nat.mod_lt _ (by decide))
  · exact hexDigit_spec (Nat.mod_lt _ (by decide))
  · exact hexDigit_spec (Nat.mod_lt _ (by decide))

/-- The bytes that the canonical form leaves as they are. -/
theorem canonicalEscape_plain {byte : UInt8} (hLow : 0x20 ≤ byte.toNat) (hQuote : byte ≠ 0x22)
    (hSlash : byte ≠ 0x5c) :
    canonicalEscape byte = [byte] := by
  have hControl : ∀ control : UInt8, control.toNat < 0x20 → byte ≠ control := by
    rintro control hLt rfl
    omega
  have hNone : shortEscape byte = none := by
    rw [shortEscape, if_neg hQuote, if_neg hSlash, if_neg (hControl 0x08 (by decide)),
      if_neg (hControl 0x0c (by decide)), if_neg (hControl 0x0a (by decide)),
      if_neg (hControl 0x0d (by decide)), if_neg (hControl 0x09 (by decide))]
  rw [canonicalEscape, hNone]
  exact if_pos (show byte ≥ 0x20 from UInt8.le_iff_toNat_le.mpr hLow)

theorem canonicalEscape_control {byte : UInt8} (hNone : shortEscape byte = none)
    (hLow : byte.toNat < 0x20) :
    canonicalEscape byte = u16Escape byte.toNat := by
  have hLess : ¬byte ≥ 0x20 := by
    rw [ge_iff_le, UInt8.le_iff_toNat_le]
    exact not_le.mpr hLow
  have hDigits : byte.toNat / 4096 % 16 = 0 ∧ byte.toNat / 256 % 16 = 0 := by omega
  rw [canonicalEscape, hNone, u16Escape]
  simp only [if_neg hLess, hDigits.1, hDigits.2]
  rfl

/-- The short escapes are among those of the grammar. -/
theorem shortEscape_mem {byte escape : UInt8} (h : shortEscape byte = some escape) :
    (escape, byte) ∈ simpleEscapes := by
  rw [shortEscape] at h
  split_ifs at h
  all_goals
    cases h
    subst byte
    decide

/-- The escape of an ASCII byte, as a unit of a string. -/
theorem canonicalEscape_cases (byte : UInt8) :
    (∃ escape, (escape, byte) ∈ simpleEscapes ∧ canonicalEscape byte = [0x5c, escape]) ∨
      (0x20 ≤ byte.toNat ∧ byte ≠ 0x22 ∧ byte ≠ 0x5c ∧ canonicalEscape byte = [byte]) ∨
      canonicalEscape byte = u16Escape byte.toNat := by
  cases hShort : shortEscape byte with
  | some escape => exact Or.inl ⟨escape, shortEscape_mem hShort, by rw [canonicalEscape, hShort]⟩
  | none =>
      by_cases hLow : byte.toNat < 0x20
      · exact Or.inr (Or.inr (canonicalEscape_control hShort hLow))
      · have hQuote : byte ≠ 0x22 := by
          rintro rfl
          cases hShort
        have hSlash : byte ≠ 0x5c := by
          rintro rfl
          cases hShort
        exact Or.inr (Or.inl
          ⟨not_lt.mp hLow, hQuote, hSlash, canonicalEscape_plain (not_lt.mp hLow) hQuote hSlash⟩)

theorem canonicalEscape_high {byte : UInt8} (h : 0x80 ≤ byte.toNat) :
    canonicalEscape byte = [byte] := by
  apply canonicalEscape_plain (by omega)
  · rintro rfl
    exact absurd h (by decide)
  · rintro rfl
    exact absurd h (by decide)

/-- The byte of an ASCII character. -/
theorem encode_ascii {c : Char} (h : c.val.toNat < 0x80) :
    String.utf8EncodeChar c = [UInt8.ofNat c.val.toNat] ∧
    (UInt8.ofNat c.val.toNat).toNat = c.val.toNat :=
  ⟨encode_one (Nat.le_of_lt_succ h), toNat_ofNat_of_lt (h.trans (by decide))⟩

theorem unescaped_high {c : Char} (h : 0x80 ≤ c.val.toNat) : Unescaped c := by
  refine ⟨by omega, ?_, ?_⟩ <;> omega

/-- An ASCII character is spelled as a unit in every layout. -/
theorem canonicalEscape_unit {c : Char} (h : c.val.toNat < 0x80) (hZero : c.val.toNat ≠ 0) :
    StringUnit Unescaped (canonicalEscape (.ofNat c.val.toNat)) (String.utf8EncodeChar c) := by
  obtain ⟨hEncode, hByte⟩ := encode_ascii h
  rcases canonicalEscape_cases (.ofNat c.val.toNat) with
    ⟨escape, hMem, hEscape⟩ | ⟨hLow, hQuote, hSlash, hEscape⟩ | hEscape
  · rw [hEscape, hEncode]
    exact .simple hMem
  · rw [hEscape, ← hEncode]
    rw [hByte] at hLow
    refine .scalar c ⟨hLow, fun hSame => hQuote ?_, fun hSame => hSlash ?_⟩
    · rw [hSame]
      rfl
    · rw [hSame]
      rfl
  · obtain ⟨digits, hDigits, hUnit⟩ := u16Escape_codeUnit (show c.val.toNat < 0x10000 by omega)
    rw [hEscape, hByte, hDigits]
    exact .point c hUnit hZero

/-- Every other character is spelled as itself, or by one or two escapes. -/
theorem escapePoint_unit {c : Char} (hZero : c.val.toNat ≠ 0) :
    StringUnit Unescaped (escapePoint c.val.toNat) (String.utf8EncodeChar c) := by
  rw [escapePoint]
  split_ifs with hAscii
  · exact canonicalEscape_unit hAscii hZero
  have hRange := scalar_range c
  rw [codeUnits]
  split_ifs with hPair
  · obtain ⟨high, hHigh, hHighUnit⟩ := u16Escape_codeUnit
      (show 0xd800 + (c.val.toNat - 0x10000) / 1024 < 0x10000 by omega)
    obtain ⟨low, hLow, hLowUnit⟩ := u16Escape_codeUnit
      (show 0xdc00 + (c.val.toNat - 0x10000) % 1024 < 0x10000 by omega)
    rw [List.flatMap_cons, List.flatMap_singleton, hHigh, hLow, ← List.append_assoc]
    apply StringUnit.pair c hHighUnit hLowUnit <;> omega
  · obtain ⟨digits, hDigits, hUnit⟩ := u16Escape_codeUnit (show c.val.toNat < 0x10000 by omega)
    rw [List.flatMap_singleton, hDigits]
    exact .point c hUnit hZero

theorem flatMap_canonicalEscape_unit {c : Char} (hZero : c.val.toNat ≠ 0) :
    StringUnit Unescaped ((String.utf8EncodeChar c).flatMap canonicalEscape)
      (String.utf8EncodeChar c) := by
  by_cases hAscii : c.val.toNat < 0x80
  · have hUnit := canonicalEscape_unit hAscii hZero
    rwa [(encode_ascii hAscii).1, List.flatMap_singleton] at *
  · have hSame : (String.utf8EncodeChar c).flatMap canonicalEscape = String.utf8EncodeChar c := by
      rw [List.flatMap_congr (g := fun byte => [byte]) ?_, List.flatMap_singleton']
      intro byte hByte
      rcases mem_encodeChar hByte with hHigh | ⟨hSame, -⟩
      · exact canonicalEscape_high hHigh
      · exact canonicalEscape_high (by omega)
    rw [hSame]
    exact .scalar c (unescaped_high (not_lt.mp hAscii))

/-! ### Contents -/

/-- Characters that are spelled as units are spelled as a content. -/
theorem stringUnits_flatMap {text : List Char} {spelling : Char → Bytes}
    (h : ∀ c ∈ text, StringUnit Unescaped (spelling c) (String.utf8EncodeChar c)) :
    StringUnits Unescaped (text.flatMap spelling) (encode text) := by
  induction text with
  | nil => exact .nil
  | cons c text ih =>
      rw [List.flatMap_cons, encode_cons]
      exact .cons (h c List.mem_cons_self) (ih fun c hc => h c (List.mem_cons_of_mem _ hc))

theorem flatMap_encode (text : List Char) :
    (encode text).flatMap canonicalEscape = text.flatMap fun c =>
      (String.utf8EncodeChar c).flatMap canonicalEscape := by
  rw [encode, List.flatMap_assoc]

theorem canonicalEscape_plainAscii {byte : UInt8} (h : PlainAscii byte) :
    canonicalEscape byte = [byte] := by
  obtain ⟨hLow, -, hQuote, hSlash⟩ := h
  exact canonicalEscape_plain (UInt8.le_iff_toNat_le.mp hLow) hQuote hSlash

/-- Texts of printable ASCII are spelled as they are. -/
theorem content_plainAscii (layout : Layout) {text : Bytes} (h : ∀ byte ∈ text, PlainAscii byte) :
    layout.content text = text := by
  have hSame : text.flatMap canonicalEscape = text := by
    rw [List.flatMap_congr fun byte hByte => canonicalEscape_plainAscii (h byte hByte)]
    exact List.flatMap_singleton' text
  cases hAscii : layout.ascii with
  | false => rw [content_plain hAscii, hSame]
  | true =>
      have hPlain : PlainText .contractAscii text := by rwa [PlainText, if_neg (by simp)]
      obtain ⟨chars, rfl⟩ := hPlain.valid
      have hLow : ∀ c ∈ chars, c.val.toNat < 0x80 := by
        intro c hc
        by_contra hHigh
        obtain ⟨byte, rest, hBytes⟩ :=
          List.exists_cons_of_ne_nil (String.utf8EncodeChar_ne_nil (c := c))
        have hMem : byte ∈ String.utf8EncodeChar c := by rw [hBytes]; exact List.mem_cons_self
        have hByte : byte.toNat ≤ 0x7e :=
          UInt8.le_iff_toNat_le.mp (h byte (List.mem_flatMap.mpr ⟨c, hc, hMem⟩)).2.1
        rcases mem_encodeChar hMem with hLarge | ⟨hEq, -⟩
        · omega
        · omega
      rw [content_ascii hAscii, ← hSame, flatMap_encode]
      refine List.flatMap_congr fun c hc => ?_
      rw [escapePoint, if_pos (hLow c hc), (encode_ascii (hLow c hc)).1, List.flatMap_singleton]

/-- A text that a writer of the profile takes is spelled as a content that denotes it. -/
theorem content_spelled {profile : Profile} (hProfile : profile ≠ .rfc8259LastWins)
    (layout : Layout) {text : Bytes} (h : PlainText profile text) :
    Content profile (layout.content text) text := by
  cases profile with
  | rfc8259LastWins => exact absurd rfl hProfile
  | contractAscii =>
      rw [PlainText, if_neg (by simp)] at h
      rw [content_plainAscii layout h, Content, if_pos rfl]
      exact ⟨h, rfl⟩
  | rfc8259 =>
      rw [PlainText, if_pos rfl] at h
      obtain ⟨⟨chars, rfl⟩, hNul⟩ := h
      have hZero := ne_of_encode (show (0 : UInt8).toNat < 0x80 by decide) hNul
      rw [Content, if_neg (by simp)]
      cases hAscii : layout.ascii with
      | false =>
          rw [content_plain hAscii, flatMap_encode]
          exact stringUnits_flatMap fun c hc => flatMap_canonicalEscape_unit (hZero c hc)
      | true =>
          rw [content_ascii hAscii]
          exact stringUnits_flatMap fun c hc => escapePoint_unit (hZero c hc)

/-! ### Values -/

section

variable {profile : Profile} {layout : Layout} {level : Nat}

theorem blank_gap (layout : Layout) (level : Nat) : Blank (layout.gap level) := by
  rw [Layout.gap]
  split_ifs
  · intro byte hByte
    rw [List.mem_cons, List.mem_replicate] at hByte
    rcases hByte with hLine | ⟨-, hSpace⟩
    · exact Or.inr (Or.inr (Or.inl hLine))
    · exact Or.inl hSpace
  · exact nofun

theorem blank_nil : Blank [] := nofun

/-- The colon of a layout, and the blank behind it. -/
theorem colon_eq (layout : Layout) : ∃ blank, Blank blank ∧ layout.colon = [0x3a] ++ blank := by
  rw [Layout.colon]
  split_ifs
  · exact ⟨[0x20], List.forall_mem_singleton.mpr (Or.inl rfl), rfl⟩
  · exact ⟨[], blank_nil, rfl⟩

theorem more_cons (item : Bytes) (items : List Bytes) :
    layout.more level (item :: items) = [] ++ [0x2c] ++ layout.gap (level + 1) ++
      (item ++ layout.more level items) := by
  simp [Layout.more]

/-- The members of an object, each with its value. -/
theorem members_more {spelled : Json → Bytes} (m : Bytes × Json) {members : List (Bytes × Json)}
    (hKeys : ∀ m' ∈ m :: members, Content profile (layout.content m'.1) m'.1)
    (hValues : ∀ m' ∈ m :: members, Value profile (spelled m'.2) m'.2) :
    Members profile (layout.member m.1 (spelled m.2) ++
      layout.more level (members.map fun m => layout.member m.1 (spelled m.2))) (m :: members) := by
  obtain ⟨blank, hBlank, hColon⟩ := colon_eq layout
  have hMember (m : Bytes × Json) : layout.member m.1 (spelled m.2) =
      quoted (layout.content m.1) ++ [] ++ [0x3a] ++ blank ++ spelled m.2 := by
    simp [Layout.member, Layout.literal, hColon]
  induction members generalizing m with
  | nil =>
      rw [List.forall_mem_singleton] at hKeys hValues
      rw [List.map_nil, Layout.more, List.flatMap_nil, List.append_nil, hMember]
      exact .last hKeys blank_nil hBlank hValues
  | cons next members ih =>
      rw [List.forall_mem_cons] at hKeys hValues
      have hRest := ih next hKeys.2 hValues.2
      have hMore := Members.more hKeys.1 blank_nil hBlank hValues.1 blank_nil
        (blank_gap layout (level + 1)) hRest
      rw [List.map_cons, more_cons, hMember m]
      simpa only [List.append_assoc] using hMore

theorem elements_more {spelled : Json → Bytes} (v : Json) {elements : List Json}
    (hValues : ∀ v' ∈ v :: elements, Value profile (spelled v') v') :
    Elements profile (spelled v ++ layout.more level (elements.map spelled)) (v :: elements) := by
  induction elements generalizing v with
  | nil =>
      rw [List.map_nil, Layout.more, List.flatMap_nil, List.append_nil]
      exact .last (hValues v List.mem_cons_self)
  | cons next elements ih =>
      rw [List.forall_mem_cons] at hValues
      have hMore := Elements.more hValues.1 blank_nil (blank_gap layout (level + 1))
        (ih next hValues.2)
      rw [List.map_cons, more_cons]
      simpa only [List.append_assoc] using hMore

theorem enclose_cons (opening closing : UInt8) (item : Bytes) (items : List Bytes) :
    layout.enclose level opening closing (item :: items) =
      [opening] ++ layout.gap (level + 1) ++ (item ++ layout.more level items) ++
        layout.gap level ++ [closing] := by
  rw [Layout.enclose, if_neg (List.cons_ne_nil _ _), items_cons]
  simp only [List.append_assoc]

/-- A value is spelled as the grammar spells it, at any level of any layout. -/
theorem value_spelled {t : Json} (level : Nat)
    (h : t.Every (fun text => Content profile (layout.content text) text) Number) :
    Value profile (t.spell layout level) t := by
  induction t using Tree.induct generalizing level with
  | object members ih =>
      rw [Tree.every_object] at h
      rw [Tree.spell_object]
      cases members with
      | nil => exact .emptyObject blank_nil
      | cons m members =>
          rw [List.map_cons, enclose_cons]
          refine .object (blank_gap _ _) ?_ (blank_gap _ _)
          exact @members_more profile layout level (fun v => v.spell layout (level + 1)) m members
            (fun m hm => (h m hm).1) fun m hm => ih m hm (level + 1) (h m hm).2
  | array elements ih =>
      rw [Tree.every_array] at h
      rw [Tree.spell_array]
      cases elements with
      | nil => exact .emptyArray blank_nil
      | cons v elements =>
          rw [List.map_cons, enclose_cons]
          refine .array (blank_gap _ _) ?_ (blank_gap _ _)
          exact elements_more v fun v hv => ih v hv (level + 1) (h v hv)
  | string text => exact .string h
  | number lexeme => exact .number h
  | boolean value =>
      cases value with
      | true => exact .true
      | false => exact .false
  | null => exact .null

theorem blank_trailer (flags : UInt32) : Blank (trailer flags) := by
  rw [trailer]
  split_ifs
  · exact List.forall_mem_singleton.mpr (Or.inr (Or.inr (Or.inl rfl)))
  · exact blank_nil

/-- A number that a writer took is one of the grammar. -/
theorem Numeral.Writable.number {limits : Limits} {numeral : Numeral}
    (h : numeral.Writable limits) :
    Number numeral.text := by
  cases numeral with
  | unsigned value => exact number_decimalU64 value
  | signed value => exact number_decimalI64 value
  | lexeme text => exact (numberSyntax_iff text).mp h.1

/-- The output of a writer is a text of its profile, for the value with its members in key order. -/
theorem text_outputOf {limits : Limits} {flags : UInt32} {t : Tree Numeral} {holes : List Hole}
    (hProfile : profile ≠ .rfc8259LastWins) (h : t.Admitted profile limits holes) :
    Text profile (outputOf flags t.json) t.json.sorted := by
  have hEvery : t.json.sorted.Every
      (fun text => Content profile ((flagsLayout flags).content text) text) Number := by
    rw [← (Tree.reordered_sorted _).every, Tree.json, Tree.every_map]
    refine h.every.imp (fun text hText => ?_) fun numeral hNumeral => hNumeral.number
    exact content_spelled hProfile _ ((validText_iff _ _).mp hText.1)
  exact ⟨[], _, _, blank_nil, value_spelled 0 hEvery, blank_trailer flags, rfl⟩

end

end MaelysJson
