import MaelysJson.Serializing.Derivation

/-! Under the ASCII flag the output consists of ASCII bytes. -/
namespace MaelysJson

open Grammar Utf8

def Ascii (bytes : Bytes) : Prop := ∀ byte ∈ bytes, byte.toNat < 0x80

@[simp] theorem ascii_nil : Ascii [] := nofun

@[simp] theorem ascii_append (left right : Bytes) :
    Ascii (left ++ right) ↔ Ascii left ∧ Ascii right :=
  List.forall_mem_append

@[simp] theorem ascii_cons (byte : UInt8) (bytes : Bytes) :
    Ascii (byte :: bytes) ↔ byte.toNat < 0x80 ∧ Ascii bytes :=
  List.forall_mem_cons

theorem ascii_flatMap {α : Type} {xs : List α} {f : α → Bytes} (h : ∀ x ∈ xs, Ascii (f x)) :
    Ascii (xs.flatMap f) := by
  intro byte hByte
  obtain ⟨x, hx, hMem⟩ := List.mem_flatMap.mp hByte
  exact h x hx byte hMem

/-! ### Literals -/

theorem ascii_hexDigit (value : Nat) : (hexDigit (value % 16)).toNat < 0x80 := by
  have hAll : ∀ digit : Fin 16, (hexDigit digit).toNat < 0x80 := by decide
  exact hAll ⟨value % 16, Nat.mod_lt _ (by decide)⟩

theorem ascii_u16Escape (unit : Nat) : Ascii (u16Escape unit) := by
  simp [u16Escape, ascii_hexDigit]

theorem ascii_canonicalEscape {byte : UInt8} (h : byte.toNat < 0x80) :
    Ascii (canonicalEscape byte) := by
  have hEscapes : ∀ e ∈ simpleEscapes, e.1.toNat < 0x80 := by simp [simpleEscapes]
  rcases canonicalEscape_cases byte with ⟨escape, hMem, hEscape⟩ | ⟨-, -, -, hEscape⟩ | hEscape
  · simp [hEscape, hEscapes _ hMem]
  · simp [hEscape, h]
  · rw [hEscape]
    exact ascii_u16Escape byte.toNat

theorem ascii_escapePoint (point : Nat) : Ascii (escapePoint point) := by
  rw [escapePoint]
  split_ifs with hAscii
  · apply ascii_canonicalEscape
    rwa [toNat_ofNat_of_lt (hAscii.trans (by decide))]
  · exact ascii_flatMap fun unit _ => ascii_u16Escape unit

variable {layout : Layout}

theorem ascii_literal (h : layout.ascii = true) (text : Bytes) : Ascii (layout.literal text) := by
  have hContent : Ascii (layout.content text) := by
    rw [Layout.content, if_pos h]
    exact ascii_flatMap fun point _ => ascii_escapePoint point
  simp [Layout.literal, quoted, hContent]

/-! ### Values -/

theorem ascii_number {lexeme : Bytes} (h : Number lexeme) : Ascii lexeme := by
  intro byte hByte
  rcases h.mem byte hByte with ⟨-, hHigh⟩ | rfl | rfl | rfl | rfl | rfl
  · rw [UInt8.le_iff_toNat_le] at hHigh
    exact Nat.lt_of_le_of_lt hHigh (by decide)
  all_goals decide

theorem ascii_gap (layout : Layout) (level : Nat) : Ascii (layout.gap level) := by
  intro byte hByte
  rcases blank_gap layout level byte hByte with rfl | rfl | rfl | rfl <;> decide

theorem ascii_colon (layout : Layout) : Ascii layout.colon := by
  rw [Layout.colon]
  split_ifs <;> simp

theorem ascii_enclose {level : Nat} {opening closing : UInt8} {items : List Bytes}
    (hOpening : opening.toNat < 0x80) (hClosing : closing.toNat < 0x80)
    (hItems : ∀ item ∈ items, Ascii item) :
    Ascii (layout.enclose level opening closing items) := by
  cases items with
  | nil => simp [Layout.enclose, hOpening, hClosing]
  | cons item items =>
      rw [List.forall_mem_cons] at hItems
      have hMore : Ascii (layout.more level items) := by
        refine ascii_flatMap fun item hItem => ?_
        simp [ascii_gap, hItems.2 item hItem]
      rw [enclose_cons]
      simp [hOpening, hClosing, ascii_gap, hItems.1, hMore]

/-- What a layout of ASCII output spells is ASCII, whatever the texts contain. -/
theorem ascii_spell (h : layout.ascii = true) {t : Json} (level : Nat)
    (hNumbers : t.Every (fun _ => True) Number) :
    Ascii (t.spell layout level) := by
  induction t using Tree.induct generalizing level with
  | object members ih =>
      rw [Tree.every_object] at hNumbers
      rw [Tree.spell_object]
      apply ascii_enclose (by decide) (by decide)
      intro item hItem
      obtain ⟨m, hm, rfl⟩ := List.mem_map.mp hItem
      simp [Layout.member, ascii_literal h, ascii_colon, ih m hm (level + 1) (hNumbers m hm).2]
  | array elements ih =>
      rw [Tree.every_array] at hNumbers
      rw [Tree.spell_array]
      apply ascii_enclose (by decide) (by decide)
      intro item hItem
      obtain ⟨v, hv, rfl⟩ := List.mem_map.mp hItem
      exact ih v hv (level + 1) (hNumbers v hv)
  | string text => exact ascii_literal h text
  | number lexeme => exact ascii_number hNumbers
  | boolean value =>
      cases value with
      | true => simp [Tree.spell, Tree.fold, spellBoolean]
      | false => simp [Tree.spell, Tree.fold, spellBoolean]
  | null => simp [Tree.spell, Tree.fold]

end MaelysJson
