import MaelysJson.Json.Grammar
import MaelysJson.Json.Order
import MaelysJson.Serializing.Emission
import MaelysJson.Text.Literal

/-! The reference spelling of a value, in each layout: the canonical form is the one that
is neither indented nor restricted to ASCII. Strings first, with the loop that writes them. -/
namespace MaelysJson

open Grammar Utf8

/-! ### Spellings -/

/-- One scalar value inside a literal of ASCII output. -/
def escapePoint (point : Nat) : Bytes :=
  if point < 0x80 then canonicalEscape (.ofNat point) else (codeUnits point).flatMap u16Escape

/-- A text between its quotation marks. -/
def Layout.content (layout : Layout) (text : Bytes) : Bytes :=
  if layout.ascii then (codePoints text).flatMap escapePoint else text.flatMap canonicalEscape

def Layout.literal (layout : Layout) (text : Bytes) : Bytes := quoted (layout.content text)

/-- The items of a container, each on a line of its own in indented output. -/
def Layout.items (layout : Layout) (level : Nat) (items : List Bytes) : Bytes :=
  List.intercalate [0x2c] (items.map (layout.gap (level + 1) ++ ·))

def Layout.enclose (layout : Layout) (level : Nat) (opening closing : UInt8) (items : List Bytes) :
    Bytes :=
  if items = [] then [opening, closing]
  else [opening] ++ (layout.items level items ++ (layout.gap level ++ [closing]))

def Layout.member (layout : Layout) (key value : Bytes) : Bytes :=
  layout.literal key ++ (layout.colon ++ value)

def spellBoolean (value : Bool) : Bytes :=
  if value then [0x74, 0x72, 0x75, 0x65] else [0x66, 0x61, 0x6c, 0x73, 0x65]

/-- A value at a level of nesting, its members in the order they have. -/
def Tree.spell (layout : Layout) : Json → Nat → Bytes :=
  fold
    { object := fun members level =>
        layout.enclose level 0x7b 0x7d (members.map fun m => layout.member m.1 (m.2 (level + 1)))
      array := fun elements level =>
        layout.enclose level 0x5b 0x5d (elements.map fun v => v (level + 1))
      string := fun text _ => layout.literal text
      number := fun lexeme _ => lexeme
      boolean := fun value _ => spellBoolean value
      null := fun _ => [0x6e, 0x75, 0x6c, 0x6c] }

theorem Tree.spell_object (layout : Layout) (members : List (Bytes × Json)) (level : Nat) :
    (object members).spell layout level =
      layout.enclose level 0x7b 0x7d (members.map fun m =>
        layout.member m.1 (m.2.spell layout (level + 1))) := by
  simp only [spell, fold_object, List.map_map]
  rfl

theorem Tree.spell_array (layout : Layout) (elements : List Json) (level : Nat) :
    (array elements).spell layout level =
      layout.enclose level 0x5b 0x5d (elements.map fun v => v.spell layout (level + 1)) := by
  simp only [spell, fold_array, List.map_map]
  rfl

/-! ### Writing strings -/

theorem content_plain {layout : Layout} (h : layout.ascii = false) (text : Bytes) :
    layout.content text = text.flatMap canonicalEscape := by
  rw [Layout.content, h]
  rfl

theorem content_ascii {layout : Layout} (h : layout.ascii = true) (text : List Char) :
    layout.content (encode text) = text.flatMap fun c => escapePoint c.val.toNat := by
  rw [Layout.content, h, codePoints_encode, if_pos rfl, List.flatMap_map]

theorem appendStringFrom_cons (rounds : Nat) (byte : UInt8) (rest : Bytes) :
    appendStringFrom (rounds + 1) (byte :: rest) = (get >>= fun s : Serializer =>
      if byte ≥ 0x80 ∧ s.ascii = true then
        if (utf8Decode (byte :: rest)).2 ≥ 0x10000 then
          appendU16Escape (0xd800 + ((utf8Decode (byte :: rest)).2 - 0x10000) / 1024) >>= fun _ =>
          appendU16Escape (0xdc00 + ((utf8Decode (byte :: rest)).2 - 0x10000) % 1024) >>= fun _ =>
          appendStringFrom rounds ((byte :: rest).drop (utf8Decode (byte :: rest)).1)
        else appendU16Escape (utf8Decode (byte :: rest)).2 >>= fun _ =>
          appendStringFrom rounds ((byte :: rest).drop (utf8Decode (byte :: rest)).1)
      else append (canonicalEscape byte) >>= fun _ => appendStringFrom rounds rest) := rfl

/-- Without the ASCII flag, byte after byte. -/
theorem appendStringFrom_plain {layout : Layout} (hAscii : layout.ascii = false) {rounds : Nat}
    {text : Bytes} (hRounds : text.length ≤ rounds) :
    Emits layout (appendStringFrom rounds text) (text.flatMap canonicalEscape) := by
  induction text generalizing rounds with
  | nil => cases rounds <;> exact .done
  | cons byte rest ih =>
      obtain ⟨rounds, rfl⟩ :=
        Nat.exists_eq_add_of_le' (Nat.succ_le_of_lt (Nat.lt_of_lt_of_le (Nat.succ_pos _) hRounds))
      rw [appendStringFrom_cons, List.flatMap_cons]
      apply Emits.get
      rintro s rfl
      rw [if_neg (by rw [show s.ascii = false from hAscii]; nofun)]
      exact (append_emits _ _).seq (ih (Nat.le_of_succ_le_succ hRounds))

/-- With it, scalar value after scalar value. -/
theorem appendStringFrom_ascii {layout : Layout} (hAscii : layout.ascii = true) {rounds : Nat}
    {text : List Char} (hRounds : (encode text).length ≤ rounds) :
    Emits layout (appendStringFrom rounds (encode text)) (text.flatMap fun c =>
      escapePoint c.val.toNat) := by
  induction text generalizing rounds with
  | nil => cases rounds <;> exact .done
  | cons c text ih =>
      have hDecode := utf8Decode_encode c (encode text)
      have hPos : 0 < (String.utf8EncodeChar c).length :=
        List.length_pos_of_ne_nil String.utf8EncodeChar_ne_nil
      rw [encode_cons, List.length_append] at hRounds
      obtain ⟨rounds, rfl⟩ : ∃ n, rounds = n + 1 := ⟨rounds - 1, by omega⟩
      have hLeft : (encode text).length ≤ rounds := by omega
      have hTail := ih hLeft
      rw [List.flatMap_cons, encode_cons]
      by_cases hOne : c.val.toNat < 0x80
      · rw [encode_one (by omega), List.singleton_append, appendStringFrom_cons, escapePoint,
          if_pos hOne]
        apply Emits.get
        rintro s rfl
        have hByte : ¬(UInt8.ofNat c.val.toNat ≥ 0x80 ∧ s.ascii = true) := by
          rintro ⟨hGe, -⟩
          have hGe : 0x80 ≤ (UInt8.ofNat c.val.toNat).toNat := UInt8.le_iff_toNat_le.mp hGe
          rw [toNat_ofNat_of_lt (by omega)] at hGe
          omega
        rw [if_neg hByte]
        exact (append_emits _ _).seq hTail
      · obtain ⟨byte, rest, hBytes⟩ := List.exists_cons_of_length_pos hPos
        have hByte : byte ≥ 0x80 := by
          have hMem : byte ∈ String.utf8EncodeChar c := by
            rw [hBytes]
            exact List.mem_cons_self
          rcases mem_encodeChar hMem with hHigh | ⟨hSame, hSingle⟩
          · exact UInt8.le_iff_toNat_le.mpr hHigh
          · exact UInt8.le_iff_toNat_le.mpr (by rw [hSame]; exact not_lt.mp hOne)
        have hDrop : ((byte :: rest) ++ encode text).drop (String.utf8EncodeChar c).length =
            encode text := by
          rw [← hBytes, List.drop_left]
        rw [hBytes] at hDecode ⊢
        rw [List.cons_append] at hDecode hDrop ⊢
        rw [appendStringFrom_cons, hDecode]
        apply Emits.get
        rintro s rfl
        rw [if_pos ⟨hByte, hAscii⟩, escapePoint, if_neg hOne, codeUnits]
        simp only [← hBytes, hDrop]
        by_cases hHigh : c.val.toNat ≥ 0x10000
        · rw [if_pos hHigh, if_pos hHigh, List.flatMap_cons, List.flatMap_singleton,
            List.append_assoc]
          exact (append_emits _ _).seq ((append_emits _ _).seq hTail)
        · rw [if_neg hHigh, if_neg hHigh, List.flatMap_singleton]
          exact (append_emits _ _).seq hTail

/-- A string or a key is written as its literal. -/
theorem appendString_emits (layout : Layout) {text : Bytes} (hValid : Valid text) :
    Emits layout (appendString text) (layout.literal text) := by
  have hContent : Emits layout (appendStringFrom text.length text) (layout.content text) := by
    cases hAscii : layout.ascii with
    | false =>
        rw [content_plain hAscii]
        exact appendStringFrom_plain hAscii le_rfl
    | true =>
        obtain ⟨text, rfl⟩ := hValid
        rw [content_ascii hAscii]
        exact appendStringFrom_ascii hAscii le_rfl
  rw [Layout.literal, quoted, List.append_assoc]
  exact (append_emits _ _).seq (hContent.seq (append_emits _ _))

end MaelysJson
