import MaelysJson.Copying.Likeness
import MaelysJson.Serializing.Derivation

/-! Canonical JSON v1 as the specification words it, and that the writer's spelling is the
one text that it describes. -/
namespace MaelysJson

open Grammar

/-! ### The specification -/

/-- Base 10 with no leading zero, no sign for zero, no fraction and no exponent. -/
def ShortestDecimal (value : Int) (bytes : Bytes) : Prop :=
  ∃ parts : NumberParts, parts.WellFormed ∧ parts.IsInteger ∧ (parts.minus ≠ [] → value < 0) ∧
    parts.denoted = value ∧ bytes = parts.bytes

/-- Integers in shortest base 10, lexemes byte for byte. -/
def Numeral.Spelled : Numeral → Bytes → Prop
  | .unsigned value, bytes => ShortestDecimal value.toNat bytes
  | .signed value, bytes => ShortestDecimal value.toInt bytes
  | .lexeme text, bytes => bytes = text

def lowercaseHex : List UInt8 :=
  [0x30, 0x31, 0x32, 0x33, 0x34, 0x35, 0x36, 0x37, 0x38, 0x39, 0x61, 0x62, 0x63, 0x64, 0x65, 0x66]

/-- Quotation mark, reverse solidus and the five short control escapes; lowercase `\u00xx` for
every other byte below U+0020; all other bytes unchanged. -/
def spellByte (byte : UInt8) : Bytes :=
  match [(0x22, 0x22), (0x5c, 0x5c), (0x08, 0x62), (0x0c, 0x66), (0x0a, 0x6e), (0x0d, 0x72),
    (0x09, 0x74)].lookup byte with
  | some (letter : UInt8) => [0x5c, letter]
  | none =>
      if byte < 0x20 then
        [0x5c, 0x75, 0x30, 0x30, lowercaseHex.getD (byte.toNat / 16) 0,
          lowercaseHex.getD (byte.toNat % 16) 0]
      else [byte]

def spellText (text : Bytes) : Bytes := [0x22] ++ text.flatMap spellByte ++ [0x22]

mutual

/-- One value, without insignificant whitespace. -/
inductive Canonical : Tree Numeral → Bytes → Prop where
  | object {members ordered : List (Bytes × Tree Numeral)} {body : Bytes}
      (hPerm : ordered.Perm members) (hOrder : (ordered.map fun m => utf16 m.1).Pairwise (· < ·))
      (hBody : CanonicalMembers ordered body) :
      Canonical (.object members) ([0x7b] ++ body ++ [0x7d])
  | array {elements : List (Tree Numeral)} {body : Bytes}
      (hBody : CanonicalElements elements body) :
      Canonical (.array elements) ([0x5b] ++ body ++ [0x5d])
  | string (text : Bytes) : Canonical (.string text) (spellText text)
  | number {numeral : Numeral} {bytes : Bytes} (hSpelled : numeral.Spelled bytes) :
      Canonical (.number numeral) bytes
  | true : Canonical (.boolean Bool.true) [0x74, 0x72, 0x75, 0x65]
  | false : Canonical (.boolean Bool.false) [0x66, 0x61, 0x6c, 0x73, 0x65]
  | null : Canonical .null [0x6e, 0x75, 0x6c, 0x6c]

inductive CanonicalMembers : List (Bytes × Tree Numeral) → Bytes → Prop where
  | none : CanonicalMembers [] []
  | last {m : Bytes × Tree Numeral} {bytes : Bytes} (hValue : Canonical m.2 bytes) :
      CanonicalMembers [m] (spellText m.1 ++ [0x3a] ++ bytes)
  | more {m next : Bytes × Tree Numeral} {members : List (Bytes × Tree Numeral)}
      {bytes rest : Bytes} (hValue : Canonical m.2 bytes)
      (hRest : CanonicalMembers (next :: members) rest) :
      CanonicalMembers (m :: next :: members) (spellText m.1 ++ [0x3a] ++ bytes ++ [0x2c] ++ rest)

inductive CanonicalElements : List (Tree Numeral) → Bytes → Prop where
  | none : CanonicalElements [] []
  | last {v : Tree Numeral} {bytes : Bytes} (hValue : Canonical v bytes) :
      CanonicalElements [v] bytes
  | more {v next : Tree Numeral} {elements : List (Tree Numeral)} {bytes rest : Bytes}
      (hValue : Canonical v bytes) (hRest : CanonicalElements (next :: elements) rest) :
      CanonicalElements (v :: next :: elements) (bytes ++ [0x2c] ++ rest)

end

/-- A value, and one LF if and only if the flag asks for it. -/
def CanonicalText (flags : UInt32) (t : Tree Numeral) (bytes : Bytes) : Prop :=
  ∃ body, Canonical t body ∧ bytes = body ++ if flags &&& finalNewlineFlag ≠ 0 then [0x0a] else []

/-! ### Numbers -/

/-- One value has one spelling without leading zeros. -/
theorem Grammar.IntegerPart.unique {digits digits' : Bytes} (h : IntegerPart digits)
    (h' : IntegerPart digits') (hValue : decimalValue 0 digits = decimalValue 0 digits') :
    digits = digits' := by
  have hDecimal := decimalFrom_decimalValue h (Nat.le_max_left digits.length digits'.length)
  rw [hValue, decimalFrom_decimalValue h' (Nat.le_max_right digits.length digits'.length)]
    at hDecimal
  exact hDecimal.symm

theorem ShortestDecimal.unique {value : Int} {bytes bytes' : Bytes}
    (h : ShortestDecimal value bytes) (h' : ShortestDecimal value bytes') : bytes = bytes' := by
  obtain ⟨parts, hParts, hInteger, hSign, hValue, rfl⟩ := h
  obtain ⟨parts', hParts', hInteger', hSign', hValue', rfl⟩ := h'
  have hMinus : parts.minus = parts'.minus ∧ parts.magnitude = parts'.magnitude := by
    rw [← hValue'] at hValue hSign hSign'
    by_cases hMinus : parts.minus = [] <;> by_cases hMinus' : parts'.minus = []
    · rw [NumberParts.denoted, NumberParts.denoted, if_pos hMinus, if_pos hMinus'] at hValue
      exact ⟨hMinus.trans hMinus'.symm, Int.ofNat_inj.mp hValue⟩
    · have hNegative := hSign' hMinus'
      rw [← hValue, NumberParts.denoted, if_pos hMinus] at hNegative
      omega
    · have hNegative := hSign hMinus
      rw [NumberParts.denoted, if_pos hMinus'] at hNegative
      omega
    · rw [NumberParts.denoted, NumberParts.denoted, if_neg hMinus, if_neg hMinus', Int.neg_inj,
        Int.ofNat_inj] at hValue
      exact ⟨(hParts.minus.resolve_left hMinus).trans (hParts'.minus.resolve_left hMinus').symm,
        hValue⟩
  have hDigits := hParts.integer.unique hParts'.integer hMinus.2
  rw [NumberParts.bytes, NumberParts.bytes, hMinus.1, hDigits, hInteger.1, hInteger.2, hInteger'.1,
    hInteger'.2]

theorem shortestDecimal_parts {value : Int} {negative : Bool} {magnitude : Nat}
    (h : magnitude < 2 ^ 64) (hSign : negative = true → value < 0)
    (hDenoted : (decimalParts negative magnitude).denoted = value) :
    ShortestDecimal value (decimalParts negative magnitude).bytes := by
  refine ⟨_, decimalParts_wellFormed negative h, ⟨rfl, rfl⟩, fun hMinus => hSign ?_, hDenoted, rfl⟩
  cases negative with
  | false => exact absurd rfl hMinus
  | true => rfl

/-- The rendered number is the specified one. -/
theorem Numeral.spelled_iff (numeral : Numeral) (bytes : Bytes) :
    numeral.Spelled bytes ↔ bytes = numeral.text := by
  have hUnique {value : Int} {text : Bytes} (hText : ShortestDecimal value text) :
      ShortestDecimal value bytes ↔ bytes = text := by
    constructor
    · exact fun h => h.unique hText
    · rintro rfl
      exact hText
  cases numeral with
  | unsigned value =>
      apply hUnique
      rw [Numeral.text, decimalU64_eq]
      exact shortestDecimal_parts value.toNat_lt nofun (denoted_decimalU64 value)
  | signed value =>
      apply hUnique
      rw [Numeral.text, decimalI64_eq]
      refine shortestDecimal_parts (natAbs_toInt_lt value) (fun hNegative => ?_)
        (denoted_decimalI64 value)
      exact Int64.lt_iff_toInt_lt.mp (of_decide_eq_true hNegative)
  | lexeme text => exact Iff.rfl

/-! ### Texts -/

theorem spellByte_eq (byte : UInt8) : spellByte byte = canonicalEscape byte := by
  have hAll : ∀ n : Fin 256, spellByte (UInt8.ofNat n) = canonicalEscape (UInt8.ofNat n) := by
    decide +kernel
  have hByte := hAll ⟨byte.toNat, byte.toNat_lt⟩
  rwa [UInt8.ofNat_toNat] at hByte

/-- The layout without flags. -/
def plainLayout : Layout := ⟨false, false⟩

theorem spellText_eq (text : Bytes) : spellText text = plainLayout.literal text := by
  have hSpell : spellByte = canonicalEscape := funext spellByte_eq
  rw [spellText, Layout.literal, quoted, content_plain rfl, hSpell]

/-! ### Values -/

theorem plain_items (level : Nat) (items : List Bytes) :
    plainLayout.items level items = List.intercalate [0x2c] items := by
  have hGap : (plainLayout.gap (level + 1) ++ ·) = (id : Bytes → Bytes) := rfl
  rw [Layout.items, hGap, List.map_id]

theorem plain_enclose (level : Nat) (opening closing : UInt8) (items : List Bytes) :
    plainLayout.enclose level opening closing items = [opening] ++ List.intercalate [0x2c] items ++
      [closing] := by
  rw [Layout.enclose]
  split_ifs with hNone
  · rw [hNone]
    rfl
  · rw [plain_items, List.append_assoc]
    rfl

theorem canonicalMembers_iff {spelled : Tree Numeral → Bytes}
    {members : List (Bytes × Tree Numeral)}
    (h : ∀ m ∈ members, ∀ bytes, Canonical m.2 bytes ↔ bytes = spelled m.2) (body : Bytes) :
    CanonicalMembers members body ↔
      body = List.intercalate [0x2c] (members.map fun m =>
        plainLayout.member m.1 (spelled m.2)) := by
  have hMember (m : Bytes × Tree Numeral) :
      plainLayout.member m.1 (spelled m.2) = spellText m.1 ++ [0x3a] ++ spelled m.2 := by
    rw [Layout.member, spellText_eq, List.append_assoc]
    rfl
  induction members generalizing body with
  | nil =>
      constructor
      · rintro ⟨⟩
        rfl
      · rintro rfl
        exact .none
  | cons m members ih =>
      rw [List.forall_mem_cons] at h
      cases members with
      | nil =>
          rw [List.map_singleton, List.intercalate_singleton, hMember]
          constructor
          · rintro ⟨⟩
            next hValue => rw [(h.1 _).mp hValue]
          · rintro rfl
            exact .last ((h.1 _).mpr rfl)
      | cons next members =>
          rw [List.map_cons, List.map_cons, List.intercalate_cons_cons, hMember]
          have ih := fun rest => ih h.2 rest
          simp only [List.map_cons] at ih
          constructor
          · rintro ⟨⟩
            next hValue hRest => rw [(h.1 _).mp hValue, (ih _).mp hRest]
          · rintro rfl
            exact .more ((h.1 _).mpr rfl) ((ih _).mpr rfl)

theorem canonicalElements_iff {spelled : Tree Numeral → Bytes} {elements : List (Tree Numeral)}
    (h : ∀ v ∈ elements, ∀ bytes, Canonical v bytes ↔ bytes = spelled v) (body : Bytes) :
    CanonicalElements elements body ↔ body = List.intercalate [0x2c] (elements.map spelled) := by
  induction elements generalizing body with
  | nil =>
      constructor
      · rintro ⟨⟩
        rfl
      · rintro rfl
        exact .none
  | cons v elements ih =>
      rw [List.forall_mem_cons] at h
      cases elements with
      | nil =>
          rw [List.map_singleton, List.intercalate_singleton]
          constructor
          · rintro ⟨⟩
            next hValue => exact (h.1 _).mp hValue
          · rintro rfl
            exact .last ((h.1 _).mpr rfl)
      | cons next elements =>
          rw [List.map_cons, List.map_cons, List.intercalate_cons_cons, ← List.map_cons]
          constructor
          · rintro ⟨⟩
            next hValue hRest => rw [(h.1 _).mp hValue, (ih h.2 _).mp hRest]
          · rintro rfl
            exact .more ((h.1 _).mpr rfl) ((ih h.2 _).mpr rfl)

/-- Different keys have one strictly increasing order. -/
theorem increasing_iff {β : Type} {members ordered : List (Bytes × β)}
    (hPerm : ordered.Perm members) (hNodup : (members.map Prod.fst).Nodup)
    (hValid : ∀ m ∈ members, Utf8.Valid m.1) :
    (ordered.map fun m => utf16 m.1).Pairwise (· < ·) ↔ ordered = members.insertionSort KeyLe := by
  have hSort := List.perm_insertionSort KeyLe members
  constructor
  · intro hOrder
    rw [List.pairwise_map] at hOrder
    apply eq_of_keyLe (hPerm.trans hSort.symm) (hOrder.imp le_of_lt)
      (List.pairwise_insertionSort _ _)
    · exact (hPerm.map Prod.fst).nodup_iff.mpr hNodup
    · exact fun m hm => hValid m (hPerm.mem_iff.mp hm)
  · rintro rfl
    have hKeys : (members.insertionSort KeyLe).Pairwise fun m m' => m.1 ≠ m'.1 :=
      List.pairwise_map.mp ((hSort.map Prod.fst).nodup_iff.mpr hNodup)
    rw [List.pairwise_map]
    apply (hKeys.and (List.pairwise_insertionSort KeyLe members)).imp_of_mem
    intro m m' hm hm' h
    have hUnits : utf16 m.1 ≠ utf16 m'.1 := fun hSame =>
      h.1 (utf16_injective (hValid m (hSort.mem_iff.mp hm))
        (hValid m' (hSort.mem_iff.mp hm')) hSame)
    exact lt_of_le_of_ne h.2 hUnits

/-- The specification describes one text for each value, the one that the writer spells. -/
theorem canonical_iff {t : Tree Numeral} (hUnique : t.uniqueKeys = true)
    (hValid : t.Every Utf8.Valid fun _ => True) (level : Nat) (bytes : Bytes) :
    Canonical t bytes ↔ bytes = t.json.sorted.spell plainLayout level := by
  induction t using Tree.induct generalizing level bytes with
  | object members ih =>
      rw [Tree.uniqueKeys_object] at hUnique
      rw [Tree.every_object] at hValid
      let spelled (v : Tree Numeral) : Bytes := v.json.sorted.spell plainLayout (level + 1)
      have hValues : ∀ m ∈ members, ∀ bytes, Canonical m.2 bytes ↔ bytes = spelled m.2 :=
        fun m hm bytes =>
        ih m hm (hUnique.2 m hm) (hValid m hm).2 (level + 1) bytes
      have hSort : (members.insertionSort KeyLe).map (fun m => (m.1, spelled m.2)) =
          (members.map fun m => (m.1, spelled m.2)).insertionSort KeyLe :=
        List.map_insertionSort KeyLe KeyLe _ _ fun _ _ _ _ => Iff.rfl
      rw [sorted_json_object, plain_enclose, ← hSort, List.map_map]
      constructor
      · intro h
        cases h with
        | object hPerm hOrder hBody =>
            obtain rfl := (increasing_iff hPerm hUnique.1 fun m hm => (hValid m hm).1).mp hOrder
            rw [(canonicalMembers_iff (fun m hm => hValues m (hPerm.mem_iff.mp hm)) _).mp hBody]
            rfl
      · rintro rfl
        have hPerm := List.perm_insertionSort KeyLe members
        apply Canonical.object hPerm
          ((increasing_iff hPerm hUnique.1 fun m hm => (hValid m hm).1).mpr rfl)
        exact (canonicalMembers_iff (fun m hm => hValues m (hPerm.mem_iff.mp hm)) _).mpr rfl
  | array elements ih =>
      rw [Tree.uniqueKeys_array] at hUnique
      rw [Tree.every_array] at hValid
      have hValues : ∀ v ∈ elements, ∀ bytes, Canonical v bytes ↔
        bytes = v.json.sorted.spell plainLayout (level + 1) :=
        fun v hv bytes => ih v hv (hUnique v hv) (hValid v hv) (level + 1) bytes
      rw [sorted_json_array, plain_enclose]
      constructor
      · rintro ⟨⟩
        next hBody => rw [(canonicalElements_iff hValues _).mp hBody]
      · rintro rfl
        exact .array ((canonicalElements_iff hValues _).mpr rfl)
  | string text =>
      have hSpell : (Tree.string text : Tree Numeral).json.sorted.spell plainLayout level =
        spellText text := (spellText_eq text).symm
      rw [hSpell]
      constructor
      · rintro ⟨⟩
        rfl
      · rintro rfl
        exact .string text
  | number numeral =>
      refine Iff.trans ⟨?_, .number⟩ (numeral.spelled_iff bytes)
      rintro ⟨⟩
      assumption
  | boolean value =>
      cases value with
      | true =>
          constructor
          · rintro ⟨⟩
            rfl
          · rintro rfl
            exact .true
      | false =>
          constructor
          · rintro ⟨⟩
            rfl
          · rintro rfl
            exact .false
  | null =>
      constructor
      · rintro ⟨⟩
        rfl
      · rintro rfl
        exact .null

/-- Without presentation flags, the output is what the specification describes. -/
theorem canonicalText_iff {profile : Profile} {limits : Limits} {holes : List Hole}
    {t : Tree Numeral} (h : t.Admitted profile limits holes) {flags : UInt32}
    (hFlags : flags = 0 ∨ flags = finalNewlineFlag) (bytes : Bytes) :
    CanonicalText flags t bytes ↔ bytes = outputOf flags t.json := by
  have hLayout : flagsLayout flags = plainLayout := by
    rcases hFlags with rfl | rfl <;> rfl
  rw [CanonicalText, outputOf, hLayout, trailer]
  constructor
  · rintro ⟨body, hBody, rfl⟩
    rw [(canonical_iff h.unique h.valid 0 body).mp hBody]
  · rintro rfl
    exact ⟨_, (canonical_iff h.unique h.valid 0 _).mpr rfl, rfl⟩

end MaelysJson
