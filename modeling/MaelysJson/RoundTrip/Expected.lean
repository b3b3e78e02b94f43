import MaelysJson.Code.Canonical
import MaelysJson.RoundTrip.Totality

/-! The walk of the canonical check: from the cursor it takes the text that the serializer would
write for the same value, provided that keys increase and every number is an integer in range. -/
namespace MaelysJson

open Grammar Utf8

/-! ### Expected texts -/

theorem expect_eq_some {cursor cursor' : Cursor} {text : Bytes} :
    expect cursor text = some cursor' ↔ (cursor.bytes.drop cursor.offset).take text.length = text ∧
      cursor' = ⟨cursor.bytes, cursor.offset + text.length⟩ := by
  rw [expect]
  split_ifs with hNot
  · constructor
    · nofun
    · rintro ⟨hTake, -⟩
      have hLength := congrArg List.length hTake
      rw [List.length_take, List.length_drop] at hLength
      rcases hNot with hShort | hOther
      · omega
      · exact absurd hTake hOther
  · rw [not_or, not_not] at hNot
    rw [Option.some.injEq, and_iff_right hNot.2]
    exact eq_comm

theorem expect_whole {bytes text : Bytes} (h : bytes = text) :
    expect ⟨bytes, 0⟩ text = some ⟨bytes, bytes.length⟩ := by
  rw [expect_eq_some, h]
  simp

/-- The cursor that has taken a text from the start stands at the end where the text is all there
is. -/
theorem offset_of_expect {bytes text : Bytes} {cursor : Cursor}
    (h : expect ⟨bytes, 0⟩ text = some cursor) :
    cursor.offset = bytes.length ↔ bytes = text := by
  obtain ⟨hTake, rfl⟩ := expect_eq_some.mp h
  simp only [List.drop_zero, Nat.zero_add] at hTake ⊢
  constructor
  · intro hLength
    rwa [hLength, List.take_length] at hTake
  · exact fun hBytes => congrArg List.length hBytes.symm

theorem expect_append (cursor : Cursor) (left right : Bytes) :
    expect cursor (left ++ right) = (expect cursor left).bind fun cursor =>
      expect cursor right := by
  apply Option.ext
  intro cursor'
  rw [Option.bind_eq_some_iff]
  simp only [expect_eq_some]
  constructor
  · rintro ⟨hTake, rfl⟩
    rw [List.length_append, List.take_add, List.drop_drop] at hTake
    have hLength : ((cursor.bytes.drop cursor.offset).take left.length).length = left.length := by
      have hAll := congrArg List.length hTake
      simp only [List.length_append, List.length_take, List.length_drop] at hAll ⊢
      omega
    obtain ⟨hLeft, hRight⟩ := List.append_inj hTake hLength
    refine ⟨_, ⟨hLeft, rfl⟩, hRight, ?_⟩
    rw [List.length_append, Nat.add_assoc]
  · rintro ⟨_, ⟨hLeft, rfl⟩, hRight, rfl⟩
    rw [List.length_append, List.take_add, List.drop_drop, hLeft, hRight, Nat.add_assoc]
    exact ⟨rfl, rfl⟩

/-- The program takes the text from the cursor if the condition holds, and otherwise gives up. -/
def Demands (x : Cursor → Option Cursor) (condition : Prop) (text : Bytes) : Prop :=
  ∀ cursor cursor', x cursor = some cursor' ↔ condition ∧ expect cursor text = some cursor'

namespace Demands

variable {x y : Cursor → Option Cursor} {p q : Prop} {left right : Bytes}

theorem text (text : Bytes) : Demands (fun cursor => expect cursor text) True text :=
  fun _ _ => (and_iff_right trivial).symm

theorem done : Demands some True [] := by
  intro cursor cursor'
  rw [and_iff_right trivial, expect_eq_some]
  constructor
  · rintro ⟨⟩
    exact ⟨rfl, rfl⟩
  · rintro ⟨-, rfl⟩
    rfl

theorem seq (hx : Demands x p left) (hy : Demands y q right) :
    Demands (fun cursor => (x cursor).bind y) (p ∧ q) (left ++ right) := by
  intro cursor cursor'
  rw [expect_append, Option.bind_eq_some_iff, Option.bind_eq_some_iff]
  simp only [hx _ _, hy _ _]
  constructor
  · rintro ⟨cursor'', ⟨hp, hLeft⟩, hq, hRight⟩
    exact ⟨⟨hp, hq⟩, cursor'', hLeft, hRight⟩
  · rintro ⟨⟨hp, hq⟩, cursor'', hLeft, hRight⟩
    exact ⟨cursor'', ⟨hp, hLeft⟩, hq, hRight⟩

theorem congr (h : Demands x p left) (hp : p ↔ q) (hSame : left = right) : Demands x q right := by
  subst hSame
  intro cursor cursor'
  rw [h cursor cursor', hp]

theorem guarded {refused : Prop} [Decidable refused] (h : Demands x p left) :
    Demands (fun cursor => if refused then none else x cursor) (¬refused ∧ p) left := by
  intro cursor cursor'
  change (if refused then none else x cursor) = some cursor' ↔ _
  by_cases hRefused : refused
  · simp [hRefused]
  · rw [if_neg hRefused, and_iff_right hRefused, h cursor cursor']

end Demands

/-! ### Strings and numbers -/

theorem expectEscaped_demands (text : Bytes) :
    Demands (fun cursor => expectEscaped cursor text) True (text.flatMap canonicalEscape) := by
  induction text with
  | nil => exact .done
  | cons byte rest ih =>
      rw [List.flatMap_cons]
      exact ((Demands.text (canonicalEscape byte)).seq ih).congr (and_self_iff) rfl

theorem expectString_demands (text : Bytes) :
    Demands (fun cursor => expectString cursor text) True (plainLayout.literal text) := by
  have hAll := (Demands.text [0x22]).seq ((expectEscaped_demands text).seq (Demands.text [0x22]))
  refine hAll.congr (by simp) ?_
  rw [Layout.literal, quoted, content_plain rfl, List.append_assoc]

theorem any_isFractional {parts : NumberParts} (h : parts.WellFormed) :
    parts.bytes.any isFractional = false ↔ parts.IsInteger := by
  have hMinus : parts.minus.any isFractional = false := by
    rcases h.minus with hMinus | hMinus <;> rw [hMinus] <;> rfl
  have hInteger : parts.integer.any isFractional = false := by
    rw [List.any_eq_false]
    intro byte hByte hMark
    obtain ⟨hLow, hHigh⟩ := h.integer.digits.2 byte hByte
    have hCases : (byte = 0x2e ∨ byte = 0x65) ∨ byte = 0x45 := by simpa [isFractional] using hMark
    rcases hCases with (rfl | rfl) | rfl
    · exact absurd hLow (by decide)
    · exact absurd hHigh (by decide)
    · exact absurd hHigh (by decide)
  have hFraction : parts.fraction.any isFractional = false ↔ parts.fraction = [] := by
    rcases h.fraction with hNone | ⟨digits, -, hSome⟩
    · rw [hNone]
      exact ⟨fun _ => rfl, fun _ => rfl⟩
    · rw [hSome]
      exact ⟨nofun, nofun⟩
  have hExponent : parts.exponent.any isFractional = false ↔ parts.exponent = [] := by
    rcases h.exponent with hNone | ⟨marker, sign, digits, hMarker, -, -, hSome⟩
    · rw [hNone]
      exact ⟨fun _ => rfl, fun _ => rfl⟩
    · rw [hSome, List.cons_append, List.any_cons]
      rcases hMarker with rfl | rfl
      · exact ⟨nofun, nofun⟩
      · exact ⟨nofun, nofun⟩
  rw [NumberParts.bytes, List.any_append, List.any_append, List.any_append, hMinus, hInteger,
    Bool.false_or, Bool.false_or, Bool.or_eq_false_iff, hFraction, hExponent, NumberParts.IsInteger]

section

variable {document : Document} {value : Nat}

theorem tokenOf_ok {expected : ValueType} {token : Token} :
    tokenOf document value expected = .ok token ↔
      value < document.tokens.length ∧ (document.token value).type = expected ∧
      document.token value = token := by
  rw [tokenOf]
  split_ifs with hRange hType
  · exact ⟨(by simp), fun h => absurd h.1 (not_lt.mpr hRange)⟩
  · exact ⟨(by simp), fun h => absurd h.2.1 hType⟩
  · rw [Except.ok.injEq, and_iff_right (not_le.mp hRange), and_iff_right (not_not.mp hType)]

/-- An accessor that answers has found a token of its type. -/
theorem tokenOf_bind_ok {α : Type} {expected : ValueType} {f : Token → Except Result α} {a : α}
    (h : tokenOf document value expected >>= f = .ok a) :
    (document.token value).type = expected ∧ f (document.token value) = .ok a := by
  cases hToken : tokenOf document value expected with
  | error r =>
      rw [hToken] at h
      cases h
  | ok token =>
      rw [hToken] at h
      obtain ⟨-, hType, rfl⟩ := tokenOf_ok.mp hToken
      exact ⟨hType, h⟩

theorem textView_ok {expected : ValueType} {text : Bytes}
    (h : textView document value expected = .ok text) :
    document.textOf (document.token value) = text := Except.ok.inj (tokenOf_bind_ok h).2

theorem objectMemberAt_ok {k member : Nat} {key : Bytes}
    (h : objectMemberAt document value k = .ok (key, member)) :
    document.textOf (document.token (childAt document (document.token value) (2 * k))) = key ∧
      childAt document (document.token value) (2 * k + 1) = member := by
  have hRest := (tokenOf_bind_ok h).2
  split_ifs at hRest
  · cases hRest
  · cases hRest
    exact ⟨rfl, rfl⟩

theorem arrayGet_ok {k element : Nat} (h : arrayGet document value k = .ok element) :
    childAt document (document.token value) k = element := by
  have hRest := (tokenOf_bind_ok h).2
  split_ifs at hRest
  · cases hRest
  · exact Except.ok.inj hRest

theorem token_type_of_valueType {type : ValueType} (h : valueType document value = type)
    (hType : type ≠ .none) :
    (document.token value).type = type := by
  rw [valueType] at h
  split_ifs at h
  · exact h
  · exact absurd h.symm hType

/-- A number is taken in its shortest spelling, if it is an integer that fits. -/
theorem expectNumber_demands {lexeme : Bytes} (hText : valueNumberText document value = .ok lexeme)
    (hNumber : Number lexeme) :
    Demands (fun cursor => expectNumber cursor document value) (WrittenWhole lexeme ∧
      WholeFits lexeme) (rendered lexeme) := by
  obtain ⟨parts, hParts, rfl⟩ := hNumber
  have hFractional := any_isFractional hParts
  rw [← writtenWhole_parts hParts] at hFractional
  intro cursor cursor'
  simp only [expectNumber, textView_ok hText]
  by_cases hWhole : WrittenWhole parts.bytes
  swap
  · rw [if_pos (by rwa [← hFractional, Bool.not_eq_false] at hWhole)]
    exact ⟨(by simp), fun h => absurd h.1.1 hWhole⟩
  have hInteger := (writtenWhole_parts hParts).mp hWhole
  have hMinus : (parts.bytes.head? = some 0x2d) ↔ parts.minus ≠ [] := by
    rw [← negativeLexeme_parts hParts, negativeLexeme, beq_iff_eq]
  have hFits : WholeFits parts.bytes ↔ -2 ^ 63 ≤ parts.denoted ∧ parts.denoted ≤ 2 ^ 64 - 1 := by
    rw [WholeFits, wholeValue_parts hParts]
  have hRendered (hIn : WholeFits parts.bytes) : rendered parts.bytes =
      if parts.minus ≠ [] then decimalI64 (.ofInt parts.denoted)
        else decimalU64 (.ofNat parts.magnitude) := by
    have hMagnitude : wholeMagnitude parts.bytes = parts.magnitude :=
      congrArg (decimalValue 0) (wholeDigits_parts hParts)
    rw [rendered, copiedNumeral, numeralOf, if_pos hIn, if_pos hWhole, wholeValue_parts hParts,
      hMagnitude]
    simp only [negativeLexeme_parts hParts]
    split_ifs
    · rfl
    · rfl
  rw [if_neg (by rw [hFractional.mpr hWhole]; simp), and_iff_right hWhole]
  by_cases hSign : parts.minus = []
  · have hDenoted : parts.denoted = parts.magnitude := if_pos hSign
    have hNatural : 0 ≤ parts.denoted := by omega
    rw [if_neg (hMinus.not.mpr (not_not.mpr hSign)), valueU64_eq hText hParts,
      if_neg (not_not.mpr hInteger), if_pos hNatural]
    by_cases hOver : 2 ^ 64 - 1 < parts.magnitude
    · rw [if_pos hOver, hFits]
      exact ⟨(by simp), fun h => by omega⟩
    · have hIn : WholeFits parts.bytes := hFits.mpr (by omega)
      rw [if_neg hOver, and_iff_right hIn, hRendered hIn, if_neg (not_not.mpr hSign)]
  · have hDenoted : parts.denoted = -parts.magnitude := if_neg hSign
    have hSmall : parts.denoted ≤ 2 ^ 63 - 1 := by omega
    rw [if_pos (hMinus.mpr hSign), valueI64_eq hText hParts, if_neg (not_not.mpr hInteger),
      if_pos hSmall]
    by_cases hOver : 2 ^ 63 < parts.magnitude
    · rw [if_pos hOver, hFits]
      exact ⟨(by simp), fun h => by omega⟩
    · have hIn : WholeFits parts.bytes := hFits.mpr (by omega)
      rw [if_neg hOver, and_iff_right hIn, hRendered hIn, if_pos hSign]

/-! ### Members and elements -/

/-- Items with commas between them, from the item at `k` on. -/
def joinedFrom (k : Nat) (items : List Bytes) : Bytes :=
  if k = 0 then List.intercalate [0x2c] items else items.flatMap ([0x2c] ++ ·)

theorem intercalate_eq (item : Bytes) (items : List Bytes) :
    List.intercalate [0x2c] (item :: items) = item ++ items.flatMap ([0x2c] ++ ·) := by
  induction items generalizing item with
  | nil => rw [List.intercalate_singleton, List.flatMap_nil, List.append_nil]
  | cons next items ih =>
      rw [List.intercalate_cons_cons, ih, List.flatMap_cons, List.append_assoc, List.append_assoc]

theorem joinedFrom_cons (k : Nat) (item : Bytes) (items : List Bytes) :
    joinedFrom k (item :: items) = (if k ≠ 0 then [0x2c] else []) ++
      (item ++ joinedFrom (k + 1) items) := by
  rw [joinedFrom, joinedFrom, if_neg (Nat.succ_ne_zero k)]
  by_cases hFirst : k = 0
  · rw [if_pos hFirst, if_neg (not_not.mpr hFirst), intercalate_eq, List.nil_append]
  · rw [if_neg hFirst, if_pos hFirst, List.flatMap_cons, List.append_assoc]

theorem joinedFrom_nil (k : Nat) : joinedFrom k [] = [] := by
  rw [joinedFrom]
  split_ifs <;> rfl

theorem comma_demands (k : Nat) :
    Demands (fun cursor => if k ≠ 0 then expectByte cursor 0x2c else some cursor) True
      (if k ≠ 0 then [0x2c] else []) := by
  by_cases hFirst : k ≠ 0
  · simp only [if_pos hFirst]
    exact Demands.text [0x2c]
  · simp only [if_neg hFirst]
    exact .done

section

variable {walk : Cursor → Nat → Option Cursor} {token : Token} {holds : Json → Prop}
  {spelled : Json → Bytes}

theorem expectElements_succ (rounds k : Nat) (cursor : Cursor) :
    expectElements walk document token (rounds + 1) k cursor =
      (if k ≠ 0 then expectByte cursor 0x2c else some cursor).bind fun cursor =>
        (walk cursor (childAt document token k)).bind
          (expectElements walk document token rounds (k + 1)) := by
  by_cases hFirst : k ≠ 0
  · simp [expectElements, hFirst]
  · simp [expectElements, hFirst]

theorem expectElements_demands {elements : List Json}
    (hElements : ∀ k (hk : k < elements.length),
      Demands (fun cursor => walk cursor (childAt document token k)) (holds elements[k])
        (spelled elements[k]))
    (rounds k : Nat) (hRounds : k + rounds = elements.length) :
    Demands (expectElements walk document token rounds k) (∀ v ∈ elements.drop k, holds v)
      (joinedFrom k ((elements.drop k).map spelled)) := by
  induction rounds generalizing k with
  | zero =>
      rw [List.drop_eq_nil_of_le (by omega), List.map_nil, joinedFrom_nil]
      exact Demands.done.congr (by simp) rfl
  | succ rounds ih =>
      have hk : k < elements.length := by omega
      have hAll := (comma_demands k).seq ((hElements k hk).seq (ih (k + 1) (by omega)))
      rw [List.drop_eq_getElem_cons hk, List.map_cons, joinedFrom_cons, List.forall_mem_cons,
        funext (expectElements_succ rounds k)]
      exact hAll.congr (and_iff_right trivial) rfl

theorem expectMembers_succ (rounds k : Nat) (previous : Option Bytes) (cursor : Cursor) :
    expectMembers walk document token (rounds + 1) k previous cursor =
      (if k ≠ 0 then expectByte cursor 0x2c else some cursor).bind fun cursor =>
        if ∃ text ∈ previous,
          utf16Compare text (document.textOf (document.token (childAt document token (2 * k)))) ≥ 0
        then none
        else (expectString cursor
          (document.textOf (document.token (childAt document token (2 * k))))).bind fun cursor =>
          (expectByte cursor 0x3a).bind fun cursor =>
            (walk cursor (childAt document token (2 * k + 1))).bind
            (expectMembers walk document token rounds (k + 1)
              (some (document.textOf (document.token (childAt document token (2 * k)))))) := by
  cases previous with
  | none => by_cases hFirst : k ≠ 0 <;> simp [expectMembers, hFirst]
  | some text =>
      by_cases hOrder :
        utf16Compare text (document.textOf (document.token (childAt document token (2 * k)))) ≥ 0
      · by_cases hFirst : k ≠ 0 <;> simp [expectMembers, hFirst, hOrder]
      · by_cases hFirst : k ≠ 0 <;> simp [expectMembers, hFirst, hOrder]

theorem utf16Compare_nonneg {left right : Bytes} (hLeft : Valid left) (hRight : Valid right) :
    utf16Compare left right ≥ 0 ↔ ¬utf16 left < utf16 right := by
  rw [utf16Compare_eq hLeft hRight, signOf]
  split_ifs with hSame hLess
  · rw [hSame]
    simp
  · simp [hLess]
  · simp [hLess]

theorem expectMembers_demands {members : List (Bytes × Json)} (hKeys : ∀ m ∈ members, Valid m.1)
    (hMembers : ∀ k (hk : k < members.length),
      document.textOf (document.token (childAt document token (2 * k))) = members[k].1 ∧
      Demands (fun cursor => walk cursor (childAt document token (2 * k + 1))) (holds members[k].2)
        (spelled members[k].2))
    (rounds k : Nat) (hRounds : k + rounds = members.length) (previous : Option Bytes)
    (hPrevious : ∀ text ∈ previous, Valid text) :
    Demands (expectMembers walk document token rounds k previous)
      ((previous.toList ++ (members.drop k).map Prod.fst).IsChain
        (fun left right => utf16 left < utf16 right) ∧ ∀ m ∈ members.drop k, holds m.2)
      (joinedFrom k ((members.drop k).map fun m => plainLayout.member m.1 (spelled m.2))) := by
  induction rounds generalizing k previous with
  | zero =>
      rw [List.drop_eq_nil_of_le (by omega), List.map_nil, List.map_nil, joinedFrom_nil]
      refine Demands.done.congr (iff_of_true trivial ⟨?_, nofun⟩) rfl
      cases previous <;> simp
  | succ rounds ih =>
      have hk : k < members.length := by omega
      obtain ⟨hKey, hValue⟩ := hMembers k hk
      have hValid := hKeys _ (List.getElem_mem hk)
      have hRest := ih (k + 1) (by omega) (some members[k].1) (by simpa using hValid)
      have hMember := (expectString_demands members[k].1).seq
        ((Demands.text [0x3a]).seq (hValue.seq hRest))
      have hGuarded := @Demands.guarded _ _ _
        (∃ text ∈ previous, utf16Compare text members[k].1 ≥ 0) _ hMember
      have hChain (rest : List Bytes) :
          (previous.toList ++ members[k].1 :: rest).IsChain
          (fun left right => utf16 left < utf16 right) ↔
          (¬∃ text ∈ previous, utf16Compare text members[k].1 ≥ 0) ∧
            (members[k].1 :: rest).IsChain fun left right => utf16 left < utf16 right := by
        cases previous with
        | none => simp
        | some text =>
            simp [List.isChain_cons_cons, utf16Compare_nonneg (hPrevious text rfl) hValid]
      rw [List.drop_eq_getElem_cons hk, List.map_cons, List.map_cons, joinedFrom_cons,
        List.forall_mem_cons, funext (expectMembers_succ rounds k previous), hKey, hChain]
      refine ((comma_demands k).seq hGuarded).congr ?_ ?_
      · simp only [true_and, Option.toList_some, List.singleton_append]
        tauto
      · have hColon : plainLayout.colon = [0x3a] := rfl
        rw [Layout.member, hColon, List.append_assoc, List.append_assoc]

end

/-! ### Values -/

/-- What the walk wants of a value: keys that increase, and integers that fit. -/
def Expectable (t : Json) : Prop :=
  t.ordered = true ∧ t.Every (fun _ => True) fun lexeme => WrittenWhole lexeme ∧ WholeFits lexeme

theorem expectable_object (members : List (Bytes × Json)) :
    Expectable (.object members) ↔
      (members.map fun m => utf16 m.1).Pairwise (· < ·) ∧ ∀ m ∈ members, Expectable m.2 := by
  simp only [Expectable, Tree.ordered_object, Tree.every_object, true_and, forall_and, and_assoc]

theorem expectable_array (elements : List Json) :
    Expectable (.array elements) ↔ ∀ v ∈ elements, Expectable v := by
  simp only [Expectable, Tree.ordered_array, Tree.every_array, forall_and]

theorem plain_enclose_joined (opening closing : UInt8) (items : List Bytes) (level : Nat) :
    plainLayout.enclose level opening closing items =
      [opening] ++ (joinedFrom 0 items ++ [closing]) := by
  rw [plain_enclose, joinedFrom, if_pos rfl, List.append_assoc]

section

variable {fuel : Nat} {t : Json}

/-- The walk takes the text that the serializer writes, exactly where the value is one it wants. -/
theorem expectValue_demands (hTree : valueTree document fuel value = .ok t)
    (hEvery : t.Every (PlainText .rfc8259) Number) (level : Nat) :
    Demands (fun cursor => expectValue document fuel cursor value) (Expectable t)
      ((t.map rendered).spell plainLayout level) := by
  induction fuel generalizing value t level with
  | zero => cases hTree
  | succ fuel ih =>
      simp only [expectValue]
      cases hType : valueType document value with
      | object =>
          obtain ⟨members, rfl, hSize, hMembers⟩ := valueTree_object hType hTree
          rw [Tree.every_object] at hEvery
          have hCount : (document.token value).links.childCount / 2 = members.length :=
            Except.ok.inj (tokenOf_bind_ok hSize).2
          have hLoop := @expectMembers_demands document (expectValue document fuel)
            (document.token value) Expectable
            (fun v => (v.map rendered).spell plainLayout (level + 1)) members
            (fun m hm => (hEvery m hm).1.valid) (fun k hk => by
              obtain ⟨v, hAt, hValue⟩ := hMembers k hk
              obtain ⟨hKey, rfl⟩ := objectMemberAt_ok hAt
              exact ⟨hKey, ih hValue (hEvery _ (List.getElem_mem hk)).2 (level + 1)⟩) members.length
                0 (Nat.zero_add _) none (by simp)
          have hAll := (Demands.text [0x7b]).seq (hLoop.seq (Demands.text [0x7d]))
          simp only [token_type_of_valueType hType (by simp), expectObject, hCount]
          refine hAll.congr ?_ ?_
          · simp only [expectable_object, true_and, and_true, Option.toList_none, List.nil_append,
              List.drop_zero, ← List.isChain_iff_pairwise, List.isChain_map]
          · rw [Tree.map_object, Tree.spell_object, plain_enclose_joined, List.map_map]
            rfl
      | array =>
          obtain ⟨elements, rfl, hSize, hElements⟩ := valueTree_array hType hTree
          rw [Tree.every_array] at hEvery
          have hCount : (document.token value).links.childCount = elements.length :=
            Except.ok.inj (tokenOf_bind_ok hSize).2
          have hLoop := @expectElements_demands document (expectValue document fuel)
            (document.token value) Expectable
            (fun v => (v.map rendered).spell plainLayout (level + 1)) elements (fun k hk => by
              obtain ⟨v, hAt, hValue⟩ := hElements k hk
              obtain rfl := arrayGet_ok hAt
              exact ih hValue (hEvery _ (List.getElem_mem hk)) (level + 1)) elements.length 0
                (Nat.zero_add _)
          have hAll := (Demands.text [0x5b]).seq (hLoop.seq (Demands.text [0x5d]))
          simp only [token_type_of_valueType hType (by simp), expectArray, hCount]
          refine hAll.congr ?_ ?_
          · simp only [expectable_array, true_and, and_true, List.drop_zero]
          · rw [Tree.map_array, Tree.spell_array, plain_enclose_joined, List.map_map]
            rfl
      | string =>
          rw [valueTree, hType] at hTree
          cases hText : valueString document value with
          | error r =>
              rw [hText] at hTree
              cases hTree
          | ok text =>
              rw [hText] at hTree
              cases hTree
              simp only [token_type_of_valueType hType (by simp), textView_ok hText]
              exact (expectString_demands text).congr (iff_of_true trivial ⟨rfl, trivial⟩) rfl
      | number =>
          rw [valueTree, hType] at hTree
          cases hText : valueNumberText document value with
          | error r =>
              rw [hText] at hTree
              cases hTree
          | ok lexeme =>
              rw [hText] at hTree
              cases hTree
              simp only [token_type_of_valueType hType (by simp)]
              exact (expectNumber_demands hText hEvery).congr (and_iff_right rfl).symm rfl
      | boolean =>
          rw [valueTree, hType] at hTree
          cases hValue : valueBoolean document value with
          | error r =>
              rw [hValue] at hTree
              cases hTree
          | ok enabled =>
              rw [hValue] at hTree
              cases hTree
              obtain rfl : (document.token value).booleanValue = enabled :=
                Except.ok.inj (tokenOf_bind_ok hValue).2
              simp only [token_type_of_valueType hType (by simp)]
              exact (Demands.text _).congr (iff_of_true trivial ⟨rfl, trivial⟩) rfl
      | null =>
          rw [valueTree, hType] at hTree
          simp only at hTree
          split_ifs at hTree
          cases hTree
          simp only [token_type_of_valueType hType (by simp)]
          exact (Demands.text _).congr (iff_of_true trivial ⟨rfl, trivial⟩) rfl
      | none =>
          rw [valueTree, hType] at hTree
          cases hTree

end

end

end MaelysJson
