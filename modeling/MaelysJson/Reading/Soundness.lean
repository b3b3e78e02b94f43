import MaelysJson.General.Run
import MaelysJson.Reading.Reader
import MaelysJson.Text.Content
import MaelysJson.Text.Number

/-! What the reader accepts is derived by the grammar, within the bounds. -/
namespace MaelysJson

open Grammar Run

namespace Reading

variable {r : Reading} {place next : Place}

theorem stands_space (bytes : Bytes) (offset : Nat) :
    ∃ gap, Blank gap ∧ Stands bytes gap offset (spaceEnd bytes offset) := by
  refine ⟨_, fun byte hByte => ?_, drop_eq_scanned isSpace bytes offset, rfl⟩
  have hSpace := List.all_eq_true.mp (List.all_takeWhile (l := bytes.drop offset)) byte hByte
  simp only [isSpace, Bool.or_eq_true, beq_iff_eq] at hSpace
  rcases hSpace with ((h | h) | h) | h
  · exact Or.inl h
  · exact Or.inr (Or.inl h)
  · exact Or.inr (Or.inr (Or.inr h))
  · exact Or.inr (Or.inr (Or.inl h))

theorem stands_byte {byte : UInt8} (hEnd : ¬r.atEnd place = true) (hByte : r.current place = byte) :
    Stands r.bytes [byte] place.offset (place.offset + 1) := by
  rw [atEnd, decide_eq_true_eq, not_le] at hEnd
  rw [← hByte]
  exact .byte hEnd

theorem readByte_sound {byte : UInt8} (h : r.readByte byte place = .ok () next) :
    Stands r.bytes [byte] place.offset next.offset ∧ next.count = place.count := by
  rw [readByte] at h
  split_ifs at h with hEnd
  · cases h
  · rw [not_or, not_not] at hEnd
    cases h
    exact ⟨stands_byte hEnd.1 hEnd.2, rfl⟩

theorem readString_sound {literal : Literal} (h : r.readString place = .ok literal next) :
    ∃ content, Content r.profile content literal.text ∧
      Stands r.bytes (quoted content) place.offset next.offset ∧
      next.count = place.count + 1 ∧ next.count ≤ r.capacity := by
  simp only [readString] at h
  by_cases hQuote : r.atEnd place = true ∨ r.current place ≠ 0x22
  · rw [if_pos hQuote] at h
    cases h
  rw [if_neg hQuote] at h
  cases hScan : scanStringFrom r.profile r.bytes (r.bytes.length + 1) (place.offset + 1) with
  | refused offset => rw [hScan] at h; cases h
  | unterminated offset => rw [hScan] at h; cases h
  | closed stop =>
      simp only [hScan] at h
      by_cases hRoom : place.count ≥ r.capacity
      · rw [if_pos hRoom] at h
        cases h
      rw [if_neg hRoom] at h
      cases hDecode : decodeString (r.content (place.offset + 1) stop) r.profile with
      | error fault => rw [hDecode] at h; cases h
      | ok text =>
          rw [hDecode] at h
          cases h
          obtain ⟨content, hPieces, hDrop, rfl⟩ := scanStringFrom_sound hScan
          have hContent : r.content (place.offset + 1) (place.offset + 1 + content.length) =
              content := by
            rw [Reading.content, hDrop, Nat.add_sub_cancel_left, List.take_left]
          rw [hContent] at hDecode
          rw [not_or, not_not] at hQuote
          refine ⟨content, (content_iff _ _ _).mpr ⟨hPieces, hDecode⟩, ?_, rfl,
            by simpa using hRoom⟩
          have hOpen := stands_byte hQuote.1 hQuote.2
          refine (hOpen.trans (show Stands r.bytes (content ++ [0x22]) _ _ from ⟨?_, ?_⟩) :)
          · rw [hDrop, List.append_assoc]
            rfl
          · simp only [List.length_append, List.length_cons, List.length_nil]
            omega

theorem readKey_sound {seen : List Bytes} {literal : Literal}
    (h : r.readKey seen place = .ok literal next) :
    r.readString place = .ok literal next ∧
      (r.profile ≠ .rfc8259LastWins → literal.text ∉ seen) := by
  rw [readKey] at h
  cases hString : r.readString place with
  | error fault place' => rw [hString] at h; cases h
  | ok key next' =>
      simp only [hString] at h
      split_ifs at h with hSeen
      · cases h
      cases h
      exact ⟨rfl, fun hProfile hMem => hSeen ⟨hProfile, hMem⟩⟩

theorem readDelimiter_sound {closing : UInt8} {closed : Bool}
    (h : r.readDelimiter closing place = .ok closed next) :
    next.count = place.count ∧ ∃ gap, Blank gap ∧
      ((closed = true ∧ Stands r.bytes (gap ++ [closing]) place.offset next.offset) ∨
        (closed = false ∧ ∃ gap', Blank gap' ∧
          Stands r.bytes (gap ++ [0x2c] ++ gap') place.offset next.offset)) := by
  obtain ⟨gap, hGap, hSpace⟩ := stands_space r.bytes place.offset
  obtain ⟨_, middle, hMiddle, h⟩ := bind_eq_ok.mp h
  cases hMiddle
  rw [get_bind] at h
  split_ifs at h with hEnd hClosing hComma
  · cases h
  · cases h
    exact ⟨rfl, gap, hGap, Or.inl ⟨rfl, hSpace.trans (stands_byte hEnd hClosing)⟩⟩
  · cases h
    obtain ⟨gap', hGap', hSpace'⟩ :=
      stands_space r.bytes (spaceEnd r.bytes place.offset + 1)
    exact ⟨rfl, gap, hGap, Or.inr ⟨rfl, gap', hGap',
      (hSpace.trans (stands_byte hEnd hComma)).trans hSpace'⟩⟩
  · cases h

theorem readEmpty_sound {closing : UInt8} {closed : Bool}
    (h : r.readEmpty closing place = .ok closed next) :
    next.count = place.count ∧ ∃ gap, Blank gap ∧
      Stands r.bytes (gap ++ if closed then [closing] else []) place.offset next.offset := by
  obtain ⟨gap, hGap, hSpace⟩ := stands_space r.bytes place.offset
  obtain ⟨_, middle, hMiddle, h⟩ := bind_eq_ok.mp h
  cases hMiddle
  rw [get_bind] at h
  split_ifs at h with hClosing
  · cases h
    exact ⟨rfl, gap, hGap, hSpace.trans (stands_byte hClosing.1 hClosing.2)⟩
  · cases h
    exact ⟨rfl, gap, hGap, by simpa using hSpace⟩

/-- What a successful reading of a value at nesting `depth` has found. -/
structure Found (r : Reading) (depth : Nat) (place next : Place) (t : Json) : Prop where
  derived : ∃ gap body, Blank gap ∧ Value r.profile body t ∧
    Stands r.bytes (gap ++ body) place.offset next.offset
  count : next.count = place.count + t.tokens
  room : next.count ≤ r.capacity
  depth : depth + t.depth ≤ r.maximumDepth
  keys : r.profile ≠ .rfc8259LastWins → t.uniqueKeys = true

theorem within_eq_ok {α : Type} {step : Step} {read : ReadM α} {value : α} :
    within step read place = .ok value next ↔ read place = .ok value next := by
  rw [within]
  cases read place <;> simp

theorem readItem_sound {readValue : ReadM Source} {closing : UInt8} {step : Step} {value : Source}
    {closed : Bool} (h : r.readItem readValue closing step place = .ok (value, closed) next) :
    ∃ middle, readValue place = .ok value middle ∧
      r.readDelimiter closing middle = .ok closed next := by
  rw [readItem, within_eq_ok, bind_eq_ok] at h
  obtain ⟨value', middle, hValue, h⟩ := h
  obtain ⟨closed', next', hClosed, h⟩ := bind_eq_ok.mp h
  cases h
  exact ⟨middle, hValue, hClosed⟩

/-- The members from a key on, up to the closing delimiter. -/
theorem readMembers_sound {readValue : ReadM Source} {depth rounds : Nat} {seen : List Bytes}
    {members : List (Literal × Source)}
    (hValue : ∀ place value next, readValue place = .ok value next →
      Found r (depth + 1) place next value.json)
    (h : r.readMembers readValue rounds seen place = .ok members next) :
    (∃ body after, Members r.profile body (members.map fun m => (m.1.text, m.2.json)) ∧
      Blank after ∧ Stands r.bytes (body ++ after ++ [0x7d]) place.offset next.offset) ∧
    next.count = place.count + (members.map fun m => 1 + m.2.json.tokens).sum ∧
    next.count ≤ r.capacity ∧ (∀ m ∈ members, depth + 1 + m.2.json.depth ≤ r.maximumDepth) ∧
    (r.profile ≠ .rfc8259LastWins → (members.map fun m => m.1.text).Nodup ∧
      (∀ m ∈ members, m.1.text ∉ seen) ∧ ∀ m ∈ members, m.2.json.uniqueKeys = true) := by
  induction rounds generalizing place seen members with
  | zero => cases h
  | succ rounds ih =>
      rw [readMembers] at h
      obtain ⟨key, p₁, hKey, h⟩ := bind_eq_ok.mp h
      obtain ⟨_, p₂, hSpace, h⟩ := bind_eq_ok.mp h
      obtain ⟨_, p₃, hColon, h⟩ := bind_eq_ok.mp h
      obtain ⟨⟨value, closed⟩, p₄, hItem, h⟩ := bind_eq_ok.mp h
      obtain ⟨hString, hSeen⟩ := readKey_sound hKey
      obtain ⟨content, hContent, hQuoted, hCount, hRoom⟩ := readString_sound hString
      obtain ⟨a, hA, hGap⟩ := stands_space r.bytes p₁.offset
      cases hSpace
      obtain ⟨hByte, hCount'⟩ := readByte_sound hColon
      obtain ⟨p, hRead, hDelimiter⟩ := readItem_sound hItem
      have hFound := hValue _ _ _ hRead
      obtain ⟨b, body, hB, hBody, hStands⟩ := hFound.derived
      obtain ⟨hCount'', gap, hBlank, hClosed⟩ := readDelimiter_sound hDelimiter
      have hMember := ((hQuoted.trans hGap).trans hByte).trans hStands
      have hFirst := hFound.count
      have hRoom' := hFound.room
      rcases hClosed with ⟨rfl, hClosing⟩ | ⟨rfl, gap', hBlank', hComma⟩
      · cases h
        refine ⟨⟨_, gap, .last hContent hA hB hBody, hBlank, ?_⟩, ?_, by omega, ?_,
          fun hProfile => ?_⟩
        · have := hMember.trans hClosing
          simpa only [List.append_assoc] using this
        · simp only [List.map_cons, List.map_nil, List.sum_cons, List.sum_nil]
          simp only at hCount hCount'
          omega
        · simpa using hFound.depth
        · simpa using ⟨hSeen hProfile, hFound.keys hProfile⟩
      · obtain ⟨rest, p₅, hRest, h⟩ := bind_eq_ok.mp h
        cases h
        obtain ⟨⟨tail, after, hTail, hAfter, hStands'⟩, hSum, hRoom'', hDepths, hKeys⟩ := ih hRest
        refine ⟨⟨_, after, .more hContent hA hB hBody hBlank hBlank' hTail, hAfter, ?_⟩, ?_,
          by omega, ?_, fun hProfile => ?_⟩
        · have := (hMember.trans hComma).trans hStands'
          simpa only [List.append_assoc] using this
        · simp only [List.map_cons, List.sum_cons]
          simp only at hCount hCount'
          omega
        · exact List.forall_mem_cons.mpr ⟨hFound.depth, hDepths⟩
        · obtain ⟨hNodup, hNot, hUnique⟩ := hKeys hProfile
          simp only [List.mem_cons, not_or] at hNot
          refine ⟨?_, ?_, ?_⟩
          · rw [List.map_cons, List.nodup_cons]
            refine ⟨fun hMem => ?_, hNodup⟩
            obtain ⟨m, hm, hEq⟩ := List.mem_map.mp hMem
            exact (hNot m hm).1 hEq
          · simpa using ⟨hSeen hProfile, fun m v hm => (hNot (m, v) hm).2⟩
          · simpa using ⟨hFound.keys hProfile, fun m v hm => hUnique (m, v) hm⟩

theorem readElements_sound {readValue : ReadM Source} {depth rounds position : Nat}
    {elements : List Source}
    (hValue : ∀ place value next, readValue place = .ok value next →
      Found r (depth + 1) place next value.json)
    (h : r.readElements readValue rounds position place = .ok elements next) :
    (∃ before body after, Blank before ∧ Elements r.profile body (elements.map Source.json) ∧
      Blank after ∧ Stands r.bytes (before ++ body ++ after ++ [0x5d]) place.offset next.offset) ∧
    next.count = place.count + (elements.map fun v => v.json.tokens).sum ∧
    next.count ≤ r.capacity ∧ (∀ v ∈ elements, depth + 1 + v.json.depth ≤ r.maximumDepth) ∧
    (r.profile ≠ .rfc8259LastWins → ∀ v ∈ elements, v.json.uniqueKeys = true) := by
  induction rounds generalizing place position elements with
  | zero => cases h
  | succ rounds ih =>
      rw [readElements] at h
      obtain ⟨⟨value, closed⟩, p₁, hItem, h⟩ := bind_eq_ok.mp h
      obtain ⟨p, hRead, hDelimiter⟩ := readItem_sound hItem
      have hFound := hValue _ _ _ hRead
      obtain ⟨b, body, hB, hBody, hStands⟩ := hFound.derived
      obtain ⟨hCount, gap, hBlank, hClosed⟩ := readDelimiter_sound hDelimiter
      have hFirst := hFound.count
      have hRoom := hFound.room
      rcases hClosed with ⟨rfl, hClosing⟩ | ⟨rfl, gap', hBlank', hComma⟩
      · cases h
        refine ⟨⟨b, body, gap, hB, .last hBody, hBlank, ?_⟩, ?_, by omega, ?_, fun hProfile => ?_⟩
        · have := hStands.trans hClosing
          simpa only [List.append_assoc] using this
        · simpa using by omega
        · simpa using hFound.depth
        · simpa using hFound.keys hProfile
      · obtain ⟨rest, p₂, hRest, h⟩ := bind_eq_ok.mp h
        cases h
        obtain ⟨⟨before, tail, after, hBefore, hTail, hAfter, hStands'⟩, hSum, hRoom',
          hDepths, hKeys⟩ :=
          ih hRest
        have hSpace : Blank (gap' ++ before) := by
          intro byte hByte
          rcases List.mem_append.mp hByte with hByte | hByte
          · exact hBlank' byte hByte
          · exact hBefore byte hByte
        refine ⟨⟨b, _, after, hB, .more hBody hBlank hSpace hTail, hAfter, ?_⟩, ?_, by omega, ?_,
          fun hProfile => ?_⟩
        · have := (hStands.trans hComma).trans hStands'
          simpa only [List.append_assoc] using this
        · simp only [List.map_cons, List.sum_cons]
          omega
        · simpa using ⟨hFound.depth, hDepths⟩
        · simpa using ⟨hFound.keys hProfile, hKeys hProfile⟩

theorem openContainer_sound {depth : Nat} {opening closing : UInt8} {closed : Bool}
    (hEnd : ¬r.atEnd place = true) (hOpening : r.current place = opening)
    (h : r.openContainer depth closing place = .ok closed next) :
    next.count = place.count + 1 ∧ next.count ≤ r.capacity ∧ depth + 1 ≤ r.maximumDepth ∧
      ∃ gap, Blank gap ∧ Stands r.bytes ([opening] ++ gap ++ if closed then [closing] else [])
        place.offset next.offset := by
  rw [openContainer, get_bind] at h
  split_ifs at h with hDepth
  · cases h
  obtain ⟨_, p₁, hToken, h⟩ := bind_eq_ok.mp h
  rw [takeToken] at hToken
  split_ifs at hToken with hRoom
  · cases hToken
  cases hToken
  obtain ⟨_, p₂, hAdvance, h⟩ := bind_eq_ok.mp h
  cases hAdvance
  obtain ⟨hCount, gap, hGap, hStands⟩ := readEmpty_sound h
  refine ⟨hCount, ?_, by omega, gap, hGap, ?_⟩
  · simp only at hCount
    omega
  · have := (stands_byte hEnd hOpening).trans hStands
    simpa only [List.append_assoc] using this

theorem readObject_sound {readValue : ReadM Source} {depth : Nat} {value : Source}
    (hEnd : ¬r.atEnd place = true) (hOpening : r.current place = 0x7b)
    (hValue : ∀ place value next, readValue place = .ok value next →
      Found r (depth + 1) place next value.json)
    (h : r.readObject readValue depth place = .ok value next) :
    Found r depth place next value.json := by
  rw [readObject, get_bind] at h
  obtain ⟨closed, p₁, hOpen, h⟩ := bind_eq_ok.mp h
  obtain ⟨hCount, hRoom, hDepth, gap, hGap, hStands⟩ := openContainer_sound hEnd hOpening hOpen
  cases closed with
  | true =>
      cases h
      rw [Source.json_object, List.map_nil]
      exact ⟨⟨[], _, List.forall_mem_nil _, .emptyObject hGap, hStands⟩,
        by simpa using hCount, hRoom, (Tree.depth_object_le _ _ _).mpr ⟨hDepth, (by simp)⟩, fun _ =>
        (Tree.uniqueKeys_object _).mpr ⟨.nil, (by simp)⟩⟩
  | false =>
      obtain ⟨members, p₂, hMembers, h⟩ := bind_eq_ok.mp h
      cases h
      obtain ⟨⟨body, after, hBody, hAfter, hStands'⟩, hSum, hRoom', hDepths, hKeys⟩ :=
        readMembers_sound hValue hMembers
      rw [Source.json_object]
      refine ⟨⟨[], _, List.forall_mem_nil _, .object hGap hBody hAfter, ?_⟩, ?_, hRoom', ?_,
        fun hProfile => ?_⟩
      · have := hStands.trans hStands'
        simpa using this
      · simp only [Tree.tokens_object, List.map_map, Function.comp_def]
        omega
      · exact (Tree.depth_object_le _ _ _).mpr ⟨hDepth, List.forall_mem_map.mpr hDepths⟩
      · obtain ⟨hNodup, -, hUnique⟩ := hKeys hProfile
        refine (Tree.uniqueKeys_object _).mpr ⟨?_, ?_⟩
        · simpa only [List.map_map, Function.comp_def] using hNodup
        · exact List.forall_mem_map.mpr hUnique

theorem readArray_sound {readValue : ReadM Source} {depth : Nat} {value : Source}
    (hEnd : ¬r.atEnd place = true) (hOpening : r.current place = 0x5b)
    (hValue : ∀ place value next, readValue place = .ok value next →
      Found r (depth + 1) place next value.json)
    (h : r.readArray readValue depth place = .ok value next) :
    Found r depth place next value.json := by
  rw [readArray, get_bind] at h
  obtain ⟨closed, p₁, hOpen, h⟩ := bind_eq_ok.mp h
  obtain ⟨hCount, hRoom, hDepth, gap, hGap, hStands⟩ := openContainer_sound hEnd hOpening hOpen
  cases closed with
  | true =>
      cases h
      rw [Source.json_array, List.map_nil]
      exact ⟨⟨[], _, List.forall_mem_nil _, .emptyArray hGap, hStands⟩,
        by simpa using hCount, hRoom, (Tree.depth_array_le _ _ _).mpr ⟨hDepth, (by simp)⟩, fun _ =>
        (Tree.uniqueKeys_array _).mpr (by simp)⟩
  | false =>
      obtain ⟨elements, p₂, hElements, h⟩ := bind_eq_ok.mp h
      cases h
      obtain ⟨⟨before, body, after, hBefore, hBody, hAfter, hStands'⟩, hSum, hRoom',
        hDepths, hKeys⟩ :=
        readElements_sound hValue hElements
      have hSpace : Blank (gap ++ before) := by
        intro byte hByte
        rcases List.mem_append.mp hByte with hByte | hByte
        · exact hGap byte hByte
        · exact hBefore byte hByte
      rw [Source.json_array]
      refine ⟨⟨[], _, List.forall_mem_nil _, .array hSpace hBody hAfter, ?_⟩, ?_, hRoom', ?_,
        fun hProfile => ?_⟩
      · have := hStands.trans hStands'
        simpa using this
      · simp only [Tree.tokens_array, List.map_map, Function.comp_def]
        omega
      · exact (Tree.depth_array_le _ _ _).mpr ⟨hDepth, List.forall_mem_map.mpr hDepths⟩
      · exact (Tree.uniqueKeys_array _).mpr (List.forall_mem_map.mpr (hKeys hProfile))

/-- A primitive is `true`, `false`, `null` or a number. -/
theorem primitive_sound {profile : Profile} {span : Span} {lexeme : Bytes} {value : Source}
    (h : primitive span lexeme = some value) :
    Value profile lexeme value.json ∧ value.json.tokens = 1 ∧ value.json.depth = 0 ∧
      value.json.uniqueKeys = true := by
  simp only [primitive, primitiveType] at h
  split_ifs at h with hTrue hFalse hNull hNumber
  · cases h
    subst hTrue
    exact ⟨.true, rfl, rfl, rfl⟩
  · cases h
    subst hFalse
    exact ⟨.false, rfl, rfl, rfl⟩
  · cases h
    subst hNull
    exact ⟨.null, rfl, rfl, rfl⟩
  · cases h
    exact ⟨.number ((numberSyntax_iff _).mp hNumber), rfl, rfl, rfl⟩

theorem readPrimitive_sound {depth : Nat} {value : Source} (hDepth : depth ≤ r.maximumDepth)
    (h : r.readPrimitive place = .ok value next) : Found r depth place next value.json := by
  simp only [readPrimitive] at h
  cases hPrimitive : primitive ⟨place.offset, primitiveEnd r.bytes place.offset⟩
      (r.content place.offset (primitiveEnd r.bytes place.offset)) with
  | none => rw [hPrimitive] at h; cases h
  | some value' =>
      simp only [hPrimitive] at h
      split_ifs at h with hRoom
      · cases h
      cases h
      obtain ⟨hValue, hTokens, hNone, hKeys⟩ := @primitive_sound r.profile _ _ _ hPrimitive
      refine ⟨⟨[], _, nofun, hValue, ?_⟩, by rw [hTokens], by simpa using hRoom,
        by rw [hNone]; exact hDepth, fun _ => hKeys⟩
      have hContent := take_scanned (fun byte => !isDelimiter byte) r.bytes place.offset
      rw [Reading.content, primitiveEnd, hContent]
      exact ⟨drop_eq_scanned _ _ _, rfl⟩

/-- A value the reader accepts is derived by the grammar within the bounds. -/
theorem readValue_sound {fuel depth : Nat} {value : Source}
    (hDepth : depth + fuel ≤ r.maximumDepth + 1)
    (h : r.readValue fuel depth place = .ok value next) : Found r depth place next value.json := by
  induction fuel generalizing depth place next value with
  | zero => cases h
  | succ fuel ih =>
      rw [readValue] at h
      obtain ⟨gap, hGap, hStands⟩ := stands_space r.bytes place.offset
      obtain ⟨_, middle, hSpace, h⟩ := bind_eq_ok.mp h
      have hItem := fun place value next => @ih place next (depth + 1) value (by omega)
      have hAfter : Found r depth middle next value.json := by
        rw [get_bind] at h
        split_ifs at h with hEnd hObject hArray hString
        · cases h
        · exact readObject_sound hEnd hObject hItem h
        · exact readArray_sound hEnd hArray hItem h
        · obtain ⟨literal, p, hLiteral, h⟩ := bind_eq_ok.mp h
          cases h
          obtain ⟨content, hContent, hQuoted, hCount, hRoom⟩ := readString_sound hLiteral
          exact ⟨⟨[], _, nofun, .string hContent, hQuoted⟩, hCount, hRoom,
            show depth + 0 ≤ _ by omega, fun _ => rfl⟩
        · exact readPrimitive_sound (by omega) h
      cases hSpace
      obtain ⟨gap', body, hGap', hBody, hStands'⟩ := hAfter.derived
      refine ⟨⟨gap ++ gap', body, fun byte hByte => ?_, hBody, ?_⟩, hAfter.count, hAfter.room,
        hAfter.depth, hAfter.keys⟩
      · rcases List.mem_append.mp hByte with hByte | hByte
        · exact hGap byte hByte
        · exact hGap' byte hByte
      · have := hStands.trans hStands'
        simpa only [List.append_assoc] using this

/-- A text the reader accepts is derived by the grammar within the bounds. -/
theorem readText_sound {value : Source} (h : r.readText = .ok value) :
    Text r.profile r.bytes value.json ∧ value.json.tokens ≤ r.capacity ∧
      value.json.depth ≤ r.maximumDepth ∧
      (r.profile ≠ .rfc8259LastWins → value.json.uniqueKeys = true) := by
  rw [readText] at h
  cases hRead : r.readValue (r.maximumDepth + 1) 0 ⟨0, 0⟩ with
  | error fault place => rw [hRead] at h; cases h
  | ok value' place =>
      simp only [hRead] at h
      split_ifs at h with hEnd
      cases h
      have hFound := readValue_sound (by omega) hRead
      obtain ⟨gap, body, hGap, hBody, hStands⟩ := hFound.derived
      obtain ⟨after, hAfter, hStands'⟩ := stands_space r.bytes place.offset
      rw [not_not] at hEnd
      refine ⟨⟨gap, body, after, hGap, hBody, hAfter, ?_⟩, ?_, by simpa using hFound.depth,
        hFound.keys⟩
      · have := (hStands.trans hStands').1
        rwa [hEnd, List.drop_length, List.append_nil] at this
      · have := hFound.count
        have := hFound.room
        simp only at *
        omega

end Reading

end MaelysJson
