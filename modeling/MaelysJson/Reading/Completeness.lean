import MaelysJson.Reading.Soundness

/-! What the grammar derives within the bounds, the reader accepts, and it finds
the derived tree. -/
namespace MaelysJson

open Grammar Run

namespace Reading

variable {r : Reading} {place : Place}

theorem isSpace_iff (byte : UInt8) :
    isSpace byte = true ↔ byte = 0x20 ∨ byte = 0x09 ∨ byte = 0x0a ∨ byte = 0x0d := by
  simp only [isSpace, Bool.or_eq_true, beq_iff_eq]
  tauto

theorem spaceEnd_eq {bytes gap rest : Bytes} {offset : Nat} (hGap : Blank gap)
    (hDrop : bytes.drop offset = gap ++ rest) (hRest : ∀ byte ∈ rest.head?, isSpace byte = false) :
    spaceEnd bytes offset = offset + gap.length :=
  scanWhile_eq hDrop (fun byte hByte => (isSpace_iff byte).mpr (hGap byte hByte)) hRest

theorem advance_bind {α : Type} (offset : Nat) (f : Unit → ReadM α) :
    (advance offset >>= f) place = f () ⟨offset, place.count⟩ := rfl

theorem at_byte {byte : UInt8} {rest : Bytes} (h : r.bytes.drop place.offset = byte :: rest) :
    r.atEnd place = false ∧ r.current place = byte := by
  rw [atEnd, decide_eq_false_iff_not, not_le]
  exact ⟨lt_length_of_drop h, byteAt_of_drop h⟩

/-- What may follow a value: nothing, or a delimiter. -/
def Delimited (rest : Bytes) : Prop := ∀ byte ∈ rest.head?, isDelimiter byte = true

theorem isDelimiter_of_isSpace {byte : UInt8} (h : isSpace byte = true) :
    isDelimiter byte = true := by
  rw [isDelimiter, h, Bool.or_true]

theorem delimited_of_blank {gap rest : Bytes} (hGap : Blank gap) (hRest : Delimited rest) :
    Delimited (gap ++ rest) := by
  intro byte hByte
  cases gap with
  | nil => exact hRest byte hByte
  | cons head gap =>
      cases hByte
      exact isDelimiter_of_isSpace ((isSpace_iff _).mpr (hGap _ List.mem_cons_self))

/-! ### The first byte of a value -/

/-- A value starts with no space, and its first byte tells what it is. -/
theorem value_head {profile : Profile} {body : Bytes} {t : Json} (h : Value profile body t) :
    ∃ byte tail, body = byte :: tail ∧ isSpace byte = false := by
  cases h with
  | number hNumber =>
      obtain ⟨byte, tail, rfl⟩ := List.exists_cons_of_ne_nil hNumber.ne_nil
      refine ⟨byte, tail, rfl, ?_⟩
      rcases hNumber.mem byte List.mem_cons_self with ⟨hLow, -⟩ | hByte
      · rw [Bool.eq_false_iff, Ne, isSpace_iff]
        rintro (rfl | rfl | rfl | rfl) <;> exact absurd hLow (by decide)
      · rcases hByte with rfl | rfl | rfl | rfl | rfl <;> rfl
  | _ => exact ⟨_, _, rfl, rfl⟩

theorem value_head? {profile : Profile} {body rest : Bytes} {t : Json} (h : Value profile body t) :
    ∀ byte ∈ (body ++ rest).head?, isSpace byte = false := by
  obtain ⟨byte, tail, rfl, hSpace⟩ := value_head h
  rintro _ ⟨⟩
  exact hSpace

theorem members_head {profile : Profile} {body : Bytes} {members : List (Bytes × Json)}
    (h : Members profile body members) : ∃ tail, body = 0x22 :: tail := by
  cases h <;> exact ⟨_, rfl⟩

theorem elements_head {profile : Profile} {body : Bytes} {elements : List Json}
    (h : Elements profile body elements) : ∃ byte tail, body = byte :: tail ∧ isSpace byte = false ∧
      byte ≠ 0x5d := by
  have hFirst {bytes : Bytes} {value : Json} (h : Value profile bytes value) :
      ∃ byte tail, bytes = byte :: tail ∧ isSpace byte = false ∧ byte ≠ 0x5d := by
    obtain ⟨byte, tail, rfl, hSpace⟩ := value_head h
    refine ⟨byte, tail, rfl, hSpace, ?_⟩
    rintro rfl
    cases h with
    | number hNumber =>
        rcases hNumber.mem 0x5d List.mem_cons_self with ⟨-, hHigh⟩ | hByte
        · exact absurd hHigh (by decide)
        · exact absurd hByte (by decide)
  cases h with
  | last hValue => exact hFirst hValue
  | more hValue hC hD hRest =>
      obtain ⟨byte, tail, rfl, hSpace, hByte⟩ := hFirst hValue
      exact ⟨byte, _, rfl, hSpace, hByte⟩

/-! ### Leaves -/

theorem readString_complete {content text rest : Bytes} (hContent : Content r.profile content text)
    (hDrop : r.bytes.drop place.offset = quoted content ++ rest)
    (hRoom : place.count < r.capacity) :
    r.readString place =
      .ok ⟨⟨place.offset + 1, place.offset + 1 + content.length⟩, text⟩
        ⟨place.offset + (quoted content).length, place.count + 1⟩ := by
  obtain ⟨hPieces, hDecode⟩ := (content_iff _ _ _).mp hContent
  have hOpen : r.bytes.drop place.offset = 0x22 :: (content ++ 0x22 :: rest) := by
    rw [hDrop, quoted, List.append_assoc, List.append_assoc]
    rfl
  have hNext := drop_succ_of_drop hOpen
  obtain ⟨hEnd, hByte⟩ := at_byte hOpen
  have hLength := congrArg List.length hOpen
  simp only [List.length_drop, List.length_cons, List.length_append] at hLength
  have hScan := @scanStringFrom_complete _ _ _ _ (r.bytes.length + 1) _ hPieces hNext (by omega)
  have hContent' : r.content (place.offset + 1) (place.offset + 1 + content.length) = content := by
    rw [Reading.content, hNext, Nat.add_sub_cancel_left, List.take_left]
  simp only [readString, hEnd, hByte]
  rw [if_neg (by simp)]
  simp only [hScan, hContent', hDecode]
  rw [if_neg (by omega)]
  simp only [quoted, List.length_append, List.length_cons, List.length_nil]
  congr 2
  omega

theorem readByte_complete {byte : UInt8} {rest : Bytes}
    (hDrop : r.bytes.drop place.offset = byte :: rest) :
    r.readByte byte place = .ok () ⟨place.offset + 1, place.count⟩ := by
  obtain ⟨hEnd, hByte⟩ := at_byte hDrop
  rw [readByte, if_neg (by simp [hEnd, hByte])]
  rfl

theorem readSpace_eq {gap rest : Bytes} (hGap : Blank gap)
    (hDrop : r.bytes.drop place.offset = gap ++ rest)
    (hRest : ∀ byte ∈ rest.head?, isSpace byte = false) :
    r.readSpace place = .ok () ⟨place.offset + gap.length, place.count⟩ := by
  rw [readSpace, spaceEnd_eq hGap hDrop hRest]

theorem readDelimiter_closing {closing : UInt8} {gap rest : Bytes} (hGap : Blank gap)
    (hClosing : isSpace closing = false)
    (hDrop : r.bytes.drop place.offset = gap ++ closing :: rest) :
    r.readDelimiter closing place = .ok true ⟨place.offset + gap.length + 1, place.count⟩ := by
  rw [readDelimiter,
    bind_of_ok (readSpace_eq hGap hDrop (by rintro _ ⟨⟩; exact hClosing)), get_bind]
  obtain ⟨hEnd, hByte⟩ := @at_byte _ ⟨place.offset + gap.length, place.count⟩ _ _
    (drop_add_of_drop hDrop)
  rw [hEnd, hByte, if_neg Bool.false_ne_true, if_pos rfl]
  rfl

theorem readDelimiter_comma {closing : UInt8} {gap gap' rest : Bytes} (hGap : Blank gap)
    (hGap' : Blank gap') (hClosing : closing ≠ 0x2c)
    (hRest : ∀ byte ∈ rest.head?, isSpace byte = false)
    (hDrop : r.bytes.drop place.offset = gap ++ 0x2c :: (gap' ++ rest)) :
    r.readDelimiter closing place =
      .ok false ⟨place.offset + gap.length + 1 + gap'.length, place.count⟩ := by
  rw [readDelimiter, bind_of_ok (readSpace_eq hGap hDrop (by rintro _ ⟨⟩; rfl)), get_bind]
  have hComma := drop_add_of_drop hDrop
  obtain ⟨hEnd, hByte⟩ := @at_byte _ ⟨place.offset + gap.length, place.count⟩ _ _ hComma
  rw [hEnd, hByte, if_neg Bool.false_ne_true, if_neg (Ne.symm hClosing), if_pos rfl,
    advance_bind]
  have hSpace := @readSpace_eq r ⟨place.offset + gap.length + 1, place.count⟩ _ _ hGap'
    (drop_succ_of_drop hComma) hRest
  rw [bind_of_ok hSpace]
  rfl

theorem openContainer_complete {depth : Nat} {closing : UInt8} {opening : UInt8} {gap rest : Bytes}
    (hDepth : depth + 1 ≤ r.maximumDepth) (hRoom : place.count < r.capacity) (hGap : Blank gap)
    (hRest : ∀ byte ∈ rest.head?, isSpace byte = false)
    (hDrop : r.bytes.drop place.offset = opening :: (gap ++ rest)) :
    r.openContainer depth closing place =
      if rest.head? = some closing then
        .ok true ⟨place.offset + 1 + gap.length + 1, place.count + 1⟩
      else .ok false ⟨place.offset + 1 + gap.length, place.count + 1⟩ := by
  rw [openContainer, get_bind, if_neg (by omega)]
  have hToken : r.takeToken place.offset place = .ok () ⟨place.offset, place.count + 1⟩ := by
    rw [takeToken, if_neg (by omega)]
  have hNext := drop_succ_of_drop hDrop
  rw [bind_of_ok hToken, advance_bind, readEmpty,
    bind_of_ok (@readSpace_eq _ ⟨place.offset + 1, place.count + 1⟩ _ _ hGap hNext hRest), get_bind]
  have hAt := drop_add_of_drop hNext
  cases rest with
  | nil =>
      have hEnd : r.atEnd ⟨place.offset + 1 + gap.length, place.count + 1⟩ = true := by
        rw [atEnd, decide_eq_true_eq]
        exact List.drop_eq_nil_iff.mp hAt
      rw [hEnd, if_neg (by simp)]
      rfl
  | cons byte rest =>
      obtain ⟨hEnd, hByte⟩ := @at_byte _ ⟨place.offset + 1 + gap.length, place.count + 1⟩ _ _ hAt
      rw [hEnd, hByte]
      by_cases h : byte = closing
      · rw [if_pos ⟨by simp, h⟩, if_pos (by rw [h]; rfl)]
        rfl
      · rw [if_neg (by simp [h]), if_neg (by simpa using h)]
        rfl

/-- A lexeme without delimiters, before a delimiter, is all of a primitive. -/
theorem readPrimitive_complete {lexeme rest : Bytes} {t : Json}
    (hType : ∀ span, ∃ value, primitive span lexeme = some value ∧ value.json = t)
    (hPlain : ∀ byte ∈ lexeme, isDelimiter byte = false) (hRest : Delimited rest)
    (hRoom : place.count < r.capacity) (hDrop : r.bytes.drop place.offset = lexeme ++ rest) :
    ∃ value, r.readPrimitive place = .ok value ⟨place.offset + lexeme.length, place.count + 1⟩ ∧
      value.json = t := by
  have hStop : primitiveEnd r.bytes place.offset = place.offset + lexeme.length :=
    scanWhile_eq hDrop (fun byte hByte => by simp [hPlain byte hByte])
      (fun byte hByte => by simp [hRest byte hByte])
  have hContent : r.content place.offset (place.offset + lexeme.length) = lexeme := by
    rw [Reading.content, hDrop, Nat.add_sub_cancel_left, List.take_left]
  obtain ⟨value, hPrimitive, hJson⟩ := hType ⟨place.offset, place.offset + lexeme.length⟩
  refine ⟨value, ?_, hJson⟩
  simp only [readPrimitive, hStop, hContent, hPrimitive]
  rw [if_neg (by omega)]

theorem numberByte_plain {byte : UInt8} (h : NumberByte byte) :
    isDelimiter byte = false ∧ byte ≠ 0x74 ∧ byte ≠ 0x66 ∧ byte ≠ 0x6e ∧ byte ≠ 0x7b ∧ byte ≠ 0x5b ∧
      byte ≠ 0x22 := by
  rcases h with ⟨hLow, hHigh⟩ | hByte
  · simp only [UInt8.le_iff_toNat_le, UInt8.reduceToNat] at hLow hHigh
    simp only [isDelimiter, isSpace, Bool.or_eq_false_iff, beq_eq_false_iff_ne, ne_eq,
      ← UInt8.toNat_inj, UInt8.reduceToNat]
    omega
  · rcases hByte with rfl | rfl | rfl | rfl | rfl <;> decide

theorem primitive_number {lexeme : Bytes} (h : Number lexeme) (span : Span) :
    primitive span lexeme = some (.number span lexeme) := by
  obtain ⟨byte, tail, rfl⟩ := List.exists_cons_of_ne_nil h.ne_nil
  have hPlain := numberByte_plain (h.mem byte List.mem_cons_self)
  have hNumber := (numberSyntax_iff _).mpr h
  simp only [primitive, primitiveType, List.cons.injEq, hPlain, false_and, if_false,
    hNumber, if_true]

/-! ### Values -/

/-- What completeness says of one tree, at every place and nesting. -/
def Readable (r : Reading) (t : Json) : Prop :=
  ∀ (fuel depth : Nat) (place : Place) (gap body rest : Bytes), Blank gap → Value r.profile body t →
    r.bytes.drop place.offset = gap ++ (body ++ rest) → Delimited rest →
    depth + t.depth ≤ r.maximumDepth →
    depth + fuel = r.maximumDepth + 1 → place.count + t.tokens ≤ r.capacity →
    (r.profile ≠ .rfc8259LastWins → t.uniqueKeys = true) → ∃ value,
      r.readValue fuel depth place =
        .ok value ⟨place.offset + gap.length + body.length, place.count + t.tokens⟩ ∧ value.json = t

theorem within_of_ok {α : Type} {step : Step} {read : ReadM α} {value : α} {next : Place}
    (h : read place = .ok value next) : within step read place = .ok value next := by
  rw [within, h]

theorem readItem_complete {readValue : ReadM Source} {closing : UInt8} {step : Step}
    {value : Source} {closed : Bool} {middle next : Place}
    (hValue : readValue place = .ok value middle)
    (hDelimiter : r.readDelimiter closing middle = .ok closed next) :
    r.readItem readValue closing step place = .ok (value, closed) next := by
  refine within_of_ok ?_
  rw [bind_of_ok hValue, bind_of_ok hDelimiter]
  rfl

theorem readMembers_complete {fuel depth : Nat} (hFuel : depth + 1 + fuel = r.maximumDepth + 1)
    (members : List (Bytes × Json)) (hReadable : ∀ m ∈ members, r.Readable m.2)
    (rounds : Nat) (seen : List Bytes) (place : Place) (body after rest : Bytes)
    (hBody : Members r.profile body members) (hAfter : Blank after)
    (hDrop : r.bytes.drop place.offset = body ++ (after ++ 0x7d :: rest))
    (hRounds : r.bytes.length < rounds + place.offset)
    (hDepth : ∀ m ∈ members, depth + 1 + m.2.depth ≤ r.maximumDepth)
    (hRoom : place.count + (members.map fun m => 1 + m.2.tokens).sum ≤ r.capacity)
    (hKeys : r.profile ≠ .rfc8259LastWins → (members.map Prod.fst).Nodup ∧
      (∀ m ∈ members, m.1 ∉ seen) ∧ ∀ m ∈ members, m.2.uniqueKeys = true) :
    ∃ found : List (Literal × Source),
      r.readMembers (r.readValue fuel (depth + 1)) rounds seen place =
        .ok found ⟨place.offset + body.length + after.length + 1,
          place.count + (members.map fun m => 1 + m.2.tokens).sum⟩ ∧
      (found.map fun m => (m.1.text, m.2.json)) = members := by
  induction members generalizing rounds seen place body with
  | nil => cases hBody
  | cons m members ih =>
      obtain ⟨key, t⟩ := m
      obtain ⟨rounds, rfl⟩ : ∃ n, rounds = n + 1 := by
        refine Nat.exists_eq_add_one.mpr ?_
        have : place.offset < r.bytes.length := by
          obtain ⟨tail, rfl⟩ := members_head hBody
          rw [List.cons_append] at hDrop
          exact lt_length_of_drop hDrop
        omega
      rw [List.map_cons, List.sum_cons] at hRoom
      have hDepth' := hDepth _ List.mem_cons_self
      have hReadable' := hReadable _ List.mem_cons_self
      have hUnique : r.profile ≠ .rfc8259LastWins → t.uniqueKeys = true :=
        fun hProfile => (hKeys hProfile).2.2 _ List.mem_cons_self
      -- the key, the colon and the value, up to what follows the value
      have hMember {content a b bytes : Bytes} (hContent : Content r.profile content key)
          (hA : Blank a) (hB : Blank b) (hValue : Value r.profile bytes t) (rest : Bytes)
          (hRest : Delimited rest) (hDrop : r.bytes.drop place.offset =
            quoted content ++ (a ++ 0x3a :: (b ++ (bytes ++ rest)))) : ∃ literal value,
          r.readKey seen place = .ok literal
            ⟨place.offset + (quoted content).length, place.count + 1⟩ ∧ literal.text = key ∧
          r.readSpace ⟨place.offset + (quoted content).length, place.count + 1⟩ =
            .ok () ⟨place.offset + (quoted content).length + a.length, place.count + 1⟩ ∧
          r.readByte 0x3a ⟨place.offset + (quoted content).length + a.length, place.count + 1⟩ =
            .ok () ⟨place.offset + (quoted content).length + a.length + 1, place.count + 1⟩ ∧
          r.readValue fuel (depth + 1)
              ⟨place.offset + (quoted content).length + a.length + 1, place.count + 1⟩ =
            .ok value ⟨place.offset + (quoted content).length + a.length + 1 + b.length +
              bytes.length, place.count + 1 + t.tokens⟩ ∧ value.json = t := by
        have hString := readString_complete hContent hDrop
          (by have := t.tokens_pos; simp only at *; omega)
        have hKey : r.readKey seen place = .ok
            ⟨⟨place.offset + 1, place.offset + 1 + content.length⟩, key⟩
            ⟨place.offset + (quoted content).length, place.count + 1⟩ := by
          simp only [readKey, hString]
          rw [if_neg]
          rintro ⟨hProfile, hMem⟩
          exact (hKeys hProfile).2.1 _ List.mem_cons_self hMem
        have hSpace := drop_add_of_drop hDrop
        have hColon := drop_add_of_drop hSpace
        obtain ⟨value, hRead, hJson⟩ := hReadable' fuel (depth + 1)
          ⟨place.offset + (quoted content).length + a.length + 1, place.count + 1⟩ b bytes
          rest hB hValue (drop_succ_of_drop hColon) hRest hDepth' hFuel
          (by simp only; simp only at hRoom; omega) hUnique
        exact ⟨_, value, hKey, rfl, readSpace_eq hA hSpace (by rintro _ ⟨⟩; rfl),
          readByte_complete hColon, hRead, hJson⟩
      cases hBody with
      | @last content _ a b bytes _ hContent hA hB hValue =>
          obtain ⟨literal, value, hKey, hText, hSpace, hColon, hRead, hJson⟩ := hMember hContent
            hA hB hValue (after ++ 0x7d :: rest)
            (delimited_of_blank hAfter (by rintro _ ⟨⟩; rfl))
            (by rw [hDrop]; simp only [List.append_assoc, List.cons_append, List.nil_append])
          have hClosing := @readDelimiter_closing r
            ⟨place.offset + (quoted content).length + a.length + 1 +
            b.length + bytes.length, place.count + 1 + t.tokens⟩ 0x7d _ rest hAfter rfl (by
              have := drop_add_of_drop hDrop
              simpa [Nat.add_assoc, Nat.add_comm, Nat.add_left_comm] using this)
          refine ⟨[(literal, value)], ?_, by rw [List.map_cons, List.map_nil, hText, hJson]⟩
          rw [readMembers, bind_of_ok hKey, bind_of_ok hSpace, bind_of_ok hColon,
            bind_of_ok (readItem_complete hRead hClosing)]
          simp only [List.length_append, List.length_cons, List.length_nil, List.map_cons,
            List.map_nil, List.sum_cons, List.sum_nil, if_true, pure_run]
          congr 2 <;> omega
      | @more content _ a b bytes c d tail _ _ hContent hA hB hValue hC hD hTail =>
          obtain ⟨literal, value, hKey, hText, hSpace, hColon, hRead, hJson⟩ := hMember hContent
            hA hB hValue (c ++ 0x2c :: (d ++ (tail ++ (after ++ 0x7d :: rest))))
            (delimited_of_blank hC (by rintro _ ⟨⟩; rfl))
            (by rw [hDrop]; simp only [List.append_assoc, List.cons_append, List.nil_append])
          have hHead : ∀ byte ∈ (tail ++ (after ++ 0x7d :: rest)).head?, isSpace byte = false := by
            obtain ⟨tail', rfl⟩ := members_head hTail
            rintro _ ⟨⟩
            rfl
          have hAt : r.bytes.drop
              (place.offset + (quoted content).length + a.length + 1 + b.length +
              bytes.length) = c ++ 0x2c :: (d ++ (tail ++ (after ++ 0x7d :: rest))) := by
            have := @drop_add_of_drop r.bytes (quoted content ++ a ++ [0x3a] ++ b ++ bytes)
              (c ++ 0x2c :: (d ++ (tail ++ (after ++ 0x7d :: rest)))) place.offset
              (by rw [hDrop]; simp only [List.append_assoc, List.cons_append, List.nil_append])
            simpa only [List.length_append, List.length_cons, List.length_nil, Nat.add_assoc,
              Nat.zero_add] using this
          have hComma := @readDelimiter_comma r
            ⟨place.offset + (quoted content).length + a.length + 1 + b.length +
            bytes.length, place.count + 1 + t.tokens⟩ 0x7d _ _ _ hC hD
            (by decide) hHead hAt
          have hNext : r.bytes.drop
              (place.offset + (quoted content).length + a.length + 1 + b.length +
              bytes.length + c.length + 1 + d.length) = tail ++ (after ++ 0x7d :: rest) :=
            drop_add_of_drop (drop_succ_of_drop (drop_add_of_drop hAt))
          obtain ⟨found, hFound, hEq⟩ := ih
            (fun m hm => hReadable m (List.mem_cons_of_mem _ hm)) rounds
            (literal.text :: seen)
              ⟨place.offset + (quoted content).length + a.length + 1 + b.length +
              bytes.length + c.length + 1 + d.length, place.count + 1 + t.tokens⟩ tail hTail hNext
            (by simp only; omega) (fun m hm => hDepth m (List.mem_cons_of_mem _ hm))
            (by simp only at hRoom ⊢; omega) (fun hProfile => by
              obtain ⟨hNodup, hNot, hUniques⟩ := hKeys hProfile
              rw [List.map_cons, List.nodup_cons] at hNodup
              refine ⟨hNodup.2, fun m hm => ?_, fun m hm => hUniques m (List.mem_cons_of_mem _ hm)⟩
              rw [List.mem_cons, not_or, hText]
              exact ⟨fun h => hNodup.1 (List.mem_map.mpr ⟨m, hm, h⟩),
                hNot m (List.mem_cons_of_mem _ hm)⟩)
          refine ⟨(literal, value) :: found, ?_, by rw [List.map_cons, hText, hJson, hEq]⟩
          rw [readMembers, bind_of_ok hKey, bind_of_ok hSpace, bind_of_ok hColon,
            bind_of_ok (readItem_complete hRead hComma)]
          simp only [Bool.false_eq_true, if_false]
          rw [bind_of_ok hFound]
          simp only [List.length_append, List.length_cons, List.length_nil, List.map_cons,
            List.sum_cons, pure_run]
          congr 2 <;> omega

theorem readElements_complete {fuel depth : Nat} (hFuel : depth + 1 + fuel = r.maximumDepth + 1)
    (elements : List Json) (hReadable : ∀ v ∈ elements, r.Readable v)
    (rounds position : Nat) (place : Place) (body after rest : Bytes)
    (hBody : Elements r.profile body elements) (hAfter : Blank after)
    (hDrop : r.bytes.drop place.offset = body ++ (after ++ 0x5d :: rest))
    (hRounds : r.bytes.length < rounds + place.offset)
    (hDepth : ∀ v ∈ elements, depth + 1 + v.depth ≤ r.maximumDepth)
    (hRoom : place.count + (elements.map Tree.tokens).sum ≤ r.capacity)
    (hKeys : r.profile ≠ .rfc8259LastWins → ∀ v ∈ elements, v.uniqueKeys = true) :
    ∃ found : List Source,
      r.readElements (r.readValue fuel (depth + 1)) rounds position place =
        .ok found ⟨place.offset + body.length + after.length + 1,
          place.count + (elements.map Tree.tokens).sum⟩ ∧
      found.map Source.json = elements := by
  induction elements generalizing rounds position place body with
  | nil => cases hBody
  | cons t elements ih =>
      obtain ⟨rounds, rfl⟩ : ∃ n, rounds = n + 1 := by
        refine Nat.exists_eq_add_one.mpr ?_
        have : place.offset < r.bytes.length := by
          obtain ⟨byte, tail, rfl, -⟩ := elements_head hBody
          rw [List.cons_append] at hDrop
          exact lt_length_of_drop hDrop
        omega
      rw [List.map_cons, List.sum_cons] at hRoom
      have hRead {bytes rest : Bytes} (hValue : Value r.profile bytes t) (hRest : Delimited rest)
          (hDrop : r.bytes.drop place.offset = bytes ++ rest) :=
        hReadable _ List.mem_cons_self fuel (depth + 1) place [] bytes rest nofun hValue hDrop hRest
          (hDepth _ List.mem_cons_self) hFuel (by omega)
          (fun hProfile => hKeys hProfile _ List.mem_cons_self)
      cases hBody with
      | last hValue =>
          obtain ⟨value, hRead, hJson⟩ := hRead hValue
            (delimited_of_blank hAfter (by rintro _ ⟨⟩; rfl)) hDrop
          have hClosing := @readDelimiter_closing r
            ⟨place.offset + body.length, place.count + t.tokens⟩ 0x5d _ _ hAfter rfl
            (drop_add_of_drop hDrop)
          refine ⟨[value], ?_, by rw [List.map_cons, List.map_nil, hJson]⟩
          rw [readElements, bind_of_ok (readItem_complete hRead hClosing)]
          rfl
      | @more bytes c d tail _ _ hValue hC hD hTail =>
          have hDrop' : r.bytes.drop place.offset =
              bytes ++ (c ++ 0x2c :: (d ++ (tail ++ (after ++ 0x5d :: rest)))) := by
            rw [hDrop]
            simp only [List.append_assoc, List.cons_append, List.nil_append]
          obtain ⟨value, hRead, hJson⟩ := hRead hValue
            (delimited_of_blank hC (by rintro _ ⟨⟩; rfl)) hDrop'
          have hHead : ∀ byte ∈ (tail ++ (after ++ 0x5d :: rest)).head?, isSpace byte = false := by
            obtain ⟨byte, tail', rfl, hSpace, -⟩ := elements_head hTail
            rintro _ ⟨⟩
            exact hSpace
          have hAt := drop_add_of_drop hDrop'
          have hComma := @readDelimiter_comma r
            ⟨place.offset + bytes.length, place.count + t.tokens⟩ 0x5d _ _ _ hC hD
            (by decide) hHead hAt
          have hNext : r.bytes.drop (place.offset + bytes.length + c.length + 1 + d.length) =
              tail ++ (after ++ 0x5d :: rest) :=
            drop_add_of_drop (drop_succ_of_drop (drop_add_of_drop hAt))
          obtain ⟨found, hFound, hEq⟩ := ih
            (fun v hv => hReadable v (List.mem_cons_of_mem _ hv)) rounds
            (position + 1) ⟨place.offset + bytes.length + c.length + 1 + d.length,
              place.count + t.tokens⟩
            tail hTail hNext (by simp only; omega)
            (fun v hv => hDepth v (List.mem_cons_of_mem _ hv))
            (by simp only; omega) (fun hProfile v hv =>
              hKeys hProfile v (List.mem_cons_of_mem _ hv))
          refine ⟨value :: found, ?_, by rw [List.map_cons, hJson, hEq]⟩
          rw [readElements, bind_of_ok (readItem_complete hRead hComma)]
          simp only [Bool.false_eq_true, if_false]
          rw [bind_of_ok hFound]
          simp only [List.length_append, List.length_cons, List.length_nil, List.map_cons,
            List.sum_cons, pure_run]
          congr 2 <;> omega

theorem readObject_complete {fuel depth : Nat} {body rest : Bytes} {members : List (Bytes × Json)}
    (hReadable : ∀ m ∈ members, r.Readable m.2) (hValue : Value r.profile body (.object members))
    (hDrop : r.bytes.drop place.offset = body ++ rest)
    (hDepth : depth + (Tree.object members).depth ≤ r.maximumDepth)
    (hFuel : depth + 1 + fuel = r.maximumDepth + 1)
    (hRoom : place.count + (Tree.object members).tokens ≤ r.capacity)
    (hKeys : r.profile ≠ .rfc8259LastWins → (Tree.object members).uniqueKeys = true) :
    ∃ value, r.readObject (r.readValue fuel (depth + 1)) depth place =
        .ok value ⟨place.offset + body.length, place.count + (Tree.object members).tokens⟩ ∧
      value.json = .object members := by
  obtain ⟨hOuter, hInner⟩ := (Tree.depth_object_le _ _ _).mp hDepth
  have hTokens : (Tree.object members).tokens = 1 + (members.map fun m => 1 + m.2.tokens).sum :=
    Tree.tokens_object members
  rw [hTokens] at hRoom ⊢
  cases hValue with
  | @emptyObject gap hGap =>
      have hOpen := @openContainer_complete r place _ 0x7d 0x7b _ (0x7d :: rest) hOuter (by omega)
        hGap (by rintro _ ⟨⟩; rfl)
        (by rw [hDrop]; simp only [List.append_assoc, List.cons_append, List.nil_append])
      rw [List.head?_cons, if_pos rfl] at hOpen
      refine ⟨.object ⟨place.offset, place.offset + 1 + gap.length + 1⟩ [], ?_, by simp⟩
      rw [readObject, get_bind, bind_of_ok hOpen]
      simp only [if_true, pure_bind, get_bind, pure_run, List.length_append, List.length_cons,
        List.length_nil, List.map_nil, List.sum_nil]
      congr 2
      omega
  | @object before body after members hBefore hBody hAfter =>
      obtain ⟨tail, rfl⟩ := members_head hBody
      have hDrop' : r.bytes.drop place.offset =
          0x7b :: (before ++ (0x22 :: tail ++ (after ++ 0x7d :: rest))) := by
        rw [hDrop]
        simp only [List.append_assoc, List.cons_append, List.nil_append]
      have hOpen := @openContainer_complete r place _ 0x7d _ _ _ hOuter (by omega)
        hBefore (by rintro _ ⟨⟩; rfl) hDrop'
      rw [if_neg (by simp)] at hOpen
      obtain ⟨found, hFound, hEq⟩ := readMembers_complete hFuel members hReadable
        (r.bytes.length + 1) [] ⟨place.offset + 1 + before.length, place.count + 1⟩ _ after rest
        hBody hAfter (drop_add_of_drop (drop_succ_of_drop hDrop')) (by simp only; omega) hInner
        (by simp only; omega) (fun hProfile => by
          obtain ⟨hNodup, hUnique⟩ := (Tree.uniqueKeys_object _).mp (hKeys hProfile)
          exact ⟨hNodup, fun _ _ => List.not_mem_nil, hUnique⟩)
      refine ⟨.object ⟨place.offset, place.offset + 1 + before.length + (0x22 :: tail).length +
        after.length + 1⟩ found, ?_, by rw [Source.json_object, hEq]⟩
      rw [readObject, get_bind, bind_of_ok hOpen]
      simp only [Bool.false_eq_true, if_false]
      rw [bind_of_ok hFound]
      simp only [get_bind, pure_run, List.length_append, List.length_cons, List.length_nil]
      congr 2 <;> omega

theorem readArray_complete {fuel depth : Nat} {body rest : Bytes} {elements : List Json}
    (hReadable : ∀ v ∈ elements, r.Readable v) (hValue : Value r.profile body (.array elements))
    (hDrop : r.bytes.drop place.offset = body ++ rest)
    (hDepth : depth + (Tree.array elements).depth ≤ r.maximumDepth)
    (hFuel : depth + 1 + fuel = r.maximumDepth + 1)
    (hRoom : place.count + (Tree.array elements).tokens ≤ r.capacity)
    (hKeys : r.profile ≠ .rfc8259LastWins → (Tree.array elements).uniqueKeys = true) :
    ∃ value, r.readArray (r.readValue fuel (depth + 1)) depth place =
        .ok value ⟨place.offset + body.length, place.count + (Tree.array elements).tokens⟩ ∧
      value.json = .array elements := by
  obtain ⟨hOuter, hInner⟩ := (Tree.depth_array_le _ _ _).mp hDepth
  rw [Tree.tokens_array] at hRoom ⊢
  cases hValue with
  | @emptyArray gap hGap =>
      have hOpen := @openContainer_complete r place _ 0x5d 0x5b _ (0x5d :: rest) hOuter (by omega)
        hGap (by rintro _ ⟨⟩; rfl)
        (by rw [hDrop]; simp only [List.append_assoc, List.cons_append, List.nil_append])
      rw [List.head?_cons, if_pos rfl] at hOpen
      refine ⟨.array ⟨place.offset, place.offset + 1 + gap.length + 1⟩ [], ?_, by simp⟩
      rw [readArray, get_bind, bind_of_ok hOpen]
      simp only [if_true, pure_bind, get_bind, pure_run, List.length_append, List.length_cons,
        List.length_nil, List.map_nil, List.sum_nil]
      congr 2
      omega
  | @array before body after elements hBefore hBody hAfter =>
      obtain ⟨byte, tail, rfl, hSpace, hByte⟩ := elements_head hBody
      have hDrop' : r.bytes.drop place.offset =
          0x5b :: (before ++ (byte :: tail ++ (after ++ 0x5d :: rest))) := by
        rw [hDrop]
        simp only [List.append_assoc, List.cons_append, List.nil_append]
      have hOpen := @openContainer_complete r place _ 0x5d _ _ _ hOuter (by omega)
        hBefore (by rintro _ ⟨⟩; exact hSpace) hDrop'
      rw [if_neg (by simpa using hByte)] at hOpen
      obtain ⟨found, hFound, hEq⟩ := readElements_complete hFuel elements hReadable
        (r.bytes.length + 1) 0 ⟨place.offset + 1 + before.length, place.count + 1⟩ _ after rest
        hBody hAfter (drop_add_of_drop (drop_succ_of_drop hDrop')) (by simp only; omega) hInner
        (by simp only; omega) (fun hProfile => (Tree.uniqueKeys_array _).mp (hKeys hProfile))
      refine ⟨.array ⟨place.offset, place.offset + 1 + before.length + (byte :: tail).length +
        after.length + 1⟩ found, ?_, by rw [Source.json_array, hEq]⟩
      rw [readArray, get_bind, bind_of_ok hOpen]
      simp only [Bool.false_eq_true, if_false]
      rw [bind_of_ok hFound]
      simp only [get_bind, pure_run, List.length_append, List.length_cons, List.length_nil]
      congr 2 <;> omega

/-- From the first byte of a value on: what `readValue` does after the space. -/
theorem readable_of_head {t : Json} (h : ∀ (fuel depth : Nat) (place : Place) (body rest : Bytes),
    Value r.profile body t → r.bytes.drop place.offset = body ++ rest → Delimited rest →
    depth + t.depth ≤ r.maximumDepth → depth + 1 + fuel = r.maximumDepth + 1 →
    place.count + t.tokens ≤ r.capacity → (r.profile ≠ .rfc8259LastWins → t.uniqueKeys = true) →
    ∃ value, (if r.current place = 0x7b then r.readObject (r.readValue fuel (depth + 1)) depth
      else if r.current place = 0x5b then r.readArray (r.readValue fuel (depth + 1)) depth
      else if r.current place = 0x22 then do
        let literal ← r.readString
        return .string literal
      else r.readPrimitive) place = .ok value ⟨place.offset + body.length, place.count + t.tokens⟩ ∧
        value.json = t) : r.Readable t := by
  intro fuel depth place gap body rest hGap hValue hDrop hRest hDepth hFuel hRoom hKeys
  obtain ⟨fuel, rfl⟩ : ∃ n, fuel = n + 1 := ⟨fuel - 1, by omega⟩
  obtain ⟨value, hRead, hJson⟩ := h fuel depth ⟨place.offset + gap.length, place.count⟩ body
    rest hValue (drop_add_of_drop hDrop) hRest hDepth (by omega) hRoom hKeys
  refine ⟨value, ?_, hJson⟩
  obtain ⟨byte, tail, hBody, -⟩ := value_head hValue
  have hAt := drop_add_of_drop hDrop
  rw [hBody, List.cons_append] at hAt
  rw [readValue, bind_of_ok (readSpace_eq hGap hDrop (value_head? hValue)), get_bind,
    (@at_byte _ ⟨place.offset + gap.length, place.count⟩ _ _ hAt).1, if_neg Bool.false_ne_true]
  exact hRead

theorem readable_of_primitive {t : Json} (hTokens : t.tokens = 1)
    (hPrimitive : ∀ body, Value r.profile body t →
      (∀ span, ∃ value, primitive span body = some value ∧ value.json = t) ∧
      (∀ byte ∈ body, isDelimiter byte = false ∧ byte ≠ 0x7b ∧ byte ≠ 0x5b ∧ byte ≠ 0x22)) :
    r.Readable t := by
  refine readable_of_head fun fuel depth place body rest hValue hDrop hRest _ _ hRoom _ => ?_
  obtain ⟨hType, hPlain⟩ := hPrimitive body hValue
  obtain ⟨byte, tail, rfl, -⟩ := value_head hValue
  obtain ⟨-, hObject, hArray, hString⟩ := hPlain byte List.mem_cons_self
  have hByte := (@at_byte r place _ _ (by rw [hDrop, List.cons_append])).2
  rw [hByte, if_neg hObject, if_neg hArray, if_neg hString, hTokens]
  exact readPrimitive_complete hType (fun byte hByte => (hPlain byte hByte).1) hRest
    (by omega) hDrop

theorem plain_of_all {body : Bytes} (h : (body.all fun byte =>
      decide (isDelimiter byte = false ∧ byte ≠ 0x7b ∧ byte ≠ 0x5b ∧ byte ≠ 0x22)) = true) :
    ∀ byte ∈ body, isDelimiter byte = false ∧ byte ≠ 0x7b ∧ byte ≠ 0x5b ∧ byte ≠ 0x22 :=
  fun byte hByte => of_decide_eq_true (List.all_eq_true.mp h byte hByte)

/-- Every tree can be read wherever the grammar derives it. -/
theorem readable (t : Json) : r.Readable t := by
  induction t using Tree.induct with
  | object members ih =>
      refine readable_of_head
        fun fuel depth place body rest hValue hDrop _ hDepth hFuel hRoom hKeys => ?_
      have hByte : r.current place = 0x7b := by
        cases hValue <;> exact byteAt_of_drop hDrop
      rw [if_pos hByte]
      exact readObject_complete ih hValue hDrop hDepth hFuel hRoom hKeys
  | array elements ih =>
      refine readable_of_head
        fun fuel depth place body rest hValue hDrop _ hDepth hFuel hRoom hKeys => ?_
      have hByte : r.current place = 0x5b := by
        cases hValue <;> exact byteAt_of_drop hDrop
      rw [hByte, if_neg (by decide), if_pos rfl]
      exact readArray_complete ih hValue hDrop hDepth hFuel hRoom hKeys
  | string text =>
      refine readable_of_head
        fun fuel depth place body rest hValue hDrop _ hDepth hFuel hRoom hKeys => ?_
      cases hValue with
      | string hContent =>
          have hByte : r.current place = 0x22 := byteAt_of_drop hDrop
          rw [hByte, if_neg (by decide), if_neg (by decide), if_pos rfl,
            bind_of_ok (readString_complete hContent hDrop
              (by simpa [Tree.tokens, Tree.fold] using hRoom))]
          exact ⟨_, rfl, rfl⟩
  | number lexeme =>
      refine readable_of_primitive rfl fun body hValue => ?_
      cases hValue with
      | number hNumber =>
          refine ⟨fun span => ⟨_, primitive_number hNumber span, rfl⟩, fun byte hByte => ?_⟩
          obtain ⟨hPlain, -, -, -, hObject, hArray, hString⟩ :=
            numberByte_plain (hNumber.mem byte hByte)
          exact ⟨hPlain, hObject, hArray, hString⟩
  | boolean value =>
      refine readable_of_primitive rfl fun body hValue => ?_
      cases hValue with
      | true => exact ⟨fun span => ⟨.boolean span true, rfl, rfl⟩, plain_of_all (by decide)⟩
      | false => exact ⟨fun span => ⟨.boolean span false, rfl, rfl⟩, plain_of_all (by decide)⟩
  | null =>
      refine readable_of_primitive rfl fun body hValue => ?_
      cases hValue
      exact ⟨fun span => ⟨.null span, rfl, rfl⟩, plain_of_all (by decide)⟩

/-- A text the grammar derives within the bounds is accepted, with the derived tree. -/
theorem readText_complete {t : Json} (hText : Text r.profile r.bytes t)
    (hRoom : t.tokens ≤ r.capacity) (hDepth : t.depth ≤ r.maximumDepth)
    (hKeys : r.profile ≠ .rfc8259LastWins → t.uniqueKeys = true) :
    ∃ value, r.readText = .ok value ∧ value.json = t := by
  obtain ⟨before, body, after, hBefore, hBody, hAfter, hBytes⟩ := hText
  have hDelimited : Delimited after := by
    have := delimited_of_blank hAfter (show Delimited [] from nofun)
    rwa [List.append_nil] at this
  obtain ⟨value, hRead, hJson⟩ := readable t (r.maximumDepth + 1) 0 ⟨0, 0⟩ before body after
    hBefore hBody (by rw [List.drop_zero, hBytes, List.append_assoc]) hDelimited
    (by omega) (by omega) (by simp only; omega) hKeys
  refine ⟨value, ?_, hJson⟩
  have hDrop : r.bytes.drop (0 + before.length + body.length) = after ++ [] := by
    rw [hBytes, Nat.zero_add, ← List.length_append, List.drop_left, List.append_nil]
  have hStop := spaceEnd_eq hAfter hDrop nofun
  have hLength : 0 + before.length + body.length + after.length = r.bytes.length := by
    rw [hBytes, List.length_append, List.length_append, Nat.zero_add]
  simp only [readText, hRead, hStop, hLength]
  rw [if_neg (not_not.mpr rfl)]

/-- The reader accepts exactly the texts of the grammar within the bounds, and
finds their trees. -/
theorem readText_iff (r : Reading) (t : Json) :
    (∃ value, r.readText = .ok value ∧ value.json = t) ↔
      Text r.profile r.bytes t ∧ t.tokens ≤ r.capacity ∧ t.depth ≤ r.maximumDepth ∧
        (r.profile ≠ .rfc8259LastWins → t.uniqueKeys = true) := by
  constructor
  · rintro ⟨value, hRead, rfl⟩
    exact readText_sound hRead
  · rintro ⟨hText, hRoom, hDepth, hKeys⟩
    exact readText_complete hText hRoom hDepth hKeys

end Reading

end MaelysJson
