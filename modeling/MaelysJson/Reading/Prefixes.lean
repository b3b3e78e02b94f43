import MaelysJson.Reading.Language

/-! Texts that begin other texts. A value ends where its own bytes say so, whatever follows;
only a number can be gone on with. So of two texts one of which begins the other, the longer
one adds space, or they are both numbers. -/
namespace MaelysJson

open Grammar Run

namespace Grammar

variable {profile : Profile} {body body' rest rest' bytes more : Bytes} {t t' : Json}

/-! ### Runs of one kind of byte -/

theorem run_cut {kind : UInt8 → Bool} {gap gap' : Bytes} (hGap : ∀ byte ∈ gap, kind byte = true)
    (hGap' : ∀ byte ∈ gap', kind byte = true) (hRest : ∀ byte ∈ rest.head?, kind byte = false)
    (hRest' : ∀ byte ∈ rest'.head?, kind byte = false) (h : gap ++ rest = gap' ++ rest') :
    gap = gap' ∧ rest = rest' := by
  have hSpan {run tail : Bytes} (hRun : ∀ byte ∈ run, kind byte = true)
      (hTail : ∀ byte ∈ tail.head?, kind byte = false) : (run ++ tail).takeWhile kind = run := by
    rw [List.takeWhile_append_of_pos hRun]
    cases tail with
    | nil => simp
    | cons byte tail => simp [hTail byte rfl]
  have hSame : gap = gap' := by rw [← hSpan hGap hRest, h, hSpan hGap' hRest']
  subst hSame
  exact ⟨rfl, List.append_cancel_left h⟩

theorem blank_cut {gap gap' : Bytes} (hGap : Blank gap) (hGap' : Blank gap')
    (hRest : ∀ byte ∈ rest.head?, isSpace byte = false)
    (hRest' : ∀ byte ∈ rest'.head?, isSpace byte = false) (h : gap ++ rest = gap' ++ rest') :
    gap = gap' ∧ rest = rest' :=
  run_cut (fun byte hByte => (Reading.isSpace_iff byte).mpr (hGap byte hByte))
    (fun byte hByte => (Reading.isSpace_iff byte).mpr (hGap' byte hByte)) hRest hRest' h

/-! ### Values -/

/-- The first byte of a value that is no number. -/
def opening : Json → Option UInt8
  | .object _ => some 0x7b
  | .array _ => some 0x5b
  | .string _ => some 0x22
  | .number _ => none
  | .boolean value => some (if value then 0x74 else 0x66)
  | .null => some 0x6e

theorem opening_eq_none : opening t = none ↔ ∃ lexeme, t = .number lexeme := by
  cases t <;> simp [opening]

theorem opening_object (h : opening t = some 0x7b) : ∃ members, t = .object members := by
  cases t with
  | object members => exact ⟨members, rfl⟩
  | boolean value => cases value <;> simp [opening] at h
  | _ => simp [opening] at h

theorem opening_array (h : opening t = some 0x5b) : ∃ elements, t = .array elements := by
  cases t with
  | array elements => exact ⟨elements, rfl⟩
  | boolean value => cases value <;> simp [opening] at h
  | _ => simp [opening] at h

theorem opening_string (h : opening t = some 0x22) : ∃ text, t = .string text := by
  cases t with
  | string text => exact ⟨text, rfl⟩
  | boolean value => cases value <;> simp [opening] at h
  | _ => simp [opening] at h

theorem opening_boolean {value : Bool} (h : opening t = opening (.boolean value)) :
    t = .boolean value := by
  cases t with
  | boolean value' => cases value <;> cases value' <;> simp [opening] at h ⊢
  | _ => cases value <;> simp [opening] at h

theorem opening_null (h : opening t = some 0x6e) : t = .null := by
  cases t with
  | null => rfl
  | boolean value => cases value <;> simp [opening] at h
  | _ => simp [opening] at h

theorem Value.opens (h : Value profile body t) :
    (∃ byte tail, body = byte :: tail ∧ opening t = some byte) ∨
    (Number body ∧ t = .number body) := by
  cases h with
  | number hNumber => exact Or.inr ⟨hNumber, rfl⟩
  | _ => exact Or.inl ⟨_, _, rfl, rfl⟩

/-- The byte where both begin tells what they are. -/
theorem Value.opening_eq (h : Value profile body t) (h' : Value profile body' t')
    (hSame : body ++ rest = body' ++ rest') :
    opening t = opening t' := by
  have hNumeral {byte : UInt8} {tail lexeme : Bytes} {u : Json} (hOpens : opening u = some byte)
      (hNumber : Number lexeme) (hBegins : ∃ more, byte :: tail = lexeme ++ more) : False := by
    obtain ⟨first, others, rfl⟩ := List.exists_cons_of_ne_nil hNumber.ne_nil
    obtain ⟨more, hBegins⟩ := hBegins
    obtain rfl := (List.cons.inj hBegins).1
    obtain ⟨-, hTrue, hFalse, hNull, hObject, hArray, hString⟩ :=
      Reading.numberByte_plain (hNumber.mem byte List.mem_cons_self)
    cases u with
    | boolean value => cases value <;> simp_all [opening]
    | _ => simp_all [opening]
  rcases h.opens with ⟨byte, tail, rfl, hOpens⟩ | ⟨hNumber, rfl⟩
  · rcases h'.opens with ⟨byte', tail', rfl, hOpens'⟩ | ⟨hNumber', rfl⟩
    · rw [hOpens, hOpens', (List.cons.inj hSame).1]
    · exact (hNumeral hOpens hNumber' ⟨rest', hSame⟩).elim
  · rcases h'.opens with ⟨byte', tail', rfl, hOpens'⟩ | ⟨hNumber', rfl⟩
    · exact (hNumeral hOpens' hNumber ⟨rest, hSame.symm⟩).elim
    · rfl

theorem Value.tolerant (h : Value profile body t) : Value .rfc8259LastWins body t := by
  refine h.relax fun content text hContent => ?_
  rw [content_lastWins]
  cases profile with
  | contractAscii => exact hContent.relax
  | _ => exact hContent

/-- A reading of these bytes with room for both trees. -/
theorem exists_roomy (bytes : Bytes) (t t' : Json) :
    ∃ r : Reading, r.profile = .rfc8259LastWins ∧ r.bytes = bytes ∧
    t.depth ≤ r.maximumDepth ∧ t'.depth ≤ r.maximumDepth ∧ t.tokens ≤ r.capacity ∧
    t'.tokens ≤ r.capacity :=
  ⟨⟨.rfc8259LastWins, bytes, max t.depth t'.depth, max t.tokens t'.tokens⟩, rfl, rfl,
    le_max_left _ _, le_max_right _ _, le_max_left _ _, le_max_right _ _⟩

/-- Two values that one reading finds from the first byte on are the same. -/
theorem cut_of_read {read : ReadM Source} {next next' : Place}
    (h : ∃ value, read ⟨0, 0⟩ = .ok value next ∧ value.json = t)
    (h' : ∃ value, read ⟨0, 0⟩ = .ok value next' ∧ value.json = t')
    (hNext : next.offset = 0 + body.length) (hNext' : next'.offset = 0 + body'.length)
    (hSame : body ++ rest = body' ++ rest') : body = body' ∧ t = t' := by
  obtain ⟨value, hRead, rfl⟩ := h
  obtain ⟨value', hRead', rfl⟩ := h'
  rw [hRead, EStateM.Result.ok.injEq] at hRead'
  obtain ⟨rfl, rfl⟩ := hRead'
  exact ⟨(List.append_inj hSame (by omega)).1, rfl⟩

/-- A value that is no number ends at the same place, whatever follows it. -/
theorem Value.cut (h : Value profile body t) (h' : Value profile body' t')
    (hOpens : opening t ≠ none) (hSame : body ++ rest = body' ++ rest') :
    body = body' ∧ t = t' := by
  have hKind := h.opening_eq h' hSame
  obtain ⟨r, hProfile, hBytes, hDepth, hDepth', hRoom, hRoom'⟩ := exists_roomy (body ++ rest) t t'
  replace h := h.tolerant
  replace h' := h'.tolerant
  rw [← hProfile] at h h'
  have hStrict {u : Json} : r.profile ≠ .rfc8259LastWins → u.uniqueKeys = Bool.true :=
    fun hNot => absurd hProfile hNot
  cases t with
  | object members =>
      obtain ⟨members', rfl⟩ := opening_object hKind.symm
      exact cut_of_read
        (@Reading.readObject_complete r ⟨0, 0⟩ r.maximumDepth 0 _ _ _
          (fun m _ => Reading.readable m.2) h hBytes (by omega) (by omega)
          (by simpa using hRoom) hStrict)
        (@Reading.readObject_complete r ⟨0, 0⟩ r.maximumDepth 0 _ _ _
          (fun m _ => Reading.readable m.2) h' (hBytes.trans hSame) (by omega) (by omega)
          (by simpa using hRoom') hStrict)
        rfl rfl hSame
  | array elements =>
      obtain ⟨elements', rfl⟩ := opening_array hKind.symm
      exact cut_of_read
        (@Reading.readArray_complete r ⟨0, 0⟩ r.maximumDepth 0 _ _ _
          (fun v _ => Reading.readable v) h hBytes (by omega) (by omega)
          (by simpa using hRoom) hStrict)
        (@Reading.readArray_complete r ⟨0, 0⟩ r.maximumDepth 0 _ _ _
          (fun v _ => Reading.readable v) h' (hBytes.trans hSame) (by omega) (by omega)
          (by simpa using hRoom') hStrict)
        rfl rfl hSame
  | string text =>
      obtain ⟨text', rfl⟩ := opening_string hKind.symm
      have hOne : 0 < r.capacity := hRoom
      have hFound {after content found : Bytes} (hContent : Content r.profile content found)
          (hDrop : r.bytes = quoted content ++ after) : ∃ value, (do
            let literal ← r.readString
            return Source.string literal : ReadM Source) ⟨0, 0⟩ =
            .ok value ⟨0 + (quoted content).length, 1⟩ ∧
          value.json = .string found := by
        rw [bind_of_ok (@Reading.readString_complete r ⟨0, 0⟩ _ _ _ hContent hDrop hOne)]
        exact ⟨_, rfl, rfl⟩
      cases h with
      | string hContent =>
          cases h' with
          | string hContent' =>
              exact cut_of_read (hFound hContent hBytes) (hFound hContent' (hBytes.trans hSame))
                rfl rfl hSame
  | number lexeme => exact absurd rfl hOpens
  | boolean value =>
      obtain rfl := opening_boolean hKind.symm
      refine ⟨?_, rfl⟩
      cases h with
      | true => cases h'; rfl
      | false => cases h'; rfl
  | null =>
      obtain rfl := opening_null hKind.symm
      cases h
      cases h'
      exact ⟨rfl, rfl⟩

/-! ### Texts -/

/-- Of two texts one of which begins the other, the longer one adds space to the value, or
digits and other such bytes to a number. -/
theorem Text.cut (h : Text profile bytes t) (h' : Text profile (bytes ++ more) t') :
    (t' = t ∧ Blank more) ∨ ∃ lexeme rest, t = .number lexeme ∧ t' = .number (lexeme ++ rest) ∧
      rest ≠ [] := by
  obtain ⟨before, body, after, hBefore, hBody, hAfter, rfl⟩ := h
  obtain ⟨before', body', after', hBefore', hBody', hAfter', hSame⟩ := h'
  simp only [List.append_assoc] at hSame
  obtain ⟨rfl, hBodies⟩ :=
    blank_cut hBefore hBefore' (Reading.value_head? hBody) (Reading.value_head? hBody') hSame
  -- values that end at one place leave the rest to the space
  have hSpace (hEnd : body = body') : Blank more := by
    subst hEnd
    rw [← List.append_cancel_left hBodies] at hAfter'
    exact fun byte hByte => hAfter' byte (List.mem_append_right _ hByte)
  by_cases hOpens : opening t = none
  · obtain ⟨lexeme, rfl⟩ := opening_eq_none.mp hOpens
    obtain ⟨lexeme', rfl⟩ :=
      opening_eq_none.mp ((hBody.opening_eq hBody' hBodies).symm.trans hOpens)
    cases hBody with
    | number hNumber =>
        cases hBody' with
        | number hNumber' =>
            rcases List.append_eq_append_iff.mp hBodies with ⟨rest, rfl, -⟩ | ⟨rest, rfl, hRest⟩
            · by_cases hNil : rest = []
              · rw [hNil, List.append_nil] at hSpace ⊢
                exact Or.inl ⟨rfl, hSpace rfl⟩
              · exact Or.inr ⟨_, rest, rfl, rfl, hNil⟩
            · -- a byte of the number would be space
              cases rest with
              | nil =>
                  rw [List.append_nil] at hSpace ⊢
                  exact Or.inl ⟨rfl, hSpace rfl⟩
              | cons byte rest =>
                  have hPlain := (Reading.numberByte_plain (hNumber.mem byte (by simp))).1
                  have hBlank := Reading.isDelimiter_of_isSpace
                    ((Reading.isSpace_iff byte).mpr (hAfter' byte (by simp [hRest])))
                  exact absurd hBlank (by simp [hPlain])
  · obtain ⟨rfl, rfl⟩ := hBody.cut hBody' hOpens hBodies
    exact Or.inl ⟨rfl, hSpace rfl⟩

end Grammar

/-! ### Parses -/

/-- A document that was returned shows a value of its text. -/
theorem documentParse_shows {heap : Heap} {input : CText} {profile : Profile}
    {requested : Option Limits} {errorGiven : Bool} {document : Document}
    (h : (documentParse heap input profile requested errorGiven).document = some document) :
    ∃ t, Text profile input.bytes t ∧ documentTree document = .ok t.lastWins := by
  obtain ⟨limits, s, survivor, hLimits, hRead, hPublished, hJson, -⟩ := documentParse_returns h
  obtain ⟨hText, -⟩ := (readText_iff_acceptable hLimits s.json).mp ⟨s, hRead, rfl⟩
  exact ⟨s.json, hText, by rw [documentTree_eq hPublished, hJson]⟩

/-- Two inputs one of which begins the other, both accepted: the longer one adds space, or it
goes on with a number. So an input cut short is refused, unless it is a number. -/
theorem documentParse_prefix {heap heap' : Heap} {bytes more : Bytes} {profile : Profile}
    {requested requested' : Option Limits} {errorGiven errorGiven' : Bool}
    {document document' : Document}
    (h : (documentParse heap (.buffer bytes) profile requested errorGiven).document = some document)
    (h' : (documentParse heap' (.buffer (bytes ++ more)) profile requested' errorGiven').document =
      some document') :
    (Blank more ∧ documentTree document' = documentTree document) ∨
      ∃ lexeme rest, rest ≠ [] ∧ documentTree document = .ok (.number lexeme) ∧
        documentTree document' = .ok (.number (lexeme ++ rest)) := by
  obtain ⟨t, hText, hTree⟩ := documentParse_shows h
  obtain ⟨t', hText', hTree'⟩ := documentParse_shows h'
  rw [hTree, hTree']
  rcases hText.cut hText' with ⟨rfl, hBlank⟩ | ⟨lexeme, rest, rfl, rfl, hRest⟩
  · exact Or.inl ⟨hBlank, rfl⟩
  · exact Or.inr ⟨lexeme, rest, hRest, rfl, rfl⟩

/-- `12` begins `123`, and both are numbers. -/
theorem documentParse_prefix_number :
    ∃ document document',
      (documentParse ⟨fun _ => true, []⟩ (.buffer [0x31, 0x32]) .rfc8259 none true).document =
        some document ∧
      (documentParse ⟨fun _ => true, []⟩ (.buffer ([0x31, 0x32] ++ [0x33])) .rfc8259 none
        true).document = some document' ∧
      ((Blank [0x33] ∧ documentTree document' = documentTree document) ∨
        ∃ lexeme rest, rest ≠ [] ∧ documentTree document = .ok (.number lexeme) ∧
          documentTree document' = .ok (.number (lexeme ++ rest))) := by
  obtain ⟨document, hDocument⟩ :
    ∃ document, (documentParse ⟨fun _ => true, []⟩ (.buffer [0x31, 0x32]) .rfc8259 none
    true).document = some document := Option.isSome_iff_exists.mp (by decide +kernel)
  obtain ⟨document', hDocument'⟩ :
    ∃ document', (documentParse ⟨fun _ => true, []⟩ (.buffer ([0x31, 0x32] ++ [0x33])) .rfc8259
    none true).document = some document' := Option.isSome_iff_exists.mp (by decide +kernel)
  exact ⟨document, document', hDocument, hDocument', documentParse_prefix hDocument hDocument'⟩

end MaelysJson
