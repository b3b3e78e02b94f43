import MaelysJson.Reading.Parse
import MaelysJson.Reading.Texts

/-! The language of each profile and the tree a caller reads from an accepted text. -/
namespace MaelysJson

open Forest Grammar

variable {heap : Heap} {bytes : Bytes} {profile : Profile} {requested : Option Limits}
  {limits : Limits} {bound : Nat}

/-! ### One text, one tree -/

theorem Grammar.Content.relax {content text : Bytes} (h : Content .contractAscii content text) :
    Content .rfc8259 content text := by
  rw [Content, if_pos rfl] at h
  obtain ⟨hPlain, rfl⟩ := h
  rw [Content, if_neg (by simp)]
  induction text with
  | nil => exact .nil
  | cons byte text ih =>
      obtain ⟨hLow, hHigh, hQuote, hSlash⟩ := hPlain byte List.mem_cons_self
      have hLow' : 0x20 ≤ byte.toNat := UInt8.le_iff_toNat_le.mp hLow
      have hHigh' : byte.toNat ≤ 0x7e := UInt8.le_iff_toNat_le.mp hHigh
      have hValid : byte.toNat.isValidChar := Or.inl (by omega)
      have hValue : (Char.ofNat byte.toNat).val.toNat = byte.toNat := by
        rw [Char.ofNat, dif_pos hValid]
        rfl
      have hEncode : String.utf8EncodeChar (Char.ofNat byte.toNat) = [byte] := by
        rw [← encodeUtf8_eq, hValue, encodeUtf8, if_pos (by omega), UInt8.ofNat_toNat]
      have hUnit : StringUnit Unescaped [byte] [byte] := by
        rw [← hEncode]
        refine .scalar _ ⟨by rw [hValue]; exact hLow', ?_, ?_⟩
        · rw [hValue]
          exact fun h => hQuote (UInt8.toNat_inj.mp h)
        · rw [hValue]
          exact fun h => hSlash (UInt8.toNat_inj.mp h)
      exact .cons hUnit (ih fun b hb => hPlain b (List.mem_cons_of_mem _ hb))

theorem Grammar.Members.relax {profile' : Profile} {body : Bytes} {members : List (Bytes × Json)}
    (h : Members profile body members)
    (hContent : ∀ content text, Content profile content text → Content profile' content text)
    (hValues : ∀ m ∈ members, ∀ body, Value profile body m.2 → Value profile' body m.2) :
    Members profile' body members := by
  induction members generalizing body with
  | nil => cases h
  | cons m members ih =>
      have hHead := hValues m List.mem_cons_self
      have hTail := fun body h => @ih body h fun m hm => hValues m (List.mem_cons_of_mem _ hm)
      cases h with
      | last hKey hA hB hValue => exact .last (hContent _ _ hKey) hA hB (hHead _ hValue)
      | more hKey hA hB hValue hC hD hRest =>
          exact .more (hContent _ _ hKey) hA hB (hHead _ hValue) hC hD (hTail _ hRest)

theorem Grammar.Elements.relax {profile' : Profile} {body : Bytes} {elements : List Json}
    (h : Elements profile body elements)
    (hValues : ∀ v ∈ elements, ∀ body, Value profile body v → Value profile' body v) :
    Elements profile' body elements := by
  induction elements generalizing body with
  | nil => cases h
  | cons v elements ih =>
      have hHead := hValues v List.mem_cons_self
      have hTail := fun body h => @ih body h fun v hv => hValues v (List.mem_cons_of_mem _ hv)
      cases h with
      | last hValue => exact .last (hHead _ hValue)
      | more hValue hC hD hRest => exact .more (hHead _ hValue) hC hD (hTail _ hRest)

/-- A profile with more string literals derives every value that the other derives. -/
theorem Grammar.Value.relax {profile' : Profile} {body : Bytes} {t : Json}
    (h : Value profile body t)
    (hContent : ∀ content text, Content profile content text → Content profile' content text) :
    Value profile' body t := by
  induction t using Tree.induct generalizing body with
  | object members ih =>
      cases h with
      | emptyObject hGap => exact .emptyObject hGap
      | object hBefore hBody hAfter =>
          exact .object hBefore (hBody.relax hContent fun m hm body => ih m hm) hAfter
  | array elements ih =>
      cases h with
      | emptyArray hGap => exact .emptyArray hGap
      | array hBefore hBody hAfter =>
          exact .array hBefore (hBody.relax fun v hv body => ih v hv) hAfter
  | string text =>
      cases h with
      | string hText => exact .string (hContent _ _ hText)
  | number lexeme =>
      cases h with
      | number hNumber => exact .number hNumber
  | boolean value =>
      cases h with
      | true => exact .true
      | false => exact .false
  | null =>
      cases h
      exact .null

/-- Every text of a profile is one of the tolerant profile. -/
theorem Grammar.Text.tolerant {t : Json} (h : Text profile bytes t) :
    Text .rfc8259LastWins bytes t := by
  obtain ⟨before, body, after, hBefore, hValue, hAfter, rfl⟩ := h
  refine ⟨before, body, after, hBefore, hValue.relax fun content text hContent => ?_, hAfter, rfl⟩
  rw [content_lastWins]
  cases profile with
  | contractAscii => exact hContent.relax
  | _ => exact hContent

theorem Grammar.text_lastWins {t : Json} :
    Text .rfc8259LastWins bytes t ↔ Text .rfc8259 bytes t := by
  refine ⟨fun h => ?_, Text.tolerant⟩
  obtain ⟨before, body, after, hBefore, hValue, hAfter, rfl⟩ := h
  exact ⟨before, body, after, hBefore, hValue.relax fun content text =>
    (content_lastWins content text).mp, hAfter, rfl⟩

/-- The grammar is unambiguous: bounds that hold for two trees of one text let the
reader find both. -/
theorem Grammar.Text.unique {t t' : Json} (h : Text profile bytes t) (h' : Text profile bytes t') :
    t = t' := by
  have hRead (u : Json) (hText : Text profile bytes u) (hRoom : u.tokens ≤ max t.tokens t'.tokens)
      (hDepth : u.depth ≤ max t.depth t'.depth) :=
    (Reading.readText_iff
      ⟨.rfc8259LastWins, bytes, max t.depth t'.depth, max t.tokens t'.tokens⟩ u).mpr
      ⟨hText.tolerant, hRoom, hDepth, fun hStrict => absurd rfl hStrict⟩
  obtain ⟨s, hs, rfl⟩ := hRead t h (le_max_left _ _) (le_max_left _ _)
  obtain ⟨s', hs', rfl⟩ := hRead t' h' (le_max_right _ _) (le_max_right _ _)
  rw [hs] at hs'
  cases hs'
  rfl

/-! ### Accepted texts -/

/-- A value within the limits, and with keys as the profile demands. -/
def Acceptable (profile : Profile) (limits : Limits) (t : Json) : Prop :=
  t.depth ≤ limits.maximumDepth ∧ t.tokens ≤ limits.maximumTokens ∧
    (profile ≠ .rfc8259LastWins → t.uniqueKeys = true)

theorem readText_iff_acceptable (hLimits : limitsResolve requested = .ok limits) (t : Json) :
    (∃ s, (readingOf bytes profile limits).readText = .ok s ∧ s.json = t) ↔
      Text profile bytes t ∧ Acceptable profile limits t := by
  obtain ⟨-, -, hTokens, -, -, hPos⟩ := limitsResolve_ok hLimits
  have hCapacity := (@tokenCapacityFor_spec bytes.length _ hTokens hPos).2 t.tokens t.tokens_pos
  rw [Reading.readText_iff]
  constructor
  · rintro ⟨hText, hRoom, hDepth, hKeys⟩
    exact ⟨hText, hDepth, (hCapacity hText.tokens_le).mp hRoom, hKeys⟩
  · rintro ⟨hText, hDepth, hRoom, hKeys⟩
    exact ⟨hText, (hCapacity hText.tokens_le).mpr hRoom, hDepth, hKeys⟩

/-- An accepted text: what is published, and what of the value it shows. -/
theorem documentParse_ok (hHeap : heap.Generous) (hLimits : limitsResolve requested = .ok limits)
    (hSize : bytes.length ≤ limits.maximumBytes)
    (hBound : documentParseAllocationBound bytes.length profile requested = .ok bound)
    (errorGiven : Bool) {t : Json} (hText : Text profile bytes t)
    (hAcceptable : Acceptable profile limits t) :
    ∃ (document : Document) (heap' : Heap) (survivor : Source),
      documentParse heap (.buffer bytes) profile requested errorGiven =
        ⟨.ok, some document, freshError errorGiven, heap'⟩ ∧
      document.Published (survivor.rows 0 none) ∧ survivor.json = t.lastWins ∧
      document.bytes = bytes ∧
      document.profile = profile ∧ document.duplicateCount = t.duplicates := by
  obtain ⟨s, hRead, rfl⟩ := (readText_iff_acceptable hLimits t).mpr ⟨hText, hAcceptable⟩
  have hRun := documentParse_reads hHeap hLimits hSize hBound errorGiven
  rw [hRead] at hRun
  obtain ⟨parsed, heap', published, heap'', hParsed, hHeap', hPublish, hParse⟩ := hRun
  obtain ⟨published', heap₂, survivor, hPublish', hPublished, hJson, -, hBytes, hProfile, hCount⟩ :=
    publishDocument_published hHeap' hParsed.shows hParsed.marks hParsed.duplicates
  rw [hPublish] at hPublish'
  cases hPublish'
  exact ⟨published, heap'', survivor, hParse, hPublished, hJson, hBytes.trans hParsed.bytes,
    hProfile.trans hParsed.profile, hCount.trans hParsed.duplicates⟩

/-- The accepted texts. -/
theorem documentParse_accepts (hHeap : heap.Generous)
    (hLimits : limitsResolve requested = .ok limits) (hSize : bytes.length ≤ limits.maximumBytes)
    (hBound : documentParseAllocationBound bytes.length profile requested = .ok bound)
    (errorGiven : Bool) :
    (documentParse heap (.buffer bytes) profile requested errorGiven).result = .ok ↔
      ∃ t, Text profile bytes t ∧ Acceptable profile limits t := by
  constructor
  · intro hOk
    have hRun := documentParse_reads hHeap hLimits hSize hBound errorGiven
    cases hRead : (readingOf bytes profile limits).readText with
    | ok s => exact ⟨s.json, (readText_iff_acceptable hLimits s.json).mp ⟨s, hRead, rfl⟩⟩
    | error fault =>
        rw [hRead] at hRun
        obtain ⟨heap', hParse⟩ := hRun
        rw [hParse] at hOk
        exact absurd hOk (Reading.readText_reports hRead).ne.1
  · rintro ⟨t, hText, hAcceptable⟩
    obtain ⟨document, heap', survivor, hParse, -⟩ := documentParse_ok hHeap hLimits hSize
      hBound errorGiven hText hAcceptable
    rw [hParse]

/-! ### The strict profiles -/

/-- A caller of a strict profile reads the tree of the accepted text. -/
theorem documentParse_strictTree (hHeap : heap.Generous) (hStrict : profile ≠ .rfc8259LastWins)
    (hLimits : limitsResolve requested = .ok limits) (hSize : bytes.length ≤ limits.maximumBytes)
    (hBound : documentParseAllocationBound bytes.length profile requested = .ok bound)
    (errorGiven : Bool) {t : Json} (hText : Text profile bytes t)
    (hOk : (documentParse heap (.buffer bytes) profile requested errorGiven).result = .ok) :
    ∃ document, (documentParse heap (.buffer bytes) profile requested errorGiven).document =
      some document ∧ documentTree document = .ok t := by
  obtain ⟨t', hText', hAcceptable⟩ :=
    (documentParse_accepts hHeap hLimits hSize hBound errorGiven).mp hOk
  obtain rfl := hText.unique hText'
  obtain ⟨document, heap', survivor, hParse, hPublished, hJson, -⟩ := documentParse_ok hHeap
    hLimits hSize hBound errorGiven hText hAcceptable
  refine ⟨document, by rw [hParse], ?_⟩
  rw [documentTree_eq hPublished, hJson, Tree.lastWins_of_uniqueKeys (hAcceptable.2.2 hStrict)]

/-- The strict profiles accept the texts of the grammar with unique keys, within the
limits, and a caller reads the tree of the text. -/
theorem documentParse_strict (hHeap : heap.Generous) (hStrict : profile ≠ .rfc8259LastWins)
    (hLimits : limitsResolve requested = .ok limits) (hSize : bytes.length ≤ limits.maximumBytes)
    (hBound : documentParseAllocationBound bytes.length profile requested = .ok bound)
    (errorGiven : Bool) :
    ((documentParse heap (.buffer bytes) profile requested errorGiven).result = .ok ↔
      ∃ t : Json, Text profile bytes t ∧ t.uniqueKeys = true ∧ t.depth ≤ limits.maximumDepth ∧
        t.tokens ≤ limits.maximumTokens) ∧
    ∀ t, Text profile bytes t →
      (documentParse heap (.buffer bytes) profile requested errorGiven).result = .ok →
      ∃ document, (documentParse heap (.buffer bytes) profile requested errorGiven).document =
        some document ∧ documentTree document = .ok t := by
  have hAccepts := documentParse_accepts hHeap hLimits hSize hBound errorGiven
  refine ⟨hAccepts.trans (exists_congr fun t => and_congr_right fun _ => ?_), fun t hText hOk =>
    documentParse_strictTree hHeap hStrict hLimits hSize hBound errorGiven hText hOk⟩
  constructor
  · rintro ⟨hDepth, hTokens, hKeys⟩
    exact ⟨hKeys hStrict, hDepth, hTokens⟩
  · rintro ⟨hKeys, hDepth, hTokens⟩
    exact ⟨hDepth, hTokens, fun _ => hKeys⟩

/-- `{"a\n":[-5e-1,{"b":"\u00e9"}]}` -/
def nestedText : Bytes :=
  [0x7b, 0x22, 0x61, 0x5c, 0x6e, 0x22, 0x3a, 0x5b, 0x2d, 0x35, 0x65, 0x2d, 0x31, 0x2c, 0x7b, 0x22,
    0x62, 0x22, 0x3a, 0x22, 0x5c, 0x75, 0x30, 0x30, 0x65, 0x39, 0x22, 0x7d, 0x5d, 0x7d]

def nestedTree : Json :=
  .object [([0x61, 0x0a],
    .array [.number [0x2d, 0x35, 0x65, 0x2d, 0x31], .object [([0x62], .string [0xc3, 0xa9])]])]

def nestedDocument : Document :=
  ⟨.rfc8259, nestedText,
    [⟨⟨none, some 1, some 2, none, 2⟩, .object, 0, 30, none, 0, 0, false, false, false⟩,
      ⟨⟨some 0, none, none, some 2, 0⟩, .string, 2, 5, some 0, 2, 0, true, false, false⟩,
      ⟨⟨some 0, some 3, some 4, none, 2⟩, .array, 7, 29, none, 0, 2, false, false, false⟩,
      ⟨⟨some 2, none, none, some 4, 0⟩, .number, 8, 13, some 3, 5, 0, false, false, false⟩,
      ⟨⟨some 2, some 5, some 6, none, 2⟩, .object, 14, 28, none, 0, 4, false, false, false⟩,
      ⟨⟨some 4, none, none, some 6, 0⟩, .string, 16, 17, some 9, 1, 0, true, false, false⟩,
      ⟨⟨some 4, none, none, none, 0⟩, .string, 20, 26, some 11, 2, 0, false, false, false⟩],
    30, [0x61, 0x0a, 0, 0x2d, 0x35, 0x65, 0x2d, 0x31, 0, 0x62, 0, 0xc3, 0xa9, 0], 61,
    [1, 2, 3, 4, 5, 6], 0⟩

/-- A text with nesting and escapes: it is accepted, the grammar gives it this tree, and so does the
document. -/
theorem documentParse_strict_nested :
    let parsed := documentParse ⟨fun _ => true, []⟩ (.buffer nestedText) .rfc8259 none true
    parsed.result = .ok ∧ Text .rfc8259 nestedText nestedTree ∧
      nestedTree.uniqueKeys = true ∧ nestedTree.depth ≤ 32 ∧ nestedTree.tokens ≤ 8192 ∧
      parsed.document = some nestedDocument ∧ documentTree nestedDocument = .ok nestedTree := by
  intro parsed
  obtain ⟨hIff, hReads⟩ := @documentParse_strict ⟨fun _ => true, []⟩ nestedText .rfc8259 none
    ⟨65535, 32, 8192⟩ 3556 (fun _ => rfl) (by decide) (by decide) (by decide)
    (by decide +kernel) true
  have hOk : parsed.result = .ok := by decide +kernel
  have hDocument : parsed.document = some nestedDocument := by decide +kernel
  obtain ⟨t, hText, hKeys, hDepth, hTokens⟩ := hIff.mp hOk
  obtain ⟨document, hShown, hTree⟩ := hReads t hText hOk
  obtain rfl := Option.some.inj (hDocument.symm.trans hShown)
  have hNested : documentTree nestedDocument = .ok nestedTree := by rfl
  obtain rfl := Except.ok.inj (hNested.symm.trans hTree)
  exact ⟨hOk, hText, hKeys, hDepth, hTokens, hDocument, hNested⟩

/-! ### The tolerant profile -/

/-- The tolerant profile accepts the same texts with repeated keys as well. A caller
reads the tree with the last occurrence of each key, by whatever path, and the count
of the members that it leaves out. -/
theorem documentParse_lastWins (hHeap : heap.Generous)
    (hLimits : limitsResolve requested = .ok limits) (hSize : bytes.length ≤ limits.maximumBytes)
    (hBound : documentParseAllocationBound bytes.length .rfc8259LastWins requested = .ok bound)
    (errorGiven : Bool) :
    ((documentParse heap (.buffer bytes) .rfc8259LastWins requested errorGiven).result = .ok ↔
      ∃ t : Json, Text .rfc8259 bytes t ∧ t.depth ≤ limits.maximumDepth ∧
        t.tokens ≤ limits.maximumTokens) ∧
    ∀ t : Json, Text .rfc8259 bytes t →
      (documentParse heap (.buffer bytes) .rfc8259LastWins requested errorGiven).result = .ok →
      ∃ document, (documentParse heap (.buffer bytes) .rfc8259LastWins requested
          errorGiven).document = some document ∧
        documentTree document = .ok t.lastWins ∧
        (∀ path, match t.lastWins.follow path with
          | some u => ∃ v, valueAt document 0 path = .ok v ∧
              valueTree document document.tokens.length v = .ok u
          | none => ∃ result, valueAt document 0 path = .error result) ∧
        documentDuplicateCount document = t.duplicates := by
  have hAccepts := documentParse_accepts hHeap hLimits hSize hBound errorGiven
  refine ⟨hAccepts.trans (exists_congr fun t => and_congr text_lastWins ?_), fun t hText hOk => ?_⟩
  · exact ⟨fun h => ⟨h.1, h.2.1⟩, fun h => ⟨h.1, h.2, fun hStrict => absurd rfl hStrict⟩⟩
  · obtain ⟨t', hText', hAcceptable⟩ := hAccepts.mp hOk
    obtain rfl := hText'.unique hText.tolerant
    obtain ⟨document, heap', survivor, hParse, hPublished, hJson, -, -,
      hCount⟩ := documentParse_ok hHeap hLimits hSize hBound errorGiven hText' hAcceptable
    have hAt : Rose.At (survivor.rows 0 none) survivor.rose 0 := Rose.at_rows survivor.rose
    refine ⟨document, by rw [hParse], by rw [documentTree_eq hPublished, hJson],
      fun path => ?_, hCount⟩
    have hPath := valueAt_eq hPublished survivor hAt path
    rw [← hJson]
    cases hFollow : survivor.json.follow path with
    | none =>
        rw [hFollow] at hPath
        exact hPath
    | some u =>
        rw [hFollow] at hPath
        obtain ⟨v, s', hValue, hAtV, rfl⟩ := hPath
        refine ⟨v, hValue, valueTree_eq hPublished s' hAtV ?_⟩
        rw [hPublished.shows.length]
        omega

/-- The text `{"a":1,"a":2}`. -/
theorem documentParse_lastWins_repeated :
    let bytes : Bytes :=
      [0x7b, 0x22, 0x61, 0x22, 0x3a, 0x31, 0x2c, 0x22, 0x61, 0x22, 0x3a, 0x32, 0x7d]
    let parsed := documentParse ⟨fun _ => true, []⟩ (.buffer bytes) .rfc8259LastWins none true
    (parsed.result = .ok ↔ ∃ t : Json, Text .rfc8259 bytes t ∧ t.depth ≤ 32 ∧ t.tokens ≤ 8192) ∧
    ∀ t : Json, Text .rfc8259 bytes t → parsed.result = .ok →
      ∃ document, parsed.document = some document ∧ documentTree document = .ok t.lastWins ∧
        (∀ path, match t.lastWins.follow path with
          | some u => ∃ v, valueAt document 0 path = .ok v ∧
              valueTree document document.tokens.length v = .ok u
          | none => ∃ result, valueAt document 0 path = .error result) ∧
        documentDuplicateCount document = t.duplicates :=
  @documentParse_lastWins _ _ _ ⟨65535, 32, 8192⟩ 2884 (fun _ => rfl) (by decide)
    (by decide) (by decide) true

end MaelysJson
