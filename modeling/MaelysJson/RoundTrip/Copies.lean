import MaelysJson.Copying.Growth
import MaelysJson.Reading.Bound
import MaelysJson.RoundTrip.Width

/-! Parsed documents copied into a writer of their own limits: nothing but the range of an integer
can be in the way, and what the writer finishes is no longer than the text that was parsed. -/
namespace MaelysJson

open Forest Grammar Heap Run

/-! ### Copied numbers -/

/-- A number without fraction and exponent is copied as the integer it denotes. -/
theorem copiedNumeral_whole {parts : NumberParts} (h : parts.WellFormed)
    (hInteger : parts.IsInteger) (hFits : WholeFits parts.bytes) :
    ShortestDecimal parts.denoted (copiedNumeral parts.bytes).text := by
  have hWhole := (writtenWhole_parts h).mpr hInteger
  have hNegative := negativeLexeme_parts h
  have hOk := numeralOf_ok hFits
  rw [numeralOf, if_pos hFits, if_pos hWhole] at hOk
  rw [WholeFits, wholeValue_parts h] at hFits
  by_cases hMinus : parts.minus = []
  · have hDenoted : parts.denoted = parts.magnitude := if_pos hMinus
    have hMagnitude : wholeMagnitude parts.bytes = parts.magnitude :=
      congrArg (decimalValue 0) (wholeDigits_parts h)
    have hNat : (UInt64.ofNat parts.magnitude).toNat = parts.magnitude :=
      UInt64.toNat_ofNat_of_lt' (show parts.magnitude < 2 ^ 64 by omega)
    rw [if_neg (by rw [hNegative]; exact not_not.mpr hMinus), hMagnitude, Except.ok.injEq] at hOk
    rw [← hOk, hDenoted, ← hNat]
    exact (Numeral.spelled_iff (.unsigned (.ofNat parts.magnitude)) _).mpr (by rw [hNat])
  · have hDenoted : parts.denoted = -parts.magnitude := if_neg hMinus
    have hInt : (Int64.ofInt parts.denoted).toInt = parts.denoted :=
      Int64.toInt_ofInt_of_le hFits.1 (by omega)
    rw [if_pos (hNegative.mpr hMinus), wholeValue_parts h, Except.ok.injEq] at hOk
    rw [← hOk, ← hInt]
    exact (Numeral.spelled_iff (.signed (.ofInt parts.denoted)) _).mpr (by rw [hInt])

theorem copiedNumeral_writable {limits : Limits} {lexeme : Bytes}
    (h : WholeFits lexeme ∧ WrittenWhole lexeme) :
    (copiedNumeral lexeme).Writable limits := by
  rw [copiedNumeral, numeralOf, if_pos h.1, if_pos h.2]
  split_ifs <;> trivial

/-- Every other number is copied as its lexeme. -/
theorem copiedNumeral_other {lexeme : Bytes} (h : ¬(WholeFits lexeme ∧ WrittenWhole lexeme)) :
    copiedNumeral lexeme = .lexeme lexeme := by
  rw [copiedNumeral, numeralOf]
  split_ifs with hFits hWhole
  · exact absurd ⟨hFits, hWhole⟩ h
  · exact absurd ⟨hFits, hWhole⟩ h
  · rfl
  · rfl

/-- An integer has no shorter spelling than the shortest decimal. -/
theorem ShortestDecimal.length_le {parts : NumberParts} {text : Bytes}
    (h : ShortestDecimal parts.denoted text) (hParts : parts.WellFormed) :
    text.length ≤ parts.bytes.length := by
  obtain ⟨parts', hParts', hInteger, hSign, hValue, rfl⟩ := h
  have hMagnitude : parts'.magnitude = parts.magnitude := by
    rw [NumberParts.denoted, NumberParts.denoted] at hValue
    split_ifs at hValue <;> omega
  have hDigits := hParts'.integer.unique hParts.integer hMagnitude
  have hMinus : parts'.minus.length ≤ parts.minus.length := by
    rcases hParts'.minus with hNone | hSome
    · simp [hNone]
    · have hNegative := hSign (by rw [hSome]; simp)
      rcases hParts.minus with hNone' | hSome'
      · rw [NumberParts.denoted, if_pos hNone'] at hNegative
        omega
      · rw [hSome, hSome']
  simp only [NumberParts.bytes, hInteger.1, hInteger.2, hDigits, List.length_append,
    List.length_nil]
  omega

theorem length_copied_le {lexeme : Bytes} (h : Number lexeme) :
    (copiedNumeral lexeme).text.length ≤ lexeme.length := by
  obtain ⟨parts, hParts, rfl⟩ := h
  by_cases hWhole : WholeFits parts.bytes ∧ WrittenWhole parts.bytes
  · exact (copiedNumeral_whole hParts ((writtenWhole_parts hParts).mp hWhole.2) hWhole.1).length_le
      hParts
  · rw [copiedNumeral_other hWhole]
    exact le_rfl

/-! ### The root of a parsed document -/

/-- A document that was parsed from a text with this value. -/
structure Document.Represents (document : Document) (profile : Profile) (limits : Limits)
    (bytes : Bytes) (t : Json) : Prop where
  text : Text profile bytes t
  acceptable : Acceptable profile limits t
  size : bytes.length ≤ limits.maximumBytes
  root : documentRoot document = some 0
  carries : document.Carries 0 t.lastWins
  tokens : document.tokens.length = t.lastWins.tokens
  bytes_eq : document.bytes = bytes
  profile_eq : document.profile = profile
  duplicates : document.duplicateCount = t.duplicates

variable {document : Document} {profile : Profile} {limits limits' : Limits}
  {bytes : Bytes} {t : Json}

theorem documentParse_represents {heap : Heap} {input : CText} {requested : Option Limits}
    {errorGiven : Bool}
    (hParse : (documentParse heap input profile requested errorGiven).document = some document) :
    ∃ limits t bound, limitsResolve requested = .ok limits ∧
      documentParseAllocationBound input.bytes.length profile requested = .ok bound ∧
      document.Represents profile limits input.bytes t := by
  obtain ⟨limits, s, survivor, hLimits, hRead, hPublished, hSurvivor, hBytes, hProfile, hCount⟩ :=
    documentParse_returns hParse
  have hAccepted := (readText_iff_acceptable hLimits s.json).mp ⟨s, hRead, rfl⟩
  rcases documentParse_arguments input profile requested errorGiven with
    ⟨limits', bound, hLimits', hSize, hBound, -⟩ | ⟨result, error, -, hRefused⟩
  swap
  · rw [hRefused] at hParse
    cases hParse
  obtain rfl : limits = limits' := Except.ok.inj (hLimits.symm.trans hLimits')
  have hAt : Rose.At (survivor.rows 0 none) survivor.rose 0 := Rose.at_rows survivor.rose
  have hRoot : documentRoot document = some 0 := by
    rw [documentRoot, if_neg]
    rw [hPublished.shows.length]
    exact Nat.ne_of_gt hAt.lt_length
  have hTree : documentTree document = .ok survivor.json := documentTree_eq hPublished
  rw [documentTree, hRoot] at hTree
  have hType : valueType document 0 ≠ .none := by
    rw [hPublished.valueType_eq hAt]
    cases survivor <;> simp [Source.cell]
  obtain ⟨t, hCarries⟩ := documentParse_carries hParse hType
  obtain rfl : t = survivor.json := Except.ok.inj (hCarries.tree.symm.trans hTree)
  refine ⟨limits, s.json, bound, hLimits, hBound, hAccepted.1, hAccepted.2, hSize, hRoot, ?_, ?_,
    hBytes, hProfile, hCount⟩
  · rwa [← hSurvivor]
  · rw [hPublished.shows.length, Source.length_rows, Source.size_rose, hSurvivor]

/-- The texts of a value, among its keys, strings and lexemes. -/
theorem Tree.every_length_le {t : Json} {bound : Nat} (h : ∀ text ∈ t.texts, text.length ≤ bound) :
    t.Every (fun text => text.length ≤ bound) fun lexeme => lexeme.length ≤ bound := by
  induction t using Tree.induct with
  | object members ih =>
      rw [texts_object, List.forall_mem_flatMap] at h
      rw [every_object]
      intro m hm
      have hMember := List.forall_mem_cons.mp (h m hm)
      exact ⟨hMember.1, ih m hm hMember.2⟩
  | array elements ih =>
      rw [texts_array, List.forall_mem_flatMap] at h
      rw [every_array]
      exact fun v hv => ih v hv (h v hv)
  | string text => exact h text List.mem_cons_self
  | number lexeme => exact h lexeme List.mem_cons_self
  | boolean value => trivial
  | null => trivial

theorem Tree.values_le_tokens {ν : Type} (t : Tree ν) : t.values ≤ t.tokens := by
  induction t with
  | object members ih =>
      rw [values_object, tokens_object]
      exact Nat.add_le_add_left (List.sum_le_sum fun m hm =>
        (ih m hm).trans (Nat.le_add_left _ 1)) 1
  | array elements ih =>
      rw [values_array, tokens_array]
      exact Nat.add_le_add_left (List.sum_le_sum ih) 1
  | string text => exact le_rfl
  | number value => exact le_rfl
  | boolean value => exact le_rfl
  | null => exact le_rfl

theorem Tree.depth_lastWins_le {ν : Type} {t : Tree ν} {depth bound : Nat}
    (h : depth + t.depth ≤ bound) :
    depth + t.lastWins.depth ≤ bound := by
  induction t generalizing depth with
  | object members ih =>
      obtain ⟨hOuter, hInner⟩ := (depth_object_le _ _ _).mp h
      rw [lastWins_object, depth_object_le]
      refine ⟨hOuter, fun m hm => ?_⟩
      obtain ⟨m, hMem, rfl⟩ := List.mem_map.mp ((lastOccurrences_sublist _).subset hm)
      exact ih m hMem (hInner m hMem)
  | array elements ih =>
      obtain ⟨hOuter, hInner⟩ := (depth_array_le _ _ _).mp h
      rw [lastWins_array, depth_array_le, List.forall_mem_map]
      exact ⟨hOuter, fun v hv => ih v hv (hInner v hv)⟩
  | string text => exact h
  | number value => exact h
  | boolean value => exact h
  | null => exact h

theorem Document.Represents.every (h : document.Represents profile limits bytes t) :
    t.lastWins.Every (PlainText (writerProfile profile)) Number := by
  obtain ⟨_, _, _, -, hBody, -⟩ := h.text
  exact hBody.every.lastWins

/-- With room for the value, a writer may take every copy of it. -/
theorem Tree.copied_admitted {profile : Profile} {limits : Limits} {t : Json}
    (hUnique : t.uniqueKeys = true) (hTexts : t.Every (PlainText profile) Number)
    (hLengths : t.Every (fun text => text.length ≤ limits.maximumBytes) fun lexeme =>
      lexeme.length ≤ limits.maximumBytes)
    (hDepth : t.depth ≤ limits.maximumDepth) (hValues : t.values ≤ limits.maximumTokens) :
    t.copied.Admitted profile limits [] := by
  refine ⟨(Tree.uniqueKeys_copied _).mpr hUnique, ?_, ?_, ?_⟩
  · rw [Tree.copied, Tree.every_map]
    refine (hTexts.and hLengths).imp (fun text hText => ?_) fun lexeme hLexeme => ?_
    · exact ⟨(validText_iff _ _).mpr hText.1, hText.2⟩
    · by_cases hWhole : WholeFits lexeme ∧ WrittenWhole lexeme
      · exact copiedNumeral_writable hWhole
      · rw [copiedNumeral_other hWhole]
        exact ⟨(numberSyntax_iff lexeme).mpr hLexeme.1, hLexeme.2⟩
  · rw [Tree.values_copied]
    exact (Nat.zero_add _).le.trans hValues
  · rw [Tree.depth_copied]
    exact (Nat.zero_add _).le.trans hDepth

theorem Document.Represents.admitted_of_room {profile' : Profile}
    (h : document.Represents profile limits bytes t)
    (hTexts : t.lastWins.Every (PlainText profile') Number)
    (hSize : bytes.length ≤ limits'.maximumBytes) (hDepth : t.lastWins.depth ≤ limits'.maximumDepth)
    (hValues : t.lastWins.values ≤ limits'.maximumTokens) :
    t.lastWins.copied.Admitted profile' limits' [] := by
  refine Tree.copied_admitted h.carries.unique hTexts (Tree.every_length_le fun text hText => ?_)
    hDepth hValues
  have hMem := t.texts_lastWins.subset hText
  have hSum := List.single_le_sum (fun _ _ => Nat.zero_le _) _
    (List.mem_map_of_mem (f := List.length) hMem)
  exact (hSum.trans h.text.texts_le).trans hSize

/-- The limits of the parse leave this room. -/
theorem Document.Represents.room (h : document.Represents profile limits bytes t) :
    t.lastWins.depth ≤ limits.maximumDepth ∧ t.lastWins.tokens ≤ limits.maximumTokens := by
  obtain ⟨hDepth, hTokens, -⟩ := h.acceptable
  have hOuter := @Tree.depth_lastWins_le _ t 0 _ ((Nat.zero_add _).le.trans hDepth)
  rw [Nat.zero_add] at hOuter
  exact ⟨hOuter, t.tokens_lastWins.trans hTokens⟩

/-- Within the limits of the parse, a writer may take every copy of the value. -/
theorem Document.Represents.admitted (h : document.Represents profile limits bytes t) :
    t.lastWins.copied.Admitted .rfc8259 limits [] :=
  h.admitted_of_room h.carries.every h.size h.room.1 (t.lastWins.values_le_tokens.trans h.room.2)

/-! ### Copies of the root -/

namespace Draft

/-- Where the events that a copy leaves are all permitted, only a number out of range stops it. -/
theorem copyAll_of_run {profile : Profile} {limits : Limits} {events : List Event} {d d' : Draft}
    (h : run profile limits (events.map Event.copied) d = some d') :
    d.copyAll profile limits events = .ok d' ∨
    d.copyAll profile limits events = .error .errRange := by
  induction events generalizing d with
  | nil =>
      cases h
      exact Or.inl rfl
  | cons e events ih =>
      rw [List.map_cons, run] at h
      obtain ⟨next, hPermit, hRest⟩ := Option.bind_eq_some_iff.mp h
      rw [copyAll]
      by_cases hReadable : e.Readable
      · rw [copyStep_eq_ok.mpr ⟨hReadable, hPermit⟩]
        exact ih hRest
      · have hNumber : ∃ lexeme, e = .number (.lexeme lexeme) ∧ ¬WholeFits lexeme := by
          by_contra hNot
          refine hReadable (Event.readable_of_ne fun lexeme hSame =>
            hNot ⟨lexeme, hSame, fun hFits => hReadable ?_⟩)
          rw [hSame]
          exact hFits
        obtain ⟨lexeme, rfl, hUnfit⟩ := hNumber
        rw [copyStep, copyNumber, numeralOf_error hUnfit]
        exact Or.inr rfl

end Draft

section

variable {w : Writer} {t : Json}

/-- A writer with room for the value takes a copy of it, or says that an integer is out of range. -/
theorem copyRoot (hBuilds : w.Builds .empty) (hCarries : document.Carries 0 t)
    (hAdmitted : t.copied.Admitted w.profile w.limits []) :
    (t.Every (fun _ => True) WholeFits →
      ((WriterCall.value (some document) 0).call w).1 = ⟨.ok, none⟩ ∧
      ((WriterCall.value (some document) 0).call w).2.Builds (.complete t.copied) ∧
      ((WriterCall.value (some document) 0).call w).2.setup = w.setup) ∧
    (¬t.Every (fun _ => True) WholeFits →
      ((WriterCall.value (some document) 0).call w).1 = ⟨.errRange, none⟩ ∧
      writerStatus ((WriterCall.value (some document) 0).call w).2 = .errRange) := by
  have hValue := @Draft.copyAll_value w.profile w.limits .empty (.complete t.copied) [] t rfl
    (Nat.zero_le _)
  have hRun := Draft.run_complete.mpr ⟨Tree.map_copied_steps t, hAdmitted⟩
  have hYields := writerValue_yields hBuilds hCarries
  constructor
  · intro hFits
    rw [hValue.mpr ⟨hFits, hAdmitted, rfl⟩] at hYields
    exact WriterCall.call_yields rfl hBuilds hYields
  · intro hUnfit
    have hRange := (Draft.copyAll_of_run hRun).resolve_left fun hOk => hUnfit (hValue.mp hOk).1
    rw [hRange] at hYields
    obtain ⟨hCall, -, hStatus⟩ :=
      @WriterCall.call_yields (.value (some document) 0) _ _ _ _ rfl hBuilds hYields
    exact ⟨hCall, hStatus nofun⟩

/-- Where the copy succeeds, the writer had room for the value, and holds it. -/
theorem copyRoot_ok (hBuilds : w.Builds .empty) (hCarries : document.Carries 0 t)
    (hOk : ((WriterCall.value (some document) 0).call w).1.result = .ok) :
    t.Every (fun _ => True) WholeFits ∧ t.copied.Admitted w.profile w.limits [] ∧
      ((WriterCall.value (some document) 0).call w).2.Builds (.complete t.copied) ∧
      ((WriterCall.value (some document) 0).call w).2.setup = w.setup := by
  have hYields := writerValue_yields hBuilds hCarries
  cases hOutcome : Draft.empty.copyAll w.profile w.limits t.steps with
  | error r =>
      rw [hOutcome] at hYields
      obtain ⟨hCall, hNot, -⟩ :=
        @WriterCall.call_yields (.value (some document) 0) _ _ _ _ rfl hBuilds hYields
      exact absurd ((congrArg Returned.result hCall).symm.trans hOk) hNot
  | ok next =>
      obtain ⟨hFits, hAdmitted, rfl⟩ := (Draft.copyAll_value (by rfl) (Nat.zero_le _)).mp hOutcome
      rw [hOutcome] at hYields
      obtain ⟨-, hComplete⟩ :=
        @WriterCall.call_yields (.value (some document) 0) _ _ _ _ rfl hBuilds hYields
      exact ⟨hFits, hAdmitted, hComplete⟩

/-- What a copy and the finish of a new writer return, where the writer has room for the value: the
output that the flags ask for, unless an integer is out of range or the output too long. -/
structure Copied (document : Document) (t : Json) (limits : Limits) (flags : UInt32) (w : Writer) :
    Prop where
  whole : ((WriterCall.value (some document) 0).call w).1.result = .ok ↔
    t.Every (fun _ => True) WholeFits
  range : ((WriterCall.value (some document) 0).call w).1.result ≠ .ok →
    ((WriterCall.value (some document) 0).call w).1.result = .errRange ∧
      writerStatus ((WriterCall.value (some document) 0).call w).2 = .errRange
  finish : ((WriterCall.value (some document) 0).call w).1.result = .ok →
    (((WriterCall.finish true).call ((WriterCall.value (some document) 0).call w).2).1.result =
      .ok ↔ (outputOf flags t.copied.json).length ≤ limits.maximumBytes)
  output : ((WriterCall.finish true).call
    ((WriterCall.value (some document) 0).call w).2).1.result = .ok →
    ((WriterCall.finish true).call ((WriterCall.value (some document) 0).call w).2).1.output =
      some (outputOf flags t.copied.json)

theorem writerCreate_copies {heap h : Heap} {requested : Option Limits} {flags : UInt32}
    (hHeap : heap.Generous) (hLimits : limitsResolve requested = .ok limits)
    (hCreate : writerCreate heap profile requested flags = (.ok w, h))
    (hCarries : document.Carries 0 t) (hAdmitted : t.copied.Admitted profile limits []) :
    Copied document t limits flags w := by
  obtain ⟨hBuilds, hSetup⟩ := writerCreate_builds hHeap hLimits hCreate
  have hProfile : w.profile = profile := congrArg Prod.fst hSetup
  have hLimits' : w.limits = limits := congrArg (fun setup => setup.2.1) hSetup
  obtain ⟨hFits, hUnfit⟩ := copyRoot hBuilds hCarries (by rwa [hProfile, hLimits'])
  have hWhole : ((WriterCall.value (some document) 0).call w).1.result = .ok ↔
      t.Every (fun _ => True) WholeFits := by
    refine ⟨fun hOk => ?_, fun hWhole => congrArg Returned.result (hFits hWhole).1⟩
    by_contra hNot
    exact absurd (hOk.symm.trans (congrArg Returned.result (hUnfit hNot).1)) nofun
  have hFinish (hOk : ((WriterCall.value (some document) 0).call w).1.result = .ok) :
      (((WriterCall.finish true).call ((WriterCall.value (some document) 0).call w).2).1.result =
        .ok ↔ (outputOf flags t.copied.json).length ≤ limits.maximumBytes) ∧
      (((WriterCall.finish true).call ((WriterCall.value (some document) 0).call w).2).1.result =
        .ok →
        ((WriterCall.finish true).call ((WriterCall.value (some document) 0).call w).2).1.output =
          some (outputOf flags t.copied.json)) := by
    obtain ⟨-, hComplete, hSame⟩ := hFits (hWhole.mp hOk)
    have hSetup := hSame.trans hSetup
    have hBytes : ((WriterCall.value (some document) 0).call w).2.limits = limits :=
      congrArg (fun setup => setup.2.1) hSetup
    have hFlags : ((WriterCall.value (some document) 0).call w).2.flags = flags :=
      congrArg (fun setup => setup.2.2) hSetup
    have hAccepted := finish_accepted (by rw [hBytes]; exact (limitsResolve_ok hLimits).1) hComplete
      hAdmitted.unique hAdmitted.valid
    rwa [hBytes, hFlags] at hAccepted
  refine ⟨hWhole, fun hNot => ?_, fun hOk => (hFinish hOk).1, fun hFinished => ?_⟩
  · obtain ⟨hCall, hStatus⟩ := hUnfit fun hFits => hNot (hWhole.mpr hFits)
    exact ⟨congrArg Returned.result hCall, hStatus⟩
  · have hReady := WriterCall.ready_of_ok hFinished
    refine (hFinish ?_).2 hFinished
    by_contra hNot
    obtain ⟨-, hStatus⟩ := hUnfit fun hFits => hNot (hWhole.mpr hFits)
    exact absurd (hReady.1.symm.trans hStatus) nofun

end

/-! ### Length of the output -/

theorem Tree.json_copied (t : Json) :
    t.copied.json = t.map fun lexeme => (copiedNumeral lexeme).text :=
  map_map _ _ t

/-- The canonical form of a parsed value is no longer than the text it was parsed from. -/
theorem Document.Represents.length_output_le (h : document.Represents profile limits bytes t) :
    (outputOf 0 t.lastWins.copied.json).length ≤ bytes.length := by
  have hNumbers : t.lastWins.Every (PlainText .rfc8259) fun lexeme =>
    (copiedNumeral lexeme).text.length ≤ lexeme.length :=
    h.carries.every.imp (fun _ hText => hText) fun _ hNumber => length_copied_le hNumber
  calc (outputOf 0 t.lastWins.copied.json).length
      = (t.lastWins.map fun lexeme => (copiedNumeral lexeme).text).width := by
        rw [length_outputOf, Tree.json_copied]
    _ ≤ t.lastWins.width := Tree.width_map_le hNumbers
    _ ≤ t.width := t.width_lastWins_le
    _ ≤ bytes.length := h.text.width_le

/-- A document fits into a writer of its own limits, and so does its output: whatever was
parsed, only the range of an integer can stop the copy, and the finish cannot fail. -/
theorem copy_bounded {heap h heap' : Heap} {profile : Profile} {requested : Option Limits}
    {input : CText} {errorGiven : Bool} {w : Writer} (hHeap : heap.Generous)
    (hParse : (documentParse heap' input profile requested errorGiven).document = some document)
    (hCreate : writerCreate heap .rfc8259 requested 0 = (.ok w, h)) :
    ∃ root, documentRoot document = some root ∧
      let copied := (WriterCall.value (some document) root).call w
      let finished := (WriterCall.finish true).call copied.2
      (copied.1.result = .ok ∨ copied.1.result = .errRange) ∧
      (copied.1.result = .ok → finished.1.result = .ok ∧
        ∃ output, finished.1.output = some output ∧ output.length ≤ input.bytes.length) ∧
      (copied.1.result = .errRange → writerStatus finished.2 = .errRange) ∧
      copied.2.nodes.length ≤ document.tokens.length ∧
          finished.2.nodes.length ≤ document.tokens.length := by
  obtain ⟨limits, t, -, hLimits, -, hDocument⟩ := documentParse_represents hParse
  have hCopied := writerCreate_copies hHeap hLimits hCreate hDocument.carries hDocument.admitted
  obtain ⟨hBuilds, -⟩ := writerCreate_builds hHeap hLimits hCreate
  have hNodes := nodes_of_copy hDocument.carries (List.length_eq_zero_iff.mp hBuilds.length) true
  have hTokens := t.lastWins.values_le_tokens
  rw [← hDocument.tokens] at hTokens
  refine ⟨0, hDocument.root, ?_⟩
  intro copied finished
  refine ⟨?_, fun hOk => ?_, fun hRange => ?_, hNodes.1.trans hTokens, hNodes.2.trans hTokens⟩
  · by_cases hOk : copied.1.result = .ok
    · exact Or.inl hOk
    · exact Or.inr (hCopied.range hOk).1
  · have hFinished := (hCopied.finish hOk).mpr (hDocument.length_output_le.trans hDocument.size)
    exact ⟨hFinished, _, hCopied.output hFinished, hDocument.length_output_le⟩
  · obtain ⟨-, hStatus⟩ := hCopied.range (by rw [hRange]; nofun)
    have hNot : ¬copied.2.Ready := fun hReady => absurd (hReady.1.symm.trans hStatus) nofun
    have hSame : finished.2 = copied.2 := (callAll_not_ready hNot [.finish true]).2
    rw [hSame]
    exact hStatus

theorem copy_bounded_pair :
    let w := Writer.fresh .rfc8259 ⟨65535, 32, 8192⟩ 0 ⟨fun _ => true, [144, 256, 256]⟩
    let copied := (WriterCall.value (some pairDocument) 0).call w
    let finished := (WriterCall.finish true).call copied.2
    copied.1.result = .ok ∧ finished.1.result = .ok ∧
      (∃ output, finished.1.output = some output ∧ output.length ≤ pairText.length) ∧
      finished.2.nodes.length ≤ pairDocument.tokens.length := by
  intro w copied finished
  obtain ⟨root, hRoot, -, hFinish, -, -, hNodes⟩ := @copy_bounded pairDocument ⟨fun _ => true, []⟩
    ⟨fun _ => true, [144, 256, 256]⟩ ⟨fun _ => true, []⟩ .rfc8259 none (.buffer pairText) true w
    (fun _ => rfl) (by decide +kernel) rfl
  obtain rfl : 0 = root := Option.some.inj hRoot
  have hOk : copied.1.result = .ok := by decide +kernel
  obtain ⟨hFinished, hOutput⟩ := hFinish hOk
  exact ⟨hOk, hFinished, hOutput, hNodes⟩

end MaelysJson
