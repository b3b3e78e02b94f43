import MaelysJson.RoundTrip.Agreement

/-! A copy is a fixed point: parsed, presented in any form and parsed again, it is copied as
itself. -/
namespace MaelysJson

open Grammar Heap Utf8

/-! ### Numbers that are copied -/

/-- A copied number is copied as it stands. -/
theorem rendered_rendered {lexeme : Bytes} (h : Number lexeme) (hFits : WholeFits lexeme) :
    Number (rendered lexeme) ∧ rendered (rendered lexeme) = rendered lexeme ∧
      WholeFits (rendered lexeme) ∧ (WrittenWhole (rendered lexeme) ↔ WrittenWhole lexeme) := by
  by_cases hWhole : WrittenWhole lexeme
  · have hShortest := rendered_whole h hFits hWhole
    obtain ⟨hNumber, hWhole', hValue⟩ := hShortest.whole
    have hFits' : WholeFits (rendered lexeme) := by rwa [WholeFits, hValue]
    have hAgain := rendered_whole hNumber hFits' hWhole'
    rw [hValue] at hAgain
    exact ⟨hNumber, hAgain.unique hShortest, hFits', iff_of_true hWhole' hWhole⟩
  · rw [rendered_other hWhole]
    exact ⟨h, rendered_other hWhole, hFits, Iff.rfl⟩

theorem Tree.map_eq_self {ν : Type} {f : ν → ν} {t : Tree ν}
    (h : t.Every (fun _ => True) fun value => f value = value) :
    t.map f = t := by
  induction t with
  | object members ih =>
      rw [every_object] at h
      rw [map_object]
      conv_rhs => rw [← List.map_id members]
      exact congrArg object (List.map_congr_left fun m hm => Prod.ext rfl (ih m hm (h m hm).2))
  | array elements ih =>
      rw [every_array] at h
      rw [map_array]
      exact congrArg array
        ((List.map_congr_left fun v hv => ih v hv (h v hv)).trans (List.map_id elements))
  | string text => rfl
  | number value => exact congrArg number h
  | boolean value => rfl
  | null => rfl

/-- The value of a copy: the numbers in their copied form, and the keys in order. -/
def Tree.normal (t : Json) : Json := (t.map rendered).sorted

/-- A value that is its own copy. -/
structure Tree.Normal (t : Json) : Prop where
  unique : t.uniqueKeys = true
  ordered : t.ordered = true
  every : t.Every (PlainText .rfc8259) Number
  fixed : t.Every (fun _ => True) fun lexeme => rendered lexeme = lexeme
  fits : t.Every (fun _ => True) WholeFits

variable {t u : Json}

theorem Tree.normal_spec (hUnique : t.uniqueKeys = true)
    (hEvery : t.Every (PlainText .rfc8259) Number) (hFits : t.Every (fun _ => True) WholeFits) :
    t.normal.Normal := by
  have hRendered {P : Bytes → Prop}
      (h : ∀ lexeme, Number lexeme → WholeFits lexeme → P (rendered lexeme)) :
      t.normal.Every (PlainText .rfc8259) P := by
    rw [normal, ← (reordered_sorted _).every, every_map]
    exact (hEvery.and hFits).imp (fun _ hText => hText.1) fun lexeme hNumber =>
      h lexeme hNumber.1 hNumber.2
  have hUnique' : (t.map rendered).uniqueKeys = true := (uniqueKeys_map rendered t).mpr hUnique
  have hValid : (t.map rendered).Every Valid fun _ => True :=
    every_map.mpr (hEvery.imp (fun _ hText => hText.valid) fun _ _ => trivial)
  refine ⟨(reordered_sorted _).uniqueKeys.mp hUnique', ordered_sorted hUnique' hValid, ?_, ?_, ?_⟩
  · exact hRendered fun lexeme hNumber hFits => (rendered_rendered hNumber hFits).1
  · exact (hRendered fun lexeme hNumber hFits => (rendered_rendered hNumber hFits).2.1).imp
      (fun _ _ => trivial) fun _ h => h
  · exact (hRendered fun lexeme hNumber hFits => (rendered_rendered hNumber hFits).2.2.1).imp
      (fun _ _ => trivial) fun _ h => h

theorem Tree.whole_normal (hEvery : t.Every (PlainText .rfc8259) Number)
    (hFits : t.Every (fun _ => True) WholeFits) :
    t.normal.Every (fun _ => True) WrittenWhole ↔ t.Every (fun _ => True) WrittenWhole := by
  rw [normal, ← (reordered_sorted _).every, every_map]
  have hBoth := hEvery.and hFits
  constructor
  · intro h
    exact (hBoth.and h).imp (fun _ _ => trivial) fun _ h =>
      (rendered_rendered h.1.1 h.1.2).2.2.2.mp h.2
  · intro h
    exact (hBoth.and h).imp (fun _ _ => trivial) fun _ h =>
      (rendered_rendered h.1.1 h.1.2).2.2.2.mpr h.2

namespace Tree.Normal

theorem json_copied (h : u.Normal) : u.copied.json = u := by
  rw [Tree.json_copied]
  exact map_eq_self h.fixed

theorem sorted (h : u.Normal) : u.sorted = u := sorted_of_ordered h.ordered

theorem lastWins (h : u.Normal) : u.lastWins = u := lastWins_of_uniqueKeys h.unique

end Tree.Normal

/-! ### One copy, one parse -/

/-- The request leaves room to write it. -/
def WriteRoom (requested : Option Limits) (bytes : Bytes) (t : Json) : Prop :=
  ∃ limits, limitsResolve requested = .ok limits ∧ bytes.length ≤ limits.maximumBytes ∧
    t.depth ≤ limits.maximumDepth ∧ t.values ≤ limits.maximumTokens

/-- Room to parse a text of the value is room to write it. -/
theorem ParseRoom.write {profile : Profile} {requested : Option Limits} {bytes : Bytes}
    (h : ParseRoom profile requested bytes t) :
    WriteRoom requested bytes t := by
  obtain ⟨limits, bound, hLimits, hSize, hDepth, hTokens, -⟩ := h
  exact ⟨limits, hLimits, hSize, hDepth, t.values_le_tokens.trans hTokens⟩

/-- With room for it, the text is accepted under RFC 8259, as a document of this kind. -/
def Reparses (bytes : Bytes) (t : Json) (kind : Document → Prop) : Prop :=
  ∀ (heap : Heap) (requested : Option Limits) (errorGiven : Bool), heap.Generous →
    ParseRoom .rfc8259 requested bytes t →
    (documentParse heap (.buffer bytes) .rfc8259 requested errorGiven).result = .ok ∧
      ∃ document, (documentParse heap (.buffer bytes) .rfc8259 requested errorGiven).document =
        some document ∧ kind document

/-- Every new writer with these flags and room for the output copies the root and finishes with that
output. -/
def CopiesTo (document : Document) (t : Json) (flags : UInt32) (output : Bytes) : Prop :=
  ∀ (heap h : Heap) (requested : Option Limits) (w : Writer), heap.Generous →
    WriteRoom requested output t → writerCreate heap .rfc8259 requested flags = (.ok w, h) →
    ∃ root, documentRoot document = some root ∧
      let copied := (WriterCall.value (some document) root).call w
      copied.1.result = .ok ∧ ((WriterCall.finish true).call copied.2).1 = ⟨.ok, some output⟩

variable {document : Document} {profile : Profile} {limits : Limits} {bytes : Bytes}
  {flags : UInt32}

/-- Where the copy of a value and the finish succeed, whatever memory there was, the output is the
one expected. -/
theorem copy_finished {heap h : Heap} {requested : Option Limits} {w : Writer}
    (hCreate : writerCreate heap profile requested flags = (.ok w, h))
    (hCarries : document.Carries 0 t)
    (hOk : ((WriterCall.value (some document) 0).call w).1.result = .ok)
    (hFinish : ((WriterCall.finish true).call
      ((WriterCall.value (some document) 0).call w).2).1.result = .ok) :
    t.Every (fun _ => True) WholeFits ∧
      (∃ limits, limits.maximumDepth ≤ maximumDepthCeiling ∧ t.copied.Admitted profile limits []) ∧
      ((WriterCall.finish true).call ((WriterCall.value (some document) 0).call w).2).1.output =
        some (outputOf flags t.copied.json) := by
  obtain ⟨limits, hLimits, -⟩ := writerCreate_eq_ok.mp hCreate
  obtain ⟨hCreated, hSetup⟩ :=
    writerCreate_builds heap.unlimited_generous hLimits (writerCreate_generous hCreate)
  have hSound : w.Sound := fun _ => writerCreate_steady hCreate
  have hSame := ((WriterCall.value (some document) 0).call_refused hSound).2.2 (by rw [hOk]; nofun)
  obtain ⟨hFits, hAdmitted, hBuilds, hKept⟩ :=
    copyRoot_ok hCreated hCarries (by rw [hSame]; exact hOk)
  rw [hSame] at hBuilds hKept
  obtain ⟨t', hComplete, hOutput⟩ := finish_complete
    ((WriterCall.value (some document) 0).call_sound hSound) hLimits
    (hKept.trans hSetup) hBuilds hFinish
  obtain rfl := Draft.complete.inj hComplete
  have hProfile : (generous w).profile = profile := congrArg Prod.fst hSetup
  have hBounds : (generous w).limits = limits := congrArg (fun setup => setup.2.1) hSetup
  rw [hProfile, hBounds] at hAdmitted
  exact ⟨hFits, ⟨limits, (limitsResolve_ok hLimits).2.1, hAdmitted⟩,
    (hOutput hAdmitted.unique hAdmitted.valid).1⟩

theorem outputOf_normal (flags : UInt32) (hNormal : u.Normal) :
    outputOf flags u.copied.json = outputOf flags u := by
  rw [hNormal.json_copied]

/-- A document of a value in normal form is copied as that value. -/
theorem Document.Represents.copiesTo (h : document.Represents profile limits bytes u)
    (hNormal : u.Normal) (hValues : u.values = t.values) (hDepth : u.depth = t.depth)
    (flags : UInt32) :
    CopiesTo document t flags (outputOf flags u) := by
  rintro heap h' requested w hHeap ⟨limits', hLimits, hSize, hDepth', hValues'⟩ hCreate
  rw [← hDepth] at hDepth'
  rw [← hValues] at hValues'
  have hCarries := h.carries
  rw [hNormal.lastWins] at hCarries
  have hSpelled : (u.spell (flagsLayout flags) 0).length ≤ limits'.maximumBytes := by
    rw [outputOf, hNormal.sorted, List.length_append] at hSize
    exact (Nat.le_add_right _ _).trans hSize
  have hLengths := every_length (hNormal.every.imp (fun _ hText => hText.valid) fun _ _ =>
    trivial) hSpelled
  have hAdmitted := Tree.copied_admitted hNormal.unique hNormal.every hLengths hDepth' hValues'
  have hCopied := writerCreate_copies hHeap hLimits hCreate hCarries hAdmitted
  have hOk := hCopied.whole.mpr hNormal.fits
  have hFinished := (hCopied.finish hOk).mpr (by rwa [outputOf_normal flags hNormal])
  refine ⟨0, h.root, hOk, ?_⟩
  have hOutput := hCopied.output hFinished
  rw [outputOf_normal flags hNormal] at hOutput
  exact congrArg₂ Returned.mk hFinished hOutput

/-- What was copied is parsed as the value in normal form. -/
theorem reparses_normal (hAdmitted : t.copied.Admitted .rfc8259 limits []) (flags : UInt32) :
    Reparses (outputOf flags t.copied.json) t fun document =>
      ∃ limits, document.Represents .rfc8259 limits (outputOf flags t.copied.json) t.normal := by
  rintro heap requested errorGiven hHeap ⟨limits', bound, hLimits, hSize, hDepth, hTokens, hBound⟩
  rw [← Tree.depth_copied] at hDepth
  rw [← t.tokens_map copiedNumeral] at hTokens
  obtain ⟨hResult, document, hParse, hDocument⟩ :=
    outputOf_represents (show Profile.rfc8259 ≠ .rfc8259LastWins by nofun) hAdmitted hHeap hLimits
      hSize hDepth hTokens hBound errorGiven
  have hNormal : t.copied.json.sorted = t.normal := congrArg Tree.sorted (Tree.json_copied t)
  rw [hNormal] at hDocument
  exact ⟨hResult, document, hParse, limits', hDocument⟩

/-- There is room for everything that is not longer than the largest number of tokens. -/
theorem exists_copyRoom (hAdmitted : t.copied.Admitted .rfc8259 limits [])
    (hCeiling : limits.maximumDepth ≤ maximumDepthCeiling) {flags : UInt32}
    (hSize : (outputOf flags t.copied.json).length ≤ sizeMax / 256) :
    ∃ requested, ParseRoom .rfc8259 requested (outputOf flags t.copied.json) t ∧
      WriteRoom requested (outputOf flags t.copied.json) t := by
  have hText := @text_outputOf .rfc8259 _ flags _ _ (by decide) hAdmitted
  have hDepth : t.copied.json.sorted.depth = t.depth := by
    rw [← (Tree.reordered_sorted _).depth, Tree.json, Tree.depth_map, Tree.depth_copied]
  have hTokens : t.copied.json.sorted.tokens = t.tokens := by
    rw [← (Tree.reordered_sorted _).tokens, Tree.json, Tree.tokens_map, Tree.copied,
      Tree.tokens_map]
  have hAllowed : t.copied.depth ≤ limits.maximumDepth := by simpa using hAdmitted.depth
  rw [Tree.depth_copied] at hAllowed
  obtain ⟨requested, hRoom⟩ :=
    exists_parseRoom hText (hDepth.trans_le (hAllowed.trans hCeiling)) hSize
  rw [ParseRoom, hDepth, hTokens] at hRoom
  exact ⟨requested, hRoom, ParseRoom.write hRoom⟩

/-- A copy without flags passes for canonical where all of its numbers are integers. -/
theorem Document.Represents.isCanonical_normal
    (h : document.Represents profile limits (outputOf 0 u) u) (hNormal : u.Normal) :
    ∃ answer, documentIsCanonical document 0 = .ok answer ∧
      (answer = true ↔ u.Every (fun _ => True) WrittenWhole) := by
  obtain ⟨answer, hAnswer, hIff⟩ := h.isCanonical (Or.inl rfl)
  refine ⟨answer, hAnswer, ?_⟩
  rw [hIff, hNormal.lastWins, ← outputOf_ordered hNormal.ordered (Or.inl rfl),
    outputOf_normal 0 hNormal]
  constructor
  · rintro ⟨-, ⟨-, hNumbers⟩, -⟩
    exact hNumbers.imp (fun _ _ => trivial) fun _ h => h.1
  · intro hWhole
    exact ⟨hNormal.unique,
      ⟨hNormal.ordered, (hWhole.and hNormal.fits).imp (fun _ _ => trivial) fun _ h => h⟩, rfl⟩

/-! ### The fixed point -/

/-- Where a parsed document can be copied without flags, the output is accepted, passes for
canonical unless some number is no integer, and comes back from every form in which it is
presented. -/
theorem copy_fixpoint {heap h heap' : Heap} {requested requested' : Option Limits} {input : CText}
    {errorGiven : Bool} {w : Writer}
    (hParse : (documentParse heap' input profile requested errorGiven).document = some document)
    (hCreate : writerCreate heap .rfc8259 requested' 0 = (.ok w, h)) :
    ∃ root t, documentRoot document = some root ∧ documentTree document = .ok t ∧
      let copied := (WriterCall.value (some document) root).call w
      let finished := (WriterCall.finish true).call copied.2
      let presented (flags : UInt32) := outputOf flags t.copied.json
      (copied.1.result = .ok → finished.1.result = .ok →
        finished.1.output = some (presented 0) ∧
        Reparses (presented 0) t (fun again =>
          (∃ answer, documentIsCanonical again 0 = .ok answer ∧
            (answer = true ↔ t.Every (fun _ => True) WrittenWhole)) ∧
          ∀ flags, CopiesTo again t flags (presented flags) ∧
            Reparses (presented flags) t fun last => CopiesTo last t 0 (presented 0)) ∧
        ∀ flags, (presented flags).length ≤ sizeMax / 256 →
          ∃ requested, ParseRoom .rfc8259 requested (presented flags) t ∧
            WriteRoom requested (presented flags) t) := by
  obtain ⟨limits, source, -, -, -, hDocument⟩ := documentParse_represents hParse
  have hCarries := hDocument.carries
  refine ⟨0, source.lastWins, hDocument.root, hDocument.documentTree, ?_⟩
  intro copied finished presented hOk hFinished
  obtain ⟨hFits, ⟨limits', hCeiling, hAdmitted⟩, hOutput⟩ :=
    copy_finished hCreate hCarries hOk hFinished
  have hNormal := Tree.normal_spec hCarries.unique hCarries.every hFits
  have hValues : source.lastWins.normal.values = source.lastWins.values :=
    (Tree.reordered_sorted _).values.symm.trans (Tree.values_map _ _)
  have hDepth : source.lastWins.normal.depth = source.lastWins.depth :=
    (Tree.reordered_sorted _).depth.symm.trans (Tree.depth_map _ _)
  have hSame (flags : UInt32) :
      outputOf flags source.lastWins.copied.json = outputOf flags source.lastWins.normal := by
    rw [outputOf, outputOf, hNormal.sorted, Tree.json_copied]
    rfl
  refine ⟨hOutput, fun reader request given hReader hRoom => ?_,
    fun flags hSize => exists_copyRoom hAdmitted hCeiling hSize⟩
  obtain ⟨hResult, again, hAgain, limits₁, hRepresents⟩ :=
    reparses_normal hAdmitted 0 reader request given hReader hRoom
  refine ⟨hResult, again, hAgain, ?_, fun flags => ⟨?_, ?_⟩⟩
  · rw [hSame] at hRepresents
    rw [← Tree.whole_normal hCarries.every hFits]
    exact hRepresents.isCanonical_normal hNormal
  · simp only [presented, hSame]
    exact hRepresents.copiesTo hNormal hValues hDepth flags
  · intro reader' request' given' hReader' hRoom'
    obtain ⟨hResult', last, hLast, limits₂, hRepresents'⟩ :=
      reparses_normal hAdmitted flags reader' request' given' hReader' hRoom'
    refine ⟨hResult', last, hLast, ?_⟩
    simp only [presented, hSame]
    exact hRepresents'.copiesTo hNormal hValues hDepth 0

/-- `{"a":1,"b":[]}` comes back as itself from every form. -/
theorem copy_fixpoint_pair :
    let w := Writer.fresh .rfc8259 ⟨65535, 32, 8192⟩ 0 ⟨fun _ => true, [144, 256, 256]⟩
    let finished := (WriterCall.finish true).call
      ((WriterCall.value (some pairDocument) 0).call w).2
    let t : Json := .object [([0x61], .number [0x31]), ([0x62], .array [])]
    finished.1.output = some pairText ∧ ParseRoom .rfc8259 none pairText t ∧
      WriteRoom none pairText t ∧ Reparses pairText t fun again =>
        (∃ answer, documentIsCanonical again 0 = .ok answer ∧
          (answer = true ↔ t.Every (fun _ => True) WrittenWhole)) ∧
        ∀ flags, CopiesTo again t flags (outputOf flags t.copied.json) ∧
          Reparses (outputOf flags t.copied.json) t fun last => CopiesTo last t 0 pairText := by
  intro w finished t
  obtain ⟨root, t', hRoot, hTree, hFixpoint⟩ := @copy_fixpoint pairDocument .rfc8259
    ⟨fun _ => true, []⟩ ⟨fun _ => true, [144, 256, 256]⟩ ⟨fun _ => true, []⟩ none none
    (.buffer pairText) true w (by decide +kernel) rfl
  obtain rfl : 0 = root := Option.some.inj hRoot
  obtain rfl : t = t' := Except.ok.inj (Eq.trans (by rfl) hTree)
  have hOutput : finished.1.output = some pairText := by decide +kernel
  obtain ⟨hSame, hReparses, -⟩ := hFixpoint (by decide +kernel) (by decide +kernel)
  have hPresented : pairText = outputOf 0 t.copied.json :=
    Option.some.inj (hOutput.symm.trans hSame)
  beta_reduce at hReparses
  rw [← hPresented] at hReparses
  have hRoom : ParseRoom .rfc8259 none pairText t :=
    ⟨⟨65535, 32, 8192⟩, _, rfl, by decide, by decide, by decide, rfl⟩
  exact ⟨hOutput, hRoom, hRoom.write, hReparses⟩

end MaelysJson
