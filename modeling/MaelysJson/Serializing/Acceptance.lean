import MaelysJson.Serializing.Events

/-! What the writer accepts, from its creation to its finish, and what it has built by
then: a run of calls succeeds exactly when it is the run of one value within the limits. -/
namespace MaelysJson

open Forest Grammar Heap Utf8

/-! ### Lengths -/

section

variable {layout : Layout} {level bound : Nat}

theorem length_canonicalEscape (byte : UInt8) : 0 < (canonicalEscape byte).length := by
  rw [canonicalEscape]
  cases shortEscape byte with
  | some escape => exact Nat.succ_pos _
  | none =>
      split_ifs
      · exact Nat.succ_pos _
      · exact Nat.succ_pos _

theorem length_flatMap_le {α : Type} (f : α → Bytes) (h : ∀ a, 0 < (f a).length) (l : List α) :
    l.length ≤ (l.flatMap f).length := by
  induction l with
  | nil => exact Nat.zero_le _
  | cons a l ih =>
      have := h a
      rw [List.flatMap_cons, List.length_append, List.length_cons]
      omega

theorem length_escapePoint (c : Char) :
    (String.utf8EncodeChar c).length ≤ (escapePoint c.val.toNat).length := by
  rw [escapePoint]
  by_cases hOne : c.val.toNat < 0x80
  · rw [if_pos hOne, encode_one (by omega)]
    exact length_canonicalEscape _
  · rw [if_neg hOne]
    have hUnits : 6 ≤ ((codeUnits c.val.toNat).flatMap u16Escape).length := by
      rw [codeUnits]
      split_ifs
      · exact show 6 ≤ 12 by decide
      · exact show 6 ≤ 6 from le_rfl
    exact (length_encodeChar_le c).1.trans ((by decide : 4 ≤ 6).trans hUnits)

/-- A text is not longer than its literal. -/
theorem length_literal {text : Bytes} (h : Valid text) :
    text.length ≤ (layout.literal text).length := by
  have hContent : text.length ≤ (layout.content text).length := by
    cases hAscii : layout.ascii with
    | false =>
        rw [content_plain hAscii]
        exact length_flatMap_le _ length_canonicalEscape text
    | true =>
        obtain ⟨text, rfl⟩ := h
        rw [content_ascii hAscii]
        induction text with
        | nil => exact Nat.zero_le _
        | cons c text ih =>
            have := length_escapePoint c
            rw [encode_cons, List.flatMap_cons, List.length_append, List.length_append]
            omega
  rw [Layout.literal, quoted, List.length_append, List.length_append]
  omega

theorem length_items {item : Bytes} {items : List Bytes} (h : item ∈ items) :
    item.length ≤ (layout.items level items).length := by
  cases items with
  | nil => cases h
  | cons first items =>
      rw [items_cons, List.length_append, List.length_append]
      rw [List.mem_cons] at h
      rcases h with rfl | h
      · omega
      · have hMore : item.length ≤ (layout.more level items).length := by
          obtain ⟨before, after, rfl⟩ := List.append_of_mem h
          rw [Layout.more, List.flatMap_append, List.flatMap_cons]
          simp only [List.length_append]
          omega
        omega

theorem length_enclose {opening closing : UInt8} {item : Bytes} {items : List Bytes}
    (h : item ∈ items) :
    item.length ≤ (layout.enclose level opening closing items).length := by
  have hItem := @length_items layout level item items h
  rw [Layout.enclose, if_neg (List.ne_nil_of_mem h), List.length_append, List.length_append]
  omega

/-- The texts and lexemes of a value are not longer than its spelling. -/
theorem every_length {t : Json} {OnNumber : Bytes → Prop} (hEvery : t.Every Valid OnNumber)
    (hBound : (t.spell layout level).length ≤ bound) :
    t.Every (fun text => text.length ≤ bound) fun lexeme => lexeme.length ≤ bound := by
  induction t using Tree.induct generalizing level with
  | object members ih =>
      rw [Tree.every_object] at hEvery ⊢
      rw [Tree.spell_object] at hBound
      intro m hm
      have hItem := (length_enclose (List.mem_map_of_mem hm)).trans hBound
      have hKey := @length_literal layout _ (hEvery m hm).1
      rw [Layout.member, List.length_append, List.length_append] at hItem
      have hValue : (m.2.spell layout (level + 1)).length ≤ bound := by omega
      exact ⟨by omega, ih m hm (hEvery m hm).2 hValue⟩
  | array elements ih =>
      rw [Tree.every_array] at hEvery ⊢
      rw [Tree.spell_array] at hBound
      intro v hv
      exact ih v hv (hEvery v hv) ((length_enclose (List.mem_map_of_mem hv)).trans hBound)
  | string text => exact (length_literal hEvery).trans hBound
  | number lexeme => exact hBound
  | boolean value => trivial
  | null => trivial

end

/-! ### A created writer -/

variable {heap h : Heap} {profile : Profile} {requested : Option Limits} {limits : Limits}
  {flags : UInt32} {w : Writer}

theorem writerCreate_builds (hHeap : heap.Generous) (hLimits : limitsResolve requested = .ok limits)
    (hCreate : writerCreate heap profile requested flags = (.ok w, h)) :
    w.Builds .empty ∧ w.setup = (profile, limits, flags) := by
  have hSteady := writerCreate_steady hCreate
  obtain ⟨limits', hLimits', -, -, -, rfl, rfl⟩ := writerCreate_eq_ok.mp hCreate
  obtain rfl : limits = limits' := by rwa [hLimits, Except.ok.injEq] at hLimits'
  have hKeys : KeysHold [] (emptyKeyset writerInitialKeys) := by
    refine ⟨fun _ => none, (emptyKeyset_holds (by decide) _).1, fun key i => ⟨nofun, ?_⟩⟩
    rintro ⟨row, hRow, -⟩
    cases hRow
  exact ⟨⟨hSteady.ready, hHeap.after _, ⟨rfl, linkedBy_nil, hKeys, hSteady.sized⟩, rfl, rfl,
    trivial⟩, rfl⟩

/-! ### Accepted values -/

/-- A number that `number_text` takes, or an integer. -/
def Numeral.WellFormed : Numeral → Prop
  | .lexeme text => Number text ∧ text.length ≤ maximumNumberText
  | _ => True

/-- The calls are the events of a value that the profile and the limits allow. -/
structure Accepted (profile : Profile) (limits : Limits) (flags : UInt32) (calls : List WriterCall)
    (t : Tree Numeral) : Prop where
  events : calls.map WriterCall.event = t.events.map some
  unique : t.uniqueKeys = true
  every : t.Every (PlainText profile) Numeral.WellFormed
  values : t.values ≤ limits.maximumTokens
  depth : t.depth ≤ limits.maximumDepth
  output : (outputOf flags t.json).length ≤ limits.maximumBytes

theorem short_events (t : Tree Numeral) :
    (∀ e ∈ t.events, e.short = true) ↔ t.Every (fun _ => True) fun numeral =>
      numeral.short = true := by
  apply Tree.forall_mem_events
  intro e hOther
  cases e with
  | number numeral => exact absurd rfl (hOther numeral)
  | _ => rfl

/-- What the limits ask of each text and lexeme follows from the length of the output. -/
theorem admitted_iff {t : Tree Numeral}
    (hOutput : (outputOf flags t.json).length ≤ limits.maximumBytes) :
    (t.Admitted profile limits [] ∧ t.Every (fun _ => True) fun numeral => numeral.short = true) ↔
      t.uniqueKeys = true ∧ t.Every (PlainText profile) Numeral.WellFormed ∧
        t.values ≤ limits.maximumTokens ∧ t.depth ≤ limits.maximumDepth := by
  constructor
  · rintro ⟨⟨hUnique, hEvery, hSize, hDepth⟩, hShort⟩
    refine ⟨hUnique, (hEvery.and hShort).imp ?_ ?_, by simpa [holesSize] using hSize,
      by simpa using hDepth⟩
    · exact fun text hText => (validText_iff _ _).mp hText.1.1
    · intro numeral hNumeral
      cases numeral with
      | lexeme text => exact ⟨(numberSyntax_iff text).mp hNumeral.1.1, of_decide_eq_true hNumeral.2⟩
      | _ => trivial
  · rintro ⟨hUnique, hEvery, hSize, hDepth⟩
    have hValid : t.json.sorted.Every Valid fun _ => True := by
      rw [← (Tree.reordered_sorted _).every, Tree.json, Tree.every_map]
      exact hEvery.imp (fun _ h => h.valid) fun _ _ => trivial
    have hSpelled : (t.json.sorted.spell (flagsLayout flags) 0).length ≤ limits.maximumBytes := by
      rw [outputOf, List.length_append] at hOutput
      omega
    have hLength := every_length hValid hSpelled
    rw [← (Tree.reordered_sorted _).every, Tree.json, Tree.every_map] at hLength
    refine ⟨⟨hUnique, (hEvery.and hLength).imp ?_ ?_, by simpa [holesSize] using hSize,
      by simpa using hDepth⟩, hEvery.imp (fun _ _ => trivial) ?_⟩
    · exact fun text hText => ⟨(validText_iff _ _).mpr hText.1, hText.2⟩
    · intro numeral hNumeral
      cases numeral with
      | lexeme text => exact ⟨(numberSyntax_iff text).mpr hNumeral.1.1, hNumeral.2⟩
      | _ => trivial
    · intro numeral hNumeral
      cases numeral with
      | lexeme text => exact decide_eq_true hNumeral.2
      | _ => rfl

/-- What the finish returns once the calls have made a value. -/
theorem finish_accepted (hBytes : w.limits.maximumBytes < sizeMax / 2) {t : Tree Numeral}
    (hBuilds : w.Builds (.complete t)) (hUnique : t.uniqueKeys = true)
    (hEvery : t.Every Valid fun _ => True) :
    (((WriterCall.finish true).call w).1.result = .ok ↔
      (outputOf w.flags t.json).length ≤ w.limits.maximumBytes) ∧
      (((WriterCall.finish true).call w).1.result = .ok →
        ((WriterCall.finish true).call w).1.output = some (outputOf w.flags t.json)) := by
  by_cases hFits : (outputOf w.flags t.json).length ≤ w.limits.maximumBytes
  · obtain ⟨heap, hRun⟩ := writerFinish_fits hBuilds hBytes hUnique hEvery hFits
    have hCall : (WriterCall.finish true).call w =
        (⟨.ok, some (outputOf w.flags t.json)⟩, { w with heap, finished := true }) := by
      rw [WriterCall.call, WriterCall.operation, Run.bind_of_ok hRun]
      rfl
    rw [hCall]
    exact ⟨⟨fun _ => hFits, fun _ => rfl⟩, fun _ => rfl⟩
  · obtain ⟨u, hRun⟩ := writerFinish_exceeds hBuilds hBytes hUnique hEvery (not_le.mp hFits)
    have hCall : (WriterCall.finish true).call w = (⟨.errLimit, none⟩, u) := by
      rw [WriterCall.call, WriterCall.operation, Run.bind_of_error hRun]
    rw [hCall]
    exact ⟨⟨(by simp), fun h => absurd h hFits⟩, (by simp)⟩

theorem finish_incomplete {d : Draft} (hBuilds : w.Builds d) (hNot : ∀ t, d ≠ .complete t) :
    ((WriterCall.finish true).call w).1.result ≠ .ok := by
  obtain ⟨u, hRun⟩ := writerFinish_incomplete hBuilds hNot
  rw [WriterCall.call, WriterCall.operation, Run.bind_of_error hRun]
  simp

/-- A run of calls has made a value: what the limits ask of the value. -/
theorem nextAll_complete {calls : List WriterCall} {t : Tree Numeral} :
    WriterCall.nextAll profile limits calls .empty = some (.complete t) ↔
      calls.map WriterCall.event = t.events.map some ∧ t.Admitted profile limits [] ∧
        t.Every (fun _ => True) fun numeral => numeral.short = true := by
  rw [WriterCall.nextAll_eq_some]
  constructor
  · rintro ⟨events, hEvents, hShort, hRun⟩
    obtain ⟨rfl, hAdmitted⟩ := Draft.run_complete.mp hRun
    exact ⟨hEvents, hAdmitted, (short_events t).mp hShort⟩
  · rintro ⟨hEvents, hAdmitted, hShort⟩
    exact ⟨t.events, hEvents, (short_events t).mpr hShort,
      Draft.run_complete.mpr ⟨rfl, hAdmitted⟩⟩

theorem Accepted.nextAll {calls : List WriterCall} {t : Tree Numeral}
    (h : Accepted profile limits flags calls t) :
    WriterCall.nextAll profile limits calls .empty = some (.complete t) := by
  obtain ⟨hAdmitted, hShort⟩ := (admitted_iff h.output).mpr ⟨h.unique, h.every, h.values, h.depth⟩
  exact nextAll_complete.mpr ⟨h.events, hAdmitted, hShort⟩

section

variable {calls : List WriterCall}

/-- A created writer follows the calls: it builds the draft that they make, or it refuses one. -/
theorem writerCreate_callAll (hHeap : heap.Generous)
    (hLimits : limitsResolve requested = .ok limits)
    (hCreate : writerCreate heap profile requested flags = (.ok w, h))
    (hSingle : ∀ c ∈ calls, c.Single) :
    match WriterCall.nextAll profile limits calls .empty with
    | some d => (∀ returned ∈ (callAll calls w).1, returned.result = .ok) ∧
        (callAll calls w).2.Builds d ∧ (callAll calls w).2.setup = (profile, limits, flags)
    | none => ∃ returned ∈ (callAll calls w).1, returned.result ≠ .ok := by
  obtain ⟨hBuilds, hSetup⟩ := writerCreate_builds hHeap hLimits hCreate
  have hProfile : w.profile = profile := congrArg (fun setup => setup.1) hSetup
  have hWriterLimits : w.limits = limits := congrArg (fun setup => setup.2.1) hSetup
  have hCalls := WriterCall.callAll_builds hSingle hBuilds
  rw [hProfile, hWriterLimits] at hCalls
  cases hNext : WriterCall.nextAll profile limits calls .empty with
  | none =>
      rw [hNext] at hCalls
      exact hCalls
  | some d =>
      rw [hNext] at hCalls
      obtain ⟨hOk, hBuilt, hSame⟩ := hCalls
      exact ⟨hOk, hBuilt, hSame.trans hSetup⟩

/-- What the finish returns after calls that have made a value. -/
theorem callAll_finish (hHeap : heap.Generous) (hLimits : limitsResolve requested = .ok limits)
    (hCreate : writerCreate heap profile requested flags = (.ok w, h))
    (hSingle : ∀ c ∈ calls, c.Single) {t : Tree Numeral}
    (hNext : WriterCall.nextAll profile limits calls .empty = some (.complete t)) :
    (((WriterCall.finish true).call (callAll calls w).2).1.result = .ok ↔
        (outputOf flags t.json).length ≤ limits.maximumBytes) ∧
      (((WriterCall.finish true).call (callAll calls w).2).1.result = .ok →
        ((WriterCall.finish true).call (callAll calls w).2).1.output =
          some (outputOf flags t.json)) := by
  have hCalls := writerCreate_callAll hHeap hLimits hCreate hSingle
  rw [hNext] at hCalls
  obtain ⟨-, hBuilt, hSetup⟩ := hCalls
  have hFlags : (callAll calls w).2.flags = flags := congrArg (fun setup => setup.2.2) hSetup
  have hLimits' : (callAll calls w).2.limits = limits := congrArg (fun setup => setup.2.1) hSetup
  have hAdmitted := (nextAll_complete.mp hNext).2.1
  have hValid : t.Every Valid fun _ => True :=
    hAdmitted.every.imp (fun text hText => ((validText_iff _ _).mp hText.1).valid) fun _ _ =>
      trivial
  have hResult := finish_accepted (by rw [hLimits']; exact (limitsResolve_ok hLimits).1) hBuilt
    hAdmitted.unique hValid
  rwa [hFlags, hLimits'] at hResult

/-- The calls of an accepted value succeed, build its nodes and write it. -/
theorem Accepted.written {t : Tree Numeral} (ht : Accepted profile limits flags calls t)
    (hHeap : heap.Generous) (hLimits : limitsResolve requested = .ok limits)
    (hCreate : writerCreate heap profile requested flags = (.ok w, h))
    (hSingle : ∀ c ∈ calls, c.Single) :
    (∀ returned ∈ (callAll calls w).1, returned.result = .ok) ∧
      (callAll calls w).2.nodes.map Node.row = (t.rose none).rows 0 none ∧
      LinkedBy Node.links (callAll calls w).2.nodes ∧
      ((WriterCall.finish true).call (callAll calls w).2).1 =
        ⟨.ok, some (outputOf flags t.json)⟩ := by
  have hNext := ht.nextAll
  obtain ⟨hIff, hOutput⟩ := callAll_finish hHeap hLimits hCreate hSingle hNext
  have hCalls := writerCreate_callAll hHeap hLimits hCreate hSingle
  rw [hNext] at hCalls
  obtain ⟨hOk, hBuilt, -⟩ := hCalls
  refine ⟨hOk, hBuilt.tables.table, hBuilt.tables.linked, ?_⟩
  have hResult := hIff.mpr ht.output
  have hOutput := hOutput hResult
  cases hReturned : ((WriterCall.finish true).call (callAll calls w).2).1 with
  | mk result output =>
      rw [hReturned] at hResult hOutput
      rw [show result = .ok from hResult, show output = some (outputOf flags t.json) from hOutput]

/-- Calls that succeed, and whose finish succeeds, are those of an accepted value. -/
theorem accepted_of_ok (hHeap : heap.Generous) (hLimits : limitsResolve requested = .ok limits)
    (hCreate : writerCreate heap profile requested flags = (.ok w, h))
    (hSingle : ∀ c ∈ calls, c.Single)
    (hAll : ∀ returned ∈ (callAll calls w).1, returned.result = .ok)
    (hLast : ((WriterCall.finish true).call (callAll calls w).2).1.result = .ok) :
    ∃ t, Accepted profile limits flags calls t := by
  have hCalls := writerCreate_callAll hHeap hLimits hCreate hSingle
  cases hNext : WriterCall.nextAll profile limits calls .empty with
  | none =>
      rw [hNext] at hCalls
      obtain ⟨returned, hMem, hNot⟩ := hCalls
      exact absurd (hAll returned hMem) hNot
  | some d =>
      rw [hNext] at hCalls
      obtain ⟨-, hBuilt, -⟩ := hCalls
      by_cases hComplete : ∃ t, d = .complete t
      · obtain ⟨t, rfl⟩ := hComplete
        have hOutput := (callAll_finish hHeap hLimits hCreate hSingle hNext).1.mp hLast
        obtain ⟨hEvents, hAdmitted, hShort⟩ := nextAll_complete.mp hNext
        obtain ⟨hUnique, hEvery, hValues, hDepth⟩ :=
          (admitted_iff hOutput).mp ⟨hAdmitted, hShort⟩
        exact ⟨t, hEvents, hUnique, hEvery, hValues, hDepth, hOutput⟩
      · exact absurd hLast (finish_incomplete hBuilt fun t ht => hComplete ⟨t, ht⟩)

end

/-- The writer accepts exactly the calls of one value, and writes that value. -/
theorem writer_accepts (hHeap : heap.Generous) (hLimits : limitsResolve requested = .ok limits)
    (hCreate : writerCreate heap profile requested flags = (.ok w, h)) (calls : List WriterCall)
    (hSingle : ∀ c ∈ calls, c.Single) :
    ((∀ returned ∈ (callAll (calls ++ [.finish true]) w).1, returned.result = .ok) ↔
        ∃ t, Accepted profile limits flags calls t) ∧
      ∀ t, Accepted profile limits flags calls t →
        (callAll calls w).2.nodes.map Node.row = (t.rose none).rows 0 none ∧
          LinkedBy Node.links (callAll calls w).2.nodes ∧
          ((WriterCall.finish true).call (callAll calls w).2).1 =
            ⟨.ok, some (outputOf flags t.json)⟩ := by
  refine ⟨?_, fun t ht => (ht.written hHeap hLimits hCreate hSingle).2⟩
  rw [callAll_append, List.forall_mem_append]
  simp only [callAll, List.forall_mem_singleton]
  constructor
  · rintro ⟨hAll, hLast⟩
    exact accepted_of_ok hHeap hLimits hCreate hSingle hAll hLast
  · rintro ⟨t, ht⟩
    obtain ⟨hAll, -, -, hLast⟩ := ht.written hHeap hLimits hCreate hSingle
    exact ⟨hAll, by rw [hLast]⟩

/-- An array of one value, under the default limits. -/
theorem writer_accepts_array :
    let w : Writer := .fresh .rfc8259 ⟨65535, 32, 8192⟩ 0 ⟨fun _ => true, [144, 256, 256]⟩
    ((WriterCall.finish true).call (callAll [.arrayBegin, .null, .arrayEnd] w).2).1 =
      ⟨.ok, some [0x5b, 0x6e, 0x75, 0x6c, 0x6c, 0x5d]⟩ :=
  ((@writer_accepts ⟨fun _ => true, []⟩ ⟨fun _ => true, [144, 256, 256]⟩ .rfc8259 none
    ⟨65535, 32, 8192⟩ 0 (.fresh .rfc8259 ⟨65535, 32, 8192⟩ 0 ⟨fun _ => true, [144, 256, 256]⟩)
    (fun _ => rfl) (by rfl) (by rfl) [.arrayBegin, .null, .arrayEnd]
    (by simp [WriterCall.Single, WriterCall.copies])).2 (.array [.null])
    ⟨by rfl, by rfl, (Tree.every_array _).mpr (List.forall_mem_singleton.mpr trivial),
      by decide, by decide, by decide⟩).2.2

end MaelysJson
