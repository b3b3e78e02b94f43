import MaelysJson.Serializing.Finish

/-! The language of the writer: the calls that all succeed are the events of one value
that the profile and the limits permit, and the finish writes that value. -/
namespace MaelysJson

open Grammar Heap Run Utf8

/-! ### Calls as events -/

/-- A number as `number_text` takes it. -/
def Numeral.short : Numeral → Bool
  | .lexeme text => text.length ≤ maximumNumberText
  | _ => true

def Event.short : Event → Bool
  | .number numeral => numeral.short
  | _ => true

namespace WriterCall

/-- The event that a call stands for; nothing for a `NULL` text that is not empty, nor
for copies and the finish. -/
def event : WriterCall → Option Event
  | .objectBegin => some .objectBegin
  | .objectEnd => some .objectEnd
  | .arrayBegin => some .arrayBegin
  | .arrayEnd => some .arrayEnd
  | .key (.null size) => if size = 0 then some (.key []) else none
  | .key (.buffer name) => some (.key name)
  | .keyCstr name => name.map fun name => .key (cString name)
  | .string (.null size) => if size = 0 then some (.string []) else none
  | .string (.buffer text) => some (.string text)
  | .stringCstr text => text.map fun text => .string (cString text)
  | .u64 number => some (.number (.unsigned number))
  | .i64 number => some (.number (.signed number))
  | .numberText (.null _) => none
  | .numberText (.buffer lexeme) => some (.number (.lexeme lexeme))
  | .boolean enabled => some (.boolean (enabled ≠ 0))
  | .null => some .null
  | .value _ _ => none
  | .objectBeginExcept _ _ _ => none
  | .finish _ => none

/-- A call that adds at most one event. -/
def Single (c : WriterCall) : Prop := c.copies = false ∧ ∀ outputsGiven, c ≠ .finish outputsGiven

variable {w : Writer} {d : Draft}

/-- What a call does to a draft. -/
def next (c : WriterCall) (profile : Profile) (limits : Limits) (d : Draft) : Option Draft :=
  (c.event.filter Event.short).bind fun e => d.permit profile limits e

theorem validText_empty (profile : Profile) : validText profile (.buffer []) = true := by
  cases profile <;> rfl

theorem validText_zero (profile : Profile) : validText profile (.null 0) = true := rfl

theorem writerKey_empty (w : Writer) : writerKey (.null 0) w = writerKey (.buffer []) w := by
  rw [writerKey, writerKey, get_bind, get_bind, validText_zero, validText_empty]
  rfl

theorem writerString_empty (w : Writer) :
    writerString (.null 0) w = writerString (.buffer []) w := by
  rw [writerString, writerString, get_bind, get_bind, validText_zero, validText_empty]
  rfl

theorem validText_null {size : Nat} (hSize : size ≠ 0) (profile : Profile) :
    (!validText profile (.null size)) = true := by
  rw [validText, Bool.not_eq_true', beq_eq_false_iff_ne]
  exact hSize

/-- Each call does what the draft does with its event. -/
theorem operation_performs (c : WriterCall) (hSingle : c.Single) (h : w.Builds d) :
    ∃ x, c.operation = silent x ∧ Performs x w (c.next w.profile w.limits d) := by
  cases c with
  | objectBegin => exact ⟨_, rfl, (objectBegin_yields h).performs⟩
  | objectEnd => exact ⟨_, rfl, (objectEnd_yields h).performs⟩
  | arrayBegin => exact ⟨_, rfl, (arrayBegin_yields h).performs⟩
  | arrayEnd => exact ⟨_, rfl, (arrayEnd_yields h).performs⟩
  | key name =>
      refine ⟨_, rfl, ?_⟩
      cases name with
      | null size =>
          by_cases hSize : size = 0
          · subst hSize
            exact ((key_yields h []).congr (writerKey_empty w)).performs
          · rw [next, event, if_neg hSize]
            exact ⟨_, _, congrFun (if_pos (validText_null hSize _)) w⟩
      | buffer name => exact (key_yields h name).performs
  | keyCstr name =>
      refine ⟨_, rfl, ?_⟩
      cases name with
      | none => exact ⟨_, _, rfl⟩
      | some name => exact (key_yields h (cString name)).performs
  | string text =>
      refine ⟨_, rfl, ?_⟩
      cases text with
      | null size =>
          by_cases hSize : size = 0
          · subst hSize
            exact ((string_yields h []).congr (writerString_empty w)).performs
          · rw [next, event, if_neg hSize]
            exact ⟨_, _, congrFun (if_pos (validText_null hSize _)) w⟩
      | buffer text => exact (string_yields h text).performs
  | stringCstr text =>
      refine ⟨_, rfl, ?_⟩
      cases text with
      | none => exact ⟨_, _, rfl⟩
      | some text => exact (string_yields h (cString text)).performs
  | u64 number => exact ⟨_, rfl, (u64_yields h number).performs⟩
  | i64 number => exact ⟨_, rfl, (i64_yields h number).performs⟩
  | numberText lexeme =>
      refine ⟨_, rfl, ?_⟩
      cases lexeme with
      | null size => exact ⟨_, _, rfl⟩
      | buffer lexeme =>
          have hNext : (numberText (.buffer lexeme)).next w.profile w.limits d =
              if lexeme.length ≤ maximumNumberText then
              d.permit w.profile w.limits (.number (.lexeme lexeme))
              else none := by
            rw [next, event, Option.filter_some]
            simp only [Event.short, Numeral.short, decide_eq_true_eq]
            split_ifs <;> rfl
          have hYields := numberLexeme_yields h lexeme maximumNumberText
          rw [hNext]
          by_cases hLength : lexeme.length ≤ maximumNumberText
          · rw [if_neg (not_lt.mpr hLength)] at hYields
            rw [if_pos hLength]
            exact hYields.performs
          · rw [if_pos (not_le.mp hLength)] at hYields
            rw [if_neg hLength]
            exact ⟨_, hYields⟩
  | boolean enabled => exact ⟨_, rfl, (boolean_yields h enabled).performs⟩
  | null => exact ⟨_, rfl, (null_yields h).performs⟩
  | value document index => exact absurd hSingle.1 nofun
  | objectBeginExcept document object excludedKeys => exact absurd hSingle.1 nofun
  | finish outputsGiven => exact absurd rfl (hSingle.2 outputsGiven)

/-- One call, as its caller sees it. -/
theorem call_builds (c : WriterCall) (hSingle : c.Single) (h : w.Builds d) :
    match c.next w.profile w.limits d with
    | some d' => (c.call w).1.result = .ok ∧ (c.call w).2.Builds d' ∧ (c.call w).2.setup = w.setup
    | none => (c.call w).1.result ≠ .ok := by
  obtain ⟨x, hOperation, hPerforms⟩ := c.operation_performs hSingle h
  cases hNext : c.next w.profile w.limits d with
  | some d' =>
      rw [hNext] at hPerforms
      obtain ⟨t, hRun, hBuilds, hSetup⟩ := hPerforms
      have hCall : c.call w = (⟨.ok, none⟩, t) := by
        rw [call, hOperation, silent, bind_of_ok hRun]
        rfl
      rw [hCall]
      exact ⟨rfl, hBuilds, hSetup⟩
  | none =>
      rw [hNext] at hPerforms
      obtain ⟨r, t, hRun⟩ := hPerforms
      have hOperation' : c.operation w = .error r t := by
        rw [hOperation, silent, bind_of_error hRun]
      obtain ⟨sizes, hHeeds⟩ := c.operation_heeds ⟨h.ready, h.tables.sized⟩
      rw [hOperation'] at hHeeds
      rw [call, hOperation']
      exact hHeeds.1.failed

/-- One call after another. -/
def nextAll (profile : Profile) (limits : Limits) : List WriterCall → Draft → Option Draft
  | [], d => some d
  | c :: calls, d => (c.next profile limits d).bind (nextAll profile limits calls)

theorem next_eq_some {profile : Profile} {limits : Limits} {c : WriterCall} {d' : Draft} :
    c.next profile limits d = some d' ↔
      ∃ e, c.event = some e ∧ e.short = true ∧ d.permit profile limits e = some d' := by
  simp only [next, Option.bind_eq_some_iff, Option.filter_eq_some_iff, and_assoc]

/-- All calls have a place when they stand for events that run. -/
theorem nextAll_eq_some {profile : Profile} {limits : Limits} {calls : List WriterCall}
    {d' : Draft} :
    nextAll profile limits calls d = some d' ↔
      ∃ events, calls.map event = events.map some ∧ (∀ e ∈ events, e.short = true) ∧
        Draft.run profile limits events d = some d' := by
  induction calls generalizing d with
  | nil =>
      constructor
      · intro h
        exact ⟨[], rfl, nofun, h⟩
      · rintro ⟨events, hEvents, -, hRun⟩
        obtain rfl : events = [] := List.map_eq_nil_iff.mp hEvents.symm
        exact hRun
  | cons c calls ih =>
      rw [nextAll, Option.bind_eq_some_iff]
      constructor
      · rintro ⟨next, hNext, hRest⟩
        obtain ⟨e, hEvent, hShort, hAdmit⟩ := next_eq_some.mp hNext
        obtain ⟨events, hEvents, hAll, hRun⟩ := ih.mp hRest
        refine ⟨e :: events, ?_, List.forall_mem_cons.mpr ⟨hShort, hAll⟩, ?_⟩
        · rw [List.map_cons, List.map_cons, hEvent, hEvents]
        · rw [Draft.run, hAdmit]
          exact hRun
      · rintro ⟨events, hEvents, hAll, hRun⟩
        cases events with
        | nil => cases hEvents
        | cons e events =>
            rw [List.map_cons, List.map_cons, List.cons.injEq] at hEvents
            rw [List.forall_mem_cons] at hAll
            obtain ⟨next, hAdmit, hRest⟩ := Option.bind_eq_some_iff.mp hRun
            exact ⟨next, next_eq_some.mpr ⟨e, hEvents.1, hAll.1, hAdmit⟩,
              ih.mpr ⟨events, hEvents.2, hAll.2, hRest⟩⟩

/-- The calls do to the writer what their events do to the draft, or one of them fails. -/
theorem callAll_builds {calls : List WriterCall} (hSingle : ∀ c ∈ calls, c.Single)
    (h : w.Builds d) :
    match nextAll w.profile w.limits calls d with
    | some d' => (∀ returned ∈ (callAll calls w).1, returned.result = .ok) ∧
        (callAll calls w).2.Builds d' ∧ (callAll calls w).2.setup = w.setup
    | none => ∃ returned ∈ (callAll calls w).1, returned.result ≠ .ok := by
  induction calls generalizing w d with
  | nil => exact ⟨nofun, h, rfl⟩
  | cons c calls ih =>
      rw [List.forall_mem_cons] at hSingle
      have hCall := c.call_builds hSingle.1 h
      rw [nextAll]
      cases hNext : c.next w.profile w.limits d with
      | none =>
          rw [hNext] at hCall
          exact ⟨_, List.mem_cons_self, hCall⟩
      | some next =>
          rw [hNext] at hCall
          obtain ⟨hOk, hBuilds, hSetup⟩ := hCall
          have hRest := ih hSingle.2 hBuilds
          have hProfile : (c.call w).2.profile = w.profile := congrArg (fun setup => setup.1) hSetup
          have hLimits : (c.call w).2.limits = w.limits := congrArg (fun setup => setup.2.1) hSetup
          rw [hProfile, hLimits] at hRest
          rw [Option.bind_some]
          cases hAll : nextAll w.profile w.limits calls next with
          | none =>
              rw [hAll] at hRest
              obtain ⟨returned, hMem, hNot⟩ := hRest
              exact ⟨returned, List.mem_cons_of_mem _ hMem, hNot⟩
          | some d' =>
              rw [hAll] at hRest
              obtain ⟨hAllOk, hBuilds', hSetup'⟩ := hRest
              exact ⟨List.forall_mem_cons.mpr ⟨hOk, hAllOk⟩, hBuilds', hSetup'.trans hSetup⟩

end WriterCall

end MaelysJson
