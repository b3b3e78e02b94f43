import MaelysJson.Copying.Steps
import MaelysJson.Serializing.Acceptance

/-! However a writer was used, copies included: as long as it is ready and memory is granted,
its tables are those of a draft that its profile and limits permit. -/
namespace MaelysJson

open Run Heap

/-! ### Permitted drafts -/

namespace Draft

variable {profile : Profile} {limits : Limits} {d d' : Draft}

/-- The draft is what its events make. -/
def Legal (profile : Profile) (limits : Limits) (d : Draft) : Prop :=
  run profile limits d.events .empty = some d

theorem legal_empty : Legal profile limits .empty := rfl

theorem Legal.permit {e : Event} (h : d.Legal profile limits)
    (hStep : d.permit profile limits e = some d') :
    d'.Legal profile limits := by
  have hEvents : d'.events = d.events ++ [e] := by
    rw [Draft.permit] at hStep
    split_ifs at hStep
    exact events_step hStep
  rw [Legal, hEvents]
  apply run_append.mpr
  refine ⟨d, h, ?_⟩
  rw [run, hStep]
  rfl

theorem Legal.attempt {e : Event} (h : d.Legal profile limits)
    (hStep : d.attempt profile limits e = .ok d') :
    d'.Legal profile limits := h.permit (attempt_eq_ok.mp hStep)

theorem Legal.copyStep {e : Event} (h : d.Legal profile limits)
    (hStep : d.copyStep profile limits e = .ok d') :
    d'.Legal profile limits := by
  by_cases hLexeme : ∃ lexeme, e = .number (.lexeme lexeme)
  swap
  · rw [copyStep_of_ne fun lexeme hSame => hLexeme ⟨lexeme, hSame⟩] at hStep
    exact h.attempt hStep
  obtain ⟨lexeme, rfl⟩ := hLexeme
  rw [Draft.copyStep, copyNumber] at hStep
  cases hNumeral : numeralOf lexeme with
  | error r =>
      rw [hNumeral] at hStep
      cases hStep
  | ok numeral =>
      rw [hNumeral] at hStep
      cases numeral with
      | unsigned number => exact h.attempt hStep
      | signed number => exact h.attempt hStep
      | lexeme text =>
          simp only at hStep
          split_ifs at hStep
          exact h.attempt hStep

theorem Legal.copyAll {events : List Event} (h : d.Legal profile limits)
    (hCopy : d.copyAll profile limits events = .ok d') : d'.Legal profile limits := by
  induction events generalizing d with
  | nil =>
      cases hCopy
      exact h
  | cons e events ih =>
      rw [Draft.copyAll] at hCopy
      cases hStep : d.copyStep profile limits e with
      | error r =>
          rw [hStep] at hCopy
          cases hCopy
      | ok next =>
          rw [hStep] at hCopy
          exact ih (h.copyStep hStep) hCopy

/-- A permitted draft that is a value as a whole. -/
theorem Legal.complete {t : Tree Numeral} (h : (complete t).Legal profile limits) :
    t.Admitted profile limits [] :=
  (run_complete.mp h).2

end Draft

/-! ### Copies, event by event -/

/-- Where the program succeeds, it does this event to the draft. -/
def Records (x : WriterM Unit) (e : Event) : Prop :=
  ∀ (w : Writer) (d : Draft), w.Builds d → ∀ t, x w = .ok () t →
    ∃ next, d.permit w.profile w.limits e = some next ∧ t.Builds next ∧ t.setup = w.setup

theorem Records.of_yields {x : WriterM Unit} {e : Event}
    {outcome : Writer → Draft → Except Result Draft}
    (h : ∀ (w : Writer) (d : Draft), w.Builds d → Yields x w (outcome w d))
    (hNext : ∀ (w : Writer) (d next : Draft), outcome w d = .ok next →
      d.attempt w.profile w.limits e = .ok next) :
    Records x e := by
  intro w d hBuilds t hRun
  have hYields := h w d hBuilds
  cases hOutcome : outcome w d with
  | error r =>
      rw [hOutcome] at hYields
      obtain ⟨u, hFails⟩ := hYields
      rw [hRun] at hFails
      cases hFails
  | ok next =>
      rw [hOutcome] at hYields
      obtain ⟨u, hOk, hBuilds', hSetup⟩ := hYields
      rw [hRun] at hOk
      cases hOk
      exact ⟨next, Draft.attempt_eq_ok.mp (hNext w d next hOutcome), hBuilds', hSetup⟩

section

variable {P : WriterM Unit → Prop}

/-- What holds of every program of one event, and of programs in a row, holds of copies. -/
theorem OfCopies.of_records (hDone : P (return ()))
    (hSeq : ∀ {x y : WriterM Unit}, P x → P y → P (x >>= fun _ => y)) (hFails : ∀ r, P (throw r))
    (hEvent : ∀ {x : WriterM Unit} {e : Event}, Records x e → P x) : OfCopies P := by
  have hOne {x : WriterM Unit} {e : Event}
      (h : ∀ (w : Writer) (d : Draft), w.Builds d → Yields x w (d.attempt w.profile w.limits e)) :
      P x :=
    hEvent (.of_yields h fun _ _ _ hSame => hSame)
  constructor
  case done => exact hDone
  case seq => exact hSeq
  case fails => exact fun _ _ => hFails _
  case lexeme =>
    intro text
    apply hEvent
    apply Records.of_yields fun w d h =>
      (numberLexeme_yields h text w.limits.maximumBytes).congr rfl
    intro w d next hNext
    split_ifs at hNext
    exact hNext
  case key => exact fun name => hOne fun _ _ h => key_yields h name
  case string => exact fun text => hOne fun _ _ h => string_yields h text
  case u64 => exact fun number => hOne fun _ _ h => u64_yields h number
  case i64 => exact fun number => hOne fun _ _ h => i64_yields h number
  case boolean => exact fun enabled => hOne fun _ _ h => boolean_yields h enabled
  case null => exact hOne fun _ _ h => null_yields h
  case objectBegin => exact hOne fun _ _ h => objectBegin_yields h
  case objectEnd => exact hOne fun _ _ h => objectEnd_yields h
  case arrayBegin => exact hOne fun _ _ h => arrayBegin_yields h
  case arrayEnd => exact hOne fun _ _ h => arrayEnd_yields h

/-- What is needed of a property for it to hold of the calls that copy. -/
structure OfCalls (P : WriterM Unit → Prop) : Prop extends OfCopies P where
  recovered : ∀ {x : WriterM Unit}, P x → P (orCopyFailed x)
  ready : ∀ {x : WriterM Unit}, P x → P (writerReady >>= fun _ => x)

theorem OfCalls.writerValue (h : OfCalls P) (document : Option Document) (value : Nat) :
    P (writerValue document value) := by
  cases document with
  | none => exact h.fails nofun nofun
  | some document =>
      rw [MaelysJson.writerValue]
      dsimp only
      split_ifs
      · exact h.fails nofun nofun
      · exact h.ready (h.recovered (h.copyValue document _ value))

theorem OfCalls.writerObjectBeginExcept (h : OfCalls P) (document : Option Document) (object : Nat)
    (excludedKeys : ExcludedKeys) : P (writerObjectBeginExcept document object excludedKeys) := by
  cases document with
  | none => exact h.fails nofun nofun
  | some document =>
      cases hStrings : excludedKeys.strings with
      | none =>
          simp only [MaelysJson.writerObjectBeginExcept, hStrings]
          exact h.fails nofun nofun
      | some excluded =>
          simp only [MaelysJson.writerObjectBeginExcept, hStrings]
          split_ifs
          · exact h.fails nofun nofun
          · exact h.ready (h.seq h.objectBegin
              (h.recovered (h.copyExcept document object excluded)))

end

/-! ### Writers of a draft -/

/-- A ready writer with memory that has made some draft. -/
def Writer.Drafted (w : Writer) : Prop := ∃ d, w.Builds d ∧ d.Legal w.profile w.limits

/-- Where it succeeds, the program leaves a writer of a draft. -/
def Keeps (x : WriterM Unit) : Prop :=
  ∀ w : Writer, w.Drafted → ∀ t, x w = .ok () t → t.Drafted ∧ t.setup = w.setup

namespace Keeps

variable {x : WriterM Unit}

theorem of_records {e : Event} (h : Records x e) : Keeps x := by
  rintro w ⟨d, hBuilds, hLegal⟩ t hRun
  obtain ⟨next, hPermit, hBuilds', hSetup⟩ := h w d hBuilds t hRun
  have hProfile : t.profile = w.profile := congrArg Prod.fst hSetup
  have hLimits : t.limits = w.limits := congrArg (fun setup => setup.2.1) hSetup
  refine ⟨⟨next, hBuilds', ?_⟩, hSetup⟩
  rw [hProfile, hLimits]
  exact hLegal.permit hPermit

theorem seq {y : WriterM Unit} (hx : Keeps x) (hy : Keeps y) : Keeps (x >>= fun _ => y) := by
  intro w hDrafted t hRun
  obtain ⟨_, u, hFirst, hSecond⟩ := bind_eq_ok.mp hRun
  obtain ⟨hDrafted', hSetup⟩ := hx w hDrafted u hFirst
  obtain ⟨hDrafted'', hSetup'⟩ := hy u hDrafted' t hSecond
  exact ⟨hDrafted'', hSetup'.trans hSetup⟩

/-- Every part of a copy keeps a writer's draft. -/
theorem ofCopies : OfCopies Keeps := by
  apply OfCopies.of_records
  · intro w hDrafted t hRun
    cases hRun
    exact ⟨hDrafted, rfl⟩
  · exact .seq
  · exact fun _ _ _ _ hRun => nomatch hRun
  · exact fun h => .of_records h

theorem orCopyFailed (h : Keeps x) : Keeps (orCopyFailed x) := by
  intro w hDrafted t hRun
  rw [MaelysJson.orCopyFailed] at hRun
  cases hCopy : x w with
  | error r u =>
      rw [hCopy] at hRun
      simp only [copyFailed] at hRun
      split_ifs at hRun
      cases hRun
  | ok _ u =>
      rw [hCopy] at hRun
      cases hRun
      exact h w hDrafted t hCopy

theorem ready (h : Keeps x) : Keeps (writerReady >>= fun _ => x) := by
  rintro w ⟨d, hBuilds, hLegal⟩ t hRun
  rw [bind_of_ok (writerReady_of_ready hBuilds.ready)] at hRun
  exact h w ⟨d, hBuilds, hLegal⟩ t hRun

/-- So does every call that copies. -/
theorem ofCalls : OfCalls Keeps where
  toOfCopies := ofCopies
  recovered := orCopyFailed
  ready := ready

end Keeps

namespace WriterCall

variable {w : Writer}

/-- A call that leaves the writer ready leaves it with a draft. -/
theorem call_drafted (c : WriterCall) (h : w.Drafted) (hReady : (c.call w).2.Ready) :
    (c.call w).2.Drafted ∧ (c.call w).2.setup = w.setup := by
  obtain ⟨d, hBuilds, hLegal⟩ := h
  obtain ⟨sizes, hHeeded⟩ := c.call_heeded ⟨hBuilds.ready, hBuilds.tables.sized⟩
  by_cases hOk : (c.call w).1.result = .ok
  swap
  · rcases hHeeded.ends hOk with (⟨-, hSame⟩ | hRecorded) | ⟨-, ⟨-, hBroken⟩ | hRecorded⟩
    · rw [hSame]
      exact ⟨⟨d, hBuilds, hLegal⟩, rfl⟩
    · exact absurd hReady (Recorded.not_ready hRecorded)
    · exact absurd (hBroken.symm.trans hReady.1) (by simp)
    · exact absurd hReady (Recorded.not_ready hRecorded)
  have hSilent {x : WriterM Unit} (hOperation : c.operation = silent x) (hKeeps : Keeps x) :
      (c.call w).2.Drafted ∧ (c.call w).2.setup = w.setup := by
    cases hRun : x w with
    | error r t =>
        have hFailed : c.operation w = .error r t := by rw [hOperation, silent, bind_of_error hRun]
        obtain ⟨_, hHeeds⟩ := c.operation_heeds ⟨hBuilds.ready, hBuilds.tables.sized⟩
        rw [hFailed] at hHeeds
        rw [call, hFailed] at hOk
        exact absurd hOk hHeeds.1.failed
    | ok _ t =>
        have hCall : c.call w = (⟨.ok, none⟩, t) := by
          rw [call, hOperation, silent, bind_of_ok hRun]
          rfl
        rw [hCall]
        exact hKeeps w ⟨d, hBuilds, hLegal⟩ t hRun
  have hSingle (hSingle : c.Single) : (c.call w).2.Drafted ∧ (c.call w).2.setup = w.setup := by
    have hCall := c.call_builds hSingle hBuilds
    cases hNext : c.next w.profile w.limits d with
    | none =>
        rw [hNext] at hCall
        exact absurd hOk hCall
    | some next =>
        rw [hNext] at hCall
        obtain ⟨-, hBuilds', hSetup⟩ := hCall
        obtain ⟨e, -, -, hPermit⟩ := next_eq_some.mp hNext
        have hProfile : (c.call w).2.profile = w.profile := congrArg Prod.fst hSetup
        have hLimits : (c.call w).2.limits = w.limits := congrArg (fun setup => setup.2.1) hSetup
        refine ⟨⟨next, hBuilds', ?_⟩, hSetup⟩
        rw [hProfile, hLimits]
        exact hLegal.permit hPermit
  cases c with
  | value document index => exact hSilent rfl (Keeps.ofCalls.writerValue document index)
  | objectBeginExcept document object excludedKeys =>
      exact hSilent rfl (Keeps.ofCalls.writerObjectBeginExcept document object excludedKeys)
  | finish outputsGiven =>
      have hFinished := hHeeded.continues hOk
      exact absurd (hFinished.symm.trans hReady.2) (by simp)
  | _ => exact hSingle ⟨rfl, (by simp)⟩

end WriterCall

/-- Every ready writer on which calls were made, with memory granted, has a draft. -/
theorem callAll_drafted {w : Writer} (h : w.Drafted) (calls : List WriterCall)
    (hReady : (callAll calls w).2.Ready) :
    (callAll calls w).2.Drafted ∧ (callAll calls w).2.setup = w.setup := by
  induction calls generalizing w with
  | nil => exact ⟨h, rfl⟩
  | cons c calls ih =>
      have hFirst : (c.call w).2.Ready := by
        by_contra hNot
        rw [callAll, (callAll_not_ready hNot calls).2] at hReady
        exact hNot hReady
      obtain ⟨hDrafted, hSetup⟩ := c.call_drafted h hFirst
      obtain ⟨hLast, hSame⟩ := ih hDrafted hReady
      exact ⟨hLast, hSame.trans hSetup⟩

/-- So has every created writer. -/
theorem writerCreate_drafted {heap h : Heap} {profile : Profile} {requested : Option Limits}
    {limits : Limits} {flags : UInt32} {w : Writer} (hHeap : heap.Generous)
    (hLimits : limitsResolve requested = .ok limits)
    (hCreate : writerCreate heap profile requested flags = (.ok w, h)) :
    w.Drafted ∧ w.setup = (profile, limits, flags) := by
  obtain ⟨hBuilds, hSetup⟩ := writerCreate_builds hHeap hLimits hCreate
  exact ⟨⟨.empty, hBuilds, Draft.legal_empty⟩, hSetup⟩

end MaelysJson
