import MaelysJson.Writing.Sticky

/-! Runs under any schedule of refusals next to the runs without: a refused request is
reported by the call that made it, and nothing else changes. -/
namespace MaelysJson

open Run Heap Allocating

/-- Some request between these two states of the heap was refused. -/
def Heap.RefusedUntil (heap heap' : Heap) : Prop :=
  ∃ n, heap.requests.length ≤ n ∧ n < heap'.requests.length ∧ heap.grant n = false

theorem refusedUntil_after (heap : Heap) (sizes : List Nat) :
    heap.RefusedUntil (heap.after sizes) ↔ ¬heap.Grants sizes :=
  ⟨fun h hGrants => not_refused hGrants h, exists_refused⟩

/-! ### Parsing -/

/-- The outcome of a parse, and whether it is what a refused request leads to. -/
theorem documentParse_refused (heap : Heap) (input : CText) (profile : Profile)
    (requested : Option Limits) (errorGiven : Bool) :
    let run (heap : Heap) := documentParse heap input profile requested errorGiven
    ((run heap).result = .errMemory ↔ heap.RefusedUntil (run heap).heap) ∧
      ((run heap).result = .errMemory →
        (run heap).outcome = refusedOutcome errorGiven input.bytes) ∧
      ((run heap).result ≠ .errMemory → (run heap).outcome = (run heap.unlimited).outcome) := by
  intro run
  rcases documentParse_arguments input profile requested errorGiven with
    ⟨limits, bound, hLimits, hSize, hBound, hSame⟩ | ⟨result, error, hResult, hRefused⟩
  · have hAsks := documentParse_asks hLimits hSize hBound errorGiven
    -- an outcome that is not the refused one does not look like it either
    have hOutcome {sizes : List Nat} {value : Result × Option Document × Option Error}
        (hAsks : Asks (fun heap => ((run heap).outcome, (run heap).heap)) sizes value
          (· = refusedOutcome errorGiven input.bytes)) (hValue : value.1 ≠ .errMemory) :
        ((run heap).result = .errMemory ↔
          (run heap).outcome = refusedOutcome errorGiven input.bytes) ∧
          value ≠ refusedOutcome errorGiven input.bytes := by
      refine ⟨⟨fun h => ?_, fun h => congrArg Prod.fst h⟩, fun h => hValue (congrArg Prod.fst h)⟩
      rcases hAsks.ends heap with hEnds | hEnds
      · exact absurd ((congrArg Prod.fst hEnds).symm.trans h) hValue
      · exact hEnds
    have hReports {sizes : List Nat} {value : Result × Option Document × Option Error}
        (hAsks : Asks (fun heap => ((run heap).outcome, (run heap).heap)) sizes value
          (· = refusedOutcome errorGiven input.bytes)) (hValue : value.1 ≠ .errMemory) :
        ((run heap).result = .errMemory ↔ heap.RefusedUntil (run heap).heap) ∧
          ((run heap).result = .errMemory →
            (run heap).outcome = refusedOutcome errorGiven input.bytes) ∧
          ((run heap).result ≠ .errMemory → (run heap).outcome = (run heap.unlimited).outcome) := by
      obtain ⟨hLooks, hNot⟩ := hOutcome hAsks hValue
      obtain ⟨hIff, hElse⟩ := hAsks.outcome hNot heap
      exact ⟨hLooks.trans hIff, hLooks.mp, fun h => hElse fun hRefused => h (hLooks.mpr hRefused)⟩
    simp only [← hSame] at hAsks
    cases hRead : (readingOf input.bytes profile limits).readText with
    | ok s =>
        rw [hRead] at hAsks
        obtain ⟨parsed, -, hAsks⟩ := hAsks
        exact hReports hAsks nofun
    | error fault =>
        rw [hRead] at hAsks
        apply hReports hAsks
        rcases Reading.readText_reports hRead with h | h | h | ⟨h, -⟩ <;> rw [h] <;> nofun
  · have hRun : run = fun heap => ⟨result, none, error, heap⟩ := funext hRefused
    have hMemory : result ≠ .errMemory := by
      rcases hResult with rfl | rfl <;> nofun
    rw [hRun]
    refine ⟨⟨fun h => absurd h hMemory, ?_⟩, fun h => absurd h hMemory, fun _ => rfl⟩
    rintro ⟨n, hLow, hHigh, -⟩
    exact absurd hHigh (not_lt.mpr hLow)

/-! ### Writing -/

theorem writerCreate_generous {heap h : Heap} {profile : Profile} {requested : Option Limits}
    {flags : UInt32} {w : Writer}
    (hCreate : writerCreate heap profile requested flags = (.ok w, h)) :
    writerCreate heap.unlimited profile requested flags = (.ok (generous w), h.unlimited) := by
  obtain ⟨limits, hLimits, hProfile, hFlags, -, rfl, rfl⟩ := writerCreate_eq_ok.mp hCreate
  exact writerCreate_eq_ok.mpr
    ⟨limits, hLimits, hProfile, hFlags, heap.unlimited_generous.grants _, rfl, rfl⟩

namespace WriterCall

variable {w : Writer}

/-- One call, next to the same call with plenty of memory. -/
theorem call_refused (c : WriterCall) (h : w.Sound) :
    ((c.call w).1.result = .errMemory ↔ w.heap.RefusedUntil (c.call w).2.heap) ∧
      ((c.call w).1.result = .errMemory → writerStatus (c.call w).2 = .errMemory) ∧
      ((c.call w).1.result ≠ .errMemory →
        c.call (generous w) = ((c.call w).1, generous (c.call w).2)) := by
  by_cases hReady : w.Ready
  · obtain ⟨sizes, hHeeded⟩ := c.call_heeded (h hReady)
    refine ⟨?_, fun hMemory => ?_, hHeeded.same⟩
    · rw [hHeeded.memory, hHeeded.heap, refusedUntil_after]
    · have hFailed : (c.call w).1.result ≠ .ok := by
        rw [hMemory]
        nofun
      rcases hHeeded.ends hFailed with (⟨hResult, -⟩ | hRecorded) | ⟨-, ⟨hResult, -⟩ | hRecorded⟩
      · exact absurd (hMemory.symm.trans hResult) nofun
      · exact hRecorded.2.2.trans hMemory
      · exact absurd (hMemory.symm.trans hResult) nofun
      · exact hRecorded.2.2.trans hMemory
  · obtain ⟨r, hResult, hRun⟩ := c.call_not_ready hReady
    have hCall : c.call w = (⟨r, none⟩, w) := hRun w.heap
    have hMemory : r ≠ .errMemory := by
      rcases hResult with rfl | rfl <;> nofun
    rw [hCall]
    refine ⟨⟨fun h => absurd h hMemory, ?_⟩, fun h => absurd h hMemory,
      fun _ => hRun w.heap.unlimited⟩
    rintro ⟨n, hLow, hHigh, -⟩
    exact absurd hHigh (not_lt.mpr hLow)

end WriterCall

/-- Calls of which none is short of memory return what they return without refusals. -/
theorem callAll_generous {w : Writer} (h : w.Sound) {calls : List WriterCall}
    (hMemory : ∀ returned ∈ (callAll calls w).1, returned.result ≠ .errMemory) :
    callAll calls (generous w) = ((callAll calls w).1, generous (callAll calls w).2) := by
  induction calls generalizing w with
  | nil => rfl
  | cons c calls ih =>
      have hFirst := (c.call_refused h).2.2 (hMemory _ (List.mem_cons_self ..))
      have hRest := ih (c.call_sound h) fun returned hMem =>
        hMemory returned (List.mem_cons_of_mem _ hMem)
      simp only [callAll, hFirst, hRest]

/-- A run that leaves a ready writer was never short of memory. -/
theorem not_refused_of_ready {w : Writer} (h : w.Sound) {calls : List WriterCall}
    (hReady : (callAll calls w).2.Ready) :
    ∀ returned ∈ (callAll calls w).1, returned.result ≠ .errMemory := by
  induction calls generalizing w with
  | nil => simp [callAll]
  | cons c calls ih =>
      rw [callAll, List.forall_mem_cons]
      refine ⟨fun hMemory => ?_, ih (c.call_sound h) hReady⟩
      have hStatus := (c.call_refused h).2.1 hMemory
      have hNot : ¬(c.call w).2.Ready :=
        fun hReady => absurd (hStatus.symm.trans hReady.1) (by simp)
      rw [callAll, (callAll_not_ready hNot calls).2] at hReady
      exact hNot hReady

/-- Nor was a run that goes on to succeed. -/
theorem not_refused_before {w : Writer} (h : w.Sound) {calls : List WriterCall} {c : WriterCall}
    (hOk : (c.call (callAll calls w).2).1.result = .ok) :
    ∀ returned ∈ (callAll calls w).1, returned.result ≠ .errMemory :=
  not_refused_of_ready h (WriterCall.ready_of_ok hOk)

/-- Refused requests are reported, and they corrupt nothing: neither a parse nor a run of
calls on a created writer. -/
theorem refusals_reported (heap : Heap) (profile : Profile) (requested : Option Limits) :
    (∀ (input : CText) (errorGiven : Bool),
      let parsed := documentParse heap input profile requested errorGiven
      let full := documentParse heap.unlimited input profile requested errorGiven
      (parsed.result = .errMemory ↔ heap.RefusedUntil parsed.heap) ∧
        (parsed.result = .errMemory → parsed.document = none ∧ parsed.error.isSome = errorGiven ∧
          ∀ error ∈ parsed.error, error.code = .errMemory) ∧
        (parsed.result ≠ .errMemory → parsed.result = full.result ∧
          parsed.document = full.document ∧ parsed.error = full.error)) ∧
    ∀ (flags : UInt32) (w : Writer) (h : Heap),
      writerCreate heap profile requested flags = (.ok w, h) →
      ∃ full, writerCreate heap.unlimited profile requested flags = (.ok full, h.unlimited) ∧
        ∀ (before : List WriterCall) (c : WriterCall),
          let s := (callAll before w).2
          let t := (c.call s).2
          ((c.call s).1.result = .errMemory ↔ s.heap.RefusedUntil t.heap) ∧
            ((∀ returned ∈ (callAll before w).1, returned.result ≠ .errMemory) →
              (callAll before full).1 = (callAll before w).1) ∧
            ((c.call s).1.result = .errMemory →
              ∀ after, writerStatus (callAll after t).2 = .errMemory ∧
              ∀ returned ∈ (callAll after t).1, returned.result ≠ .ok) ∧
            ((c.call s).1.result = .ok → (c.call (callAll before full).2).1 = (c.call s).1) := by
  constructor
  · intro input errorGiven parsed full
    obtain ⟨hIff, hRefused, hSame⟩ := documentParse_refused heap input profile requested errorGiven
    refine ⟨hIff, fun hMemory => ?_, fun hMemory => ?_⟩
    · have hOutcome := hRefused hMemory
      have hDocument : parsed.document = none := congrArg (fun outcome => outcome.2.1) hOutcome
      have hError : parsed.error = errorSet (freshError errorGiven) .errMemory (some input.bytes)
        input.bytes.length 0 :=
        congrArg (fun outcome => outcome.2.2) hOutcome
      rw [hError]
      refine ⟨hDocument, ?_, fun error hError => ?_⟩
      · cases errorGiven <;> rfl
      · cases errorGiven with
        | false => cases hError
        | true =>
            cases hError
            rfl
    · have hOutcome := hSame hMemory
      exact ⟨congrArg Prod.fst hOutcome, congrArg (fun outcome => outcome.2.1) hOutcome,
        congrArg (fun outcome => outcome.2.2) hOutcome⟩
  · intro flags w h hCreate
    have hSound : w.Sound := fun _ => writerCreate_steady hCreate
    refine ⟨generous w, writerCreate_generous hCreate, fun before c => ?_⟩
    obtain ⟨hIff, hStatus, hSame⟩ := c.call_refused (callAll_sound hSound before)
    refine ⟨hIff, fun hMemory => ?_, fun hMemory after => ?_, fun hOk => ?_⟩
    · rw [callAll_generous hSound hMemory]
    · have hReady : ¬(c.call (callAll before w).2).2.Ready := fun hReady =>
        absurd ((hStatus hMemory).symm.trans hReady.1) nofun
      obtain ⟨hReturned, hLeft⟩ := callAll_not_ready hReady after
      rw [hLeft]
      refine ⟨hStatus hMemory, fun returned hMem hOk => ?_⟩
      rcases (hReturned returned hMem).1 with hResult | hResult
      · exact absurd (hOk.symm.trans hResult) nofun
      · exact absurd (hOk.symm.trans hResult) nofun
    · rw [callAll_generous hSound (not_refused_before hSound hOk), hSame (by rw [hOk]; nofun)]

/-- The fourth request is the one for the first node. -/
theorem refusals_reported_node :
    let w : Writer := .fresh .rfc8259 ⟨65535, 32, 8192⟩ 0 ⟨(· ≠ 3), [144, 256, 256]⟩
    (documentParse ⟨(· ≠ 3), []⟩ (.buffer [0x31]) .rfc8259 none true).document = none ∧
      (WriterCall.null.call w).1.result = .errMemory ∧
        writerStatus (callAll [.null, .finish true] (WriterCall.null.call w).2).2 = .errMemory := by
  have hReported := refusals_reported ⟨(· ≠ 3), []⟩ .rfc8259 none
  have hCall := hReported.2 0 (.fresh .rfc8259 ⟨65535, 32, 8192⟩ 0 ⟨(· ≠ 3), [144, 256, 256]⟩)
    ⟨(· ≠ 3), [144, 256, 256]⟩ (by rfl)
  obtain ⟨full, -, hRun⟩ := hCall
  have hMemory : (WriterCall.null.call
      (.fresh .rfc8259 ⟨65535, 32, 8192⟩ 0 ⟨(· ≠ 3), [144, 256, 256]⟩)).1.result = .errMemory := by
    decide +kernel
  refine ⟨((hReported.1 (.buffer [0x31]) true).2.1 ?_).1, hMemory, ?_⟩
  · decide +kernel
  · exact ((hRun [] .null).2.2.1 hMemory [.null, .finish true]).1

end MaelysJson
