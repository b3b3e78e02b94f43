import MaelysJson.Reading.Parse
import MaelysJson.Writing.Outcomes

/-! The sticky failure model: over every run of calls on a created writer, the first
failure is recorded, nothing but the refusal of a later call follows it, and refused
arguments leave the writer as it was. -/
namespace MaelysJson

open Run Heap Allocating

/-! ### Creation -/

/-- A writer without nodes. -/
def Writer.fresh (profile : Profile) (limits : Limits) (flags : UInt32) (heap : Heap) : Writer :=
  ⟨profile, limits, flags, [], 0, emptyKeyset writerInitialKeys, [], none, false, .ok, heap⟩

/-- The writer, its stack and its key set. -/
def createRequests (limits : Limits) : List Nat :=
  [sizeOfWriter, limits.maximumDepth * sizeOfSize,
    wrap (keysetCapacity writerInitialKeys * sizeOfSize)]

theorem keysetInit_eq (heap : Heap) (expected : Nat) :
    keysetInit heap expected =
      if heap.grant heap.requests.length = true then
        (.ok, emptyKeyset expected, heap.after [wrap (keysetCapacity expected * sizeOfSize)])
      else (.errMemory, ⟨[], keysetCapacity expected, 0⟩,
        heap.after [wrap (keysetCapacity expected * sizeOfSize)]) := by
  rw [keysetInit, allocateSlots, request_eq]
  cases heap.grant heap.requests.length <;> rfl

theorem writerCreate_eq_ok {heap h : Heap} {profile : Profile} {requested : Option Limits}
    {flags : UInt32} {w : Writer} :
    writerCreate heap profile requested flags = (.ok w, h) ↔ ∃ limits,
      limitsResolve requested = .ok limits ∧ profile ≠ .rfc8259LastWins ∧
        flags &&& ~~~knownFlags = 0 ∧
        heap.Grants (createRequests limits) ∧ h = heap.after (createRequests limits) ∧
        w = .fresh profile limits flags h := by
  by_cases hArgument : profile = .rfc8259LastWins ∨ flags &&& ~~~knownFlags ≠ 0
  · have hRun : writerCreate heap profile requested flags = (.error .errArgument, heap) :=
      if_pos hArgument
    rw [hRun]
    constructor
    · nofun
    · rintro ⟨limits, -, hProfile, hFlags, -⟩
      rcases hArgument with h | h
      · exact absurd h hProfile
      · exact absurd hFlags h
  obtain ⟨hProfile, hFlags⟩ := not_or.mp hArgument
  rw [not_not] at hFlags
  rw [writerCreate, if_neg hArgument]
  cases hLimits : limitsResolve requested with
  | error r => simp
  | ok limits =>
      -- the three requests, each made when the one before was granted
      have hGrants : heap.Grants (createRequests limits) ↔ heap.grant heap.requests.length = true ∧
          (heap.after [sizeOfWriter]).grant (heap.after [sizeOfWriter]).requests.length = true ∧
          ((heap.after [sizeOfWriter]).after [limits.maximumDepth * sizeOfSize]).grant
            ((heap.after [sizeOfWriter]).after [limits.maximumDepth * sizeOfSize]).requests.length =
              true := by
        rw [createRequests, grants_cons, grants_cons, grants_singleton]
      have hAfter : heap.after (createRequests limits) =
          ((heap.after [sizeOfWriter]).after [limits.maximumDepth * sizeOfSize]).after
            [wrap (keysetCapacity writerInitialKeys * sizeOfSize)] := by
        rw [after_after, after_after]
        rfl
      simp only [request_eq, keysetInit_eq, Except.ok.injEq, exists_eq_left', hGrants, hAfter]
      cases heap.grant heap.requests.length with
      | false => simp
      | true =>
          cases (heap.after [sizeOfWriter]).grant (heap.after [sizeOfWriter]).requests.length with
          | false => simp
          | true =>
              cases ((heap.after [sizeOfWriter]).after [limits.maximumDepth * sizeOfSize]).grant
                  ((heap.after [sizeOfWriter]).after
                    [limits.maximumDepth * sizeOfSize]).requests.length with
              | false => simp
              | true =>
                  simp only [Bool.not_true, Bool.false_eq_true, if_false, if_true, Prod.mk.injEq,
                    Except.ok.injEq, ne_eq, hProfile, not_false_eq_true, hFlags, true_and, and_self]
                  constructor
                  · rintro ⟨rfl, rfl⟩
                    exact ⟨rfl, rfl⟩
                  · rintro ⟨rfl, rfl⟩
                    exact ⟨rfl, rfl⟩

theorem writerCreate_steady {heap h : Heap} {profile : Profile} {requested : Option Limits}
    {flags : UInt32} {w : Writer}
    (hCreate : writerCreate heap profile requested flags = (.ok w, h)) : w.Steady := by
  obtain ⟨limits, hLimits, -, -, -, -, rfl⟩ := writerCreate_eq_ok.mp hCreate
  have hCapacity : (emptyKeyset writerInitialKeys).capacity ≤ 32 := by decide +kernel
  exact ⟨⟨rfl, rfl⟩, Nat.zero_le _, (limitsResolve_ok hLimits).2.2.1, Nat.le_refl _, hCapacity⟩

/-! ### Calls -/

/-- A writer that may have failed or finished. -/
def Writer.Sound (w : Writer) : Prop := w.Ready → w.Steady

namespace WriterCall

variable {w : Writer}

/-- What a call on a steady writer does, when it makes requests of these sizes. -/
structure Heeded (c : WriterCall) (w : Writer) (sizes : List Nat) : Prop where
  heap : (c.call w).2.heap = w.heap.after sizes
  memory : (c.call w).1.result = .errMemory ↔ ¬w.heap.Grants sizes
  same : (c.call w).1.result ≠ .errMemory →
    c.call (generous w) = ((c.call w).1, generous (c.call w).2)
  continues : (c.call w).1.result = .ok → c.Continues (c.call w).2
  ends : (c.call w).1.result ≠ .ok → c.Ends w (c.call w).1.result (c.call w).2
  output : (c.call w).1.result ≠ .ok → (c.call w).1.output = none

theorem Ends.failed {c : WriterCall} {r : Result} {t : Writer} (h : c.Ends w r t) : r ≠ .ok := by
  rcases h with (⟨rfl, -⟩ | hRecorded) | ⟨-, ⟨rfl, -⟩ | hRecorded⟩
  · nofun
  · exact hRecorded.1
  · nofun
  · exact hRecorded.1

theorem call_heeded (c : WriterCall) (h : w.Steady) : ∃ sizes, c.Heeded w sizes := by
  obtain ⟨sizes, hRun⟩ := c.operation_heeds h
  refine ⟨sizes, ?_⟩
  cases hOperation : c.operation w with
  | ok output t =>
      rw [hOperation] at hRun
      obtain ⟨hContinues, hHeap, hGrants, hGenerous⟩ := hRun
      have hCall : c.call w = (⟨.ok, output⟩, t) := by rw [call, hOperation]
      have hCallGenerous : c.call (generous w) = (⟨.ok, output⟩, generous t) := by
        rw [call, hGenerous]
      constructor <;> rw [hCall]
      · exact hHeap
      · exact ⟨(by simp), fun hRefused => absurd hGrants hRefused⟩
      · exact fun _ => hCallGenerous
      · exact fun _ => hContinues
      · exact fun hNot => absurd rfl hNot
      · exact fun hNot => absurd rfl hNot
  | error r t =>
      rw [hOperation] at hRun
      obtain ⟨hEnds, hHeap, hMemory, hGenerous⟩ := hRun
      have hCall : c.call w = (⟨r, none⟩, t) := by rw [call, hOperation]
      constructor <;> rw [hCall]
      · exact hHeap
      · exact hMemory
      · exact fun hNot => by rw [call, hGenerous hNot]
      · exact fun hOk => absurd hOk hEnds.failed
      · exact fun _ => hEnds
      · exact fun _ => rfl

theorem Recorded.not_ready {r : Result} {t : Writer} (h : Recorded r t) : ¬t.Ready := by
  intro hReady
  exact h.1 (h.2.2.symm.trans hReady.1)

/-- No call spoils a writer. -/
theorem call_sound (c : WriterCall) (h : w.Sound) : (c.call w).2.Sound := by
  by_cases hReady : w.Ready
  · obtain ⟨sizes, hHeeded⟩ := c.call_heeded (h hReady)
    intro hNext
    by_cases hOk : (c.call w).1.result = .ok
    · have hContinues := hHeeded.continues hOk
      cases c with
      | finish outputsGiven => exact absurd (hContinues.symm.trans hNext.2) nofun
      | _ => exact hContinues
    · rcases hHeeded.ends hOk with (⟨-, hSame⟩ | hRecorded) | ⟨-, ⟨-, hBroken⟩ | hRecorded⟩
      · rw [hSame]
        exact h hReady
      · exact absurd hNext (Recorded.not_ready hRecorded)
      · exact absurd (hBroken.symm.trans hNext.1) nofun
      · exact absurd hNext (Recorded.not_ready hRecorded)
  · rw [c.call_same hReady]
    exact h

end WriterCall

theorem callAll_sound {w : Writer} (h : w.Sound) (calls : List WriterCall) :
    (callAll calls w).2.Sound := by
  induction calls generalizing w with
  | nil => exact h
  | cons c calls ih => exact ih (c.call_sound h)

/-! ### The failure model -/

/-- What is left of a writer that is not ready: refusals only. -/
def Writer.Closed (w : Writer) : Prop :=
  ∀ calls, writerStatus (callAll calls w).2 = writerStatus w ∧
    ∀ returned ∈ (callAll calls w).1,
      (returned.result = .errState ∨ returned.result = .errArgument) ∧ returned.output = none

theorem closed_of_not_ready {w : Writer} (h : ¬w.Ready) : w.Closed := by
  intro calls
  obtain ⟨hReturned, hSame⟩ := callAll_not_ready h calls
  rw [hSame]
  exact ⟨rfl, hReturned⟩

/-- The sticky failure model, in every state that calls on a created writer reach. -/
theorem writer_sticky {heap h : Heap} {profile : Profile} {requested : Option Limits}
    {flags : UInt32} {w : Writer} (hCreate : writerCreate heap profile requested flags = (.ok w, h))
    (before : List WriterCall) (c : WriterCall) :
    let s := (callAll before w).2
    let returned := (c.call s).1
    let t := (c.call s).2
    (returned.result = .errArgument →
        t = s ∨ c.copies = true ∧ c.misused s.profile = false ∧ s.Ready ∧
        writerStatus t = .errState) ∧
      (s.Ready → returned.result ≠ .ok → returned.result ≠ .errArgument →
        writerStatus t = returned.result) ∧
      (writerStatus s ≠ .ok → s.Closed) ∧
      (∀ outputsGiven, c = .finish outputsGiven → returned.result = .ok → t.Closed) := by
  intro s returned t
  have hSound : s.Sound := callAll_sound (fun _ => writerCreate_steady hCreate) before
  refine ⟨fun hArgument => ?_, fun hReady hOk hArgument => ?_, fun hStatus => ?_, ?_⟩
  · by_cases hMisused : c.misused s.profile = true
    · exact Or.inl (WriterCall.call_misused hMisused)
    rw [Bool.not_eq_true] at hMisused
    by_cases hReady : s.Ready
    · obtain ⟨sizes, hHeeded⟩ := c.call_heeded (hSound hReady)
      have hFailed : (c.call s).1.result ≠ .ok := by
        rw [show (c.call s).1.result = .errArgument from hArgument]
        nofun
      rcases hHeeded.ends hFailed with
        (⟨-, hSame⟩ | hRecorded) | ⟨hCopies, ⟨-, hBroken⟩ | hRecorded⟩
      · exact Or.inl hSame
      · exact absurd hArgument hRecorded.2.1
      · exact Or.inr ⟨hCopies, hMisused, hReady, hBroken⟩
      · exact absurd hArgument hRecorded.2.1
    · exact Or.inl (c.call_same hReady)
  · obtain ⟨sizes, hHeeded⟩ := c.call_heeded (hSound hReady)
    rcases hHeeded.ends hOk with (⟨hResult, -⟩ | hRecorded) | ⟨-, ⟨hResult, -⟩ | hRecorded⟩
    · exact absurd hResult hArgument
    · exact hRecorded.2.2
    · exact absurd hResult hArgument
    · exact hRecorded.2.2
  · exact closed_of_not_ready fun hReady => hStatus hReady.1
  · rintro outputsGiven rfl hOk
    apply closed_of_not_ready
    intro hNext
    by_cases hReady : s.Ready
    · obtain ⟨sizes, hHeeded⟩ := WriterCall.call_heeded (.finish outputsGiven) (hSound hReady)
      have hFinished : t.finished = true := hHeeded.continues hOk
      exact absurd (hFinished.symm.trans hNext.2) nofun
    · have hSame : t = s := WriterCall.call_same hReady _
      exact hReady (hSame ▸ hNext)

/-- An array that is ended as an object: the result is recorded as the status. -/
theorem writer_sticky_mismatch :
    let s := (callAll [.arrayBegin]
      (.fresh .rfc8259 ⟨65535, 32, 8192⟩ 0 ⟨fun _ => true, [144, 256, 256]⟩)).2
    writerStatus (WriterCall.objectEnd.call s).2 = (WriterCall.objectEnd.call s).1.result :=
  (@writer_sticky ⟨fun _ => true, []⟩ ⟨fun _ => true, [144, 256, 256]⟩ .rfc8259 none 0
    (.fresh .rfc8259 ⟨65535, 32, 8192⟩ 0 ⟨fun _ => true, [144, 256, 256]⟩) (by rfl) [.arrayBegin]
    .objectEnd).2.1 (by decide +kernel) (by decide +kernel) (by decide +kernel)

end MaelysJson
