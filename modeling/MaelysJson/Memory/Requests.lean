import MaelysJson.Code.Keyset

/-! Runs that ask for memory. A heap grants or refuses each request by its number
in turn, so a run that stops at its first refusal either makes all of its requests
and ends as with plenty of memory, or it makes some of them and reports the
refusal. -/
namespace MaelysJson

namespace Heap

variable {α β : Type}

/-- The heap after requests of these sizes. -/
def after (heap : Heap) (sizes : List Nat) : Heap :=
  { heap with requests := heap.requests ++ sizes }

/-- The next requests are all granted, if they have these sizes. -/
def Grants (heap : Heap) (sizes : List Nat) : Prop :=
  ∀ n < sizes.length, heap.grant (heap.requests.length + n) = true

instance (heap : Heap) (sizes : List Nat) : Decidable (heap.Grants sizes) :=
  inferInstanceAs (Decidable (∀ n < sizes.length, heap.grant (heap.requests.length + n) = true))

/-- The same heap, from now on without refusals. -/
def unlimited (heap : Heap) : Heap := { heap with grant := fun _ => true }

theorem unlimited_generous (heap : Heap) : heap.unlimited.Generous := fun _ => rfl

theorem Generous.grants {heap : Heap} (h : heap.Generous) (sizes : List Nat) : heap.Grants sizes :=
  fun _ _ => h _

theorem Generous.after {heap : Heap} (h : heap.Generous) (sizes : List Nat) :
    (heap.after sizes).Generous :=
  fun n => h n

@[simp] theorem after_nil (heap : Heap) : heap.after [] = heap := by
  rw [after, List.append_nil]

@[simp] theorem after_after (heap : Heap) (sizes sizes' : List Nat) :
    (heap.after sizes).after sizes' = heap.after (sizes ++ sizes') := by
  rw [after, after, after, List.append_assoc]

theorem request_eq (heap : Heap) (size : Nat) :
    heap.request size = (heap.grant heap.requests.length, heap.after [size]) := rfl

theorem grants_append (heap : Heap) (sizes sizes' : List Nat) :
    heap.Grants (sizes ++ sizes') ↔ heap.Grants sizes ∧ (heap.after sizes).Grants sizes' := by
  simp only [Grants, after, List.length_append]
  constructor
  · intro h
    refine ⟨fun n hn => h n (by omega), fun n hn => ?_⟩
    rw [Nat.add_assoc]
    exact h _ (by omega)
  · rintro ⟨h, h'⟩ n hn
    by_cases hLt : n < sizes.length
    · exact h n hLt
    · have hTail := h' (n - sizes.length) (by omega)
      rwa [Nat.add_assoc, Nat.add_sub_cancel' (not_lt.mp hLt)] at hTail

theorem grants_nil (heap : Heap) : heap.Grants [] := nofun

theorem grants_singleton (heap : Heap) (size : Nat) :
    heap.Grants [size] ↔ heap.grant heap.requests.length = true := by
  constructor
  · intro h
    exact h 0 Nat.zero_lt_one
  · intro h n hn
    rwa [Nat.lt_one_iff.mp hn, Nat.add_zero]

theorem grants_cons (heap : Heap) (size : Nat) (sizes : List Nat) :
    heap.Grants (size :: sizes) ↔
      heap.grant heap.requests.length = true ∧ (heap.after [size]).Grants sizes := by
  rw [← List.singleton_append, grants_append, grants_singleton]

/-- Refusals go by the number of a request: what is not granted names one. -/
theorem exists_refused {heap : Heap} {sizes : List Nat} (h : ¬heap.Grants sizes) :
    ∃ n, heap.requests.length ≤ n ∧ n < (heap.after sizes).requests.length ∧
      heap.grant n = false := by
  simp only [Grants, not_forall, Bool.not_eq_true] at h
  obtain ⟨n, hn, hRefused⟩ := h
  refine ⟨heap.requests.length + n, Nat.le_add_right _ _, ?_, hRefused⟩
  rw [after, List.length_append]
  exact Nat.add_lt_add_left hn _

theorem not_refused {heap : Heap} {sizes : List Nat} (h : heap.Grants sizes) :
    ¬∃ n, heap.requests.length ≤ n ∧ n < (heap.after sizes).requests.length ∧
    heap.grant n = false := by
  rintro ⟨n, hLow, hHigh, hRefused⟩
  rw [after, List.length_append] at hHigh
  have hGranted := h (n - heap.requests.length) (by omega)
  rw [Nat.add_sub_cancel' hLow, hRefused] at hGranted
  cases hGranted

/-- The run makes requests of `sizes` in turn and ends with `value` when all are
granted. It stops at a refusal, and then what it returns is `refused`. -/
structure Asks (run : Heap → α × Heap) (sizes : List Nat) (value : α) (refused : α → Prop) :
    Prop where
  granted : ∀ heap : Heap, heap.Grants sizes → run heap = (value, heap.after sizes)
  stopped : ∀ heap : Heap, ¬heap.Grants sizes → ∃ asked outcome, asked <+: sizes ∧
    ¬heap.Grants asked ∧
    refused outcome ∧ run heap = (outcome, heap.after asked)

namespace Asks

variable {run : Heap → α × Heap} {sizes : List Nat} {value : α} {refused : α → Prop}

theorem pure (value : α) (refused : α → Prop) : Asks (fun heap => (value, heap)) [] value refused :=
  ⟨fun heap _ => by rw [after_nil], fun heap h => absurd heap.grants_nil h⟩

/-- Requests made together: their answers are looked at when all have been made. -/
theorem together (default : α)
    (h : ∀ heap : Heap, run heap = (if heap.Grants sizes then value else default, heap.after sizes))
    (hRefused : refused default) : Asks run sizes value refused := by
  refine ⟨fun heap hGrants => ?_, fun heap hGrants => ?_⟩
  · rw [h, if_pos hGrants]
  · exact ⟨sizes, default, List.prefix_rfl, hGrants, hRefused, by rw [h, if_neg hGrants]⟩

/-- One run after another, when a refusal in the first skips the second. -/
theorem bind (h : Asks run sizes value refused) (next : α → Heap → β × Heap) {sizes' : List Nat}
    {value' : β} {refused' : β → Prop} (hNext : Asks (next value) sizes' value' refused')
    (hSkip : ∀ a, refused a → ∃ b, refused' b ∧ ∀ heap, next a heap = (b, heap)) :
    Asks (fun heap => next (run heap).1 (run heap).2) (sizes ++ sizes') value' refused' := by
  refine ⟨fun heap hGrants => ?_, fun heap hGrants => ?_⟩
  · obtain ⟨hFirst, hSecond⟩ := (grants_append heap sizes sizes').mp hGrants
    simp only [h.granted heap hFirst, hNext.granted _ hSecond, after_after]
  · by_cases hFirst : heap.Grants sizes
    · have hSecond : ¬(heap.after sizes).Grants sizes' := fun hSecond =>
        hGrants ((grants_append heap sizes sizes').mpr ⟨hFirst, hSecond⟩)
      obtain ⟨asked, outcome, hPrefix, hAsked, hOutcome, hRun⟩ := hNext.stopped _ hSecond
      refine ⟨sizes ++ asked, outcome, (List.prefix_append_right_inj sizes).mpr hPrefix, ?_,
        hOutcome, ?_⟩
      · exact fun hAll => hAsked ((grants_append heap sizes asked).mp hAll).2
      · simp only [h.granted heap hFirst, hRun, after_after]
    · obtain ⟨asked, outcome, hPrefix, hAsked, hOutcome, hRun⟩ := h.stopped heap hFirst
      obtain ⟨b, hRefused, hSkipped⟩ := hSkip outcome hOutcome
      exact ⟨asked, b, hPrefix.trans (List.prefix_append _ _), hAsked, hRefused,
        by simp only [hRun, hSkipped]⟩

theorem congr (h : Asks run sizes value refused) {run' : Heap → α × Heap}
    (hRun : ∀ heap, run' heap = run heap) :
    Asks run' sizes value refused :=
  funext hRun ▸ h

/-- Whatever is refused, the requests made are the first ones of the full run. -/
theorem requests (h : Asks run sizes value refused) (heap : Heap) :
    ∃ asked, asked <+: sizes ∧ (run heap).2 = heap.after asked := by
  by_cases hGrants : heap.Grants sizes
  · exact ⟨sizes, List.prefix_rfl, by rw [h.granted heap hGrants]⟩
  · obtain ⟨asked, outcome, hPrefix, -, -, hRun⟩ := h.stopped heap hGrants
    exact ⟨asked, hPrefix, by rw [hRun]⟩

theorem ends (h : Asks run sizes value refused) (heap : Heap) :
    (run heap).1 = value ∨ refused (run heap).1 := by
  by_cases hGrants : heap.Grants sizes
  · exact Or.inl (by rw [h.granted heap hGrants])
  · obtain ⟨asked, outcome, -, -, hOutcome, hRun⟩ := h.stopped heap hGrants
    exact Or.inr (by rwa [hRun])

/-- A run reports a refusal exactly when one of its requests was refused; otherwise it
ends as it does with plenty of memory. -/
theorem outcome (h : Asks run sizes value refused) (hValue : ¬refused value) (heap : Heap) :
    (refused (run heap).1 ↔ ∃ n, heap.requests.length ≤ n ∧ n < (run heap).2.requests.length ∧
      heap.grant n = false) ∧ (¬refused (run heap).1 → (run heap).1 = (run heap.unlimited).1) := by
  have hFull : run heap.unlimited = _ := h.granted _ (heap.unlimited_generous.grants sizes)
  by_cases hGrants : heap.Grants sizes
  · rw [h.granted heap hGrants, hFull]
    exact ⟨⟨fun hRefused => absurd hRefused hValue, fun hRefused =>
      absurd hRefused (not_refused hGrants)⟩, fun _ => rfl⟩
  · obtain ⟨asked, outcome, -, hAsked, hOutcome, hRun⟩ := h.stopped heap hGrants
    rw [hRun]
    exact ⟨⟨fun _ => exists_refused hAsked, fun _ => hOutcome⟩, fun hNot => absurd hOutcome hNot⟩

end Asks

end Heap

end MaelysJson
