import MaelysJson.General.Run
import MaelysJson.Memory.Requests

/-! Programs that keep their heap in the state. Such a program heeds refusals when it
fails for want of memory exactly if one of its requests was refused, and otherwise
ends as it does with plenty of memory. -/
namespace MaelysJson

open Run Heap

/-- A state with a heap in it. -/
class Allocating (σ : Type) where
  heap : σ → Heap
  withHeap : σ → Heap → σ
  heap_withHeap : ∀ s h, heap (withHeap s h) = h
  withHeap_heap : ∀ s, withHeap s (heap s) = s
  withHeap_withHeap : ∀ s h h', withHeap (withHeap s h) h' = withHeap s h'

open Allocating

variable {σ α β : Type} [Allocating σ]

attribute [simp] heap_withHeap withHeap_heap withHeap_withHeap

/-- The same state, from now on without refusals. -/
def generous (s : σ) : σ := withHeap s (heap s).unlimited

/-- The state after requests of these sizes. -/
def spent (s : σ) (sizes : List Nat) : σ := withHeap s ((heap s).after sizes)

@[simp] theorem heap_generous (s : σ) : heap (generous s) = (heap s).unlimited := heap_withHeap _ _

@[simp] theorem heap_spent (s : σ) (sizes : List Nat) :
    heap (spent s sizes) = (heap s).after sizes :=
  heap_withHeap _ _

theorem generous_spent (s : σ) (sizes : List Nat) :
    generous (spent s sizes) = spent (generous s) sizes := by
  simp only [generous, spent, withHeap_withHeap, heap_withHeap]
  rfl

/-- How a run from `s` ends, if it heeds refusals: with the requests it made, and with
what it does in plenty of memory unless one of them was refused. -/
def Heeds (x : EStateM Result σ α) (post : α → σ → Prop) (fault : Result → σ → Prop) (s : σ) :
    Prop :=
  ∃ sizes, match x s with
    | .ok a t => post a t ∧ heap t = (heap s).after sizes ∧ (heap s).Grants sizes ∧
        x (generous s) = .ok a (generous t)
    | .error r t =>
        fault r t ∧ heap t = (heap s).after sizes ∧ (r = .errMemory ↔ ¬(heap s).Grants sizes) ∧
        (r ≠ .errMemory → x (generous s) = .error r (generous t))

namespace Heeds

variable {x : EStateM Result σ α} {post post' : α → σ → Prop}
  {fault fault' : Result → σ → Prop} {s : σ}

theorem ok {a : α} {t : σ} (hRun : x s = .ok a t) (hPost : post a t) (hHeap : heap t = heap s)
    (hGenerous : x (generous s) = .ok a (generous t)) : Heeds x post fault s := by
  refine ⟨[], ?_⟩
  rw [hRun]
  exact ⟨hPost, by rw [hHeap, after_nil], grants_nil _, hGenerous⟩

theorem error {r : Result} {t : σ} (hRun : x s = .error r t) (hFault : fault r t)
    (hHeap : heap t = heap s) (hMemory : r ≠ .errMemory)
    (hGenerous : x (generous s) = .error r (generous t)) :
    Heeds x post fault s := by
  refine ⟨[], ?_⟩
  rw [hRun]
  exact ⟨hFault, by rw [hHeap, after_nil],
    ⟨fun h => absurd h hMemory, fun h => absurd (grants_nil _) h⟩, fun _ => hGenerous⟩

/-- A run that fails after a refusal. -/
theorem refused {t : σ} {sizes : List Nat} (hRun : x s = .error .errMemory t)
    (hFault : fault .errMemory t) (hHeap : heap t = (heap s).after sizes)
    (hRefused : ¬(heap s).Grants sizes) : Heeds x post fault s := by
  refine ⟨sizes, ?_⟩
  rw [hRun]
  exact ⟨hFault, hHeap, ⟨fun _ => hRefused, fun _ => rfl⟩, fun h => absurd rfl h⟩

theorem pure (a : α) (hPost : post a s) : Heeds (pure a) post fault s := .ok rfl hPost rfl rfl

theorem throw {r : Result} (hFault : fault r s) (hMemory : r ≠ .errMemory) :
    Heeds (throw r : EStateM Result σ α) post fault s := .error rfl hFault rfl hMemory rfl

theorem throw_bind {r : Result} {f : α → EStateM Result σ β} {post : β → σ → Prop}
    (hFault : fault r s) (hMemory : r ≠ .errMemory) :
    Heeds ((MonadExcept.throw r : EStateM Result σ α) >>= f) post fault s :=
  .error rfl hFault rfl hMemory rfl

theorem modify {post : PUnit → σ → Prop} {f : σ → σ} (hPost : post ⟨⟩ (f s))
    (hHeap : heap (f s) = heap s) (hGenerous : f (generous s) = generous (f s)) :
    Heeds (modify f) post fault s :=
  .ok rfl hPost hHeap (congrArg _ hGenerous)

theorem bind {f : α → EStateM Result σ β} {post' : β → σ → Prop} (hx : Heeds x post fault s)
    (hf : ∀ a t, post a t → Heeds (f a) post' fault t) : Heeds (x >>= f) post' fault s := by
  obtain ⟨sizes, hRun⟩ := hx
  rw [Heeds, bind_eq, bind_eq]
  cases hx : x s with
  | error r t =>
      rw [hx] at hRun
      obtain ⟨hFault, hHeap, hMemory, hGenerous⟩ := hRun
      exact ⟨sizes, hFault, hHeap, hMemory, fun h => by rw [hGenerous h]⟩
  | ok a t =>
      rw [hx] at hRun
      obtain ⟨hPost, hHeap, hGrants, hGenerous⟩ := hRun
      obtain ⟨sizes', hNext⟩ := hf a t hPost
      refine ⟨sizes ++ sizes', ?_⟩
      rw [hGenerous]
      simp only
      rw [hHeap] at hNext
      cases hf : f a t with
      | ok b u =>
          rw [hf] at hNext
          obtain ⟨hPost', hHeap', hGrants', hGenerous'⟩ := hNext
          exact ⟨hPost', hHeap'.trans (after_after _ _ _),
            (grants_append _ _ _).mpr ⟨hGrants, hGrants'⟩, hGenerous'⟩
      | error r u =>
          rw [hf] at hNext
          obtain ⟨hFault, hHeap', hMemory, hGenerous'⟩ := hNext
          refine ⟨hFault, hHeap'.trans (after_after _ _ _), hMemory.trans (not_congr ?_),
            hGenerous'⟩
          exact ⟨fun h => (grants_append _ _ _).mpr ⟨hGrants, h⟩,
            fun h => ((grants_append _ _ _).mp h).2⟩

theorem mono (h : Heeds x post fault s) (hPost : ∀ a t, post a t → post' a t)
    (hFault : ∀ r t, fault r t → fault' r t) : Heeds x post' fault' s := by
  obtain ⟨sizes, hRun⟩ := h
  refine ⟨sizes, ?_⟩
  cases hx : x s with
  | ok a t =>
      rw [hx] at hRun
      exact ⟨hPost a t hRun.1, hRun.2⟩
  | error r t =>
      rw [hx] at hRun
      exact ⟨hFault r t hRun.1, hRun.2⟩

/-- What follows a reading of the state does not depend on the heap. -/
theorem get {f : σ → EStateM Result σ α} (hf : f (generous s) = f s)
    (h : Heeds (f s) post fault s) :
    Heeds (get >>= f) post fault s := by
  obtain ⟨sizes, hRun⟩ := h
  refine ⟨sizes, ?_⟩
  rw [get_bind, get_bind, hf]
  exact hRun

theorem ite {c : Prop} [Decidable c] {y : EStateM Result σ α} (hx : c → Heeds x post fault s)
    (hy : ¬c → Heeds y post fault s) : Heeds (if c then x else y) post fault s := by
  by_cases h : c
  · rw [if_pos h]
    exact hx h
  · rw [if_neg h]
    exact hy h

theorem congr {y : EStateM Result σ α} (h : Heeds y post fault s) (hSame : x s = y s)
    (hSame' : x (generous s) = y (generous s)) : Heeds x post fault s := by
  rw [Heeds, hSame, hSame']
  exact h

/-- A request, and a program that fails after its refusal, perhaps after more requests. -/
theorem request {size : Nat} {req : EStateM Result σ Bool} {f : Bool → EStateM Result σ α}
    (hReq : ∀ s, req s = .ok ((heap s).grant (heap s).requests.length) (spent s [size]))
    (hTrue : Heeds (f true) post fault (spent s [size]))
    (hFalse : ∃ t sizes, f false (spent s [size]) = .error .errMemory t ∧ fault .errMemory t ∧
      heap t = (heap s).after (size :: sizes)) : Heeds (req >>= f) post fault s := by
  have hRun := bind_of_ok (f := f) (hReq s)
  have hGenerousRun := bind_of_ok (f := f) (hReq (generous s))
  rw [heap_generous] at hGenerousRun
  by_cases hGranted : (heap s).grant (heap s).requests.length = true
  · rw [hGranted] at hRun
    have hRun' : (req >>= f) (generous s) = f true (generous (spent s [size])) := by
      rw [generous_spent]
      exact hGenerousRun
    obtain ⟨sizes, hTrue⟩ := hTrue
    refine ⟨size :: sizes, ?_⟩
    rw [heap_spent] at hTrue
    rw [hRun, hRun']
    cases hf : f true (spent s [size]) with
    | ok a t =>
        rw [hf] at hTrue
        obtain ⟨hPost, hHeap, hGrants, hGenerous⟩ := hTrue
        exact ⟨hPost, hHeap.trans (after_after _ _ _),
          (grants_cons _ _ _).mpr ⟨hGranted, hGrants⟩, hGenerous⟩
    | error r t =>
        rw [hf] at hTrue
        obtain ⟨hFault, hHeap, hMemory, hGenerous⟩ := hTrue
        refine ⟨hFault, hHeap.trans (after_after _ _ _), hMemory.trans (not_congr ?_), hGenerous⟩
        exact ⟨fun h => (grants_cons _ _ _).mpr ⟨hGranted, h⟩,
          fun h => ((grants_cons _ _ _).mp h).2⟩
  · rw [Bool.eq_false_of_not_eq_true hGranted] at hRun
    obtain ⟨t, sizes, hFails, hFault, hHeap⟩ := hFalse
    exact .refused (hRun.trans hFails) hFault hHeap fun h => hGranted ((grants_cons _ _ _).mp h).1

/-- A failure that is taken up by a change of the state outside of the heap. -/
theorem rescue {y : EStateM Result σ α} {g : Result → σ → σ} (h : Heeds x post fault s)
    (hy : ∀ s, y s = match x s with
      | .ok a t => .ok a t
      | .error r t => .error r (g r t))
    (hHeap : ∀ r t, heap (g r t) = heap t) (hGenerous : ∀ r t, g r (generous t) = generous (g r t))
    (hFault : ∀ r t, fault r t → fault' r (g r t)) : Heeds y post fault' s := by
  obtain ⟨sizes, hRun⟩ := h
  refine ⟨sizes, ?_⟩
  rw [hy s, hy (generous s)]
  cases hx : x s with
  | ok a t =>
      rw [hx] at hRun
      obtain ⟨hPost, hAfter, hGrants, hGenerous'⟩ := hRun
      exact ⟨hPost, hAfter, hGrants, by rw [hGenerous']⟩
  | error r t =>
      rw [hx] at hRun
      obtain ⟨hFails, hAfter, hMemory, hGenerous'⟩ := hRun
      exact ⟨hFault r t hFails, (hHeap r t).trans hAfter, hMemory,
        fun h => by rw [hGenerous' h, ← hGenerous r t]⟩

end Heeds

end MaelysJson
