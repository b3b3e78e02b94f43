import Mathlib.Tactic

/-! Runs of state-and-exception programs: how a sequence runs, how one fails, unary triples,
and a relation between the runs of two programs that proceed in lockstep. -/
namespace Run

variable {ε φ σ τ α β γ δ : Type}

/-! ### Sequences -/

theorem bind_eq (x : EStateM ε σ α) (f : α → EStateM ε σ β) (s : σ) :
    (x >>= f) s = match x s with
      | .ok a s => f a s
      | .error e s => .error e s := rfl

theorem bind_of_ok {x : EStateM ε σ α} {f : α → EStateM ε σ β} {s s' : σ} {a : α}
    (h : x s = .ok a s') : (x >>= f) s = f a s' := by
  rw [bind_eq, h]

theorem bind_of_error {x : EStateM ε σ α} {f : α → EStateM ε σ β} {s s' : σ} {e : ε}
    (h : x s = .error e s') : (x >>= f) s = .error e s' := by
  rw [bind_eq, h]

theorem bind_eq_ok {x : EStateM ε σ α} {f : α → EStateM ε σ β} {s s'' : σ} {b : β} :
    (x >>= f) s = .ok b s'' ↔ ∃ a s', x s = .ok a s' ∧ f a s' = .ok b s'' := by
  rw [bind_eq]
  cases x s with
  | ok a s' => simp
  | error e s' => simp

theorem bind_eq_error {x : EStateM ε σ α} {f : α → EStateM ε σ β} {s s'' : σ} {e : ε} :
    (x >>= f) s = .error e s'' ↔
      x s = .error e s'' ∨ ∃ a s', x s = .ok a s' ∧ f a s' = .error e s'' := by
  rw [bind_eq]
  cases x s with
  | ok a s' => simp
  | error e s' => simp

@[simp] theorem pure_run (a : α) (s : σ) : (pure a : EStateM ε σ α) s = .ok a s := rfl

@[simp] theorem get_run (s : σ) : (get : EStateM ε σ σ) s = .ok s s := rfl

@[simp] theorem set_run (s s' : σ) : (set s' : EStateM ε σ PUnit) s = .ok ⟨⟩ s' := rfl

@[simp] theorem modify_run (f : σ → σ) (s : σ) : (modify f : EStateM ε σ PUnit) s = .ok ⟨⟩ (f s) :=
  rfl

@[simp] theorem throw_run (e : ε) (s : σ) : (throw e : EStateM ε σ α) s = .error e s := rfl

@[simp] theorem get_bind (f : σ → EStateM ε σ β) (s : σ) : (get >>= f) s = f s s := rfl

@[simp] theorem set_bind (s' : σ) (f : PUnit → EStateM ε σ β) (s : σ) :
    (set s' >>= f) s = f ⟨⟩ s' := rfl

@[simp] theorem modify_bind (g : σ → σ) (f : PUnit → EStateM ε σ β) (s : σ) :
    (modify g >>= f) s = f ⟨⟩ (g s) := rfl

@[simp] theorem throw_bind (e : ε) (f : α → EStateM ε σ β) (s : σ) :
    ((throw e : EStateM ε σ α) >>= f) s = .error e s := rfl

/-! ### Failures -/

/-- Where `x` fails from `s`, it is with an error of this kind. -/
def Fails (kind : ε → Prop) (x : EStateM ε σ α) (s : σ) : Prop := ∀ e s', x s = .error e s' → kind e

namespace Fails

variable {kind : ε → Prop} {x y : EStateM ε σ α} {s : σ}

theorem pure (a : α) : Fails kind (pure a : EStateM ε σ α) s := by
  intro e s' h
  cases h

theorem bind {f : α → EStateM ε σ β} (hx : Fails kind x s)
    (hf : ∀ a s', x s = .ok a s' → Fails kind (f a) s') :
    Fails kind (x >>= f) s := by
  intro e s' h
  rcases bind_eq_error.mp h with h | ⟨a, s'', hRun, h⟩
  · exact hx e s' h
  · exact hf a s'' hRun e s' h

theorem get_bind {f : σ → EStateM ε σ α} (h : Fails kind (f s) s) : Fails kind (get >>= f) s := h

theorem congr (h : Fails kind y s) (hSame : x s = y s) : Fails kind x s := by
  intro e s' hRun
  rw [hSame] at hRun
  exact h e s' hRun

theorem ite {c : Prop} [Decidable c] (hx : c → Fails kind x s) (hy : ¬c → Fails kind y s) :
    Fails kind (if c then x else y) s := by
  by_cases h : c
  · rw [if_pos h]
    exact hx h
  · rw [if_neg h]
    exact hy h

end Fails

/-! ### Triples -/

/-- From a state with `pre`, a run of `x` ends with `post` or with `fault`. -/
def Triple (pre : σ → Prop) (x : EStateM ε σ α) (post : α → σ → Prop) (fault : ε → σ → Prop) :
    Prop :=
  ∀ s, pre s → match x s with
    | .ok a s' => post a s'
    | .error e s' => fault e s'

namespace Triple

variable {pre pre' : σ → Prop} {x : EStateM ε σ α} {post post' : α → σ → Prop}
  {fault fault' : ε → σ → Prop}

theorem mono (h : Triple pre x post fault) (hPre : ∀ s, pre' s → pre s)
    (hPost : ∀ a s, post a s → post' a s) (hFault : ∀ e s, fault e s → fault' e s) :
    Triple pre' x post' fault' := by
  intro s hs
  have hRun := h s (hPre s hs)
  cases hx : x s with
  | ok a s' =>
      rw [hx] at hRun
      exact hPost a s' hRun
  | error e s' =>
      rw [hx] at hRun
      exact hFault e s' hRun

theorem ite {c : Prop} [Decidable c] {y : EStateM ε σ α}
    (hx : Triple (fun s => pre s ∧ c) x post fault)
    (hy : Triple (fun s => pre s ∧ ¬c) y post fault) :
    Triple pre (if c then x else y) post fault := by
  intro s hs
  by_cases h : c
  · rw [if_pos h]
    exact hx s ⟨hs, h⟩
  · rw [if_neg h]
    exact hy s ⟨hs, h⟩

end Triple

/-! ### Lockstep -/

/-- From related states, both programs succeed or both fail, and what they leave is related. -/
def Lockstep (pre : σ → τ → Prop) (x : EStateM ε σ α) (y : EStateM φ τ β)
    (post : α → β → σ → τ → Prop) (fault : ε → φ → σ → τ → Prop) : Prop :=
  ∀ s t, pre s t → match x s, y t with
    | .ok a s', .ok b t' => post a b s' t'
    | .error e s', .error f t' => fault e f s' t'
    | _, _ => False

namespace Lockstep

variable {pre P : σ → τ → Prop} {x : EStateM ε σ α} {y : EStateM φ τ β}
  {post post' : α → β → σ → τ → Prop} {fault fault' : ε → φ → σ → τ → Prop}

theorem bind {f : α → EStateM ε σ γ} {g : β → EStateM φ τ δ} {Q : γ → δ → σ → τ → Prop}
    (h : Lockstep pre x y post fault) (hf : ∀ a b, Lockstep (post a b) (f a) (g b) Q fault) :
    Lockstep pre (x >>= f) (y >>= g) Q fault := by
  intro s t hst
  have hRun := h s t hst
  rw [bind_eq, bind_eq]
  cases hx : x s with
  | ok a s' =>
      cases hy : y t with
      | ok b t' =>
          rw [hx, hy] at hRun
          exact hf a b s' t' hRun
      | error e t' =>
          rw [hx, hy] at hRun
          exact hRun.elim
  | error e s' =>
      cases hy : y t with
      | ok b t' =>
          rw [hx, hy] at hRun
          exact hRun.elim
      | error e t' =>
          rw [hx, hy] at hRun
          exact hRun

theorem pure {a : α} {b : β} (h : ∀ s t, pre s t → post a b s t) :
    Lockstep pre (pure a : EStateM ε σ α) (pure b : EStateM φ τ β) post fault := h

theorem mono (h : Lockstep pre x y post fault) (hPre : ∀ s t, P s t → pre s t)
    (hPost : ∀ a b s t, post a b s t → post' a b s t)
    (hFault : ∀ e f s t, fault e f s t → fault' e f s t) : Lockstep P x y post' fault' := by
  intro s t hst
  have hRun := h s t (hPre s t hst)
  cases hx : x s <;> cases hy : y t <;> rw [hx, hy] at hRun
  · exact hPost _ _ _ _ hRun
  · exact hRun
  · exact hRun
  · exact hFault _ _ _ _ hRun

/-- The states are read first: what follows may depend on them. -/
theorem of_states (h : ∀ s t, pre s t → Lockstep (fun s' t' => s' = s ∧ t' = t) x y post fault) :
    Lockstep pre x y post fault :=
  fun s t hst => h s t hst s t ⟨rfl, rfl⟩

end Lockstep

end Run
