import MaelysJson.Reading.Soundness
import MaelysJson.Reading.Strictness
import MaelysJson.Reading.Texts

/-! The path of a fault. Its keys are texts of literals that were read before, so they hold
no NUL. -/
namespace MaelysJson

open Grammar Run

/-- Every key on the path is the text of a literal. -/
def Fault.Named (profile : Profile) (fault : Fault) : Prop :=
  ∀ name, Step.key name ∈ fault.path → ∃ content, Content profile content name

theorem Fault.Named.of_nil {profile : Profile} {fault : Fault} (h : fault.path = []) :
    fault.Named profile := by
  intro name hName
  rw [h] at hName
  cases hName

namespace Reading

variable {r : Reading} {place : Place}

/-- The faults of `read` at `place` have such paths. -/
abbrev Names (r : Reading) {α : Type} (read : ReadM α) (place : Place) : Prop :=
  Fails (Fault.Named r.profile) read place

namespace Names

variable {α : Type}

theorem refuse (code : Result) (offset : Nat) : r.Names (refuse code offset : ReadM α) place := by
  intro fault next h
  cases h
  exact .of_nil rfl

theorem advance (offset : Nat) : r.Names (advance offset) place := by
  intro fault next h
  cases h

theorem within {x : ReadM α} {step : Step} (h : r.Names x place)
    (hStep : ∀ name, step = .key name → ∃ content, Content r.profile content name) :
    r.Names (within step x) place := by
  intro fault next hRun
  rw [Reading.within] at hRun
  cases hx : x place with
  | ok a middle =>
      rw [hx] at hRun
      cases hRun
  | error inner middle =>
      rw [hx] at hRun
      cases hRun
      intro name hName
      rcases List.mem_cons.mp hName with hFirst | hBelow
      · exact hStep name hFirst.symm
      · exact h inner _ hx name hBelow

end Names

/-! ### Tokens -/

variable {readValue : ReadM Source}

end Reading

end MaelysJson
