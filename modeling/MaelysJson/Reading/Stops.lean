import MaelysJson.Reading.Completeness
import MaelysJson.Reading.Limits
import MaelysJson.Reading.Spots
import MaelysJson.Reading.Strictness

/-! Where a reading stops. Before a syntax or an encoding error stands the beginning of
a text, with one exception: a string literal is scanned for control characters before it
is decoded, so a control character hides what is wrong with the literal before it. -/
namespace MaelysJson

open Grammar Run

variable {profile : Profile}

/-- A string literal holds a control character, and no literal begins like its content
before that. -/
def Spoiled (profile : Profile) (bytes : Bytes) : Prop :=
  ∃ deepest level before content byte rest, LiteralAt profile deepest level before ∧
    Pieces profile content ∧
    byte < 0x20 ∧ ¬Extends profile content ∧ bytes = before ++ [0x22] ++ content ++ byte :: rest

theorem Stands.take {bytes piece : Bytes} {start stop : Nat} (h : Stands bytes piece start stop) :
    bytes.take stop = bytes.take start ++ piece := by
  obtain ⟨hDrop, rfl⟩ := h
  rw [List.take_add, hDrop, List.take_left]

/-! ### Literals -/

/-- The scan passes over the units of a literal one by one. -/
theorem Pieces.left_of_units (hProfile : profile ≠ .contractAscii) {left right text : Bytes}
    (hUnits : StringUnits NotEscape left text) (h : Pieces profile (left ++ right)) :
    Pieces profile left := by
  induction hUnits with
  | nil => exact .nil
  | @cons unit decoded rest text head _ ih =>
      rw [List.append_assoc] at h
      rcases head.cases_head with ⟨c, hc, rfl, -⟩ | ⟨escape, tail, rfl, hTail⟩
      · have hSlash : ∀ byte ∈ String.utf8EncodeChar c, byte ≠ 0x5c :=
          fun byte hByte => ne_of_mem_encodeChar (by decide) hc hByte
        obtain ⟨hPlain, hRest⟩ := h.split hSlash
        refine Pieces.append (.of_plain fun byte hByte => ?_) (ih hRest)
        exact ⟨(hPlain byte hByte).1, (hPlain byte hByte).2.1, hSlash byte hByte,
          (hPlain byte hByte).2.2⟩
      · exact (hTail.pieces hProfile).mpr (ih ((hTail.pieces hProfile).mp h))

/-- The units before one that fails are a literal. -/
theorem Undecodable.extends (hProfile : profile ≠ .contractAscii) {content : Bytes} {code : Result}
    {bad : Nat} (hPieces : Pieces profile content) (h : Undecodable content code bad) :
    Extends profile (content.take bad) := by
  obtain ⟨text, hUnits⟩ := h.units
  refine ⟨[], text, ?_⟩
  rw [List.append_nil, Content, if_neg hProfile, stringUnits_unescaped_iff hProfile]
  rw [← List.take_append_drop bad content] at hPieces
  exact ⟨hPieces.left_of_units hProfile hUnits, hUnits⟩

namespace Reading

variable {r : Reading} {place next : Place}

/-! ### Where a reading stops -/

/-- A fault of syntax or encoding is after the beginning of a text, or the text is spoiled. -/
def Stopped (r : Reading) (fault : Fault) : Prop :=
  fault.code = .errSyntax ∨ fault.code = .errUtf8 →
    Viable r.profile r.maximumDepth (r.bytes.take fault.offset) ∨ Spoiled r.profile r.bytes

/-- Every fault of `read` at `place` is of that kind. -/
abbrev Halts (r : Reading) {α : Type} (read : ReadM α) (place : Place) : Prop :=
  Fails r.Stopped read place

namespace Halts

variable {α : Type}

theorem advance (offset : Nat) : r.Halts (advance offset) place := by
  intro fault next h
  cases h

theorem readSpace : r.Halts r.readSpace place := by
  intro fault next h
  cases h

theorem refuse {code : Result} {offset : Nat} (h : r.Stopped ⟨code, offset, []⟩) :
    r.Halts (refuse code offset : ReadM α) place := by
  intro fault next hRun
  cases hRun
  exact h

theorem within {x : ReadM α} (h : r.Halts x place) (step : Step) :
    r.Halts (within step x) place := by
  intro fault next hRun
  rw [Reading.within] at hRun
  cases hx : x place with
  | ok a middle =>
      rw [hx] at hRun
      cases hRun
  | error fault' middle =>
      rw [hx] at hRun
      cases hRun
      exact h fault' _ hx

end Halts

/-! ### Tokens -/

end Reading

end MaelysJson
