import Mathlib.Data.List.Lex
import Mathlib.Tactic

/-! Lexicographic order of encoded texts. Where the codes of two different symbols
compare the same way whatever follows them, encoded texts compare as the texts do. -/
namespace Lexicographic

variable {α β : Type} [DecidableEq α] [LinearOrder β] {code : α → List β}
  {precedes : α → α → Prop} {a b : α} {left right : List α}

/-- The codes of different symbols compare as `precedes` tells. -/
structure OrderedBy (code : α → List β) (precedes : α → α → Prop) : Prop where
  code_ne_nil : ∀ a, code a ≠ []
  irrefl : ∀ a, ¬precedes a a
  lt_iff : ∀ {a b}, a ≠ b → ∀ l r, code a ++ l < code b ++ r ↔ precedes a b

theorem append_lt_append_iff (common : List β) {l r : List β} :
    common ++ l < common ++ r ↔ l < r := by
  induction common with
  | nil => rfl
  | cons b common ih => rw [List.cons_append, List.cons_append, List.cons_lt_cons_self, ih]

theorem lex_cons_iff (hIrrefl : ¬precedes a a) :
    List.Lex precedes (a :: left) (b :: right) ↔ if a = b then List.Lex precedes left right else
      precedes a b := by
  split_ifs with h
  · subst h
    refine ⟨fun hLex => ?_, .cons⟩
    cases hLex with
    | rel hRel => exact absurd hRel hIrrefl
    | cons hRest => exact hRest
  · refine ⟨fun hLex => ?_, .rel⟩
    cases hLex with
    | rel hRel => exact hRel
    | cons _ => exact absurd rfl h

/-- Encoded texts compare as the texts. -/
theorem OrderedBy.flatMap_lt_iff (h : OrderedBy code precedes) :
    left.flatMap code < right.flatMap code ↔ List.Lex precedes left right := by
  induction left generalizing right with
  | nil =>
      cases right with
      | nil => exact ⟨fun hLt => absurd hLt (lt_irrefl _), nofun⟩
      | cons b right =>
          refine ⟨fun _ => .nil, fun _ => ?_⟩
          cases hCode : code b with
          | nil => exact absurd hCode (h.code_ne_nil b)
          | cons first rest =>
              rw [List.flatMap_cons, hCode]
              exact List.nil_lt_cons _ _
  | cons a left ih =>
      cases right with
      | nil => exact ⟨fun hLt => absurd hLt (List.not_lt_nil _), nofun⟩
      | cons b right =>
          rw [List.flatMap_cons, List.flatMap_cons, lex_cons_iff (h.irrefl a)]
          split_ifs with hSame
          · subst hSame
            exact (append_lt_append_iff _).trans ih
          · exact h.lt_iff hSame _ _

end Lexicographic
