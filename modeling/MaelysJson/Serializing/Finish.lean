import MaelysJson.Reading.Language
import MaelysJson.Serializing.Output
import MaelysJson.Writing.Operations

/-! The finish of a writer whose tables hold a complete value: it returns the spelling of
that value, when there is room for it. -/
namespace MaelysJson

open Grammar Heap Utf8

/-! ### Texts -/

/-- A text that a profile allows in a literal. -/
def PlainText (profile : Profile) (text : Bytes) : Prop :=
  if profile = .rfc8259 then Valid text ∧ 0 ∉ text else ∀ byte ∈ text, PlainAscii byte

theorem validText_iff (profile : Profile) (text : Bytes) :
    validText profile (.buffer text) = true ↔ PlainText profile text := by
  rw [validText, PlainText]
  by_cases hProfile : profile = .rfc8259
  · rw [if_pos hProfile, if_pos hProfile]
    by_cases hNul : 0 ∈ text
    · rw [if_pos (List.any_eq_true.mpr ⟨0, hNul, rfl⟩)]
      exact ⟨nofun, fun h => absurd hNul h.2⟩
    · have hNone : ¬(text.any fun byte => byte == 0) = true := by
        rw [List.any_eq_true]
        rintro ⟨byte, hByte, hZero⟩
        exact hNul (eq_of_beq hZero ▸ hByte)
      rw [if_neg hNone, utf8Validate_iff]
      exact (and_iff_left hNul).symm
  · rw [if_neg hProfile, if_neg hProfile, List.all_eq_true]
    refine forall₂_congr fun byte _ => ?_
    simp only [PlainAscii, Bool.not_eq_true', Bool.or_eq_false_iff, decide_eq_false_iff_not,
      beq_eq_false_iff_ne, UInt8.not_lt, and_assoc]

theorem PlainText.valid {profile : Profile} {text : Bytes} (h : PlainText profile text) :
    Valid text := by
  rw [PlainText] at h
  split_ifs at h
  · exact h.1
  · have hContent : Content .contractAscii text text := by
      rw [Content, if_pos rfl]
      exact ⟨h, rfl⟩
    have hUnits := hContent.relax
    rw [Content, if_neg (by simp)] at hUnits
    exact hUnits.text.1

/-! ### The finished bytes -/

def flagsLayout (flags : UInt32) : Layout := ⟨flags &&& indentFlag ≠ 0, flags &&& asciiFlag ≠ 0⟩

/-- What stands after the value. -/
def trailer (flags : UInt32) : Bytes := if flags &&& finalNewlineFlag ≠ 0 then [0x0a] else []

/-- The output that the flags ask for. -/
def outputOf (flags : UInt32) (t : Json) : Bytes :=
  t.sorted.spell (flagsLayout flags) 0 ++ trailer flags

section

variable {w : Writer} {d : Draft} {t : Tree Numeral} {OnNumber : Numeral → Prop}

theorem Writer.Builds.incomplete (h : w.Builds d) : w.Incomplete ↔ ∀ t, d ≠ .complete t := by
  rw [Writer.Incomplete, h.depth, h.pending, h.length]
  cases d with
  | empty => exact ⟨fun _ _ => nofun, fun _ => Or.inr (Or.inr rfl)⟩
  | growing focus holes => exact ⟨fun _ _ => nofun, fun _ => Or.inl (Nat.succ_ne_zero _)⟩
  | complete t =>
      constructor
      · rintro (hDepth | hPending | hSize)
        · exact absurd rfl hDepth
        · cases hPending
        · exact absurd hSize (rose_values_pos t).ne'
      · exact fun hNot => absurd rfl (hNot t)

theorem serializeRoot_emits (h : w.Builds (.complete t)) (hUnique : t.uniqueKeys = true)
    (hEvery : t.Every Valid OnNumber) :
    Emits (flagsLayout w.flags) (serializeRoot w) (outputOf w.flags t.json) := by
  have hAt : (t.rose none).At (w.nodes.map Node.row) 0 := by
    rw [h.tables.table]
    exact Forest.Rose.at_rows _
  have hFuel : t.values ≤ w.nodes.length := h.length.ge
  apply (serializeNode_emits h.tables.linked _ hAt hFuel hUnique hEvery).seq
  rw [trailer]
  by_cases hNewline : w.flags &&& finalNewlineFlag ≠ 0
  · rw [if_pos hNewline, if_pos hNewline]
    exact append_emits _ _
  · rw [if_neg hNewline, if_neg hNewline]
    exact .done

theorem Writer.Builds.serializer (h : w.Builds d) (hBytes : w.limits.maximumBytes < sizeMax / 2) :
    w.serializer.Steady ∧ w.serializer.layout = flagsLayout w.flags :=
  ⟨⟨h.generous, Nat.zero_le _, hBytes⟩, rfl⟩

/-- A complete value is finished, as far as its output fits. -/
theorem writerFinish_fits (h : w.Builds (.complete t))
    (hBytes : w.limits.maximumBytes < sizeMax / 2) (hUnique : t.uniqueKeys = true)
    (hEvery : t.Every Valid OnNumber)
    (hFits : (outputOf w.flags t.json).length ≤ w.limits.maximumBytes) :
    ∃ heap, writerFinish true w =
      .ok (outputOf w.flags t.json) { w with heap, finished := true } := by
  obtain ⟨hSteady, hLayout⟩ := h.serializer hBytes
  have hLength : w.serializer.bytes.length + (outputOf w.flags t.json).length ≤
      w.serializer.maximum := by
    rw [show w.serializer.bytes.length = 0 from rfl, Nat.zero_add]
    exact hFits
  obtain ⟨capacity, heap, hRun, -⟩ :=
    (serializeRoot_emits h hUnique hEvery).fits _ hSteady hLayout hLength
  refine ⟨heap, ?_⟩
  rw [writerFinish_run h.ready, if_neg fun hIncomplete => h.incomplete.mp hIncomplete t rfl, hRun]
  rfl

theorem writerFinish_exceeds (h : w.Builds (.complete t))
    (hBytes : w.limits.maximumBytes < sizeMax / 2) (hUnique : t.uniqueKeys = true)
    (hEvery : t.Every Valid OnNumber)
    (hExceeds : w.limits.maximumBytes < (outputOf w.flags t.json).length) :
    ∃ u, writerFinish true w = .error .errLimit u := by
  obtain ⟨hSteady, hLayout⟩ := h.serializer hBytes
  have hLength : w.serializer.maximum <
      w.serializer.bytes.length + (outputOf w.flags t.json).length := by
    rw [show w.serializer.bytes.length = 0 from rfl, Nat.zero_add]
    exact hExceeds
  obtain ⟨s, hRun⟩ := (serializeRoot_emits h hUnique hEvery).exceeds _ hSteady hLayout hLength
  rw [writerFinish_run h.ready, if_neg fun hIncomplete => h.incomplete.mp hIncomplete t rfl, hRun]
  exact ⟨_, rfl⟩

/-- Anything else is not finished. -/
theorem writerFinish_incomplete (h : w.Builds d) (hNot : ∀ t, d ≠ .complete t) :
    ∃ u, writerFinish true w = .error .errState u := by
  rw [writerFinish_run h.ready, if_pos (h.incomplete.mpr hNot)]
  exact ⟨_, rfl⟩

end

end MaelysJson
