import MaelysJson.RoundTrip.Built
import MaelysJson.RoundTrip.Reference

/-! Without presentation flags the writer emits Canonical JSON v1: what it finishes is what the
specification describes, and there is one such text for each value up to the order of members. -/
namespace MaelysJson

open Grammar Heap

/-- Some created writer builds the value by calls that all succeed, and finishes with the bytes. -/
def Finishes (flags : UInt32) (t : Tree Numeral) (bytes : Bytes) : Prop :=
  ∃ heap h profile requested w calls, writerCreate heap profile requested flags = (.ok w, h) ∧
    (∀ c ∈ calls, c.Sourced) ∧ (∀ returned ∈ (callAll calls w).1, returned.result = .ok) ∧
    Built calls t ∧ ((WriterCall.finish true).call (callAll calls w).2).1 = ⟨.ok, some bytes⟩

variable {flags : UInt32} {t t' : Tree Numeral} {bytes bytes' : Bytes} {profile profile' : Profile}
  {limits limits' : Limits}

theorem Finishes.output (h : Finishes flags t bytes) :
    ∃ profile limits, profile ≠ .rfc8259LastWins ∧ t.Admitted profile limits [] ∧
      bytes = outputOf flags t.json := by
  obtain ⟨_, _, profile, _, w, calls, hCreate, hSourced, hOk, hBuilt, hFinish⟩ := h
  obtain ⟨t', limits, -, hBuilt', hAdmitted, hProfile, hOutput, -⟩ :=
    finish_built hCreate hSourced hOk (by rw [hFinish])
  obtain rfl := hBuilt.unique hBuilt'
  rw [hFinish] at hOutput
  exact ⟨profile, limits, hProfile, hAdmitted, Option.some.inj hOutput⟩

/-- Outputs with the same flags tell values apart, up to the order of members. -/
theorem outputOf_eq_iff (hProfile : profile ≠ .rfc8259LastWins)
    (hProfile' : profile' ≠ .rfc8259LastWins) (h : t.Admitted profile limits [])
    (h' : t'.Admitted profile' limits' []) :
    outputOf flags t.json = outputOf flags t'.json ↔ t.json.Reordered t'.json := by
  have hUnique : t.json.uniqueKeys = true := (Tree.uniqueKeys_map _ t).mpr h.unique
  have hValid : t.json.Every Utf8.Valid fun _ => True := Tree.every_map.mpr h.valid
  rw [← Tree.sorted_eq_iff hUnique hValid]
  constructor
  · intro hSame
    have hText := (@text_outputOf _ _ flags _ _ hProfile h).tolerant
    rw [hSame] at hText
    exact hText.unique (text_outputOf hProfile' h').tolerant
  · intro hSame
    rw [outputOf, outputOf, hSame]

/-- With all the memory it asks for, a writer that built the value finishes where the output has
room. -/
theorem finish_fits {heap h : Heap} {requested : Option Limits} {w : Writer} (hHeap : heap.Generous)
    (hLimits : limitsResolve requested = .ok limits)
    (hCreate : writerCreate heap profile requested flags = (.ok w, h)) {calls : List WriterCall}
    (hSourced : ∀ c ∈ calls, c.Sourced)
    (hOk : ∀ returned ∈ (callAll calls w).1, returned.result = .ok)
    (hReady : (callAll calls w).2.Ready) (hBuilt : Built calls t) :
    t.Admitted profile limits [] ∧ ((outputOf flags t.json).length ≤ limits.maximumBytes →
      ((WriterCall.finish true).call (callAll calls w).2).1 =
        ⟨.ok, some (outputOf flags t.json)⟩) := by
  obtain ⟨hCreated, hSetup₀⟩ := writerCreate_builds hHeap hLimits hCreate
  obtain ⟨d, hRun, hBuilds, hSetup⟩ := callAll_adds hCreated hSourced hOk hReady
  have hProfile : w.profile = profile := congrArg Prod.fst hSetup₀
  have hLimits₀ : w.limits = limits := congrArg (fun setup => setup.2.1) hSetup₀
  have hSetup := hSetup.trans hSetup₀
  have hLimits' : (callAll calls w).2.limits = limits := congrArg (fun setup => setup.2.1) hSetup
  have hFlags : (callAll calls w).2.flags = flags := congrArg (fun setup => setup.2.2) hSetup
  have hEvents : calls.flatMap WriterCall.adds = t.events := hBuilt
  rw [hEvents, hProfile, hLimits₀] at hRun
  obtain ⟨hAdmitted, rfl⟩ := (Draft.run_value t (by rfl) (Nat.zero_le _)).mp hRun
  refine ⟨hAdmitted, fun hFits => ?_⟩
  have hBytes : (callAll calls w).2.limits.maximumBytes < sizeMax / 2 := by
    rw [hLimits']
    exact (limitsResolve_ok hLimits).1
  obtain ⟨hIff, hOutput⟩ := @finish_accepted _ hBytes t hBuilds hAdmitted.unique hAdmitted.valid
  rw [hFlags, hLimits'] at hIff
  rw [hFlags] at hOutput
  have hOk := hIff.mpr hFits
  exact congrArg₂ Returned.mk hOk (hOutput hOk)

/-- What a writer without presentation flags finishes is Canonical JSON v1: the one text that the
specification describes for the value, returned whenever it fits, and shared by two values
exactly when they differ in the order of members only. -/
theorem canonical_form (hFlags : flags = 0 ∨ flags = finalNewlineFlag) :
    (∀ t bytes, Finishes flags t bytes → ∀ text, CanonicalText flags t text ↔ text = bytes) ∧
    (∀ t t' bytes bytes', Finishes flags t bytes → Finishes flags t' bytes' →
      (bytes = bytes' ↔ t.json.Reordered t'.json)) ∧
    ∀ (heap h : Heap) (profile : Profile) (requested : Option Limits) (limits : Limits) (w : Writer)
      (calls : List WriterCall) (t : Tree Numeral), heap.Generous →
      limitsResolve requested = .ok limits →
      writerCreate heap profile requested flags = (.ok w, h) → (∀ c ∈ calls, c.Sourced) →
      (∀ returned ∈ (callAll calls w).1, returned.result = .ok) → (callAll calls w).2.Ready →
        Built calls t →
      ∃ text, CanonicalText flags t text ∧ (text.length ≤ limits.maximumBytes →
        ((WriterCall.finish true).call (callAll calls w).2).1 = ⟨.ok, some text⟩) := by
  refine ⟨fun t bytes h text => ?_, fun t t' bytes bytes' h h' => ?_, ?_⟩
  · obtain ⟨_, _, -, hAdmitted, rfl⟩ := h.output
    exact canonicalText_iff hAdmitted hFlags text
  · obtain ⟨_, _, hProfile, hAdmitted, rfl⟩ := h.output
    obtain ⟨_, _, hProfile', hAdmitted', rfl⟩ := h'.output
    exact outputOf_eq_iff hProfile hProfile' hAdmitted hAdmitted'
  · intro heap h profile requested limits w calls t hHeap hLimits hCreate hSourced hOk hReady hBuilt
    obtain ⟨hAdmitted, hFinish⟩ := finish_fits hHeap hLimits hCreate hSourced hOk hReady hBuilt
    exact ⟨outputOf flags t.json, (canonicalText_iff hAdmitted hFlags _).mpr rfl, hFinish⟩

/-- Two orders of the members of `{"a":2,"b":1}`. -/
theorem canonical_form_pair :
    let left : Tree Numeral :=
      .object [([0x62], .number (.unsigned 1)), ([0x61], .number (.unsigned 2))]
    let right : Tree Numeral :=
    .object [([0x61], .number (.lexeme [0x32])), ([0x62], .number (.unsigned 1))]
    let text : Bytes :=
    [0x7b, 0x22, 0x61, 0x22, 0x3a, 0x32, 0x2c, 0x22, 0x62, 0x22, 0x3a, 0x31, 0x7d]
    Finishes 0 left text ∧ Finishes 0 right text ∧ CanonicalText 0 left text ∧
      left.json.Reordered right.json := by
  intro left right text
  let w := Writer.fresh .rfc8259 ⟨65535, 32, 8192⟩ 0 ⟨fun _ => true, [144, 256, 256]⟩
  obtain ⟨hReference, hInjective, -⟩ := @canonical_form 0 (Or.inl rfl)
  have hLeft : Finishes 0 left text := by
    refine ⟨⟨fun _ => true, []⟩, _, .rfc8259, none, w,
      [.objectBegin, .key (.buffer [0x62]), .u64 1, .key (.buffer [0x61]), .u64 2, .objectEnd], rfl,
      ?_, ?_, rfl, ?_⟩
    · simp [WriterCall.Sourced, WriterCall.source]
    · decide +kernel
    · decide +kernel
  have hRight : Finishes 0 right text := by
    refine ⟨⟨fun _ => true, []⟩, _, .rfc8259, none, w,
      [.objectBegin, .key (.buffer [0x61]), .numberText (.buffer [0x32]), .key (.buffer [0x62]),
        .u64 1, .objectEnd],
      rfl, ?_, ?_, rfl, ?_⟩
    · simp [WriterCall.Sourced, WriterCall.source]
    · decide +kernel
    · decide +kernel
  exact ⟨hLeft, hRight, (hReference _ _ hLeft _).mpr rfl, (hInjective _ _ _ _ hLeft hRight).mp rfl⟩

end MaelysJson
