import MaelysJson.RoundTrip.Expected

/-! The streaming check and the check that copies, serializes and compares: they agree on every
parsed document. -/
namespace MaelysJson

open Grammar Heap Utf8

/-! ### Ordered trees -/

namespace Tree

variable {ν : Type} {t : Tree ν}

/-- Nothing is left to sort. -/
theorem sorted_of_ordered (h : t.ordered = true) : t.sorted = t := by
  induction t with
  | object members ih =>
      rw [ordered_object] at h
      have hValues : (members.map fun m => (m.1, m.2.sorted)) = members := by
        conv_rhs => rw [← List.map_id members]
        exact List.map_congr_left fun m hm => Prod.ext rfl (ih m hm (h.2 m hm))
      rw [sorted_object, hValues]
      exact congrArg object
        (List.Pairwise.insertionSort_eq ((List.pairwise_map.mp h.1).imp le_of_lt))
  | array elements ih =>
      rw [ordered_array] at h
      rw [sorted_array]
      exact congrArg array
        ((List.map_congr_left fun v hv => ih v hv (h v hv)).trans (List.map_id elements))
  | string text => rfl
  | number value => rfl
  | boolean value => rfl
  | null => rfl

theorem ordered_sorted {OnNumber : ν → Prop} (hUnique : t.uniqueKeys = true)
    (hValid : t.Every Valid OnNumber) :
    t.sorted.ordered = true := by
  induction t with
  | object members ih =>
      rw [uniqueKeys_object] at hUnique
      rw [every_object] at hValid
      have hKeys : (members.map fun m => (m.1, m.2.sorted)).map Prod.fst =
          members.map Prod.fst := by
        rw [List.map_map]
        rfl
      rw [sorted_object, ordered_object]
      constructor
      · refine (increasing_iff (List.perm_insertionSort KeyLe _) (hKeys ▸ hUnique.1) ?_).mpr rfl
        exact List.forall_mem_map.mpr fun m hm => (hValid m hm).1
      · intro m hm
        rw [List.mem_insertionSort, List.mem_map] at hm
        obtain ⟨m, hm, rfl⟩ := hm
        exact ih m hm (hUnique.2 m hm) (hValid m hm).2
  | array elements ih =>
      rw [uniqueKeys_array] at hUnique
      rw [every_array] at hValid
      rw [sorted_array, ordered_array, List.forall_mem_map]
      exact fun v hv => ih v hv (hUnique v hv) (hValid v hv)
  | string text => rfl
  | number value => rfl
  | boolean value => rfl
  | null => rfl

theorem ordered_map {μ : Type} (f : ν → μ) : (t.map f).ordered = true ↔ t.ordered = true := by
  induction t with
  | object members ih =>
      rw [map_object, ordered_object, ordered_object, List.map_map, List.forall_mem_map]
      exact and_congr_right fun _ => forall₂_congr ih
  | array elements ih =>
      rw [map_array, ordered_array, ordered_array, List.forall_mem_map]
      exact forall₂_congr ih
  | string text => rfl
  | number value => rfl
  | boolean value => rfl
  | null => rfl

end Tree

/-! ### What the streaming check answers -/

variable {document : Document} {profile : Profile} {limits : Limits} {bytes : Bytes} {t : Json}
  {flags : UInt32}

/-- The check accepts the text of a value that the walk wants, if it was written as the serializer
writes it. -/
theorem Document.Represents.isCanonical (h : document.Represents profile limits bytes t)
    (hFlags : flags = 0 ∨ flags = finalNewlineFlag) :
    ∃ answer, documentIsCanonical document flags = .ok answer ∧
      (answer = true ↔ t.uniqueKeys = true ∧ Expectable t.lastWins ∧
        bytes = (t.lastWins.map rendered).spell plainLayout 0 ++ trailer flags) := by
  have hKnown : ¬flags &&& ~~~finalNewlineFlag ≠ 0 := by
    rcases hFlags with rfl | rfl <;> decide
  rw [documentIsCanonical, if_neg hKnown, h.duplicates]
  by_cases hDuplicates : t.duplicates ≠ 0
  · rw [if_pos hDuplicates]
    exact ⟨false, rfl, iff_of_false nofun fun hAll =>
      hDuplicates (Tree.duplicates_eq_zero.mpr hAll.1)⟩
  have hUnique := Tree.duplicates_eq_zero.mp (not_not.mp hDuplicates)
  have hTokens : document.tokens.length ≠ 0 := by
    rw [h.tokens]
    exact Nat.ne_of_gt t.lastWins.tokens_pos
  have hWalk := expectValue_demands h.carries.tree h.carries.every 0
  have hClaimed (cursor : Cursor) : (if flags &&& finalNewlineFlag ≠ 0 then
        (expectValue document document.tokens.length ⟨document.bytes, 0⟩ 0).bind fun cursor =>
          expectByte cursor 0x0a
      else expectValue document document.tokens.length ⟨document.bytes, 0⟩ 0) = some cursor ↔
        Expectable t.lastWins ∧
          expect ⟨bytes, 0⟩ ((t.lastWins.map rendered).spell plainLayout 0 ++ trailer flags) =
            some cursor := by
    rw [h.bytes_eq]
    rcases hFlags with rfl | rfl
    · rw [show trailer 0 = [] from rfl, List.append_nil]
      exact hWalk _ _
    · exact ((hWalk.seq (Demands.text [0x0a])) _ _).trans (and_congr_left fun _ =>
        and_iff_left trivial)
  rw [if_neg hDuplicates, if_neg hTokens, h.bytes_eq]
  rw [h.bytes_eq] at hClaimed
  simp only [hUnique, true_and]
  cases hWhole : (if flags &&& finalNewlineFlag ≠ 0 then
        (expectValue document document.tokens.length ⟨bytes, 0⟩ 0).bind fun cursor =>
          expectByte cursor 0x0a
      else expectValue document document.tokens.length ⟨bytes, 0⟩ 0) with
  | none =>
      rw [hWhole] at hClaimed
      refine ⟨false, rfl, iff_of_false nofun fun ⟨hExpectable, hBytes⟩ => ?_⟩
      exact absurd ((hClaimed _).mpr ⟨hExpectable, expect_whole hBytes⟩) nofun
  | some cursor =>
      obtain ⟨hExpectable, hExpect⟩ := (hClaimed cursor).mp hWhole
      refine ⟨_, rfl, ?_⟩
      rw [and_iff_right hExpectable, beq_iff_eq, offset_of_expect hExpect]

/-! ### What the check by copying answers -/

/-- The serializer writes a value with increasing keys as it stands. -/
theorem outputOf_ordered (h : t.ordered = true) (hFlags : flags = 0 ∨ flags = finalNewlineFlag) :
    outputOf flags t.copied.json = (t.map rendered).spell plainLayout 0 ++ trailer flags := by
  have hLayout : flagsLayout flags = plainLayout := by
    rcases hFlags with rfl | rfl <;> rfl
  have hJson : t.copied.json = t.map rendered := Tree.json_copied t
  rw [outputOf, hLayout, hJson, Tree.sorted_of_ordered ((Tree.ordered_map rendered).mpr h)]

theorem writerProfile_ne (profile : Profile) : writerProfile profile ≠ .rfc8259LastWins := by
  cases profile <;> nofun

/-- A document whose copy comes out as its own text has its members in key order, none of them
twice. -/
theorem Document.Represents.ordered (h : document.Represents profile limits bytes t)
    {limits' : Limits} {flags : UInt32}
    (hAdmitted : t.lastWins.copied.Admitted (writerProfile profile) limits' [])
    (hBytes : bytes = outputOf flags t.lastWins.copied.json) :
    t.uniqueKeys = true ∧ t.lastWins.ordered = true := by
  have hText := (@text_outputOf _ _ flags _ _ (writerProfile_ne profile) hAdmitted).tolerant
  rw [← hBytes] at hText
  have hSame : t = t.lastWins.copied.json.sorted := h.text.tolerant.unique hText
  have hUnique : t.uniqueKeys = true := by
    rw [hSame]
    exact (uniqueKeys_json_sorted _).mpr hAdmitted.unique
  rw [Tree.lastWins_of_uniqueKeys hUnique] at hSame hAdmitted ⊢
  refine ⟨hUnique, ?_⟩
  rw [hSame]
  have hValid : t.copied.json.Every Valid fun _ => True := Tree.every_map.mpr hAdmitted.valid
  exact Tree.ordered_sorted ((Tree.uniqueKeys_map _ _).mpr hAdmitted.unique) hValid

/-- The check answers yes exactly where every number is an integer and the copy of the document,
written by a writer with room for it, is the text that was parsed. -/
theorem isCanonical_agrees {heap' : Heap} {input : CText} {requested : Option Limits}
    {errorGiven : Bool}
    (hParse : (documentParse heap' input profile requested errorGiven).document = some document)
    (hFlags : flags = 0 ∨ flags = finalNewlineFlag) :
    ∃ root t answer, documentRoot document = some root ∧ documentTree document = .ok t ∧
      documentIsCanonical document flags = .ok answer ∧
      ∀ (heap h : Heap) (requested' : Option Limits) (limits' : Limits) (w : Writer),
        heap.Generous →
        limitsResolve requested' = .ok limits' → input.bytes.length ≤ limits'.maximumBytes →
        t.depth ≤ limits'.maximumDepth → t.values ≤ limits'.maximumTokens →
        writerCreate heap (writerProfile profile) requested' flags = (.ok w, h) →
        let copied := (WriterCall.value (some document) root).call w
        let finished := (WriterCall.finish true).call copied.2
        (answer = true ↔ t.Every (fun _ => True) WrittenWhole ∧ copied.1.result = .ok ∧
          finished.1.result = .ok ∧ finished.1.output = some input.bytes) := by
  obtain ⟨limits, source, -, -, -, hDocument⟩ := documentParse_represents hParse
  obtain ⟨answer, hAnswer, hIff⟩ := hDocument.isCanonical hFlags
  refine ⟨0, source.lastWins, answer, hDocument.root, hDocument.documentTree, hAnswer, ?_⟩
  intro heap h requested' limits' w hHeap hLimits hSize hDepth hValues hCreate copied finished
  have hAdmitted := hDocument.admitted_of_room hDocument.every hSize hDepth hValues
  have hCopied := writerCreate_copies hHeap hLimits hCreate hDocument.carries hAdmitted
  rw [hIff]
  constructor
  · rintro ⟨-, ⟨hOrdered, hNumbers⟩, hBytes⟩
    rw [← outputOf_ordered hOrdered hFlags] at hBytes
    have hOk := hCopied.whole.mpr (hNumbers.imp (fun _ _ => trivial) fun _ h => h.2)
    have hFinished := (hCopied.finish hOk).mpr (hBytes ▸ hSize)
    exact ⟨hNumbers.imp (fun _ _ => trivial) fun _ h => h.1, hOk, hFinished,
      hBytes ▸ hCopied.output hFinished⟩
  · rintro ⟨hWhole, hOk, hFinished, hOutput⟩
    have hBytes : input.bytes = outputOf flags source.lastWins.copied.json :=
      Option.some.inj (hOutput.symm.trans (hCopied.output hFinished))
    obtain ⟨hUnique, hOrdered⟩ := hDocument.ordered hAdmitted hBytes
    refine ⟨hUnique, ⟨hOrdered, ?_⟩, hBytes.trans (outputOf_ordered hOrdered hFlags)⟩
    exact (hWhole.and (hCopied.whole.mp hOk)).imp (fun _ _ => trivial) fun _ h => h

/-- `{"a":1,"b":[]}` is canonical, and so its copy is the same text. -/
theorem isCanonical_agrees_pair :
    let w := Writer.fresh .rfc8259 ⟨65535, 32, 8192⟩ 0 ⟨fun _ => true, [144, 256, 256]⟩
    let copied := (WriterCall.value (some pairDocument) 0).call w
    let finished := (WriterCall.finish true).call copied.2
    documentIsCanonical pairDocument 0 = .ok true ∧ copied.1.result = .ok ∧
      finished.1.result = .ok ∧ finished.1.output = some pairText := by
  intro w
  obtain ⟨root, t, answer, hRoot, hTree, hAnswer, hAgrees⟩ := @isCanonical_agrees
    pairDocument .rfc8259 0 ⟨fun _ => true, []⟩ (.buffer pairText) none true (by decide +kernel)
    (Or.inl rfl)
  obtain rfl : 0 = root := Option.some.inj hRoot
  obtain rfl : Tree.object [([0x61], .number [0x31]), ([0x62], .array [])] = t :=
    Except.ok.inj (Eq.trans (by rfl) hTree)
  have hYes : documentIsCanonical pairDocument 0 = .ok true := by decide +kernel
  have hAll := (hAgrees ⟨fun _ => true, []⟩ ⟨fun _ => true, [144, 256, 256]⟩ none ⟨65535, 32, 8192⟩
    w (fun _ => rfl) rfl (by decide) (by decide) (by decide) rfl).mp
    (Except.ok.inj (hAnswer.symm.trans hYes))
  exact ⟨hYes, hAll.2⟩

end MaelysJson
