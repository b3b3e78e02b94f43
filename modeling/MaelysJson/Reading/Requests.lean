import MaelysJson.Memory.Requests
import MaelysJson.Reading.Publication

/-! The memory that a parse asks for: the document with its three buffers, the slots
of the key set, the compacted tables and the children. -/
namespace MaelysJson

open Forest Heap

/-! ### Allocation -/

/-- The requests of `allocateDocument`. -/
def documentSizes (size capacity : Nat) : List Nat :=
  [sizeOfDocument, size + 1, capacity * sizeOfToken, size + capacity + 1]

/-- The document before anything is read. -/
def emptyDocument (bytes : Bytes) (profile : Profile) (capacity : Nat) : Document :=
  ⟨profile, bytes, [], capacity, [], bytes.length + capacity + 1, [], 0⟩

/-- The second half of `allocateDocument`: the three buffers, requested together. -/
def allocateBuffers (bytes : Bytes) (profile : Profile) (capacity : Nat) (heap : Heap) :
    Option Document × Heap :=
  let (bytesGranted, heap) := heap.request (bytes.length + 1)
  let (tokensGranted, heap) := heap.request (capacity * sizeOfToken)
  let (arenaGranted, heap) := heap.request (bytes.length + capacity + 1)
  if bytesGranted && tokensGranted && arenaGranted then
    (some (emptyDocument bytes profile capacity), heap)
  else (none, heap)

theorem allocateBuffers_asks (bytes : Bytes) (profile : Profile) (capacity : Nat) :
    Asks (allocateBuffers bytes profile capacity)
      [bytes.length + 1, capacity * sizeOfToken, bytes.length + capacity + 1]
      (some (emptyDocument bytes profile capacity)) (· = none) := by
  refine Asks.together none (fun heap => ?_) rfl
  simp only [allocateBuffers, request_eq, after_after, List.cons_append, grants_cons,
    grants_nil, and_true, Bool.and_eq_true, and_assoc]
  split_ifs <;> rfl

theorem allocateDocument_asks (bytes : Bytes) (limits : Limits) (profile : Profile) :
    Asks (fun heap => allocateDocument heap bytes limits profile)
      (documentSizes bytes.length (tokenCapacityFor bytes.length limits))
      (some (emptyDocument bytes profile (tokenCapacityFor bytes.length limits))) (· = none) := by
  have hFirst : Asks (fun heap => heap.request sizeOfDocument) [sizeOfDocument] true
      (· = false) := by
    refine Asks.together false (fun heap => ?_) rfl
    by_cases h : heap.Grants [sizeOfDocument]
    · rw [if_pos h, request_eq, (grants_singleton _ _).mp h]
    · rw [if_neg h, request_eq, Bool.eq_false_iff.mpr fun hTrue =>
        h ((grants_singleton _ _).mpr hTrue)]
  have hBoth := hFirst.bind
    (fun granted heap => if granted then
      allocateBuffers bytes profile (tokenCapacityFor bytes.length limits) heap else (none, heap))
    (allocateBuffers_asks bytes profile (tokenCapacityFor bytes.length limits))
    fun granted hGranted => ⟨none, rfl, fun heap => by rw [hGranted]; rfl⟩
  exact hBoth

/-- The key set that `keysetInit` leaves when memory allows. -/
def emptyKeyset (expected : Nat) : Keyset :=
  ⟨List.replicate (keysetCapacity expected) none, keysetCapacity expected, 0⟩

theorem emptyKeyset_holds {expected : Nat} (h : expected ≤ 2 ^ 60) (keyOf : Nat → KeysetKey) :
    (emptyKeyset expected).Holds keyOf (fun _ => none) ∧
    expected * 2 ≤ (emptyKeyset expected).capacity := by
  obtain ⟨set, hInit, hHolds, hRoomy, -⟩ :=
    @keysetInit_holds ⟨fun _ => true, []⟩ expected h rfl keyOf
  obtain rfl : set = emptyKeyset expected := (congrArg (fun opened => opened.2.1) hInit).symm
  exact ⟨hHolds, hRoomy⟩

theorem keysetInit_asks (expected : Nat) :
    Asks (fun heap => (((keysetInit heap expected).1, (keysetInit heap expected).2.1),
        (keysetInit heap expected).2.2))
      [wrap (keysetCapacity expected * sizeOfSize)] (.ok, emptyKeyset expected)
        (·.1 = .errMemory) := by
  refine Asks.together (.errMemory, ⟨[], keysetCapacity expected, 0⟩) (fun heap => ?_) rfl
  rw [keysetInit, allocateSlots, request_eq]
  by_cases h : heap.Grants [wrap (keysetCapacity expected * sizeOfSize)]
  · rw [if_pos h, (grants_singleton _ _).mp h]
    rfl
  · rw [if_neg h, Bool.eq_false_iff.mpr fun hTrue => h ((grants_singleton _ _).mpr hTrue)]
    rfl

/-! ### Publication -/

/-- The two requests of a compaction. -/
def compactedSizes (document : Document) : List Nat :=
  let sized := compactWalk document document.tokens.length 0 none ⟨none, 0, [], 0⟩
  [sized.tokenCount * sizeOfToken, if sized.arenaUsed ≠ 0 then sized.arenaUsed else 1]

/-- The document with its compacted tables. -/
def compacted (document : Document) : Document :=
  let sized := compactWalk document document.tokens.length 0 none ⟨none, 0, [], 0⟩
  let packed := compactWalk document document.tokens.length 0 none ⟨some [], 0, [], 0⟩
  { document with
    tokens := packed.tokens.getD []
    tokenCapacity := sized.tokenCount
    arena := packed.arena
    arenaCapacity := if sized.arenaUsed ≠ 0 then sized.arenaUsed else 1 }

/-- The document with its children laid out. -/
def laidOut (document : Document) : Document :=
  (List.range document.tokens.length).foldl layOutChildren { document with children := [] }

/-- What `publishDocument` lays out. -/
def surviving (document : Document) : Document :=
  if document.duplicateCount ≠ 0 then compacted document else document

/-- The requests of `publishDocument`. -/
def publishedSizes (document : Document) : List Nat :=
  (if document.duplicateCount ≠ 0 then compactedSizes document else []) ++
    [(surviving document).tokens.length * sizeOfSize]

theorem compactDocument_asks (document : Document) :
    Asks (fun heap => (((compactDocument document heap).1, (compactDocument document heap).2.1),
        (compactDocument document heap).2.2))
      (compactedSizes document) (.ok, compacted document) (·.1 = .errMemory) := by
  refine Asks.together (.errMemory, document) (fun heap => ?_) rfl
  have hGrants : heap.Grants (compactedSizes document) ↔ heap.grant heap.requests.length = true ∧
      heap.grant (heap.requests.length + 1) = true := by
    simp only [compactedSizes, grants_cons, grants_nil, and_true, Heap.after, List.length_append,
      List.length_singleton]
  have hLength (size : Nat) : (heap.after [size]).requests.length = heap.requests.length + 1 := by
    rw [Heap.after, List.length_append, List.length_singleton]
  have hGrant (size : Nat) : (heap.after [size]).grant = heap.grant := rfl
  simp only [compactDocument, request_eq, after_after, hLength, hGrant, Bool.and_eq_true]
  by_cases h : heap.grant heap.requests.length = true ∧ heap.grant (heap.requests.length + 1) = true
  · rw [if_pos (hGrants.mpr h), if_pos h]
    rfl
  · rw [if_neg (mt hGrants.mp h), if_neg h]
    rfl

theorem buildChildren_asks (document : Document) :
    Asks (fun heap => (((buildChildren document heap).1, (buildChildren document heap).2.1),
        (buildChildren document heap).2.2))
      [document.tokens.length * sizeOfSize] (.ok, laidOut document) (·.1 = .errMemory) := by
  refine Asks.together (.errMemory, document) (fun heap => ?_) rfl
  by_cases h : heap.grant heap.requests.length = true
  · simp only [buildChildren, laidOut, request_eq, grants_singleton, h, if_true]
  · simp only [buildChildren, request_eq, grants_singleton, h, if_false, Bool.false_eq_true]

theorem publishDocument_asks (document : Document) :
    Asks (fun heap => (((publishDocument document heap).1, (publishDocument document heap).2.1),
        (publishDocument document heap).2.2))
      (publishedSizes document) (.ok, laidOut (surviving document)) (·.1 = .errMemory) := by
  rw [publishedSizes, surviving]
  by_cases hDuplicates : document.duplicateCount ≠ 0
  · rw [if_pos hDuplicates, if_pos hDuplicates]
    have hBoth := (compactDocument_asks document).bind
      (fun compacted heap => if compacted.1 = .ok then
        (((buildChildren compacted.2 heap).1, (buildChildren compacted.2 heap).2.1),
          (buildChildren compacted.2 heap).2.2) else (compacted, heap))
      (buildChildren_asks (compacted document))
      fun a hRefused => ⟨a, hRefused, fun heap => by rw [if_neg (by rw [hRefused]; nofun)]⟩
    refine hBoth.congr fun heap => ?_
    simp only [publishDocument, if_pos hDuplicates]
    split_ifs <;> rfl
  · rw [if_neg hDuplicates, if_neg hDuplicates, List.nil_append]
    refine (buildChildren_asks document).congr fun heap => ?_
    simp only [publishDocument, if_neg hDuplicates, if_true]

end MaelysJson
