import MaelysJson.Reading.Accessors
import MaelysJson.Reading.Completeness
import MaelysJson.Reading.Faults
import MaelysJson.Reading.Refinement
import MaelysJson.Reading.Requests

/-! A whole call of `documentParse`: with memory granted it publishes what the reader
finds, or reports the reader's fault. -/
namespace MaelysJson

open Forest Heap

/-! ### Limits and capacities -/

theorem limitsResolve_ok {requested : Option Limits} {limits : Limits}
    (h : limitsResolve requested = .ok limits) :
    limits.maximumBytes < sizeMax / 2 ∧ limits.maximumDepth ≤ maximumDepthCeiling ∧
      limits.maximumTokens ≤ sizeMax / 256 ∧ 0 < limits.maximumBytes ∧ 0 < limits.maximumDepth ∧
      0 < limits.maximumTokens := by
  simp only [limitsResolve] at h
  split_ifs at h with hBounds
  cases h
  simp only [not_or, not_lt, not_le] at hBounds
  obtain ⟨hDepth, hBytes, hTokens⟩ := hBounds
  refine ⟨hBytes, hDepth, hTokens, ?_⟩
  cases requested with
  | none => decide
  | some limits =>
      simp only
      refine ⟨?_, ?_, ?_⟩ <;> split_ifs with h0 <;>
        first | exact Nat.pos_of_ne_zero h0 | decide

/-- Resolved limits resolve to themselves. -/
theorem limitsResolve_resolved {requested : Option Limits} {limits : Limits}
    (h : limitsResolve requested = .ok limits) : limitsResolve (some limits) = .ok limits := by
  obtain ⟨hBytes, hDepth, hTokens, hBytes', hDepth', hTokens'⟩ := limitsResolve_ok h
  have hBounds : ¬(limits.maximumDepth > maximumDepthCeiling ∨ limits.maximumBytes ≥ sizeMax / 2 ∨
      limits.maximumTokens > sizeMax / 256) := by omega
  simp only [limitsResolve, if_neg hBytes'.ne', if_neg hDepth'.ne', if_neg hTokens'.ne',
    if_neg hBounds]

theorem tokenCapacityFor_spec {size : Nat} {limits : Limits}
    (hTokens : limits.maximumTokens ≤ sizeMax / 256) (hPos : 0 < limits.maximumTokens) :
    tokenCapacityFor size limits ≤ sizeMax / 256 ∧
      ∀ tokens, 0 < tokens → tokens ≤ size →
        (tokens ≤ tokenCapacityFor size limits ↔ tokens ≤ limits.maximumTokens) := by
  rw [tokenCapacityFor]
  refine ⟨?_, fun tokens hTokens hSize => ?_⟩
  · simp only [sizeMax] at *
    split_ifs <;> omega
  · split_ifs <;> omega

/-! ### The tables of a parsed text -/

/-- The reading of a parse. -/
def readingOf (bytes : Bytes) (profile : Profile) (limits : Limits) : Reading :=
  ⟨profile, bytes, limits.maximumDepth, tokenCapacityFor bytes.length limits⟩

/-- The document that the parser leaves to publication. -/
structure Document.Parsed (document : Document) (r : Reading) (s : Source) : Prop where
  shows : document.Shows (s.rows 0 none)
  marks : document.Marks (s.rows 0 none)
  offsets : ∀ i, (document.token i).childrenOffset = 0
  children : document.children = []
  bytes : document.bytes = r.bytes
  profile : document.profile = r.profile
  tokenCapacity : document.tokenCapacity = r.capacity
  arenaCapacity : document.arenaCapacity = r.bytes.length + r.capacity + 1
  duplicates : document.duplicateCount = s.json.duplicates

theorem Follows.parsed {r : Reading} {given : Option Error} {heap : Heap} {slack : Nat} {s : Source}
    {p : Parser} {place : Place} (h : Follows r given heap slack (s.rows 0 none) p place) :
    p.document.Parsed r s :=
  { shows := h.tracks.shows
    marks := h.keyed.marks
    offsets := h.tracks.offsets
    children := h.tracks.children
    bytes := h.tracks.bytes
    profile := h.tracks.documentProfile
    tokenCapacity := h.tracks.capacity
    arenaCapacity := h.tracks.arenaCapacity
    duplicates := by rw [h.keyed.duplicates, Source.repeats_rows] }

/-- Rows, marks and offsets determine the tokens and the arena. -/
theorem Document.Parsed.tables_eq {document document' : Document} {r r' : Reading} {s : Source}
    (h : document.Parsed r s) (h' : document'.Parsed r' s) :
    document.tokens = document'.tokens ∧ document.arena = document'.arena := by
  refine ⟨?_, by rw [h.shows.arena, h'.shows.arena]⟩
  refine List.ext_getElem? fun i => ?_
  by_cases hi : i < (s.rows 0 none).length
  · rw [h.shows.token_getElem? hi, h'.shows.token_getElem? hi]
    have hRow := List.getElem?_eq_getElem hi
    have hCore : (document.token i).core = (document'.token i).core := by
      rw [h.shows.core hRow, h'.shows.core hRow]
    have hLinks : (document.token i).links = (document'.token i).links := by
      have hParents : parentsOf Token.links document.tokens =
          parentsOf Token.links document'.tokens := by
        rw [h.shows.parents, h'.shows.parents]
      have hLt : i < (parentsOf Token.links document.tokens).length := by
        rwa [h.shows.length_parents]
      have hLt' : i < (parentsOf Token.links document'.tokens).length := by
        rwa [h'.shows.length_parents]
      have hFirst := (h.shows.linked.first i hLt).trans
        (hParents ▸ (h'.shows.linked.first i hLt').symm)
      have hLast := (h.shows.linked.last i hLt).trans
        (hParents ▸ (h'.shows.linked.last i hLt').symm)
      have hCount := (h.shows.linked.count i hLt).trans
        (hParents ▸ (h'.shows.linked.count i hLt').symm)
      have hNext := (h.shows.linked.next i hLt).trans
        (hParents ▸ (h'.shows.linked.next i hLt').symm)
      rw [h.shows.token_getElem? hi, h'.shows.token_getElem? hi] at hFirst hLast hCount hNext
      have hParent : (document.token i).links.parent = (document'.token i).links.parent :=
        congrArg (fun token => token.links.parent) hCore
      cases hL : (document.token i).links
      cases hL' : (document'.token i).links
      simp only [Option.bind_some, Option.map_some, Option.getD_some, hL, hL']
        at hFirst hLast hCount hNext hParent
      rw [hFirst, hLast, hCount, hNext, hParent]
    have hMark : (document.token i).superseded = (document'.token i).superseded :=
      Bool.eq_iff_iff.mpr ((h.marks i).trans (h'.marks i).symm)
    have hOffset : (document.token i).childrenOffset = (document'.token i).childrenOffset := by
      rw [h.offsets, h'.offsets]
    cases hT : document.token i
    cases hT' : document'.token i
    simp only [hT, hT', Token.core, Token.mk.injEq] at hCore hLinks hMark hOffset ⊢
    simp_all
  · rw [List.getElem?_eq_none (by rw [h.shows.length]; omega),
      List.getElem?_eq_none (by rw [h'.shows.length]; omega)]

/-- What a reader finds and the capacities of a parse determine the document. -/
theorem Document.Parsed.unique {document document' : Document} {r : Reading} {s : Source}
    (h : document.Parsed r s) (h' : document'.Parsed r s) : document = document' := by
  obtain ⟨hTokens, hArena⟩ := h.tables_eq h'
  have hChildren := h.children.trans h'.children.symm
  have hBytes := h.bytes.trans h'.bytes.symm
  have hProfile := h.profile.trans h'.profile.symm
  have hTokenCapacity := h.tokenCapacity.trans h'.tokenCapacity.symm
  have hArenaCapacity := h.arenaCapacity.trans h'.arenaCapacity.symm
  have hDuplicates := h.duplicates.trans h'.duplicates.symm
  cases document
  cases document'
  simp only [Document.mk.injEq]
  exact ⟨hProfile, hBytes, hTokens, hTokenCapacity, hArena, hArenaCapacity, hChildren, hDuplicates⟩

theorem superseded_nil (i : Nat) : ¬Superseded [] i := by
  rintro ⟨row, key, hRow, -⟩
  cases hRow

/-- The parser before it has read anything. -/
theorem follows_start {bytes : Bytes} {profile : Profile} (limits : Limits) {document : Document}
    (error : Option Error) {keys : Keyset} {heap : Heap}
    (hDocument : document =
      ⟨profile, bytes, [], tokenCapacityFor bytes.length limits, [],
        bytes.length + tokenCapacityFor bytes.length limits + 1, [], 0⟩)
    (hKeys : keys.Holds (tokenKey document) (fun _ => none))
    (hRoomy : (tokenCapacityFor bytes.length limits / 2 + 1) * 2 ≤ keys.capacity)
    (hEmpty : keys.count = 0) :
    Follows (readingOf bytes profile limits) error heap 1 []
      ⟨document, profile, limits, error, 0, keys, heap⟩ ⟨0, 0⟩ := by
  subst hDocument
  refine ⟨⟨rfl, rfl, rfl, rfl, rfl, rfl, rfl, rfl, ⟨rfl, linkedBy_nil, rfl⟩, rfl, rfl, rfl,
    fun _ => rfl⟩, ?_⟩
  refine ⟨hKeys, ?_, by rw [hEmpty]; exact Nat.zero_le _, fun i => ?_, rfl⟩
  · simp only [readingOf]
    omega
  · exact ⟨nofun, fun h => absurd h (superseded_nil i)⟩

/-! ### The call -/

/-- The error record of a call, before anything is reported. -/
def freshError (errorGiven : Bool) : Option Error :=
  if errorGiven then some ⟨.ok, 0, 0, 0⟩ else none

theorem fresh_freshError (errorGiven : Bool) : Fresh (freshError errorGiven) := by
  intro error h
  rw [freshError] at h
  split_ifs at h
  cases h
  rfl

theorem Reading.Reports.ne {r : Reading} {code : Result} (h : r.Reports code) :
    code ≠ .ok ∧ code ≠ .errState := by
  rcases h with rfl | rfl | rfl | ⟨rfl, -⟩ <;> exact ⟨nofun, nofun⟩

/-- A recorded error is the one that is reported. -/
theorem reportError_recorded {given : Option Error} {code result : Result} {bytes bytes' : Bytes}
    {offset : Nat} (hCode : code ≠ .ok) :
    reportError (errorSet given code (some bytes) bytes.length offset) result bytes' =
      errorSet given code (some bytes) bytes.length offset := by
  cases given with
  | none => rfl
  | some error => exact if_neg hCode

/-- The requests of a parse before it reads. -/
def openingSizes (size capacity : Nat) : List Nat :=
  documentSizes size capacity ++ [wrap (keysetCapacity (capacity / 2 + 1) * sizeOfSize)]

/-- What a caller sees of a call. -/
def Parsed.outcome (parsed : Parsed) : Result × Option Document × Option Error :=
  (parsed.result, parsed.document, parsed.error)

theorem Parsed.eq_of_outcome {parsed : Parsed} {result : Result} {document : Option Document}
    {error : Option Error} {heap : Heap}
    (h : (parsed.outcome, parsed.heap) = ((result, document, error), heap)) :
    parsed = ⟨result, document, error, heap⟩ := by
  cases parsed
  cases h
  rfl

/-- What `documentParse` does once the document and the key set are there. -/
def parseOpened (bytes : Bytes) (p : Parser) : Parsed :=
  match parseRoot p with
  | .error result q => ⟨result, none, reportError q.error result bytes, q.heap⟩
  | .ok _ q =>
      match publishDocument q.document q.heap with
      | (.ok, document, heap) => ⟨.ok, some document, q.error, heap⟩
      | (result, _, heap) => ⟨result, none, reportError q.error result bytes, heap⟩

/-- The outcome of a refused request. -/
def refusedOutcome (errorGiven : Bool) (bytes : Bytes) : Result × Option Document × Option Error :=
  (.errMemory, none, errorSet (freshError errorGiven) .errMemory (some bytes) bytes.length 0)

theorem reportError_fresh (errorGiven : Bool) (result : Result) (bytes : Bytes) :
    reportError (freshError errorGiven) result bytes =
      errorSet (freshError errorGiven) result (some bytes) bytes.length 0 := by
  cases errorGiven <;> rfl

/-- The parser when its document and its key set are there. -/
def openedParser (bytes : Bytes) (profile : Profile) (limits : Limits) (errorGiven : Bool)
    (keys : Keyset) (heap : Heap) : Parser :=
  ⟨emptyDocument bytes profile (tokenCapacityFor bytes.length limits), profile, limits,
    freshError errorGiven, 0, keys, heap⟩

section

variable {bytes : Bytes} {profile : Profile} {limits : Limits} {errorGiven : Bool} {keys : Keyset}

/-- Reading leaves the heap alone. -/
theorem parseRoot_opened
    (hKeys : keys.Holds
      (tokenKey (emptyDocument bytes profile (tokenCapacityFor bytes.length limits)))
        (fun _ => none))
    (hRoomy : (tokenCapacityFor bytes.length limits / 2 + 1) * 2 ≤ keys.capacity)
    (hEmpty : keys.count = 0) (heap : Heap) :
    match (readingOf bytes profile limits).readText with
    | .ok s => ∃ p, parseRoot (openedParser bytes profile limits errorGiven keys heap) = .ok () p ∧
        p.document.Parsed (readingOf bytes profile limits) s ∧ p.heap = heap ∧
        p.error = freshError errorGiven
    | .error fault => ∃ p, parseRoot (openedParser bytes profile limits errorGiven keys heap) =
          .error fault.code p ∧ p.heap = heap ∧
        reportError p.error fault.code bytes =
          errorSet (freshError errorGiven) fault.code (some bytes) bytes.length fault.offset := by
  have hStart : Follows (readingOf bytes profile limits) (freshError errorGiven) heap 1 []
      (openedParser bytes profile limits errorGiven keys heap) ⟨0, 0⟩ :=
    follows_start limits (freshError errorGiven) rfl hKeys hRoomy hEmpty
  have hRun := parseRoot_follows (fresh_freshError errorGiven) hStart
  cases hRead : (readingOf bytes profile limits).readText with
  | error fault =>
      cases hRoot : parseRoot (openedParser bytes profile limits errorGiven keys heap) with
      | ok _ p =>
          rw [hRoot, hRead] at hRun
          exact hRun.elim
      | error result p =>
          rw [hRoot, hRead] at hRun
          obtain ⟨hOk, hState⟩ := (Reading.readText_reports hRead).ne
          have hError := hRun.error hState
          simp only [readingOf] at hError
          refine ⟨p, by rw [hRun.code], hRun.heap, ?_⟩
          rw [hError, reportError_recorded hOk]
  | ok s =>
      cases hRoot : parseRoot (openedParser bytes profile limits errorGiven keys heap) with
      | error result p =>
          rw [hRoot, hRead] at hRun
          exact hRun.elim
      | ok _ p =>
          rw [hRoot, hRead] at hRun
          obtain ⟨place, hFollows⟩ := hRun
          exact ⟨p, rfl, hFollows.parsed, hFollows.tracks.heap, hFollows.tracks.error⟩

/-- Of what follows, only the publication asks for memory. -/
theorem parseOpened_asks
    (hKeys : keys.Holds
      (tokenKey (emptyDocument bytes profile (tokenCapacityFor bytes.length limits)))
        (fun _ => none))
    (hRoomy : (tokenCapacityFor bytes.length limits / 2 + 1) * 2 ≤ keys.capacity)
    (hEmpty : keys.count = 0) :
    let run (heap : Heap) :=
      parseOpened bytes (openedParser bytes profile limits errorGiven keys heap)
    match (readingOf bytes profile limits).readText with
    | .ok s => ∃ parsed : Document, parsed.Parsed (readingOf bytes profile limits) s ∧
        Asks (fun heap => ((run heap).outcome, (run heap).heap)) (publishedSizes parsed)
          (.ok, some (laidOut (surviving parsed)), freshError errorGiven)
          (· = refusedOutcome errorGiven bytes)
    | .error fault => Asks (fun heap => ((run heap).outcome, (run heap).heap)) []
        (fault.code, none,
          errorSet (freshError errorGiven) fault.code (some bytes) bytes.length fault.offset)
        (· = refusedOutcome errorGiven bytes) := by
  intro run
  have hRun := @parseRoot_opened bytes profile limits errorGiven keys hKeys hRoomy hEmpty
  cases hRead : (readingOf bytes profile limits).readText with
  | error fault =>
      rw [hRead] at hRun
      refine (Asks.pure _ _).congr fun heap => ?_
      obtain ⟨p, hRoot, hHeap, hError⟩ := hRun heap
      simp only [run, parseOpened, hRoot, Parsed.outcome, hHeap]
      rw [← hError]
  | ok s =>
      rw [hRead] at hRun
      obtain ⟨q, -, hParsed, -, -⟩ := hRun ⟨fun _ => true, []⟩
      refine ⟨q.document, hParsed, ?_⟩
      have hPublish := (publishDocument_asks q.document).bind
        (fun published heap =>
          (if published.1 = .ok then (Result.ok, some published.2, freshError errorGiven)
            else (published.1, none, reportError (freshError errorGiven) published.1 bytes), heap))
        (Asks.pure _ (· = refusedOutcome errorGiven bytes)) ?_
      · rw [List.append_nil] at hPublish
        refine hPublish.congr fun heap => ?_
        obtain ⟨p, hRoot, hSame, hHeap, hError⟩ := hRun heap
        simp only [run, parseOpened, hRoot, hSame.unique hParsed, hHeap, hError]
        rcases publishDocument q.document heap with ⟨_ | _, document, heap⟩ <;> rfl
      · rintro ⟨result, document⟩ (rfl : result = .errMemory)
        exact ⟨_, rfl, fun heap => by simp [refusedOutcome, reportError_fresh]⟩

end

/-- The requests and the outcome of a call with valid arguments, in terms of the reader. -/
theorem documentParse_asks {bytes : Bytes} {profile : Profile} {requested : Option Limits}
    {limits : Limits} {bound : Nat} (hLimits : limitsResolve requested = .ok limits)
    (hSize : bytes.length ≤ limits.maximumBytes)
    (hBound : documentParseAllocationBound bytes.length profile requested = .ok bound)
    (errorGiven : Bool) :
    let run (heap : Heap) := documentParse heap (.buffer bytes) profile requested errorGiven
    let opening := openingSizes bytes.length (tokenCapacityFor bytes.length limits)
    match (readingOf bytes profile limits).readText with
    | .ok s => ∃ parsed : Document, parsed.Parsed (readingOf bytes profile limits) s ∧
        Asks (fun heap => ((run heap).outcome, (run heap).heap)) (opening ++ publishedSizes parsed)
          (.ok, some (laidOut (surviving parsed)), freshError errorGiven)
          (· = refusedOutcome errorGiven bytes)
    | .error fault => Asks (fun heap => ((run heap).outcome, (run heap).heap)) opening
        (fault.code, none,
          errorSet (freshError errorGiven) fault.code (some bytes) bytes.length fault.offset)
        (· = refusedOutcome errorGiven bytes) := by
  obtain ⟨hBytes, -, hTokens, -, -, hPos⟩ := limitsResolve_ok hLimits
  have hBound' : documentParseAllocationBound bytes.length profile (some limits) = .ok bound := by
    simp only [documentParseAllocationBound, limitsResolve_resolved hLimits]
    simpa only [documentParseAllocationBound, hLimits] using hBound
  have hArgument : ¬((CText.buffer bytes = .null (CText.buffer bytes).size ∧
      (CText.buffer bytes).size ≠ 0) ∨ (CText.buffer bytes).size = sizeMax) := by
    rintro (⟨h, -⟩ | h)
    · cases h
    · rw [CText.size] at h
      simp only [sizeMax] at *
      omega
  have hCapacity := (@tokenCapacityFor_spec bytes.length _ hTokens hPos).1
  obtain ⟨hKeys, hRoomy⟩ := @emptyKeyset_holds (tokenCapacityFor bytes.length limits / 2 + 1)
    (by simp only [sizeMax] at hCapacity; omega)
    (tokenKey (emptyDocument bytes profile (tokenCapacityFor bytes.length limits)))
  intro run opening
  -- the three stages of the call, each left at its first refusal
  let parse (document : Document) (keys : Keyset) (heap : Heap) :=
    let opened := parseOpened bytes ⟨document, profile, limits, freshError errorGiven, 0,
      keys, heap⟩
    (opened.outcome, opened.heap)
  let withKeys (document : Document) (opened : Result × Keyset) (heap : Heap) :=
    if opened.1 = .ok then parse document opened.2 heap
    else ((opened.1, none, reportError (freshError errorGiven) opened.1 bytes), heap)
  let withDocument (document : Option Document)
    (heap : Heap) := document.elim (refusedOutcome errorGiven bytes, heap) fun document =>
      withKeys document ((keysetInit heap (document.tokenCapacity / 2 + 1)).1,
        (keysetInit heap (document.tokenCapacity / 2 + 1)).2.1)
        (keysetInit heap (document.tokenCapacity / 2 + 1)).2.2
  have hStages (heap : Heap) : ((run heap).outcome, (run heap).heap) =
      withDocument (allocateDocument heap bytes limits profile).1
        (allocateDocument heap bytes limits profile).2 := by
    simp only [run, documentParse, hLimits, if_neg hArgument]
    rw [if_neg (show ¬(CText.buffer bytes).size > limits.maximumBytes from not_lt.mpr hSize)]
    simp only [hBound', CText.bytes, CText.size]
    rcases allocateDocument heap bytes limits profile with ⟨_ | document, heap⟩
    · rfl
    · rcases hKeyset : keysetInit heap (document.tokenCapacity / 2 + 1) with ⟨_ | _, keys, heap⟩ <;>
        simp only [withDocument, Option.elim, hKeyset] <;> rfl
  have hAll {sizes : List Nat} {value : Result × Option Document × Option Error}
      (hParse : Asks (parse (emptyDocument bytes profile (tokenCapacityFor bytes.length limits))
        (emptyKeyset (tokenCapacityFor bytes.length limits / 2 + 1))) sizes value
        (· = refusedOutcome errorGiven bytes)) :
      Asks (fun heap => ((run heap).outcome, (run heap).heap)) (opening ++ sizes) value
        (· = refusedOutcome errorGiven bytes) := by
    have hKeyset := (keysetInit_asks (tokenCapacityFor bytes.length limits / 2 + 1)).bind
      (withKeys (emptyDocument bytes profile (tokenCapacityFor bytes.length limits))) hParse ?_
    · have hDocument := (allocateDocument_asks bytes limits profile).bind withDocument hKeyset ?_
      · rw [← List.append_assoc] at hDocument
        exact hDocument.congr hStages
      · rintro _ rfl
        exact ⟨_, rfl, fun heap => rfl⟩
    · rintro ⟨result, keys⟩ (rfl : result = .errMemory)
      exact ⟨_, rfl, fun heap => by simp only [withKeys, refusedOutcome, reportError_fresh]; rfl⟩
  have hOpened := @parseOpened_asks bytes profile limits errorGiven _ hKeys hRoomy rfl
  cases hRead : (readingOf bytes profile limits).readText with
  | error fault =>
      rw [hRead] at hOpened
      have hParse := hAll hOpened
      rwa [List.append_nil] at hParse
  | ok s =>
      rw [hRead] at hOpened
      obtain ⟨parsed, hParsed, hOpened⟩ := hOpened
      exact ⟨parsed, hParsed, hAll hOpened⟩

/-- What a call with granted memory and valid arguments does, in terms of the reader. -/
theorem documentParse_reads {heap : Heap} (hHeap : heap.Generous) {bytes : Bytes}
    {profile : Profile} {requested : Option Limits} {limits : Limits} {bound : Nat}
    (hLimits : limitsResolve requested = .ok limits) (hSize : bytes.length ≤ limits.maximumBytes)
    (hBound : documentParseAllocationBound bytes.length profile requested = .ok bound)
    (errorGiven : Bool) :
    match (readingOf bytes profile limits).readText with
    | .ok s => ∃ parsed heap' published heap'', parsed.Parsed (readingOf bytes profile limits) s ∧
        heap'.Generous ∧ publishDocument parsed heap' = (.ok, published, heap'') ∧
        documentParse heap (.buffer bytes) profile requested errorGiven =
          ⟨.ok, some published, freshError errorGiven, heap''⟩
    | .error fault => ∃ heap', documentParse heap (.buffer bytes) profile requested errorGiven =
        ⟨fault.code, none,
          errorSet (freshError errorGiven) fault.code (some bytes) bytes.length fault.offset,
            heap'⟩ := by
  have hAsks := documentParse_asks hLimits hSize hBound errorGiven
  simp only at hAsks
  cases hRead : (readingOf bytes profile limits).readText with
  | error fault =>
      rw [hRead] at hAsks
      exact ⟨_, Parsed.eq_of_outcome (hAsks.granted heap (hHeap.grants _))⟩
  | ok s =>
      rw [hRead] at hAsks
      obtain ⟨parsed, hParsed, hAsks⟩ := hAsks
      have hBefore := hHeap.after (openingSizes bytes.length (tokenCapacityFor bytes.length limits))
      have hPublish := (publishDocument_asks parsed).granted _ (hBefore.grants _)
      rw [Prod.mk.injEq, Prod.mk.injEq] at hPublish
      obtain ⟨⟨hResult, hPublished⟩, hAfter⟩ := hPublish
      refine ⟨parsed, _, laidOut (surviving parsed), _, hParsed, hBefore, Prod.ext hResult
        (Prod.ext hPublished hAfter), ?_⟩
      have hRun := Parsed.eq_of_outcome (hAsks.granted heap (hHeap.grants _))
      rwa [← after_after] at hRun

/-! ### Any call -/

/-- No text at all is the empty text. -/
theorem documentParse_null (heap : Heap) (profile : Profile) (requested : Option Limits)
    (errorGiven : Bool) :
    documentParse heap (.null 0) profile requested errorGiven =
      documentParse heap (.buffer []) profile requested errorGiven := by
  have hNull : ¬((CText.null 0 = .null (CText.null 0).size ∧ (CText.null 0).size ≠ 0) ∨
      (CText.null 0).size = sizeMax) := by
    rintro (⟨-, h⟩ | h)
    · exact h rfl
    · exact absurd h (by decide)
  have hBuffer : ¬((CText.buffer [] = .null (CText.buffer []).size ∧ (CText.buffer []).size ≠ 0) ∨
      (CText.buffer []).size = sizeMax) := by
    rintro (⟨h, -⟩ | h)
    · cases h
    · exact absurd h (by decide)
  simp only [documentParse, if_neg hNull, if_neg hBuffer]
  rfl

theorem documentParseAllocationBound_error {size : Nat} {profile : Profile}
    {requested : Option Limits} {code : Result}
    (h : documentParseAllocationBound size profile requested = .error code) :
    code = .errArgument ∨ code = .errLimit := by
  rw [documentParseAllocationBound] at h
  cases hLimits : limitsResolve requested with
  | error _ =>
      rw [hLimits] at h
      exact Or.inl (Except.error.inj h).symm
  | ok limits =>
      rw [hLimits] at h
      simp only at h
      by_cases hMax : size = sizeMax
      · rw [if_pos hMax] at h
        exact Or.inl (Except.error.inj h).symm
      · by_cases hSize : size > limits.maximumBytes
        · rw [if_neg hMax, if_pos hSize] at h
          exact Or.inr (Except.error.inj h).symm
        · rw [if_neg hMax, if_neg hSize] at h
          split at h
          · exact Or.inr (Except.error.inj h).symm
          · cases h

theorem documentParseAllocationBound_size {size : Nat} {profile : Profile}
    {requested : Option Limits} {limits : Limits} {bound : Nat}
    (hLimits : limitsResolve requested = .ok limits)
    (hBound : documentParseAllocationBound size profile requested = .ok bound) :
    size ≤ limits.maximumBytes := by
  simp only [documentParseAllocationBound, hLimits] at hBound
  by_cases hMax : size = sizeMax
  · rw [if_pos hMax] at hBound
    cases hBound
  by_cases hSize : size > limits.maximumBytes
  · rw [if_neg hMax, if_pos hSize] at hBound
    cases hBound
  · exact Nat.le_of_not_gt hSize

/-- A call proceeds as with a buffer of the same bytes, or its arguments are refused before any
request is made, with an error at the start. -/
theorem documentParse_starts (input : CText) (profile : Profile) (requested : Option Limits)
    (errorGiven : Bool) :
    (∃ limits bound, limitsResolve requested = .ok limits ∧
        input.bytes.length ≤ limits.maximumBytes ∧
        documentParseAllocationBound input.bytes.length profile requested = .ok bound ∧
        ∀ heap, documentParse heap input profile requested errorGiven =
          documentParse heap (.buffer input.bytes) profile requested errorGiven) ∨
      ∃ result text size, (result = .errArgument ∨ result = .errLimit) ∧
        ∀ heap, documentParse heap input profile requested errorGiven =
          ⟨result, none, errorSet (freshError errorGiven) result text size 0, heap⟩ := by
  cases hLimits : limitsResolve requested with
  | error code =>
      refine Or.inr ⟨.errArgument, none, 0, Or.inl rfl, fun heap => ?_⟩
      simp only [documentParse, hLimits]
      rfl
  | ok limits =>
      by_cases hArgument : (input = .null input.size ∧ input.size ≠ 0) ∨ input.size = sizeMax
      · refine Or.inr ⟨.errArgument, none, 0, Or.inl rfl, fun heap => ?_⟩
        simp only [documentParse, hLimits, if_pos hArgument]
        rfl
      by_cases hSize : input.size > limits.maximumBytes
      · refine Or.inr ⟨.errLimit, some input.bytes, input.size, Or.inr rfl, fun heap => ?_⟩
        simp only [documentParse, hLimits, if_neg hArgument, if_pos hSize]
        rfl
      have hSame : input.size = input.bytes.length ∧
          ∀ heap, documentParse heap input profile requested errorGiven =
          documentParse heap (.buffer input.bytes) profile requested errorGiven := by
        cases input with
        | buffer bytes => exact ⟨rfl, fun _ => rfl⟩
        | null size =>
            obtain rfl : size = 0 := by
              by_contra hSize
              exact hArgument (Or.inl ⟨rfl, hSize⟩)
            exact ⟨rfl, fun heap => documentParse_null heap profile requested errorGiven⟩
      have hResolved : documentParseAllocationBound input.size profile (some limits) =
          documentParseAllocationBound input.size profile requested := by
        simp only [documentParseAllocationBound, hLimits, limitsResolve_resolved hLimits]
      cases hBound : documentParseAllocationBound input.size profile requested with
      | ok bound =>
          refine Or.inl ⟨limits, bound, rfl, ?_, ?_, hSame.2⟩
          · rw [← hSame.1]
            exact not_lt.mp hSize
          · rw [← hSame.1, hBound]
      | error code =>
          refine Or.inr ⟨code, some input.bytes, input.size,
            documentParseAllocationBound_error hBound, fun heap => ?_⟩
          simp only [documentParse, hLimits, if_neg hArgument, if_neg hSize, hResolved, hBound]
          rfl

/-- A call goes on to read its text, or its arguments are refused before any memory is asked for. -/
theorem documentParse_arguments (input : CText) (profile : Profile) (requested : Option Limits)
    (errorGiven : Bool) :
    (∃ limits bound, limitsResolve requested = .ok limits ∧
        input.bytes.length ≤ limits.maximumBytes ∧
        documentParseAllocationBound input.bytes.length profile requested = .ok bound ∧
        ∀ heap, documentParse heap input profile requested errorGiven =
          documentParse heap (.buffer input.bytes) profile requested errorGiven) ∨
      ∃ result error, (result = .errArgument ∨ result = .errLimit) ∧
        ∀ heap, documentParse heap input profile requested errorGiven =
          ⟨result, none, error, heap⟩ := by
  rcases documentParse_starts input profile requested errorGiven with
    hStarts | ⟨result, text, size, hResult, hRefused⟩
  · exact Or.inl hStarts
  · exact Or.inr ⟨result, _, hResult, hRefused⟩

/-- Every document that a call returns was read and published, whatever the heap grants. -/
theorem documentParse_returns {heap : Heap} {input : CText} {profile : Profile}
    {requested : Option Limits} {errorGiven : Bool} {document : Document}
    (h : (documentParse heap input profile requested errorGiven).document = some document) :
    ∃ limits s, ∃ survivor : Source, limitsResolve requested = .ok limits ∧
      (readingOf input.bytes profile limits).readText = .ok s ∧
      document.Published (survivor.rows 0 none) ∧
      survivor.json = s.json.lastWins ∧ document.bytes = input.bytes ∧ document.profile = profile ∧
      document.duplicateCount = s.json.duplicates := by
  rcases documentParse_arguments input profile requested errorGiven with
    ⟨limits, bound, hLimits, hSize, hBound, hSame⟩ | ⟨result, error, -, hRefused⟩
  · rw [hSame] at h
    have hAsks := documentParse_asks hLimits hSize hBound errorGiven
    simp only at hAsks
    cases hRead : (readingOf input.bytes profile limits).readText with
    | error fault =>
        rw [hRead] at hAsks
        rcases hAsks.ends heap with hRun | hRun
        · cases (congrArg (fun outcome => outcome.2.1) hRun).symm.trans h
        · cases (congrArg (fun outcome => outcome.2.1) hRun).symm.trans h
    | ok s =>
        rw [hRead] at hAsks
        obtain ⟨parsed, hParsed, hAsks⟩ := hAsks
        obtain rfl : laidOut (surviving parsed) = document := by
          rcases hAsks.ends heap with hRun | hRun
          · exact Option.some.inj ((congrArg (fun outcome => outcome.2.1) hRun).symm.trans h)
          · cases (congrArg (fun outcome => outcome.2.1) hRun).symm.trans h
        obtain ⟨published, heap', survivor, hPublish, hPublished, hSurvivor, -, hBytes,
          hProfile, hCount⟩ :=
          publishDocument_published heap.unlimited_generous hParsed.shows hParsed.marks
            hParsed.duplicates
        have hSame := (publishDocument_asks parsed).granted _ (heap.unlimited_generous.grants _)
        rw [hPublish] at hSame
        obtain rfl : published = laidOut (surviving parsed) := congrArg (fun ran => ran.1.2) hSame
        exact ⟨limits, s, survivor, hLimits, hRead, hPublished, hSurvivor,
          hBytes.trans hParsed.bytes, hProfile.trans hParsed.profile,
          hCount.trans hParsed.duplicates⟩
  · rw [hRefused] at h
    cases h

end MaelysJson
