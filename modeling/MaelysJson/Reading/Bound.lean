import MaelysJson.Reading.Language

/-! The bound on the memory of a parse: exact arithmetic below `SIZE_MAX`, and no parse
of a text of that size asks for more, however it ends. -/
namespace MaelysJson

open Forest Heap

/-! ### The sum -/

/-- The sizes that `documentParseAllocationBound` adds up, over the natural numbers. -/
def allocationSizes (size : Nat) (profile : Profile) (limits : Limits) : List Nat :=
  let tokens := tokenCapacityFor size limits
  let copies := if profile = .rfc8259LastWins then 2 else 1
  [sizeOfDocument, size + 1] ++ List.replicate copies (tokens * sizeOfToken) ++
    List.replicate copies (size + tokens + 1) ++
    [slotsFor (tokens / 2 + 1) * sizeOfSize, tokens * sizeOfSize]

def allocationSum (size : Nat) (profile : Profile) (limits : Limits) : Nat :=
  (allocationSizes size profile limits).sum

theorem allocationSum_eq (size : Nat) (profile : Profile) (limits : Limits) :
    allocationSum size profile limits =
      sizeOfDocument + (size + 1) +
        (if profile = .rfc8259LastWins then 2 else 1) *
          (tokenCapacityFor size limits * sizeOfToken) +
        (if profile = .rfc8259LastWins then 2 else 1) * (size + tokenCapacityFor size limits + 1) +
        slotsFor (tokenCapacityFor size limits / 2 + 1) * sizeOfSize +
        tokenCapacityFor size limits * sizeOfSize := by
  simp only [allocationSum, allocationSizes, List.sum_append, List.sum_cons, List.sum_nil,
    List.sum_replicate, smul_eq_mul]
  omega

/-- The loop of sums gives up exactly when the sum passes `SIZE_MAX`. -/
theorem foldl_addBounded (sizes : List Nat) {total : Nat} (hTotal : total ≤ sizeMax) :
    sizes.foldl addBounded (some total) =
      if total + sizes.sum ≤ sizeMax then some (total + sizes.sum) else none := by
  have hNone (sizes : List Nat) : sizes.foldl addBounded none = none := by
    induction sizes with
    | nil => rfl
    | cons size sizes ih => exact ih
  induction sizes generalizing total with
  | nil => rw [List.foldl_nil, List.sum_nil, Nat.add_zero, if_pos hTotal]
  | cons size sizes ih =>
      rw [List.foldl_cons, addBounded, Option.bind_some, List.sum_cons, ← Nat.add_assoc]
      by_cases hSize : size > sizeMax - total
      · rw [if_pos hSize, hNone, if_neg (by omega)]
      · have hWrap : wrap (total + size) = total + size :=
          Nat.mod_eq_of_lt (by simp only [sizeMax] at *; omega)
        rw [if_neg hSize, hWrap, ih (by omega)]

/-- None of the terms wraps around. -/
structure TermsExact (size : Nat) (limits : Limits) : Prop where
  bytes : wrap (size + 1) = size + 1
  tokens : wrap (tokenCapacityFor size limits * sizeOfToken) =
    tokenCapacityFor size limits * sizeOfToken
  arena : wrap (size + tokenCapacityFor size limits + 1) = size + tokenCapacityFor size limits + 1
  slots : wrap (keysetCapacity (tokenCapacityFor size limits / 2 + 1) * sizeOfSize) =
    slotsFor (tokenCapacityFor size limits / 2 + 1) * sizeOfSize
  children : wrap (tokenCapacityFor size limits * sizeOfSize) =
    tokenCapacityFor size limits * sizeOfSize

variable {profile : Profile} {requested : Option Limits} {limits : Limits}

theorem termsExact (hLimits : limitsResolve requested = .ok limits) {size : Nat}
    (hSize : size ≤ limits.maximumBytes) : TermsExact size limits := by
  obtain ⟨hBytes, -, hTokens, -, -, hPos⟩ := limitsResolve_ok hLimits
  have hCapacity := (@tokenCapacityFor_spec size limits hTokens hPos).1
  have hExpected : tokenCapacityFor size limits / 2 + 1 ≤ 2 ^ 60 := by
    simp only [sizeMax] at hCapacity
    omega
  have hSlots : slotsFor (tokenCapacityFor size limits / 2 + 1) ≤ 2 ^ 60 := by
    refine slotsFor_le (by decide) ?_
    simp only [sizeMax] at hCapacity
    omega
  simp only [sizeMax] at hBytes hCapacity
  constructor
  · exact Nat.mod_eq_of_lt (by omega)
  · exact Nat.mod_eq_of_lt (by simp only [sizeOfToken]; omega)
  · exact Nat.mod_eq_of_lt (by omega)
  · rw [keysetCapacity_eq hExpected]
    exact Nat.mod_eq_of_lt (by simp only [sizeOfSize]; omega)
  · exact Nat.mod_eq_of_lt (by simp only [sizeOfSize]; omega)

theorem documentParseAllocationBound_fold (hLimits : limitsResolve requested = .ok limits)
    {size : Nat} (hSize : size ≤ limits.maximumBytes) :
    documentParseAllocationBound size profile requested =
      match (allocationSizes size profile limits).foldl addBounded (some 0) with
      | none => .error .errLimit
      | some total => .ok total := by
  obtain ⟨hBytes, -⟩ := limitsResolve_ok hLimits
  have hTerms := termsExact hLimits hSize
  have hMax : size ≠ sizeMax := by
    simp only [sizeMax] at *
    omega
  simp only [documentParseAllocationBound, hLimits, if_neg hMax, if_neg (not_lt.mpr hSize),
    hTerms.bytes, hTerms.tokens, hTerms.arena, hTerms.slots, hTerms.children]
  rfl

/-- The bound is the sum, if a `size_t` can hold it. -/
theorem documentParseAllocationBound_eq (hLimits : limitsResolve requested = .ok limits)
    {size : Nat} (hSize : size ≤ limits.maximumBytes) :
    documentParseAllocationBound size profile requested =
      if allocationSum size profile limits ≤ sizeMax then .ok (allocationSum size profile limits)
      else .error .errLimit := by
  have hFold := foldl_addBounded (allocationSizes size profile limits) (Nat.zero_le sizeMax)
  rw [Nat.zero_add] at hFold
  rw [documentParseAllocationBound_fold hLimits hSize, hFold, allocationSum]
  split_ifs <;> rfl

theorem tokenCapacityFor_mono_size {size size' : Nat} (h : size ≤ size') (limits : Limits) :
    tokenCapacityFor size limits ≤ tokenCapacityFor size' limits := by
  rw [tokenCapacityFor, tokenCapacityFor]
  split_ifs <;> omega

theorem allocationSum_mono {size size' : Nat} (h : size ≤ size') (profile : Profile)
    (limits : Limits) :
    allocationSum size profile limits ≤ allocationSum size' profile limits := by
  have hTokens := tokenCapacityFor_mono_size h limits
  have hSlots := slotsFor_mono (Nat.add_le_add_right (Nat.div_le_div_right (c := 2) hTokens) 1)
  rw [allocationSum_eq, allocationSum_eq]
  gcongr

/-! ### Room for a text -/

/-- The request leaves room to parse a text of the value. -/
def ParseRoom (profile : Profile) (requested : Option Limits) (bytes : Bytes) (t : Json) : Prop :=
  ∃ limits bound, limitsResolve requested = .ok limits ∧ bytes.length ≤ limits.maximumBytes ∧
    t.depth ≤ limits.maximumDepth ∧ t.tokens ≤ limits.maximumTokens ∧
    documentParseAllocationBound bytes.length profile requested = .ok bound

/-- A request without a zero is taken as it is. -/
theorem limitsResolve_some (hBytes : 0 < limits.maximumBytes) (hDepth : 0 < limits.maximumDepth)
    (hTokens : 0 < limits.maximumTokens) (hDepth' : limits.maximumDepth ≤ maximumDepthCeiling)
    (hBytes' : limits.maximumBytes < sizeMax / 2)
    (hTokens' : limits.maximumTokens ≤ sizeMax / 256) :
    limitsResolve (some limits) = .ok limits := by
  have hRefused : ¬(limits.maximumDepth > maximumDepthCeiling ∨ limits.maximumBytes ≥ sizeMax / 2 ∨
      limits.maximumTokens > sizeMax / 256) := by omega
  simp only [limitsResolve, if_neg hBytes.ne', if_neg hDepth.ne', if_neg hTokens.ne',
    if_neg hRefused]

/-- The widest request for a text of this size. -/
def wideLimits (size : Nat) : Limits := ⟨size, maximumDepthCeiling, size⟩

theorem limitsResolve_wide {size : Nat} (hPos : 0 < size) (hSize : size ≤ sizeMax / 256) :
    limitsResolve (some (wideLimits size)) = .ok (wideLimits size) :=
  limitsResolve_some hPos
    (by decide : 0 < maximumDepthCeiling) hPos le_rfl (hSize.trans_lt (by decide)) hSize

/-- The terms of the sum stay far below `SIZE_MAX`. -/
theorem allocationSum_wide {size : Nat} (hPos : 0 < size) (hSize : size ≤ sizeMax / 256) :
    allocationSum size profile (wideLimits size) ≤ sizeMax := by
  have hTokens : (wideLimits size).maximumTokens = size := rfl
  have hCapacity : tokenCapacityFor size (wideLimits size) = size := by
    rw [tokenCapacityFor, hTokens]
    split_ifs <;> omega
  simp only [sizeMax] at hSize
  have hSlots : slotsFor (size / 2 + 1) ≤ 2 ^ 56 := slotsFor_le (by decide) (by omega)
  rw [allocationSum_eq, hCapacity]
  simp only [sizeOfDocument, sizeOfToken, sizeOfSize, sizeMax]
  split_ifs <;> omega

/-- There is room for every text that is not longer than the largest number of tokens. -/
theorem exists_parseRoom {bytes : Bytes} {t : Json} (hText : Grammar.Text profile bytes t)
    (hDepth : t.depth ≤ maximumDepthCeiling) (hSize : bytes.length ≤ sizeMax / 256) :
    ∃ requested, ParseRoom profile requested bytes t := by
  have hTokens := hText.tokens_le
  have hPos : 0 < bytes.length := t.tokens_pos.trans_le hTokens
  have hLimits := limitsResolve_wide hPos hSize
  have hBound := @documentParseAllocationBound_eq profile _ _ hLimits bytes.length le_rfl
  rw [if_pos (allocationSum_wide hPos hSize)] at hBound
  exact ⟨_, _, _, hLimits, le_rfl, hDepth, hTokens, hBound⟩

/-! ### Requests -/

theorem Source.size_rose (s : Source) : s.rose.size = s.json.tokens := by
  induction s with
  | object span members ih =>
      have hMembers : Rose.sizeAll (members.flatMap fun m => [.node (keyCell m.1) [], m.2.rose]) =
          (members.map fun m => 1 + m.2.json.tokens).sum := by
        induction members with
        | nil => rfl
        | cons m members ihMembers =>
            have hTail := ihMembers fun m hm => ih m (List.mem_cons_of_mem _ hm)
            rw [List.flatMap_cons, Rose.sizeAll_append, hTail, List.map_cons, List.sum_cons,
              ← ih m List.mem_cons_self]
            rfl
      rw [rose_object, Rose.size, hMembers, json_object, Tree.tokens_object, List.map_map,
        Nat.add_comm]
      rfl
  | array span elements ih =>
      have hElements : Rose.sizeAll (elements.map rose) =
          (elements.map fun v => v.json.tokens).sum := by
        induction elements with
        | nil => rfl
        | cons v elements ihElements =>
            have hTail := ihElements fun v hv => ih v (List.mem_cons_of_mem _ hv)
            rw [List.map_cons, Rose.sizeAll, hTail, List.map_cons, List.sum_cons,
              ← ih v List.mem_cons_self]
      rw [rose_array, Rose.size, hElements, json_array, Tree.tokens_array, List.map_map,
        Nat.add_comm]
      rfl
  | _ => rfl

/-- A compaction asks for no more than the tables it replaces. -/
theorem compactedSizes_eq {document : Document} {s : Source}
    (hShows : document.Shows (s.rows 0 none)) (hMarks : document.Marks (s.rows 0 none)) :
    compactedSizes document =
      [s.json.lastWins.tokens * sizeOfToken, max 1 (arenaOf (s.lastWins.rows 0 none)).length] ∧
      (compacted document).tokens.length = s.json.lastWins.tokens := by
  have hAt : Rose.At (s.rows 0 none) s.rose 0 := Rose.at_rows s.rose
  have hFuel : (s.rows 0 none).length ≤ 0 + document.tokens.length := by
    rw [hShows.length, Nat.zero_add]
  have hStart : Packed.Packs ⟨none, 0, [], 0⟩ document [] := ⟨rfl, rfl, nofun⟩
  obtain ⟨hPacks, -⟩ := compactWalk_packs hShows hMarks s hAt hFuel
    (show ∀ p, none = some p → p < [].length from nofun) hStart
  rw [List.nil_append, List.length_nil] at hPacks
  have hTokens : (s.lastWins.rows 0 none).length = s.json.lastWins.tokens := by
    rw [Source.length_rows, Source.size_rose, Source.json_lastWins]
  refine ⟨?_, ?_⟩
  · simp only [compactedSizes, hPacks.count, hPacks.used, hTokens]
    rcases Nat.eq_zero_or_pos (arenaOf (s.lastWins.rows 0 none)).length with hZero | hPos
    · rw [hZero]
      rfl
    · rw [if_pos hPos.ne', max_eq_right hPos]
  · have hHeap : Heap.Generous ⟨fun _ => true, []⟩ := fun _ => rfl
    obtain ⟨packed, heap', hCompact, -, hCompacted, -⟩ := compactDocument_shows hHeap hShows hMarks
    have hSame := (compactDocument_asks document).granted _ (hHeap.grants _)
    rw [hCompact] at hSame
    obtain rfl : packed = compacted document := congrArg (fun ran => ran.1.2) hSame
    rw [hCompacted.length, hTokens]

/-- What a publication asks for, bounded by the size of the text and the token capacity. -/
theorem publishedSizes_le {document : Document} {r : Reading} {s : Source} (h : document.Parsed r s)
    (hText : Grammar.Text r.profile r.bytes s.json) (hRoom : s.json.tokens ≤ r.capacity)
    (hKeys : r.profile ≠ .rfc8259LastWins → s.json.uniqueKeys = true) :
    (publishedSizes document).sum ≤
      (if r.profile = .rfc8259LastWins then
        r.capacity * sizeOfToken + (r.bytes.length + r.capacity + 1) else 0) +
        r.capacity * sizeOfSize := by
  have hKept := s.json.tokens_lastWins
  by_cases hDuplicates : document.duplicateCount ≠ 0
  · have hProfile : r.profile = .rfc8259LastWins := by
      by_contra hStrict
      exact hDuplicates (h.duplicates.trans (Tree.duplicates_eq_zero.mpr (hKeys hStrict)))
    obtain ⟨hSizes, hTokens⟩ := compactedSizes_eq h.shows h.marks
    have hArena : (arenaOf (s.lastWins.rows 0 none)).length ≤ r.bytes.length + r.capacity := by
      have hSub := s.json.texts_lastWins
      have hBytes := (hSub.map List.length).sum_le_sum fun _ _ => Nat.zero_le _
      have hCount := hSub.length_le
      have hTexts := hText.texts_le
      have hOwn := s.json.length_texts_le
      rw [length_arenaOf, Source.texts_rows, Source.json_lastWins]
      omega
    rw [publishedSizes, surviving, if_pos hDuplicates, if_pos hDuplicates, if_pos hProfile,
      hSizes, hTokens]
    have hTokenSizes := Nat.mul_le_mul_right sizeOfToken (hKept.trans hRoom)
    have hChildSizes := Nat.mul_le_mul_right sizeOfSize (hKept.trans hRoom)
    simp only [List.cons_append, List.nil_append, List.sum_cons, List.sum_nil]
    omega
  · rw [publishedSizes, surviving, if_neg hDuplicates, if_neg hDuplicates, h.shows.length,
      Source.length_rows, Source.size_rose]
    have hChildSizes := Nat.mul_le_mul_right sizeOfSize hRoom
    simp only [List.nil_append, List.sum_cons, List.sum_nil]
    omega

theorem CText.length_bytes_le (input : CText) : input.bytes.length ≤ input.size := by
  cases input with
  | null size => exact Nat.zero_le size
  | buffer bytes => exact le_rfl

/-- However a call ends and whatever is refused, it asks for no more than the sum. -/
theorem documentParse_requests (hLimits : limitsResolve requested = .ok limits) (heap : Heap)
    (input : CText) (errorGiven : Bool) :
    ∃ asked, (documentParse heap input profile requested errorGiven).heap = heap.after asked ∧
      asked.sum ≤ allocationSum input.size profile limits := by
  rcases documentParse_arguments input profile requested errorGiven with
    ⟨limits', bound, hLimits', hSize, hBound, hSame⟩ | ⟨result, error, -, hRefused⟩
  · obtain rfl : limits = limits' := Except.ok.inj (hLimits.symm.trans hLimits')
    have hMono := allocationSum_mono input.length_bytes_le profile limits
    have hTerms := termsExact hLimits hSize
    have hOpening : (openingSizes input.bytes.length
        (tokenCapacityFor input.bytes.length limits)).sum =
        sizeOfDocument + (input.bytes.length + 1) + tokenCapacityFor input.bytes.length limits *
          sizeOfToken + (input.bytes.length + tokenCapacityFor input.bytes.length limits + 1) +
          slotsFor (tokenCapacityFor input.bytes.length limits / 2 + 1) * sizeOfSize := by
      rw [openingSizes, documentSizes, hTerms.slots]
      simp only [List.cons_append, List.nil_append, List.sum_cons, List.sum_nil]
      omega
    -- what has been asked for is a first part of what the full run asks for
    have hPrefix {sizes : List Nat} {value : Result × Option Document × Option Error}
        (hAsks : Asks (fun heap =>
          let run := documentParse heap (.buffer input.bytes) profile requested errorGiven
          (run.outcome, run.heap)) sizes value (· = refusedOutcome errorGiven input.bytes))
        (hSum : sizes.sum ≤ allocationSum input.bytes.length profile limits) :
        ∃ asked, (documentParse heap input profile requested errorGiven).heap = heap.after asked ∧
          asked.sum ≤ allocationSum input.size profile limits := by
      obtain ⟨asked, hAsked, hHeap⟩ := hAsks.requests heap
      refine ⟨asked, by rw [hSame]; exact hHeap, ?_⟩
      exact ((hAsked.sublist.sum_le_sum fun _ _ => Nat.zero_le _).trans hSum).trans hMono
    have hAsks := documentParse_asks hLimits hSize hBound errorGiven
    simp only at hAsks
    cases hRead : (readingOf input.bytes profile limits).readText with
    | error fault =>
        rw [hRead] at hAsks
        refine hPrefix hAsks ?_
        rw [hOpening, allocationSum_eq]
        split_ifs <;> omega
    | ok s =>
        rw [hRead] at hAsks
        obtain ⟨parsed, hParsed, hAsks⟩ := hAsks
        obtain ⟨hText, hRoom, -, hKeys⟩ := (Reading.readText_iff _ s.json).mp ⟨s, hRead, rfl⟩
        have hPublished : (publishedSizes parsed).sum ≤
            (if profile = .rfc8259LastWins then
              tokenCapacityFor input.bytes.length limits * sizeOfToken +
              (input.bytes.length + tokenCapacityFor input.bytes.length limits + 1) else 0) +
              tokenCapacityFor input.bytes.length limits * sizeOfSize :=
          publishedSizes_le hParsed hText hRoom hKeys
        refine hPrefix hAsks ?_
        rw [List.sum_append, hOpening, allocationSum_eq]
        by_cases hProfile : profile = .rfc8259LastWins
        · rw [if_pos hProfile] at hPublished
          rw [if_pos hProfile]
          omega
        · rw [if_neg hProfile] at hPublished
          rw [if_neg hProfile]
          omega
  · exact ⟨[], by rw [hRefused, Heap.after_nil], Nat.zero_le _⟩

/-- The parser when a run is over. -/
def parserAfter : EStateM.Result Result Parser Unit → Parser
  | .ok _ p => p
  | .error _ p => p

/-- Reading asks for nothing, so the key set never grows. -/
theorem parseRoot_heap (hLimits : limitsResolve requested = .ok limits) {bytes : Bytes}
    {errorGiven : Bool} {heap heap' : Heap} {keys : Keyset}
    (hKeys : keysetInit heap (tokenCapacityFor bytes.length limits / 2 + 1) = (.ok, keys, heap')) :
    (parserAfter (parseRoot (openedParser bytes profile limits errorGiven keys heap'))).heap =
      heap' := by
  obtain ⟨-, -, hTokens, -, -, hPos⟩ := limitsResolve_ok hLimits
  have hCapacity := (@tokenCapacityFor_spec bytes.length limits hTokens hPos).1
  have hExpected : tokenCapacityFor bytes.length limits / 2 + 1 ≤ 2 ^ 60 := by
    simp only [sizeMax] at hCapacity
    omega
  obtain rfl : keys = emptyKeyset (tokenCapacityFor bytes.length limits / 2 + 1) := by
    rcases (keysetInit_asks (tokenCapacityFor bytes.length limits / 2 + 1)).ends heap with
      hEnd | hEnd
    · rw [hKeys] at hEnd
      exact congrArg Prod.snd hEnd
    · rw [hKeys] at hEnd
      cases hEnd
  obtain ⟨hHolds, hRoomy⟩ := emptyKeyset_holds hExpected
    (tokenKey (emptyDocument bytes profile (tokenCapacityFor bytes.length limits)))
  have hRun := @parseRoot_opened bytes profile limits errorGiven _ hHolds hRoomy rfl heap'
  cases hRead : (readingOf bytes profile limits).readText with
  | ok s =>
      rw [hRead] at hRun
      obtain ⟨p, hRoot, -, hHeap, -⟩ := hRun
      rw [hRoot]
      exact hHeap
  | error fault =>
      rw [hRead] at hRun
      obtain ⟨p, hRoot, hHeap, -⟩ := hRun
      rw [hRoot]
      exact hHeap

/-- The bound is the exact sum of terms that do not wrap around, it grows with the size, and
no call on a text of that size asks for more, however it ends. -/
theorem documentParseAllocationBound_exact (profile : Profile)
    (hLimits : limitsResolve requested = .ok limits) :
    (∀ size ≤ limits.maximumBytes, TermsExact size limits ∧
      (documentParseAllocationBound size profile requested = .error .errLimit ↔
        allocationSum size profile limits > sizeMax) ∧
      (allocationSum size profile limits ≤ sizeMax →
        documentParseAllocationBound size profile requested =
          .ok (allocationSum size profile limits))) ∧
    (∀ size size', size ≤ size' →
      allocationSum size profile limits ≤ allocationSum size' profile limits) ∧
    ∀ heap (input : CText) errorGiven bound,
      documentParseAllocationBound input.size profile requested = .ok bound →
      (∃ asked, (documentParse heap input profile requested errorGiven).heap = heap.after asked ∧
        asked.sum ≤ bound) ∧
      ∀ heap' keys,
        keysetInit heap (tokenCapacityFor input.bytes.length limits / 2 + 1) = (.ok, keys, heap') →
        (parserAfter (parseRoot
          (openedParser input.bytes profile limits errorGiven keys heap'))).heap =
          heap' := by
  refine ⟨fun size hSize => ⟨termsExact hLimits hSize, ?_, fun hSum => ?_⟩,
    fun size size' h => allocationSum_mono h profile limits,
    fun heap input errorGiven bound hBound => ⟨?_, ?_⟩⟩
  · rw [documentParseAllocationBound_eq hLimits hSize]
    split_ifs with hSum
    · exact ⟨nofun, fun h => absurd hSum (not_le.mpr h)⟩
    · exact ⟨fun _ => not_le.mp hSum, fun _ => rfl⟩
  · rw [documentParseAllocationBound_eq hLimits hSize, if_pos hSum]
  · have hSize := documentParseAllocationBound_size hLimits hBound
    rw [documentParseAllocationBound_eq hLimits hSize] at hBound
    split_ifs at hBound
    obtain ⟨asked, hHeap, hSum⟩ :=
      @documentParse_requests profile requested limits hLimits heap input errorGiven
    exact ⟨asked, hHeap, hSum.trans (Except.ok.inj hBound).le⟩
  · exact fun heap' keys hKeys => parseRoot_heap hLimits hKeys

/-- The default limits. -/
theorem documentParseAllocationBound_exact_default :
    (∀ size ≤ 65535, TermsExact size ⟨65535, 32, 8192⟩ ∧
      (documentParseAllocationBound size .rfc8259LastWins none = .error .errLimit ↔
        allocationSum size .rfc8259LastWins ⟨65535, 32, 8192⟩ > sizeMax) ∧
      (allocationSum size .rfc8259LastWins ⟨65535, 32, 8192⟩ ≤ sizeMax →
        documentParseAllocationBound size .rfc8259LastWins none =
          .ok (allocationSum size .rfc8259LastWins ⟨65535, 32, 8192⟩))) ∧
    (∀ size size', size ≤ size' → allocationSum size .rfc8259LastWins ⟨65535, 32, 8192⟩ ≤
      allocationSum size' .rfc8259LastWins ⟨65535, 32, 8192⟩) ∧
    ∀ heap (input : CText) errorGiven bound,
      documentParseAllocationBound input.size .rfc8259LastWins none = .ok bound →
      (∃ asked, (documentParse heap input .rfc8259LastWins none errorGiven).heap =
        heap.after asked ∧ asked.sum ≤ bound) ∧
      ∀ heap' keys,
        keysetInit heap (tokenCapacityFor input.bytes.length ⟨65535, 32, 8192⟩ / 2 + 1) =
          (.ok, keys, heap') →
        (parserAfter (parseRoot
          (openedParser input.bytes .rfc8259LastWins ⟨65535, 32, 8192⟩ errorGiven keys
          heap'))).heap = heap' :=
  @documentParseAllocationBound_exact none ⟨65535, 32, 8192⟩ .rfc8259LastWins (by decide)

end MaelysJson
