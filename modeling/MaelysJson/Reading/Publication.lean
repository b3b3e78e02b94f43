import MaelysJson.Reading.Compaction

/-! From the tables of a parsed text to the document that is published: the
compaction, when a key came again, and the layout of children. -/
namespace MaelysJson

open Forest

variable {document : Document} {rows : List (Row Cell)}

theorem Heap.Generous.request {heap : Heap} (h : heap.Generous) (size : Nat) :
    (heap.request size).1 = true ∧ (heap.request size).2.Generous :=
  ⟨h _, fun n => h n⟩

/-! ### Compaction -/

/-- The tables of a value with repeated keys become those of the value with the
last occurrence of each key. -/
theorem compactDocument_shows {s : Source} {heap : Heap} (hHeap : heap.Generous)
    (hShows : document.Shows (s.rows 0 none)) (hMarks : document.Marks (s.rows 0 none)) :
    ∃ compacted heap', compactDocument document heap = (.ok, compacted, heap') ∧ heap'.Generous ∧
      compacted.Shows (s.lastWins.rows 0 none) ∧ compacted.bytes = document.bytes ∧
      compacted.profile = document.profile ∧
      compacted.duplicateCount = document.duplicateCount := by
  have hAt : Rose.At (s.rows 0 none) s.rose 0 := Rose.at_rows s.rose
  have hFuel : (s.rows 0 none).length ≤ 0 + document.tokens.length := by
    rw [hShows.length, Nat.zero_add]
  have hStart : Packed.Packs ⟨some [], 0, [], 0⟩ document [] := by
    refine ⟨rfl, rfl, ?_⟩
    rintro _ ⟨rfl⟩
    exact ⟨rfl, linkedBy_nil, rfl⟩
  obtain ⟨hPacks, hSome⟩ := compactWalk_packs hShows hMarks s hAt hFuel
    (show ∀ p, none = some p → p < [].length from nofun) hStart
  obtain ⟨tokens, hTokens⟩ := Option.isSome_iff_exists.mp hSome
  have hPacked := hPacks.shows tokens hTokens
  rw [List.nil_append] at hPacked
  obtain ⟨hFirst, hHeap'⟩ := hHeap.request
    ((compactWalk document document.tokens.length 0 none ⟨none, 0, [], 0⟩).tokenCount * sizeOfToken)
  obtain ⟨hSecond, hHeap''⟩ := hHeap'.request
    (if (compactWalk document document.tokens.length 0 none ⟨none, 0, [], 0⟩).arenaUsed ≠ 0 then
      (compactWalk document document.tokens.length 0 none ⟨none, 0, [], 0⟩).arenaUsed else 1)
  rw [compactDocument]
  simp only [hFirst, hSecond, Bool.and_self, if_true, hTokens, Option.getD_some]
  exact ⟨_, _, rfl, hHeap'', ⟨hPacked.tokens, hPacked.linked, hPacked.arena⟩, rfl, rfl, rfl⟩

/-! ### Children -/

/-- A published document: its tables show the rows, and the array of children holds those of
every container together, one container after another. -/
structure Document.Published (document : Document) (rows : List (Row Cell)) : Prop where
  shows : document.Shows rows
  laid : document.children =
    layout (rows.map Prod.fst) (fun i => (document.token i).isContainer) rows.length
  offsets : ∀ i < rows.length, (document.token i).isContainer = true →
    (document.token i).childrenOffset =
      (layout (rows.map Prod.fst) (fun i => (document.token i).isContainer) i).length

theorem Document.Published.slices (h : document.Published rows) {i : Nat} (hi : i < rows.length)
    (hContainer : (document.token i).isContainer = true) :
    ∃ before after, document.children = before ++ Forest.children (rows.map Prod.fst) i ++ after ∧
      (document.token i).childrenOffset = before.length := by
  obtain ⟨rest, hRest⟩ := @layout_split i (rows.map Prod.fst)
    (fun i => (document.token i).isContainer) rows.length hi hContainer
  exact ⟨_, rest, h.laid.trans hRest, h.offsets i hi hContainer⟩

/-- The children of the first `n` rows are laid out. -/
structure Document.LaidOut (document : Document) (rows : List (Row Cell)) (keep : Nat → Bool)
    (n : Nat) :
    Prop where
  shows : document.Shows rows
  containers : ∀ i, (document.token i).isContainer = keep i
  laid : document.children = layout (rows.map Prod.fst) keep n
  offsets : ∀ i < n, keep i = true →
    (document.token i).childrenOffset = (layout (rows.map Prod.fst) keep i).length

/-- One round of `buildChildren`. -/
theorem layOutChildren_laidOut {keep : Nat → Bool} {n : Nat} (h : document.LaidOut rows keep n)
    (hn : n < rows.length) : (layOutChildren document n).LaidOut rows keep (n + 1) := by
  have hStep (i : Nat) (hi : i < n + 1) : i < n ∨ n = i := by omega
  rw [layOutChildren]
  by_cases hContainer : (document.token n).isContainer = true
  · have hKeep : keep n = true := by rw [← h.containers, hContainer]
    simp only [hContainer, if_true, h.shows.siblings_eq hn]
    have hMarked := h.shows.mark n
      (fun token => { token with childrenOffset := document.children.length })
      (fun _ => rfl) (fun _ => rfl)
    have hToken (i : Nat) := token_updateToken document n i
      fun token => { token with childrenOffset := document.children.length }
    refine ⟨⟨hMarked.tokens, hMarked.linked, hMarked.arena⟩, fun i => ?_, ?_, fun i hi hi' => ?_⟩
    · rw [← h.containers]
      refine (congrArg Token.isContainer (hToken i)).trans ?_
      split_ifs <;> rfl
    · rw [layout_succ, if_pos hKeep]
      exact congrArg (· ++ _) h.laid
    · refine (congrArg Token.childrenOffset (hToken i)).trans ?_
      rcases hStep i hi with hi | rfl
      · rw [if_neg (by omega)]
        exact h.offsets i hi hi'
      · rw [if_pos ⟨rfl, by rwa [h.shows.length]⟩]
        exact congrArg List.length h.laid
  · have hKeep : ¬keep n = true := by rwa [← h.containers]
    simp only [hContainer, Bool.false_eq_true, if_false]
    refine ⟨h.shows, h.containers, ?_, fun i hi hi' => ?_⟩
    · rw [layout_succ, if_neg hKeep, List.append_nil, h.laid]
    · rcases hStep i hi with hi | rfl
      · exact h.offsets i hi hi'
      · exact absurd hi' hKeep

/-- The published document reads like the tables it was built from. -/
theorem buildChildren_published {heap : Heap} (hHeap : heap.Generous)
    (hShows : document.Shows rows) :
    ∃ published heap', buildChildren document heap = (.ok, published, heap') ∧ heap'.Generous ∧
      published.Published rows ∧ published.bytes = document.bytes ∧
      published.profile = document.profile ∧
      published.duplicateCount = document.duplicateCount := by
  obtain ⟨hGranted, hHeap'⟩ := hHeap.request (document.tokens.length * sizeOfSize)
  have hFold (n : Nat) (hn : n ≤ rows.length) :
      let laid := (List.range n).foldl layOutChildren { document with children := [] }
      laid.LaidOut rows (fun i => (document.token i).isContainer) n ∧ laid.bytes = document.bytes ∧
        laid.profile = document.profile ∧ laid.duplicateCount = document.duplicateCount := by
    induction n with
    | zero =>
        exact ⟨⟨⟨hShows.tokens, hShows.linked, hShows.arena⟩, fun _ => rfl, rfl, nofun⟩,
          rfl, rfl, rfl⟩
    | succ n ih =>
        obtain ⟨hLaid, hBytes, hProfile, hCount⟩ := ih (by omega)
        have hNext := layOutChildren_laidOut hLaid (by omega)
        simp only [List.range_succ, List.foldl_append, List.foldl_cons, List.foldl_nil]
        refine ⟨hNext, ?_⟩
        rw [layOutChildren]
        split_ifs
        · exact ⟨hBytes, hProfile, hCount⟩
        · exact ⟨hBytes, hProfile, hCount⟩
  obtain ⟨hLaid, hBytes, hProfile, hCount⟩ := hFold rows.length le_rfl
  rw [buildChildren]
  simp only [hGranted, if_true]
  rw [hShows.length] at hHeap' ⊢
  have hKeep := funext hLaid.containers
  exact ⟨_, _, rfl, hHeap', ⟨hLaid.shows, by rw [hKeep]; exact hLaid.laid, fun i hi hi' => by
    rw [hKeep]
    exact hLaid.offsets i hi (by rwa [← hLaid.containers])⟩, hBytes, hProfile, hCount⟩

/-- Parsed tables, published. -/
theorem publishDocument_published {s : Source} {heap : Heap} (hHeap : heap.Generous)
    (hShows : document.Shows (s.rows 0 none)) (hMarks : document.Marks (s.rows 0 none))
    (hCount : document.duplicateCount = s.json.duplicates) :
    ∃ published heap' survivor, publishDocument document heap = (.ok, published, heap') ∧
      published.Published (survivor.rows 0 none) ∧ survivor.json = s.json.lastWins ∧
      (document.duplicateCount = 0 → survivor = s) ∧ published.bytes = document.bytes ∧
      published.profile = document.profile ∧
      published.duplicateCount = document.duplicateCount := by
  rw [publishDocument]
  by_cases hDuplicates : document.duplicateCount ≠ 0
  · obtain ⟨compacted, heap', hCompact, hHeap', hCompacted, hBytes, hProfile, hKept⟩ :=
      compactDocument_shows hHeap hShows hMarks
    obtain ⟨published, heap'', hBuild, -, hPublished, hBytes', hProfile', hKept'⟩ :=
      buildChildren_published hHeap' hCompacted
    simp only [if_pos hDuplicates, hCompact, if_true, hBuild]
    exact ⟨_, _, s.lastWins, rfl, hPublished, s.json_lastWins, fun h => absurd h hDuplicates,
      hBytes'.trans hBytes, hProfile'.trans hProfile, hKept'.trans hKept⟩
  · obtain ⟨published, heap', hBuild, -, hPublished, hBytes, hProfile, hKept⟩ :=
      buildChildren_published hHeap hShows
    simp only [if_neg hDuplicates, if_true, hBuild]
    have hUnique : s.json.uniqueKeys = true := Tree.duplicates_eq_zero.mp (by omega)
    exact ⟨_, _, s, rfl, hPublished, (Tree.lastWins_of_uniqueKeys hUnique).symm,
      fun _ => rfl, hBytes, hProfile, hKept⟩

end MaelysJson
