import MaelysJson.Copying.Documents
import MaelysJson.Copying.Runs

/-! What stands in the way of a copy, told from the copied value, the limits and the size and
depth of what the writer holds, and what the writer answers when it meets it. -/
namespace MaelysJson

open Grammar Heap Run

/-! ### Obstacles -/

inductive Obstacle where
  /-- a string or key that the profile cannot carry -/
  | unfit
  /-- a string or key that it can carry, longer than `maximum_bytes` -/
  | text
  /-- a number with a fraction or an exponent whose lexeme is longer than `maximum_bytes` -/
  | lexeme
  /-- another number, with an integer part beyond the integer types -/
  | range
  | depth
  | nodes
  deriving DecidableEq, Repr

/-- The obstacles that are a limit of the writer. -/
def Obstacle.OfLimits (o : Obstacle) : Prop := o = .text ∨ o = .lexeme ∨ o = .depth ∨ o = .nodes

/-- The string or key of an event. -/
def Event.text : Event → Option Bytes
  | .key name => some name
  | .string text => some text
  | _ => none

section

variable (profile : Profile) (limits : Limits)

def nodesObstacle (size : Nat) : Option Obstacle :=
  if size < limits.maximumTokens then none else some .nodes

def textObstacle (text : Bytes) : Option Obstacle :=
  if validText profile (.buffer text) = true then
    if text.length ≤ limits.maximumBytes then none else some .text
  else some .unfit

def numberObstacle (lexeme : Bytes) : Option Obstacle :=
  if ¬WrittenWhole lexeme ∧ lexeme.length > limits.maximumBytes then some .lexeme
  else if WholeFits lexeme then none else some .range

def depthObstacle (depth : Nat) : Option Obstacle :=
  if depth < limits.maximumDepth then none else some .depth

/-- The obstacle that an event meets in a writer with so many nodes and open containers. -/
def Event.obstacle (size depth : Nat) : Event → Option Obstacle
  | .objectBegin => (depthObstacle limits depth).or (nodesObstacle limits size)
  | .arrayBegin => (depthObstacle limits depth).or (nodesObstacle limits size)
  | .objectEnd => none
  | .arrayEnd => none
  | .key name => textObstacle profile limits name
  | .string text => (textObstacle profile limits text).or (nodesObstacle limits size)
  | .number (.lexeme lexeme) => (numberObstacle limits lexeme).or (nodesObstacle limits size)
  | .number _ => nodesObstacle limits size
  | .boolean _ => nodesObstacle limits size
  | .null => nodesObstacle limits size

/-- The first obstacle in the order of the copy. -/
def firstObstacle : List Event → (size depth : Nat) → Option Obstacle
  | [], _, _ => none
  | e :: events, size, depth =>
      (e.obstacle profile limits size depth).or
        (firstObstacle events (size + e.nodes) (e.depthAfter depth))

end

/-- What the writer answers to an obstacle. A long lexeme is taken for a misuse, or for a number
out of range where its integer part is. -/
def Obstacle.Answers (r : Result) : Obstacle → Prop
  | .unfit => r = .errArgument
  | .lexeme => r = .errArgument ∨ r = .errRange
  | .range => r = .errRange
  | .text => r = .errLimit
  | .depth => r = .errLimit
  | .nodes => r = .errLimit

/-- An attempt either meets this obstacle or succeeds. -/
def Meets (o : Option Obstacle) (outcome : Except Result Draft) : Prop :=
  match o with
  | some o => ∃ r, outcome = .error r ∧ o.Answers r
  | none => ∃ next, outcome = .ok next

section

variable {profile : Profile} {limits : Limits} {d d' : Draft} {events : List Event}

theorem placed_meets {next : Option Draft} (hNext : next.isSome = true) :
    Meets (nodesObstacle limits d.size) (d.placed limits next) := by
  obtain ⟨next, rfl⟩ := Option.isSome_iff_exists.mp hNext
  rw [nodesObstacle, Draft.placed]
  split_ifs
  · exact ⟨next, rfl⟩
  · exact ⟨_, rfl, rfl⟩

theorem begin_meets {next : Option Draft} (hNext : next.isSome = true) :
    Meets ((depthObstacle limits d.depth).or (nodesObstacle limits d.size))
      (if d.depth < limits.maximumDepth then d.placed limits next else .error .errLimit) := by
  rw [depthObstacle]
  split_ifs
  · exact placed_meets hNext
  · exact ⟨_, rfl, rfl⟩

theorem string_meets {text : Bytes} {next : Option Draft} (hNext : next.isSome = true) :
    Meets ((textObstacle profile limits text).or (nodesObstacle limits d.size))
      (if validText profile (.buffer text) = true then
        if text.length > limits.maximumBytes then .error .errLimit else d.placed limits next
      else .error .errArgument) := by
  rw [textObstacle]
  by_cases hValid : validText profile (.buffer text) = true
  swap
  · rw [if_neg hValid, if_neg hValid]
    exact ⟨_, rfl, rfl⟩
  rw [if_pos hValid, if_pos hValid]
  by_cases hLength : text.length ≤ limits.maximumBytes
  · rw [if_pos hLength, if_neg (not_lt.mpr hLength)]
    exact placed_meets hNext
  · rw [if_neg hLength, if_pos (not_le.mp hLength)]
    exact ⟨_, rfl, rfl⟩

theorem number_meets {lexeme : Bytes} (hNumber : Number lexeme)
    (hStep : (d.step (.number (copiedNumeral lexeme))).isSome = true) :
    Meets ((numberObstacle limits lexeme).or (nodesObstacle limits d.size))
      (d.copyNumber profile limits lexeme) := by
  rw [Draft.copyNumber, numberObstacle]
  by_cases hFits : WholeFits lexeme
  swap
  · rw [numeralOf_error hFits, if_neg hFits]
    split_ifs
    · exact ⟨_, rfl, Or.inr rfl⟩
    · exact ⟨_, rfl, rfl⟩
  rw [if_pos hFits]
  by_cases hWhole : WrittenWhole lexeme
  · -- an integer, of whatever length
    have hNumeral := numeralOf_ok hFits
    rw [if_neg fun hBoth => hBoth.1 hWhole]
    have hInteger : ∀ text, copiedNumeral lexeme ≠ .lexeme text := by
      intro text hSame
      rw [hSame, numeralOf, if_pos hFits, if_pos hWhole] at hNumeral
      split_ifs at hNumeral
      · cases hNumeral
      · cases hNumeral
    rw [hNumeral]
    cases hCopied : copiedNumeral lexeme with
    | unsigned number =>
        rw [hCopied] at hStep
        exact placed_meets hStep
    | signed number =>
        rw [hCopied] at hStep
        exact placed_meets hStep
    | lexeme text => exact absurd hCopied (hInteger text)
  · have hNumeral : numeralOf lexeme = .ok (.lexeme lexeme) := by
      rw [numeralOf, if_pos hFits, if_neg hWhole]
    have hCopied : copiedNumeral lexeme = .lexeme lexeme := by
      rw [copiedNumeral, hNumeral]
      rfl
    rw [hCopied] at hStep
    rw [hNumeral]
    simp only
    by_cases hLength : lexeme.length > limits.maximumBytes
    · rw [if_pos hLength, if_pos ⟨hWhole, hLength⟩]
      exact ⟨_, rfl, Or.inl rfl⟩
    · rw [if_neg hLength, if_neg fun hBoth => hLength hBoth.2, Draft.attempt,
        if_pos ((numberSyntax_iff lexeme).mpr hNumber), if_neg hLength]
      exact placed_meets hStep

theorem key_meets {name : Bytes} (hStep : (d.step (.key name)).isSome = true) :
    Meets (textObstacle profile limits name) (d.attempt profile limits (.key name)) := by
  rcases d with _ | ⟨⟨members, _ | pending⟩ | elements, holes⟩ | root
  · cases hStep
  · rw [Draft.attempt_key, textObstacle]
    by_cases hValid : validText profile (.buffer name) = true
    swap
    · rw [if_neg hValid, if_neg hValid]
      exact ⟨_, rfl, rfl⟩
    rw [if_pos hValid, if_pos hValid]
    by_cases hLength : name.length ≤ limits.maximumBytes
    · have hKey : name ∉ members.map Prod.fst := by
        intro hKey
        rw [Draft.step, if_pos hKey] at hStep
        cases hStep
      obtain ⟨next, hNext⟩ := Option.isSome_iff_exists.mp hStep
      rw [if_pos hLength, if_neg (not_lt.mpr hLength), if_neg hKey, hNext]
      exact ⟨next, rfl⟩
    · rw [if_neg hLength, if_pos (not_le.mp hLength)]
      exact ⟨_, rfl, rfl⟩
  · cases hStep
  · cases hStep
  · cases hStep

/-- The numbers of an event are of the grammar. -/
def Event.Grammatical : Event → Prop
  | .number (.lexeme lexeme) => Number lexeme
  | _ => True

/-- An event that has its place meets its obstacle, or none. -/
theorem copyStep_meets {e : Event} (hNumber : e.Grammatical)
    (hStep : (d.step e.copied).isSome = true) :
    Meets (e.obstacle profile limits d.size d.depth) (d.copyStep profile limits e) := by
  have hEnd {next : Option Draft} (hNext : next.isSome = true) :
      Meets none (next.elim (.error .errState) .ok : Except Result Draft) := by
    obtain ⟨next, rfl⟩ := Option.isSome_iff_exists.mp hNext
    exact ⟨next, rfl⟩
  cases e with
  | objectBegin => exact begin_meets hStep
  | arrayBegin => exact begin_meets hStep
  | objectEnd => exact hEnd hStep
  | arrayEnd => exact hEnd hStep
  | key name => exact key_meets hStep
  | string text => exact string_meets hStep
  | number numeral =>
      cases numeral with
      | lexeme lexeme => exact number_meets hNumber hStep
      | unsigned number => exact placed_meets hStep
      | signed number => exact placed_meets hStep
  | boolean value => exact placed_meets hStep
  | null => exact placed_meets hStep

theorem nodes_copied (e : Event) : e.copied.nodes = e.nodes := by
  rcases e with _ | _ | _ | _ | _ | _ | numeral | _ | _
  case number => cases numeral <;> rfl
  all_goals rfl

theorem depthAfter_copied (e : Event) (depth : Nat) :
    e.copied.depthAfter depth = e.depthAfter depth := by
  rcases e with _ | _ | _ | _ | _ | _ | numeral | _ | _
  case number => cases numeral <;> rfl
  all_goals rfl

/-- Events that have their places meet their first obstacle, or run through. -/
theorem copyAll_meets (hNumbers : ∀ e ∈ events, e.Grammatical)
    (hPlaces : (d.stepAll (events.map Event.copied)).isSome = true) :
    Meets (firstObstacle profile limits events d.size d.depth)
      (d.copyAll profile limits events) := by
  induction events generalizing d with
  | nil => exact ⟨d, rfl⟩
  | cons e events ih =>
      rw [List.forall_mem_cons] at hNumbers
      rw [List.map_cons, Draft.stepAll] at hPlaces
      obtain ⟨next, hNext⟩ : ∃ next, d.step e.copied = some next := by
        rw [← Option.isSome_iff_exists]
        exact Option.isSome_of_isSome_bind hPlaces
      rw [hNext, Option.bind_some] at hPlaces
      have hStep : Meets (e.obstacle profile limits d.size d.depth) (d.copyStep profile limits e) :=
        copyStep_meets hNumbers.1 (by rw [hNext]; rfl)
      rw [firstObstacle, Draft.copyAll]
      cases hObstacle : e.obstacle profile limits d.size d.depth with
      | some o =>
          rw [hObstacle] at hStep
          obtain ⟨r, hError, hAnswers⟩ := hStep
          rw [hError]
          exact ⟨r, rfl, hAnswers⟩
      | none =>
          rw [hObstacle] at hStep
          obtain ⟨next', hOk⟩ := hStep
          obtain rfl : next' = next := by
            have hPermit := (Draft.copyStep_eq_ok.mp hOk).2
            rw [Draft.permit] at hPermit
            split_ifs at hPermit
            exact Option.some.inj (hPermit.symm.trans hNext)
          obtain ⟨hSize, hDepth⟩ := Draft.counts_step hNext
          have hRest := ih hNumbers.2 hPlaces
          rw [hSize, hDepth, nodes_copied, depthAfter_copied] at hRest
          rw [hOk, Option.none_or]
          exact hRest

/-- Only a text that the profile cannot carry is taken for one. -/
theorem firstObstacle_unfit {size depth : Nat}
    (h : firstObstacle profile limits events size depth = some .unfit) :
    ∃ text ∈ events.filterMap Event.text, validText profile (.buffer text) = false := by
  have hNodes {size : Nat} : nodesObstacle limits size ≠ some .unfit := by
    rw [nodesObstacle]
    split_ifs <;> nofun
  have hText {text : Bytes} (hText : textObstacle profile limits text = some .unfit) :
      validText profile (.buffer text) = false := by
    apply Bool.eq_false_of_not_eq_true
    intro hValid
    rw [textObstacle, if_pos hValid] at hText
    split_ifs at hText
    cases hText
  induction events generalizing size depth with
  | nil => cases h
  | cons e events ih =>
      rw [firstObstacle, Option.or_eq_some_iff] at h
      rcases h with hHere | ⟨-, hRest⟩
      swap
      · obtain ⟨text, hMem, hUnfit⟩ := ih hRest
        exact ⟨text, ((List.sublist_cons_self e events).filterMap _).subset hMem, hUnfit⟩
      cases e with
      | key name => exact ⟨name, List.mem_filterMap.mpr ⟨_, List.mem_cons_self, rfl⟩, hText hHere⟩
      | string text =>
          refine ⟨text, List.mem_filterMap.mpr ⟨_, List.mem_cons_self, rfl⟩, hText ?_⟩
          exact (Option.or_eq_some_iff.mp hHere).resolve_right fun hBoth => hNodes hBoth.2
      | number numeral =>
          cases numeral with
          | lexeme lexeme =>
              rcases Option.or_eq_some_iff.mp hHere with hNumber | hBoth
              · rw [numberObstacle] at hNumber
                split_ifs at hNumber <;> cases hNumber
              · exact absurd hBoth.2 hNodes
          | unsigned number => exact absurd hHere hNodes
          | signed number => exact absurd hHere hNodes
      | objectBegin =>
          rcases Option.or_eq_some_iff.mp hHere with hDepth | hBoth
          · rw [depthObstacle] at hDepth
            split_ifs at hDepth
            cases hDepth
          · exact absurd hBoth.2 hNodes
      | arrayBegin =>
          rcases Option.or_eq_some_iff.mp hHere with hDepth | hBoth
          · rw [depthObstacle] at hDepth
            split_ifs at hDepth
            cases hDepth
          · exact absurd hBoth.2 hNodes
      | objectEnd => cases hHere
      | arrayEnd => cases hHere
      | boolean value => exact absurd hHere hNodes
      | null => exact absurd hHere hNodes

end

/-! ### Copies of a parsed value -/

theorem Tree.grammatical_steps {t : Json} (h : t.Every (fun _ => True) Number) :
    ∀ e ∈ t.steps, e.Grammatical := by
  rw [steps, forall_mem_events, every_map]
  · exact h
  · intro e hOther
    cases e with
    | number numeral => exact absurd rfl (hOther numeral)
    | _ => trivial

section

variable {profile : Profile} {limits : Limits} {d : Draft}

theorem steps_meet {t : Json} (hRoom : d.room.isSome = true) (hUnique : t.uniqueKeys = true)
    (hNumbers : t.Every (fun _ => True) Number) :
    Meets (firstObstacle profile limits t.steps d.size d.depth)
      (d.copyAll profile limits t.steps) := by
  obtain ⟨holes, hRoom⟩ := Option.isSome_iff_exists.mp hRoom
  apply copyAll_meets (Tree.grammatical_steps hNumbers)
  rw [Tree.map_copied_steps, Draft.stepAll_value ((Tree.uniqueKeys_copied t).mpr hUnique) hRoom]
  rfl

/-- The object that is begun without its excluded members has a place for the next key. -/
theorem stepAll_stepsExcept {members : List (Bytes × Json)} (excluded : List Bytes)
    {holes : List Hole} (hRoom : d.room = some holes)
    (hUnique : (Tree.object members).uniqueKeys = true) :
    d.stepAll ((stepsExcept members excluded).map Event.copied) = some (.growing
      (.object ((members.filter fun m => !keyExcluded m.1 excluded).map fun m => (m.1, m.2.copied))
        none) holes) := by
  let kept := members.filter fun m => !keyExcluded m.1 excluded
  rw [Tree.uniqueKeys_object] at hUnique
  have hBegin : d.step .objectBegin = some (.growing (.object [] none) holes) :=
    Draft.enter_room hRoom _
  have hLoop := @Draft.stepAll_members (kept.map fun m => (m.1, m.2.copied))
    (List.forall_mem_map.mpr fun m hm d holes hRoom =>
      Draft.stepAll_value ((Tree.uniqueKeys_copied _).mpr (hUnique.2 m (List.mem_filter.mp hm).1))
        hRoom) [] holes
    (by
      rw [List.nil_append, List.map_map]
      exact hUnique.1.sublist (List.filter_sublist.map Prod.fst))
  have hEvents : (stepsExcept members excluded).map Event.copied =
      .objectBegin :: (kept.map fun m => (m.1, m.2.copied)).flatMap fun m =>
        .key m.1 :: m.2.events := by
    rw [stepsExcept, List.map_cons, List.map_flatMap, List.flatMap_map]
    refine congrArg (List.cons Event.objectBegin) (List.flatMap_congr fun m _ => ?_)
    rw [List.map_cons, Tree.map_copied_steps]
    rfl
  rw [hEvents, Draft.stepAll, hBegin, Option.bind_some, hLoop]
  rfl

theorem stepsExcept_meet {members : List (Bytes × Json)} (excluded : List Bytes)
    (hRoom : d.room.isSome = true) (hUnique : (Tree.object members).uniqueKeys = true)
    (hNumbers : (Tree.object members).Every (fun _ => True) Number) :
    Meets (firstObstacle profile limits (stepsExcept members excluded) d.size d.depth)
      (d.copyAll profile limits (stepsExcept members excluded)) := by
  obtain ⟨holes, hRoom⟩ := Option.isSome_iff_exists.mp hRoom
  rw [Tree.every_object] at hNumbers
  apply copyAll_meets
  · rw [stepsExcept, List.forall_mem_cons]
    refine ⟨trivial, List.forall_mem_flatMap.mpr fun m hm => List.forall_mem_cons.mpr ⟨trivial, ?_⟩⟩
    exact Tree.grammatical_steps (hNumbers m (List.mem_filter.mp hm).1).2
  · rw [stepAll_stepsExcept excluded hRoom hUnique]
    rfl

end

/-! ### The answers of the calls -/

/-- What a call answers that does to a draft what an operation yields. -/
theorem WriterCall.call_yields {c : WriterCall} {x : WriterM Unit} {w : Writer} {d : Draft}
    {outcome : Except Result Draft} (hOperation : c.operation = silent x) (hBuilds : w.Builds d)
    (h : Yields x w outcome) :
    match outcome with
    | .ok next => (c.call w).1 = ⟨.ok, none⟩ ∧ (c.call w).2.Builds next ∧
    (c.call w).2.setup = w.setup
    | .error r =>
        (c.call w).1 = ⟨r, none⟩ ∧ r ≠ .ok ∧
        (r ≠ .errArgument → writerStatus (c.call w).2 = r) := by
  cases outcome with
  | ok next =>
      obtain ⟨t, hRun, hBuilds', hSetup⟩ := h
      have hCall : c.call w = (⟨.ok, none⟩, t) := by
        rw [call, hOperation, silent, bind_of_ok hRun]
        rfl
      rw [hCall]
      exact ⟨rfl, hBuilds', hSetup⟩
  | error r =>
      obtain ⟨t, hRun⟩ := h
      have hFailed : c.operation w = .error r t := by rw [hOperation, silent, bind_of_error hRun]
      obtain ⟨_, hHeeds⟩ := c.operation_heeds ⟨hBuilds.ready, hBuilds.tables.sized⟩
      rw [hFailed] at hHeeds
      have hCall : c.call w = (⟨r, none⟩, t) := by rw [call, hFailed]
      rw [hCall]
      have hRefused (hSame : r = .errArgument) : r ≠ .ok ∧
        (r ≠ .errArgument → writerStatus t = r) :=
        ⟨by rw [hSame]; simp, fun hArgument => absurd hSame hArgument⟩
      refine ⟨rfl, ?_⟩
      rcases hHeeds.1 with (⟨hSame, -⟩ | hRecorded) | ⟨-, ⟨hSame, -⟩ | hRecorded⟩
      · exact hRefused hSame
      · exact ⟨hRecorded.1, fun _ => hRecorded.2.2⟩
      · exact hRefused hSame
      · exact ⟨hRecorded.1, fun _ => hRecorded.2.2⟩

/-- A value can be written next: the root, the value of a key, or an element. -/
def Writer.AdmitsValue (w : Writer) : Prop :=
  ¬(w.currentContainer.isNone = true ∧ w.nodes.length ≠ 0) ∧ w.needsKey = w.pendingKey.isSome

instance (w : Writer) : Decidable w.AdmitsValue := inferInstanceAs (Decidable (_ ∧ _))

/-- The answer to a copy of these events: a misuse only for a text that cannot be carried, a
limit for every obstacle that is one. -/
structure Classified (w : Writer) (events : List Event) (result status : Result) : Prop where
  argument : result = .errArgument →
    ∃ text ∈ events.filterMap Event.text, validText w.profile (.buffer text) = false
  limit : ∀ o, firstObstacle w.profile w.limits events w.nodes.length w.depth = some o →
    o.OfLimits → result = .errLimit ∧ status = .errLimit

/-- The call answers as documented, when it copies these events. -/
def WriterCall.Classifies (c : WriterCall) (w : Writer) (events : List Event) : Prop :=
  Classified w events (c.call w).1.result (writerStatus (c.call w).2)

theorem WriterCall.classifies_iff {c : WriterCall} {x : WriterM Unit} {w : Writer} {d : Draft}
    {events : List Event} (hOperation : c.operation = WriterCall.silent x) (hBuilds : w.Builds d)
    (hYields : Yields x w (d.copyAll w.profile w.limits events))
    (hMeets : Meets (firstObstacle w.profile w.limits events d.size d.depth)
      (d.copyAll w.profile w.limits events)) :
    c.Classifies w events ↔
      firstObstacle w.profile w.limits events w.nodes.length w.depth ≠ some .lexeme := by
  rw [WriterCall.Classifies]
  rw [← hBuilds.length, ← hBuilds.depth] at hMeets
  cases hObstacle : firstObstacle w.profile w.limits events w.nodes.length w.depth with
  | none =>
      rw [hObstacle] at hMeets
      obtain ⟨next, hOk⟩ := hMeets
      rw [hOk] at hYields
      have hCall := WriterCall.call_yields hOperation hBuilds hYields
      refine iff_of_true ⟨?_, ?_⟩ nofun
      · rw [hCall.1]
        nofun
      · rw [hObstacle]
        nofun
  | some o =>
      rw [hObstacle] at hMeets
      obtain ⟨r, hError, hAnswers⟩ := hMeets
      rw [hError] at hYields
      have hCall := WriterCall.call_yields hOperation hBuilds hYields
      rw [hCall.1]
      have hLimit (hAnswer : r = .errLimit) :
          Classified w events r (writerStatus (c.call w).2) := by
        refine ⟨fun hArgument => ?_, fun _ _ _ => ⟨hAnswer, ?_⟩⟩
        · rw [hAnswer] at hArgument
          cases hArgument
        · rw [hCall.2.2 (by rw [hAnswer]; nofun), hAnswer]
      have hNone (hNot : ¬o.OfLimits) :
          ∀ o', firstObstacle w.profile w.limits events w.nodes.length w.depth = some o' →
          o'.OfLimits → r = .errLimit ∧ writerStatus (c.call w).2 = .errLimit := by
        intro o' hSame hOf
        rw [hObstacle, Option.some.injEq] at hSame
        rw [← hSame] at hOf
        exact absurd hOf hNot
      cases o with
      | text => exact iff_of_true (hLimit hAnswers) nofun
      | depth => exact iff_of_true (hLimit hAnswers) nofun
      | nodes => exact iff_of_true (hLimit hAnswers) nofun
      | unfit =>
          exact iff_of_true ⟨fun _ => firstObstacle_unfit hObstacle,
            hNone (by simp [Obstacle.OfLimits])⟩ nofun
      | range =>
          have hRange : r = .errRange := hAnswers
          refine iff_of_true ⟨fun hArgument => ?_, hNone (by simp [Obstacle.OfLimits])⟩ nofun
          rw [hRange] at hArgument
          cases hArgument
      | lexeme =>
          refine iff_of_false (fun h => ?_) (fun hNot => hNot rfl)
          have hSame := (h.limit .lexeme hObstacle (Or.inr (Or.inl rfl))).1
          rcases hAnswers with hAnswer | hAnswer
          · rw [hAnswer] at hSame
            cases hSame
          · rw [hAnswer] at hSame
            cases hSame

/-- A copy into a ready writer is answered as documented exactly when its first obstacle is not
the long lexeme of a number that is no integer. -/
theorem copies_classified {heap h heap' : Heap} {profile profile' : Profile}
    {requested requested' : Option Limits} {flags : UInt32} {w₀ : Writer} (hHeap : heap.Generous)
    (hCreate : writerCreate heap profile requested flags = (.ok w₀, h)) (calls : List WriterCall)
    (hReady : (callAll calls w₀).2.Ready) (hAdmits : (callAll calls w₀).2.AdmitsValue)
    {input : CText} {errorGiven : Bool} {document : Document}
    (hParse : (documentParse heap' input profile' requested' errorGiven).document = some document)
    {value : Nat} (hValue : valueType document value ≠ .none) :
    let w := (callAll calls w₀).2
    ∃ t, valueTree document document.tokens.length value = .ok t ∧
      ((WriterCall.value (some document) value).Classifies w t.steps ↔
        firstObstacle w.profile w.limits t.steps w.nodes.length w.depth ≠ some .lexeme) ∧
      ∀ excludedKeys excluded, valueType document value = .object →
        excludedKeys.strings = some excluded → ∃ members, t = .object members ∧
          ((WriterCall.objectBeginExcept (some document) value excludedKeys).Classifies w
              (stepsExcept members excluded) ↔
            firstObstacle w.profile w.limits (stepsExcept members excluded) w.nodes.length w.depth ≠
              some .lexeme) := by
  intro w
  obtain ⟨limits, hLimits, -⟩ := writerCreate_eq_ok.mp hCreate
  obtain ⟨hCreated, -⟩ := writerCreate_drafted hHeap hLimits hCreate
  obtain ⟨⟨d, hBuilds, -⟩, -⟩ := callAll_drafted hCreated calls hReady
  obtain ⟨t, hCarries⟩ := documentParse_carries hParse hValue
  have hRoom := hBuilds.room.mp hAdmits
  have hNumbers : t.Every (fun _ => True) Number :=
    hCarries.every.imp (fun _ _ => trivial) fun _ hNumber => hNumber
  refine ⟨t, hCarries.tree, ?_, fun excludedKeys excluded hType hStrings => ?_⟩
  · exact WriterCall.classifies_iff rfl hBuilds (writerValue_yields hBuilds hCarries)
      (steps_meet hRoom hCarries.unique hNumbers)
  · obtain ⟨members, rfl, hYields⟩ := writerObjectBeginExcept_yields hBuilds hCarries hType hStrings
    exact ⟨members, rfl,
      WriterCall.classifies_iff rfl hBuilds hYields
      (stepsExcept_meet excluded hRoom hCarries.unique hNumbers)⟩

/-- The text `0.25`. -/
def quarterText : Bytes := [0x30, 0x2e, 0x32, 0x35]

def quarterDocument : Document :=
  ⟨.rfc8259, quarterText,
    [{ Token.blank with type := .number, stop := 4, text := some 0, textSize := 4 }], 4,
    quarterText ++ [0], 9, [], 0⟩

/-- Into a writer with the default limits there is no obstacle, and the copy is answered as
documented. -/
theorem copies_classified_quarter :
    let w := Writer.fresh .rfc8259 ⟨65535, 32, 8192⟩ 0 ⟨fun _ => true, [144, 256, 256]⟩
    let t : Json := .number quarterText
    valueTree quarterDocument quarterDocument.tokens.length 0 = .ok t ∧
      firstObstacle .rfc8259 ⟨65535, 32, 8192⟩ t.steps 0 0 = none ∧
      (WriterCall.value (some quarterDocument) 0).Classifies w t.steps := by
  intro w t
  obtain ⟨t', hTree, hIff, -⟩ := @copies_classified ⟨fun _ => true, []⟩ ⟨fun _ => true,
    [144, 256, 256]⟩ ⟨fun _ => true, []⟩ .rfc8259 .rfc8259 none none 0
    (.fresh .rfc8259 ⟨65535, 32, 8192⟩ 0 ⟨fun _ => true, [144, 256, 256]⟩) (fun _ => rfl) rfl []
    (by decide) (by decide) (.buffer quarterText) true quarterDocument (by decide +kernel) 0
    (by decide)
  obtain rfl : t = t' := Except.ok.inj (Eq.trans (by rfl) hTree)
  have hNone : firstObstacle .rfc8259 ⟨65535, 32, 8192⟩ t.steps 0 0 = none := by decide +kernel
  exact ⟨hTree, hNone, hIff.mpr fun hLexeme => absurd (hNone.symm.trans hLexeme) (by decide)⟩

/-- The writer takes three bytes. It blames its caller for a document without any string or key,
and its own status is not the limit. -/
theorem copies_classified_long :
    (documentParse ⟨fun _ => true, []⟩ (.buffer quarterText) .rfc8259 none true).document =
      some quarterDocument ∧
    let w := Writer.fresh .rfc8259 ⟨3, 32, 8192⟩ 0 ⟨fun _ => true, [144, 256, 256]⟩
    writerCreate ⟨fun _ => true, []⟩ .rfc8259 (some ⟨3, 32, 8192⟩) 0 =
      (.ok w, ⟨fun _ => true, [144, 256, 256]⟩) ∧
      valueTree quarterDocument quarterDocument.tokens.length 0 = .ok (.number quarterText) ∧
      ((WriterCall.value (some quarterDocument) 0).call w).1.result = .errArgument ∧
      writerStatus ((WriterCall.value (some quarterDocument) 0).call w).2 = .errState ∧
      ¬(WriterCall.value (some quarterDocument) 0).Classifies w
        (Tree.number quarterText : Json).steps := by
  have hResult : ((WriterCall.value (some quarterDocument) 0).call
      (.fresh .rfc8259 ⟨3, 32, 8192⟩ 0 ⟨fun _ => true, [144, 256, 256]⟩)).1.result =
      .errArgument := by decide +kernel
  refine ⟨by decide +kernel, rfl, rfl, hResult, by decide +kernel, fun h => ?_⟩
  have hSame := (h.limit .lexeme (by decide +kernel) (Or.inr (Or.inl rfl))).1
  rw [hResult] at hSame
  cases hSame

end MaelysJson
