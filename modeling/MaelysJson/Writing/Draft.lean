import MaelysJson.Code.Serialize
import MaelysJson.Json.Tree

/-! What the writer is for, without tables or heap: a value is built from a sequence of
events, container by container. A draft is a value with at most one place where the
next value can go. -/
namespace MaelysJson

/-- A number as it is given to the writer. -/
inductive Numeral where
  | unsigned (value : UInt64)
  | signed (value : Int64)
  | lexeme (text : Bytes)
  deriving DecidableEq, Repr

/-- The text of a number in the output. -/
def Numeral.text : Numeral → Bytes
  | .unsigned value => decimalU64 value
  | .signed value => decimalI64 value
  | .lexeme text => text

inductive Event where
  | objectBegin
  | objectEnd
  | arrayBegin
  | arrayEnd
  | key (name : Bytes)
  | string (text : Bytes)
  | number (numeral : Numeral)
  | boolean (value : Bool)
  | null
  deriving DecidableEq, Repr

namespace Tree

/-- The events of a value, depth first. -/
def events : Tree Numeral → List Event :=
  fold
    { object := fun members =>
        .objectBegin :: (members.flatMap fun m => .key m.1 :: m.2) ++ [.objectEnd]
      array := fun elements => .arrayBegin :: elements.flatMap id ++ [.arrayEnd]
      string := fun text => [.string text]
      number := fun numeral => [.number numeral]
      boolean := fun value => [.boolean value]
      null := [.null] }

theorem events_object (members : List (Bytes × Tree Numeral)) :
    (object members).events =
      .objectBegin :: (members.flatMap fun m => .key m.1 :: m.2.events) ++ [.objectEnd] := by
  simp only [events, fold_object, List.flatMap_map]

theorem events_array (elements : List (Tree Numeral)) :
    (array elements).events = .arrayBegin :: elements.flatMap events ++ [.arrayEnd] := by
  simp only [events, fold_array, List.flatMap_map, id_eq]

/-- What holds of every other event holds of all events where it holds of the numbers. -/
theorem forall_mem_events {P : Event → Prop} (hOther : ∀ e, (∀ numeral, e ≠ .number numeral) → P e)
    {t : Tree Numeral} :
    (∀ e ∈ t.events, P e) ↔ t.Every (fun _ => True) fun numeral => P (.number numeral) := by
  induction t with
  | object members ih =>
      rw [events_object, every_object, List.forall_mem_append, List.forall_mem_cons,
        List.forall_mem_flatMap]
      constructor
      · rintro ⟨⟨-, hMembers⟩, -⟩ m hm
        exact ⟨trivial, (ih m hm).mp (List.forall_mem_cons.mp (hMembers m hm)).2⟩
      · intro h
        refine ⟨⟨hOther _ nofun, fun m hm => ?_⟩, List.forall_mem_singleton.mpr (hOther _ nofun)⟩
        exact List.forall_mem_cons.mpr ⟨hOther _ nofun, (ih m hm).mpr (h m hm).2⟩
  | array elements ih =>
      rw [events_array, every_array, List.forall_mem_append, List.forall_mem_cons,
        List.forall_mem_flatMap]
      constructor
      · rintro ⟨⟨-, hElements⟩, -⟩ v hv
        exact (ih v hv).mp (hElements v hv)
      · intro h
        exact ⟨⟨hOther _ nofun, fun v hv => (ih v hv).mpr (h v hv)⟩,
          List.forall_mem_singleton.mpr (hOther _ nofun)⟩
  | string text => exact ⟨fun _ => trivial, fun _ => List.forall_mem_singleton.mpr (hOther _ nofun)⟩
  | number numeral => exact List.forall_mem_singleton
  | boolean value =>
      exact ⟨fun _ => trivial, fun _ => List.forall_mem_singleton.mpr (hOther _ nofun)⟩
  | null => exact ⟨fun _ => trivial, fun _ => List.forall_mem_singleton.mpr (hOther _ nofun)⟩

end Tree

/-! ### Drafts -/

/-- A container that waits for the value of a key, or for an element. -/
inductive Hole where
  | object (members : List (Bytes × Tree Numeral)) (key : Bytes)
  | array (elements : List (Tree Numeral))

/-- The innermost open container; an object may have a key without its value. -/
inductive Focus where
  | object (members : List (Bytes × Tree Numeral)) (pending : Option Bytes)
  | array (elements : List (Tree Numeral))

inductive Draft where
  | empty
  | growing (focus : Focus) (holes : List Hole)
  | complete (root : Tree Numeral)

/-- The container with its next value. -/
def Hole.fill (value : Tree Numeral) : Hole → Focus
  | .object members key => .object (members ++ [(key, value)]) none
  | .array elements => .array (elements ++ [value])

/-- The place where a value can go, if there is one. -/
def Focus.hole : Focus → Option Hole
  | .object members pending => pending.map (.object members)
  | .array elements => some (.array elements)

namespace Draft

/-- What is open around the next value; nothing around a root. -/
def room : Draft → Option (List Hole)
  | .empty => some []
  | .growing focus holes => focus.hole.map (· :: holes)
  | .complete _ => none

/-- A value in its place. -/
def close (value : Tree Numeral) : List Hole → Draft
  | [] => .complete value
  | hole :: holes => .growing (hole.fill value) holes

def add (value : Tree Numeral) (d : Draft) : Option Draft := d.room.map (close value)

def enter (focus : Focus) (d : Draft) : Option Draft := d.room.map (.growing focus)

/-- The next event, where the grammar of events has it. -/
def step : Event → Draft → Option Draft
  | .objectBegin, d => d.enter (.object [] none)
  | .objectEnd, .growing (.object members none) holes => some (close (.object members) holes)
  | .arrayBegin, d => d.enter (.array [])
  | .arrayEnd, .growing (.array elements) holes => some (close (.array elements) holes)
  | .key name, .growing (.object members none) holes =>
      if name ∈ members.map Prod.fst then none
      else some (.growing (.object members (some name)) holes)
  | .string text, d => d.add (.string text)
  | .number numeral, d => d.add (.number numeral)
  | .boolean value, d => d.add (.boolean value)
  | .null, d => d.add .null
  | _, _ => none

end Draft

/-! ### Limits -/

/-- The values of an open container, itself included. -/
def Hole.size : Hole → Nat
  | .object members _ => 1 + (members.map fun m => m.2.values).sum
  | .array elements => 1 + (elements.map Tree.values).sum

def Focus.size : Focus → Nat
  | .object members _ => 1 + (members.map fun m => m.2.values).sum
  | .array elements => 1 + (elements.map Tree.values).sum

def holesSize (holes : List Hole) : Nat := (holes.map Hole.size).sum

namespace Draft

/-- The number of values so far, open containers included. -/
def size : Draft → Nat
  | .empty => 0
  | .growing focus holes => focus.size + holesSize holes
  | .complete root => root.values

def depth : Draft → Nat
  | .growing _ holes => holes.length + 1
  | _ => 0

end Draft

/-- A text that a writer takes. -/
def Writable (profile : Profile) (limits : Limits) (text : Bytes) : Prop :=
  validText profile (.buffer text) = true ∧ text.length ≤ limits.maximumBytes

instance (profile : Profile) (limits : Limits) (text : Bytes) :
    Decidable (Writable profile limits text) :=
  inferInstanceAs (Decidable (_ ∧ _))

/-- A number that a writer takes. -/
def Numeral.Writable (limits : Limits) : Numeral → Prop
  | .lexeme text => numberSyntax text = true ∧ text.length ≤ limits.maximumBytes
  | _ => True

instance (limits : Limits) (numeral : Numeral) : Decidable (numeral.Writable limits) :=
  match numeral with
  | .lexeme _ => inferInstanceAs (Decidable (_ ∧ _))
  | .unsigned _ => .isTrue trivial
  | .signed _ => .isTrue trivial

/-- What the profile and the limits have to say to an event. -/
def Event.Permitted (profile : Profile) (limits : Limits) (d : Draft) : Event → Prop
  | .objectBegin => d.depth < limits.maximumDepth ∧ d.size < limits.maximumTokens
  | .arrayBegin => d.depth < limits.maximumDepth ∧ d.size < limits.maximumTokens
  | .objectEnd => True
  | .arrayEnd => True
  | .key name => Writable profile limits name
  | .string text => Writable profile limits text ∧ d.size < limits.maximumTokens
  | .number numeral => numeral.Writable limits ∧ d.size < limits.maximumTokens
  | .boolean _ => d.size < limits.maximumTokens
  | .null => d.size < limits.maximumTokens

instance (profile : Profile) (limits : Limits) (d : Draft) (e : Event) :
    Decidable (e.Permitted profile limits d) :=
  match e with
  | .objectBegin => inferInstanceAs (Decidable (_ ∧ _))
  | .arrayBegin => inferInstanceAs (Decidable (_ ∧ _))
  | .objectEnd => .isTrue trivial
  | .arrayEnd => .isTrue trivial
  | .key _ => inferInstanceAs (Decidable (MaelysJson.Writable _ _ _))
  | .string _ => inferInstanceAs (Decidable (_ ∧ _))
  | .number _ => inferInstanceAs (Decidable (_ ∧ _))
  | .boolean _ => inferInstanceAs (Decidable (_ < _))
  | .null => inferInstanceAs (Decidable (_ < _))

/-- The value as a whole, in a place with these containers around it. -/
structure Tree.Admitted (profile : Profile) (limits : Limits) (holes : List Hole)
    (t : Tree Numeral) : Prop where
  unique : t.uniqueKeys = true
  every : t.Every (Writable profile limits) (Numeral.Writable limits)
  size : holesSize holes + t.values ≤ limits.maximumTokens
  depth : holes.length + t.depth ≤ limits.maximumDepth

namespace Draft

section

variable (profile : Profile) (limits : Limits)

def permit (e : Event) (d : Draft) : Option Draft :=
  if e.Permitted profile limits d then d.step e else none

/-- The draft with its next value, unless it has no place or no token left for one. -/
def placed (next : Option Draft) (d : Draft) : Except Result Draft :=
  match next with
  | none => .error .errState
  | some next => if d.size < limits.maximumTokens then .ok next else .error .errLimit

/-- What comes of an event: the next draft, or the first reason that is found against it. -/
def attempt (e : Event) (d : Draft) : Except Result Draft :=
  match e with
  | .objectBegin => if d.depth < limits.maximumDepth then d.placed limits (d.step e) else
    .error .errLimit
  | .arrayBegin => if d.depth < limits.maximumDepth then d.placed limits (d.step e) else
    .error .errLimit
  | .objectEnd => (d.step e).elim (.error .errState) .ok
  | .arrayEnd => (d.step e).elim (.error .errState) .ok
  | .key name =>
      if validText profile (.buffer name) = true then
        match d with
        | .growing (.object members none) _ =>
            if name.length > limits.maximumBytes then .error .errLimit
            else if name ∈ members.map Prod.fst then .error .errDuplicateKey
            else (d.step e).elim (.error .errState) .ok
        | _ => .error .errState
      else .error .errArgument
  | .string text =>
      if validText profile (.buffer text) = true then
        if text.length > limits.maximumBytes then .error .errLimit else d.placed limits (d.step e)
      else .error .errArgument
  | .number (.lexeme text) =>
      if numberSyntax text = true then
        if text.length > limits.maximumBytes then .error .errLimit else d.placed limits (d.step e)
      else .error .errArgument
  | _ => d.placed limits (d.step e)

/-- One event after another. -/
def run : List Event → Draft → Option Draft
  | [], d => some d
  | e :: events, d => (d.permit profile limits e).bind (run events)

end

/-! ### The events of a draft -/

end Draft

def Hole.events : Hole → List Event
  | .object members key =>
    (.objectBegin :: members.flatMap fun m => .key m.1 :: m.2.events) ++ [.key key]
  | .array elements => .arrayBegin :: elements.flatMap Tree.events

def Focus.events : Focus → List Event
  | .object members pending =>
      (.objectBegin :: members.flatMap fun m => .key m.1 :: m.2.events) ++
        (pending.map Event.key).toList
  | .array elements => .arrayBegin :: elements.flatMap Tree.events

/-- The events of the open containers, from the outermost on. -/
def holesEvents : List Hole → List Event
  | [] => []
  | hole :: holes => holesEvents holes ++ hole.events

namespace Draft

/-- The events that lead to a draft. -/
def events : Draft → List Event
  | .empty => []
  | .growing focus holes => holesEvents holes ++ focus.events
  | .complete root => root.events

variable {d d' : Draft} {holes : List Hole}

theorem focus_room {focus : Focus} {hole : Hole} (h : focus.hole = some hole) :
    focus.events = hole.events := by
  cases focus with
  | object members pending =>
      obtain ⟨key, rfl, rfl⟩ := Option.map_eq_some_iff.mp h
      rfl
  | array elements =>
      cases h
      rfl

theorem events_room (h : d.room = some holes) : d.events = holesEvents holes := by
  cases d with
  | empty =>
      cases h
      rfl
  | growing focus outer =>
      obtain ⟨hole, hHole, rfl⟩ := Option.map_eq_some_iff.mp h
      rw [events, holesEvents, focus_room hHole]
  | complete root => cases h

theorem events_close (t : Tree Numeral) (holes : List Hole) :
    (close t holes).events = holesEvents holes ++ t.events := by
  cases holes with
  | nil => rfl
  | cons hole holes =>
      cases hole with
      | object members key =>
          simp [close, events, Hole.fill, Focus.events, holesEvents, Hole.events]
      | array elements => simp [close, events, Hole.fill, Focus.events, holesEvents, Hole.events]

theorem events_add {t : Tree Numeral} (h : d.add t = some d') :
    d'.events = d.events ++ t.events := by
  obtain ⟨holes, hRoom, rfl⟩ := Option.map_eq_some_iff.mp h
  rw [events_close, events_room hRoom]

theorem events_enter {focus : Focus} (h : d.enter focus = some d') :
    d'.events = d.events ++ focus.events := by
  obtain ⟨holes, hRoom, rfl⟩ := Option.map_eq_some_iff.mp h
  rw [events, events_room hRoom]

/-- Every event is recorded. -/
theorem events_step {e : Event} (h : d.step e = some d') : d'.events = d.events ++ [e] := by
  cases e with
  | objectBegin => exact events_enter h
  | arrayBegin => exact events_enter h
  | string text => exact events_add h
  | number numeral => exact events_add h
  | boolean value => exact events_add h
  | null => exact events_add h
  | objectEnd =>
      rcases d with _ | ⟨⟨members, _ | pending⟩ | elements, holes⟩ | root
      · cases h
      · cases h
        rw [events_close, Tree.events_object]
        simp [events, Focus.events]
      · cases h
      · cases h
      · cases h
  | arrayEnd =>
      rcases d with _ | ⟨⟨members, pending⟩ | elements, holes⟩ | root
      · cases h
      · cases h
      · cases h
        rw [events_close, Tree.events_array]
        simp [events, Focus.events]
      · cases h
  | key name =>
      rcases d with _ | ⟨⟨members, _ | pending⟩ | elements, holes⟩ | root
      · cases h
      · rw [step] at h
        split_ifs at h
        cases h
        simp [events, Focus.events]
      · cases h
      · cases h
      · cases h

variable {profile : Profile} {limits : Limits}

theorem attempt_key (members : List (Bytes × Tree Numeral)) (holes : List Hole) (name : Bytes) :
    (growing (.object members none) holes).attempt profile limits (.key name) =
      if validText profile (.buffer name) = true then
        if name.length > limits.maximumBytes then .error .errLimit
        else if name ∈ members.map Prod.fst then .error .errDuplicateKey
        else ((growing (.object members none) holes).step (.key name)).elim (.error .errState) .ok
      else .error .errArgument := rfl

theorem placed_eq_ok {next : Option Draft} :
    d.placed limits next = .ok d' ↔ d.size < limits.maximumTokens ∧ next = some d' := by
  cases next with
  | none => exact ⟨nofun, fun h => nomatch h.2⟩
  | some next =>
      rw [placed]
      split_ifs with hSize
      · rw [Except.ok.injEq, Option.some.injEq]
        exact ⟨fun h => ⟨hSize, h⟩, fun h => h.2⟩
      · exact ⟨nofun, fun h => absurd h.1 hSize⟩

/-- An attempt succeeds where the event is permitted. -/
theorem attempt_eq_ok {e : Event} :
    d.attempt profile limits e = .ok d' ↔ d.permit profile limits e = some d' := by
  have hPermit : d.permit profile limits e = some d' ↔ e.Permitted profile limits d ∧
      d.step e = some d' := by
    rw [permit]
    split_ifs with hPermitted
    · rw [and_iff_right hPermitted]
    · exact ⟨nofun, fun h => absurd h.1 hPermitted⟩
  have hEnd {next : Option Draft} :
      (next.elim (.error .errState) .ok : Except Result Draft) = .ok d' ↔
        True ∧ next = some d' := by
    cases next with
    | none => exact ⟨nofun, fun h => nomatch h.2⟩
    | some next => rw [true_and, Option.elim_some, Except.ok.injEq, Option.some.injEq]
  have hText {valid : Bool} {text : Bytes} {c : Prop}
      (hIff : c ↔ valid = true ∧ text.length ≤ limits.maximumBytes) : ((if valid = true then
          if text.length > limits.maximumBytes then .error .errLimit else d.placed limits (d.step e)
        else .error .errArgument : Except Result Draft) = .ok d' ↔
        (c ∧ d.size < limits.maximumTokens) ∧ d.step e = some d') := by
    rw [hIff]
    split_ifs with hValid hLength
    · exact ⟨nofun, fun h => absurd h.1.1.2 (not_le.mpr hLength)⟩
    · rw [placed_eq_ok, and_iff_right (show valid = true ∧ text.length ≤ limits.maximumBytes from
        ⟨hValid, not_lt.mp hLength⟩)]
    · exact ⟨nofun, fun h => absurd h.1.1.1 hValid⟩
  have hBegin : (if d.depth < limits.maximumDepth then d.placed limits (d.step e) else
    .error .errLimit) = .ok d' ↔
      (d.depth < limits.maximumDepth ∧ d.size < limits.maximumTokens) ∧ d.step e = some d' := by
    split_ifs with hDepth
    · rw [placed_eq_ok, and_iff_right hDepth]
    · exact ⟨nofun, fun h => absurd h.1.1 hDepth⟩
  rw [hPermit]
  cases e with
  | objectBegin => exact hBegin
  | arrayBegin => exact hBegin
  | objectEnd => exact hEnd
  | arrayEnd => exact hEnd
  | string text => exact hText Iff.rfl
  | number numeral =>
      cases numeral with
      | lexeme text => exact hText Iff.rfl
      | _ => exact placed_eq_ok.trans (and_congr_left fun _ => (and_iff_right trivial).symm)
  | boolean value => exact placed_eq_ok
  | null => exact placed_eq_ok
  | key name =>
      have hMisplaced {c : Prop} (hNone : d.step (.key name) = none)
          (hState : d.attempt profile limits (.key name) =
          if validText profile (.buffer name) = true then .error .errState
          else .error .errArgument) : d.attempt profile limits (.key name) = .ok d' ↔
            c ∧ d.step (.key name) = some d' := by
        rw [hNone, hState]
        split_ifs <;> exact ⟨nofun, fun h => nomatch h.2⟩
      rcases d with _ | ⟨⟨members, _ | pending⟩ | elements, holes⟩ | root
      · exact hMisplaced rfl rfl
      · rw [attempt_key, Event.Permitted, Writable]
        split_ifs with hValid hLength hKey
        · exact ⟨nofun, fun h => absurd h.1.2 (not_le.mpr hLength)⟩
        · rw [step, if_pos hKey]
          exact ⟨nofun, fun h => nomatch h.2⟩
        · rw [and_iff_right (show _ ∧ _ from ⟨hValid, not_lt.mp hLength⟩), hEnd, true_and]
        · exact ⟨nofun, fun h => absurd h.1.1 hValid⟩
      · exact hMisplaced rfl rfl
      · exact hMisplaced rfl rfl
      · exact hMisplaced rfl rfl

theorem run_cons {e : Event} {events : List Event} :
    run profile limits (e :: events) d = some d' ↔
      e.Permitted profile limits d ∧ ∃ next, d.step e = some next ∧
        run profile limits events next = some d' := by
  rw [run, Option.bind_eq_some_iff]
  simp only [permit]
  by_cases h : e.Permitted profile limits d
  · simp [h]
  · simp [h]

theorem run_append {events events' : List Event} :
    run profile limits (events ++ events') d = some d' ↔
      ∃ next, run profile limits events d = some next ∧
        run profile limits events' next = some d' := by
  induction events generalizing d with
  | nil => simp [run]
  | cons e events ih =>
      simp only [List.cons_append, run_cons, ih]
      constructor
      · rintro ⟨hPermitted, next, hStep, last, hRun, hRun'⟩
        exact ⟨last, ⟨hPermitted, next, hStep, hRun⟩, hRun'⟩
      · rintro ⟨last, ⟨hPermitted, next, hStep, hRun⟩, hRun'⟩
        exact ⟨hPermitted, next, hStep, last, hRun, hRun'⟩

theorem events_run {events : List Event} (h : run profile limits events d = some d') :
    d'.events = d.events ++ events := by
  induction events generalizing d with
  | nil =>
      cases h
      rw [List.append_nil]
  | cons e events ih =>
      obtain ⟨-, next, hStep, hRun⟩ := run_cons.mp h
      rw [ih hRun, events_step hStep, List.append_assoc, List.singleton_append]

/-! ### The run of a value -/

theorem size_room (h : d.room = some holes) : d.size = holesSize holes := by
  cases d with
  | empty =>
      cases h
      rfl
  | growing focus outer =>
      obtain ⟨hole, hHole, rfl⟩ := Option.map_eq_some_iff.mp h
      have hSize : focus.size = hole.size := by
        cases focus with
        | object members pending =>
            obtain ⟨key, rfl, rfl⟩ := Option.map_eq_some_iff.mp hHole
            rfl
        | array elements =>
            cases hHole
            rfl
      rw [size, hSize, holesSize, holesSize, List.map_cons, List.sum_cons]
  | complete root => cases h

theorem depth_room (h : d.room = some holes) : d.depth = holes.length := by
  cases d with
  | empty =>
      cases h
      rfl
  | growing focus outer =>
      obtain ⟨hole, -, rfl⟩ := Option.map_eq_some_iff.mp h
      rfl
  | complete root => cases h

theorem run_singleton {e : Event} :
    run profile limits [e] d = some d' ↔ e.Permitted profile limits d ∧ d.step e = some d' := by
  rw [run_cons]
  constructor
  · rintro ⟨hPermitted, next, hStep, hRun⟩
    cases hRun
    exact ⟨hPermitted, hStep⟩
  · rintro ⟨hPermitted, hStep⟩
    exact ⟨hPermitted, d', hStep, rfl⟩

theorem add_room (h : d.room = some holes) (t : Tree Numeral) : d.add t = some (close t holes) := by
  rw [add, h, Option.map_some]

theorem enter_room (h : d.room = some holes) (focus : Focus) :
    d.enter focus = some (.growing focus holes) := by
  rw [enter, h, Option.map_some]

/-- What is known of the run of a value, from any place where it can go. -/
def RunsAs (profile : Profile) (limits : Limits) (t : Tree Numeral) : Prop :=
  ∀ ⦃d d' : Draft⦄ ⦃holes : List Hole⦄, d.room = some holes → holes.length ≤ limits.maximumDepth →
    (run profile limits t.events d = some d' ↔ t.Admitted profile limits holes ∧ d' = close t holes)

/-- The members of an object, after those that are there. -/
theorem run_members {members : List (Bytes × Tree Numeral)}
    (hMembers : ∀ m ∈ members, RunsAs profile limits m.2) (done : List (Bytes × Tree Numeral))
    (hSize : holesSize holes + (1 + (done.map fun m => m.2.values).sum) ≤ limits.maximumTokens)
    (hDepth : holes.length + 1 ≤ limits.maximumDepth) :
    run profile limits (members.flatMap fun m => .key m.1 :: m.2.events)
        (.growing (.object done none) holes) = some d' ↔
      ((∀ m ∈ members, Writable profile limits m.1 ∧ m.1 ∉ done.map Prod.fst ∧
            m.2.uniqueKeys = true ∧ m.2.Every (Writable profile limits) (Numeral.Writable limits) ∧
            holes.length + 1 + m.2.depth ≤ limits.maximumDepth) ∧
          (members.map Prod.fst).Nodup ∧
          holesSize holes + (1 + (done.map fun m => m.2.values).sum) +
            (members.map fun m => m.2.values).sum ≤ limits.maximumTokens) ∧
        d' = .growing (.object (done ++ members) none) holes := by
  induction members generalizing done with
  | nil =>
      rw [List.flatMap_nil, run, Option.some.injEq, List.append_nil]
      exact ⟨fun h => ⟨⟨nofun, List.nodup_nil, hSize⟩, h.symm⟩, fun h => h.2.symm⟩
  | cons m members ih =>
      obtain ⟨name, value⟩ := m
      have hValue := hMembers (name, value) (List.mem_cons_self ..)
      have hRest := ih fun m hm => hMembers m (List.mem_cons_of_mem _ hm)
      have hRoom : room (.growing (.object done (some name)) holes) =
        some (.object done name :: holes) := rfl
      have hHoles : holesSize (.object done name :: holes) =
          holesSize holes + (1 + (done.map fun m => m.2.values).sum) := by
        rw [holesSize, List.map_cons, List.sum_cons, Hole.size, Nat.add_comm]
        rfl
      rw [List.flatMap_cons, List.cons_append, run_cons]
      constructor
      · rintro ⟨hName, next, hStep, hRun⟩
        rw [step] at hStep
        split_ifs at hStep with hKey
        cases hStep
        obtain ⟨after, hFirst, hRun⟩ := run_append.mp hRun
        obtain ⟨hAdmitted, rfl⟩ := (hValue hRoom hDepth).mp hFirst
        have hSize' := hAdmitted.size
        rw [hHoles] at hSize'
        obtain ⟨⟨hEach, hNodup, hSum⟩, rfl⟩ := (hRest (done ++ [(name, value)])
          (by rw [List.map_append, List.sum_append]; simpa [Nat.add_assoc] using hSize')).mp hRun
        refine ⟨⟨?_, ?_, ?_⟩, by rw [List.append_assoc]; rfl⟩
        · rw [List.forall_mem_cons]
          refine ⟨⟨hName, hKey, hAdmitted.unique, hAdmitted.every, hAdmitted.depth⟩, fun m hm => ?_⟩
          obtain ⟨hWritable, hNot, hRest⟩ := hEach m hm
          rw [List.map_append, List.mem_append, not_or] at hNot
          exact ⟨hWritable, hNot.1, hRest⟩
        · rw [List.map_cons, List.nodup_cons]
          refine ⟨fun hMem => ?_, hNodup⟩
          obtain ⟨m, hm, hName⟩ := List.mem_map.mp hMem
          apply (hEach m hm).2.1
          rw [List.map_append, List.mem_append]
          exact Or.inr (by simp [hName])
        · rw [List.map_append, List.sum_append] at hSum
          simp only [List.map_cons, List.map_nil, List.sum_cons, List.sum_nil] at hSum ⊢
          omega
      · rintro ⟨⟨hEach, hNodup, hSum⟩, rfl⟩
        rw [List.forall_mem_cons] at hEach
        obtain ⟨⟨hName, hKey, hUnique, hEvery, hFits⟩, hEach⟩ := hEach
        rw [List.map_cons, List.nodup_cons] at hNodup
        simp only [List.map_cons, List.sum_cons] at hSum
        have hAdmitted : value.Admitted profile limits (.object done name :: holes) := by
          refine ⟨hUnique, hEvery, ?_, hFits⟩
          rw [hHoles]
          omega
        refine ⟨hName, _, if_neg hKey,
          run_append.mpr ⟨_, (hValue hRoom hDepth).mpr ⟨hAdmitted, rfl⟩, ?_⟩⟩
        apply (hRest (done ++ [(name, value)]) _).mpr
        · refine ⟨⟨fun m hm => ?_, hNodup.2, ?_⟩, by rw [List.append_assoc]; rfl⟩
          · obtain ⟨hWritable, hNot, hRest⟩ := hEach m hm
            refine ⟨hWritable, ?_, hRest⟩
            rw [List.map_append, List.mem_append, not_or]
            refine ⟨hNot, fun hMem => hNodup.1 ?_⟩
            rw [← List.mem_singleton.mp hMem]
            exact List.mem_map_of_mem hm
          · rw [List.map_append, List.sum_append]
            simp only [List.map_cons, List.map_nil, List.sum_cons, List.sum_nil]
            omega
        · rw [List.map_append, List.sum_append]
          simp only [List.map_cons, List.map_nil, List.sum_cons, List.sum_nil]
          omega

/-- The elements of an array, after those that are there. -/
theorem run_elements {elements : List (Tree Numeral)}
    (hElements : ∀ v ∈ elements, RunsAs profile limits v) (done : List (Tree Numeral))
    (hSize : holesSize holes + (1 + (done.map Tree.values).sum) ≤ limits.maximumTokens)
    (hDepth : holes.length + 1 ≤ limits.maximumDepth) :
    run profile limits (elements.flatMap Tree.events) (.growing (.array done) holes) = some d' ↔
      ((∀ v ∈ elements, v.uniqueKeys = true ∧
            v.Every (Writable profile limits) (Numeral.Writable limits) ∧
            holes.length + 1 + v.depth ≤ limits.maximumDepth) ∧
          holesSize holes + (1 + (done.map Tree.values).sum) + (elements.map Tree.values).sum ≤
            limits.maximumTokens) ∧
        d' = .growing (.array (done ++ elements)) holes := by
  induction elements generalizing done with
  | nil =>
      rw [List.flatMap_nil, run, Option.some.injEq, List.append_nil]
      exact ⟨fun h => ⟨⟨nofun, hSize⟩, h.symm⟩, fun h => h.2.symm⟩
  | cons value elements ih =>
      have hValue := hElements value (List.mem_cons_self ..)
      have hRest := ih fun v hv => hElements v (List.mem_cons_of_mem _ hv)
      have hRoom : room (.growing (.array done) holes) = some (.array done :: holes) := rfl
      have hHoles : holesSize (.array done :: holes) =
          holesSize holes + (1 + (done.map Tree.values).sum) := by
        rw [holesSize, List.map_cons, List.sum_cons, Hole.size, Nat.add_comm]
        rfl
      have hDone : ((done ++ [value]).map Tree.values).sum =
          (done.map Tree.values).sum + value.values := by
        rw [List.map_append, List.sum_append, List.map_singleton, List.sum_singleton]
      rw [List.flatMap_cons, run_append]
      constructor
      · rintro ⟨next, hFirst, hRun⟩
        obtain ⟨hAdmitted, rfl⟩ := (hValue hRoom hDepth).mp hFirst
        have hSize' := hAdmitted.size
        rw [hHoles] at hSize'
        obtain ⟨⟨hEach, hSum⟩, rfl⟩ := (hRest (done ++ [value]) (by rw [hDone]; omega)).mp hRun
        refine ⟨⟨?_, ?_⟩, by rw [List.append_assoc]; rfl⟩
        · rw [List.forall_mem_cons]
          exact ⟨⟨hAdmitted.unique, hAdmitted.every, hAdmitted.depth⟩, hEach⟩
        · rw [hDone] at hSum
          rw [List.map_cons, List.sum_cons]
          omega
      · rintro ⟨⟨hEach, hSum⟩, rfl⟩
        rw [List.forall_mem_cons] at hEach
        obtain ⟨⟨hUnique, hEvery, hFits⟩, hEach⟩ := hEach
        rw [List.map_cons, List.sum_cons] at hSum
        have hAdmitted : value.Admitted profile limits (.array done :: holes) := by
          refine ⟨hUnique, hEvery, ?_, hFits⟩
          rw [hHoles]
          omega
        refine ⟨_, (hValue hRoom hDepth).mpr ⟨hAdmitted, rfl⟩, ?_⟩
        apply (hRest (done ++ [value]) (by rw [hDone]; omega)).mpr
        refine ⟨⟨hEach, ?_⟩, by rw [List.append_assoc]; rfl⟩
        rw [hDone]
        omega

/-- A value runs through where it is admitted, and it fills its place. -/
theorem run_value (t : Tree Numeral) : RunsAs profile limits t := by
  induction t with
  | object members ih =>
      intro d d' holes hRoom hDepth
      have hBegin : d.step .objectBegin = some (.growing (.object [] none) holes) :=
        enter_room hRoom _
      have hAdmitted : (Tree.object members).Admitted profile limits holes ↔
          (holes.length + 1 ≤ limits.maximumDepth ∧ holesSize holes + 1 ≤ limits.maximumTokens) ∧
          (∀ m ∈ members, Writable profile limits m.1 ∧ m.1 ∉ ([] : List Bytes) ∧
            m.2.uniqueKeys = true ∧ m.2.Every (Writable profile limits) (Numeral.Writable limits) ∧
            holes.length + 1 + m.2.depth ≤ limits.maximumDepth) ∧
          (members.map Prod.fst).Nodup ∧
          holesSize holes + (1 + 0) + (members.map fun m => m.2.values).sum ≤
            limits.maximumTokens := by
        constructor
        · rintro ⟨hUnique, hEvery, hSize, hFits⟩
          rw [Tree.uniqueKeys_object] at hUnique
          rw [Tree.every_object] at hEvery
          rw [Tree.values_object] at hSize
          rw [Tree.depth_object_le] at hFits
          refine ⟨⟨hFits.1, by omega⟩, fun m hm => ?_, hUnique.1, by omega⟩
          exact ⟨(hEvery m hm).1, List.not_mem_nil, hUnique.2 m hm, (hEvery m hm).2, hFits.2 m hm⟩
        · rintro ⟨⟨hFirst, -⟩, hEach, hNodup, hSize⟩
          refine ⟨?_, ?_, ?_, ?_⟩
          · rw [Tree.uniqueKeys_object]
            exact ⟨hNodup, fun m hm => (hEach m hm).2.2.1⟩
          · rw [Tree.every_object]
            exact fun m hm => ⟨(hEach m hm).1, (hEach m hm).2.2.2.1⟩
          · rw [Tree.values_object]
            omega
          · rw [Tree.depth_object_le]
            exact ⟨hFirst, fun m hm => (hEach m hm).2.2.2.2⟩
      rw [hAdmitted, Tree.events_object, List.cons_append, run_cons, hBegin, Event.Permitted,
        depth_room hRoom, size_room hRoom]
      simp only [Option.some.injEq, exists_eq_left']
      constructor
      · rintro ⟨hOpen, hRun⟩
        obtain ⟨next, hRun, hEnd⟩ := run_append.mp hRun
        obtain ⟨hConditions, rfl⟩ := (run_members (fun m hm => ih m hm) [] hOpen.2 hOpen.1).mp hRun
        rw [run_singleton] at hEnd
        refine ⟨⟨hOpen, hConditions⟩, ?_⟩
        cases hEnd.2
        rfl
      · rintro ⟨⟨hOpen, hConditions⟩, rfl⟩
        refine ⟨hOpen, run_append.mpr ⟨_, (run_members (fun m hm => ih m hm) [] hOpen.2 hOpen.1).mpr
          ⟨hConditions, rfl⟩, ?_⟩⟩
        exact run_singleton.mpr ⟨trivial, rfl⟩
  | array elements ih =>
      intro d d' holes hRoom hDepth
      have hBegin : d.step .arrayBegin = some (.growing (.array []) holes) := enter_room hRoom _
      have hAdmitted : (Tree.array elements).Admitted profile limits holes ↔
          (holes.length + 1 ≤ limits.maximumDepth ∧ holesSize holes + 1 ≤ limits.maximumTokens) ∧
          (∀ v ∈ elements, v.uniqueKeys = true ∧
            v.Every (Writable profile limits) (Numeral.Writable limits) ∧
            holes.length + 1 + v.depth ≤ limits.maximumDepth) ∧
          holesSize holes + (1 + 0) + (elements.map Tree.values).sum ≤ limits.maximumTokens := by
        constructor
        · rintro ⟨hUnique, hEvery, hSize, hFits⟩
          rw [Tree.uniqueKeys_array] at hUnique
          rw [Tree.every_array] at hEvery
          rw [Tree.values_array] at hSize
          rw [Tree.depth_array_le] at hFits
          exact ⟨⟨hFits.1, by omega⟩,
            fun v hv => ⟨hUnique v hv, hEvery v hv, hFits.2 v hv⟩, by omega⟩
        · rintro ⟨⟨hFirst, -⟩, hEach, hSize⟩
          refine ⟨?_, ?_, ?_, ?_⟩
          · rw [Tree.uniqueKeys_array]
            exact fun v hv => (hEach v hv).1
          · rw [Tree.every_array]
            exact fun v hv => (hEach v hv).2.1
          · rw [Tree.values_array]
            omega
          · rw [Tree.depth_array_le]
            exact ⟨hFirst, fun v hv => (hEach v hv).2.2⟩
      rw [hAdmitted, Tree.events_array, List.cons_append, run_cons, hBegin, Event.Permitted,
        depth_room hRoom, size_room hRoom]
      simp only [Option.some.injEq, exists_eq_left']
      constructor
      · rintro ⟨hOpen, hRun⟩
        obtain ⟨next, hRun, hEnd⟩ := run_append.mp hRun
        obtain ⟨hConditions, rfl⟩ := (run_elements (fun v hv => ih v hv) [] hOpen.2 hOpen.1).mp hRun
        rw [run_singleton] at hEnd
        refine ⟨⟨hOpen, hConditions⟩, ?_⟩
        cases hEnd.2
        rfl
      · rintro ⟨⟨hOpen, hConditions⟩, rfl⟩
        refine ⟨hOpen, run_append.mpr
          ⟨_, (run_elements (fun v hv => ih v hv) [] hOpen.2 hOpen.1).mpr ⟨hConditions, rfl⟩, ?_⟩⟩
        exact run_singleton.mpr ⟨trivial, rfl⟩
  | string text =>
      intro d d' holes hRoom hDepth
      have hStep : d.step (.string text) = some (close (.string text) holes) := add_room hRoom _
      refine run_singleton.trans ?_
      rw [hStep, Event.Permitted, size_room hRoom, Option.some.injEq, eq_comm]
      refine and_congr_left fun _ => ⟨fun h => ⟨rfl, h.1, h.2, hDepth⟩, fun h => ⟨h.every, h.size⟩⟩
  | number numeral =>
      intro d d' holes hRoom hDepth
      have hStep : d.step (.number numeral) = some (close (.number numeral) holes) :=
        add_room hRoom _
      refine run_singleton.trans ?_
      rw [hStep, Event.Permitted, size_room hRoom, Option.some.injEq, eq_comm]
      refine and_congr_left fun _ => ⟨fun h => ⟨rfl, h.1, h.2, hDepth⟩, fun h => ⟨h.every, h.size⟩⟩
  | boolean value =>
      intro d d' holes hRoom hDepth
      have hStep : d.step (.boolean value) = some (close (.boolean value) holes) := add_room hRoom _
      refine run_singleton.trans ?_
      rw [hStep, Event.Permitted, size_room hRoom, Option.some.injEq, eq_comm]
      refine and_congr_left fun _ => ⟨fun h => ⟨rfl, trivial, h, hDepth⟩, fun h => h.size⟩
  | null =>
      intro d d' holes hRoom hDepth
      have hStep : d.step .null = some (close .null holes) := add_room hRoom _
      refine run_singleton.trans ?_
      rw [hStep, Event.Permitted, size_room hRoom, Option.some.injEq, eq_comm]
      refine and_congr_left fun _ => ⟨fun h => ⟨rfl, trivial, h, hDepth⟩, fun h => h.size⟩

/-- The events that make a value are the events of a value that the limits permit. -/
theorem run_complete {events : List Event} {t : Tree Numeral} :
    run profile limits events .empty = some (.complete t) ↔
      events = t.events ∧ t.Admitted profile limits [] := by
  constructor
  · intro h
    have hEvents : t.events = events := events_run h
    rw [← hEvents, run_value t rfl (Nat.zero_le _)] at h
    exact ⟨hEvents.symm, h.1⟩
  · rintro ⟨rfl, hAdmitted⟩
    exact (run_value t rfl (Nat.zero_le _)).mpr ⟨hAdmitted, rfl⟩

end Draft

end MaelysJson
