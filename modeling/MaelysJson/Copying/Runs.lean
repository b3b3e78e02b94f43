import MaelysJson.Copying.Steps

/-! The runs of copies. Where every event of a copy succeeds, the draft has taken the value with
its numbers read; apart from limits, the events of a value always have their place. -/
namespace MaelysJson

open Grammar

/-! ### Numbers that are read -/

/-- The number that a copy writes, for a lexeme that the readers pass. -/
def copiedNumeral (lexeme : Bytes) : Numeral := (numeralOf lexeme).toOption.getD (.lexeme lexeme)

/-- The value that a copy writes. -/
def Tree.copied (t : Json) : Tree Numeral := t.map copiedNumeral

/-- The event that a copy leaves in the draft. -/
def Event.copied : Event → Event
  | .number (.lexeme lexeme) => .number (copiedNumeral lexeme)
  | e => e

/-- A number that the readers pass. -/
def Event.Readable : Event → Prop
  | .number (.lexeme lexeme) => WholeFits lexeme
  | _ => True

theorem numeralOf_ok {lexeme : Bytes} (h : WholeFits lexeme) :
    numeralOf lexeme = .ok (copiedNumeral lexeme) := by
  rw [copiedNumeral, numeralOf, if_pos h]
  split_ifs <;> rfl

theorem numeralOf_error {lexeme : Bytes} (h : ¬WholeFits lexeme) :
    numeralOf lexeme = .error .errRange :=
  if_neg h

theorem Event.copied_of_ne {e : Event} (h : ∀ lexeme, e ≠ .number (.lexeme lexeme)) :
    e.copied = e := by
  rw [Event.copied]
  exact h

theorem Event.readable_of_ne {e : Event} (h : ∀ lexeme, e ≠ .number (.lexeme lexeme)) :
    e.Readable := by
  rw [Event.Readable]
  · trivial
  · exact h

namespace Draft

variable {profile : Profile} {limits : Limits} {d d' : Draft}

/-- A step of a copy succeeds where the event that it leaves is permitted. -/
theorem copyStep_eq_ok {e : Event} :
    d.copyStep profile limits e = .ok d' ↔ e.Readable ∧
      d.permit profile limits e.copied = some d' := by
  by_cases hLexeme : ∃ lexeme, e = .number (.lexeme lexeme)
  swap
  · have hNe : ∀ lexeme, e ≠ .number (.lexeme lexeme) := fun lexeme hSame => hLexeme ⟨lexeme, hSame⟩
    rw [copyStep_of_ne hNe, Event.copied_of_ne hNe, attempt_eq_ok,
      and_iff_right (Event.readable_of_ne hNe)]
  obtain ⟨lexeme, rfl⟩ := hLexeme
  rw [copyStep, copyNumber, Event.copied]
  by_cases hFits : WholeFits lexeme
  · rw [and_iff_right (show Event.Readable (.number (.lexeme lexeme)) from hFits),
      numeralOf_ok hFits]
    cases copiedNumeral lexeme with
    | unsigned number => exact attempt_eq_ok
    | signed number => exact attempt_eq_ok
    | lexeme text =>
        by_cases hLength : text.length > limits.maximumBytes
        · have hNot : ¬(Event.number (.lexeme text)).Permitted profile limits d :=
            fun hPermitted => not_le.mpr hLength hPermitted.1.2
          simp only [if_pos hLength, permit, if_neg hNot]
          exact ⟨(by simp), (by simp)⟩
        · simp only [if_neg hLength]
          exact attempt_eq_ok
  · rw [numeralOf_error hFits]
    exact ⟨(by simp), fun h => absurd h.1 hFits⟩

theorem copyAll_eq_ok {events : List Event} :
    d.copyAll profile limits events = .ok d' ↔
      (∀ e ∈ events, e.Readable) ∧ run profile limits (events.map Event.copied) d = some d' := by
  induction events generalizing d with
  | nil => simp [copyAll, run]
  | cons e events ih =>
      rw [copyAll, List.map_cons, List.forall_mem_cons, run, and_assoc]
      cases hStep : d.copyStep profile limits e with
      | ok next =>
          obtain ⟨hReadable, hPermit⟩ := copyStep_eq_ok.mp hStep
          rw [and_iff_right hReadable, hPermit]
          exact ih
      | error r =>
          refine ⟨fun h => (by cases h), fun h => ?_⟩
          obtain ⟨next, hPermit, -⟩ := Option.bind_eq_some_iff.mp h.2.2
          rw [copyStep_eq_ok.mpr ⟨h.1, hPermit⟩] at hStep
          cases hStep

end Draft

namespace Tree

theorem copied_object (members : List (Bytes × Json)) :
    copied (object members) = .object (members.map fun m => (m.1, m.2.copied)) := map_object _ _

theorem copied_array (elements : List Json) :
    copied (array elements) = .array (elements.map copied) :=
  map_array _ _

theorem uniqueKeys_copied (t : Json) : t.copied.uniqueKeys = true ↔ t.uniqueKeys = true :=
  uniqueKeys_map _ t

theorem values_copied (t : Json) : t.copied.values = t.values := values_map _ t

theorem depth_copied (t : Json) : t.copied.depth = t.depth := depth_map _ t

/-- The events of a copy, as the draft has them. -/
theorem map_copied_steps (t : Json) : t.steps.map Event.copied = t.copied.events := by
  induction t using Tree.induct with
  | object members ih =>
      have hLoop : (members.flatMap fun m => (Event.key m.1).copied :: m.2.steps.map Event.copied) =
          members.flatMap fun m => .key m.1 :: m.2.copied.events :=
        List.flatMap_congr fun m hm => congrArg (List.cons (Event.key m.1)) (ih m hm)
      rw [steps_object, copied_object, events_object, List.flatMap_map]
      simp only [List.map_cons, List.map_append, List.map_flatMap, List.map_nil]
      rw [hLoop]
      rfl
  | array elements ih =>
      rw [steps_array, copied_array, events_array, List.flatMap_map]
      simp only [List.map_cons, List.map_append, List.map_flatMap, List.map_nil]
      rw [List.flatMap_congr fun v hv => ih v hv]
      rfl
  | string text => rfl
  | number lexeme => rfl
  | boolean value => rfl
  | null => rfl

theorem readable_steps (t : Json) :
    (∀ e ∈ t.steps, e.Readable) ↔ t.Every (fun _ => True) WholeFits := by
  rw [steps, forall_mem_events, every_map]
  · rfl
  · intro e hOther
    exact Event.readable_of_ne fun lexeme => hOther (.lexeme lexeme)

end Tree

namespace Draft

variable {profile : Profile} {limits : Limits} {d d' : Draft} {holes : List Hole}

/-- A value is copied where its numbers are read and what is read is admitted. -/
theorem copyAll_value {t : Json} (hRoom : d.room = some holes)
    (hDepth : holes.length ≤ limits.maximumDepth) :
    d.copyAll profile limits t.steps = .ok d' ↔ t.Every (fun _ => True) WholeFits ∧
      t.copied.Admitted profile limits holes ∧ d' = close t.copied holes := by
  rw [copyAll_eq_ok, Tree.readable_steps, Tree.map_copied_steps, run_value t.copied hRoom hDepth]

/-! ### Places -/

/-- The events one after another, whatever the limits. -/
def stepAll : List Event → Draft → Option Draft
  | [], d => some d
  | e :: events, d => (d.step e).bind (stepAll events)

theorem stepAll_append (events events' : List Event) (d : Draft) :
    d.stepAll (events ++ events') = (d.stepAll events).bind (stepAll events') := by
  induction events generalizing d with
  | nil => rfl
  | cons e events ih =>
      rw [List.cons_append, stepAll, stepAll, Option.bind_assoc]
      congr 1
      funext next
      exact ih next

theorem stepAll_members {members : List (Bytes × Tree Numeral)}
    (hMembers : ∀ m ∈ members, ∀ (d : Draft) (holes : List Hole), d.room = some holes →
      d.stepAll m.2.events = some (close m.2 holes))
    (done : List (Bytes × Tree Numeral)) (holes : List Hole)
    (hNodup : ((done ++ members).map Prod.fst).Nodup) :
    (growing (.object done none) holes).stepAll (members.flatMap fun m => .key m.1 :: m.2.events) =
      some (.growing (.object (done ++ members) none) holes) := by
  induction members generalizing done with
  | nil => rw [List.append_nil]; rfl
  | cons m members ih =>
      obtain ⟨name, value⟩ := m
      have hNew : name ∉ done.map Prod.fst := by
        rw [List.map_append, List.map_cons, List.nodup_middle, List.nodup_cons] at hNodup
        exact fun hMem => hNodup.1 (List.mem_append_left _ hMem)
      have hKey : (growing (.object done none) holes).step (.key name) =
          some (.growing (.object done (some name)) holes) := if_neg hNew
      have hValue := hMembers (name, value) List.mem_cons_self
        (.growing (.object done (some name)) holes) (.object done name :: holes) rfl
      rw [List.flatMap_cons, List.cons_append, stepAll, hKey, Option.bind_some,
        stepAll_append, hValue, Option.bind_some]
      have hSame : done ++ (name, value) :: members = (done ++ [(name, value)]) ++ members := by
        rw [List.append_assoc]
        rfl
      rw [hSame] at hNodup ⊢
      exact ih (fun m hm => hMembers m (List.mem_cons_of_mem _ hm)) (done ++ [(name, value)]) hNodup

theorem stepAll_elements {elements : List (Tree Numeral)}
    (hElements : ∀ v ∈ elements, ∀ (d : Draft) (holes : List Hole), d.room = some holes →
      d.stepAll v.events = some (close v holes)) (done : List (Tree Numeral)) (holes : List Hole) :
    (growing (.array done) holes).stepAll (elements.flatMap Tree.events) =
      some (.growing (.array (done ++ elements)) holes) := by
  induction elements generalizing done with
  | nil => rw [List.append_nil]; rfl
  | cons value elements ih =>
      have hValue := hElements value List.mem_cons_self (.growing (.array done) holes)
        (.array done :: holes) rfl
      rw [List.flatMap_cons, stepAll_append, hValue, Option.bind_some]
      have hSame : done ++ value :: elements = (done ++ [value]) ++ elements := by
        rw [List.append_assoc]
        rfl
      rw [hSame]
      exact ih (fun v hv => hElements v (List.mem_cons_of_mem _ hv)) (done ++ [value])

/-- A value with unique keys fits into any place. -/
theorem stepAll_value {t : Tree Numeral} (hUnique : t.uniqueKeys = true)
    (hRoom : d.room = some holes) :
    d.stepAll t.events = some (close t holes) := by
  induction t generalizing d holes with
  | object members ih =>
      rw [Tree.uniqueKeys_object] at hUnique
      have hBegin : d.step .objectBegin = some (.growing (.object [] none) holes) :=
        enter_room hRoom _
      have hLoop := stepAll_members (fun m hm d holes hRoom => ih m hm (hUnique.2 m hm) hRoom) []
        holes hUnique.1
      rw [Tree.events_object, List.cons_append, stepAll, hBegin, Option.bind_some,
        stepAll_append, hLoop]
      rfl
  | array elements ih =>
      rw [Tree.uniqueKeys_array] at hUnique
      have hBegin : d.step .arrayBegin = some (.growing (.array []) holes) := enter_room hRoom _
      have hLoop := stepAll_elements (fun v hv d holes hRoom =>
        ih v hv (hUnique v hv) hRoom) [] holes
      rw [Tree.events_array, List.cons_append, stepAll, hBegin, Option.bind_some,
        stepAll_append, hLoop]
      rfl
  | string text =>
      have hStep : d.step (.string text) = some (close (.string text) holes) := add_room hRoom _
      exact (congrArg (·.bind (stepAll [])) hStep)
  | number numeral =>
      have hStep : d.step (.number numeral) = some (close (.number numeral) holes) :=
        add_room hRoom _
      exact (congrArg (·.bind (stepAll [])) hStep)
  | boolean value =>
      have hStep : d.step (.boolean value) = some (close (.boolean value) holes) := add_room hRoom _
      exact (congrArg (·.bind (stepAll [])) hStep)
  | null =>
      have hStep : d.step .null = some (close .null holes) := add_room hRoom _
      exact (congrArg (·.bind (stepAll [])) hStep)

/-! ### Counts -/

end Draft

/-- The values that an event begins. -/
def Event.nodes : Event → Nat
  | .objectEnd => 0
  | .arrayEnd => 0
  | .key _ => 0
  | _ => 1

def Event.depthAfter (depth : Nat) : Event → Nat
  | .objectBegin => depth + 1
  | .arrayBegin => depth + 1
  | .objectEnd => depth - 1
  | .arrayEnd => depth - 1
  | _ => depth

namespace Draft

variable {d d' : Draft} {holes : List Hole}

theorem size_close (t : Tree Numeral) (holes : List Hole) :
    (close t holes).size = holesSize holes + t.values := by
  cases holes with
  | nil => rw [close, size, holesSize, List.map_nil, List.sum_nil, Nat.zero_add]
  | cons hole holes =>
      have hFill : (hole.fill t).size = hole.size + t.values := by
        cases hole <;> simp [Hole.fill, Focus.size, Hole.size, Nat.add_assoc]
      rw [close, size, hFill, holesSize, holesSize, List.map_cons, List.sum_cons]
      omega

theorem depth_close (t : Tree Numeral) (holes : List Hole) :
    (close t holes).depth = holes.length := by
  cases holes <;> rfl

/-- A step counts its values and follows the nesting. -/
theorem counts_step {e : Event} (h : d.step e = some d') :
    d'.size = d.size + e.nodes ∧ d'.depth = e.depthAfter d.depth := by
  have hAdd {t : Tree Numeral} (hOne : t.values = 1) (hAdd : d.add t = some d') :
      d'.size = d.size + 1 ∧ d'.depth = d.depth := by
    obtain ⟨holes, hRoom, rfl⟩ := Option.map_eq_some_iff.mp hAdd
    rw [size_close, depth_close, size_room hRoom, depth_room hRoom, hOne]
    exact ⟨rfl, rfl⟩
  have hEnter {focus : Focus} (hOne : focus.size = 1) (hEnter : d.enter focus = some d') :
      d'.size = d.size + 1 ∧ d'.depth = d.depth + 1 := by
    obtain ⟨holes, hRoom, rfl⟩ := Option.map_eq_some_iff.mp hEnter
    rw [size_room hRoom, depth_room hRoom, size, hOne, Nat.add_comm]
    exact ⟨rfl, rfl⟩
  cases e with
  | objectBegin => exact hEnter rfl h
  | arrayBegin => exact hEnter rfl h
  | string text => exact hAdd rfl h
  | number numeral => exact hAdd rfl h
  | boolean value => exact hAdd rfl h
  | null => exact hAdd rfl h
  | objectEnd =>
      rcases d with _ | ⟨⟨members, _ | pending⟩ | elements, holes⟩ | root
      · cases h
      · cases h
        rw [size_close, depth_close, Tree.values_object]
        exact ⟨Nat.add_comm _ _, rfl⟩
      · cases h
      · cases h
      · cases h
  | arrayEnd =>
      rcases d with _ | ⟨⟨members, pending⟩ | elements, holes⟩ | root
      · cases h
      · cases h
      · cases h
        rw [size_close, depth_close, Tree.values_array]
        exact ⟨Nat.add_comm _ _, rfl⟩
      · cases h
  | key name =>
      rcases d with _ | ⟨⟨members, _ | pending⟩ | elements, holes⟩ | root
      · cases h
      · rw [step] at h
        split_ifs at h
        cases h
        exact ⟨rfl, rfl⟩
      · cases h
      · cases h
      · cases h

end Draft

end MaelysJson
