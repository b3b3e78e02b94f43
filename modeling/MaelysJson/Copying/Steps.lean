import MaelysJson.Copying.Numbers
import MaelysJson.Json.Order
import MaelysJson.Reading.Accessors

/-! The copy of a value is a run of events, each checked as the writer's own operations check
it. What a copy answers is what its first failing event answers. -/
namespace MaelysJson

open Grammar Run

/-! ### The events of a copy -/

/-- The events of a parsed value; its numbers are still lexemes. -/
def Tree.steps (t : Json) : List Event := (t.map Numeral.lexeme).events

namespace Draft

section

variable (profile : Profile) (limits : Limits)

/-- What comes of a number that is copied. -/
def copyNumber (lexeme : Bytes) (d : Draft) : Except Result Draft :=
  match numeralOf lexeme with
  | .error r => .error r
  | .ok (.lexeme text) =>
      if text.length > limits.maximumBytes then .error .errArgument
      else d.attempt profile limits (.number (.lexeme text))
  | .ok numeral => d.attempt profile limits (.number numeral)

def copyStep (e : Event) (d : Draft) : Except Result Draft :=
  match e with
  | .number (.lexeme lexeme) => d.copyNumber profile limits lexeme
  | e => d.attempt profile limits e

def copyAll : List Event → Draft → Except Result Draft
  | [], d => .ok d
  | e :: events, d => (d.copyStep profile limits e).bind (copyAll events)

end

theorem copyStep_of_ne {profile : Profile} {limits : Limits} {e : Event} {d : Draft}
    (h : ∀ lexeme, e ≠ .number (.lexeme lexeme)) :
    d.copyStep profile limits e = d.attempt profile limits e := by
  rw [copyStep]
  exact h

theorem copyAll_append (profile : Profile) (limits : Limits) (events events' : List Event)
    (d : Draft) :
    d.copyAll profile limits (events ++ events') =
      (d.copyAll profile limits events).bind (copyAll profile limits events') := by
  induction events generalizing d with
  | nil => rfl
  | cons e events ih =>
      rw [List.cons_append, copyAll, copyAll]
      cases d.copyStep profile limits e with
      | error r => rfl
      | ok next => exact ih next

end Draft

namespace Tree

theorem steps_object (members : List (Bytes × Json)) :
    steps (object members) = .objectBegin :: (members.flatMap fun m => .key m.1 :: m.2.steps) ++
      [.objectEnd] := by
  rw [steps, map_object, events_object, List.flatMap_map]
  rfl

theorem steps_array (elements : List Json) :
    steps (array elements) = .arrayBegin :: elements.flatMap steps ++ [.arrayEnd] := by
  rw [steps, map_array, events_array, List.flatMap_map]
  rfl

end Tree

/-! ### Programs that copy -/

/-- To every writer of a draft the program does what these events do to the draft. -/
def CopiesAs (x : WriterM Unit) (events : List Event) : Prop :=
  ∀ (w : Writer) (d : Draft), w.Builds d → Yields x w (d.copyAll w.profile w.limits events)

namespace CopiesAs

variable {x y : WriterM Unit} {e : Event} {events events' : List Event}

theorem done : CopiesAs (return ()) [] := fun w _ h => ⟨w, rfl, h, rfl⟩

theorem seq (hx : CopiesAs x events) (hy : CopiesAs y events') :
    CopiesAs (x >>= fun _ => y) (events ++ events') := by
  intro w d h
  rw [Draft.copyAll_append]
  apply (hx w d h).seq
  intro t next hBuilds hSetup
  have hProfile : t.profile = w.profile := congrArg Prod.fst hSetup
  have hLimits : t.limits = w.limits := congrArg (fun setup => setup.2.1) hSetup
  rw [← hProfile, ← hLimits]
  exact hy t next hBuilds

theorem step
    (h : ∀ (w : Writer) (d : Draft), w.Builds d → Yields x w (d.copyStep w.profile w.limits e)) :
    CopiesAs x [e] := by
  intro w d hBuilds
  have hStep : d.copyAll w.profile w.limits [e] = d.copyStep w.profile w.limits e := by
    rw [Draft.copyAll]
    cases d.copyStep w.profile w.limits e <;> rfl
  rw [hStep]
  exact h w d hBuilds

theorem read {α : Type} {read : Except Result α} {a : α} {f : α → WriterM Unit}
    (hRead : read = .ok a) (h : CopiesAs (f a) events) :
    CopiesAs (readDocument read >>= f) events := by
  intro w d hBuilds
  rw [hRead]
  exact h w d hBuilds

end CopiesAs

section

variable {document : Document} {fuel value : Nat} {t : Json}

theorem copyNumber_copies {lexeme : Bytes} (hText : valueNumberText document value = .ok lexeme)
    (hNumber : Number lexeme) :
    CopiesAs (copyNumber document value) [.number (.lexeme lexeme)] := by
  apply CopiesAs.step
  intro w d h
  have hRun := copyNumber_reads hText hNumber w
  rw [Draft.copyStep, Draft.copyNumber]
  cases hNumeral : numeralOf lexeme with
  | error r =>
      rw [hNumeral] at hRun
      exact ⟨w, hRun⟩
  | ok numeral =>
      rw [hNumeral] at hRun
      cases numeral with
      | unsigned number => exact (u64_yields h number).congr hRun
      | signed number => exact (i64_yields h number).congr hRun
      | lexeme text => exact (numberLexeme_yields h text w.limits.maximumBytes).congr hRun

/-- What is needed of a relation between programs and events for it to relate each copy of a
value to the events of that value. -/
structure OfSteps (P : WriterM Unit → List Event → Prop) : Prop where
  done : P (return ()) []
  seq : ∀ {x y : WriterM Unit} {events events' : List Event}, P x events → P y events' →
    P (x >>= fun _ => y) (events ++ events')
  read : ∀ {α : Type} {read : Except Result α} {a : α} {f : α → WriterM Unit} {events : List Event},
    read = .ok a → P (f a) events → P (readDocument read >>= f) events
  key : ∀ name, P (writerKey (.buffer name)) [.key name]
  string : ∀ text, P (writerString (.buffer text)) [.string text]
  number : ∀ {document : Document} {value : Nat} {lexeme : Bytes}, valueNumberText document value =
    .ok lexeme → Number lexeme → P (copyNumber document value) [.number (.lexeme lexeme)]
  boolean : ∀ enabled : Bool, P (writerBoolean (if enabled then 1 else 0)) [.boolean enabled]
  null : P writerNull [.null]
  objectBegin : P writerObjectBegin [.objectBegin]
  objectEnd : P writerObjectEnd [.objectEnd]
  arrayBegin : P writerArrayBegin [.arrayBegin]
  arrayEnd : P writerArrayEnd [.arrayEnd]

namespace OfSteps

variable {P : WriterM Unit → List Event → Prop}

theorem cons (h : OfSteps P) {x y : WriterM Unit} {e : Event} {events : List Event} (hx : P x [e])
    (hy : P y events) :
    P (x >>= fun _ => y) (e :: events) := h.seq hx hy

/-- The loop over the members, where each value is copied as its own events. -/
theorem copyMembers (h : OfSteps P) {copyValue : Nat → WriterM Unit} {object : Nat}
    {members : List (Bytes × Json)}
    (hMembers : ∀ k (hk : k < members.length), ∃ v, objectMemberAt document object k =
      .ok (members[k].1, v) ∧ P (copyValue v) members[k].2.steps)
    (rounds k : Nat) (hRounds : k + rounds = members.length) :
    P (copyMembers copyValue document object rounds k) ((members.drop k).flatMap fun m =>
      .key m.1 :: m.2.steps) := by
  induction rounds generalizing k with
  | zero =>
      rw [List.drop_eq_nil_of_le (by omega)]
      exact h.done
  | succ rounds ih =>
      have hk : k < members.length := by omega
      obtain ⟨v, hAt, hValue⟩ := hMembers k hk
      rw [List.drop_eq_getElem_cons hk, List.flatMap_cons, MaelysJson.copyMembers]
      apply h.read hAt
      exact h.cons (h.key members[k].1) (h.seq hValue (ih (k + 1) (by omega)))

theorem copyElements (h : OfSteps P) {copyValue : Nat → WriterM Unit} {array : Nat}
    {elements : List Json}
    (hElements : ∀ k (hk : k < elements.length), ∃ v, arrayGet document array k = .ok v ∧
      P (copyValue v) elements[k].steps)
    (rounds k : Nat) (hRounds : k + rounds = elements.length) :
    P (copyElements copyValue document array rounds k) ((elements.drop k).flatMap Tree.steps) := by
  induction rounds generalizing k with
  | zero =>
      rw [List.drop_eq_nil_of_le (by omega)]
      exact h.done
  | succ rounds ih =>
      have hk : k < elements.length := by omega
      obtain ⟨v, hAt, hValue⟩ := hElements k hk
      rw [List.drop_eq_getElem_cons hk, List.flatMap_cons, MaelysJson.copyElements]
      apply h.read hAt
      exact h.seq hValue (ih (k + 1) (by omega))

/-- A value is copied as the events of the tree that the accessors show. The induction follows
the nesting, as both recursions do. -/
theorem copyValue (h : OfSteps P) (hTree : valueTree document fuel value = .ok t)
    (hNumbers : t.Every (fun _ => True) Number) : P (copyValue document fuel value) t.steps := by
  induction fuel generalizing value t with
  | zero => cases hTree
  | succ fuel ih =>
      rw [MaelysJson.copyValue]
      cases hType : valueType document value with
      | object =>
          obtain ⟨members, rfl, hSize, hMembers⟩ := valueTree_object hType hTree
          rw [Tree.every_object] at hNumbers
          have hLoop := @copyMembers document P h (MaelysJson.copyValue document fuel) value members
            (fun k hk => by
              obtain ⟨v, hAt, hValue⟩ := hMembers k hk
              exact ⟨v, hAt, ih hValue (hNumbers _ (List.getElem_mem hk)).2⟩) members.length 0
                (Nat.zero_add _)
          rw [Tree.steps_object]
          apply h.read hSize
          exact h.cons h.objectBegin (h.seq hLoop h.objectEnd)
      | array =>
          obtain ⟨elements, rfl, hSize, hElements⟩ := valueTree_array hType hTree
          rw [Tree.every_array] at hNumbers
          have hLoop := @copyElements document P h (MaelysJson.copyValue document fuel)
            value elements (fun k hk => by
              obtain ⟨v, hAt, hValue⟩ := hElements k hk
              exact ⟨v, hAt, ih hValue (hNumbers _ (List.getElem_mem hk))⟩) elements.length 0
                (Nat.zero_add _)
          rw [Tree.steps_array]
          apply h.read hSize
          exact h.cons h.arrayBegin (h.seq hLoop h.arrayEnd)
      | string =>
          rw [valueTree, hType] at hTree
          cases hText : valueString document value with
          | error r =>
              rw [hText] at hTree
              cases hTree
          | ok text =>
              rw [hText] at hTree
              cases hTree
              exact h.read rfl (h.string text)
      | number =>
          rw [valueTree, hType] at hTree
          cases hText : valueNumberText document value with
          | error r =>
              rw [hText] at hTree
              cases hTree
          | ok lexeme =>
              rw [hText] at hTree
              cases hTree
              exact h.number hText hNumbers
      | boolean =>
          rw [valueTree, hType] at hTree
          cases hValue : valueBoolean document value with
          | error r =>
              rw [hValue] at hTree
              cases hTree
          | ok enabled =>
              rw [hValue] at hTree
              cases hTree
              exact h.read rfl (h.boolean enabled)
      | null =>
          rw [valueTree, hType] at hTree
          simp only at hTree
          split_ifs at hTree
          cases hTree
          exact h.null
      | none =>
          rw [valueTree, hType] at hTree
          cases hTree

/-- The loop that leaves out the excluded members. -/
theorem copyMembersExcept (h : OfSteps P) {object : Nat} {members : List (Bytes × Json)}
    (excluded : List Bytes)
    (hMembers : ∀ k (hk : k < members.length), ∃ v, objectMemberAt document object k =
      .ok (members[k].1, v) ∧
      P (MaelysJson.copyValue document document.tokens.length v) members[k].2.steps)
    (rounds k : Nat) (hRounds : k + rounds = members.length) :
    P (copyMembersExcept document object excluded rounds k)
      (((members.drop k).filter fun m => !keyExcluded m.1 excluded).flatMap fun m =>
        .key m.1 :: m.2.steps) := by
  induction rounds generalizing k with
  | zero =>
      rw [List.drop_eq_nil_of_le (by omega)]
      exact h.done
  | succ rounds ih =>
      have hk : k < members.length := by omega
      obtain ⟨v, hAt, hValue⟩ := hMembers k hk
      have hRest := ih (k + 1) (by omega)
      rw [List.drop_eq_getElem_cons hk, MaelysJson.copyMembersExcept]
      apply h.read hAt
      by_cases hExcluded : keyExcluded members[k].1 excluded = true
      · rw [List.filter_cons_of_neg (by rw [hExcluded]; exact Bool.false_ne_true)]
        simp only [hExcluded, Bool.not_true, Bool.false_eq_true, if_false]
        exact hRest
      · rw [Bool.not_eq_true] at hExcluded
        rw [List.filter_cons_of_pos (by rw [hExcluded]; rfl), List.flatMap_cons]
        simp only [hExcluded, Bool.not_false, if_true]
        exact h.cons (h.key members[k].1) (h.seq hValue hRest)

end OfSteps

/-- Copies do to a draft what the events of the value do. -/
theorem CopiesAs.ofSteps : OfSteps CopiesAs where
  done := .done
  seq := .seq
  read := .read
  key name := .step fun _ _ h => key_yields h name
  string text := .step fun _ _ h => string_yields h text
  number := copyNumber_copies
  boolean enabled := by
    refine .step fun w d h => ?_
    have hYields := boolean_yields h (if enabled = true then 1 else 0)
    cases enabled <;> exact hYields
  null := .step fun _ _ h => null_yields h
  objectBegin := .step fun _ _ h => objectBegin_yields h
  objectEnd := .step fun _ _ h => objectEnd_yields h
  arrayBegin := .step fun _ _ h => arrayBegin_yields h
  arrayEnd := .step fun _ _ h => arrayEnd_yields h

end

end MaelysJson
