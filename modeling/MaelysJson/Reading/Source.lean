import MaelysJson.Json.Tree

/-! What a reader finds in a text: a value whose parts keep their place in the
source. The places are those of the tokens: for a string or a key, its content
between the quotation marks. -/
namespace MaelysJson

structure Span where
  start : Nat
  stop : Nat
  deriving DecidableEq, Repr

/-- A string literal: where its content stands and the text it denotes. -/
structure Literal where
  span : Span
  text : Bytes
  deriving DecidableEq, Repr

inductive Source where
  | object (span : Span) (members : List (Literal × Source))
  | array (span : Span) (elements : List Source)
  | string (literal : Literal)
  | number (span : Span) (lexeme : Bytes)
  | boolean (span : Span) (value : Bool)
  | null (span : Span)
  deriving Repr

namespace Source

structure Algebra (β : Type) where
  object : Span → List (Literal × β) → β
  array : Span → List β → β
  string : Literal → β
  number : Span → Bytes → β
  boolean : Span → Bool → β
  null : Span → β

mutual

def fold {β : Type} (a : Algebra β) : Source → β
  | .object span members => a.object span (foldMembers a members)
  | .array span elements => a.array span (foldElements a elements)
  | .string literal => a.string literal
  | .number span lexeme => a.number span lexeme
  | .boolean span value => a.boolean span value
  | .null span => a.null span

def foldMembers {β : Type} (a : Algebra β) : List (Literal × Source) → List (Literal × β)
  | [] => []
  | (key, value) :: members => (key, fold a value) :: foldMembers a members

def foldElements {β : Type} (a : Algebra β) : List Source → List β
  | [] => []
  | value :: elements => fold a value :: foldElements a elements

end

variable {β : Type} (a : Algebra β)

theorem foldMembers_eq (members : List (Literal × Source)) :
    foldMembers a members = members.map fun m => (m.1, m.2.fold a) := by
  induction members with
  | nil => rfl
  | cons m members ih => rw [foldMembers, ih]; rfl

theorem foldElements_eq (elements : List Source) :
    foldElements a elements = elements.map fun v => v.fold a := by
  induction elements with
  | nil => rfl
  | cons v elements ih => rw [foldElements, ih]; rfl

theorem fold_object (span : Span) (members : List (Literal × Source)) :
    (object span members).fold a = a.object span (members.map fun m => (m.1, m.2.fold a)) := by
  rw [fold, foldMembers_eq]

theorem fold_array (span : Span) (elements : List Source) :
    (array span elements).fold a = a.array span (elements.map fun v => v.fold a) := by
  rw [fold, foldElements_eq]

@[induction_eliminator, elab_as_elim]
theorem induct {motive : Source → Prop}
    (object : ∀ span members, (∀ m ∈ members, motive m.2) → motive (.object span members))
    (array : ∀ span elements, (∀ v ∈ elements, motive v) → motive (.array span elements))
    (string : ∀ literal, motive (.string literal))
    (number : ∀ span lexeme, motive (.number span lexeme))
    (boolean : ∀ span value, motive (.boolean span value)) (null : ∀ span, motive (.null span))
    (s : Source) : motive s :=
  @Source.rec motive (fun members => ∀ m ∈ members, motive m.2)
    (fun elements => ∀ v ∈ elements, motive v) (fun m => motive m.2)
    object array string number boolean null
    (fun _ h => absurd h List.not_mem_nil)
    (fun _ _ head tail _ h => (List.mem_cons.mp h).elim (fun h => h ▸ head) (tail _))
    (fun _ h => absurd h List.not_mem_nil)
    (fun _ _ head tail _ h => (List.mem_cons.mp h).elim (fun h => h ▸ head) (tail _))
    (fun _ _ value => value) s

/-- The value without its places. -/
def json : Source → Json :=
  fold
    { object := fun _ members => .object (members.map fun m => (m.1.text, m.2))
      array := fun _ => .array
      string := fun literal => .string literal.text
      number := fun _ => .number
      boolean := fun _ => .boolean
      null := fun _ => .null }

@[simp] theorem json_object (span : Span) (members : List (Literal × Source)) :
    (object span members).json = .object (members.map fun m => (m.1.text, m.2.json)) := by
  simp only [json, fold_object, List.map_map]
  rfl

@[simp] theorem json_array (span : Span) (elements : List Source) :
    (array span elements).json = .array (elements.map json) := by
  simp only [json, fold_array]

@[simp] theorem json_string (literal : Literal) : (string literal).json = .string literal.text :=
  rfl

@[simp] theorem json_number (span : Span) (lexeme : Bytes) :
    (number span lexeme).json = .number lexeme := rfl

@[simp] theorem json_boolean (span : Span) (value : Bool) :
    (boolean span value).json = .boolean value := rfl

@[simp] theorem json_null (span : Span) : (null span).json = .null := rfl

end Source

end MaelysJson
