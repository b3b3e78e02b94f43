import MaelysJson.Code.Common

/-! JSON values as trees. Strings and keys are their decoded bytes; a number is
whatever the tree is over, its lexeme in a text. Every function on trees is a
fold, so one induction principle serves all of them. -/
namespace MaelysJson

inductive Tree (ν : Type) where
  | object (members : List (Bytes × Tree ν))
  | array (elements : List (Tree ν))
  | string (text : Bytes)
  | number (value : ν)
  | boolean (value : Bool)
  | null
  deriving Repr

/-- The value of a JSON text. -/
abbrev Json := Tree Bytes

/-- One step from a container to a value inside it. -/
inductive Step where
  | index (position : Nat)
  | key (name : Bytes)
  deriving DecidableEq, Repr

namespace Tree

variable {ν : Type}

/-- What a fold does at each kind of value. -/
structure Algebra (ν β : Type) where
  object : List (Bytes × β) → β
  array : List β → β
  string : Bytes → β
  number : ν → β
  boolean : Bool → β
  null : β

mutual

def fold {β : Type} (a : Algebra ν β) : Tree ν → β
  | .object members => a.object (foldMembers a members)
  | .array elements => a.array (foldElements a elements)
  | .string text => a.string text
  | .number value => a.number value
  | .boolean value => a.boolean value
  | .null => a.null

def foldMembers {β : Type} (a : Algebra ν β) : List (Bytes × Tree ν) → List (Bytes × β)
  | [] => []
  | (key, value) :: members => (key, fold a value) :: foldMembers a members

def foldElements {β : Type} (a : Algebra ν β) : List (Tree ν) → List β
  | [] => []
  | value :: elements => fold a value :: foldElements a elements

end

variable {β : Type} (a : Algebra ν β)

theorem foldMembers_eq (members : List (Bytes × Tree ν)) :
    foldMembers a members = members.map fun m => (m.1, m.2.fold a) := by
  induction members with
  | nil => rfl
  | cons m members ih => rw [foldMembers, ih]; rfl

theorem foldElements_eq (elements : List (Tree ν)) :
    foldElements a elements = elements.map fun v => v.fold a := by
  induction elements with
  | nil => rfl
  | cons v elements ih => rw [foldElements, ih]; rfl

theorem fold_object (members : List (Bytes × Tree ν)) :
    (object members).fold a = a.object (members.map fun m => (m.1, m.2.fold a)) := by
  rw [fold, foldMembers_eq]

theorem fold_array (elements : List (Tree ν)) :
    (array elements).fold a = a.array (elements.map fun v => v.fold a) := by
  rw [fold, foldElements_eq]

/-- Induction over trees: the hypotheses are about the members' values and the elements. -/
@[induction_eliminator, elab_as_elim]
theorem induct {motive : Tree ν → Prop}
    (object : ∀ members, (∀ m ∈ members, motive m.2) → motive (.object members))
    (array : ∀ elements, (∀ v ∈ elements, motive v) → motive (.array elements))
    (string : ∀ text, motive (.string text)) (number : ∀ value, motive (.number value))
    (boolean : ∀ value, motive (.boolean value)) (null : motive .null) (t : Tree ν) : motive t :=
  @Tree.rec ν motive (fun members => ∀ m ∈ members, motive m.2)
    (fun elements => ∀ v ∈ elements, motive v) (fun m => motive m.2)
    object array string number boolean null
    (fun _ h => absurd h List.not_mem_nil)
    (fun _ _ head tail _ h => (List.mem_cons.mp h).elim (fun h => h ▸ head) (tail _))
    (fun _ h => absurd h List.not_mem_nil)
    (fun _ _ head tail _ h => (List.mem_cons.mp h).elim (fun h => h ▸ head) (tail _))
    (fun _ _ value => value) t

/-- Number of containers nested in each other, the value itself included. -/
def depth : Tree ν → Nat :=
  fold
    { object := fun members => 1 + (members.map Prod.snd).foldr max 0
      array := fun elements => 1 + elements.foldr max 0
      string := fun _ => 0
      number := fun _ => 0
      boolean := fun _ => 0
      null := 0 }

/-- Number of containers, keys and scalars. -/
def tokens : Tree ν → Nat :=
  fold
    { object := fun members => 1 + (members.map fun m => 1 + m.2).sum
      array := fun elements => 1 + elements.sum
      string := fun _ => 1
      number := fun _ => 1
      boolean := fun _ => 1
      null := 1 }

/-- Number of containers and scalars. -/
def values : Tree ν → Nat :=
  fold
    { object := fun members => 1 + (members.map Prod.snd).sum
      array := fun elements => 1 + elements.sum
      string := fun _ => 1
      number := fun _ => 1
      boolean := fun _ => 1
      null := 1 }

/-- No object of the tree has two members with one key. -/
def uniqueKeys : Tree ν → Bool :=
  fold
    { object := fun members => decide (members.map Prod.fst).Nodup && (members.map Prod.snd).all id
      array := fun elements => elements.all id
      string := fun _ => true
      number := fun _ => true
      boolean := fun _ => true
      null := true }

/-- The members whose key does not come again, in their order. -/
def lastOccurrences {β : Type} : List (Bytes × β) → List (Bytes × β)
  | [] => []
  | m :: members =>
      if m.1 ∈ members.map Prod.fst then lastOccurrences members else m :: lastOccurrences members

/-- Every object keeps exactly the last occurrence of each key. -/
def lastWins : Tree ν → Tree ν :=
  fold
    { object := fun members => .object (lastOccurrences members)
      array := .array
      string := .string
      number := .number
      boolean := .boolean
      null := .null }

/-- Over every object of the tree, the number of members less the number of
distinct keys. -/
def duplicates : Tree ν → Nat :=
  fold
    { object := fun members =>
        (members.length - (members.map Prod.fst).dedup.length) + (members.map Prod.snd).sum
      array := fun elements => elements.sum
      string := fun _ => 0
      number := fun _ => 0
      boolean := fun _ => 0
      null := 0 }

/-- Every key and string is of one kind, and every number of another. -/
def Every (OnText : Bytes → Prop) (OnNumber : ν → Prop) : Tree ν → Prop :=
  fold
    { object := fun members => ∀ m ∈ members, OnText m.1 ∧ m.2
      array := fun elements => ∀ v ∈ elements, v
      string := OnText
      number := OnNumber
      boolean := fun _ => True
      null := True }

/-- The value that a path leads to. -/
def follow : Tree ν → List Step → Option (Tree ν)
  | t, [] => some t
  | .object members, .key name :: path =>
      (members.find? (·.1 == name)).bind fun m => m.2.follow path
  | .array elements, .index position :: path => elements[position]?.bind fun v => v.follow path
  | _, _ :: _ => none

/-! ### Trees, one level at a time -/

@[simp] theorem tokens_object (members : List (Bytes × Tree ν)) :
    (object members).tokens = 1 + (members.map fun m => 1 + m.2.tokens).sum := by
  simp only [tokens, fold_object, List.map_map]
  rfl

@[simp] theorem tokens_array (elements : List (Tree ν)) :
    (array elements).tokens = 1 + (elements.map tokens).sum := by
  simp only [tokens, fold_array]

theorem depth_object (members : List (Bytes × Tree ν)) :
    (object members).depth = 1 + (members.map fun m => m.2.depth).foldr max 0 := by
  simp only [depth, fold_object, List.map_map]
  rfl

theorem depth_array (elements : List (Tree ν)) :
    (array elements).depth = 1 + (elements.map depth).foldr max 0 := by
  simp only [depth, fold_array]

/-- The bound on a nesting, split over what is nested. -/
theorem add_foldr_max_le {l : List Nat} {depth bound : Nat} :
    depth + (1 + l.foldr max 0) ≤ bound ↔ depth + 1 ≤ bound ∧ ∀ n ∈ l, depth + 1 + n ≤ bound := by
  induction l with
  | nil => simp
  | cons n l ih =>
      rw [List.forall_mem_cons, and_left_comm, ← ih, List.foldr_cons]
      omega

theorem depth_object_le (members : List (Bytes × Tree ν)) (depth bound : Nat) :
    depth + (object members).depth ≤ bound ↔
      depth + 1 ≤ bound ∧ ∀ m ∈ members, depth + 1 + m.2.depth ≤ bound := by
  rw [depth_object, add_foldr_max_le]
  simp only [List.forall_mem_map]

theorem depth_array_le (elements : List (Tree ν)) (depth bound : Nat) :
    depth + (array elements).depth ≤ bound ↔
      depth + 1 ≤ bound ∧ ∀ v ∈ elements, depth + 1 + v.depth ≤ bound := by
  rw [depth_array, add_foldr_max_le]
  simp only [List.forall_mem_map]

theorem uniqueKeys_object (members : List (Bytes × Tree ν)) :
    (object members).uniqueKeys = true ↔
      (members.map Prod.fst).Nodup ∧ ∀ m ∈ members, m.2.uniqueKeys = true := by
  simp only [uniqueKeys, fold_object, List.map_map, Bool.and_eq_true, decide_eq_true_eq,
    List.all_eq_true, List.forall_mem_map, id_eq]
  rfl

theorem uniqueKeys_array (elements : List (Tree ν)) :
    (array elements).uniqueKeys = true ↔ ∀ v ∈ elements, v.uniqueKeys = true := by
  simp only [uniqueKeys, fold_array, List.all_eq_true, List.forall_mem_map, id_eq]

theorem values_object (members : List (Bytes × Tree ν)) :
    (object members).values = 1 + (members.map fun m => m.2.values).sum := by
  simp only [values, fold_object, List.map_map]
  rfl

theorem values_array (elements : List (Tree ν)) :
    (array elements).values = 1 + (elements.map values).sum := by
  simp only [values, fold_array]

theorem every_object {OnText : Bytes → Prop} {OnNumber : ν → Prop}
    (members : List (Bytes × Tree ν)) :
    (object members).Every OnText OnNumber ↔ ∀ m ∈ members, OnText m.1 ∧
      m.2.Every OnText OnNumber := by
  rw [Every, fold_object]
  exact List.forall_mem_map

theorem every_array {OnText : Bytes → Prop} {OnNumber : ν → Prop} (elements : List (Tree ν)) :
    (array elements).Every OnText OnNumber ↔ ∀ v ∈ elements, v.Every OnText OnNumber := by
  rw [Every, fold_array]
  exact List.forall_mem_map

section

variable {OnText OnText' : Bytes → Prop} {OnNumber OnNumber' : ν → Prop} {t : Tree ν}

theorem Every.imp (h : t.Every OnText OnNumber) (hText : ∀ text, OnText text → OnText' text)
    (hNumber : ∀ value, OnNumber value → OnNumber' value) : t.Every OnText' OnNumber' := by
  induction t with
  | object members ih =>
      rw [every_object] at h ⊢
      exact fun m hm => ⟨hText _ (h m hm).1, ih m hm (h m hm).2⟩
  | array elements ih =>
      rw [every_array] at h ⊢
      exact fun v hv => ih v hv (h v hv)
  | string text => exact hText _ h
  | number value => exact hNumber _ h
  | boolean value => trivial
  | null => trivial

theorem Every.and (h : t.Every OnText OnNumber) (h' : t.Every OnText' OnNumber') :
    t.Every (fun text => OnText text ∧ OnText' text) fun value => OnNumber value ∧
      OnNumber' value := by
  induction t with
  | object members ih =>
      rw [every_object] at h h' ⊢
      exact fun m hm => ⟨⟨(h m hm).1, (h' m hm).1⟩, ih m hm (h m hm).2 (h' m hm).2⟩
  | array elements ih =>
      rw [every_array] at h h' ⊢
      exact fun v hv => ih v hv (h v hv) (h' v hv)
  | string text => exact ⟨h, h'⟩
  | number value => exact ⟨h, h'⟩
  | boolean value => trivial
  | null => trivial

end

theorem tokens_pos (t : Tree ν) : 0 < t.tokens := by
  cases t <;> simp [tokens, fold]

end Tree

end MaelysJson
