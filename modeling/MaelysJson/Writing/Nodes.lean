import MaelysJson.General.Spine
import MaelysJson.Table.Keyset
import MaelysJson.Table.Links
import MaelysJson.Writing.Draft

/-! The node table of a draft: its rows in preorder, with the open containers as the
spine, and the stack of their indices. -/
namespace MaelysJson

open Forest

/-! ### Rows -/

/-- The parent of a node, and the node without its links. -/
def Node.row (node : Node) : Row Node := (node.links.parent, { node with links := .init none })

/-- A node of which only type and key are known yet. -/
def bareNode (type : ValueType) (key : Option Bytes) : Node := { Node.init type none with key }

namespace Tree

/-- The node of a value, without its links. -/
def node (key : Option Bytes) : Tree Numeral → Node
  | .object _ => bareNode .object key
  | .array _ => bareNode .array key
  | .string text => { bareNode .string key with string := some text }
  | .number (.unsigned value) => { bareNode .number key with unsignedValue := value }
  | .number (.signed value) =>
    { bareNode .number key with signedValue := value, numberSigned := true }
  | .number (.lexeme text) => { bareNode .number key with string := some text }
  | .boolean value => { bareNode .boolean key with booleanValue := value }
  | .null => bareNode .null key

/-- The nodes of a value under a key. -/
def rose : Tree Numeral → Option Bytes → Rose Node :=
  fold
    { object := fun members key =>
        .node (bareNode .object key) (members.map fun m => m.2 (some m.1))
      array := fun elements key => .node (bareNode .array key) (elements.map fun v => v none)
      string := fun text key => .node ((string text).node key) []
      number := fun numeral key => .node ((number numeral).node key) []
      boolean := fun value key => .node ((boolean value).node key) []
      null := fun key => .node (null.node key) [] }

theorem rose_object (members : List (Bytes × Tree Numeral)) (key : Option Bytes) :
    (object members).rose key =
      .node (bareNode .object key) (members.map fun m => m.2.rose (some m.1)) := by
  simp only [rose, fold_object, List.map_map]
  rfl

theorem rose_array (elements : List (Tree Numeral)) (key : Option Bytes) :
    (array elements).rose key =
      .node (bareNode .array key) (elements.map fun v => v.rose none) := by
  simp only [rose, fold_array, List.map_map]
  rfl

section

variable (key : Option Bytes)

theorem string_rose (text : Bytes) :
    (string text : Tree Numeral).rose key =
      .node { bareNode .string key with string := some text } [] := rfl

theorem unsigned_rose (value : UInt64) :
    (number (.unsigned value)).rose key =
      .node { bareNode .number key with unsignedValue := value } [] := rfl

theorem signed_rose (value : Int64) :
    (number (.signed value)).rose key =
      .node { bareNode .number key with signedValue := value, numberSigned := true } [] := rfl

theorem lexeme_rose (text : Bytes) :
    (number (.lexeme text)).rose key = .node { bareNode .number key with string := some text } [] :=
  rfl

theorem boolean_rose (value : Bool) :
    (boolean value : Tree Numeral).rose key =
      .node { bareNode .boolean key with booleanValue := value } [] := rfl

theorem null_rose : (null : Tree Numeral).rose key = .node (bareNode .null key) [] := rfl

end

theorem label_rose (t : Tree Numeral) (key : Option Bytes) : (t.rose key).label = t.node key := by
  cases t with
  | object members => rw [rose_object]; rfl
  | array elements => rw [rose_array]; rfl
  | _ => rfl

theorem key_node (t : Tree Numeral) (key : Option Bytes) : (t.node key).key = key := by
  rcases t with _ | _ | _ | (_ | _ | _) | _ | _ <;> rfl

theorem sizeAll_map {α : Type} (f : α → Rose Node) (xs : List α) :
    Rose.sizeAll (xs.map f) = (xs.map fun x => (f x).size).sum := by
  induction xs with
  | nil => rfl
  | cons x xs ih => rw [List.map_cons, Rose.sizeAll, ih, List.map_cons, List.sum_cons]

theorem size_rose (t : Tree Numeral) (key : Option Bytes) : (t.rose key).size = t.values := by
  induction t generalizing key with
  | object members ih =>
      rw [rose_object, Rose.size, sizeAll_map, values_object, Nat.add_comm,
        List.map_congr_left fun m hm => ih m hm (some m.1)]
  | array elements ih =>
      rw [rose_array, Rose.size, sizeAll_map, values_array, Nat.add_comm,
        List.map_congr_left fun v hv => ih v hv none]
  | string text => rfl
  | number numeral => rfl
  | boolean value => rfl
  | null => rfl

end Tree

/-! ### Spines -/

def Hole.type : Hole → ValueType
  | .object _ _ => .object
  | .array _ => .array

/-- The key of the value that goes into a place. -/
def Hole.key : Hole → Option Bytes
  | .object _ key => some key
  | .array _ => none

def Hole.kids : Hole → List (Rose Node)
  | .object members _ => members.map fun m => m.2.rose (some m.1)
  | .array elements => elements.map fun v => v.rose none

def Focus.type : Focus → ValueType
  | .object _ _ => .object
  | .array _ => .array

def Focus.pending : Focus → Option Bytes
  | .object _ pending => pending
  | .array _ => none

def Focus.kids : Focus → List (Rose Node)
  | .object members _ => members.map fun m => m.2.rose (some m.1)
  | .array elements => elements.map fun v => v.rose none

/-- The key under which the innermost place is filled. -/
def holesKey (holes : List Hole) : Option Bytes := holes.head?.bind Hole.key

/-- The open containers around a place. -/
def holesSpine : List Hole → Spine Node
  | [] => []
  | hole :: holes => (bareNode hole.type (holesKey holes), hole.kids) :: holesSpine holes

def Focus.spine (focus : Focus) (holes : List Hole) : Spine Node :=
  (bareNode focus.type (holesKey holes), focus.kids) :: holesSpine holes

namespace Draft

def rows : Draft → List (Row Node)
  | .empty => []
  | .growing focus holes => Spine.rows (focus.spine holes)
  | .complete root => (root.rose none).rows 0 none

/-- The indices of the open containers. -/
def stack : Draft → List Nat
  | .growing focus holes => Spine.stack (focus.spine holes)
  | _ => []

def pending : Draft → Option Bytes
  | .growing focus _ => focus.pending
  | _ => none

/-- The pending key is a new one. -/
def Fresh : Draft → Prop
  | .growing (.object members (some name)) _ => name ∉ members.map Prod.fst
  | _ => True

variable {d d' : Draft} {holes : List Hole}

theorem spine_hole {focus : Focus} {hole : Hole} (h : focus.hole = some hole) (holes : List Hole) :
    focus.spine holes = holesSpine (hole :: holes) ∧ focus.pending = hole.key := by
  cases focus with
  | object members pending =>
      obtain ⟨key, rfl, rfl⟩ := Option.map_eq_some_iff.mp h
      exact ⟨rfl, rfl⟩
  | array elements =>
      cases h
      exact ⟨rfl, rfl⟩

/-- The tables of a draft with a place, in terms of what is around that place. -/
theorem tables_room (h : d.room = some holes) :
    d.rows = Spine.rows (holesSpine holes) ∧ d.stack = Spine.stack (holesSpine holes) ∧
      d.pending = holesKey holes := by
  cases d with
  | empty =>
      cases h
      exact ⟨rfl, rfl, rfl⟩
  | growing focus outer =>
      obtain ⟨hole, hHole, rfl⟩ := Option.map_eq_some_iff.mp h
      obtain ⟨hSpine, hPending⟩ := spine_hole hHole outer
      exact ⟨by rw [rows, hSpine], by rw [stack, hSpine], hPending⟩
  | complete root => cases h

theorem kids_fill (hole : Hole) (t : Tree Numeral) :
    (hole.fill t).kids = hole.kids ++ [t.rose hole.key] ∧ (hole.fill t).type = hole.type := by
  cases hole with
  | object members key => exact ⟨List.map_append, rfl⟩
  | array elements => exact ⟨List.map_append, rfl⟩

/-- A value in its place: its rows follow, nothing else changes. -/
theorem rows_close (t : Tree Numeral) (holes : List Hole) :
    (close t holes).rows = Spine.rows (holesSpine holes) ++
      (t.rose (holesKey holes)).rows (Spine.rows (holesSpine holes)).length
        (Spine.stack (holesSpine holes)).head? := by
  cases holes with
  | nil =>
      rw [close, rows, holesSpine, Spine.rows, Spine.stack, List.nil_append]
      rfl
  | cons hole holes =>
      obtain ⟨hKids, hType⟩ := kids_fill hole t
      rw [close, rows, Focus.spine, hKids, hType, Spine.rows_add]
      rfl

theorem stack_close (t : Tree Numeral) (holes : List Hole) :
    (close t holes).stack = Spine.stack (holesSpine holes) := by
  cases holes with
  | nil =>
      rw [holesSpine, Spine.stack]
      rfl
  | cons hole holes =>
      rw [close, stack, Focus.spine, Spine.stack_cons, holesSpine, Spine.stack_cons]

theorem pending_close (t : Tree Numeral) (holes : List Hole) : (close t holes).pending = none := by
  rcases holes with _ | ⟨_ | _, holes⟩ <;> rfl

theorem fresh_close (t : Tree Numeral) (holes : List Hole) : (close t holes).Fresh := by
  rcases holes with _ | ⟨_ | _, holes⟩ <;> trivial

/-- A container without children is opened. -/
theorem rows_enter {focus : Focus} (hEmpty : focus.kids = []) (holes : List Hole) :
    (growing focus holes).rows = Spine.rows (holesSpine holes) ++
      [((Spine.stack (holesSpine holes)).head?, bareNode focus.type (holesKey holes))] := by
  rw [rows, Focus.spine, hEmpty, Spine.rows_open]

theorem stack_enter (focus : Focus) (holes : List Hole) :
    (growing focus holes).stack = (Spine.rows (holesSpine holes)).length ::
      Spine.stack (holesSpine holes) := by
  rw [stack, Focus.spine, Spine.stack_cons]

/-- Leaving a container changes no row. -/
theorem rows_leave (focus : Focus) (t : Tree Numeral)
    (hRose : ∀ key, t.rose key = .node (bareNode focus.type key) focus.kids) (holes : List Hole) :
    (close t holes).rows = (growing focus holes).rows := by
  rw [rows_close, hRose, rows, Focus.spine, Spine.rows_cons]

theorem holesSpine_length (holes : List Hole) : (holesSpine holes).length = holes.length := by
  induction holes with
  | nil => rfl
  | cons hole holes ih => rw [holesSpine, List.length_cons, List.length_cons, ih]

theorem length_stack (d : Draft) : d.stack.length = d.depth := by
  cases d with
  | empty => rfl
  | growing focus holes =>
      rw [stack, Spine.length_stack, Focus.spine, List.length_cons, holesSpine_length, depth]
  | complete root => rfl

theorem sizeAll_kids (focus : Focus) : Rose.sizeAll focus.kids + 1 = focus.size := by
  cases focus with
  | object members pending =>
      rw [Focus.kids, Tree.sizeAll_map, Focus.size, Nat.add_comm,
        List.map_congr_left fun m _ => Tree.size_rose m.2 (some m.1)]
  | array elements =>
      rw [Focus.kids, Tree.sizeAll_map, Focus.size, Nat.add_comm,
        List.map_congr_left fun v _ => Tree.size_rose v none]

theorem length_holes (holes : List Hole) :
    (Spine.rows (holesSpine holes)).length = holesSize holes := by
  induction holes with
  | nil =>
      rw [holesSpine, Spine.rows]
      rfl
  | cons hole holes ih =>
      have hHole : Rose.sizeAll hole.kids + 1 = hole.size := by
        cases hole with
        | object members key => exact sizeAll_kids (.object members none)
        | array elements => exact sizeAll_kids (.array elements)
      rw [holesSpine, Spine.rows_cons, List.length_append, Rose.length_rows, Rose.size, ih, hHole,
        Nat.add_comm, holesSize, holesSize, List.map_cons, List.sum_cons]

theorem length_rows (d : Draft) : d.rows.length = d.size := by
  cases d with
  | empty => rfl
  | growing focus holes =>
      rw [rows, Focus.spine, Spine.rows_cons, List.length_append, Rose.length_rows, Rose.size,
        length_holes, sizeAll_kids, Nat.add_comm, size]
  | complete root => rw [rows, Rose.length_rows, Tree.size_rose, size]

/-- The keys of the members there are so far are those of the rows below the container. -/
theorem mem_rows_key {members : List (Bytes × Tree Numeral)} {pending : Option Bytes}
    {name : Bytes} :
    (∃ row ∈ (growing (.object members pending) holes).rows,
        row.1 = (growing (.object members pending) holes).stack.head? ∧ row.2.key = some name) ↔
      name ∈ members.map Prod.fst := by
  have hTop (row : Row Node) :
      row ∈ Spine.rows (Focus.spine (.object members pending) holes) ∧
          row.1 = some (Spine.rows (holesSpine holes)).length ↔
        ∃ m ∈ members, row =
          (some (Spine.rows (holesSpine holes)).length, m.2.node (some m.1)) := by
    have hLabel (m : Bytes × Tree Numeral) : (m.2.rose (some m.1)).label = m.2.node (some m.1) :=
      Tree.label_rose _ _
    rw [Focus.spine, Spine.mem_rows_top, Focus.kids]
    simp only [List.mem_map, exists_exists_and_eq_and, hLabel]
  rw [stack_enter, List.head?_cons, List.mem_map]
  constructor
  · rintro ⟨row, hRow, hParent, hName⟩
    obtain ⟨m, hm, rfl⟩ := (hTop row).mp ⟨hRow, hParent⟩
    rw [Tree.key_node, Option.some.injEq] at hName
    exact ⟨m, hm, hName⟩
  · rintro ⟨m, hm, rfl⟩
    obtain ⟨hRow, hParent⟩ := (hTop _).mpr ⟨m, hm, rfl⟩
    exact ⟨_, hRow, hParent, Tree.key_node _ _⟩

/-- The row of the innermost open container. -/
theorem row_top (focus : Focus) (holes : List Hole) :
    (growing focus holes).rows[(Spine.rows (holesSpine holes)).length]? =
      some ((Spine.stack (holesSpine holes)).head?, bareNode focus.type (holesKey holes)) :=
  Spine.getElem?_top

end Draft

end MaelysJson
