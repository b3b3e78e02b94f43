import MaelysJson.General.Rose

/-! Trees under construction, written to a table in preorder. The spine is the path of
the nodes still open; whatever is written next becomes the last child of the
innermost one, and closing that one writes nothing. -/
namespace Forest

/-- The open nodes, innermost first, each with the children it has so far. -/
abbrev Spine (α : Type) := List (α × List (Rose α))

def Rose.label {α : Type} : Rose α → α
  | .node label _ => label

namespace Spine

variable {α : Type}

mutual

/-- The rows written so far. -/
def rows : Spine α → List (Row α)
  | [] => []
  | (label, kids) :: outer =>
    rows outer ++ (Rose.node label kids).rows (rows outer).length (stack outer).head?

/-- The indices of the open nodes, innermost first. -/
def stack : Spine α → List Nat
  | [] => []
  | _ :: outer => (rows outer).length :: stack outer

end

variable {label : α} {kids : List (Rose α)} {outer : Spine α}

theorem rows_cons : rows ((label, kids) :: outer) =
    rows outer ++ (Rose.node label kids).rows (rows outer).length (stack outer).head? := by
  rw [rows]

theorem stack_cons : stack ((label, kids) :: outer) = (rows outer).length :: stack outer := by
  rw [stack]

theorem length_stack (s : Spine α) : (stack s).length = s.length := by
  induction s with
  | nil => rfl
  | cons frame outer ih => rw [stack, List.length_cons, List.length_cons, ih]

/-- A node without children is opened. -/
theorem rows_open : rows ((label, []) :: outer) = rows outer ++ [((stack outer).head?, label)] := by
  rw [rows, Rose.rows, Rose.rowsAll]

/-- A finished tree becomes the last child of the innermost node. -/
theorem rows_add (t : Rose α) :
    rows ((label, kids ++ [t]) :: outer) =
      rows ((label, kids) :: outer) ++
        t.rows (rows ((label, kids) :: outer)).length (stack ((label, kids) :: outer)).head? := by
  have hLength : (rows ((label, kids) :: outer)).length =
      (rows outer).length + 1 + Rose.sizeAll kids := by
    rw [rows, List.length_append, Rose.length_rows, Rose.size, Nat.add_assoc, Nat.add_comm 1]
  rw [hLength, stack, List.head?_cons, rows_cons, rows_cons, Rose.rows, Rose.rowsAll_append,
    Rose.rowsAll, Rose.rowsAll, List.append_nil, Rose.rows, List.append_assoc, List.cons_append]

/-- The row of the innermost node. -/
theorem getElem?_top :
    (rows ((label, kids) :: outer))[(rows outer).length]? = some ((stack outer).head?, label) := by
  rw [rows_cons, List.getElem?_append_right le_rfl, Nat.sub_self, Rose.rows,
    List.getElem?_cons_zero]

/-! ### Parents -/

theorem mem_stack {s : Spine α} {i : Nat} (h : i ∈ stack s) : i < (rows s).length := by
  induction s with
  | nil => cases h
  | cons frame outer ih =>
      have hOuter : (rows outer).length < (rows (frame :: outer)).length := by
        rw [rows, List.length_append, Rose.length_rows]
        exact Nat.lt_add_of_pos_right (Rose.size_pos _)
      rw [stack, List.mem_cons] at h
      rcases h with rfl | h
      · exact hOuter
      · exact (ih h).trans hOuter

theorem top_lt {s : Spine α} {i : Nat} (h : (stack s).head? = some i) : i < (rows s).length :=
  mem_stack (List.mem_of_head? h)

theorem parent_lt {s : Spine α} {row : Row α} (h : row ∈ rows s) {p : Nat} (hp : row.1 = some p) :
    p < (rows s).length := by
  induction s with
  | nil => cases h
  | cons frame outer ih =>
      rw [rows, List.mem_append] at h
      rw [rows, List.length_append, Rose.length_rows]
      rcases h with h | h
      · exact Nat.lt_add_right _ (ih h)
      · rcases Rose.within_rows _ _ _ row h with hTop | ⟨q, hq, -, hLt⟩
        · exact Nat.lt_add_right _ (top_lt (hTop.symm.trans hp))
        · rw [hp, Option.some.injEq] at hq
          rwa [hq]

/-- The rows below `parent` of trees laid out after it are the roots of these trees. -/
theorem mem_rowsAll {ts : List (Rose α)} {parent base : Nat} (hBase : parent < base) {row : Row α} :
    row ∈ Rose.rowsAll ts base (some parent) ∧ row.1 = some parent ↔
      ∃ t ∈ ts, row = (some parent, t.label) := by
  induction ts generalizing base with
  | nil => simp [Rose.rowsAll]
  | cons t ts ih =>
      cases t with
      | node label kids =>
          have hInside : row ∈ Rose.rowsAll kids (base + 1) (some base) → row.1 ≠ some parent := by
            intro h hParent
            rcases Rose.within_rowsAll kids _ _ row h with hRow | ⟨p, hRow, hLow, -⟩
            · rw [hParent, Option.some.injEq] at hRow
              omega
            · rw [hParent, Option.some.injEq] at hRow
              omega
          have hTail := @ih (base + (Rose.node label kids).size) (Nat.lt_add_right _ hBase)
          rw [Rose.rowsAll, List.mem_append, Rose.rows, List.mem_cons,
            List.exists_mem_cons_iff, ← hTail]
          constructor
          · rintro ⟨(rfl | h) | h, hParent⟩
            · exact Or.inl rfl
            · exact absurd hParent (hInside h)
            · exact Or.inr ⟨h, hParent⟩
          · rintro (rfl | ⟨h, hParent⟩)
            · exact ⟨Or.inl (Or.inl rfl), rfl⟩
            · exact ⟨Or.inr h, hParent⟩

/-- The rows below the innermost node are its children. -/
theorem mem_rows_top {row : Row α} :
    row ∈ rows ((label, kids) :: outer) ∧ row.1 = some (rows outer).length ↔
      ∃ t ∈ kids, row = (some (rows outer).length, t.label) := by
  rw [← mem_rowsAll (Nat.lt_succ_self _), rows_cons, List.mem_append, Rose.rows, List.mem_cons]
  constructor
  · rintro ⟨h | rfl | h, hParent⟩
    · exact absurd (parent_lt h hParent) (lt_irrefl _)
    · exact absurd (top_lt hParent) (lt_irrefl _)
    · exact ⟨h, hParent⟩
  · rintro ⟨h, hParent⟩
    exact ⟨Or.inr (Or.inr h), hParent⟩

end Spine

end Forest
