import MaelysJson.General.Forest

/-! Trees with any number of children, their rows in preorder, and the tree that
stands at an index of a table. A tree whose rows stand together in a table stands
at the index of its first row. -/
namespace Forest

inductive Rose (α : Type) where
  | node (label : α) (children : List (Rose α))

abbrev Row (α : Type) := Option Nat × α

namespace Rose

variable {α : Type}

mutual

def size : Rose α → Nat
  | .node _ children => sizeAll children + 1

def sizeAll : List (Rose α) → Nat
  | [] => 0
  | t :: ts => size t + sizeAll ts

end

mutual

/-- The rows of a tree in preorder, from index `base` on and below `parent`. -/
def rows : Rose α → Nat → Option Nat → List (Row α)
  | .node label children, base, parent => (parent, label) :: rowsAll children (base + 1) (some base)

def rowsAll : List (Rose α) → Nat → Option Nat → List (Row α)
  | [], _, _ => []
  | t :: ts, base, parent => rows t base parent ++ rowsAll ts (base + size t) parent

end

/-- The indices of the roots of trees laid out from `base` on. -/
def roots : List (Rose α) → Nat → List Nat
  | [], _ => []
  | t :: ts, base => base :: roots ts (base + size t)

mutual

/-- The tree stands at index `i` of the table. -/
def At (table : List (Row α)) : Rose α → Nat → Prop
  | .node label kids, i =>
      (table[i]?).map Prod.snd = some label ∧ AllAt table kids (children (table.map Prod.fst) i)

def AllAt (table : List (Row α)) : List (Rose α) → List Nat → Prop
  | [], [] => True
  | t :: ts, i :: is => At table t i ∧ AllAt table ts is
  | _, _ => False

end

@[induction_eliminator, elab_as_elim]
theorem induct {motive : Rose α → Prop}
    (node : ∀ label children, (∀ t ∈ children, motive t) → motive (.node label children))
    (t : Rose α) : motive t :=
  @Rose.rec α motive (fun children => ∀ t ∈ children, motive t) node
    (fun _ h => absurd h List.not_mem_nil)
    (fun _ _ head tail _ h => (List.mem_cons.mp h).elim (fun h => h ▸ head) (tail _)) t

theorem allAt_iff {table : List (Row α)} {ts : List (Rose α)} {is : List Nat} :
    AllAt table ts is ↔ List.Forall₂ (At table) ts is := by
  induction ts generalizing is with
  | nil => cases is <;> simp [AllAt]
  | cons t ts ih => cases is <;> simp [AllAt, ih]

theorem length_rowsAll_of {ts : List (Rose α)}
    (h : ∀ t ∈ ts, ∀ base parent, (t.rows base parent).length = t.size) (base : Nat)
    (parent : Option Nat) :
    (rowsAll ts base parent).length = sizeAll ts := by
  induction ts generalizing base with
  | nil => rfl
  | cons t ts ih =>
      rw [rowsAll, List.length_append, h t List.mem_cons_self, sizeAll,
        ih fun t ht => h t (List.mem_cons_of_mem _ ht)]

@[simp] theorem length_rows (t : Rose α) (base : Nat) (parent : Option Nat) :
    (t.rows base parent).length = t.size := by
  induction t generalizing base parent with
  | node label children ih =>
      rw [rows, List.length_cons, size, length_rowsAll_of fun t ht base parent =>
        ih t ht base parent]

@[simp] theorem length_rowsAll (ts : List (Rose α)) (base : Nat) (parent : Option Nat) :
    (rowsAll ts base parent).length = sizeAll ts :=
  length_rowsAll_of (fun t _ => length_rows t) base parent

theorem rowsAll_append (left right : List (Rose α)) (base : Nat) (parent : Option Nat) :
    rowsAll (left ++ right) base parent =
      rowsAll left base parent ++ rowsAll right (base + sizeAll left) parent := by
  induction left generalizing base with
  | nil => simp [rowsAll, sizeAll]
  | cons t left ih =>
      rw [List.cons_append, rowsAll, rowsAll, ih, sizeAll, List.append_assoc, Nat.add_assoc]

theorem sizeAll_append (left right : List (Rose α)) :
    sizeAll (left ++ right) = sizeAll left + sizeAll right := by
  induction left with
  | nil => simp [sizeAll]
  | cons t left ih => rw [List.cons_append, sizeAll, sizeAll, ih, Nat.add_assoc]

theorem size_pos (t : Rose α) : 0 < t.size := by
  cases t
  exact Nat.succ_pos _

/-! ### Parents of rows -/

/-- Every parent named in `rows` lies in `[low, high)` or is `parent`. -/
def Within (rows : List (Row α)) (parent : Option Nat) (low high : Nat) : Prop :=
  ∀ row ∈ rows, row.1 = parent ∨ ∃ p, row.1 = some p ∧ low ≤ p ∧ p < high

theorem Within.mono {rows : List (Row α)} {parent : Option Nat} {low high low' high' : Nat}
    (h : Within rows parent low high) (hLow : low' ≤ low) (hHigh : high ≤ high') :
    Within rows parent low' high' := by
  intro row hRow
  rcases h row hRow with hRow | ⟨p, hRow, hp, hp'⟩
  · exact Or.inl hRow
  · exact Or.inr ⟨p, hRow, by omega, by omega⟩

theorem Within.append {left right : List (Row α)} {parent : Option Nat} {low high : Nat}
    (hLeft : Within left parent low high) (hRight : Within right parent low high) :
    Within (left ++ right) parent low high := by
  intro row hRow
  rcases List.mem_append.mp hRow with hRow | hRow
  · exact hLeft row hRow
  · exact hRight row hRow

theorem within_rowsAll_of {ts : List (Rose α)}
    (h : ∀ t ∈ ts, ∀ base parent, Within (t.rows base parent) parent base (base + t.size))
    (base : Nat) (parent : Option Nat) :
    Within (rowsAll ts base parent) parent base (base + sizeAll ts) := by
  induction ts generalizing base with
  | nil => exact nofun
  | cons t ts ih =>
      rw [rowsAll, sizeAll]
      refine Within.append ?_ ?_
      · exact (h t List.mem_cons_self base parent).mono le_rfl (by omega)
      · exact (ih (fun t ht => h t (List.mem_cons_of_mem _ ht)) (base + t.size)).mono
          (by omega) (by omega)

theorem within_rows (t : Rose α) (base : Nat) (parent : Option Nat) :
    Within (t.rows base parent) parent base (base + t.size) := by
  induction t generalizing base parent with
  | node label children ih =>
      intro row hRow
      rw [rows, List.mem_cons] at hRow
      rw [size]
      rcases hRow with rfl | hRow
      · exact Or.inl rfl
      · refine Or.inr ?_
        rcases within_rowsAll_of (fun t ht base parent => ih t ht base parent) (base + 1)
          (some base) row hRow with hRow | ⟨p, hRow, hp, hp'⟩
        · exact ⟨base, hRow, le_rfl, by omega⟩
        · exact ⟨p, hRow, by omega, by omega⟩

theorem within_rowsAll (ts : List (Rose α)) (base : Nat) (parent : Option Nat) :
    Within (rowsAll ts base parent) parent base (base + sizeAll ts) :=
  within_rowsAll_of (fun t _ => within_rows t) base parent

/-- The children that a laid out tree gives to an index outside it: its root, if any. -/
theorem childrenFrom_rows (t : Rose α) (base : Nat) (parent : Option Nat) {i : Nat}
    (hi : i < base ∨ base + t.size ≤ i) :
    childrenFrom i ((t.rows base parent).map Prod.fst) base = if parent = some i then
      [base] else [] := by
  cases t with
  | node label children =>
      rw [size] at hi
      have hNone : some i ∉ (rowsAll children (base + 1) (some base)).map Prod.fst := by
        intro h
        obtain ⟨row, hRow, hEq⟩ := List.mem_map.mp h
        rcases within_rowsAll children (base + 1) (some base) row hRow with h | ⟨p, h, hp, hp'⟩
        · rw [hEq, Option.some.injEq] at h
          omega
        · rw [hEq, Option.some.injEq] at h
          omega
      rw [rows, List.map_cons, childrenFrom, childrenFrom_eq_nil i hNone]

theorem childrenFrom_rowsAll (ts : List (Rose α)) (base : Nat) (parent : Option Nat) {i : Nat}
    (hi : i < base ∨ base + sizeAll ts ≤ i) :
    childrenFrom i ((rowsAll ts base parent).map Prod.fst) base =
      if parent = some i then roots ts base else [] := by
  induction ts generalizing base with
  | nil => simp [rowsAll, childrenFrom, roots]
  | cons t ts ih =>
      rw [sizeAll] at hi
      rw [rowsAll, List.map_append, childrenFrom_append, childrenFrom_rows t base parent (by omega),
        List.length_map, length_rows, ih _ (by omega), roots]
      split_ifs <;> rfl

/-! ### Trees in a table -/

/-- A tree whose rows stand together in a table, before rows that name no parent
inside it, stands at the index of its first row. -/
theorem at_of_rows (t : Rose α) (pre post : List (Row α)) (parent : Option Nat)
    (hPre : ∀ row ∈ pre, ∀ p, row.1 = some p → p < pre.length)
    (hParent : ∀ p, parent = some p → p < pre.length)
    (hPost : ∀ row ∈ post, ∀ p, row.1 = some p → p < pre.length ∨ pre.length + t.size ≤ p) :
    At (pre ++ (t.rows pre.length parent ++ post)) t pre.length := by
  induction t generalizing pre post parent with
  | node label kids ih =>
      rw [size] at hPost
      have hAll (done rest : List (Rose α)) (hKids : kids = done ++ rest) :
          AllAt (pre ++ ((node label kids).rows pre.length parent ++ post)) rest
            (roots rest (pre.length + 1 + sizeAll done)) := by
        induction rest generalizing done with
        | nil => trivial
        | cons t rest ihRest =>
            refine ⟨?_, ?_⟩
            · have hSplit : pre ++ ((node label kids).rows pre.length parent ++ post) =
                  (pre ++ (parent, label) :: rowsAll done (pre.length + 1) (some pre.length)) ++
                    (t.rows (pre.length + 1 + sizeAll done) (some pre.length) ++
                      (rowsAll rest (pre.length + 1 + sizeAll done + t.size) (some pre.length) ++
                        post)) := by
                rw [rows, hKids, rowsAll_append, rowsAll]
                simp only [List.append_assoc, List.cons_append]
              have hLength : (pre ++ (parent, label) ::
                  rowsAll done (pre.length + 1) (some pre.length)).length =
                  pre.length + 1 + sizeAll done := by
                simp only [List.length_append, List.length_cons, length_rowsAll]
                omega
              have hSize : sizeAll kids = sizeAll done + (t.size + sizeAll rest) := by
                rw [hKids, sizeAll_append, sizeAll]
              rw [hSplit, ← hLength]
              refine ih t (by simp [hKids]) _ _ _ ?_ ?_ ?_
              · rw [hLength]
                intro row hRow p hp
                rcases List.mem_append.mp hRow with hRow | hRow
                · have := hPre row hRow p hp
                  omega
                · rcases List.mem_cons.mp hRow with rfl | hRow
                  · have := hParent p hp
                    omega
                  · rcases within_rowsAll done _ _ row hRow with h | ⟨q, h, hq, hq'⟩ <;>
                      rw [hp, Option.some.injEq] at h <;> omega
              · rw [hLength]
                rintro p ⟨⟩
                omega
              · rw [hLength]
                intro row hRow p hp
                rcases List.mem_append.mp hRow with hRow | hRow
                · rcases within_rowsAll rest _ _ row hRow with h | ⟨q, h, hq, hq'⟩ <;>
                    rw [hp, Option.some.injEq] at h <;> omega
                · rcases hPost row hRow p hp with h | h <;> omega
            · have hNext := ihRest (done ++ [t]) (by rw [hKids, List.append_assoc]; rfl)
              rw [sizeAll_append, sizeAll, sizeAll, Nat.add_zero, ← Nat.add_assoc] at hNext
              exact hNext
      have hOutside (rows : List (Row α)) (h : ∀ row ∈ rows, row.1 ≠ some pre.length)
          (start : Nat) : childrenFrom pre.length (rows.map Prod.fst) start = [] := by
        refine childrenFrom_eq_nil _ (fun hMem => ?_) start
        obtain ⟨row, hRow, hEq⟩ := List.mem_map.mp hMem
        exact h row hRow hEq
      have hChildren : children
          ((pre ++ ((node label kids).rows pre.length parent ++ post)).map Prod.fst) pre.length =
          roots kids (pre.length + 1) := by
        rw [rows, List.map_append, List.map_append, List.map_cons, List.cons_append, children,
          childrenFrom_append, childrenFrom, if_neg (fun h => lt_irrefl _ (hParent _ h)),
          childrenFrom_append, hOutside pre (fun row hRow h => lt_irrefl _ (hPre row hRow _ h)),
          hOutside post fun row hRow h => by rcases hPost row hRow _ h with h | h <;> omega]
        rw [List.length_map, Nat.zero_add, childrenFrom_rowsAll _ _ _ (Or.inl (by omega)),
          if_pos rfl, List.nil_append, List.append_nil]
      refine ⟨?_, ?_⟩
      · rw [List.getElem?_append_right le_rfl, Nat.sub_self, rows]
        rfl
      · rw [hChildren]
        exact hAll [] kids rfl

/-- The whole table of a tree. -/
theorem at_rows (t : Rose α) : At (t.rows 0 none) t 0 := by
  have h := at_of_rows t [] [] none nofun nofun nofun
  rwa [List.nil_append, List.append_nil] at h

/-- Only the first row of a tree has no parent. -/
theorem parent_of_rows (t : Rose α) {j : Nat} {row : Row α} (hj : 0 < j)
    (hRow : (t.rows 0 none)[j]? = some row) : ∃ p, row.1 = some p := by
  cases t with
  | node label kids =>
      rw [rows] at hRow
      obtain ⟨k, rfl⟩ := Nat.exists_eq_succ_of_ne_zero hj.ne'
      rw [List.getElem?_cons_succ] at hRow
      rcases within_rowsAll kids (0 + 1) (some 0) row (List.mem_of_getElem? hRow) with h | ⟨p, h, -⟩
      · exact ⟨0, h⟩
      · exact ⟨p, h⟩

theorem At.lt_length {table : List (Row α)} {t : Rose α} {i : Nat} (h : At table t i) :
    i < table.length := by
  cases t with
  | node label kids =>
      by_contra hne
      have := h.1
      rw [List.getElem?_eq_none (by omega)] at this
      cases this

/-! ### Other labels -/

mutual

/-- The tree with its labels replaced. -/
def map {β : Type} (f : α → β) : Rose α → Rose β
  | .node label children => .node (f label) (mapAll f children)

def mapAll {β : Type} (f : α → β) : List (Rose α) → List (Rose β)
  | [] => []
  | t :: ts => map f t :: mapAll f ts

end

variable {β : Type} (f : α → β)

theorem mapAll_eq (ts : List (Rose α)) : mapAll f ts = ts.map (map f) := by
  induction ts with
  | nil => rfl
  | cons t ts ih => rw [mapAll, ih, List.map_cons]

@[simp] theorem map_node (label : α) (children : List (Rose α)) :
    map f (.node label children) = .node (f label) (children.map (map f)) := by
  rw [map, mapAll_eq]

@[simp] theorem size_map (t : Rose α) : (t.map f).size = t.size := by
  induction t with
  | node label children ih =>
      have hAll (ts : List (Rose α)) (h : ∀ t ∈ ts, (t.map f).size = t.size) :
          sizeAll (ts.map (map f)) = sizeAll ts := by
        induction ts with
        | nil => rfl
        | cons t ts ihs =>
            rw [List.forall_mem_cons] at h
            rw [List.map_cons, sizeAll, sizeAll, h.1, ihs h.2]
      rw [map_node, size, size, hAll children ih]

/-- The rows keep their parents. -/
theorem rows_map (t : Rose α) (base : Nat) (parent : Option Nat) :
    (t.map f).rows base parent = (t.rows base parent).map fun row => (row.1, f row.2) := by
  induction t generalizing base parent with
  | node label children ih =>
      have hAll (ts : List (Rose α)) (start : Nat) (above : Option Nat)
          (h : ∀ t ∈ ts, ∀ base parent, (t.map f).rows base parent =
            (t.rows base parent).map fun row => (row.1, f row.2)) :
          rowsAll (ts.map (map f)) start above = (rowsAll ts start above).map fun row =>
            (row.1, f row.2) := by
        induction ts generalizing start with
        | nil => rfl
        | cons t ts ihs =>
            rw [List.forall_mem_cons] at h
            rw [List.map_cons, rowsAll, rowsAll, List.map_append, h.1, size_map,
              ihs (start + t.size) h.2]
      rw [map_node, rows, rows, List.map_cons, hAll children _ _ fun t ht base parent =>
        ih t ht base parent]

end Rose

end Forest
