import Mathlib.Tactic

/-! Trees kept in a table. Every row knows its parent's index and is appended
after it; children are the rows that name a parent, in order. First-child,
last-child and next-sibling links walk over exactly these children, and a tree
laid out in preorder can be found again from the index of its root. -/
namespace Forest

/-! ### Children of an index -/

/-- The indices, counted from `start`, of the rows whose parent is `i`. -/
def childrenFrom (i : Nat) : List (Option Nat) → Nat → List Nat
  | [], _ => []
  | parent :: parents, start =>
      if parent = some i then start :: childrenFrom i parents (start + 1)
      else childrenFrom i parents (start + 1)

def children (parents : List (Option Nat)) (i : Nat) : List Nat := childrenFrom i parents 0

variable (i : Nat)

theorem childrenFrom_append (left right : List (Option Nat)) (start : Nat) :
    childrenFrom i (left ++ right) start =
      childrenFrom i left start ++ childrenFrom i right (start + left.length) := by
  induction left generalizing start with
  | nil => rfl
  | cons parent left ih =>
      have hStart : start + (left.length + 1) = start + 1 + left.length := by omega
      simp only [List.cons_append, childrenFrom, ih, List.length_cons, hStart]
      split_ifs <;> rfl

theorem childrenFrom_eq_nil {parents : List (Option Nat)} (h : some i ∉ parents) (start : Nat) :
    childrenFrom i parents start = [] := by
  induction parents generalizing start with
  | nil => rfl
  | cons parent parents ih =>
      rw [List.mem_cons, not_or] at h
      rw [childrenFrom, if_neg (Ne.symm h.1), ih h.2]

theorem mem_childrenFrom {parents : List (Option Nat)} {start j : Nat} :
    j ∈ childrenFrom i parents start ↔ start ≤ j ∧ parents[j - start]? = some (some i) := by
  induction parents generalizing start with
  | nil => simp [childrenFrom]
  | cons parent parents ih =>
      have hTail : j ∈ childrenFrom i parents (start + 1) ↔
          start < j ∧ (parent :: parents)[j - start]? = some (some i) := by
        rw [ih]
        constructor
        · rintro ⟨hLt, h⟩
          refine ⟨hLt, ?_⟩
          rwa [show j - start = j - (start + 1) + 1 by omega, List.getElem?_cons_succ]
        · rintro ⟨hLt, h⟩
          refine ⟨hLt, ?_⟩
          rwa [show j - start = j - (start + 1) + 1 by omega, List.getElem?_cons_succ] at h
      rw [childrenFrom]
      split_ifs with h
      · rw [List.mem_cons, hTail]
        constructor
        · rintro (rfl | ⟨hLt, h'⟩)
          · exact ⟨le_rfl, by rw [Nat.sub_self, List.getElem?_cons_zero, h]⟩
          · exact ⟨hLt.le, h'⟩
        · rintro ⟨hLe, h'⟩
          rcases hLe.eq_or_lt with rfl | hLt
          · exact Or.inl rfl
          · exact Or.inr ⟨hLt, h'⟩
      · rw [hTail]
        constructor
        · rintro ⟨hLt, h'⟩
          exact ⟨hLt.le, h'⟩
        · rintro ⟨hLe, h'⟩
          refine ⟨hLe.lt_of_ne ?_, h'⟩
          rintro rfl
          rw [Nat.sub_self, List.getElem?_cons_zero] at h'
          exact h (Option.some.inj h')

theorem mem_children {parents : List (Option Nat)} {j : Nat} :
    j ∈ children parents i ↔ parents[j]? = some (some i) := by
  rw [children, mem_childrenFrom, Nat.sub_zero]
  exact ⟨fun h => h.2, fun h => ⟨Nat.zero_le _, h⟩⟩

theorem childrenFrom_sorted (parents : List (Option Nat)) (start : Nat) :
    (childrenFrom i parents start).Pairwise (· < ·) := by
  induction parents generalizing start with
  | nil => exact .nil
  | cons parent parents ih =>
      rw [childrenFrom]
      split_ifs
      · refine .cons (fun j hj => ?_) (ih _)
        have := ((mem_childrenFrom i).mp hj).1
        omega
      · exact ih _

theorem children_sorted (parents : List (Option Nat)) : (children parents i).Pairwise (· < ·) :=
  childrenFrom_sorted i parents 0

theorem children_lt {parents : List (Option Nat)} {j : Nat} (h : j ∈ children parents i) :
    j < parents.length := by
  rw [mem_children] at h
  by_contra hne
  rw [List.getElem?_eq_none (by omega)] at h
  cases h

theorem children_concat (parents : List (Option Nat)) (parent : Option Nat) :
    children (parents ++ [parent]) i =
      children parents i ++ if parent = some i then [parents.length] else [] := by
  rw [children, childrenFrom_append, Nat.zero_add, childrenFrom, childrenFrom, children]

theorem children_length_le (parents : List (Option Nat)) :
    (children parents i).length ≤ parents.length := by
  have h (start : Nat) : (childrenFrom i parents start).length ≤ parents.length := by
    induction parents generalizing start with
    | nil => exact le_rfl
    | cons parent parents ih =>
        rw [childrenFrom]
        split_ifs
        · exact Nat.succ_le_succ (ih _)
        · exact (ih _).trans (Nat.le_succ _)
  exact h 0

/-! ### Children laid out in one list -/

theorem count_children (parents : List (Option Nat)) (j : Nat) :
    (children parents i).count j = if parents[j]? = some (some i) then 1 else 0 := by
  have hNodup : (children parents i).Nodup := (children_sorted i parents).imp Nat.ne_of_lt
  by_cases h : parents[j]? = some (some i)
  · rw [if_pos h, List.count_eq_one_of_mem hNodup ((mem_children i).mpr h)]
  · rw [if_neg h, List.count_eq_zero_of_not_mem (mt (mem_children i).mp h)]

/-- The children of the indices below `n`, one index after another; only those of kept indices. -/
def layout (parents : List (Option Nat)) (keep : Nat → Bool) (n : Nat) : List Nat :=
  (List.range n).flatMap fun i => if keep i then children parents i else []

theorem layout_succ (parents : List (Option Nat)) (keep : Nat → Bool) (n : Nat) :
    layout parents keep (n + 1) =
      layout parents keep n ++ if keep n then children parents n else [] := by
  rw [layout, List.range_succ, List.flatMap_append, List.flatMap_singleton]
  rfl

variable {i}

theorem layout_grows {parents : List (Option Nat)} {keep : Nat → Bool} {m n : Nat} (h : m ≤ n) :
    layout parents keep m <+: layout parents keep n := by
  induction n, h using Nat.le_induction with
  | base => exact List.prefix_rfl
  | succ n _ ih =>
      rw [layout_succ]
      exact ih.trans (List.prefix_append _ _)

/-- The children of a kept index stand together, after those of the indices before it. -/
theorem layout_split {parents : List (Option Nat)} {keep : Nat → Bool} {n : Nat} (hi : i < n)
    (hKeep : keep i = true) :
    ∃ rest, layout parents keep n = layout parents keep i ++ children parents i ++ rest := by
  obtain ⟨rest, hRest⟩ := @layout_grows parents keep _ _ (Nat.succ_le_of_lt hi)
  rw [Nat.succ_eq_add_one, layout_succ, if_pos hKeep] at hRest
  exact ⟨rest, hRest.symm⟩

/-- The slices of two kept indices do not meet. -/
theorem layout_disjoint {parents : List (Option Nat)} {keep : Nat → Bool} {j : Nat} (hij : i < j)
    (hKeep : keep i = true) :
    (layout parents keep i).length + (children parents i).length ≤
      (layout parents keep j).length := by
  obtain ⟨rest, hRest⟩ := @layout_split i parents keep j hij hKeep
  rw [hRest, List.length_append, List.length_append]
  exact Nat.le_add_right _ _

/-- If every parent is kept, every index with a parent is laid out once. -/
theorem count_layout {parents : List (Option Nat)} {keep : Nat → Bool} {n j : Nat}
    (hKeep : ∀ p : Nat, parents[j]? = some (some p) → keep p = true) :
    (layout parents keep n).count j = if ∃ p < n, parents[j]? = some (some p) then 1 else 0 := by
  induction n with
  | zero => simp [layout]
  | succ n ih =>
      have hLast : (if keep n then children parents n else []).count j =
          if parents[j]? = some (some n) then 1 else 0 := by
        by_cases hn : parents[j]? = some (some n)
        · rw [if_pos (hKeep n hn), count_children]
        · rw [if_neg hn]
          by_cases hKept : keep n = true
          · rw [if_pos hKept, count_children, if_neg hn]
          · rw [if_neg hKept, List.count_nil]
      rw [layout_succ, List.count_append, ih, hLast]
      by_cases hn : parents[j]? = some (some n)
      · have hOne : ∃ p < n + 1, parents[j]? = some (some p) := ⟨n, Nat.lt_succ_self n, hn⟩
        have hNone : ¬∃ p < n, parents[j]? = some (some p) := by
          intro h
          obtain ⟨p, hp, hParent⟩ := h
          rw [hParent, Option.some.injEq, Option.some.injEq] at hn
          omega
        rw [if_neg hNone, if_pos hn, if_pos hOne]
      · have hIff : (∃ p < n + 1, parents[j]? = some (some p)) ↔
            ∃ p < n, parents[j]? = some (some p) := by
          constructor
          · intro h
            obtain ⟨p, hp, hParent⟩ := h
            refine ⟨p, ?_, hParent⟩
            rcases Nat.lt_succ_iff_lt_or_eq.mp hp with hp | rfl
            · exact hp
            · exact absurd hParent hn
          · intro h
            obtain ⟨p, hp, hParent⟩ := h
            exact ⟨p, hp.trans (Nat.lt_succ_self n), hParent⟩
        rw [if_neg hn, Nat.add_zero]
        simp only [hIff]

variable (i)

/-! ### Links -/

/-- The least element of a list above `i`. -/
def successor (siblings : List Nat) : Option Nat := (siblings.filter (i < ·)).head?

/-- Parents come before their children, and the links of every row agree with
the parents. -/
structure Linked (parents : List (Option Nat)) (first last next : Nat → Option Nat)
    (count : Nat → Nat) : Prop where
  below : ∀ i p : Nat, parents[i]? = some (some p) → p < i
  first : ∀ i < parents.length, first i = (children parents i).head?
  last : ∀ i < parents.length, last i = (children parents i).getLast?
  count : ∀ i < parents.length, count i = (children parents i).length
  next : ∀ i < parents.length, next i = (parents.getD i none).bind fun p =>
    successor i (children parents p)

theorem successor_append_cons {left right : List Nat} (h : (left ++ i :: right).Pairwise (· < ·)) :
    successor i (left ++ i :: right) = right.head? := by
  rw [List.pairwise_append, List.pairwise_cons] at h
  obtain ⟨-, ⟨hRight, -⟩, hLeft⟩ := h
  have hNone : left.filter (i < ·) = [] := by
    rw [List.filter_eq_nil_iff]
    intro j hj
    have := hLeft j hj i List.mem_cons_self
    simp only [decide_eq_true_eq, not_lt]
    omega
  have hAll : right.filter (i < ·) = right := by
    rw [List.filter_eq_self]
    intro j hj
    simpa using hRight j hj
  rw [successor, List.filter_append, hNone, List.nil_append,
    List.filter_cons_of_neg (by simp), hAll]

/-- The sibling link of a row leads to the next child of its parent. -/
theorem Linked.next_eq {parents : List (Option Nat)} {first last next : Nat → Option Nat}
    {count : Nat → Nat} (h : Linked parents first last next count) {i j : Nat}
    {left right : List Nat} (hSplit : children parents i = left ++ j :: right) :
    next j = right.head? := by
  have hj : j ∈ children parents i := by rw [hSplit]; simp
  have hParent := (mem_children i).mp hj
  rw [h.next j (children_lt i hj), List.getD_eq_getElem?_getD, hParent]
  simp only [Option.getD_some, Option.bind_some, hSplit]
  exact successor_append_cons j (hSplit ▸ children_sorted i parents)

/-- The walk along a link from a row, at most `rounds` long. -/
def walk (next : Nat → Option Nat) : Nat → Option Nat → List Nat
  | 0, _ => []
  | _, none => []
  | rounds + 1, some i => i :: walk next rounds (next i)

/-- From the first child on, the siblings are the children. -/
theorem Linked.walk_eq {parents : List (Option Nat)} {first last next : Nat → Option Nat}
    {count : Nat → Nat} (h : Linked parents first last next count) {i rounds : Nat}
    (hi : i < parents.length) (hRounds : parents.length ≤ rounds) :
    walk next rounds (first i) = children parents i := by
  have hWalk (left right : List Nat) (rounds : Nat) (hSplit : children parents i = left ++ right)
      (hRounds : right.length ≤ rounds) : walk next rounds right.head? = right := by
    induction right generalizing left rounds with
    | nil => cases rounds <;> rfl
    | cons j right ih =>
        obtain ⟨rounds, rfl⟩ : ∃ n, rounds = n + 1 := by
          rw [List.length_cons] at hRounds
          exact Nat.exists_eq_add_one.mpr (by omega)
        rw [List.head?_cons, walk, h.next_eq hSplit,
          ih (left ++ [j]) rounds (by rw [hSplit, List.append_assoc]; rfl) (by simpa using hRounds)]
  rw [h.first i hi]
  exact hWalk [] _ _ rfl ((children_length_le i parents).trans hRounds)

/-- A new last row with no children keeps the links in order, when its parent
takes it as its last child and the last child before it as its sibling. -/
theorem Linked.concat {parents : List (Option Nat)}
    {first last next first' last' next' : Nat → Option Nat} {count count' : Nat → Nat}
    {parent : Option Nat} (h : Linked parents first last next count)
    (hParent : ∀ p, parent = some p → p < parents.length)
    (hFirst : ∀ i < parents.length, first' i = if parent = some i ∧ first i = none then
      some parents.length else first i)
    (hLast : ∀ i < parents.length, last' i = if parent = some i then
      some parents.length else last i)
    (hCount : ∀ i < parents.length, count' i = if parent = some i then count i + 1 else count i)
    (hNext : ∀ i < parents.length, next' i = if parent.bind last = some i then
      some parents.length else next i)
    (hNew : first' parents.length = none ∧ last' parents.length = none ∧ count' parents.length = 0 ∧
      next' parents.length = none) :
    Linked (parents ++ [parent]) first' last' next' count' := by
  have hChildless : children parents parents.length = [] := by
    rw [List.eq_nil_iff_forall_not_mem]
    intro j hj
    have hBelow := h.below j _ ((mem_children _).mp hj)
    have hLt := children_lt _ hj
    omega
  have hSelf : parent ≠ some parents.length := fun hEq => lt_irrefl _ (hParent _ hEq)
  have hNewChildren : children (parents ++ [parent]) parents.length = [] := by
    rw [children_concat, hChildless, if_neg hSelf, List.nil_append]
  have hCases (i : Nat) (hi : i < (parents ++ [parent]).length) :
      i < parents.length ∨ i = parents.length := by
    rw [List.length_append, List.length_singleton] at hi
    omega
  refine ⟨fun i p hp => ?_, fun i hi => ?_, fun i hi => ?_, fun i hi => ?_, fun i hi => ?_⟩
  · by_cases hi : i < parents.length
    · rw [List.getElem?_append_left hi] at hp
      exact h.below i p hp
    · obtain ⟨hLt, -⟩ := List.getElem?_eq_some_iff.mp hp
      obtain rfl : i = parents.length := (hCases i hLt).resolve_left hi
      rw [List.getElem?_concat_length] at hp
      exact hParent p (Option.some.inj hp)
  · rcases hCases i hi with hi | rfl
    · rw [hFirst i hi, h.first i hi, children_concat, List.head?_append]
      cases children parents i with
      | nil => by_cases hEq : parent = some i <;> simp [hEq]
      | cons j rest => simp
    · rw [hNew.1, hNewChildren]
      rfl
  · rcases hCases i hi with hi | rfl
    · rw [hLast i hi, h.last i hi, children_concat, List.getLast?_append]
      by_cases hEq : parent = some i <;> simp [hEq]
    · rw [hNew.2.1, hNewChildren]
      rfl
  · rcases hCases i hi with hi | rfl
    · rw [hCount i hi, h.count i hi, children_concat]
      by_cases hEq : parent = some i <;> simp [hEq]
    · rw [hNew.2.2.1, hNewChildren]
      rfl
  · rcases hCases i hi with hi | rfl
    · have hGet : (parents ++ [parent]).getD i none = parents.getD i none := by
        rw [List.getD_eq_getElem?_getD, List.getD_eq_getElem?_getD, List.getElem?_append_left hi]
      have hOwn : parents[i]? = some (parents.getD i none) := by
        rw [List.getD_eq_getElem?_getD, List.getElem?_eq_getElem hi]
        rfl
      rw [hNext i hi, hGet, h.next i hi]
      -- the last child of the new row's parent is the only row whose sibling changes
      have hLastParent (p : Nat) (hp : p < parents.length) (hEq : last p = some i) :
          parents.getD i none = some p := by
        rw [h.last p hp] at hEq
        have hMem := (mem_children p).mp (List.mem_of_getLast? hEq)
        rw [List.getD_eq_getElem?_getD, hMem]
        rfl
      cases hq : parents.getD i none with
      | none =>
          rw [if_neg]
          · rfl
          · intro hEq
            obtain ⟨p, hp, hLastEq⟩ := Option.bind_eq_some_iff.mp hEq
            have := hLastParent p (hParent p hp) hLastEq
            rw [hq] at this
            cases this
      | some p =>
          rw [hq] at hOwn
          have hp := (h.below i p hOwn).trans hi
          simp only [Option.bind_some, children_concat]
          by_cases hEq : parent = some p
          · rw [hEq, Option.bind_some, if_pos rfl]
            obtain ⟨left, right, hSplit⟩ := List.append_of_mem ((mem_children p).mpr hOwn)
            have hSorted := children_sorted p parents
            have hSorted' := children_sorted p (parents ++ [parent])
            rw [children_concat, if_pos hEq, hSplit, List.append_assoc, List.cons_append]
              at hSorted'
            rw [h.last p hp, hSplit, List.append_assoc, List.cons_append,
              successor_append_cons i hSorted', successor_append_cons i (hSplit ▸ hSorted)]
            rw [hSplit] at hSorted
            cases right with
            | nil => simp
            | cons j right =>
                rw [if_neg]
                · rfl
                · intro hEq
                  have hMem : i ∈ j :: right := by
                    have := List.mem_of_getLast? (l := j :: right) (a := i)
                    refine this ?_
                    simpa [List.getLast?_append, List.getLast?_cons_cons] using hEq
                  rw [List.pairwise_append, List.pairwise_cons] at hSorted
                  exact lt_irrefl _ (hSorted.2.1.1 i hMem)
          · rw [if_neg hEq, List.append_nil, if_neg]
            intro hBind
            obtain ⟨p', hp', hLastEq⟩ := Option.bind_eq_some_iff.mp hBind
            have := hLastParent p' (hParent p' hp') hLastEq
            rw [hq] at this
            rw [Option.some.inj this] at hEq
            exact hEq hp'
    · rw [hNew.2.2.2, List.getD_eq_getElem?_getD, List.getElem?_concat_length]
      cases hq : parent with
      | none => rfl
      | some p =>
          have hNone : (children (parents ++ [some p]) p).filter (parents.length < ·) = [] := by
            rw [List.filter_eq_nil_iff]
            intro j hj
            have := children_lt p hj
            rw [List.length_append, List.length_singleton] at this
            simp only [decide_eq_true_eq, not_lt]
            omega
          rw [Option.getD_some, Option.bind_some, successor, hNone]
          rfl

end Forest
