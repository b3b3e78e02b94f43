import MaelysJson.Code.Serialize
import MaelysJson.Text.Utf16

/-! The merge sort of member indices: whatever the length of the range, it leaves a
permutation in the order of a total preorder that the comparison decides. -/
namespace MaelysJson

variable {κ : Type} [LinearOrder κ] {compare : Nat → Nat → Int} {key : Nat → κ}

/-- Whether `i` may stand before `j`. -/
def keyLe (key : Nat → κ) (i j : Nat) : Bool := decide (key i ≤ key j)

theorem keyLe_trans (i j k : Nat) (h : keyLe key i j = true) (h' : keyLe key j k = true) :
    keyLe key i k = true := by
  simp only [keyLe, decide_eq_true_eq] at *
  exact h.trans h'

theorem keyLe_total (i j : Nat) : (keyLe key i j || keyLe key j i) = true := by
  simp only [keyLe, Bool.or_eq_true, decide_eq_true_eq]
  exact le_total _ _

/-- The comparison decides the order of the keys, on these indices. -/
def Decides (compare : Nat → Nat → Int) (key : Nat → κ) (indices : List Nat) : Prop :=
  ∀ i ∈ indices, ∀ j ∈ indices, (compare i j ≤ 0 ↔ key i ≤ key j)

/-- The indices from `start` up to `finish`. -/
def segment (values : List Nat) (start finish : Nat) : List Nat := (values.take finish).drop start

theorem segment_cons {values : List Nat} {start finish : Nat} (hStart : start < finish)
    (hFinish : finish ≤ values.length) :
    segment values start finish = values.getD start 0 :: segment values (start + 1) finish := by
  have hLength : start < (values.take finish).length := by
    rw [List.length_take]
    omega
  rw [segment, List.drop_eq_getElem_cons hLength, List.getElem_take, List.getD_eq_getElem]
  rfl

theorem segment_empty {values : List Nat} {start finish : Nat} (h : finish ≤ start) :
    segment values start finish = [] := by
  rw [segment, List.drop_eq_nil_iff, List.length_take]
  omega

theorem mem_getD {values : List Nat} {i : Nat} (h : i < values.length) :
    values.getD i 0 ∈ values := by
  rw [List.getD_eq_getElem _ _ h]
  exact List.getElem_mem h

/-- The merge loop merges what is left of the two runs. -/
theorem mergeFrom_eq {values : List Nat} (hDecides : Decides compare key values)
    {middle finish : Nat} (hMiddle : middle ≤ values.length) (hFinish : finish ≤ values.length)
    {rounds left right : Nat} (hRounds : (middle - left) + (finish - right) ≤ rounds) :
    mergeFrom compare values middle finish rounds left right =
      List.merge (segment values left middle) (segment values right finish) (keyLe key) := by
  induction rounds generalizing left right with
  | zero =>
      rw [segment_empty (by omega), segment_empty (by omega), List.nil_merge, mergeFrom]
  | succ rounds ih =>
      rw [mergeFrom]
      by_cases hLeft : left < middle
      · have hConsLeft := segment_cons hLeft hMiddle
        by_cases hRight : right < finish
        · have hConsRight := segment_cons hRight hFinish
          have hCompare := hDecides _ (mem_getD (hLeft.trans_le hMiddle)) _
            (mem_getD (hRight.trans_le hFinish))
          rw [if_pos (Or.inl hLeft), hConsLeft, hConsRight]
          by_cases hTake : compare (values.getD left 0) (values.getD right 0) ≤ 0
          · rw [if_pos (Or.inr ⟨hLeft, hTake⟩), ih (by omega),
              List.cons_merge_cons_pos _ _ _ (decide_eq_true (hCompare.mp hTake)), hConsRight]
          · have hNot : ¬keyLe key (values.getD left 0) (values.getD right 0) = true := by
              rw [keyLe, decide_eq_true_eq, ← hCompare]
              exact hTake
            have hSkip : ¬(right ≥ finish ∨ left < middle ∧
                compare (values.getD left 0) (values.getD right 0) ≤ 0) := by
              rintro (hEnd | ⟨-, hLe⟩)
              · omega
              · exact hTake hLe
            rw [if_neg hSkip, ih (by omega), List.cons_merge_cons_neg _ _ _ hNot, hConsLeft]
        · rw [if_pos (Or.inl hLeft), if_pos (Or.inl (not_lt.mp hRight)), ih (by omega),
            segment_empty (not_lt.mp hRight), List.merge_right, List.merge_right, hConsLeft]
      · by_cases hRight : right < finish
        · have hSkip : ¬(right ≥ finish ∨ left < middle ∧
              compare (values.getD left 0) (values.getD right 0) ≤ 0) := by
            rintro (hEnd | ⟨hLess, -⟩)
            · omega
            · exact hLeft hLess
          rw [if_pos (Or.inr hRight), if_neg hSkip, ih (by omega), segment_empty (not_lt.mp hLeft),
            List.nil_merge, List.nil_merge, ← segment_cons hRight hFinish]
        · rw [if_neg (by omega), segment_empty (not_lt.mp hLeft), segment_empty (not_lt.mp hRight),
            List.nil_merge]

/-- Two runs that stand next to each other are merged in place. -/
theorem mergeKeys_eq {values left right before after : List Nat}
    (hDecides : Decides compare key values) (hValues : values = before ++ left ++ right ++ after) :
    mergeKeys compare values before.length (before.length + left.length)
      (before.length + left.length + right.length) =
      before ++ List.merge left right (keyLe key) ++ after := by
  have hLength : values.length = before.length + left.length + right.length + after.length := by
    rw [hValues]
    simp only [List.length_append]
  have hLeft : segment values before.length (before.length + left.length) = left := by
    rw [segment, hValues, List.append_assoc, List.append_assoc, List.take_append, List.drop_append]
    simp
  have hRight : segment values (before.length + left.length)
      (before.length + left.length + right.length) = right := by
    have hBoth : (before ++ left ++ right).length = before.length + left.length + right.length := by
      simp only [List.length_append]
    have hOne : (before ++ left).length = before.length + left.length := List.length_append
    rw [segment, hValues, ← hBoth, List.take_left, ← hOne, List.drop_left]
  have hBefore : values.take before.length = before := by
    rw [hValues, List.append_assoc, List.append_assoc, List.take_left]
  have hAfter : values.drop (before.length + left.length + right.length) = after := by
    have hBoth : (before ++ left ++ right).length = before.length + left.length + right.length := by
      simp only [List.length_append]
    rw [hValues, ← hBoth, List.drop_left]
  rw [mergeKeys, mergeFrom_eq hDecides (by omega) (by omega) (by omega), hLeft, hRight,
    hBefore, hAfter]

/-- A range of the array is sorted, what is outside it stays. -/
theorem sortKeys_range {values before run after : List Nat} (hDecides : Decides compare key values)
    (hValues : values = before ++ run ++ after) {fuel : Nat} (hFuel : run.length ≤ fuel) :
    ∃ sorted, sortKeys compare fuel values before.length (before.length + run.length) =
      before ++ sorted ++ after ∧ sorted.Perm run ∧ sorted.Pairwise fun i j => key i ≤ key j := by
  induction fuel generalizing values before run after with
  | zero =>
      obtain rfl := List.length_eq_zero_iff.mp (Nat.le_zero.mp hFuel)
      exact ⟨[], hValues, .refl _, .nil⟩
  | succ fuel ih =>
      rw [sortKeys]
      by_cases hShort : run.length < 2
      · rw [if_pos (by omega)]
        refine ⟨run, hValues, .refl _, ?_⟩
        match run, hShort with
        | [], _ => exact .nil
        | [i], _ => exact List.pairwise_singleton _ _
      rw [if_neg (by omega)]
      -- the two halves, each sorted in turn
      let left := run.take (run.length / 2)
      let right := run.drop (run.length / 2)
      have hLeftLength : left.length = run.length / 2 := by
        rw [List.length_take]
        omega
      have hRightLength : right.length = run.length - run.length / 2 := List.length_drop
      have hRun : run = left ++ right := (List.take_append_drop _ _).symm
      have hSplit : values = before ++ left ++ (right ++ after) := by
        rw [hValues, hRun]
        simp only [List.append_assoc]
      obtain ⟨sorted, hFirst, hPerm, hSorted⟩ := ih hDecides hSplit (by omega)
      have hMiddle : before.length + (before.length + run.length - before.length) / 2 =
          before.length + left.length := by
        rw [hLeftLength]
        omega
      have hSame : ∀ i, i ∈ before ++ sorted ++ (right ++ after) → i ∈ values := by
        intro i hi
        rw [hSplit]
        simp only [List.mem_append] at hi ⊢
        rcases hi with (hi | hi) | hi
        · exact Or.inl (Or.inl hi)
        · exact Or.inl (Or.inr (hPerm.mem_iff.mp hi))
        · exact Or.inr hi
      have hDecides' : Decides compare key (before ++ sorted ++ (right ++ after)) :=
        fun i hi j hj => hDecides i (hSame i hi) j (hSame j hj)
      obtain ⟨sorted', hSecond, hPerm', hSorted'⟩ := ih hDecides' (List.append_assoc _ _ _).symm
        (show right.length ≤ fuel by omega)
      have hLength : (before ++ sorted).length = before.length + left.length := by
        rw [List.length_append, hPerm.length_eq]
      have hSame' : ∀ i, i ∈ before ++ sorted ++ sorted' ++ after →
          i ∈ before ++ sorted ++ (right ++ after) := by
        intro i hi
        simp only [List.mem_append] at hi ⊢
        rcases hi with ((hi | hi) | hi) | hi
        · exact Or.inl (Or.inl hi)
        · exact Or.inl (Or.inr hi)
        · exact Or.inr (Or.inl (hPerm'.mem_iff.mp hi))
        · exact Or.inr (Or.inr hi)
      have hDecides'' : Decides compare key (before ++ sorted ++ sorted' ++ after) :=
        fun i hi j hj => hDecides' i (hSame' i hi) j (hSame' j hj)
      have hMerge := mergeKeys_eq hDecides'' rfl
      have hFinish : before.length + left.length + right.length = before.length + run.length := by
        omega
      rw [hLength, hFinish] at hSecond
      rw [hPerm.length_eq, hPerm'.length_eq, hFinish] at hMerge
      simp only [hMiddle, hFirst, hSecond, hMerge]
      refine ⟨_, rfl, ?_, ?_⟩
      · rw [hRun]
        exact (List.merge_perm_append (keyLe key)).trans (hPerm.append hPerm')
      · have hPairs := @List.pairwise_merge _ (keyLe key) keyLe_trans keyLe_total sorted sorted'
          (hSorted.imp decide_eq_true) (hSorted'.imp decide_eq_true)
        exact hPairs.imp of_decide_eq_true

/-- The sort of a whole array. -/
theorem sortKeys_eq {values : List Nat} (hDecides : Decides compare key values) :
    (sortKeys compare values.length values 0 values.length).Perm values ∧
      (sortKeys compare values.length values 0 values.length).Pairwise fun i j =>
        key i ≤ key j := by
  have hValues : values = [] ++ values ++ [] := by rw [List.nil_append, List.append_nil]
  obtain ⟨sorted, hSort, hPerm, hSorted⟩ := sortKeys_range hDecides hValues le_rfl
  rw [List.length_nil, Nat.zero_add, List.nil_append, List.append_nil] at hSort
  rw [hSort]
  exact ⟨hPerm, hSorted⟩

end MaelysJson
