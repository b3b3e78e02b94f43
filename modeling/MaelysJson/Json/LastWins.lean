import MaelysJson.Json.Tree

/-! The tree in which every object keeps the last occurrence of each key, and the
count of the members that it leaves out. -/
namespace MaelysJson.Tree

variable {ν : Type}

@[simp] theorem lastWins_object (members : List (Bytes × Tree ν)) :
    (object members).lastWins =
      .object (lastOccurrences (members.map fun m => (m.1, m.2.lastWins))) := by
  rw [lastWins, fold_object]

@[simp] theorem lastWins_array (elements : List (Tree ν)) :
    (array elements).lastWins = .array (elements.map lastWins) := by
  rw [lastWins, fold_array]

@[simp] theorem lastWins_string (text : Bytes) : (string text : Tree ν).lastWins = .string text :=
  rfl

@[simp] theorem lastWins_number (value : ν) : (number value).lastWins = .number value := rfl

@[simp] theorem lastWins_boolean (value : Bool) :
    (boolean value : Tree ν).lastWins = .boolean value :=
  rfl

@[simp] theorem lastWins_null : (null : Tree ν).lastWins = .null := rfl

theorem duplicates_object (members : List (Bytes × Tree ν)) :
    (object members).duplicates = (members.length - (members.map Prod.fst).dedup.length) +
      (members.map fun m => m.2.duplicates).sum := by
  simp only [duplicates, fold_object, List.length_map, List.map_map]
  rfl

theorem duplicates_array (elements : List (Tree ν)) :
    (array elements).duplicates = (elements.map duplicates).sum := by
  simp only [duplicates, fold_array]

/-! ### Last occurrences -/

variable {β : Type}

theorem lastOccurrences_sublist (members : List (Bytes × β)) :
    (lastOccurrences members).Sublist members := by
  induction members with
  | nil => exact List.Sublist.slnil
  | cons m members ih =>
      rw [lastOccurrences]
      split_ifs
      · exact ih.cons m
      · exact ih.cons_cons m

/-- No key is lost. -/
theorem mem_keys_lastOccurrences {members : List (Bytes × β)} {key : Bytes} :
    key ∈ (lastOccurrences members).map Prod.fst ↔ key ∈ members.map Prod.fst := by
  induction members with
  | nil => rfl
  | cons m members ih =>
      rw [lastOccurrences]
      split_ifs with hMem
      · rw [ih, List.map_cons, List.mem_cons]
        refine ⟨Or.inr, ?_⟩
        rintro (rfl | h)
        · exact hMem
        · exact h
      · rw [List.map_cons, List.mem_cons, ih, List.map_cons, List.mem_cons]

theorem nodup_lastOccurrences (members : List (Bytes × β)) :
    ((lastOccurrences members).map Prod.fst).Nodup := by
  induction members with
  | nil => exact .nil
  | cons m members ih =>
      rw [lastOccurrences]
      split_ifs with hMem
      · exact ih
      · rw [List.map_cons, List.nodup_cons, mem_keys_lastOccurrences]
        exact ⟨hMem, ih⟩

theorem lastOccurrences_of_nodup {members : List (Bytes × β)} (h : (members.map Prod.fst).Nodup) :
    lastOccurrences members = members := by
  induction members with
  | nil => rfl
  | cons m members ih =>
      rw [List.map_cons, List.nodup_cons] at h
      rw [lastOccurrences, if_neg h.1, ih h.2]

/-! ### Whole trees -/

theorem uniqueKeys_lastWins (t : Tree ν) : t.lastWins.uniqueKeys = true := by
  induction t using Tree.induct with
  | object members ih =>
      rw [lastWins_object, uniqueKeys_object]
      refine ⟨nodup_lastOccurrences _, fun m hm => ?_⟩
      obtain ⟨m', hm', rfl⟩ := List.mem_map.mp ((lastOccurrences_sublist _).subset hm)
      exact ih m' hm'
  | array elements ih =>
      rw [lastWins_array, uniqueKeys_array]
      intro v hv
      obtain ⟨v', hv', rfl⟩ := List.mem_map.mp hv
      exact ih v' hv'
  | _ => rfl

theorem lastWins_of_uniqueKeys {t : Tree ν} (h : t.uniqueKeys = true) : t.lastWins = t := by
  induction t using Tree.induct with
  | object members ih =>
      rw [uniqueKeys_object] at h
      have hMembers : members.map (fun m => (m.1, m.2.lastWins)) = members := by
        conv_rhs => rw [← List.map_id members]
        exact List.map_congr_left fun m hm => by rw [ih m hm (h.2 m hm)]; rfl
      rw [lastWins_object, hMembers, lastOccurrences_of_nodup h.1]
  | array elements ih =>
      rw [uniqueKeys_array] at h
      rw [lastWins_array, List.map_congr_left fun v hv => ih v hv (h v hv), List.map_id']
  | _ => rfl

/-- No member is left out exactly when every object has its keys once. -/
theorem duplicates_eq_zero {t : Tree ν} : t.duplicates = 0 ↔ t.uniqueKeys = true := by
  induction t using Tree.induct with
  | object members ih =>
      have hLength : (members.map Prod.fst).length = members.length := List.length_map _
      have hDedup : members.length - (members.map Prod.fst).dedup.length = 0 ↔
          (members.map Prod.fst).Nodup := by
        have hSublist := List.dedup_sublist (members.map Prod.fst)
        rw [Nat.sub_eq_zero_iff_le, ← hLength]
        constructor
        · intro hLe
          rw [← hSublist.eq_of_length_le hLe]
          exact List.nodup_dedup _
        · intro hNodup
          rw [List.dedup_eq_self.mpr hNodup]
      rw [duplicates_object, uniqueKeys_object, Nat.add_eq_zero_iff, hDedup, List.sum_eq_zero_iff]
      refine and_congr_right fun _ => ?_
      rw [List.forall_mem_map]
      exact forall₂_congr ih
  | array elements ih =>
      rw [duplicates_array, uniqueKeys_array, List.sum_eq_zero_iff, List.forall_mem_map]
      exact forall₂_congr ih
  | _ => simp [duplicates, uniqueKeys, fold]

end MaelysJson.Tree
