import MaelysJson.Json.Tree
import MaelysJson.Text.Utf16

/-! The key order of objects, by UTF-16 code units, and trees up to the order of their
members: sorting at every level picks one of them. -/
namespace MaelysJson

open Utf8

/-- A member that may stand before another one. -/
def KeyLe {β : Type} (left right : Bytes × β) : Prop := utf16 left.1 ≤ utf16 right.1

instance {β : Type} : DecidableRel (KeyLe (β := β)) := fun left right =>
  inferInstanceAs (Decidable (utf16 left.1 ≤ utf16 right.1))

instance {β : Type} : Std.Total (KeyLe (β := β)) := ⟨fun _ _ => le_total _ _⟩

instance {β : Type} : IsTrans (Bytes × β) KeyLe := ⟨fun _ _ _ h h' => le_trans h h'⟩

/-- Different valid keys leave one order only. -/
theorem eq_of_keyLe {β : Type} {left right : List (Bytes × β)} (hPerm : left.Perm right)
    (hLeft : left.Pairwise KeyLe) (hRight : right.Pairwise KeyLe)
    (hNodup : (left.map Prod.fst).Nodup) (hValid : ∀ m ∈ left, Valid m.1) :
    left = right := by
  refine hPerm.eq_of_pairwise (fun m m' hm hm' hLe hLe' => ?_) hLeft hRight
  have hm' : m' ∈ left := hPerm.mem_iff.mpr hm'
  exact List.inj_on_of_nodup_map hNodup hm hm'
    (utf16_injective (hValid m hm) (hValid m' hm') (le_antisymm hLe hLe'))

namespace Tree

variable {ν μ : Type}

/-- The tree with other numbers. -/
def map (f : ν → μ) : Tree ν → Tree μ :=
  fold
    { object := .object
      array := .array
      string := .string
      number := fun value => .number (f value)
      boolean := .boolean
      null := .null }

/-- The members of every object in key order. -/
def sorted : Tree ν → Tree ν :=
  fold
    { object := fun members => .object (members.insertionSort KeyLe)
      array := .array
      string := .string
      number := .number
      boolean := .boolean
      null := .null }

/-- The keys of every object increase. -/
def ordered : Tree ν → Bool :=
  fold
    { object := fun members =>
        decide ((members.map fun m => utf16 m.1).Pairwise (· < ·)) && members.all fun m => m.2
      array := fun elements => elements.all id
      string := fun _ => true
      number := fun _ => true
      boolean := fun _ => true
      null := true }

theorem map_object (f : ν → μ) (members : List (Bytes × Tree ν)) :
    (object members).map f = .object (members.map fun m => (m.1, m.2.map f)) := by
  rw [map, fold_object]

theorem map_array (f : ν → μ) (elements : List (Tree ν)) :
    (array elements).map f = .array (elements.map (map f)) := by
  rw [map, fold_array]

theorem map_map {ρ : Type} (g : μ → ρ) (f : ν → μ) (t : Tree ν) :
    (t.map f).map g = t.map fun value => g (f value) := by
  induction t with
  | object members ih =>
      rw [map_object, map_object, map_object, List.map_map]
      exact congrArg Tree.object (List.map_congr_left fun m hm => congrArg (Prod.mk m.1) (ih m hm))
  | array elements ih =>
      rw [map_array, map_array, map_array, List.map_map]
      exact congrArg Tree.array (List.map_congr_left ih)
  | string text => rfl
  | number value => rfl
  | boolean value => rfl
  | null => rfl

/-- The numbers are looked at through the map. -/
theorem every_map {f : ν → μ} {OnText : Bytes → Prop} {OnNumber : μ → Prop} {t : Tree ν} :
    (t.map f).Every OnText OnNumber ↔ t.Every OnText fun value => OnNumber (f value) := by
  induction t with
  | object members ih =>
      rw [map_object, every_object, every_object, List.forall_mem_map]
      exact forall₂_congr fun m hm => and_congr_right fun _ => ih m hm
  | array elements ih =>
      rw [map_array, every_array, every_array, List.forall_mem_map]
      exact forall₂_congr ih
  | string text => rfl
  | number value => rfl
  | boolean value => rfl
  | null => rfl

theorem uniqueKeys_map (f : ν → μ) (t : Tree ν) :
    (t.map f).uniqueKeys = true ↔ t.uniqueKeys = true := by
  induction t with
  | object members ih =>
      rw [map_object, uniqueKeys_object, uniqueKeys_object, List.map_map, List.forall_mem_map]
      exact and_congr_right fun _ => forall₂_congr ih
  | array elements ih =>
      rw [map_array, uniqueKeys_array, uniqueKeys_array, List.forall_mem_map]
      exact forall₂_congr ih
  | string text => rfl
  | number value => rfl
  | boolean value => rfl
  | null => rfl

theorem values_map (f : ν → μ) (t : Tree ν) : (t.map f).values = t.values := by
  induction t with
  | object members ih =>
      rw [map_object, values_object, values_object, List.map_map]
      exact congrArg (fun sizes => 1 + List.sum sizes) (List.map_congr_left ih)
  | array elements ih =>
      rw [map_array, values_array, values_array, List.map_map]
      exact congrArg (fun sizes => 1 + List.sum sizes) (List.map_congr_left ih)
  | string text => rfl
  | number value => rfl
  | boolean value => rfl
  | null => rfl

theorem tokens_map (f : ν → μ) (t : Tree ν) : (t.map f).tokens = t.tokens := by
  induction t with
  | object members ih =>
      rw [map_object, tokens_object, tokens_object, List.map_map]
      refine congrArg (fun sizes => 1 + List.sum sizes) (List.map_congr_left fun m hm => ?_)
      simp only [Function.comp_apply, ih m hm]
  | array elements ih =>
      rw [map_array, tokens_array, tokens_array, List.map_map]
      exact congrArg (fun sizes => 1 + List.sum sizes) (List.map_congr_left ih)
  | string text => rfl
  | number value => rfl
  | boolean value => rfl
  | null => rfl

theorem depth_map (f : ν → μ) (t : Tree ν) : (t.map f).depth = t.depth := by
  induction t with
  | object members ih =>
      rw [map_object, depth_object, depth_object, List.map_map]
      exact congrArg (fun depths => 1 + List.foldr max 0 depths) (List.map_congr_left ih)
  | array elements ih =>
      rw [map_array, depth_array, depth_array, List.map_map]
      exact congrArg (fun depths => 1 + List.foldr max 0 depths) (List.map_congr_left ih)
  | string text => rfl
  | number value => rfl
  | boolean value => rfl
  | null => rfl

theorem sorted_object (members : List (Bytes × Tree ν)) :
    (object members).sorted =
      .object ((members.map fun m => (m.1, m.2.sorted)).insertionSort KeyLe) := by
  rw [sorted, fold_object]

theorem sorted_array (elements : List (Tree ν)) :
    (array elements).sorted = .array (elements.map sorted) := by
  rw [sorted, fold_array]

theorem ordered_object (members : List (Bytes × Tree ν)) :
    (object members).ordered = true ↔
      (members.map fun m => utf16 m.1).Pairwise (· < ·) ∧ ∀ m ∈ members, m.2.ordered = true := by
  rw [ordered, fold_object, Bool.and_eq_true, decide_eq_true_eq, List.map_map, List.all_map,
    List.all_eq_true]
  rfl

theorem ordered_array (elements : List (Tree ν)) :
    (array elements).ordered = true ↔ ∀ v ∈ elements, v.ordered = true := by
  simp [ordered, fold_array]

/-! ### Trees up to the order of members -/

/-- One tree becomes the other by reordering the members of objects, at any level. -/
inductive Reordered : Tree ν → Tree ν → Prop where
  | refl (t : Tree ν) : Reordered t t
  | trans {t t' t'' : Tree ν} (h : Reordered t t') (h' : Reordered t' t'') : Reordered t t''
  | permute {members members' : List (Bytes × Tree ν)} (h : members.Perm members') :
      Reordered (.object members) (.object members')
  | member {before after : List (Bytes × Tree ν)} {key : Bytes} {v v' : Tree ν}
      (h : Reordered v v') :
      Reordered (.object (before ++ (key, v) :: after)) (.object (before ++ (key, v') :: after))
  | element {before after : List (Tree ν)} {v v' : Tree ν} (h : Reordered v v') :
      Reordered (.array (before ++ v :: after)) (.array (before ++ v' :: after))

theorem Reordered.symm {t t' : Tree ν} (h : Reordered t t') : Reordered t' t := by
  induction h with
  | refl t => exact .refl t
  | trans _ _ ih ih' => exact ih'.trans ih
  | permute h => exact .permute h.symm
  | member _ ih => exact .member ih
  | element _ ih => exact .element ih

theorem Reordered.members {members : List (Bytes × Tree ν)} {f : Tree ν → Tree ν}
    (h : ∀ m ∈ members, Reordered m.2 (f m.2)) (before : List (Bytes × Tree ν)) :
    Reordered (.object (before ++ members))
      (.object (before ++ members.map fun m => (m.1, f m.2))) := by
  induction members generalizing before with
  | nil => exact .refl _
  | cons m members ih =>
      have hHead : Reordered (.object (before ++ m :: members))
        (.object (before ++ (m.1, f m.2) :: members)) :=
        .member (h m List.mem_cons_self)
      have hTail := ih (fun m hm => h m (List.mem_cons_of_mem _ hm)) (before ++ [(m.1, f m.2)])
      rw [List.append_assoc, List.append_assoc] at hTail
      exact hHead.trans hTail

theorem Reordered.elements {elements : List (Tree ν)} {f : Tree ν → Tree ν}
    (h : ∀ v ∈ elements, Reordered v (f v)) (before : List (Tree ν)) :
    Reordered (.array (before ++ elements)) (.array (before ++ elements.map f)) := by
  induction elements generalizing before with
  | nil => exact .refl _
  | cons v elements ih =>
      have hHead : Reordered (.array (before ++ v :: elements))
        (.array (before ++ f v :: elements)) :=
        .element (h v List.mem_cons_self)
      have hTail := ih (fun v hv => h v (List.mem_cons_of_mem _ hv)) (before ++ [f v])
      rw [List.append_assoc, List.append_assoc] at hTail
      exact hHead.trans hTail

/-- Other numbers do not change the order. -/
theorem Reordered.map (f : ν → μ) {t t' : Tree ν} (h : Reordered t t') :
    Reordered (t.map f) (t'.map f) := by
  induction h with
  | refl t => exact .refl _
  | trans _ _ ih ih' => exact ih.trans ih'
  | permute h =>
      rw [map_object, map_object]
      exact .permute (h.map _)
  | member _ ih =>
      rw [map_object, map_object, List.map_append, List.map_append, List.map_cons, List.map_cons]
      exact .member ih
  | element _ ih =>
      rw [map_array, map_array, List.map_append, List.map_append, List.map_cons, List.map_cons]
      exact .element ih

/-- The container with one more value at its end. -/
def grow (t : Tree ν) (key : Bytes) (v : Tree ν) : Tree ν :=
  match t with
  | object members => object (members ++ [(key, v)])
  | array elements => array (elements ++ [v])
  | t => t

theorem Reordered.grow {t t' v v' : Tree ν} (h : Reordered t t') (key : Bytes)
    (hv : Reordered v v') :
    Reordered (t.grow key v) (t'.grow key v') := by
  have hSame (t : Tree ν) : Reordered (t.grow key v) (t.grow key v') := by
    cases t with
    | object members => exact .member hv
    | array elements => exact .element hv
    | _ => exact .refl _
  induction h with
  | refl t => exact hSame t
  | @trans t t' t'' _ _ ih ih' =>
      have hBack : Reordered (t'.grow key v') (t'.grow key v) := (hSame t').symm
      exact ih.trans (hBack.trans ih')
  | permute h =>
      apply Reordered.trans _ (hSame _)
      exact .permute (h.append_right _)
  | @member before after name u u' h ih =>
      apply Reordered.trans _ (hSame _)
      simp only [Tree.grow, List.append_assoc, List.cons_append]
      exact .member h
  | @element before after u u' h ih =>
      apply Reordered.trans _ (hSame _)
      simp only [Tree.grow, List.append_assoc, List.cons_append]
      exact .element h

theorem reordered_sorted (t : Tree ν) : Reordered t t.sorted := by
  induction t with
  | object members ih =>
      rw [sorted_object]
      exact (Reordered.members ih []).trans (.permute (List.perm_insertionSort _ _).symm)
  | array elements ih =>
      rw [sorted_array]
      exact Reordered.elements ih []
  | string text => exact .refl _
  | number value => exact .refl _
  | boolean value => exact .refl _
  | null => exact .refl _

section

variable {OnText : Bytes → Prop} {OnNumber : ν → Prop} {t t' : Tree ν}

theorem Reordered.every (h : Reordered t t') :
    t.Every OnText OnNumber ↔ t'.Every OnText OnNumber := by
  induction h with
  | refl t => rfl
  | trans _ _ ih ih' => exact ih.trans ih'
  | permute h =>
      rw [every_object, every_object]
      exact forall_congr' fun m => by rw [h.mem_iff]
  | member _ ih => simp only [every_object, List.forall_mem_append, List.forall_mem_cons, ih]
  | element _ ih => simp only [every_array, List.forall_mem_append, List.forall_mem_cons, ih]

theorem Reordered.uniqueKeys (h : Reordered t t') : t.uniqueKeys = true ↔ t'.uniqueKeys = true := by
  induction h with
  | refl t => rfl
  | trans _ _ ih ih' => exact ih.trans ih'
  | permute h =>
      rw [uniqueKeys_object, uniqueKeys_object, (h.map Prod.fst).nodup_iff]
      exact and_congr_right fun _ => forall_congr' fun m => by rw [h.mem_iff]
  | member _ ih =>
      simp only [uniqueKeys_object, List.forall_mem_append, List.forall_mem_cons, ih,
        List.map_append, List.map_cons]
  | element _ ih => simp only [uniqueKeys_array, List.forall_mem_append, List.forall_mem_cons, ih]

theorem Reordered.values (h : Reordered t t') : t.values = t'.values := by
  induction h with
  | refl t => rfl
  | trans _ _ ih ih' => exact ih.trans ih'
  | permute h => rw [values_object, values_object, (h.map _).sum_eq]
  | member _ ih => simp only [values_object, List.map_append, List.map_cons, ih]
  | element _ ih => simp only [values_array, List.map_append, List.map_cons, ih]

theorem Reordered.tokens (h : Reordered t t') : t.tokens = t'.tokens := by
  induction h with
  | refl t => rfl
  | trans _ _ ih ih' => exact ih.trans ih'
  | permute h => rw [tokens_object, tokens_object, (h.map _).sum_eq]
  | member _ ih => simp only [tokens_object, List.map_append, List.map_cons, ih]
  | element _ ih => simp only [tokens_array, List.map_append, List.map_cons, ih]

theorem Reordered.depth (h : Reordered t t') : t.depth = t'.depth := by
  induction h with
  | refl t => rfl
  | trans _ _ ih ih' => exact ih.trans ih'
  | @permute members members' h =>
      have hMax := (h.map fun m => m.2.depth).foldr_eq (f := max) 0
      rw [depth_object, depth_object, hMax]
  | member _ ih => simp only [depth_object, List.map_append, List.map_cons, ih]
  | element _ ih => simp only [depth_array, List.map_append, List.map_cons, ih]

/-- Sorting at every level forgets the order, and nothing but the order. -/
theorem sorted_eq_iff (hUnique : t.uniqueKeys = true) (hEvery : t.Every Valid OnNumber) :
    t.sorted = t'.sorted ↔ Reordered t t' := by
  constructor
  · intro h
    have hSorted := t'.reordered_sorted.symm
    rw [← h] at hSorted
    exact t.reordered_sorted.trans hSorted
  · intro h
    induction h with
    | refl t => rfl
    | trans h _ ih ih' =>
        exact (ih hUnique hEvery).trans (ih' (h.uniqueKeys.mp hUnique) (h.every.mp hEvery))
    | @permute members members' h =>
        rw [uniqueKeys_object] at hUnique
        rw [every_object] at hEvery
        have hKeys (l : List (Bytes × Tree ν)) :
            (l.map fun m => (m.1, m.2.sorted)).map Prod.fst = l.map Prod.fst := by
          rw [List.map_map]
          rfl
        rw [sorted_object, sorted_object]
        congr 1
        apply eq_of_keyLe
        · exact (List.perm_insertionSort _ _).trans
            ((h.map _).trans (List.perm_insertionSort _ _).symm)
        · exact List.pairwise_insertionSort _ _
        · exact List.pairwise_insertionSort _ _
        · rw [((List.perm_insertionSort KeyLe _).map Prod.fst).nodup_iff, hKeys]
          exact hUnique.1
        · intro m hm
          rw [List.mem_insertionSort, List.mem_map] at hm
          obtain ⟨m, hm, rfl⟩ := hm
          exact (hEvery m hm).1
    | @member before after key v v' h ih =>
        rw [uniqueKeys_object] at hUnique
        rw [every_object] at hEvery
        have hMem : (key, v) ∈ before ++ (key, v) :: after :=
          List.mem_append_right _ List.mem_cons_self
        simp only [sorted_object, List.map_append, List.map_cons,
          ih (hUnique.2 _ hMem) (hEvery _ hMem).2]
    | @element before after v v' h ih =>
        rw [uniqueKeys_array] at hUnique
        rw [every_array] at hEvery
        have hMem : v ∈ before ++ v :: after := List.mem_append_right _ List.mem_cons_self
        simp only [sorted_array, List.map_append, List.map_cons,
          ih (hUnique _ hMem) (hEvery _ hMem)]

end

/-! ### Sorted trees with other numbers -/

theorem sorted_map (f : ν → μ) (t : Tree ν) : (t.map f).sorted = t.sorted.map f := by
  induction t with
  | object members ih =>
      have hSort : ((members.map fun m => (m.1, m.2.sorted)).insertionSort KeyLe).map
            (fun m : Bytes × Tree ν => (m.1, m.2.map f)) =
          (members.map fun m => (m.1, (m.2.map f).sorted)).insertionSort KeyLe := by
        let other (m : Bytes × Tree ν) : Bytes × Tree μ := (m.1, m.2.map f)
        refine (List.map_insertionSort KeyLe KeyLe other _ fun _ _ _ _ => Iff.rfl).trans ?_
        rw [List.map_map]
        refine congrArg (List.insertionSort KeyLe) (List.map_congr_left fun m hm => ?_)
        simp only [other, Function.comp_apply, ih m hm]
      rw [map_object, sorted_object, sorted_object, map_object, List.map_map]
      exact congrArg Tree.object hSort.symm
  | array elements ih =>
      rw [map_array, sorted_array, sorted_array, map_array, List.map_map, List.map_map]
      exact congrArg Tree.array (List.map_congr_left ih)
  | string text => rfl
  | number value => rfl
  | boolean value => rfl
  | null => rfl

theorem follow_map (f : ν → μ) (t : Tree ν) (path : List Step) :
    (t.map f).follow path = (t.follow path).map (Tree.map f) := by
  induction path generalizing t with
  | nil => simp only [follow, Option.map_some]
  | cons step path ih =>
      cases t with
      | object members =>
          rw [map_object]
          cases step with
          | index position => rfl
          | key name =>
              rw [follow, follow, List.find?_map, Option.bind_map, Option.map_bind]
              congr 1
              funext m
              exact ih m.2
      | array elements =>
          rw [map_array]
          cases step with
          | key name => rfl
          | index position =>
              rw [follow, follow, List.getElem?_map, Option.bind_map, Option.map_bind]
              congr 1
              funext v
              exact ih v
      | _ => cases step <;> rfl

end Tree

end MaelysJson
