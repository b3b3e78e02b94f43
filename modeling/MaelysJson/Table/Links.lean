import MaelysJson.Code.Document
import MaelysJson.General.Forest

/-! The links of tokens and nodes: appending a row to its container keeps the
links of the whole table in agreement with the parents. -/
namespace MaelysJson

open Forest

section

variable {α : Type} (links : α → Links) (update : (Links → Links) → α → α)

def parentsOf (items : List α) : List (Option Nat) := items.map fun item => (links item).parent

/-- The links of a table agree with its parents. -/
def LinkedBy (items : List α) : Prop :=
  Linked (parentsOf links items) (fun i => (items[i]?).bind fun item => (links item).firstChild)
    (fun i => (items[i]?).bind fun item => (links item).lastChild)
    (fun i => (items[i]?).bind fun item => (links item).nextSibling)
    (fun i => ((items[i]?).map fun item => (links item).childCount).getD 0)

variable {links update}

theorem linkedBy_nil : LinkedBy links [] :=
  ⟨nofun, nofun, nofun, nofun, nofun⟩

theorem length_parentsOf (items : List α) : (parentsOf links items).length = items.length :=
  List.length_map _

/-- A root, or a row whose container is still to take it, is appended. -/
theorem LinkedBy.concat_root {items : List α} {item : α} (h : LinkedBy links items)
    (hItem : links item = .init none) : LinkedBy links (items ++ [item]) := by
  have hParents : parentsOf links (items ++ [item]) = parentsOf links items ++ [none] := by
    rw [parentsOf, List.map_append, List.map_cons, hItem]
    rfl
  have hOld {i : Nat} (hi : i < (parentsOf links items).length) :
    (items ++ [item])[i]? = items[i]? :=
    List.getElem?_append_left (by rwa [length_parentsOf] at hi)
  have hNew : (items ++ [item])[(parentsOf links items).length]? = some item := by
    rw [length_parentsOf, List.getElem?_concat_length]
  rw [LinkedBy, hParents]
  refine Linked.concat h nofun (fun i hi => ?_) (fun i hi => ?_) (fun i hi => ?_)
    (fun i hi => ?_) ?_
  · simp only [hOld hi, reduceCtorEq, false_and, if_false]
  · simp only [hOld hi, reduceCtorEq, if_false]
  · simp only [hOld hi, reduceCtorEq, if_false]
  · simp only [hOld hi, Option.bind_none, reduceCtorEq, if_false]
  · simp only [hNew, Option.bind_some, Option.map_some, hItem, Links.init,
      Option.getD_some, and_self]

/-- The rows that `linksAppend` leaves: the container and its last child take note of the new
row. -/
theorem linksAppend_getElem? (items : List α) (container index i : Nat) :
    (linksAppend links update items container index)[i]? = (items[i]?).map fun item =>
      let last := (items[container]?).bind fun entry => (links entry).lastChild
      let item := if last = some i then
        update (fun l => { l with nextSibling := some index }) item else item
      if container = i then
        update (fun l =>
          { l with
            firstChild := if last = none then some index else l.firstChild
            lastChild := some index
            childCount := l.childCount + 1 }) item
      else item := by
  rw [linksAppend]
  cases hLast : (items[container]?).bind fun entry => (links entry).lastChild with
  | none =>
      simp only [List.getElem?_modify, reduceCtorEq, if_false, if_true]
      by_cases hi : container = i
      · simp only [hi, if_true]
        rfl
      · simp only [hi, if_false]
        rfl
  | some last =>
      simp only [List.getElem?_modify, Option.some.injEq, reduceCtorEq, if_false]
      by_cases hi : container = i <;> by_cases hj : last = i <;>
        simp [hi, hj, Option.map_map, Function.comp_def]

theorem length_linksAppend (items : List α) (container index : Nat) :
    (linksAppend links update items container index).length = items.length := by
  rw [linksAppend]
  cases (items[container]?).bind fun entry => (links entry).lastChild <;> simp

/-- A new row enters its container. -/
theorem LinkedBy.append {items : List α} {item : α} {container : Nat} (h : LinkedBy links items)
    (hUpdate : ∀ f item, links (update f item) = f (links item))
    (hContainer : container < items.length) (hItem : links item = .init (some container)) :
    LinkedBy links (linksAppend links update (items ++ [item]) container items.length) := by
  have hGet := @linksAppend_getElem? _ links update (items ++ [item]) container items.length
  have hRow : (items ++ [item])[container]? = items[container]? :=
    List.getElem?_append_left hContainer
  have hParents : parentsOf links
      (linksAppend links update (items ++ [item]) container items.length) =
      parentsOf links items ++ [some container] := by
    refine List.ext_getElem? fun i => ?_
    have hAppend : parentsOf links items ++ [some container] =
        parentsOf links (items ++ [item]) := by
      rw [parentsOf, parentsOf, List.map_append, List.map_cons, hItem]
      rfl
    rw [hAppend, parentsOf, parentsOf, List.getElem?_map, List.getElem?_map, hGet, Option.map_map]
    congr 1
    funext row
    simp only [Function.comp_apply]
    split_ifs <;> simp only [hUpdate]
  have hLast := h.last container (by rwa [length_parentsOf])
  have hFirst := h.first container (by rwa [length_parentsOf])
  -- the new row is nobody's last child yet
  have hFresh : ((items[container]?).bind fun entry => (links entry).lastChild) ≠
      some items.length := by
    rw [hLast]
    intro hEq
    have := children_lt _ (List.mem_of_getLast? hEq)
    rw [length_parentsOf] at this
    omega
  have hEmpty : ((items[container]?).bind fun entry => (links entry).lastChild) = none ↔
      ((items[container]?).bind fun entry => (links entry).firstChild) = none := by
    rw [hLast, hFirst, List.getLast?_eq_none_iff, List.head?_eq_none_iff]
  rw [LinkedBy, hParents]
  refine Linked.concat h (fun p hp => ?_) (fun i hi => ?_) (fun i hi => ?_) (fun i hi => ?_)
    (fun i hi => ?_) ?_
  · cases hp
    rwa [length_parentsOf]
  all_goals simp only [length_parentsOf] at *
  · have hOld : (items ++ [item])[i]? = items[i]? := List.getElem?_append_left hi
    rw [hGet, hOld, hRow, Option.bind_map]
    by_cases hEq : container = i
    · subst hEq
      rw [List.getElem?_eq_getElem hContainer] at hEmpty ⊢
      simp only [Option.bind_some] at hEmpty ⊢
      simp only [Function.comp_apply, if_true, hUpdate, true_and, ← hEmpty]
      split_ifs <;> simp_all
    · simp only [Function.comp_def, Option.some.injEq, hEq, false_and, if_false]
      cases items[i]? with
      | none => rfl
      | some row =>
          simp only [Option.bind_some]
          split_ifs <;> simp only [hUpdate]
  · have hOld : (items ++ [item])[i]? = items[i]? := List.getElem?_append_left hi
    rw [hGet, hOld, hRow, Option.bind_map, List.getElem?_eq_getElem hi]
    simp only [Option.bind_some, Function.comp_apply, Option.some.injEq]
    by_cases hEq : container = i
    · simp only [hEq, if_true, hUpdate]
    · simp only [hEq, if_false]
      split_ifs <;> simp only [hUpdate]
  · have hOld : (items ++ [item])[i]? = items[i]? := List.getElem?_append_left hi
    rw [hGet, hOld, hRow, List.getElem?_eq_getElem hi]
    simp only [Option.map_some, Option.getD_some, Option.some.injEq]
    by_cases hEq : container = i
    · simp only [hEq, if_true, hUpdate]
      split_ifs <;> simp only [hUpdate]
    · simp only [hEq, if_false]
      split_ifs <;> simp only [hUpdate]
  · have hOld : (items ++ [item])[i]? = items[i]? := List.getElem?_append_left hi
    rw [hGet, hOld, hRow, Option.bind_map, List.getElem?_eq_getElem hi, Option.bind_some]
    simp only [Option.bind_some, Function.comp_apply]
    split_ifs <;> simp only [hUpdate]
  · have hNew : (items ++ [item])[items.length]? = some item := List.getElem?_concat_length
    have hNe : container ≠ items.length := by omega
    simp only [hGet, hNew, hRow, Option.map_some, hFresh, hNe, if_false, Option.bind_some, hItem,
      Links.init, Option.getD_some, and_self]

/-- A change of one row that leaves its links alone. -/
theorem LinkedBy.modify {items : List α} {index : Nat} {change : α → α} (h : LinkedBy links items)
    (hLinks : ∀ item, links (change item) = links item) :
    LinkedBy links (items.modify index change) := by
  have hGet {β : Type} (f : Links → β) (i : Nat) :
      ((items.modify index change)[i]?).map (fun t => f (links t)) =
      (items[i]?).map fun t => f (links t) := by
    rw [List.getElem?_modify]
    by_cases hi : index = i
    · simp only [hi, if_true, Option.map_eq_map, Option.map_map, Function.comp_def, hLinks]
    · simp only [hi, if_false, id_map']
  have hBind (f : Links → Option Nat) (i : Nat) :
      (((items.modify index change)[i]?).bind fun t => f (links t)) = (items[i]?).bind fun t =>
        f (links t) := by
    have hJoin := congrArg (fun o => o.bind id) (hGet f i)
    rwa [Option.bind_map, Option.bind_map] at hJoin
  have hParents : parentsOf links (items.modify index change) = parentsOf links items := by
    refine List.ext_getElem? fun i => ?_
    rw [parentsOf, parentsOf, List.getElem?_map, List.getElem?_map]
    exact hGet Links.parent i
  unfold LinkedBy at h ⊢
  simp only [hParents, hBind, hGet Links.childCount]
  exact h

theorem modify_length_concat (left : List α) (last : α) (f : α → α) :
    (left ++ [last]).modify left.length f = left ++ [f last] := by
  induction left with
  | nil => rfl
  | cons a left ih => rw [List.cons_append, List.length_cons, List.modify_succ_cons, ih]; rfl

end

end MaelysJson
