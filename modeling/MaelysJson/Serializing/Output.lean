import MaelysJson.Serializing.Sorting
import MaelysJson.Serializing.Spelling
import MaelysJson.Writing.Nodes

/-! The serializer writes the spelling of the value whose nodes stand in the table: the
members of each object in key order, whatever order they were added in. -/
namespace MaelysJson

open Forest Utf8

/-! ### Items of a container -/

section

variable {layout : Layout} {level : Nat}

/-- The items after the first one. -/
def Layout.more (layout : Layout) (level : Nat) (items : List Bytes) : Bytes :=
  items.flatMap fun item => [0x2c] ++ (layout.gap (level + 1) ++ item)

theorem items_cons (layout : Layout) (level : Nat) (item : Bytes) (items : List Bytes) :
    layout.items level (item :: items) =
      layout.gap (level + 1) ++ (item ++ layout.more level items) := by
  induction items generalizing item with
  | nil => simp [Layout.items, Layout.more]
  | cons next items ih =>
      have hItems : layout.items level (item :: next :: items) =
          layout.gap (level + 1) ++ item ++ [0x2c] ++ layout.items level (next :: items) := by
        rw [Layout.items, Layout.items, List.map_cons, List.map_cons, List.intercalate_cons_cons]
      rw [hItems, ih, Layout.more, Layout.more, List.flatMap_cons]
      simp only [List.append_assoc]

/-- A loop that writes a separator, a gap and an item in each round. -/
structure Itemizes (level : Nat) (loop : Bool → List Nat → SerializerM Unit)
    (body : Nat → SerializerM Unit) : Prop where
  nil : ∀ first, loop first [] = return ()
  cons : ∀ first child rest, loop first (child :: rest) =
    if (!first) = true then
      append [0x2c] >>= fun _ => appendBreak (level + 1) >>= fun _ => body child >>=
        fun _ => loop false rest
    else appendBreak (level + 1) >>= fun _ => body child >>= fun _ => loop false rest

variable {loop : Bool → List Nat → SerializerM Unit} {body : Nat → SerializerM Unit}
  {items : List Bytes} {children : List Nat}

theorem Itemizes.more_emits (hLoop : Itemizes level loop body)
    (h : List.Forall₂ (fun item child => Emits layout (body child) item) items children) :
    Emits layout (loop false children) (layout.more level items) := by
  induction h with
  | nil =>
      rw [hLoop.nil]
      exact .done
  | cons hItem hItems ih =>
      rw [hLoop.cons, Layout.more, List.flatMap_cons, List.append_assoc, List.append_assoc]
      exact (append_emits _ _).seq ((appendBreak_emits _ _).seq (hItem.seq ih))

theorem Itemizes.emits (hLoop : Itemizes level loop body)
    (h : List.Forall₂ (fun item child => Emits layout (body child) item) items children) :
    Emits layout (loop true children) (layout.items level items) := by
  cases h with
  | nil =>
      rw [hLoop.nil]
      exact .done
  | cons hItem hItems =>
      rw [hLoop.cons, items_cons]
      exact (appendBreak_emits _ _).seq (hItem.seq (hLoop.more_emits hItems))

theorem serializeElements_itemizes (node : Nat → Nat → SerializerM Unit) (level : Nat) :
    Itemizes level (serializeElements node level) fun child => node child (level + 1) := by
  constructor
  · intro first
    rw [serializeElements]
  · intro first child rest
    rw [serializeElements]

/-- What the member loop writes for one member. -/
def memberBody (node : Nat → Nat → SerializerM Unit) (nodes : List Node) (level child : Nat) :
    SerializerM Unit :=
  appendString ((nodes.getD child .blank).key.getD []) >>= fun _ =>
    (get >>= fun s : Serializer =>
        append (if s.indent = true then [0x3a, 0x20] else [0x3a])) >>= fun _ =>
      node child (level + 1)

theorem serializeMembers_itemizes (node : Nat → Nat → SerializerM Unit) (nodes : List Node)
    (level : Nat) :
    Itemizes level (serializeMembers node nodes level) (memberBody node nodes level) := by
  constructor
  · intro first
    rw [serializeMembers]
  · intro first child rest
    rw [serializeMembers, memberBody]
    simp only [bind_assoc]

/-! ### Containers -/

theorem enclose_emits {opening closing : UInt8} {content : SerializerM Unit} (hItems : items ≠ [])
    (hContent : Emits layout content (layout.items level items)) :
    Emits layout (append [opening] >>= fun _ => content >>= fun _ => appendBreak level >>=
      fun _ => append [closing]) (layout.enclose level opening closing items) := by
  rw [Layout.enclose, if_neg hItems]
  exact (append_emits _ _).seq (hContent.seq ((appendBreak_emits _ _).seq (append_emits _ _)))

variable {nodes : List Node} {node : Node} {serializeNode : Nat → Nat → SerializerM Unit}

theorem serializeArray_emits (hCount : node.links.childCount = children.length)
    (hSiblings : nodeSiblings nodes nodes.length node.links.firstChild = children)
    (hItems : List.Forall₂ (fun item child => Emits layout (serializeNode child (level + 1)) item)
      items children) :
    Emits layout (serializeArray serializeNode nodes node level)
      (layout.enclose level 0x5b 0x5d items) := by
  have hLength := hItems.length_eq
  rw [serializeArray, hCount, hSiblings]
  by_cases hEmpty : children.length = 0
  · rw [if_pos hEmpty]
    obtain rfl := List.length_eq_zero_iff.mp (hLength.trans hEmpty)
    exact append_emits _ _
  · rw [if_neg hEmpty]
    have hNonempty : items ≠ [] := fun h => hEmpty (by rw [← hLength, h]; rfl)
    exact enclose_emits hNonempty ((serializeElements_itemizes _ _).emits hItems)

def nodeKeyBytes (nodes : List Node) (index : Nat) : Bytes := (nodes.getD index .blank).key.getD []

/-- A member that stands at a child: its key, and what its value is written as. -/
structure MemberAt (layout : Layout) (serializeNode : Nat → Nat → SerializerM Unit)
    (nodes : List Node) (level : Nat) (m : Bytes × Bytes) (child : Nat) : Prop where
  key : m.1 = nodeKeyBytes nodes child
  value : Emits layout (serializeNode child (level + 1)) m.2

theorem MemberAt.emits {m : Bytes × Bytes} {child : Nat}
    (h : MemberAt layout serializeNode nodes level m child) (hValid : Valid m.1) :
    Emits layout (memberBody serializeNode nodes level child) (layout.member m.1 m.2) := by
  have hKey : (nodes.getD child .blank).key.getD [] = m.1 := h.key.symm
  rw [memberBody, hKey]
  exact (appendString_emits _ hValid).seq ((appendColon_emits _).seq h.value)

theorem keys_eq {members : List (Bytes × Bytes)}
    (h : List.Forall₂ (MemberAt layout serializeNode nodes level) members children) :
    members.map Prod.fst = children.map (nodeKeyBytes nodes) := by
  rw [← List.forall₂_eq_eq_eq, List.forall₂_map_left_iff, List.forall₂_map_right_iff]
  exact h.imp fun _ _ h => h.key

/-- The sort of the children is the sort of the members. -/
theorem sortKeys_members {members : List (Bytes × Bytes)}
    (h : List.Forall₂ (MemberAt layout serializeNode nodes level) members children)
    (hNodup : (members.map Prod.fst).Nodup) (hValid : ∀ m ∈ members, Valid m.1) :
    List.Forall₂ (MemberAt layout serializeNode nodes level) (members.insertionSort KeyLe)
      (sortKeys (keyCompare nodes) children.length children 0 children.length) := by
  have hValidKeys : ∀ i ∈ children, Valid (nodeKeyBytes nodes i) := by
    intro i hi
    have hMem : nodeKeyBytes nodes i ∈ members.map Prod.fst := by
      rw [keys_eq h]
      exact List.mem_map_of_mem hi
    obtain ⟨m, hm, hKey⟩ := List.mem_map.mp hMem
    rw [← hKey]
    exact hValid m hm
  have hDecides : Decides (keyCompare nodes) (fun i => utf16 (nodeKeyBytes nodes i)) children := by
    intro i hi j hj
    have hCompare : keyCompare nodes i j =
      signOf (utf16 (nodeKeyBytes nodes i)) (utf16 (nodeKeyBytes nodes j)) :=
      utf16Compare_eq (hValidKeys i hi) (hValidKeys j hj)
    rw [hCompare, signOf_nonpos]
    exact not_lt
  obtain ⟨hPerm, hSorted⟩ := sortKeys_eq hDecides
  generalize sortKeys (keyCompare nodes) children.length children 0 children.length = sorted
    at hPerm hSorted ⊢
  -- the members in the order in which the children have been sorted
  obtain ⟨members', hMembers', hPerm'⟩ := List.perm_comp_forall₂ hPerm h.flip
  have hSorted' : members'.Pairwise KeyLe := by
    have hKeys : (members'.map Prod.fst).Pairwise fun left right => utf16 left ≤ utf16 right := by
      rw [keys_eq hMembers'.flip, List.pairwise_map]
      exact hSorted
    rwa [List.pairwise_map] at hKeys
  have hSame : members' = members.insertionSort KeyLe := by
    apply eq_of_keyLe (hPerm'.trans (List.perm_insertionSort _ _).symm) hSorted'
      (List.pairwise_insertionSort _ _)
    · rw [(hPerm'.map Prod.fst).nodup_iff]
      exact hNodup
    · exact fun m hm => hValid m (hPerm'.mem_iff.mp hm)
  rw [← hSame]
  exact hMembers'.flip

theorem serializeObject_emits {members : List (Bytes × Bytes)}
    (hCount : node.links.childCount = children.length)
    (hSiblings : nodeSiblings nodes nodes.length node.links.firstChild = children)
    (h : List.Forall₂ (MemberAt layout serializeNode nodes level) members children)
    (hNodup : (members.map Prod.fst).Nodup) (hValid : ∀ m ∈ members, Valid m.1) :
    Emits layout (serializeObject serializeNode nodes node level)
      (layout.enclose level 0x7b 0x7d ((members.insertionSort KeyLe).map fun m =>
        layout.member m.1 m.2)) := by
  have hLength := h.length_eq
  have hSorted := sortKeys_members h hNodup hValid
  rw [serializeObject, hCount, hSiblings]
  by_cases hEmpty : children.length = 0
  · obtain rfl := List.length_eq_zero_iff.mp (hLength.trans hEmpty)
    rw [if_pos hEmpty]
    exact append_emits _ _
  · rw [if_neg hEmpty]
    have hNonempty : ((members.insertionSort KeyLe).map fun m => layout.member m.1 m.2) ≠ [] := by
      intro hNil
      have hNil := congrArg List.length hNil
      rw [List.length_map, List.length_insertionSort] at hNil
      exact hEmpty (hLength ▸ hNil)
    have hItems : List.Forall₂
        (fun item child => Emits layout (memberBody serializeNode nodes level child) item)
        ((members.insertionSort KeyLe).map fun m => layout.member m.1 m.2)
        (sortKeys (keyCompare nodes) children.length children 0 children.length) := by
      have hValid' : ∀ m ∈ members.insertionSort KeyLe, Valid m.1 :=
        fun m hm => hValid m ((List.mem_insertionSort _).mp hm)
      rw [List.forall₂_map_left_iff]
      exact ((List.forall₂_and_left _ _).mpr ⟨hValid', hSorted⟩).imp fun m child hm =>
        hm.2.emits hm.1
    apply Emits.request
    apply Emits.request
    exact enclose_emits hNonempty ((serializeMembers_itemizes _ _ _).emits hItems)

end

/-! ### The node table -/

section

variable {nodes : List Node}

theorem nodeSiblings_walk (rounds : Nat) (start : Option Nat) :
    nodeSiblings nodes rounds start =
      walk (fun i => (nodes[i]?).bind fun node => node.links.nextSibling) rounds start := by
  induction rounds generalizing start with
  | zero => rfl
  | succ rounds ih =>
      cases start with
      | none => rfl
      | some i =>
          rw [nodeSiblings, walk, ih, List.getD_eq_getElem?_getD]
          cases nodes[i]? <;> rfl

theorem parentsOf_rows (nodes : List Node) :
    parentsOf Node.links nodes = (nodes.map Node.row).map Prod.fst := by
  rw [parentsOf, List.map_map]
  rfl

/-- The links of a node lead to its children. -/
theorem LinkedBy.children (h : LinkedBy Node.links nodes) {i : Nat} (hi : i < nodes.length) :
    nodeSiblings nodes nodes.length (nodes.getD i .blank).links.firstChild =
        Forest.children ((nodes.map Node.row).map Prod.fst) i ∧
      (nodes.getD i .blank).links.childCount =
        (Forest.children ((nodes.map Node.row).map Prod.fst) i).length := by
  have hLength : i < (parentsOf Node.links nodes).length := by rwa [length_parentsOf]
  have hGet : nodes[i]? = some (nodes.getD i .blank) := by
    rw [List.getD_eq_getElem _ _ hi, List.getElem?_eq_getElem hi]
  have hWalk := Linked.walk_eq h hLength (length_parentsOf nodes).le
  have hCount := Linked.count h i hLength
  rw [hGet, parentsOf_rows] at hWalk hCount
  exact ⟨(nodeSiblings_walk _ _).trans hWalk, hCount⟩

variable {t : Tree Numeral} {key : Option Bytes} {i : Nat}

theorem node_of_at (h : (t.rose key).At (nodes.map Node.row) i) :
    i < nodes.length ∧ ∃ links, nodes.getD i .blank = { t.node key with links } := by
  have hLt := h.lt_length
  rw [List.length_map] at hLt
  have hRow : ((nodes.map Node.row)[i]?).map Prod.snd = some (t.node key) := by
    rw [← Tree.label_rose]
    cases hRose : t.rose key with
    | node label kids =>
        rw [hRose] at h
        exact h.1
  rw [List.getElem?_map, List.getElem?_eq_getElem hLt, Option.map_some, Option.map_some,
    Option.some.injEq] at hRow
  refine ⟨hLt, nodes[i].links, ?_⟩
  rw [List.getD_eq_getElem _ _ hLt, ← hRow]
  rfl

theorem nodeKeyBytes_of_at {name : Bytes} (h : (t.rose (some name)).At (nodes.map Node.row) i) :
    name = nodeKeyBytes nodes i := by
  obtain ⟨-, links, hNode⟩ := node_of_at h
  have hKey : (nodes.getD i .blank).key = some name := by
    rw [hNode]
    exact t.key_node (some name)
  rw [nodeKeyBytes, hKey]
  rfl

/-- The value of a tree that is spelled. -/
def Tree.json : Tree Numeral → Json := map Numeral.text

theorem sorted_json_object (members : List (Bytes × Tree Numeral)) (layout : Layout) (level : Nat) :
    (Tree.object members).json.sorted.spell layout level =
      layout.enclose level 0x7b 0x7d
        (((members.map fun m => (m.1, m.2.json.sorted.spell layout (level + 1))).insertionSort
          KeyLe).map fun m => layout.member m.1 m.2) := by
  have hSort : ((members.map fun m => (m.1, m.2.json.sorted)).insertionSort KeyLe).map
        (fun m : Bytes × Json => (m.1, m.2.spell layout (level + 1))) =
      (members.map fun m => (m.1, m.2.json.sorted.spell layout (level + 1))).insertionSort
        KeyLe := by
    let spelled (m : Bytes × Json) : Bytes × Bytes := (m.1, m.2.spell layout (level + 1))
    refine (List.map_insertionSort KeyLe KeyLe spelled _ fun _ _ _ _ => Iff.rfl).trans ?_
    rw [List.map_map]
    rfl
  have hObject : (Tree.object members).json.sorted =
      .object ((members.map fun m => (m.1, m.2.json.sorted)).insertionSort KeyLe) := by
    rw [Tree.json, Tree.map_object, Tree.sorted_object, List.map_map]
    rfl
  rw [hObject, Tree.spell_object, ← hSort, List.map_map]
  rfl

theorem sorted_json_array (elements : List (Tree Numeral)) (layout : Layout) (level : Nat) :
    (Tree.array elements).json.sorted.spell layout level =
      layout.enclose level 0x5b 0x5d (elements.map fun v =>
        v.json.sorted.spell layout (level + 1)) := by
  rw [Tree.json, Tree.map_array, Tree.sorted_array, Tree.spell_array, List.map_map, List.map_map]
  rfl

theorem rose_values_pos (t : Tree Numeral) : 0 < t.values := by
  rw [← t.size_rose none]
  exact Rose.size_pos _

/-- The value that stands at a node is written as its spelling. -/
theorem serializeNode_emits (hLinked : LinkedBy Node.links nodes) {OnNumber : Numeral → Prop}
    (layout : Layout) {fuel level : Nat} (h : (t.rose key).At (nodes.map Node.row) i)
    (hFuel : t.values ≤ fuel) (hUnique : t.uniqueKeys = true) (hEvery : t.Every Valid OnNumber) :
    Emits layout (serializeNode nodes fuel i level) (t.json.sorted.spell layout level) := by
  induction fuel generalizing t key i level with
  | zero => exact absurd (rose_values_pos t) (not_lt.mpr hFuel)
  | succ fuel ih =>
      obtain ⟨hi, links, hNode⟩ := node_of_at h
      obtain ⟨hSiblings, hCount⟩ := hLinked.children hi
      rw [serializeNode]
      simp only [hNode] at hSiblings hCount ⊢
      cases t with
      | object members =>
          rw [Tree.uniqueKeys_object] at hUnique
          rw [Tree.every_object] at hEvery
          rw [Tree.values_object, Nat.add_comm, Nat.succ_le_succ_iff] at hFuel
          rw [Tree.rose_object] at h
          rw [sorted_json_object]
          refine serializeObject_emits hCount hSiblings ?_ ?_ ?_
          · rw [List.forall₂_map_left_iff]
            have hKids := Rose.allAt_iff.mp h.2
            rw [List.forall₂_map_left_iff] at hKids
            refine ((List.forall₂_and_left _ _).mpr ⟨fun m hm => hm, hKids⟩).imp ?_
            rintro m child ⟨hm, hAt⟩
            have hValues : m.2.values ≤ fuel :=
              (List.single_le_sum (fun _ _ => Nat.zero_le _) _ (List.mem_map_of_mem hm)).trans hFuel
            exact ⟨nodeKeyBytes_of_at hAt, ih hAt hValues (hUnique.2 m hm) (hEvery m hm).2⟩
          · rw [List.map_map]
            exact hUnique.1
          · exact List.forall_mem_map.mpr fun m hm => (hEvery m hm).1
      | array elements =>
          rw [Tree.uniqueKeys_array] at hUnique
          rw [Tree.every_array] at hEvery
          rw [Tree.values_array, Nat.add_comm, Nat.succ_le_succ_iff] at hFuel
          rw [Tree.rose_array] at h
          rw [sorted_json_array]
          refine serializeArray_emits hCount hSiblings ?_
          rw [List.forall₂_map_left_iff]
          have hKids := Rose.allAt_iff.mp h.2
          rw [List.forall₂_map_left_iff] at hKids
          refine ((List.forall₂_and_left _ _).mpr ⟨fun v hv => hv, hKids⟩).imp ?_
          rintro v child ⟨hv, hAt⟩
          have hValues : v.values ≤ fuel :=
            (List.single_le_sum (fun _ _ => Nat.zero_le _) _ (List.mem_map_of_mem hv)).trans hFuel
          exact ih hAt hValues (hUnique v hv) (hEvery v hv)
      | string text => exact appendString_emits _ hEvery
      | number numeral => cases numeral <;> exact append_emits _ _
      | boolean value => exact append_emits _ _
      | null => exact append_emits _ _

end

end MaelysJson
