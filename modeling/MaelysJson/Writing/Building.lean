import MaelysJson.Writing.Nodes
import MaelysJson.Writing.Sticky

/-! The tables of a writer build a draft: with memory granted, each call does what the
draft does with its event, and fails where the draft has no place for it. -/
namespace MaelysJson

open Run Heap Forest

/-! ### Tables -/

/-- The key of a row in the key set. -/
def nodeRowKey (rows : List (Row Node)) (index : Nat) : KeysetKey :=
  let row := rows.getD index (none, Node.blank)
  { parent := row.1, bytes := row.2.key.getD [] }

theorem nodeKey_eq (nodes : List Node) : nodeKey nodes = nodeRowKey (nodes.map Node.row) := by
  funext index
  rw [nodeKey, nodeRowKey, List.getD_eq_getElem?_getD, List.getD_eq_getElem?_getD,
    List.getElem?_map]
  cases nodes[index]? <;> rfl

/-- The key set holds the keyed rows, each by its parent and its key. -/
def KeysHold (rows : List (Row Node)) (keys : Keyset) : Prop :=
  ∃ map, keys.Holds (nodeRowKey rows) map ∧
    ∀ key i, map key = some i ↔ ∃ row, rows[i]? = some row ∧ row.1 = key.parent ∧
    row.2.key = some key.bytes

/-- The node table with its links and its key set. -/
structure Writer.Tables (w : Writer) (rows : List (Row Node)) : Prop where
  table : w.nodes.map Node.row = rows
  linked : LinkedBy Node.links w.nodes
  keys : KeysHold rows w.keys
  sized : w.Sized

section

variable {rows : List (Row Node)} {keys : Keyset}

theorem KeysHold.contains (h : KeysHold rows keys) (key : KeysetKey) :
    keysetContains (nodeRowKey rows) keys key = true ↔ ∃ row ∈ rows, row.1 = key.parent ∧
      row.2.key = some key.bytes := by
  obtain ⟨map, hHolds, hMap⟩ := h
  rw [keysetContains_eq hHolds, Option.isSome_iff_exists]
  constructor
  · rintro ⟨i, hi⟩
    obtain ⟨row, hRow, hKey⟩ := (hMap key i).mp hi
    exact ⟨row, List.mem_of_getElem? hRow, hKey⟩
  · rintro ⟨row, hRow, hKey⟩
    obtain ⟨i, hi⟩ := List.mem_iff_getElem?.mp hRow
    exact ⟨i, (hMap key i).mpr ⟨row, hi, hKey⟩⟩

theorem nodeRowKey_append {i : Nat} (hi : i < rows.length) (more : List (Row Node)) :
    nodeRowKey (rows ++ more) i = nodeRowKey rows i := by
  rw [nodeRowKey, nodeRowKey, List.getD_eq_getElem?_getD, List.getD_eq_getElem?_getD,
    List.getElem?_append_left hi]

theorem KeysHold.congr_append (h : KeysHold rows keys) (row : Row Node) :
    ∃ map, keys.Holds (nodeRowKey (rows ++ [row])) map ∧
      ∀ key i, map key = some i ↔ ∃ row, rows[i]? = some row ∧ row.1 = key.parent ∧
        row.2.key = some key.bytes := by
  obtain ⟨map, hHolds, hMap⟩ := h
  refine ⟨map, hHolds.congr fun key i hi => ?_, hMap⟩
  obtain ⟨row', hRow, -⟩ := (hMap key i).mp hi
  exact nodeRowKey_append (List.getElem?_eq_some_iff.mp hRow).1 _

/-- A row without a key leaves the key set as it is. -/
theorem KeysHold.concat_plain (h : KeysHold rows keys) {row : Row Node} (hRow : row.2.key = none) :
    KeysHold (rows ++ [row]) keys := by
  obtain ⟨map, hHolds, hMap⟩ := h.congr_append row
  refine ⟨map, hHolds, fun key i => (hMap key i).trans ?_⟩
  constructor
  · rintro ⟨row', hRow', hKey⟩
    exact ⟨row', by rwa [List.getElem?_append_left (List.getElem?_eq_some_iff.mp hRow').1], hKey⟩
  · rintro ⟨row', hRow', hParent, hKey⟩
    by_cases hi : i < rows.length
    · rw [List.getElem?_append_left hi] at hRow'
      exact ⟨row', hRow', hParent, hKey⟩
    · obtain ⟨hLt, -⟩ := List.getElem?_eq_some_iff.mp hRow'
      obtain rfl : i = rows.length := by
        rw [List.length_append, List.length_singleton] at hLt
        omega
      rw [List.getElem?_concat_length, Option.some.injEq] at hRow'
      rw [← hRow', hRow] at hKey
      cases hKey

/-- A row with a new key is inserted. -/
theorem KeysHold.concat_key (h : KeysHold rows keys) {parent : Option Nat} {node : Node}
    {name : Bytes} (hName : node.key = some name)
    (hNew : ¬∃ row ∈ rows, row.1 = parent ∧ row.2.key = some name)
    (hCount : keys.count ≤ sizeMax / 256) {heap : Heap} (hHeap : heap.Generous) :
    ∃ keys' heap', keysetInsert (nodeRowKey (rows ++ [(parent, node)])) keys heap rows.length =
        ⟨.ok, none, keys', heap'⟩ ∧
      KeysHold (rows ++ [(parent, node)]) keys' ∧ heap'.Generous := by
  obtain ⟨map, hHolds, hMap⟩ := h.congr_append (parent, node)
  have hKey : nodeRowKey (rows ++ [(parent, node)]) rows.length = ⟨parent, name⟩ := by
    rw [nodeRowKey, List.getD_eq_getElem?_getD, List.getElem?_concat_length]
    simp only [Option.getD_some, hName]
  have hNone : map (nodeRowKey (rows ++ [(parent, node)]) rows.length) = none := by
    rw [hKey]
    by_contra hSome
    obtain ⟨i, hi⟩ := Option.ne_none_iff_exists'.mp hSome
    obtain ⟨row, hRow, hParent, hBytes⟩ := (hMap _ i).mp hi
    exact hNew ⟨row, List.mem_of_getElem? hRow, hParent, hBytes⟩
  obtain ⟨keys', heap', hInsert, hHolds', -, hHeap'⟩ := keysetInsert_new hHolds hNone hCount hHeap
  refine ⟨keys', heap', hInsert, ⟨_, hHolds', fun key i => ?_⟩, hHeap'⟩
  rw [hKey, Function.update_apply]
  by_cases hSame : key = ⟨parent, name⟩
  · rw [if_pos hSame, hSame, Option.some.injEq]
    constructor
    · rintro rfl
      exact ⟨_, List.getElem?_concat_length, rfl, hName⟩
    · rintro ⟨row, hRow, hParent, hBytes⟩
      by_contra hNe
      obtain ⟨hLt, -⟩ := List.getElem?_eq_some_iff.mp hRow
      have hi : i < rows.length := by
        rw [List.length_append, List.length_singleton] at hLt
        omega
      rw [List.getElem?_append_left hi] at hRow
      exact hNew ⟨row, List.mem_of_getElem? hRow, hParent, hBytes⟩
  · rw [if_neg hSame, hMap]
    constructor
    · rintro ⟨row, hRow, hRest⟩
      exact ⟨row, by rwa [List.getElem?_append_left (List.getElem?_eq_some_iff.mp hRow).1], hRest⟩
    · rintro ⟨row, hRow, hParent, hBytes⟩
      by_cases hi : i < rows.length
      · rw [List.getElem?_append_left hi] at hRow
        exact ⟨row, hRow, hParent, hBytes⟩
      · obtain ⟨hLt, -⟩ := List.getElem?_eq_some_iff.mp hRow
        obtain rfl : i = rows.length := by
          rw [List.length_append, List.length_singleton] at hLt
          omega
        rw [List.getElem?_concat_length, Option.some.injEq] at hRow
        subst hRow
        apply absurd _ hSame
        rw [hName, Option.some.injEq] at hBytes
        cases key
        simp only at hParent hBytes
        rw [hParent, hBytes]

end

theorem row_linksAppend (nodes : List Node) (container index : Nat) :
    (linksAppend Node.links Node.updateLinks nodes container index).map Node.row =
      nodes.map Node.row := by
  refine List.ext_getElem? fun i => ?_
  rw [List.getElem?_map, List.getElem?_map, linksAppend_getElem?, Option.map_map]
  congr 1
  funext node
  simp only [Function.comp_apply]
  split_ifs <;> rfl

/-! ### Attaching a node -/

section

variable {w : Writer} {rows : List (Row Node)}

theorem growNodesOrFail_ok (hHeap : w.heap.Generous)
    (hRoom : w.nodes.length < w.limits.maximumTokens) :
    ∃ nodeCapacity heap, growNodesOrFail w = .ok () { w with nodeCapacity, heap } ∧
      heap.Generous := by
  have hLimit : ¬w.nodes.length ≥ w.limits.maximumTokens := not_le.mpr hRoom
  by_cases hCapacity : w.nodes.length < w.nodeCapacity
  · have hRun : growNodes w = .ok () w :=
      (congrFun (if_neg hLimit) w).trans (congrFun (if_pos hCapacity) w)
    refine ⟨w.nodeCapacity, w.heap, ?_, hHeap⟩
    rw [growNodesOrFail, hRun]
  · let doubled := if w.nodeCapacity ≠ 0 then w.nodeCapacity * 2 else writerInitialNodes
    let nodeCapacity := if doubled > w.limits.maximumTokens then w.limits.maximumTokens else doubled
    have hRun : growNodes w =
        (writerRequest (nodeCapacity * sizeOfNode) >>= fun granted =>
          if !granted then throw Result.errMemory >>= fun (_ : Unit) =>
            modify ({ · with nodeCapacity })
          else modify ({ · with nodeCapacity })) w :=
      (congrFun (if_neg hLimit) w).trans (congrFun (if_neg hCapacity) w)
    have hGranted : w.heap.grant w.heap.requests.length = true := hHeap _
    refine ⟨nodeCapacity, w.heap.after [nodeCapacity * sizeOfNode], ?_, hHeap.after _⟩
    rw [growNodesOrFail, hRun, bind_of_ok (writerRequest_eq _ w)]
    have hSame : Allocating.heap w = w.heap := rfl
    rw [hSame, hGranted]
    rfl

/-- The key of the node that has just been appended, if it needs one. -/
theorem attachKey_ok {parent : Option Nat} {name : Bytes} {type : ValueType} {nodes : List Node}
    (hNodes : w.nodes = nodes ++ [.init type parent]) (hPending : w.pendingKey = some name)
    (hTable : nodes.map Node.row = rows) (hKeys : KeysHold rows w.keys)
    (hNew : ¬∃ row ∈ rows, row.1 = parent ∧ row.2.key = some name)
    (hCount : w.keys.count ≤ sizeMax / 256) (hHeap : w.heap.Generous) :
    ∃ keys heap, attachKey nodes.length w =
        .ok () { w with
          nodes := nodes ++ [{ Node.init type parent with key := some name }], keys,
          pendingKey := none, heap } ∧
      KeysHold (rows ++ [(parent, bareNode type (some name))]) keys ∧ heap.Generous := by
  have hModify : w.nodes.modify nodes.length (fun node => { node with key := w.pendingKey }) =
      nodes ++ [{ Node.init type parent with key := some name }] := by
    rw [hNodes, hPending, modify_length_concat]
  have hLength : rows.length = nodes.length := by rw [← hTable, List.length_map]
  obtain ⟨keys, heap, hInsert, hHold, hHeap'⟩ :=
    @KeysHold.concat_key rows w.keys hKeys parent (bareNode type (some name)) name rfl hNew
      hCount _ hHeap
  have hKey : nodeKey (nodes ++ [{ Node.init type parent with key := some name }]) =
      nodeRowKey (rows ++ [(parent, bareNode type (some name))]) := by
    rw [nodeKey_eq, List.map_append, hTable]
    rfl
  refine ⟨keys, heap, ?_, hHold, hHeap'⟩
  rw [hLength] at hInsert
  have hRun (changed : List Node) (inserted : Inserted)
      (hChanged : w.nodes.modify nodes.length (fun node => { node with key := w.pendingKey }) =
        changed)
      (hInserted : keysetInsert (nodeKey changed) w.keys w.heap nodes.length = inserted) :
      attachKey nodes.length w =
        let t : Writer :=
          { w with
            nodes := changed, pendingKey := none, keys := inserted.set, heap := inserted.heap }
        if inserted.result = .ok then .ok () t else writerFail inserted.result t := by
    subst hChanged hInserted
    rfl
  rw [← hKey] at hInsert
  exact (hRun _ _ hModify hInsert).trans (if_pos rfl)

/-- What `attachNode` does where a value can go. -/
theorem attachNode_eq (type : ValueType)
    (hRoot : ¬(w.currentContainer.isNone = true ∧ w.nodes.length ≠ 0))
    (hKey : ¬((w.needsKey = true ∧ w.pendingKey.isNone = true) ∨
      (¬w.needsKey = true ∧ w.pendingKey.isSome = true))) :
    attachNode type w =
      (growNodesOrFail >>= fun _ =>
        modify (fun t : Writer =>
          { t with nodes := t.nodes ++ [.init type w.stack.head?] }) >>= fun _ =>
        (if w.needsKey = true then attachKey w.nodes.length else pure ()) >>= fun _ =>
        match w.stack.head? with
        | none => pure w.nodes.length
        | some container =>
            modify (fun t : Writer =>
              { t with
                nodes := linksAppend Node.links Node.updateLinks t.nodes container
                  w.nodes.length }) >>= fun _ =>
            pure w.nodes.length) w := by
  rw [attachNode, get_bind]
  refine (congrFun (if_neg hRoot) w).trans ?_
  refine (congrFun (if_neg hKey) w).trans ?_
  generalize w.needsKey = needs
  cases needs with
  | true => rfl
  | false => rfl

/-- A new node, below the innermost container and under the pending key. -/
theorem attachNode_ok (type : ValueType) (hReady : w.Ready) (h : w.Tables rows)
    (hHeap : w.heap.Generous) (hRoot : ¬(w.currentContainer.isNone = true ∧ w.nodes.length ≠ 0))
    (hKey : w.needsKey = w.pendingKey.isSome) (hRoom : w.nodes.length < w.limits.maximumTokens)
    (hStack : ∀ p, w.stack.head? = some p → p < w.nodes.length)
    (hNew : ∀ name, w.pendingKey = some name → ¬∃ row ∈ rows, row.1 = w.stack.head? ∧
      row.2.key = some name) :
    ∃ nodes nodeCapacity keys heap,
      let t : Writer := { w with nodes, nodeCapacity, keys, pendingKey := none, heap }
      attachNode type w = .ok w.nodes.length t ∧
        t.Tables (rows ++ [(w.stack.head?, bareNode type w.pendingKey)]) ∧ heap.Generous := by
  let item : Node := { Node.init type w.stack.head? with key := w.pendingKey }
  have hCount : w.keys.count ≤ sizeMax / 256 :=
    h.sized.count.trans (h.sized.nodes.trans h.sized.tokens)
  obtain ⟨nodeCapacity, heap, hGrow, hHeap'⟩ := growNodesOrFail_ok hHeap hRoom
  -- the node with its key, before its container takes it
  have hKeyed : ∃ keys heap', (if w.needsKey = true then attachKey w.nodes.length else pure ())
        { w with nodes := w.nodes ++ [.init type w.stack.head?], nodeCapacity, heap } =
        .ok () { w with
          nodes := w.nodes ++ [item], nodeCapacity, keys, pendingKey := none, heap := heap' } ∧
      KeysHold (rows ++ [(w.stack.head?, bareNode type w.pendingKey)]) keys ∧ heap'.Generous := by
    cases hPending : w.pendingKey with
    | none =>
        rw [hPending] at hKey
        have hItem : item = Node.init type w.stack.head? := by
          simp only [item, hPending]
          rfl
        rw [if_neg (by rw [hKey]; nofun), hItem]
        exact ⟨w.keys, heap, rfl, h.keys.concat_plain rfl, hHeap'⟩
    | some name =>
        rw [hPending] at hKey
        have hItem : item = { Node.init type w.stack.head? with key := some name } := by
          simp only [item, hPending]
        rw [if_pos (show w.needsKey = true from hKey), hItem]
        exact attachKey_ok
          (w := { w with
            nodes := w.nodes ++ [.init type w.stack.head?], nodeCapacity, pendingKey := some name,
            heap })
          rfl rfl h.table h.keys (hNew name hPending) hCount hHeap'
  obtain ⟨keys, heap', hKeys, hHold, hHeap''⟩ := hKeyed
  have hMismatch : ¬((w.needsKey = true ∧ w.pendingKey.isNone = true) ∨
      (¬w.needsKey = true ∧ w.pendingKey.isSome = true)) := by
    rw [hKey]
    cases w.pendingKey <;> simp
  have hRun := attachNode_eq type hRoot hMismatch
  rw [bind_of_ok hGrow, modify_bind, bind_of_ok hKeys] at hRun
  have hLinks : item.links = .init w.stack.head? := rfl
  have hTable : (w.nodes ++ [item]).map Node.row =
      rows ++ [(w.stack.head?, bareNode type w.pendingKey)] := by
    rw [List.map_append, h.table]
    rfl
  have hSteady := attachNode_heeds type ⟨hReady, h.sized⟩
  have hSized {t : Writer} (hOk : attachNode type w = .ok w.nodes.length t) : t.Sized := by
    obtain ⟨sizes, hSteady⟩ := hSteady
    rw [hOk] at hSteady
    exact hSteady.1.sized
  cases hTop : w.stack.head? with
  | none =>
      rw [hTop] at hRun hLinks hTable hHold
      exact ⟨_, nodeCapacity, keys, heap', hRun,
        ⟨hTable, h.linked.concat_root hLinks, hHold, hSized hRun⟩, hHeap''⟩
  | some container =>
      rw [hTop] at hRun hLinks hTable hHold
      have hUpdate (f : Links → Links) (node : Node) : (node.updateLinks f).links = f node.links :=
        rfl
      have hLinked := h.linked.append hUpdate (hStack _ hTop) hLinks
      exact ⟨_, nodeCapacity, keys, heap', hRun,
        ⟨(row_linksAppend _ _ _).trans hTable, hLinked, hHold, hSized hRun⟩, hHeap''⟩

/-- Only parents and keys matter to the key set. -/
theorem KeysHold.congr {rows' : List (Row Node)} {keys : Keyset} (h : KeysHold rows keys)
    (hRows : rows'.map (fun row => (row.1, row.2.key)) = rows.map fun row => (row.1, row.2.key)) :
    KeysHold rows' keys := by
  obtain ⟨map, hHolds, hMap⟩ := h
  have hGet (i : Nat) : (rows'[i]?).map (fun row => (row.1, row.2.key)) =
      (rows[i]?).map fun row => (row.1, row.2.key) := by
    rw [← List.getElem?_map, ← List.getElem?_map, hRows]
  have hKey : nodeRowKey rows' = nodeRowKey rows := by
    funext i
    have hi := hGet i
    rw [nodeRowKey, nodeRowKey, List.getD_eq_getElem?_getD, List.getD_eq_getElem?_getD]
    cases hRow' : rows'[i]? with
    | none =>
        rw [hRow', Option.map_none, eq_comm, Option.map_eq_none_iff] at hi
        rw [hi]
    | some row' =>
        rw [hRow', Option.map_some, eq_comm, Option.map_eq_some_iff] at hi
        obtain ⟨row, hRow, hSame⟩ := hi
        rw [Prod.mk.injEq] at hSame
        rw [hRow]
        simp only [Option.getD_some, hSame]
  refine ⟨map, hKey ▸ hHolds, fun key i => (hMap key i).trans ?_⟩
  have hExists (rows : List (Row Node)) : (∃ row, rows[i]? = some row ∧ row.1 = key.parent ∧
      row.2.key = some key.bytes) ↔
      (rows[i]?).map (fun row => (row.1, row.2.key)) = some (key.parent, some key.bytes) := by
    rw [Option.map_eq_some_iff]
    simp only [Prod.mk.injEq]
  rw [hExists, hExists, hGet]

/-- The last node learns its value. -/
theorem Writer.Tables.modify {parent : Option Nat} {node : Node}
    (h : w.Tables (rows ++ [(parent, node)])) {update : Node → Node}
    (hUpdate : ∀ n, (update n).row = (n.row.1, update n.row.2))
    (hLinks : ∀ n, (update n).links = n.links) (hKey : (update node).key = node.key) :
    (w.updateNode rows.length update).Tables (rows ++ [(parent, update node)]) := by
  have hRow : (w.nodes.modify rows.length update).map Node.row =
      (w.nodes.map Node.row).modify rows.length fun row => (row.1, update row.2) := by
    refine List.ext_getElem? fun i => ?_
    simp only [List.getElem?_map, List.getElem?_modify]
    by_cases hi : rows.length = i
    · simp only [hi, if_true, Option.map_eq_map, Option.map_map, Function.comp_def, hUpdate]
    · simp only [hi, if_false, id_map']
  refine ⟨?_, h.linked.modify hLinks, h.keys.congr ?_, ?_, ?_, ?_, ?_⟩
  · rw [Writer.updateNode, hRow, h.table, modify_length_concat]
  · simp only [List.map_append, List.map_singleton, hKey]
  · rw [Writer.updateNode, List.length_modify]
    exact h.sized.nodes
  · exact h.sized.tokens
  · rw [Writer.updateNode, List.length_modify]
    exact h.sized.count
  · exact h.sized.capacity

end

/-! ### Building a draft -/

/-- A ready writer with memory, whose tables are those of a draft. -/
structure Writer.Builds (w : Writer) (d : Draft) : Prop where
  ready : w.Ready
  generous : w.heap.Generous
  tables : w.Tables d.rows
  stack : w.stack = d.stack
  pending : w.pendingKey = d.pending
  fresh : d.Fresh

/-- What no call changes. -/
def Writer.setup (w : Writer) : Profile × Limits × UInt32 := (w.profile, w.limits, w.flags)

/-- The operation does to the writer what happens to its draft, or fails with it. -/
def Performs (x : WriterM Unit) (w : Writer) (next : Option Draft) : Prop :=
  match next with
  | some d => ∃ t, x w = .ok () t ∧ t.Builds d ∧ t.setup = w.setup
  | none => ∃ r t, x w = .error r t

/-- The operation does to the writer what happens to its draft, or fails for the same reason. -/
def Yields (x : WriterM Unit) (w : Writer) (outcome : Except Result Draft) : Prop :=
  match outcome with
  | .ok d => ∃ t, x w = .ok () t ∧ t.Builds d ∧ t.setup = w.setup
  | .error r => ∃ t, x w = .error r t

section

variable {w : Writer} {d : Draft} {holes : List Hole}

theorem Yields.congr {x y : WriterM Unit} {outcome : Except Result Draft} (h : Yields x w outcome)
    (hSame : y w = x w) : Yields y w outcome := by
  unfold Yields at h ⊢
  rw [hSame]
  exact h

theorem Yields.seq {x y : WriterM Unit} {outcome : Except Result Draft}
    {next : Draft → Except Result Draft} (hx : Yields x w outcome)
    (hy : ∀ t d, t.Builds d → t.setup = w.setup → Yields y t (next d)) :
    Yields (x >>= fun _ => y) w (outcome.bind next) := by
  cases outcome with
  | error r =>
      obtain ⟨t, hRun⟩ := hx
      exact ⟨t, bind_of_error hRun⟩
  | ok d =>
      obtain ⟨t, hRun, hBuilds, hSetup⟩ := hx
      have hNext := hy t d hBuilds hSetup
      have hSame : (x >>= fun _ => y) w = y t := bind_of_ok hRun
      rw [Except.bind]
      unfold Yields at hNext ⊢
      rw [hSame, ← hSetup]
      exact hNext

/-- An attempt at an event tells what is performed of it. -/
theorem Yields.performs {x : WriterM Unit} {e : Event}
    (h : Yields x w (d.attempt w.profile w.limits e)) :
    Performs x w (d.permit w.profile w.limits e) := by
  cases hAttempt : d.attempt w.profile w.limits e with
  | ok next =>
      rw [hAttempt] at h
      rw [Draft.attempt_eq_ok.mp hAttempt]
      exact h
  | error r =>
      have hNone : d.permit w.profile w.limits e = none := by
        by_contra hSome
        obtain ⟨next, hNext⟩ := Option.ne_none_iff_exists'.mp hSome
        rw [Draft.attempt_eq_ok.mpr hNext] at hAttempt
        cases hAttempt
      rw [hAttempt] at h
      rw [hNone]
      exact ⟨r, h⟩

theorem Writer.Builds.length (h : w.Builds d) : w.nodes.length = d.size := by
  rw [← Draft.length_rows, ← h.tables.table, List.length_map]

theorem Writer.Builds.depth (h : w.Builds d) : w.depth = d.depth := by
  rw [Writer.depth, h.stack, Draft.length_stack]

/-- The innermost container is that of the draft. -/
theorem Writer.Builds.container {focus : Focus} (h : w.Builds (.growing focus holes)) :
    ∃ node, w.currentContainer = some node ∧ node.type = focus.type := by
  have hRow := Draft.row_top focus holes
  rw [← h.tables.table, List.getElem?_map, Option.map_eq_some_iff] at hRow
  obtain ⟨node, hNode, hSame⟩ := hRow
  refine ⟨node, ?_, ?_⟩
  · rw [Writer.currentContainer, h.stack, Draft.stack_enter, List.head?_cons, Option.map_some,
      Writer.node, List.getD_eq_getElem?_getD, hNode]
    rfl
  · have hType := congrArg (fun row : Row Node => row.2.type) hSame
    exact hType

theorem Writer.Builds.needsKey {focus : Focus} (h : w.Builds (.growing focus holes)) :
    w.needsKey = (focus.type == .object) := by
  obtain ⟨node, hContainer, hType⟩ := h.container
  rw [Writer.needsKey, hContainer]
  simp only [hType]

/-- Where a value can go, the writer has a root to make, or a key for an object, or none for an
array. -/
theorem Writer.Builds.room (h : w.Builds d) :
    (¬(w.currentContainer.isNone = true ∧ w.nodes.length ≠ 0) ∧ w.needsKey = w.pendingKey.isSome) ↔
      d.room.isSome = true := by
  cases d with
  | empty =>
      have hContainer : w.currentContainer = none := by
        rw [Writer.currentContainer, h.stack]
        rfl
      have hNeeds : w.needsKey = false := by rw [Writer.needsKey, hContainer]
      rw [hNeeds, h.pending, h.length]
      exact ⟨fun _ => rfl, fun _ => ⟨fun hNot => hNot.2 rfl, rfl⟩⟩
  | growing focus holes =>
      obtain ⟨node, hContainer, -⟩ := h.container
      rw [h.needsKey, h.pending, hContainer]
      rcases focus with ⟨members, _ | key⟩ | elements
      · exact ⟨fun hBoth => absurd (show true = false from hBoth.2) (by simp),
          fun hNot => by cases hNot⟩
      · exact ⟨fun _ => rfl, fun _ => ⟨(by simp), rfl⟩⟩
      · exact ⟨fun _ => rfl, fun _ => ⟨(by simp), rfl⟩⟩
  | complete root =>
      have hContainer : w.currentContainer = none := by
        rw [Writer.currentContainer, h.stack]
        rfl
      have hNodes : w.nodes.length ≠ 0 := by
        rw [h.length, Draft.size, ← Tree.size_rose root none]
        exact (Rose.size_pos _).ne'
      rw [hContainer]
      exact ⟨fun hBoth => absurd ⟨rfl, hNodes⟩ hBoth.1, fun hNot => by cases hNot⟩

/-- A new node in the place of a draft. -/
theorem Writer.Builds.attach (h : w.Builds d) (hRoom : d.room = some holes) (type : ValueType)
    (hSize : d.size < w.limits.maximumTokens) :
    ∃ nodes nodeCapacity keys heap,
      let t : Writer := { w with nodes, nodeCapacity, keys, pendingKey := none, heap }
      attachNode type w = .ok (Spine.rows (holesSpine holes)).length t ∧
        t.Tables (Spine.rows (holesSpine holes) ++
          [((Spine.stack (holesSpine holes)).head?, bareNode type (holesKey holes))]) ∧
        heap.Generous := by
  obtain ⟨hRoot, hKey⟩ := h.room.mpr (by rw [hRoom]; rfl)
  obtain ⟨hRows, hStack, hPending⟩ := Draft.tables_room hRoom
  have hLength : w.nodes.length = (Spine.rows (holesSpine holes)).length := by
    rw [h.length, ← hRows, Draft.length_rows]
  have hNew : ∀ name, w.pendingKey = some name → ¬∃ row ∈ d.rows, row.1 = w.stack.head? ∧
      row.2.key = some name := by
    intro name hName
    rw [h.pending] at hName
    rw [h.stack]
    rcases d with _ | ⟨⟨members, pending⟩ | elements, holes⟩ | root
    · cases hName
    · have hName : pending = some name := hName
      subst hName
      rw [Draft.mem_rows_key]
      exact h.fresh
    · cases hName
    · cases hName
  obtain ⟨nodes, nodeCapacity, keys, heap, hRun, hTables, hHeap⟩ :=
    attachNode_ok type h.ready h.tables h.generous hRoot hKey (by rw [h.length]; exact hSize)
      (fun p hp => by rw [hLength]; rw [h.stack, hStack] at hp; exact Spine.top_lt hp) hNew
  refine ⟨nodes, nodeCapacity, keys, heap, ?_, ?_, hHeap⟩
  · rw [hRun, hLength]
  · have hParent : w.stack.head? = (Spine.stack (holesSpine holes)).head? := by rw [h.stack, hStack]
    rw [hParent, h.pending, hRows, hPending] at hTables
    exact hTables

/-- Without a place nothing is attached, and without a token left. -/
theorem Writer.Builds.attach_fails (h : w.Builds d) (type : ValueType)
    (hNot : ¬(d.room.isSome = true ∧ d.size < w.limits.maximumTokens)) :
    ∃ t, attachNode type w = .error (if d.room.isSome = true then .errLimit else .errState) t := by
  by_cases hRoom : d.room.isSome = true
  · rw [if_pos hRoom]
    obtain ⟨hRoot, hKey⟩ := h.room.mpr hRoom
    have hMismatch : ¬((w.needsKey = true ∧ w.pendingKey.isNone = true) ∨
        (¬w.needsKey = true ∧ w.pendingKey.isSome = true)) := by
      rw [hKey]
      cases w.pendingKey <;> simp
    have hFull : w.nodes.length ≥ w.limits.maximumTokens := by
      rw [h.length]
      exact not_lt.mp fun hSize => hNot ⟨hRoom, hSize⟩
    have hGrow : growNodesOrFail w = .error .errLimit (w.fail .errLimit) := by
      have hRun : growNodes w = .error .errLimit w := congrFun (if_pos hFull) w
      rw [growNodesOrFail, hRun]
      rfl
    exact ⟨_, (attachNode_eq type hRoot hMismatch).trans (bind_of_error hGrow)⟩
  · rw [if_neg hRoom]
    by_cases hRoot : w.currentContainer.isNone = true ∧ w.nodes.length ≠ 0
    · exact ⟨_, congrFun (if_pos hRoot) w⟩
    by_cases hKey : (w.needsKey = true ∧ w.pendingKey.isNone = true) ∨
        (¬w.needsKey = true ∧ w.pendingKey.isSome = true)
    · exact ⟨_, (congrFun (if_neg hRoot) w).trans (congrFun (if_pos hKey) w)⟩
    have hSame : w.needsKey = w.pendingKey.isSome := by
      cases hNeeds : w.needsKey <;> cases hPending : w.pendingKey <;> simp_all
    exact absurd (h.room.mp ⟨hRoot, hSame⟩) hRoom

/-- What comes of a value that cannot be attached, in a draft that would be `next`. -/
theorem Writer.Builds.placed_fails (h : w.Builds d) (type : ValueType) {next : Option Draft}
    (hNext : next = none ↔ d.room = none)
    (hNot : ¬(d.room.isSome = true ∧ d.size < w.limits.maximumTokens)) :
    ∃ r t, attachNode type w = .error r t ∧ d.placed w.limits next = .error r := by
  obtain ⟨t, hFails⟩ := h.attach_fails type hNot
  refine ⟨_, t, hFails, ?_⟩
  cases next with
  | none =>
      rw [hNext.mp rfl]
      rfl
  | some next =>
      have hRoom : d.room.isSome = true :=
        Option.isSome_iff_ne_none.mpr fun hNone => nomatch hNext.mpr hNone
      rw [if_pos hRoom, Draft.placed, if_neg fun hSize => hNot ⟨hRoom, hSize⟩]

end

end MaelysJson
