import MaelysJson.Writing.Building

/-! The operations of the writer, each with the event that it is for. -/
namespace MaelysJson

open Run Heap Forest

section

variable {w : Writer} {d : Draft} {holes : List Hole}

/-! ### Containers -/

theorem containerBegin_run (type : ValueType) (h : w.Ready) :
    containerBegin type w =
      if w.depth ≥ w.limits.maximumDepth then .error .errLimit (w.fail .errLimit)
      else (attachNode type >>= fun index => modify fun t : Writer =>
        { t with stack := index :: t.stack }) w := by
  rw [containerBegin, bind_of_ok (writerReady_of_ready h), get_bind]
  by_cases hDepth : w.depth ≥ w.limits.maximumDepth
  · refine (congrFun (if_pos hDepth) w).trans ?_
    exact (if_pos hDepth).symm
  · refine (congrFun (if_neg hDepth) w).trans ?_
    exact (if_neg hDepth).symm

theorem containerBegin_yields (h : w.Builds d) (focus : Focus) (hKids : focus.kids = [])
    (hPending : focus.pending = none) (hFresh : ∀ holes, (Draft.growing focus holes).Fresh) :
    Yields (containerBegin focus.type) w
      (if d.depth < w.limits.maximumDepth then d.placed w.limits (d.enter focus) else
        .error .errLimit) := by
  have hRun := containerBegin_run focus.type h.ready
  rw [h.depth] at hRun
  by_cases hDepth : d.depth < w.limits.maximumDepth
  · rw [if_neg (not_le.mpr hDepth)] at hRun
    rw [if_pos hDepth]
    by_cases hAttach : d.room.isSome = true ∧ d.size < w.limits.maximumTokens
    · obtain ⟨holes, hRoom⟩ := Option.isSome_iff_exists.mp hAttach.1
      obtain ⟨nodes, nodeCapacity, keys, heap, hNode, hTables, hHeap⟩ :=
        h.attach hRoom focus.type hAttach.2
      rw [Draft.enter_room hRoom, Draft.placed, if_pos hAttach.2]
      refine ⟨_, hRun.trans (bind_of_ok hNode),
        ⟨h.ready, hHeap, ?_, ?_, hPending.symm, hFresh holes⟩, rfl⟩
      · rw [Draft.rows_enter hKids]
        exact ⟨hTables.table, hTables.linked, hTables.keys, hTables.sized.nodes,
          hTables.sized.tokens, hTables.sized.count, hTables.sized.capacity⟩
      · rw [Draft.stack_enter]
        have hStack := (Draft.tables_room hRoom).2.1
        simp only [h.stack, hStack]
    · obtain ⟨r, t, hFails, hPlaced⟩ := h.placed_fails focus.type Option.map_eq_none_iff hAttach
      rw [Draft.enter, hPlaced]
      exact ⟨t, hRun.trans (bind_of_error hFails)⟩
  · rw [if_pos (not_lt.mp hDepth)] at hRun
    rw [if_neg hDepth]
    exact ⟨_, hRun⟩

theorem containerEnd_close {focus : Focus} (h : w.Builds (.growing focus holes))
    (hPending : focus.pending = none) (t : Tree Numeral)
    (hRose : ∀ key, t.rose key = .node (bareNode focus.type key) focus.kids) :
    Yields (containerEnd focus.type) w (.ok (.close t holes)) := by
  have hRun := containerEnd_run focus.type h.ready
  obtain ⟨node, hContainer, hType⟩ := h.container
  have hMatch : ¬(node.type ≠ focus.type ∨ w.pendingKey.isSome = true) := by
    rw [h.pending, Draft.pending, hPending, hType]
    rintro (hNe | hSome)
    · exact hNe rfl
    · cases hSome
  rw [hContainer] at hRun
  refine ⟨_, hRun.trans (if_neg hMatch),
    ⟨h.ready, h.generous, ?_, ?_, ?_, Draft.fresh_close _ _⟩, rfl⟩
  · rw [Draft.rows_leave focus t hRose]
    exact ⟨h.tables.table, h.tables.linked, h.tables.keys, h.tables.sized.nodes,
      h.tables.sized.tokens, h.tables.sized.count, h.tables.sized.capacity⟩
  · rw [Draft.stack_close]
    simp only [h.stack, Draft.stack_enter, List.tail_cons]
  · rw [Draft.pending_close]
    exact h.pending.trans hPending

/-- Without a container of the type, or with a key that waits for its value, nothing is closed. -/
theorem containerEnd_fails (h : w.Builds d) (type : ValueType)
    (hNot : ∀ focus holes, d = .growing focus holes → focus.type ≠ type ∨ focus.pending ≠ none) :
    Yields (containerEnd type) w (.error .errState) := by
  have hRun := containerEnd_run type h.ready
  have hNone (hStack : d.stack = []) : w.currentContainer = none := by
    rw [Writer.currentContainer, h.stack, hStack]
    rfl
  cases d with
  | empty =>
      rw [hNone rfl] at hRun
      exact ⟨_, hRun⟩
  | complete root =>
      rw [hNone rfl] at hRun
      exact ⟨_, hRun⟩
  | growing focus holes =>
      obtain ⟨node, hContainer, hType⟩ := h.container
      have hMismatch : node.type ≠ type ∨ w.pendingKey.isSome = true := by
        rw [hType, h.pending, Option.isSome_iff_ne_none]
        exact hNot focus holes rfl
      rw [hContainer] at hRun
      exact ⟨_, hRun.trans (if_pos hMismatch)⟩

/-! ### Values -/

/-- A change of a node that concerns its value only. -/
structure Node.Valued (update : Node → Node) : Prop where
  row : ∀ n, (update n).row = (n.row.1, update n.row.2)
  links : ∀ n, (update n).links = n.links
  key : ∀ n, (update n).key = n.key

theorem attachValue_yields (h : w.Builds d) {type : ValueType} {update : Node → Node}
    (hUpdate : Node.Valued update) {t : Tree Numeral}
    (hRose : ∀ key, t.rose key = .node (update (bareNode type key)) []) :
    Yields (attachNode type >>= fun index => modify (·.updateNode index update)) w
      (d.placed w.limits (d.add t)) := by
  by_cases hAttach : d.room.isSome = true ∧ d.size < w.limits.maximumTokens
  · obtain ⟨holes, hRoom⟩ := Option.isSome_iff_exists.mp hAttach.1
    obtain ⟨nodes, nodeCapacity, keys, heap, hNode, hTables, hHeap⟩ := h.attach hRoom type hAttach.2
    rw [Draft.add_room hRoom, Draft.placed, if_pos hAttach.2]
    refine ⟨_, bind_of_ok hNode, ⟨h.ready, hHeap, ?_, ?_, ?_, Draft.fresh_close _ _⟩, rfl⟩
    · rw [Draft.rows_close, hRose, Rose.rows, Rose.rowsAll]
      exact hTables.modify hUpdate.row hUpdate.links (hUpdate.key _)
    · rw [Draft.stack_close]
      exact h.stack.trans (Draft.tables_room hRoom).2.1
    · rw [Draft.pending_close]
      rfl
  · obtain ⟨r, u, hFails, hPlaced⟩ := h.placed_fails type Option.map_eq_none_iff hAttach
    rw [Draft.add, hPlaced]
    exact ⟨u, bind_of_error hFails⟩

theorem attachScalar_yields (h : w.Builds d) {type : ValueType} {update : Node → Node}
    (hUpdate : Node.Valued update) {t : Tree Numeral}
    (hRose : ∀ key, t.rose key = .node (update (bareNode type key)) []) :
    Yields (attachScalar type update) w (d.placed w.limits (d.add t)) :=
  (attachValue_yields h hUpdate hRose).congr (bind_of_ok (writerReady_of_ready h.ready))

/-- The copy of a text is always granted here. -/
theorem copyBytes_ok (h : w.Builds d) (bytes : Bytes) :
    ∃ t, copyBytes bytes w = .ok (some bytes) t ∧ t.Builds d ∧ t = { w with heap := t.heap } := by
  refine ⟨spent w [bytes.length + 1], ?_,
    ⟨h.ready, h.generous.after _, ?_, h.stack, h.pending, h.fresh⟩, rfl⟩
  · have hGranted : w.heap.grant w.heap.requests.length = true := h.generous _
    have hRun : copyBytes bytes w =
        .ok (if w.heap.grant w.heap.requests.length = true then some bytes else none)
          (spent w [bytes.length + 1]) := rfl
    rw [hRun, if_pos hGranted]
  · exact ⟨h.tables.table, h.tables.linked, h.tables.keys, h.tables.sized.nodes,
      h.tables.sized.tokens, h.tables.sized.count, h.tables.sized.capacity⟩

/-- A text that is not too long is copied first. -/
theorem attachText_ready (h : w.Ready) (type : ValueType) (text : Bytes) :
    attachText type text w =
      if text.length > w.limits.maximumBytes then .error .errLimit (w.fail .errLimit)
      else (copyBytes text >>= fun copy => match copy with
        | none => writerFail .errMemory
        | some copy => attachNode type >>= fun index =>
            modify (·.updateNode index fun node => { node with string := some copy })) w := by
  rw [attachText, bind_of_ok (writerReady_of_ready h), get_bind]
  by_cases hLength : text.length > w.limits.maximumBytes
  · refine (congrFun (if_pos hLength) w).trans ?_
    exact (if_pos hLength).symm
  · refine (congrFun (if_neg hLength) w).trans ?_
    exact (if_neg hLength).symm

theorem attachText_yields (h : w.Builds d) {type : ValueType} {text : Bytes} {t : Tree Numeral}
    (hRose : ∀ key, t.rose key = .node { bareNode type key with string := some text } []) :
    Yields (attachText type text) w
      (if text.length > w.limits.maximumBytes then .error .errLimit else
        d.placed w.limits (d.add t)) := by
  have hRun := attachText_ready h.ready type text
  by_cases hLength : text.length > w.limits.maximumBytes
  · rw [if_pos hLength] at hRun ⊢
    exact ⟨_, hRun⟩
  · obtain ⟨copied, hCopy, hBuilds, hSame⟩ := copyBytes_ok h text
    have hUpdate : Node.Valued fun node => { node with string := some text } :=
      ⟨fun _ => rfl, fun _ => rfl, fun _ => rfl⟩
    have hYields := attachValue_yields hBuilds hUpdate hRose
    have hLimits : copied.limits = w.limits := by rw [hSame]
    have hSetup : copied.setup = w.setup := by rw [hSame]; rfl
    rw [if_neg hLength, bind_of_ok hCopy] at hRun
    rw [if_neg hLength]
    unfold Yields at hYields ⊢
    rw [hLimits, hSetup] at hYields
    simp only [hRun]
    exact hYields

/-! ### Events -/

theorem valued_id : Node.Valued id := ⟨fun _ => rfl, fun _ => rfl, fun _ => rfl⟩

section

variable (h : w.Builds d)
include h

theorem objectBegin_yields :
    Yields writerObjectBegin w (d.attempt w.profile w.limits .objectBegin) :=
  containerBegin_yields h (.object [] none) rfl rfl fun _ => trivial

theorem arrayBegin_yields : Yields writerArrayBegin w (d.attempt w.profile w.limits .arrayBegin) :=
  containerBegin_yields h (.array []) rfl rfl fun _ => trivial

theorem objectEnd_yields : Yields writerObjectEnd w (d.attempt w.profile w.limits .objectEnd) := by
  rcases d with _ | ⟨⟨members, _ | pending⟩ | elements, holes⟩ | root
  · exact containerEnd_fails h .object nofun
  · exact containerEnd_close h rfl (.object members) (Tree.rose_object members)
  · exact containerEnd_fails h .object fun focus holes hSame => by
      cases hSame
      exact Or.inr nofun
  · exact containerEnd_fails h .object fun focus holes hSame => by
      cases hSame
      exact Or.inl nofun
  · exact containerEnd_fails h .object nofun

theorem arrayEnd_yields : Yields writerArrayEnd w (d.attempt w.profile w.limits .arrayEnd) := by
  rcases d with _ | ⟨⟨members, pending⟩ | elements, holes⟩ | root
  · exact containerEnd_fails h .array nofun
  · exact containerEnd_fails h .array fun focus holes hSame => by
      cases hSame
      exact Or.inl nofun
  · exact containerEnd_close h rfl (.array elements) (Tree.rose_array elements)
  · exact containerEnd_fails h .array nofun

theorem boolean_yields (enabled : Int) :
    Yields (writerBoolean enabled) w (d.attempt w.profile w.limits (.boolean (enabled ≠ 0))) := by
  have hUpdate : Node.Valued fun node => { node with booleanValue := enabled ≠ 0 } :=
    ⟨fun _ => rfl, fun _ => rfl, fun _ => rfl⟩
  exact attachScalar_yields h hUpdate fun key => Tree.boolean_rose key _

theorem null_yields : Yields writerNull w (d.attempt w.profile w.limits .null) :=
  attachScalar_yields h valued_id fun key => Tree.null_rose key

theorem u64_yields (value : UInt64) :
    Yields (writerU64 value) w (d.attempt w.profile w.limits (.number (.unsigned value))) := by
  have hUpdate : Node.Valued fun node => { node with unsignedValue := value } :=
    ⟨fun _ => rfl, fun _ => rfl, fun _ => rfl⟩
  exact attachScalar_yields h hUpdate fun key => Tree.unsigned_rose key value

theorem i64_yields (value : Int64) :
    Yields (writerI64 value) w (d.attempt w.profile w.limits (.number (.signed value))) := by
  have hUpdate : Node.Valued fun node => { node with signedValue := value, numberSigned := true } :=
    ⟨fun _ => rfl, fun _ => rfl, fun _ => rfl⟩
  exact attachScalar_yields h hUpdate fun key => Tree.signed_rose key value

theorem string_yields (text : Bytes) :
    Yields (writerString (.buffer text)) w (d.attempt w.profile w.limits (.string text)) := by
  rw [Draft.attempt]
  by_cases hValid : validText w.profile (.buffer text) = true
  · have hRun : writerString (.buffer text) w = attachText .string text w := by
      have hValid : ¬(!validText w.profile (.buffer text)) = true := by
        rw [hValid]
        nofun
      exact congrFun (if_neg hValid) w
    rw [if_pos hValid]
    exact (attachText_yields h fun key => Tree.string_rose key text).congr hRun
  · have hRun : writerString (.buffer text) w = .error .errArgument w := by
      have hValid : (!validText w.profile (.buffer text)) = true := by
        rw [Bool.eq_false_of_not_eq_true hValid]
        rfl
      exact congrFun (if_pos hValid) w
    rw [if_neg hValid]
    exact ⟨_, hRun⟩

/-- A number given as text, by a caller who allows so many bytes. -/
theorem numberLexeme_yields (text : Bytes) (maximum : Nat) :
    Yields (writeNumberLexeme (.buffer text) maximum) w
      (if text.length > maximum then .error .errArgument
        else d.attempt w.profile w.limits (.number (.lexeme text))) := by
  rw [Draft.attempt]
  by_cases hArgument : text.length > maximum ∨ (!numberSyntax text) = true
  · have hRun : writeNumberLexeme (.buffer text) maximum w = .error .errArgument w :=
      congrFun (if_pos hArgument) w
    by_cases hLength : text.length > maximum
    · rw [if_pos hLength]
      exact ⟨_, hRun⟩
    · have hSyntax : ¬numberSyntax text = true := by
        rw [Bool.not_eq_true, ← Bool.not_eq_true']
        exact hArgument.resolve_left hLength
      rw [if_neg hLength, if_neg hSyntax]
      exact ⟨_, hRun⟩
  · have hRun : writeNumberLexeme (.buffer text) maximum w = attachText .number text w :=
      congrFun (if_neg hArgument) w
    rw [not_or, Bool.not_eq_true, Bool.not_eq_false'] at hArgument
    rw [if_neg hArgument.1, if_pos hArgument.2]
    exact (attachText_yields h fun key => Tree.lexeme_rose key text).congr hRun

/-- Whether the innermost object has the key already. -/
theorem contains_iff {members : List (Bytes × Tree Numeral)} {pending : Option Bytes}
    {holes : List Hole} (hDraft : d = .growing (.object members pending) holes) (name : Bytes) :
    keysetContains (nodeKey w.nodes) w.keys ⟨w.stack.head?, name⟩ = true ↔
      name ∈ members.map Prod.fst := by
  subst hDraft
  rw [nodeKey_eq, h.tables.table, h.tables.keys.contains, h.stack, ← Draft.mem_rows_key]

theorem key_yields (name : Bytes) :
    Yields (writerKey (.buffer name)) w (d.attempt w.profile w.limits (.key name)) := by
  have hReady := writerReady_of_ready h.ready
  -- without an object that waits for a key, the call is out of place
  have hMisplaced (hState : ¬w.needsKey = true ∨ w.pendingKey.isSome = true) :
      Yields (writerKey (.buffer name)) w
        (if validText w.profile (.buffer name) = true then .error .errState else
          .error .errArgument) := by
    by_cases hArgument : (!validText w.profile (.buffer name)) = true
    · rw [if_neg (by rwa [Bool.not_eq_true, ← Bool.not_eq_true'])]
      exact ⟨_, congrFun (if_pos hArgument) w⟩
    · rw [if_pos (by rwa [Bool.not_eq_true, Bool.not_eq_false'] at hArgument)]
      exact ⟨_, (congrFun (if_neg hArgument) w).trans
        ((bind_of_ok hReady).trans (congrFun (if_pos hState) w))⟩
  have hOutside (hStack : d.stack = []) : ¬w.needsKey = true := by
    rw [Writer.needsKey, Writer.currentContainer, h.stack, hStack]
    simp
  rcases d with _ | ⟨⟨members, _ | pending⟩ | elements, holes⟩ | root
  · exact hMisplaced (Or.inl (hOutside rfl))
  · rw [Draft.attempt_key]
    by_cases hArgument : (!validText w.profile (.buffer name)) = true
    · rw [if_neg (by rwa [Bool.not_eq_true, ← Bool.not_eq_true'])]
      exact ⟨_, congrFun (if_pos hArgument) w⟩
    rw [if_pos (by rwa [Bool.not_eq_true, Bool.not_eq_false'] at hArgument)]
    have hState : ¬(¬w.needsKey = true ∨ w.pendingKey.isSome = true) := by
      rw [h.needsKey, h.pending]
      rintro (hNeeds | hSome)
      · exact hNeeds rfl
      · cases hSome
    by_cases hLimit : name.length > w.limits.maximumBytes
    · rw [if_pos hLimit]
      exact ⟨_, (congrFun (if_neg hArgument) w).trans
        ((bind_of_ok hReady).trans
          ((congrFun (if_neg hState) w).trans (congrFun (if_pos hLimit) w)))⟩
    rw [if_neg hLimit]
    by_cases hKey : name ∈ members.map Prod.fst
    · rw [if_pos hKey]
      exact ⟨_, (congrFun (if_neg hArgument) w).trans
        ((bind_of_ok hReady).trans ((congrFun (if_neg hState) w).trans
        ((congrFun (if_neg hLimit) w).trans
          (congrFun (if_pos ((contains_iff h rfl name).mpr hKey)) w))))⟩
    · obtain ⟨copied, hCopy, hBuilds, hSame⟩ := copyBytes_ok h name
      have hRun : writerKey (.buffer name) w = .ok () { copied with pendingKey := some name } :=
        (congrFun (if_neg hArgument) w).trans
          ((bind_of_ok hReady).trans ((congrFun (if_neg hState) w).trans
          ((congrFun (if_neg hLimit) w).trans
            ((congrFun (if_neg (mt (contains_iff h rfl name).mp hKey)) w).trans
            (bind_of_ok hCopy)))))
      rw [if_neg hKey, Draft.step, if_neg hKey]
      refine ⟨_, hRun, ⟨hBuilds.ready, hBuilds.generous, ?_, hBuilds.stack, rfl, hKey⟩,
        by rw [hSame]; rfl⟩
      exact ⟨hBuilds.tables.table, hBuilds.tables.linked, hBuilds.tables.keys,
        hBuilds.tables.sized.nodes, hBuilds.tables.sized.tokens, hBuilds.tables.sized.count,
        hBuilds.tables.sized.capacity⟩
  · exact hMisplaced (Or.inr (by rw [h.pending]; rfl))
  · exact hMisplaced (Or.inl (by rw [h.needsKey]; simp [Focus.type]))
  · exact hMisplaced (Or.inl (hOutside rfl))

end

end

end MaelysJson
