import MaelysJson.Memory.Refusals
import MaelysJson.Table.Keyset
import MaelysJson.Table.Links
import MaelysJson.Writing.Calls

/-! What a call can do to a writer: it succeeds and leaves it ready, or its failure is
recorded, or its arguments are refused. Only refused requests are reported as such. -/
namespace MaelysJson

open Run Heap Allocating

instance : Allocating Writer where
  heap := Writer.heap
  withHeap w heap := { w with heap }
  heap_withHeap _ _ := rfl
  withHeap_heap _ := rfl
  withHeap_withHeap _ _ _ := rfl

instance : Allocating Serializer where
  heap := Serializer.heap
  withHeap s heap := { s with heap }
  heap_withHeap _ _ := rfl
  withHeap_heap _ := rfl
  withHeap_withHeap _ _ _ := rfl

/-! ### The key set -/

/-- The key set after its table has doubled. -/
def Keyset.grown (keyOf : Nat → KeysetKey) (set : Keyset) : Keyset :=
  { set with
    slots := set.slots.foldl (rehash keyOf (set.capacity * 2))
      (List.replicate (set.capacity * 2) none)
    capacity := set.capacity * 2 }

/-- A new index in a table with room for it. -/
def Keyset.stored (keyOf : Nat → KeysetKey) (set : Keyset) (index : Nat) : Keyset :=
  { set with
    slots := set.slots.set (findSlot keyOf set.slots set.capacity (keyOf index)).1 (some index)
    count := set.count + 1 }

/-- An insertion in terms of the one request it may make. -/
theorem keysetInsert_eq (keyOf : Nat → KeysetKey) {set : Keyset} (heap : Heap) (index : Nat)
    (hCapacity : set.capacity ≤ sizeMax / 2 / sizeOfSize) :
    keysetInsert keyOf set heap index =
      if (findSlot keyOf set.slots set.capacity (keyOf index)).2 then
        ⟨.errDuplicateKey, none, set, heap⟩
      else if (set.count + 1) * 2 > set.capacity then
        if heap.grant heap.requests.length then
          ⟨.ok, none, (set.grown keyOf).stored keyOf index,
            heap.after [wrap (set.capacity * 2 * sizeOfSize)]⟩
        else ⟨.errMemory, none, set, heap.after [wrap (set.capacity * 2 * sizeOfSize)]⟩
      else ⟨.ok, none, set.stored keyOf index, heap⟩ := by
  have hGrow : keysetGrow keyOf set heap =
      if heap.grant heap.requests.length then
        (.ok, set.grown keyOf, heap.after [wrap (set.capacity * 2 * sizeOfSize)])
      else (.errMemory, set, heap.after [wrap (set.capacity * 2 * sizeOfSize)]) := by
    rw [keysetGrow, if_neg (not_lt.mpr hCapacity)]
    simp only [allocateSlots, request_eq]
    by_cases hGranted : heap.grant heap.requests.length = true
    · simp only [hGranted, if_true]
      rfl
    · simp only [hGranted]
      rfl
  cases hFind : findSlot keyOf set.slots set.capacity (keyOf index) with
  | mk slot found =>
      simp only [keysetInsert, keysetInsertWith, hFind, hGrow]
      cases found with
      | true => rfl
      | false =>
          by_cases hRoom : (set.count + 1) * 2 > set.capacity
          · by_cases hGranted : heap.grant heap.requests.length = true
            · simp only [if_pos hRoom, if_pos hGranted, Bool.false_eq_true, if_false]
              rfl
            · simp only [if_pos hRoom, if_neg hGranted, Bool.false_eq_true, if_false]
          · simp only [if_neg hRoom, Keyset.stored, hFind, Bool.false_eq_true, if_false]

/-- Only a refused request makes a key set of possible size fail for want of memory. -/
theorem keysetInsert_heeds (keyOf : Nat → KeysetKey) {set : Keyset} (heap : Heap) (index : Nat)
    (hCapacity : set.capacity ≤ sizeMax / 2 / sizeOfSize) :
    let inserted := keysetInsert keyOf set heap index
    ∃ sizes, inserted.heap = heap.after sizes ∧
      (inserted.result = .errMemory ↔ ¬heap.Grants sizes) ∧
      (inserted.result ≠ .errMemory → keysetInsert keyOf set heap.unlimited index =
        { inserted with heap := inserted.heap.unlimited }) ∧
      inserted.result ∈ [Result.ok, .errDuplicateKey, .errMemory] ∧
      (inserted.result = .ok → inserted.set.count = set.count + 1 ∧
        inserted.set.capacity ≤ max set.capacity (4 * (set.count + 1))) := by
  intro inserted
  have hInserted : inserted = _ := keysetInsert_eq keyOf heap index hCapacity
  have hUnlimited := keysetInsert_eq keyOf heap.unlimited index hCapacity
  by_cases hFound : (findSlot keyOf set.slots set.capacity (keyOf index)).2 = true
  · rw [if_pos hFound] at hInserted hUnlimited
    rw [hInserted, hUnlimited]
    exact ⟨[], (after_nil _).symm, ⟨nofun, fun h => absurd (grants_nil _) h⟩, fun _ => rfl,
      by simp, nofun⟩
  rw [if_neg hFound] at hInserted hUnlimited
  by_cases hRoom : (set.count + 1) * 2 > set.capacity
  · rw [if_pos hRoom] at hInserted hUnlimited
    rw [if_pos (show heap.unlimited.grant heap.unlimited.requests.length = true from rfl)]
      at hUnlimited
    refine ⟨[wrap (set.capacity * 2 * sizeOfSize)], ?_⟩
    rw [grants_singleton, hUnlimited]
    by_cases hGranted : heap.grant heap.requests.length = true
    · rw [if_pos hGranted] at hInserted
      rw [hInserted]
      refine ⟨rfl, ⟨nofun, fun h => absurd hGranted h⟩, fun _ => rfl, by simp, fun _ => ⟨rfl, ?_⟩⟩
      simp only [Keyset.stored, Keyset.grown]
      omega
    · rw [if_neg hGranted] at hInserted
      rw [hInserted]
      exact ⟨rfl, ⟨fun _ => hGranted, fun _ => rfl⟩, fun h => absurd rfl h, by simp, nofun⟩
  · rw [if_neg hRoom] at hInserted hUnlimited
    rw [hInserted, hUnlimited]
    exact ⟨[], (after_nil _).symm, ⟨nofun, fun h => absurd (grants_nil _) h⟩, fun _ => rfl, by simp,
      fun _ => ⟨rfl, le_max_left _ _⟩⟩

/-! ### Nodes -/

/-- The tables of a writer are no larger than its limits allow. -/
structure Writer.Sized (w : Writer) : Prop where
  nodes : w.nodes.length ≤ w.limits.maximumTokens
  tokens : w.limits.maximumTokens ≤ sizeMax / 256
  count : w.keys.count ≤ w.nodes.length
  capacity : w.keys.capacity ≤ 32 + 4 * w.keys.count

theorem Writer.Sized.keys {w : Writer} (h : w.Sized) :
    w.keys.capacity ≤ sizeMax / 2 / sizeOfSize := by
  obtain ⟨hNodes, hTokens, hCount, hCapacity⟩ := h
  simp only [sizeMax, sizeOfSize] at *
  omega

structure Writer.Steady (w : Writer) : Prop where
  ready : w.Ready
  sized : w.Sized

/-- The failure of a call, recorded as the state of the writer. -/
def Recorded (r : Result) (w : Writer) : Prop := r ≠ .ok ∧ r ≠ .errArgument ∧ w.failure = r

theorem Writer.Ready.fail {w : Writer} (h : w.Ready) (r : Result) : (w.fail r).failure = r :=
  if_pos h.1

section

variable {α : Type} {post : α → Writer → Prop} {w : Writer}

theorem writerFail_bind_heeds {β : Type} {f : α → WriterM β} {post : β → Writer → Prop}
    (h : w.Ready) {r : Result} (hOk : r ≠ .ok) (hArgument : r ≠ .errArgument)
    (hMemory : r ≠ .errMemory) :
    Heeds (writerFail r >>= f) post Recorded w :=
  .error rfl ⟨hOk, hArgument, h.fail r⟩ rfl hMemory rfl

theorem writerRequest_eq (size : Nat) (w : Writer) :
    writerRequest size w = .ok ((heap w).grant (heap w).requests.length) (spent w [size]) := rfl

end

variable {w : Writer}

/-- Changes outside of the tables leave a writer steady. -/
theorem Writer.Steady.congr {t : Writer} (h : w.Steady) (hReady : t.Ready)
    (hLimits : t.limits = w.limits) (hNodes : t.nodes.length = w.nodes.length)
    (hKeys : t.keys = w.keys) : t.Steady := by
  refine ⟨hReady, ?_, ?_, ?_, ?_⟩
  · rw [hNodes, hLimits]
    exact h.sized.nodes
  · rw [hLimits]
    exact h.sized.tokens
  · rw [hNodes, hKeys]
    exact h.sized.count
  · rw [hKeys]
    exact h.sized.capacity

theorem Writer.Steady.spent {sizes : List Nat} (h : w.Steady) : (spent w sizes).Steady :=
  h.congr h.ready rfl rfl rfl

theorem growNodes_heeds (h : w.Steady) :
    Heeds growNodes (fun _ t => t.Steady ∧ t.keys.count < t.nodes.length + 1 ∧
      t.nodes.length < t.limits.maximumTokens) (fun r t => r ≠ .ok ∧ r ≠ .errArgument ∧
        t.Ready) w := by
  apply Heeds.get rfl
  apply Heeds.ite
  · intro _
    exact .throw_bind ⟨nofun, nofun, h.ready⟩ nofun
  intro hFull
  have hRoom := not_le.mp hFull
  apply Heeds.ite
  · intro _
    exact .pure () ⟨h, Nat.lt_succ_of_le h.sized.count, hRoom⟩
  · intro _
    apply Heeds.request (writerRequest_eq _)
    · exact .modify ⟨h.congr h.ready rfl rfl rfl, Nat.lt_succ_of_le h.sized.count, hRoom⟩ rfl rfl
    · exact ⟨_, [], rfl, ⟨nofun, nofun, h.ready⟩, rfl⟩

theorem growNodesOrFail_heeds (h : w.Steady) :
    Heeds growNodesOrFail (fun _ t => t.Steady ∧ t.keys.count < t.nodes.length + 1 ∧
      t.nodes.length < t.limits.maximumTokens) Recorded w := by
  apply (growNodes_heeds h).rescue (g := fun r t => t.fail r)
  · intro s
    rw [growNodesOrFail]
    cases growNodes s <;> rfl
  · exact fun r t => rfl
  · exact fun r t => rfl
  · exact fun r t hFault => ⟨hFault.1, hFault.2.1, hFault.2.2.fail r⟩

theorem attachKey_heeds (index : Nat) (h : w.Steady) (hCount : w.keys.count < w.nodes.length) :
    Heeds (attachKey index) (fun _ t => t.Steady ∧ t.nodes.length = w.nodes.length) Recorded w := by
  let keyed : Writer :=
    { w with
      nodes := w.nodes.modify index fun node => { node with key := w.pendingKey }
      pendingKey := none }
  have hLength : keyed.nodes.length = w.nodes.length := List.length_modify ..
  obtain ⟨sizes, hHeap, hMemory, hUnlimited, hResult, hOk⟩ :=
    keysetInsert_heeds (nodeKey keyed.nodes) w.heap index h.sized.keys
  have hRun : attachKey index w =
      let inserted := keysetInsert (nodeKey keyed.nodes) w.keys w.heap index
      let t : Writer := { keyed with keys := inserted.set, heap := inserted.heap }
      if inserted.result = .ok then .ok () t else writerFail inserted.result t := rfl
  have hGenerous : attachKey index (generous w) =
      let inserted := keysetInsert (nodeKey keyed.nodes) w.keys w.heap.unlimited index
      let t : Writer := { keyed with keys := inserted.set, heap := inserted.heap }
      if inserted.result = .ok then .ok () t else writerFail inserted.result t := rfl
  refine ⟨sizes, ?_⟩
  rw [hRun, hGenerous]
  by_cases hInserted : (keysetInsert (nodeKey keyed.nodes) w.keys w.heap index).result = .ok
  · obtain ⟨hKeys, hCapacity⟩ := hOk hInserted
    have hSized : Writer.Sized { keyed with
        keys := (keysetInsert (nodeKey keyed.nodes) w.keys w.heap index).set
        heap := (keysetInsert (nodeKey keyed.nodes) w.keys w.heap index).heap } := by
      have := h.sized.nodes
      have := h.sized.capacity
      refine ⟨?_, h.sized.tokens, ?_, ?_⟩ <;> simp only [hLength, hKeys] <;> omega
    rw [hUnlimited (by rw [hInserted]; nofun)]
    simp only [if_pos hInserted]
    refine ⟨⟨⟨h.ready, hSized⟩, hLength⟩, hHeap, ?_, rfl⟩
    by_contra hRefused
    rw [hMemory.mpr hRefused] at hInserted
    cases hInserted
  · simp only [if_neg hInserted]
    refine ⟨⟨hInserted, ?_, h.ready.fail _⟩, hHeap, hMemory, fun hNot => ?_⟩
    · intro hArgument
      rw [hArgument] at hResult
      simp at hResult
    · rw [hUnlimited hNot]
      simp only [if_neg hInserted]
      rfl

/-- The link to the container, if there is one. -/
theorem link_heeds (parent : Option Nat) (index : Nat) (h : w.Steady) :
    Heeds (match parent with
      | none => (pure index : WriterM Nat)
      | some container => do
          modify fun t =>
            { t with nodes := linksAppend Node.links Node.updateLinks t.nodes container index }
          return index) (fun _ t => t.Steady) Recorded w := by
  cases parent with
  | none => exact .pure _ h
  | some container =>
      have hLinked : Heeds (modify fun t : Writer =>
          { t with nodes := linksAppend Node.links Node.updateLinks t.nodes container index })
          (fun _ t => t.Steady) Recorded w :=
        .modify (h.congr h.ready rfl (length_linksAppend ..) rfl) rfl rfl
      exact hLinked.bind fun _ _ hLinked => .pure _ hLinked

theorem attachNode_heeds (type : ValueType) (h : w.Steady) :
    Heeds (attachNode type) (fun _ t => t.Steady) Recorded w := by
  apply Heeds.get rfl
  apply Heeds.ite
  · intro _
    exact writerFail_bind_heeds h.ready (by simp) (by simp) (by simp)
  intro _
  apply Heeds.ite
  · intro _
    exact writerFail_bind_heeds h.ready (by simp) (by simp) (by simp)
  intro _
  apply (growNodesOrFail_heeds h).bind
  rintro _ grown ⟨hGrown, hCount, hRoom⟩
  have hAppended : Heeds
      (modify fun t : Writer => { t with nodes := t.nodes ++ [.init type w.stack.head?] })
      (fun _ t => t.Steady ∧ t.keys.count < t.nodes.length) Recorded grown := by
    have hLength : (grown.nodes ++ [Node.init type w.stack.head?]).length =
      grown.nodes.length + 1 :=
      List.length_append
    have hSteady : Writer.Steady { grown with nodes := grown.nodes ++ [.init type w.stack.head?] } ∧
        grown.keys.count < (grown.nodes ++ [Node.init type w.stack.head?]).length := by
      rw [hLength]
      refine ⟨⟨hGrown.ready, ?_, hGrown.sized.tokens, ?_, hGrown.sized.capacity⟩, hCount⟩
      · rw [hLength]
        exact hRoom
      · rw [hLength]
        exact hCount.le
    exact .modify hSteady rfl rfl
  apply hAppended.bind
  rintro _ appended ⟨hSteady, hKeys⟩
  apply Heeds.ite
  · intro _
    exact (attachKey_heeds w.nodes.length hSteady hKeys).bind fun _ _ hT => link_heeds _ _ hT.1
  · intro _
    exact link_heeds _ _ hSteady

/-! ### Operations -/

/-- An operation refuses its arguments and changes nothing, or its failure is recorded. -/
def Answered (w : Writer) (r : Result) (t : Writer) : Prop :=
  (r = .errArgument ∧ t = w) ∨ Recorded r t

theorem writerReady_heeds (h : w.Steady) : Heeds writerReady (fun _ t => t = w) Recorded w :=
  .ok (writerReady_of_ready h.ready) rfl rfl (writerReady_of_ready (w := generous w) h.ready)

theorem afterReady_heeds {α : Type} {x : WriterM α} {post : α → Writer → Prop} (h : w.Steady)
    (hx : Heeds x post Recorded w) : Heeds (writerReady >>= fun _ => x) post Recorded w :=
  (writerReady_heeds h).bind fun _ _ hSame => hSame ▸ hx

theorem containerBegin_heeds (type : ValueType) (h : w.Steady) :
    Heeds (containerBegin type) (fun _ t => t.Steady) Recorded w := by
  apply afterReady_heeds h
  apply Heeds.get rfl
  apply Heeds.ite
  · intro _
    exact writerFail_bind_heeds h.ready nofun nofun nofun
  · intro _
    exact (attachNode_heeds type h).bind fun index t hT =>
      .modify (hT.congr hT.ready rfl rfl rfl) rfl rfl

/-- What ending a container does to a ready writer. -/
theorem containerEnd_run (type : ValueType) (h : w.Ready) :
    containerEnd type w = match w.currentContainer with
      | none => .error .errState (w.fail .errState)
      | some container =>
          if container.type ≠ type ∨ w.pendingKey.isSome then .error .errState (w.fail .errState)
          else .ok () { w with stack := w.stack.tail } := by
  rw [containerEnd, bind_of_ok (writerReady_of_ready h), get_bind]
  cases w.currentContainer with
  | none => rfl
  | some container =>
      simp only
      split_ifs <;> rfl

theorem containerEnd_heeds (type : ValueType) (h : w.Steady) :
    Heeds (containerEnd type) (fun _ t => t.Steady) Recorded w := by
  have hRun := containerEnd_run type h.ready
  have hGenerous := containerEnd_run (w := generous w) type h.ready
  have hSame : (generous w).currentContainer = w.currentContainer := rfl
  rw [hSame] at hGenerous
  have hFails (hRun : containerEnd type w = .error .errState (w.fail .errState))
      (hGenerous : containerEnd type (generous w) =
        .error .errState ((generous w).fail .errState)) :
      Heeds (containerEnd type) (fun _ t => t.Steady) Recorded w :=
    .error hRun ⟨nofun, nofun, h.ready.fail _⟩ rfl nofun hGenerous
  cases hContainer : w.currentContainer with
  | none =>
      rw [hContainer] at hRun hGenerous
      exact hFails hRun hGenerous
  | some container =>
      rw [hContainer] at hRun hGenerous
      by_cases hType : container.type ≠ type ∨ w.pendingKey.isSome = true
      · exact hFails (hRun.trans (if_pos hType)) (hGenerous.trans (if_pos hType))
      · exact .ok (hRun.trans (if_neg hType)) (h.congr h.ready rfl rfl rfl) rfl
          (hGenerous.trans (if_neg hType))

/-- The copy of a text, and what is done with it. -/
theorem copyBytes_bind_heeds {bytes : Bytes} {f : Bytes → WriterM Unit} (h : w.Steady)
    (hf : ∀ t, t.Steady → Heeds (f bytes) (fun _ t => t.Steady) Recorded t) :
    Heeds (copyBytes bytes >>= fun copy => match copy with
      | none => writerFail .errMemory
      | some copy => f copy) (fun _ t => t.Steady) Recorded w := by
  have hRequest : Heeds (writerRequest (bytes.length + 1) >>= fun granted =>
      match (if granted = true then some bytes else none) with
      | none => writerFail .errMemory
      | some copy => f copy) (fun _ t => t.Steady) Recorded w := by
    apply Heeds.request (writerRequest_eq _)
    · exact hf _ h.spent
    · exact ⟨_, [], rfl, ⟨nofun, nofun, h.ready.fail _⟩, rfl⟩
  exact hRequest.congr rfl rfl

theorem attachText_heeds (type : ValueType) (text : Bytes) (h : w.Steady) :
    Heeds (attachText type text) (fun _ t => t.Steady) Recorded w := by
  apply afterReady_heeds h
  apply Heeds.get rfl
  apply Heeds.ite
  · intro _
    exact writerFail_bind_heeds h.ready nofun nofun nofun
  · intro _
    apply copyBytes_bind_heeds h
    intro t hT
    exact (attachNode_heeds type hT).bind fun index u hU =>
      .modify (hU.congr hU.ready rfl (List.length_modify ..) rfl) rfl rfl

theorem attachScalar_heeds (type : ValueType) (update : Node → Node) (h : w.Steady) :
    Heeds (attachScalar type update) (fun _ t => t.Steady) Recorded w := by
  apply afterReady_heeds h
  exact (attachNode_heeds type h).bind fun index t hT =>
    .modify (hT.congr hT.ready rfl (List.length_modify ..) rfl) rfl rfl

/-- Arguments are looked at before anything else. -/
theorem guarded_heeds {c : Prop} [Decidable c] {β : Type} {f : β → WriterM Unit} {x : WriterM Unit}
    (hx : Heeds x (fun _ t => t.Steady) Recorded w) :
    Heeds (if c then (throw .errArgument : WriterM β) >>= f else x) (fun _ t => t.Steady)
      (Answered w) w := by
  apply Heeds.ite
  · intro _
    exact .throw_bind (Or.inl ⟨rfl, rfl⟩) nofun
  · intro _
    exact hx.mono (fun _ _ h => h) fun _ _ h => Or.inr h

theorem writerKey_heeds (key : CText) (h : w.Steady) :
    Heeds (writerKey key) (fun _ t => t.Steady) (Answered w) w := by
  apply Heeds.get rfl
  apply guarded_heeds
  apply afterReady_heeds h
  apply Heeds.ite
  · intro _
    exact writerFail_bind_heeds h.ready nofun nofun nofun
  intro _
  apply Heeds.ite
  · intro _
    exact writerFail_bind_heeds h.ready nofun nofun nofun
  intro _
  apply Heeds.ite
  · intro _
    exact writerFail_bind_heeds h.ready nofun nofun nofun
  intro _
  apply copyBytes_bind_heeds h
  exact fun t hT => .modify (hT.congr hT.ready rfl rfl rfl) rfl rfl

theorem writerString_heeds (value : CText) (h : w.Steady) :
    Heeds (writerString value) (fun _ t => t.Steady) (Answered w) w := by
  apply Heeds.get rfl
  apply guarded_heeds
  exact attachText_heeds .string value.bytes h

theorem writeNumberLexeme_heeds (lexeme : CText) (maximum : Nat) (h : w.Steady) :
    Heeds (writeNumberLexeme lexeme maximum) (fun _ t => t.Steady) (Answered w) w := by
  cases lexeme with
  | null size => exact .throw (Or.inl ⟨rfl, rfl⟩) nofun
  | buffer bytes =>
      apply guarded_heeds
      exact attachText_heeds .number bytes h

/-! ### Copies -/

/-- A copy that fails has recorded the failure, or it leaves that to its caller. -/
def Pending (r : Result) (w : Writer) : Prop := r ≠ .ok ∧ w.Ready ∨ Recorded r w

theorem Answered.pending {r : Result} {t : Writer} (hAnswered : Answered w r t) (h : w.Steady) :
    Pending r t := by
  rcases hAnswered with ⟨rfl, rfl⟩ | hRecorded
  · exact Or.inl ⟨nofun, h.ready⟩
  · exact Or.inr hRecorded

/-- A copy from a steady writer to a steady one. -/
def Copying (x : WriterM Unit) : Prop :=
  ∀ w : Writer, w.Steady → Heeds x (fun _ t => t.Steady) Pending w

/-- Reading a document does not ask for memory, and an error of it is one. -/
def Frugal {α : Type} (read : Except Result α) : Prop :=
  read ≠ .error .errMemory ∧ read ≠ .error .ok

namespace Frugal

variable {α β : Type}

theorem ok (a : α) : Frugal (.ok a) := ⟨nofun, nofun⟩

theorem error {r : Result} (hMemory : r ≠ .errMemory) (hOk : r ≠ .ok) :
    Frugal (.error r : Except Result α) := by
  refine ⟨fun h => hMemory ?_, fun h => hOk ?_⟩
  · injection h
  · injection h

theorem result {r : Result} (h : Frugal (.error r : Except Result α)) :
    r ≠ .errMemory ∧ r ≠ .ok := by
  refine ⟨fun hMemory => h.1 ?_, fun hOk => h.2 ?_⟩
  · rw [hMemory]
  · rw [hOk]

theorem bind {read : Except Result α} {f : α → Except Result β} (h : Frugal read)
    (hf : ∀ a, Frugal (f a)) :
    Frugal (read >>= f) := by
  cases read with
  | ok a => exact hf a
  | error r => exact .error h.result.1 h.result.2

/-- A test that may refuse, and what follows. -/
theorem check {c : Prop} [Decidable c] (r : Result) (hMemory : r ≠ .errMemory) (hOk : r ≠ .ok)
    {f : α → Except Result β} {x : Except Result β} (hx : Frugal x) :
    Frugal (if c then (throw r : Except Result α) >>= f else x) := by
  split_ifs
  · exact .error hMemory hOk
  · exact hx

theorem tokenOf (document : Document) (value : Nat) (expected : ValueType) :
    Frugal (tokenOf document value expected) := by
  rw [MaelysJson.tokenOf]
  split_ifs
  · exact .error nofun nofun
  · exact .error nofun nofun
  · exact .ok _

theorem textView (document : Document) (value : Nat) (expected : ValueType) :
    Frugal (textView document value expected) := (tokenOf _ _ _).bind fun _ => .ok _

theorem objectSize (document : Document) (object : Nat) : Frugal (objectSize document object) :=
  (tokenOf _ _ _).bind fun _ => .ok _

theorem objectMemberAt (document : Document) (object index : Nat) :
    Frugal (objectMemberAt document object index) :=
  (tokenOf _ _ _).bind fun _ => .check .errRange nofun nofun (.ok _)

theorem arraySize (document : Document) (array : Nat) : Frugal (arraySize document array) :=
  (tokenOf _ _ _).bind fun _ => .ok _

theorem arrayGet (document : Document) (array index : Nat) :
    Frugal (arrayGet document array index) :=
  (tokenOf _ _ _).bind fun _ => .check .errRange nofun nofun (.ok _)

theorem magnitudeFrom (maximum : UInt64) (bytes : Bytes) (magnitude : UInt64) :
    Frugal (magnitudeFrom maximum bytes magnitude) := by
  induction bytes generalizing magnitude with
  | nil => exact .ok _
  | cons byte bytes ih =>
      simp only [MaelysJson.magnitudeFrom]
      split_ifs
      · exact .error nofun nofun
      · exact .error nofun nofun
      · exact ih _

theorem readMagnitude (document : Document) (value : Nat) (maximum : UInt64) :
    Frugal (readMagnitude document value maximum) :=
  (tokenOf _ _ _).bind fun _ => (magnitudeFrom _ _ _).bind fun _ => .ok _

theorem valueU64 (document : Document) (value : Nat) : Frugal (valueU64 document value) :=
  (readMagnitude _ _ _).bind fun (_, _) => .check .errRange nofun nofun (.ok _)

theorem valueI64 (document : Document) (value : Nat) : Frugal (valueI64 document value) := by
  apply (readMagnitude _ _ _).bind
  rintro ⟨magnitude, negative⟩
  apply Frugal.check .errRange nofun nofun
  split_ifs <;> exact Frugal.ok _

theorem valueBoolean (document : Document) (value : Nat) : Frugal (valueBoolean document value) :=
  (tokenOf _ _ _).bind fun _ => .ok _

end Frugal

namespace Copying

theorem of_answered {x : WriterM Unit}
    (h : ∀ w : Writer, w.Steady → Heeds x (fun _ t => t.Steady) (Answered w) w) :
    Copying x :=
  fun w hw => (h w hw).mono (fun _ _ h => h) fun _ _ hAnswered => hAnswered.pending hw

theorem of_recorded {x : WriterM Unit}
    (h : ∀ w : Writer, w.Steady → Heeds x (fun _ t => t.Steady) Recorded w) :
    Copying x :=
  fun w hw => (h w hw).mono (fun _ _ h => h) fun _ _ hRecorded => Or.inr hRecorded

theorem done : Copying (return ()) := fun _ hw => .pure () hw

theorem seq {x y : WriterM Unit} (hx : Copying x) (hy : Copying y) : Copying (x >>= fun _ => y) :=
  fun w hw => (hx w hw).bind fun _ t hT => hy t hT

end Copying

/-- A number that is read is written as such, and one that is no integer as its lexeme. -/
def copyRead {α : Type} (read : Except Result α) (text : Bytes) (write : α → WriterM Unit) :
    WriterM Unit :=
  match read with
  | .ok number => write number
  | .error .errNotInteger => do writeNumberLexeme (.buffer text) (← get).limits.maximumBytes
  | .error result => throw result

/-- Both signs are copied in the same way, each with its reader. -/
theorem copyNumber_eq (document : Document) (value : Nat) :
    copyNumber document value = readDocument (valueNumberText document value) >>= fun text =>
      if text.head? = some 0x2d then copyRead (valueI64 document value) text writerI64
      else copyRead (valueU64 document value) text writerU64 := by
  rw [copyNumber]
  congr 1
  funext text
  split_ifs
  · cases valueI64 document value with
    | ok number => rfl
    | error r => cases r <;> rfl
  · cases valueU64 document value with
    | ok number => rfl
    | error r => cases r <;> rfl

/-! ### What a copy is made of -/

/-- A property of programs that holds of everything a copy is made of. -/
structure OfCopies (P : WriterM Unit → Prop) : Prop where
  done : P (return ())
  seq : ∀ {x y : WriterM Unit}, P x → P y → P (x >>= fun _ => y)
  fails : ∀ {r : Result}, r ≠ .errMemory → r ≠ .ok → P (throw r)
  key : ∀ name, P (writerKey (.buffer name))
  string : ∀ text, P (writerString (.buffer text))
  lexeme : ∀ text, P (get >>= fun w => writeNumberLexeme (.buffer text) w.limits.maximumBytes)
  u64 : ∀ number, P (writerU64 number)
  i64 : ∀ number, P (writerI64 number)
  boolean : ∀ enabled, P (writerBoolean enabled)
  null : P writerNull
  objectBegin : P writerObjectBegin
  objectEnd : P writerObjectEnd
  arrayBegin : P writerArrayBegin
  arrayEnd : P writerArrayEnd

namespace OfCopies

variable {P : WriterM Unit → Prop} (h : OfCopies P) (document : Document)
include h

theorem read {α : Type} {read : Except Result α} (hRead : Frugal read) {f : α → WriterM Unit}
    (hf : ∀ a, P (f a)) : P (readDocument read >>= f) := by
  cases read with
  | ok a => exact hf a
  | error r => exact h.fails hRead.result.1 hRead.result.2

theorem copyRead {α : Type} {read : Except Result α} (hRead : Frugal read) (text : Bytes)
    {write : α → WriterM Unit} (hWrite : ∀ a, P (write a)) : P (copyRead read text write) := by
  unfold MaelysJson.copyRead
  split
  · exact hWrite _
  · exact h.lexeme text
  · exact h.fails hRead.result.1 hRead.result.2

theorem copyNumber (value : Nat) : P (copyNumber document value) := by
  rw [copyNumber_eq]
  apply h.read (.textView _ _ _)
  intro text
  split_ifs
  · exact h.copyRead (.valueI64 document value) text h.i64
  · exact h.copyRead (.valueU64 document value) text h.u64

theorem copyMembers {copyValue : Nat → WriterM Unit} (hCopy : ∀ value, P (copyValue value))
    (object rounds i : Nat) :
    P (copyMembers copyValue document object rounds i) := by
  induction rounds generalizing i with
  | zero => exact h.done
  | succ rounds ih =>
      apply h.read (.objectMemberAt _ _ _)
      rintro ⟨key, member⟩
      exact h.seq (h.key _) (h.seq (hCopy member) (ih (i + 1)))

theorem copyObject {copyValue : Nat → WriterM Unit} (hCopy : ∀ value, P (copyValue value))
    (object : Nat) :
    P (copyObject copyValue document object) := by
  apply h.read (.objectSize _ _)
  intro count
  exact h.seq h.objectBegin (h.seq (h.copyMembers document hCopy object count 0) h.objectEnd)

theorem copyElements {copyValue : Nat → WriterM Unit} (hCopy : ∀ value, P (copyValue value))
    (array rounds i : Nat) :
    P (copyElements copyValue document array rounds i) := by
  induction rounds generalizing i with
  | zero => exact h.done
  | succ rounds ih =>
      apply h.read (.arrayGet _ _ _)
      intro element
      exact h.seq (hCopy element) (ih (i + 1))

theorem copyArray {copyValue : Nat → WriterM Unit} (hCopy : ∀ value, P (copyValue value))
    (array : Nat) :
    P (copyArray copyValue document array) := by
  apply h.read (.arraySize _ _)
  intro count
  exact h.seq h.arrayBegin (h.seq (h.copyElements document hCopy array count 0) h.arrayEnd)

theorem copyValue (fuel value : Nat) : P (copyValue document fuel value) := by
  induction fuel generalizing value with
  | zero => exact h.fails nofun nofun
  | succ fuel ih =>
      rw [MaelysJson.copyValue]
      cases valueType document value with
      | object => exact h.copyObject document ih value
      | array => exact h.copyArray document ih value
      | string =>
          apply h.read (.textView _ _ _)
          exact h.string
      | number => exact h.copyNumber document value
      | boolean =>
          apply h.read (.valueBoolean _ _)
          exact fun enabled => h.boolean _
      | null => exact h.null
      | none => exact h.fails nofun nofun

theorem copyMembersExcept (object : Nat) (excluded : List Bytes) (rounds i : Nat) :
    P (copyMembersExcept document object excluded rounds i) := by
  induction rounds generalizing i with
  | zero => exact h.done
  | succ rounds ih =>
      apply h.read (.objectMemberAt _ _ _)
      rintro ⟨key, member⟩
      dsimp only
      split_ifs
      · exact h.seq (h.key _) (h.seq (h.copyValue document _ member) (ih (i + 1)))
      · exact ih (i + 1)

/-- The members that are left of an object, as `writerObjectBeginExcept` copies them. -/
theorem copyExcept (object : Nat) (excluded : List Bytes) :
    P (readDocument (objectSize document object) >>= fun count =>
      MaelysJson.copyMembersExcept document object excluded count 0) :=
  h.read (.objectSize _ _) fun count => h.copyMembersExcept document object excluded count 0

end OfCopies

/-- Whatever a copy does, its failure is recorded or still to be. -/
theorem ofCopies_copying : OfCopies Copying where
  done := .done
  seq := .seq
  fails := fun hMemory hOk _ hw => .throw (Or.inl ⟨hOk, hw.ready⟩) hMemory
  key := fun _ => .of_answered fun _ => writerKey_heeds _
  string := fun _ => .of_answered fun _ => writerString_heeds _
  lexeme := fun text _ hw =>
    .get rfl ((writeNumberLexeme_heeds (.buffer text) _ hw).mono (fun _ _ h => h)
    fun _ _ h => h.pending hw)
  u64 := fun _ => .of_recorded fun _ => attachScalar_heeds .number _
  i64 := fun _ => .of_recorded fun _ => attachScalar_heeds .number _
  boolean := fun _ => .of_recorded fun _ => attachScalar_heeds .boolean _
  null := .of_recorded fun _ => attachScalar_heeds .null _
  objectBegin := .of_recorded fun _ => containerBegin_heeds .object
  objectEnd := .of_recorded fun _ => containerEnd_heeds .object
  arrayBegin := .of_recorded fun _ => containerBegin_heeds .array
  arrayEnd := .of_recorded fun _ => containerEnd_heeds .array

/-- What is left of a copy that failed: its failure, or the state that stands for refused
arguments. -/
def Broken (r : Result) (w : Writer) : Prop :=
  (r = .errArgument ∧ w.failure = .errState) ∨ Recorded r w

theorem orCopyFailed_heeds {copy : WriterM Unit} (hCopy : Copying copy) {w : Writer}
    (h : w.Steady) :
    Heeds (orCopyFailed copy) (fun _ t => t.Steady) Broken w := by
  apply (hCopy w h).rescue (g := fun r t => if r = .errArgument then t.fail .errState else t.fail r)
  · intro s
    rw [orCopyFailed]
    cases copy s with
    | ok _ t => rfl
    | error r t =>
        simp only [copyFailed]
        split_ifs <;> rfl
  · intro r t
    split_ifs <;> rfl
  · intro r t
    split_ifs <;> rfl
  · rintro r t (⟨hOk, hReady⟩ | ⟨hOk, hArgument, hFailure⟩)
    · split_ifs with hArgument
      · exact Or.inl ⟨hArgument, hReady.fail _⟩
      · exact Or.inr ⟨hOk, hArgument, hReady.fail r⟩
    · rw [if_neg hArgument]
      refine Or.inr ⟨hOk, hArgument, ?_⟩
      rw [Writer.fail]
      split_ifs with hOk
      · rfl
      · exact hFailure

end MaelysJson
