import MaelysJson.Copying.Rewriting

/-! However a copy ends, it has added no more nodes than its value has. -/
namespace MaelysJson

open Grammar Run

/-! ### Programs that add nodes -/

/-- From at most `k` nodes the program leaves at most `k'`, whether it succeeds or fails. -/
def Within {α : Type} (k k' : Nat) (x : WriterM α) : Prop :=
  Triple (fun w => w.nodes.length ≤ k) x (fun _ t => t.nodes.length ≤ k')
    (fun _ t => t.nodes.length ≤ k')

namespace Within

variable {α β : Type} {k k' k'' : Nat} {x y : WriterM α}

theorem done (a : α) : Within k k (pure a : WriterM α) := fun _ hw => hw

theorem fails (r : Result) : Within k k (throw r : WriterM α) := fun _ hw => hw

theorem ite {c : Prop} [Decidable c] (hx : Within k k' x) (hy : Within k k' y) :
    Within k k' (if c then x else y) :=
  Triple.ite (hx.mono (fun _ hw => hw.1) (fun _ _ ht => ht) fun _ _ ht => ht)
    (hy.mono (fun _ hw => hw.1) (fun _ _ ht => ht) fun _ _ ht => ht)

theorem bind {f : α → WriterM β} (hx : Within k k' x) (hf : ∀ a, Within k' k'' (f a))
    (hLe : k' ≤ k'') :
    Within k k'' (x >>= f) := by
  intro w hw
  have hRun := hx w hw
  rw [bind_eq]
  cases hFirst : x w with
  | ok a t =>
      rw [hFirst] at hRun
      exact hf a t hRun
  | error r t =>
      rw [hFirst] at hRun
      exact hRun.trans hLe

theorem mono (h : Within k k' x) (hLe : k' ≤ k'') : Within k k'' x :=
  Triple.mono h (fun _ hw => hw) (fun _ _ ht => ht.trans hLe) fun _ _ ht => ht.trans hLe

/-- A first program that adds nothing. -/
theorem after {f : α → WriterM β} (hx : Within k k x) (hf : ∀ a, Within k k' (f a)) (hLe : k ≤ k') :
    Within k k' (x >>= f) :=
  hx.bind hf hLe

theorem state {f : Writer → WriterM α} (h : ∀ w, w.nodes.length ≤ k → Within k k' (f w)) :
    Within k k' (get >>= f) := fun w hw => h w hw w hw

theorem stored {w : Writer} (h : w.nodes.length ≤ k) : Within k k (set w : WriterM PUnit) :=
  fun _ _ => h

theorem modified {g : Writer → Writer} (h : ∀ w, (g w).nodes.length = w.nodes.length) :
    Within k k (modify g : WriterM PUnit) := fun w hw => (h w).le.trans hw

theorem fail (r : Result) : Within k k (writerFail r : WriterM α) := fun _ hw => hw

theorem request (size : Nat) : Within k k (writerRequest size) := fun _ hw => hw

theorem copied (bytes : Bytes) : Within k k (copyBytes bytes) :=
  (request _).after (fun _ => done _) le_rfl

theorem ready : Within k k writerReady := by
  intro w hw
  rw [writerReady]
  split_ifs <;> exact hw

theorem ready_after (h : Within k k' x) (hLe : k ≤ k') : Within k k' (writerReady >>= fun _ => x) :=
  ready.after (fun _ => h) hLe

theorem growNodes : Within k k growNodes := by
  refine state fun w _ => ite (after (fails _) (fun _ => ?_) le_rfl) ?_
  all_goals
    exact ite (done _) ((request _).after (fun _ =>
      ite ((fails _).after (fun _ => modified fun _ => rfl) le_rfl) (modified fun _ => rfl)) le_rfl)

theorem growNodesOrFail : Within k k growNodesOrFail := by
  intro w hw
  have hRun := growNodes w hw
  rw [MaelysJson.growNodesOrFail]
  cases hGrow : MaelysJson.growNodes w with
  | ok _ t => rwa [hGrow] at hRun
  | error r t => rwa [hGrow] at hRun

theorem attachKey (index : Nat) : Within k k (attachKey index) := by
  intro w hw
  have hModify : (w.nodes.modify index fun node => { node with key := w.pendingKey }).length ≤
      k := by
    rwa [List.length_modify]
  rw [MaelysJson.attachKey]
  dsimp only
  split_ifs <;> exact hModify

theorem linked (parent : Option Nat) (index : Nat) : Within (k + 1) (k + 1) (match parent with
    | none => (pure index : WriterM Nat)
    | some container => do
        modify fun w =>
          { w with nodes := linksAppend Node.links Node.updateLinks w.nodes container index }
        return index) := by
  cases parent with
  | none => exact done _
  | some container => exact (modified fun _ => length_linksAppend ..).after (fun _ => done _) le_rfl

theorem appended (type : ValueType) (parent : Option Nat) :
    Within k (k + 1) (modify fun w : Writer =>
      { w with nodes := w.nodes ++ [.init type parent] }) := by
  intro w hw
  have hLength : (w.nodes ++ [Node.init type parent]).length = w.nodes.length + 1 :=
    List.length_append
  exact hLength.le.trans (Nat.succ_le_succ hw)

theorem grown (type : ValueType) (w : Writer) :
    Within k (k + 1) (MaelysJson.growNodesOrFail >>= fun _ => do
      modify fun t => { t with nodes := t.nodes ++ [.init type w.stack.head?] }
      if w.needsKey then MaelysJson.attachKey w.nodes.length
      match w.stack.head? with
      | none => return w.nodes.length
      | some container =>
          modify fun t =>
            { t with
              nodes := linksAppend Node.links Node.updateLinks t.nodes container w.nodes.length }
          return w.nodes.length) := by
  refine growNodesOrFail.after (fun _ => (appended _ _).bind (fun _ => ?_) le_rfl) (Nat.le_succ k)
  exact ite ((attachKey _).after (fun _ => linked _ _) le_rfl) (linked _ _)

theorem attachNode (type : ValueType) : Within k (k + 1) (attachNode type) := by
  have hLe := Nat.le_succ k
  refine state fun w _ => ite ((fail _).after (fun _ => ?_) hLe) ?_
  all_goals exact ite ((fail _).after (fun _ => grown type w) hLe) (grown type w)

theorem attachScalar (type : ValueType) (update : Node → Node) :
    Within k (k + 1) (attachScalar type update) :=
  ready_after ((attachNode type).bind (fun _ => modified fun _ => List.length_modify ..) le_rfl)
    (Nat.le_succ k)

theorem copiedText (type : ValueType) (text : Bytes) :
    Within k (k + 1) (copyBytes text >>= fun copy => match copy with
    | none => writerFail .errMemory
    | some copy => do
        let index ← MaelysJson.attachNode type
        modify (·.updateNode index fun node => { node with string := some copy })) := by
  refine (copied text).after (fun copy => ?_) (Nat.le_succ k)
  cases copy with
  | none => exact ((fail _ : Within k k _).mono (Nat.le_succ k))
  | some copy =>
      exact (attachNode type).bind (fun _ => modified fun _ => List.length_modify ..) le_rfl

theorem attachText (type : ValueType) (text : Bytes) : Within k (k + 1) (attachText type text) := by
  have hLe := Nat.le_succ k
  have hRest : Within k (k + 1) _ := copiedText type text
  exact ready_after (state fun _ _ => ite ((fail _).after (fun _ => hRest) hLe) hRest) hLe

theorem containerBegin (type : ValueType) : Within k (k + 1) (containerBegin type) := by
  have hRest : Within k (k + 1) (MaelysJson.attachNode type >>= fun index =>
      modify fun w : Writer => { w with stack := index :: w.stack }) :=
    (attachNode type).bind (fun _ => modified fun _ => rfl) le_rfl
  have hLe := Nat.le_succ k
  exact ready_after (state fun _ _ => ite ((fail _).after (fun _ => hRest) hLe) hRest) hLe

theorem containerEnd (type : ValueType) : Within k k (containerEnd type) := by
  refine ready_after (state fun w hw => ?_) le_rfl
  cases w.currentContainer with
  | none => exact fail _
  | some container => exact ite ((fail _).after (fun _ => stored hw) le_rfl) (stored hw)

theorem copiedKey (name : CText) : Within k k (copyBytes name.bytes >>= fun copy => match copy with
    | none => writerFail .errMemory
    | some copy => modify ({ · with pendingKey := some copy })) := by
  refine (copied _).after (fun copy => ?_) le_rfl
  cases copy with
  | none => exact fail _
  | some copy => exact modified fun _ => rfl

theorem key (name : CText) : Within k k (writerKey name) := by
  have hCopy : Within k k _ := copiedKey name
  have hDuplicate (w : Writer) : Within k k _ :=
    ite (c := keysetContains (nodeKey w.nodes) w.keys ⟨w.stack.head?, name.bytes⟩ = true)
      ((fail .errDuplicateKey).after (fun _ : Unit => hCopy) le_rfl) hCopy
  have hLength (w : Writer) : Within k k _ :=
    ite (c := name.size > w.limits.maximumBytes)
      ((fail .errLimit).after (fun _ : Unit => hDuplicate w) le_rfl) (hDuplicate w)
  have hState (w : Writer) : Within k k _ :=
    ite (c := ¬w.needsKey ∨ w.pendingKey.isSome)
      ((fail .errState).after (fun _ : Unit => hLength w) le_rfl) (hLength w)
  refine state fun w _ => ite ((fails _).after (fun _ => ?_) le_rfl) ?_
  all_goals exact ready_after (hState w) le_rfl

theorem string (text : CText) : Within k (k + 1) (writerString text) :=
  state fun _ _ => ite ((fails _).after (fun _ => attachText _ _) (Nat.le_succ k)) (attachText _ _)

theorem numberLexeme (lexeme : CText) (maximum : Nat) :
    Within k (k + 1) (writeNumberLexeme lexeme maximum) := by
  cases lexeme with
  | null size => exact (fails _).mono (Nat.le_succ k)
  | buffer bytes =>
      exact ite ((fails _).after (fun _ => attachText _ _) (Nat.le_succ k)) (attachText _ _)

theorem copyNumber (document : Document) (value : Nat) :
    Within k (k + 1) (copyNumber document value) := by
  have hFails (r : Result) : Within k (k + 1) (throw r : WriterM Unit) :=
    (fails r).mono (Nat.le_succ k)
  have hLexeme (text : Bytes) : Within k (k + 1) (get >>= fun w : Writer =>
      writeNumberLexeme (.buffer text) w.limits.maximumBytes) := state fun _ _ => numberLexeme _ _
  rw [MaelysJson.copyNumber]
  cases valueNumberText document value with
  | error r => exact hFails r
  | ok text =>
      apply ite
      · cases valueI64 document value with
        | ok number => exact attachScalar _ _
        | error r =>
            cases r with
            | errNotInteger => exact hLexeme text
            | _ => exact hFails _
      · cases valueU64 document value with
        | ok number => exact attachScalar _ _
        | error r =>
            cases r with
            | errNotInteger => exact hLexeme text
            | _ => exact hFails _

end Within

/-! ### Copies -/

/-- The program adds at most the nodes of the events. -/
def Grows (x : WriterM Unit) (events : List Event) : Prop :=
  ∀ k, Within k (k + (events.map Event.nodes).sum) x

theorem Grows.ofSteps : OfSteps Grows where
  done k := .done ()
  seq {x y events events'} hx hy k := by
    rw [List.map_append, List.sum_append, ← Nat.add_assoc]
    exact (hx k).bind (fun _ => hy _) (Nat.le_add_right _ _)
  read {α read a f events} hRead h k := by
    rw [hRead]
    exact h k
  key name k := .key _
  string text k := .string _
  number _ _ k := .copyNumber _ _
  boolean enabled k := .attachScalar _ _
  null k := .attachScalar _ _
  objectBegin k := .containerBegin _
  objectEnd k := .containerEnd _
  arrayBegin k := .containerBegin _
  arrayEnd k := .containerEnd _

theorem Tree.sum_nodes_steps (t : Json) : (t.steps.map Event.nodes).sum = t.values := by
  induction t using Tree.induct with
  | object members ih =>
      have hLoop : ((members.flatMap fun m => Event.key m.1 :: m.2.steps).map Event.nodes).sum =
          (members.map fun m => m.2.values).sum := by
        rw [List.map_flatMap, List.flatMap_def, List.sum_flatten, List.map_map]
        refine congrArg List.sum (List.map_congr_left fun m hm => ?_)
        simp only [Function.comp_apply, List.map_cons, List.sum_cons, Event.nodes,
          Nat.zero_add, ih m hm]
      rw [steps_object, values_object, List.map_append, List.map_cons, List.sum_append,
        List.sum_cons, hLoop]
      rfl
  | array elements ih =>
      have hLoop : ((elements.flatMap Tree.steps).map Event.nodes).sum =
          (elements.map values).sum := by
        rw [List.map_flatMap, List.flatMap_def, List.sum_flatten, List.map_map]
        exact congrArg List.sum (List.map_congr_left ih)
      rw [steps_array, values_array, List.map_append, List.map_cons, List.sum_append,
        List.sum_cons, hLoop]
      rfl
  | string text => rfl
  | number lexeme => rfl
  | boolean value => rfl
  | null => rfl

theorem Within.orCopyFailed {k k' : Nat} {x : WriterM Unit} (h : Within k k' x) :
    Within k k' (orCopyFailed x) := by
  intro w hw
  have hRun := h w hw
  rw [MaelysJson.orCopyFailed]
  cases hCopy : x w with
  | ok _ t => rwa [hCopy] at hRun
  | error r t =>
      rw [hCopy] at hRun
      simp only [copyFailed]
      split_ifs <;> exact hRun

/-- The copy of a value at most adds the nodes of the value. -/
theorem Within.writerValue {document : Document} {value : Nat} {t : Json} {k : Nat}
    (h : document.Carries value t) :
    Within k (k + t.values) (writerValue (some document) value) := by
  have hNumbers : t.Every (fun _ => True) Number :=
    h.every.imp (fun _ _ => trivial) fun _ hNumber => hNumber
  have hCopy := Grows.ofSteps.copyValue h.tree hNumbers k
  rw [Tree.sum_nodes_steps] at hCopy
  have hRest := ready_after hCopy.orCopyFailed (Nat.le_add_right k t.values)
  rw [MaelysJson.writerValue]
  exact ite ((fails _).after (fun _ => hRest) (Nat.le_add_right k t.values)) hRest

theorem Within.serialized {k : Nat} (w : Writer) (hw : w.nodes.length ≤ k) :
    Within k k (match serialize w with
      | .error result s => do
          set { w with heap := s.heap }
          writerFail result
      | .ok _ s => do
          set { w with heap := s.heap, finished := true }
          return s.bytes : WriterM Bytes) := by
  cases serialize w with
  | error r s =>
      exact (stored hw).after (fun _ => (fail r : Within k k (writerFail r : WriterM Bytes))) le_rfl
  | ok _ s => exact (stored hw).after (fun _ => (done s.bytes : Within k k (pure s.bytes))) le_rfl

theorem Within.finish {k : Nat} (outputsGiven : Bool) : Within k k (writerFinish outputsGiven) := by
  have hSerialized (w : Writer) (hw : w.nodes.length ≤ k) : Within k k _ := serialized w hw
  have hRest : Within k k (writerReady >>= fun _ => get >>= fun w : Writer =>
      if w.depth ≠ 0 ∨ w.pendingKey.isSome ∨ w.nodes.length = 0 then
        writerFail .errState >>= fun _ : Unit => _
      else _) :=
    ready_after (state fun w hw =>
      ite ((fail _).after (fun _ => hSerialized w hw) le_rfl) (hSerialized w hw)) le_rfl
  exact ite ((fails _).after (fun _ : Unit => hRest) le_rfl) hRest

theorem WriterCall.call_within {c : WriterCall} {k k' : Nat} (h : Within k k' c.operation)
    {w : Writer} (hw : w.nodes.length ≤ k) : (c.call w).2.nodes.length ≤ k' := by
  have hRun := h w hw
  rw [WriterCall.call]
  cases hOperation : c.operation w with
  | ok output t => rwa [hOperation] at hRun
  | error r t => rwa [hOperation] at hRun

/-- What a copy of the value and a finish leave in a new writer. -/
theorem nodes_of_copy {document : Document} {value : Nat} {t : Json}
    (hCarries : document.Carries value t) {w : Writer} (hw : w.nodes = []) (outputsGiven : Bool) :
    ((WriterCall.value (some document) value).call w).2.nodes.length ≤ t.values ∧
      ((WriterCall.finish outputsGiven).call
        ((WriterCall.value (some document) value).call w).2).2.nodes.length ≤
        t.values := by
  have hCopy : Within 0 (0 + t.values) (WriterCall.value (some document) value).operation :=
    (Within.writerValue hCarries).bind (fun _ => .done _) le_rfl
  rw [Nat.zero_add] at hCopy
  have hFinish : Within t.values t.values (WriterCall.finish outputsGiven).operation :=
    (Within.finish outputsGiven).bind (fun _ => .done _) le_rfl
  have hCopied := WriterCall.call_within hCopy (w := w) (by rw [hw]; exact le_rfl)
  exact ⟨hCopied, WriterCall.call_within hFinish hCopied⟩

end MaelysJson
