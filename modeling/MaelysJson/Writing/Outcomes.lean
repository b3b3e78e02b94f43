import MaelysJson.Writing.Failures

/-! How each call on a ready writer ends: serialization, the finish, the copies into the
writer, and every operation together. -/
namespace MaelysJson

open Run Heap Allocating

/-! ### Serialization -/

section

variable {nodes : List Node}

/-- What the serializer does to its output: it succeeds, or it reports a limit, a refused
request or a node without a type. -/
def Serializing (x : SerializerM Unit) : Prop :=
  ∀ s, Heeds x (fun _ _ => True) (fun r _ => r = .errLimit ∨ r = .errMemory ∨ r = .errState) s

namespace Serializing

theorem done : Serializing (return ()) := fun _ => .pure () trivial

theorem seq {x y : SerializerM Unit} (hx : Serializing x) (hy : Serializing y) :
    Serializing (x >>= fun _ => y) :=
  fun s => (hx s).bind fun _ t _ => hy t

theorem ite {c : Prop} [Decidable c] {x y : SerializerM Unit} (hx : Serializing x)
    (hy : Serializing y) :
    Serializing (if c then x else y) := fun s => .ite (fun _ => hx s) fun _ => hy s

/-- A test of the layout, which the heap has no part in. -/
theorem get {f : Serializer → SerializerM Unit} (hHeap : ∀ s, f (generous s) = f s)
    (hf : ∀ s, Serializing (f s)) :
    Serializing (MonadState.get >>= f) := fun s => .get (hHeap s) (hf s s)

end Serializing

theorem serializerRequest_eq (size : Nat) (s : Serializer) :
    serializerRequest size s = .ok ((heap s).grant (heap s).requests.length) (spent s [size]) := rfl

theorem reserve_serializing (extra : Nat) : Serializing (reserve extra) := by
  intro s
  by_cases hLimit : extra > wrapSub s.maximum s.bytes.length
  · exact .error (if_pos hLimit) (Or.inl rfl) rfl nofun (if_pos hLimit)
  by_cases hRoom : wrap (s.bytes.length + extra) ≤ s.capacity
  · have hRun (t : Serializer) (hLimit : ¬extra > wrapSub t.maximum t.bytes.length)
        (hRoom : wrap (t.bytes.length + extra) ≤ t.capacity) : reserve extra t = .ok () t := by
      rw [reserve, if_neg hLimit]
      exact if_pos hRoom
    exact .ok (hRun s hLimit hRoom) trivial rfl (hRun (generous s) hLimit hRoom)
  · let capacity := reserveCapacity (wrap (s.bytes.length + extra)) s.maximum 64
      (if s.capacity ≠ 0 then s.capacity else 128)
    have hRequest : Heeds (serializerRequest (wrap (capacity + 1)) >>= fun granted =>
        if granted = true then modify fun t => { t with capacity } else throw .errMemory)
        (fun _ _ => True) (fun r _ => r = .errLimit ∨ r = .errMemory ∨ r = .errState) s := by
      apply Heeds.request (serializerRequest_eq _)
      · exact .modify trivial rfl rfl
      · exact ⟨_, [], rfl, Or.inr (Or.inl rfl), rfl⟩
    have hRun (t : Serializer) (hLimit : ¬extra > wrapSub t.maximum t.bytes.length)
        (hRoom : ¬wrap (t.bytes.length + extra) ≤ t.capacity) (hCapacity : capacity =
          reserveCapacity (wrap (t.bytes.length + extra)) t.maximum 64 (if t.capacity ≠ 0 then
            t.capacity else 128)) :
        reserve extra t = (serializerRequest (wrap (capacity + 1)) >>= fun granted =>
          if granted = true then modify fun t => { t with capacity } else throw .errMemory) t := by
      rw [reserve, if_neg hLimit]
      simp only [if_neg hRoom]
      rw [bind_of_ok (serializerRequest_eq _ t), hCapacity]
      cases hGrant : (heap t).grant (heap t).requests.length
      · have hRefused : t.heap.grant t.heap.requests.length = false := hGrant
        simp only [request_eq, hRefused]
        rfl
      · have hGranted : t.heap.grant t.heap.requests.length = true := hGrant
        simp only [request_eq, hGranted]
        rfl
    exact hRequest.congr (hRun s hLimit hRoom rfl) (hRun (generous s) hLimit hRoom rfl)

theorem append_serializing (bytes : Bytes) : Serializing (append bytes) := by
  apply Serializing.ite .done
  exact (reserve_serializing _).seq fun s => .modify trivial rfl rfl

theorem appendSpaces_serializing (count : Nat) : Serializing (appendSpaces count) := by
  induction count with
  | zero => exact .done
  | succ count ih => exact (append_serializing _).seq ih

theorem appendBreak_serializing (level : Nat) : Serializing (appendBreak level) := by
  apply Serializing.get fun _ => rfl
  intro s
  apply Serializing.ite .done
  exact (append_serializing _).seq (appendSpaces_serializing _)

theorem appendStringFrom_serializing (rounds : Nat) (bytes : Bytes) :
    Serializing (appendStringFrom rounds bytes) := by
  induction rounds generalizing bytes with
  | zero =>
      rw [appendStringFrom]
      exact .done
  | succ rounds ih =>
      cases bytes with
      | nil => exact .done
      | cons byte rest =>
          apply Serializing.get fun _ => rfl
          intro s
          apply Serializing.ite
          · apply Serializing.ite
            · exact (append_serializing _).seq ((append_serializing _).seq (ih _))
            · exact (append_serializing _).seq (ih _)
          · exact (append_serializing _).seq (ih _)

theorem appendString_serializing (bytes : Bytes) : Serializing (appendString bytes) :=
  (append_serializing _).seq ((appendStringFrom_serializing _ _).seq (append_serializing _))

theorem serializeMembers_serializing {node : Nat → Nat → SerializerM Unit}
    (hNode : ∀ index level, Serializing (node index level)) (level : Nat) (first : Bool)
    (children : List Nat) :
    Serializing (serializeMembers node nodes level first children) := by
  induction children generalizing first with
  | nil =>
      rw [serializeMembers]
      exact .done
  | cons child rest ih =>
      have hTail : Serializing (appendBreak (level + 1) >>= fun _ =>
          appendString ((nodes.getD child .blank).key.getD []) >>= fun _ =>
          get >>= fun s => append (if s.indent = true then [0x3a, 0x20] else [0x3a]) >>= fun _ =>
          node child (level + 1) >>= fun _ => serializeMembers node nodes level false rest) := by
        apply (appendBreak_serializing _).seq
        apply (appendString_serializing _).seq
        apply Serializing.get fun _ => rfl
        intro s
        exact (append_serializing _).seq ((hNode _ _).seq (ih false))
      rw [serializeMembers]
      apply Serializing.ite
      · exact (append_serializing _).seq hTail
      · exact hTail

theorem serializeElements_serializing {node : Nat → Nat → SerializerM Unit}
    (hNode : ∀ index level, Serializing (node index level)) (level : Nat) (first : Bool)
    (children : List Nat) :
    Serializing (serializeElements node level first children) := by
  induction children generalizing first with
  | nil =>
      rw [serializeElements]
      exact .done
  | cons child rest ih =>
      have hTail : Serializing (appendBreak (level + 1) >>=
          fun _ => node child (level + 1) >>= fun _ =>
          serializeElements node level false rest) :=
        (appendBreak_serializing _).seq ((hNode _ _).seq (ih false))
      rw [serializeElements]
      apply Serializing.ite
      · exact (append_serializing _).seq hTail
      · exact hTail

theorem serializeObject_serializing {serializeNode : Nat → Nat → SerializerM Unit}
    (hNode : ∀ index level, Serializing (serializeNode index level)) (node : Node) (level : Nat) :
    Serializing (serializeObject serializeNode nodes node level) := by
  apply Serializing.ite (append_serializing _)
  intro s
  let size := node.links.childCount * sizeOfSize
  apply Heeds.request (serializerRequest_eq _)
  · apply Heeds.request (serializerRequest_eq _)
    · exact ((append_serializing _).seq ((serializeMembers_serializing hNode _ _ _).seq
        ((appendBreak_serializing _).seq (append_serializing _)))) _
    · exact ⟨_, [], rfl, Or.inr (Or.inl rfl), rfl⟩
  · -- the second request is made even when the first one was refused
    exact ⟨spent (spent s [size]) [size], [size], rfl, Or.inr (Or.inl rfl), after_after _ _ _⟩

theorem serializeArray_serializing {serializeNode : Nat → Nat → SerializerM Unit}
    (hNode : ∀ index level, Serializing (serializeNode index level)) (node : Node) (level : Nat) :
    Serializing (serializeArray serializeNode nodes node level) := by
  apply Serializing.ite (append_serializing _)
  exact (append_serializing _).seq ((serializeElements_serializing hNode _ _ _).seq
    ((appendBreak_serializing _).seq (append_serializing _)))

theorem serializeNode_serializing (fuel index level : Nat) :
    Serializing (serializeNode nodes fuel index level) := by
  induction fuel generalizing index level with
  | zero => exact fun s => .throw (Or.inr (Or.inr rfl)) nofun
  | succ fuel ih =>
      rw [serializeNode]
      cases (nodes.getD index .blank).type with
      | object => exact serializeObject_serializing ih _ _
      | array => exact serializeArray_serializing ih _ _
      | string => exact appendString_serializing _
      | number => exact append_serializing _
      | boolean => exact append_serializing _
      | null => exact append_serializing _
      | none => exact fun s => .throw (Or.inr (Or.inr rfl)) nofun

end

/-! ### The interface -/

section

variable {w : Writer}

/-- The output so far, when a writer is serialized. -/
def Writer.serializer (w : Writer) : Serializer :=
  { bytes := [], capacity := 0, maximum := w.limits.maximumBytes
    indent := w.flags &&& indentFlag ≠ 0, ascii := w.flags &&& asciiFlag ≠ 0, heap := w.heap }

def serializeRoot (w : Writer) : SerializerM Unit := do
  serializeNode w.nodes w.nodes.length 0 0
  if w.flags &&& finalNewlineFlag ≠ 0 then append [0x0a]

theorem serializeRoot_serializing (w : Writer) : Serializing (serializeRoot w) :=
  (serializeNode_serializing _ _ _).seq (.ite (append_serializing _) .done)

theorem serialize_eq (w : Writer) : serialize w = serializeRoot w w.serializer := rfl

/-- Something is open, or missing. -/
def Writer.Incomplete (w : Writer) : Prop := w.depth ≠ 0 ∨ w.pendingKey.isSome ∨ w.nodes.length = 0

instance (w : Writer) : Decidable w.Incomplete := inferInstanceAs (Decidable (_ ∨ _))

/-- What the finish of a ready writer does. -/
theorem writerFinish_run (h : w.Ready) :
    writerFinish true w =
      if w.Incomplete then .error .errState (w.fail .errState)
      else match serializeRoot w w.serializer with
        | .error r s => .error r (Writer.fail { w with heap := s.heap } r)
        | .ok _ s => .ok s.bytes { w with heap := s.heap, finished := true } := by
  have hRun : writerFinish true w = (do
      let w ← get
      if w.depth ≠ 0 ∨ w.pendingKey.isSome ∨ w.nodes.length = 0 then
        writerFail .errState
      match serialize w with
      | .error result s =>
          set { w with heap := s.heap }
          writerFail result
      | .ok _ s =>
          set { w with heap := s.heap, finished := true }
          return s.bytes : WriterM Bytes) w := bind_of_ok (writerReady_of_ready h)
  rw [hRun, get_bind]
  by_cases hIncomplete : w.Incomplete
  · rw [if_pos hIncomplete]
    exact congrFun (if_pos hIncomplete) w
  · rw [if_neg hIncomplete]
    refine (congrFun (if_neg hIncomplete) w).trans ?_
    rw [serialize_eq]
    cases serializeRoot w w.serializer <;> rfl

theorem writerFinish_heeds (outputsGiven : Bool) (h : w.Steady) :
    Heeds (writerFinish outputsGiven) (fun _ t => t.finished = true) (Answered w) w := by
  cases outputsGiven with
  | false => exact .error rfl (Or.inl ⟨rfl, rfl⟩) rfl nofun rfl
  | true =>
      have hRun := writerFinish_run h.ready
      have hGenerous := writerFinish_run (w := generous w) h.ready
      by_cases hIncomplete : w.Incomplete
      · rw [if_pos hIncomplete] at hRun
        rw [if_pos (show (generous w).Incomplete from hIncomplete)] at hGenerous
        exact .error hRun (Or.inr ⟨nofun, nofun, h.ready.fail _⟩) rfl nofun hGenerous
      rw [if_neg hIncomplete] at hRun
      rw [if_neg (show ¬(generous w).Incomplete from hIncomplete)] at hGenerous
      obtain ⟨sizes, hSerialized⟩ := serializeRoot_serializing w w.serializer
      have hSame : serializeRoot (generous w) (generous w).serializer =
        serializeRoot w (generous w.serializer) := rfl
      rw [hSame] at hGenerous
      refine ⟨sizes, ?_⟩
      rw [hRun, hGenerous]
      cases hRoot : serializeRoot w w.serializer with
      | ok _ s =>
          rw [hRoot] at hSerialized
          obtain ⟨-, hHeap, hGrants, hRoot'⟩ := hSerialized
          rw [hRoot']
          exact ⟨rfl, hHeap, hGrants, rfl⟩
      | error r s =>
          rw [hRoot] at hSerialized
          obtain ⟨hResult, hHeap, hMemory, hRoot'⟩ := hSerialized
          have hLasting : r ≠ .ok ∧ r ≠ .errArgument := by
            rcases hResult with rfl | rfl | rfl <;> decide
          have hReady : Writer.Ready { w with heap := s.heap } := h.ready
          refine ⟨Or.inr ⟨hLasting.1, hLasting.2, hReady.fail r⟩, hHeap, hMemory, fun hNot => ?_⟩
          rw [hRoot' hNot]
          rfl

/-- What becomes of the writer when a copy into it fails. -/
def Interrupted (w : Writer) (r : Result) (t : Writer) : Prop := Answered w r t ∨ Broken r t

theorem Interrupted.of_recorded {r : Result} {t : Writer} (h : Recorded r t) : Interrupted w r t :=
  Or.inl (Or.inr h)

theorem writerValue_heeds (document : Option Document) (value : Nat) (h : w.Steady) :
    Heeds (writerValue document value) (fun _ t => t.Steady) (Interrupted w) w := by
  cases document with
  | none => exact .throw (Or.inl (Or.inl ⟨rfl, rfl⟩)) nofun
  | some document =>
      apply Heeds.ite
      · intro _
        exact .throw_bind (Or.inl (Or.inl ⟨rfl, rfl⟩)) nofun
      · intro _
        have hReady : Heeds writerReady (fun _ t => t = w) (Interrupted w) w :=
          (writerReady_heeds h).mono (fun _ _ h => h) fun _ _ => .of_recorded
        apply hReady.bind
        rintro _ t rfl
        exact (orCopyFailed_heeds (ofCopies_copying.copyValue document _ value) h).mono
          (fun _ _ h => h) fun _ _ h => Or.inr h

theorem writerObjectBeginExcept_heeds (document : Option Document) (object : Nat)
    (excludedKeys : ExcludedKeys) (h : w.Steady) :
    Heeds (writerObjectBeginExcept document object excludedKeys) (fun _ t => t.Steady)
      (Interrupted w) w := by
  have hRefused : Heeds (throw .errArgument : WriterM Unit) (fun _ t => t.Steady)
    (Interrupted w) w :=
    .throw (Or.inl (Or.inl ⟨rfl, rfl⟩)) nofun
  cases document with
  | none => exact hRefused
  | some document =>
      cases hStrings : excludedKeys.strings with
      | none =>
          simp only [writerObjectBeginExcept, hStrings]
          exact hRefused
      | some excluded =>
          simp only [writerObjectBeginExcept, hStrings]
          apply Heeds.ite
          · intro _
            exact .throw_bind (Or.inl (Or.inl ⟨rfl, rfl⟩)) nofun
          · intro _
            have hReady : Heeds writerReady (fun _ t => t = w) (Interrupted w) w :=
              (writerReady_heeds h).mono (fun _ _ h => h) fun _ _ => .of_recorded
            apply hReady.bind
            rintro _ t rfl
            have hBegin : Heeds writerObjectBegin (fun _ t => t.Steady) (Interrupted t) t :=
              (containerBegin_heeds .object h).mono (fun _ _ h => h) fun _ _ => .of_recorded
            apply hBegin.bind
            intro _ u hU
            exact (orCopyFailed_heeds (ofCopies_copying.copyExcept document object excluded)
              hU).mono (fun _ _ h => h) fun _ _ h => Or.inr h

end

namespace WriterCall

variable {w : Writer}

/-- A writer that a call left without an error. -/
def Continues : WriterCall → Writer → Prop
  | .finish _ => fun t => t.finished = true
  | _ => Writer.Steady

/-- What a call may leave when it fails: a copy may break off in the middle. -/
def Ends (c : WriterCall) (w : Writer) (r : Result) (t : Writer) : Prop :=
  Answered w r t ∨ c.copies = true ∧ Broken r t

theorem silent_heeds {x : WriterM Unit} {post : Writer → Prop}
    {fault fault' : Result → Writer → Prop} (h : Heeds x (fun _ t => post t) fault w)
    (hFault : ∀ r t, fault r t → fault' r t) :
    Heeds (silent x) (fun _ t => post t) fault' w :=
  (h.mono (fun _ _ h => h) hFault).bind fun _ _ hPost => .pure _ hPost

/-- How every call of the interface ends. -/
theorem operation_heeds (c : WriterCall) (h : w.Steady) :
    Heeds c.operation (fun _ t => c.Continues t) (c.Ends w) w := by
  have hRecorded (r : Result) (t : Writer) (h : Recorded r t) : Ends c w r t := Or.inl (Or.inr h)
  have hAnswered (r : Result) (t : Writer) (h : Answered w r t) : Ends c w r t := Or.inl h
  have hArgument : Ends c w .errArgument w := Or.inl (Or.inl ⟨rfl, rfl⟩)
  have hInterrupted (hCopies : c.copies = true) (r : Result) (t : Writer) (h : Interrupted w r t) :
    Ends c w r t :=
    h.imp id fun hBroken => ⟨hCopies, hBroken⟩
  cases c with
  | objectBegin => exact silent_heeds (containerBegin_heeds .object h) hRecorded
  | objectEnd => exact silent_heeds (containerEnd_heeds .object h) hRecorded
  | arrayBegin => exact silent_heeds (containerBegin_heeds .array h) hRecorded
  | arrayEnd => exact silent_heeds (containerEnd_heeds .array h) hRecorded
  | key name => exact silent_heeds (writerKey_heeds name h) hAnswered
  | keyCstr name =>
      cases name with
      | none => exact .throw_bind hArgument nofun
      | some bytes => exact silent_heeds (writerKey_heeds (.buffer (cString bytes)) h) hAnswered
  | string text => exact silent_heeds (writerString_heeds text h) hAnswered
  | stringCstr text =>
      cases text with
      | none => exact .throw_bind hArgument nofun
      | some bytes => exact silent_heeds (writerString_heeds (.buffer (cString bytes)) h) hAnswered
  | u64 number => exact silent_heeds (attachScalar_heeds .number _ h) hRecorded
  | i64 number => exact silent_heeds (attachScalar_heeds .number _ h) hRecorded
  | numberText lexeme => exact silent_heeds (writeNumberLexeme_heeds lexeme _ h) hAnswered
  | boolean enabled => exact silent_heeds (attachScalar_heeds .boolean _ h) hRecorded
  | null => exact silent_heeds (attachScalar_heeds .null _ h) hRecorded
  | value document index =>
      exact silent_heeds (writerValue_heeds document index h) (hInterrupted rfl)
  | objectBeginExcept document object excludedKeys =>
      exact silent_heeds (writerObjectBeginExcept_heeds document object excludedKeys h)
        (hInterrupted rfl)
  | finish outputsGiven =>
      exact ((writerFinish_heeds outputsGiven h).mono (fun _ _ h => h) hAnswered).bind
          fun _ _ hFinished =>
        .pure _ hFinished

end WriterCall

end MaelysJson
