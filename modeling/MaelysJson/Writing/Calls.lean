import MaelysJson.Code.Serialize
import MaelysJson.General.Run

/-! Sequences of writer calls. The failure of a call is sticky: a writer is ready, or it
has failed or finished and stays as it is. -/
namespace MaelysJson

open Run

/-- A call of the writer's interface with its arguments. `finish` is told whether both
output pointers are given. -/
inductive WriterCall where
  | objectBegin
  | objectEnd
  | arrayBegin
  | arrayEnd
  | key (key : CText)
  | keyCstr (key : Option Bytes)
  | string (value : CText)
  | stringCstr (value : Option Bytes)
  | u64 (value : UInt64)
  | i64 (value : Int64)
  | numberText (lexeme : CText)
  | boolean (enabled : Int)
  | null
  | value (document : Option Document) (value : Nat)
  | objectBeginExcept (document : Option Document) (object : Nat) (excludedKeys : ExcludedKeys)
  | finish (outputsGiven : Bool)

/-- What a caller sees of a call: the result, and the bytes that a finish delivers. -/
structure Returned where
  result : Result
  output : Option Bytes
  deriving DecidableEq, Repr

namespace WriterCall

/-- The calls other than `finish` deliver no bytes. -/
def silent (operation : WriterM Unit) : WriterM (Option Bytes) := operation >>= fun _ => pure none

def operation : WriterCall → WriterM (Option Bytes)
  | .objectBegin => silent writerObjectBegin
  | .objectEnd => silent writerObjectEnd
  | .arrayBegin => silent writerArrayBegin
  | .arrayEnd => silent writerArrayEnd
  | .key name => silent (writerKey name)
  | .keyCstr name => silent (writerKeyCstr name)
  | .string text => silent (writerString text)
  | .stringCstr text => silent (writerStringCstr text)
  | .u64 number => silent (writerU64 number)
  | .i64 number => silent (writerI64 number)
  | .numberText lexeme => silent (writerNumberText lexeme)
  | .boolean enabled => silent (writerBoolean enabled)
  | .null => silent writerNull
  | .value document index => silent (writerValue document index)
  | .objectBeginExcept document object excludedKeys =>
      silent (writerObjectBeginExcept document object excludedKeys)
  | .finish outputsGiven => writerFinish outputsGiven >>= fun bytes => pure (some bytes)

/-- Whether the call copies from a document. -/
def copies : WriterCall → Bool
  | .value _ _ => true
  | .objectBeginExcept _ _ _ => true
  | _ => false

def call (c : WriterCall) (w : Writer) : Returned × Writer :=
  match c.operation w with
  | .ok output w => (⟨.ok, output⟩, w)
  | .error result w => (⟨result, none⟩, w)

end WriterCall

/-- The calls one after another. -/
def callAll : List WriterCall → Writer → List Returned × Writer
  | [], w => ([], w)
  | c :: calls, w =>
      ((c.call w).1 :: (callAll calls (c.call w).2).1, (callAll calls (c.call w).2).2)

theorem callAll_append (calls calls' : List WriterCall) (w : Writer) :
    callAll (calls ++ calls') w =
      ((callAll calls w).1 ++ (callAll calls' (callAll calls w).2).1,
        (callAll calls' (callAll calls w).2).2) := by
  induction calls generalizing w with
  | nil => rfl
  | cons c calls ih => simp only [List.cons_append, callAll, ih]

/-! ### Readiness -/

/-- Neither failed nor finished. -/
def Writer.Ready (w : Writer) : Prop := w.failure = .ok ∧ w.finished = false

instance (w : Writer) : Decidable w.Ready := inferInstanceAs (Decidable (_ ∧ _))

theorem writerReady_of_ready {w : Writer} (h : w.Ready) : writerReady w = .ok () w := by
  have hReady : ¬(w.finished = true ∨ w.failure ≠ .ok) := by
    rw [not_or, not_not, Bool.not_eq_true]
    exact ⟨h.2, h.1⟩
  exact if_neg hReady

theorem writerReady_of_not_ready {w : Writer} (h : ¬w.Ready) :
    writerReady w = .error .errState w := by
  have hReady : w.finished = true ∨ w.failure ≠ .ok := by
    by_contra hNot
    rw [not_or, not_not, Bool.not_eq_true] at hNot
    exact h ⟨hNot.2, hNot.1⟩
  exact if_pos hReady

section

variable {w : Writer}

/-- The arguments are refused before the state of the writer is looked at. -/
def WriterCall.misused (profile : Profile) : WriterCall → Bool
  | .key name => !validText profile name
  | .keyCstr name => name.all fun bytes => !validText profile (.buffer (cString bytes))
  | .string text => !validText profile text
  | .stringCstr text => text.all fun bytes => !validText profile (.buffer (cString bytes))
  | .numberText (.null _) => true
  | .numberText (.buffer lexeme) => lexeme.length > maximumNumberText ∨ !numberSyntax lexeme
  | .value document index => document.all fun document => valueType document index = .none
  | .objectBeginExcept document object excludedKeys =>
      document.all fun document => excludedKeys.strings.isNone ||
        valueType document object ≠ .object
  | .finish outputsGiven => !outputsGiven
  | _ => false

/-- The result of a call that checks its arguments and then the state. -/
def refusal (misused : Bool) : Result := if misused then .errArgument else .errState

/-- The operation fails with this result and leaves the writer alone. -/
def Rejects {α : Type} (x : WriterM α) (w : Writer) (misused : Bool) : Prop :=
  x w = .error (refusal misused) w

namespace Rejects

variable {α β : Type} {x y : WriterM α} {misused : Bool}

theorem argument : Rejects (throw .errArgument : WriterM α) w true := rfl

theorem argument_bind (f : α → WriterM β) :
    Rejects ((throw .errArgument : WriterM α) >>= f) w true :=
  rfl

theorem ready (hReady : ¬w.Ready) (f : Unit → WriterM α) : Rejects (writerReady >>= f) w false :=
  bind_of_error (writerReady_of_not_ready hReady)

theorem bind (h : Rejects x w misused) (f : α → WriterM β) : Rejects (x >>= f) w misused :=
  bind_of_error h

theorem of_get {f : Writer → WriterM α} (h : Rejects (f w) w misused) :
    Rejects (get >>= f) w misused :=
  h

/-- The check of the arguments stands before the rest. -/
theorem guarded {c : Bool} (hx : Rejects x w true) (hy : c = false → Rejects y w false) :
    Rejects (if c = true then x else y) w c := by
  cases c with
  | true => exact hx
  | false => exact hy rfl

theorem guarded_prop {c : Prop} [Decidable c] (hx : Rejects x w true)
    (hy : decide c = false → Rejects y w false) :
    Rejects (if c then x else y) w (decide c) := by
  by_cases hc : c
  · rw [if_pos hc, decide_eq_true hc]
    exact hx
  · rw [if_neg hc, decide_eq_false hc]
    exact hy (decide_eq_false hc)

end Rejects

theorem writerKey_rejects {name : CText} (h : (!validText w.profile name) = false → ¬w.Ready) :
    Rejects (writerKey name) w (!validText w.profile name) := by
  apply Rejects.of_get
  exact .guarded (.argument_bind _) fun hValid => .ready (h hValid) _

theorem writerString_rejects {text : CText} (h : (!validText w.profile text) = false → ¬w.Ready) :
    Rejects (writerString text) w (!validText w.profile text) := by
  apply Rejects.of_get
  exact .guarded (.argument_bind _) fun hValid => .ready (h hValid) _

/-- A call with refused arguments, or on a writer that is not ready, leaves the writer alone; what
it returns depends on the arguments. -/
theorem WriterCall.operation_rejects (c : WriterCall) (h : c.misused w.profile = false → ¬w.Ready) :
    Rejects c.operation w (c.misused w.profile) := by
  cases c with
  | objectBegin => exact (Rejects.ready (h rfl) _).bind _
  | objectEnd => exact (Rejects.ready (h rfl) _).bind _
  | arrayBegin => exact (Rejects.ready (h rfl) _).bind _
  | arrayEnd => exact (Rejects.ready (h rfl) _).bind _
  | key name => exact (writerKey_rejects h).bind _
  | keyCstr name =>
      cases name with
      | none => exact .argument
      | some bytes => exact (writerKey_rejects h).bind _
  | string text => exact (writerString_rejects h).bind _
  | stringCstr text =>
      cases text with
      | none => exact .argument
      | some bytes => exact (writerString_rejects h).bind _
  | u64 number => exact (Rejects.ready (h rfl) _).bind _
  | i64 number => exact (Rejects.ready (h rfl) _).bind _
  | numberText lexeme =>
      cases lexeme with
      | null size => exact .argument
      | buffer bytes =>
          apply Rejects.bind
          exact .guarded_prop (.argument_bind _) fun hSyntax => .ready (h hSyntax) _
  | boolean enabled => exact (Rejects.ready (h rfl) _).bind _
  | null => exact (Rejects.ready (h rfl) _).bind _
  | value document index =>
      cases document with
      | none => exact .argument
      | some document =>
          apply Rejects.bind
          exact .guarded_prop (.argument_bind _) fun hHandle => .ready (h hHandle) _
  | objectBeginExcept document object excludedKeys =>
      apply Rejects.bind
      cases document with
      | none => exact .argument
      | some document =>
          rw [WriterCall.misused] at h ⊢
          cases hStrings : excludedKeys.strings with
          | none =>
              simp only [writerObjectBeginExcept, hStrings]
              exact .argument
          | some excluded =>
              rw [hStrings] at h
              simp only [writerObjectBeginExcept, hStrings]
              exact .guarded_prop (.argument_bind _) fun hObject => .ready (h hObject) _
  | finish outputsGiven =>
      apply Rejects.bind
      exact .guarded (.argument_bind _) fun hOutputs => .ready (h hOutputs) _

theorem WriterCall.call_rejected (c : WriterCall) (h : c.misused w.profile = false → ¬w.Ready) :
    c.call w = (⟨refusal (c.misused w.profile), none⟩, w) := by
  have hRun := c.operation_rejects h
  rw [Rejects] at hRun
  rw [WriterCall.call, hRun]

/-- Refused arguments leave any writer alone. -/
theorem WriterCall.call_misused {c : WriterCall} (h : c.misused w.profile = true) :
    (c.call w).2 = w :=
  congrArg Prod.snd (c.call_rejected fun hValid => absurd (h.symm.trans hValid) (by decide))

section

variable (hReady : ¬w.Ready)
include hReady

/-- What a call on such a writer returns; what the heap would grant has no part in that. -/
theorem WriterCall.call_not_ready (c : WriterCall) :
    ∃ r, (r = .errState ∨ r = .errArgument) ∧ ∀ heap,
      c.call { w with heap } = (⟨r, none⟩, { w with heap }) := by
  refine ⟨refusal (c.misused w.profile), ?_,
    fun heap => @WriterCall.call_rejected { w with heap } c fun _ => hReady⟩
  cases c.misused w.profile with
  | true => exact Or.inr rfl
  | false => exact Or.inl rfl

theorem WriterCall.call_same (c : WriterCall) : (c.call w).2 = w := by
  obtain ⟨r, -, hRun⟩ := c.call_not_ready hReady
  exact congrArg Prod.snd (hRun w.heap)

theorem callAll_not_ready (calls : List WriterCall) :
    (∀ returned ∈ (callAll calls w).1,
        (returned.result = .errState ∨ returned.result = .errArgument) ∧ returned.output = none) ∧
      (callAll calls w).2 = w := by
  induction calls with
  | nil => exact ⟨nofun, rfl⟩
  | cons c calls ih =>
      obtain ⟨r, hResult, hRun⟩ := c.call_not_ready hReady
      have hCall : c.call w = (⟨r, none⟩, w) := hRun w.heap
      simp only [callAll, hCall]
      exact ⟨List.forall_mem_cons.mpr ⟨⟨hResult, rfl⟩, ih.1⟩, ih.2⟩

end

theorem WriterCall.ready_of_ok {c : WriterCall} (hOk : (c.call w).1.result = .ok) : w.Ready := by
  by_contra hNot
  obtain ⟨r, hRefusal, hCall⟩ := c.call_not_ready hNot
  have hSame := congrArg (fun ended => ended.1.result) (hCall w.heap)
  rcases hRefusal with rfl | rfl
  · exact absurd (hOk.symm.trans hSame) nofun
  · exact absurd (hOk.symm.trans hSame) nofun

end

end MaelysJson
