import MaelysJson.Copying.Rewriting

/-! The value that a sequence of successful calls builds, copies of parsed documents
included: it is the value whose events the calls add. -/
namespace MaelysJson

open Grammar Heap Run Allocating

/-! ### What a call adds -/

/-- The document is one that a parse returned. -/
def Document.Obtained (document : Document) : Prop :=
  ∃ heap input profile requested errorGiven,
    (documentParse heap input profile requested errorGiven).document = some document

namespace WriterCall

def source : WriterCall → Option Document
  | .value document _ => document
  | .objectBeginExcept document _ _ => document
  | _ => none

/-- What the call copies comes from a parse. -/
def Sourced (c : WriterCall) : Prop := ∀ document, c.source = some document → document.Obtained

/-- The events that the call adds where it succeeds: of a copy, those of the value with its
integers read. -/
def adds : WriterCall → List Event
  | .value (some document) index =>
      match valueTree document document.tokens.length index with
      | .ok t => t.copied.events
      | .error _ => []
  | .objectBeginExcept (some document) object excludedKeys =>
      match valueTree document document.tokens.length object, excludedKeys.strings with
      | .ok (.object members), some excluded => (stepsExcept members excluded).map Event.copied
      | _, _ => []
  | c => c.event.toList

variable {w : Writer} {d : Draft} {c : WriterCall}

/-- A call that succeeds adds its events to the draft. -/
theorem call_adds (hBuilds : w.Builds d) (hSourced : c.Sourced)
    (hNot : ∀ outputsGiven, c ≠ .finish outputsGiven) (hOk : (c.call w).1.result = .ok) :
    ∃ next, Draft.run w.profile w.limits c.adds d = some next ∧ (c.call w).2.Builds next ∧
      (c.call w).2.setup = w.setup := by
  have hCopies {events : List Event} (hMakes : Makes [c] events) :
      ∃ next, Draft.run w.profile w.limits (events.map Event.copied) d = some next ∧
        (c.call w).2.Builds next ∧ (c.call w).2.setup = w.setup := by
    obtain ⟨next, hCopy, hNext, hSetup⟩ := hMakes w d hBuilds (List.forall_mem_singleton.mpr hOk)
    exact ⟨next, (Draft.copyAll_eq_ok.mp hCopy).2, hNext, hSetup⟩
  have hSingle (hSingle : c.Single) (hAdds : c.adds = c.event.toList) :
      ∃ next, Draft.run w.profile w.limits c.adds d = some next ∧ (c.call w).2.Builds next ∧
        (c.call w).2.setup = w.setup := by
    have hCall := c.call_builds hSingle hBuilds
    cases hNext : c.next w.profile w.limits d with
    | none =>
        rw [hNext] at hCall
        exact absurd hOk hCall
    | some next =>
        rw [hNext] at hCall
        obtain ⟨e, hEvent, -, hPermit⟩ := next_eq_some.mp hNext
        refine ⟨next, ?_, hCall.2⟩
        rw [hAdds, hEvent, Option.toList_some, Draft.run, hPermit]
        rfl
  have hRefused {x : WriterM Unit} {r : Result} (hOperation : c.operation = silent x)
      (hRun : x w = .error r w) : r = .ok := by
    rw [call, hOperation, silent, bind_of_error hRun] at hOk
    exact hOk
  cases c with
  | value document value =>
      cases document with
      | none => exact absurd (hRefused rfl rfl) (by simp)
      | some document =>
          have hType : valueType document value ≠ .none := by
            intro hNone
            have hRun : writerValue (some document) value w = .error .errArgument w :=
              congrFun (if_pos hNone) w
            exact absurd (hRefused rfl hRun) (by simp)
          obtain ⟨_, _, _, _, _, hParse⟩ := hSourced document rfl
          obtain ⟨t, hCarries⟩ := documentParse_carries hParse hType
          rw [adds, hCarries.tree]
          dsimp only
          rw [← Tree.map_copied_steps]
          exact hCopies (.call rfl fun w d hBuilds => writerValue_yields hBuilds hCarries)
  | objectBeginExcept document object excludedKeys =>
      cases document with
      | none => exact absurd (hRefused rfl rfl) (by simp)
      | some document =>
          cases hStrings : excludedKeys.strings with
          | none =>
              have hRun : writerObjectBeginExcept (some document) object excludedKeys w =
                  .error .errArgument w := by
                simp only [writerObjectBeginExcept, hStrings]
                rfl
              exact absurd (hRefused rfl hRun) (by simp)
          | some excluded =>
              have hType : valueType document object = .object := by
                by_contra hNot
                have hRun : writerObjectBeginExcept (some document) object excludedKeys w =
                    .error .errArgument w := by
                  simp only [writerObjectBeginExcept, hStrings]
                  exact congrFun (if_pos hNot) w
                exact absurd (hRefused rfl hRun) (by simp)
              obtain ⟨_, _, _, _, _, hParse⟩ := hSourced document rfl
              obtain ⟨t, hCarries⟩ := documentParse_carries hParse (by rw [hType]; simp)
              obtain ⟨members, rfl, -⟩ := hCarries.members hType
              rw [adds, hCarries.tree, hStrings]
              exact hCopies (beginExcept_makes hCarries hType hStrings)
  | finish outputsGiven => exact absurd rfl (hNot outputsGiven)
  | _ => exact hSingle ⟨rfl, (by simp)⟩ rfl

end WriterCall

/-! ### What the calls build -/

/-- A stream that begins with the events of the value begins with those of no other value. -/
def Tree.Parts (t : Tree Numeral) : Prop :=
  ∀ (t' : Tree Numeral) (rest rest' : List Event), t.events ++ rest = t'.events ++ rest' →
    t = t' ∧ rest = rest'

theorem parts_members {members members' : List (Bytes × Tree Numeral)}
    (hParts : ∀ m ∈ members, m.2.Parts) {rest rest' : List Event}
    (h : (members.flatMap fun m => Event.key m.1 :: m.2.events) ++ Event.objectEnd :: rest =
      (members'.flatMap fun m => Event.key m.1 :: m.2.events) ++ Event.objectEnd :: rest') :
    members = members' ∧ rest = rest' := by
  induction members generalizing members' with
  | nil =>
      cases members' with
      | nil => exact ⟨rfl, (List.cons.inj h).2⟩
      | cons m' members' => exact absurd (List.cons.inj h).1 nofun
  | cons m members ih =>
      rw [List.forall_mem_cons] at hParts
      cases members' with
      | nil => exact absurd (List.cons.inj h).1 nofun
      | cons m' members' =>
          simp only [List.flatMap_cons, List.cons_append, List.append_assoc, List.cons.injEq,
            Event.key.injEq] at h
          obtain ⟨hValue, hRest⟩ := hParts.1 _ _ _ h.2
          obtain ⟨rfl, rfl⟩ := ih hParts.2 hRest
          exact ⟨congrArg (· :: members) (Prod.ext h.1 hValue), rfl⟩

theorem events_head (t : Tree Numeral) : ∃ e events, t.events = e :: events ∧ e ≠ .arrayEnd := by
  cases t with
  | object members =>
      rw [Tree.events_object]
      exact ⟨_, _, rfl, nofun⟩
  | array elements =>
      rw [Tree.events_array]
      exact ⟨_, _, rfl, nofun⟩
  | _ => exact ⟨_, _, rfl, nofun⟩

theorem parts_elements {elements elements' : List (Tree Numeral)} (hParts : ∀ v ∈ elements, v.Parts)
    {rest rest' : List Event}
    (h : elements.flatMap Tree.events ++ Event.arrayEnd :: rest = elements'.flatMap Tree.events ++
      Event.arrayEnd :: rest') : elements = elements' ∧ rest = rest' := by
  have hNot (v : Tree Numeral) (elements : List (Tree Numeral)) (tail events : List Event) :
      (v :: elements).flatMap Tree.events ++ tail ≠ Event.arrayEnd :: events := by
    obtain ⟨e, others, hHead, hNot⟩ := events_head v
    rw [List.flatMap_cons, hHead]
    exact fun hSame => hNot (List.cons.inj hSame).1
  induction elements generalizing elements' with
  | nil =>
      cases elements' with
      | nil => exact ⟨rfl, (List.cons.inj h).2⟩
      | cons v' elements' => exact absurd h.symm (hNot v' elements' _ _)
  | cons v elements ih =>
      rw [List.forall_mem_cons] at hParts
      cases elements' with
      | nil => exact absurd h (hNot v elements _ _)
      | cons v' elements' =>
          rw [List.flatMap_cons, List.flatMap_cons, List.append_assoc, List.append_assoc] at h
          obtain ⟨rfl, hRest⟩ := hParts.1 _ _ _ h
          obtain ⟨rfl, rfl⟩ := ih hParts.2 hRest
          exact ⟨rfl, rfl⟩

/-- The events tell values apart. -/
theorem Tree.parts (t : Tree Numeral) : t.Parts := by
  induction t with
  | object members ih =>
      intro t' rest rest' h
      cases t' with
      | object members' =>
          simp only [events_object, List.cons_append, List.append_assoc, List.cons.injEq, true_and,
            List.nil_append] at h
          obtain ⟨rfl, hRest⟩ := parts_members ih h
          exact ⟨rfl, hRest⟩
      | array elements' => simp [events_object, events_array] at h
      | _ => simp [events, fold] at h
  | array elements ih =>
      intro t' rest rest' h
      cases t' with
      | array elements' =>
          simp only [events_array, List.cons_append, List.append_assoc, List.cons.injEq, true_and,
            List.nil_append] at h
          obtain ⟨rfl, hRest⟩ := parts_elements ih h
          exact ⟨rfl, hRest⟩
      | object members' => simp [events_object, events_array] at h
      | _ => simp [events, fold] at h
  | _ =>
      intro t' rest rest' h
      cases t' <;> simp [events, fold] at h ⊢
      exact h

/-- The value that the calls build. -/
def Built (calls : List WriterCall) (t : Tree Numeral) : Prop :=
  calls.flatMap WriterCall.adds = t.events

theorem Built.unique {calls : List WriterCall} {t t' : Tree Numeral} (h : Built calls t)
    (h' : Built calls t') : t = t' := by
  have hSame : t.events ++ [] = t'.events ++ [] := by rw [← h, ← h']
  exact (t.parts t' [] [] hSame).1

/-- Calls that succeed add their events one after another. -/
theorem callAll_adds {w : Writer} {d : Draft} (hBuilds : w.Builds d) {calls : List WriterCall}
    (hSourced : ∀ c ∈ calls, c.Sourced)
    (hOk : ∀ returned ∈ (callAll calls w).1, returned.result = .ok)
    (hReady : (callAll calls w).2.Ready) :
    ∃ next, Draft.run w.profile w.limits (calls.flatMap WriterCall.adds) d = some next ∧
      (callAll calls w).2.Builds next ∧ (callAll calls w).2.setup = w.setup := by
  induction calls generalizing w d with
  | nil => exact ⟨d, rfl, hBuilds, rfl⟩
  | cons c calls ih =>
      rw [callAll, List.forall_mem_cons] at hOk
      rw [List.forall_mem_cons] at hSourced
      have hFirst : (c.call w).2.Ready := by
        by_contra hNot
        rw [callAll, (callAll_not_ready hNot calls).2] at hReady
        exact hNot hReady
      have hNot (outputsGiven : Bool) : c ≠ .finish outputsGiven := by
        rintro rfl
        obtain ⟨_, hHeeded⟩ :=
          (WriterCall.finish outputsGiven).call_heeded ⟨hBuilds.ready, hBuilds.tables.sized⟩
        exact absurd ((hHeeded.continues hOk.1).symm.trans hFirst.2) (by simp)
      obtain ⟨next, hRun, hNext, hSetup⟩ := c.call_adds hBuilds hSourced.1 hNot hOk.1
      obtain ⟨last, hRest, hLast, hSame⟩ := ih hNext hSourced.2 hOk.2 hReady
      have hProfile : (c.call w).2.profile = w.profile := congrArg Prod.fst hSetup
      have hLimits : (c.call w).2.limits = w.limits := congrArg (fun setup => setup.2.1) hSetup
      rw [hProfile, hLimits] at hRest
      rw [List.flatMap_cons]
      exact ⟨last, Draft.run_append.mpr ⟨next, hRun, hRest⟩, hLast, hSame.trans hSetup⟩

/-- What a finish returns that succeeds, if with all the memory it asks for the writer is
complete. -/
theorem finish_complete {w : Writer} (hSound : w.Sound) {profile : Profile}
    {requested : Option Limits} {limits : Limits} {flags : UInt32} {d : Draft}
    (hLimits : limitsResolve requested = .ok limits)
    (hSetup : (generous w).setup = (profile, limits, flags)) (hBuilds : (generous w).Builds d)
    (hFinish : ((WriterCall.finish true).call w).1.result = .ok) :
    ∃ t, d = .complete t ∧ (t.uniqueKeys = true → (t.Every Utf8.Valid fun _ => True) →
      ((WriterCall.finish true).call w).1.output = some (outputOf flags t.json) ∧
        (outputOf flags t.json).length ≤ limits.maximumBytes) := by
  have hFinished := ((WriterCall.finish true).call_refused hSound).2.2 (by rw [hFinish]; nofun)
  have hSame : (generous w).flags = flags := congrArg (fun setup => setup.2.2) hSetup
  have hSameLimits : (generous w).limits = limits := congrArg (fun setup => setup.2.1) hSetup
  have hBytes : (generous w).limits.maximumBytes < sizeMax / 2 := by
    rw [hSameLimits]
    exact (limitsResolve_ok hLimits).1
  have hOk : ((WriterCall.finish true).call (generous w)).1.result = .ok := by
    rw [hFinished]
    exact hFinish
  obtain ⟨t, rfl⟩ : ∃ t, d = .complete t := by
    by_contra hNot
    exact finish_incomplete hBuilds (fun t hSame => hNot ⟨t, hSame⟩) hOk
  refine ⟨t, rfl, fun hUnique hValid => ?_⟩
  have hAccepted := @finish_accepted (generous w) hBytes t hBuilds hUnique hValid
  have hOutput := hAccepted.2 hOk
  have hFits := hAccepted.1.mp hOk
  rw [hFinished, hSame] at hOutput
  rw [hSame, hSameLimits] at hFits
  exact ⟨hOutput, hFits⟩

/-- A created writer on which all calls succeed, up to the finish, has built a value, and the
finish returns its spelling. -/
theorem finish_built {heap h : Heap} {profile : Profile} {requested : Option Limits}
    {flags : UInt32} {w : Writer} (hCreate : writerCreate heap profile requested flags = (.ok w, h))
    {calls : List WriterCall} (hSourced : ∀ c ∈ calls, c.Sourced)
    (hOk : ∀ returned ∈ (callAll calls w).1, returned.result = .ok)
    (hFinish : ((WriterCall.finish true).call (callAll calls w).2).1.result = .ok) :
    ∃ t limits, limitsResolve requested = .ok limits ∧ Built calls t ∧
      t.Admitted profile limits [] ∧ profile ≠ .rfc8259LastWins ∧
      ((WriterCall.finish true).call (callAll calls w).2).1.output = some (outputOf flags t.json) ∧
      (outputOf flags t.json).length ≤ limits.maximumBytes := by
  obtain ⟨limits, hLimits, -⟩ := writerCreate_eq_ok.mp hCreate
  obtain ⟨hCreated, hSetup₀⟩ :=
    writerCreate_builds heap.unlimited_generous hLimits (writerCreate_generous hCreate)
  have hSound : w.Sound := fun _ => writerCreate_steady hCreate
  have hMemory : ∀ returned ∈ (callAll calls w).1, returned.result ≠ .errMemory := by
    intro returned hMem
    rw [hOk returned hMem]
    nofun
  have hGenerous := callAll_generous hSound hMemory
  have hReady : (callAll calls w).2.Ready := WriterCall.ready_of_ok hFinish
  obtain ⟨d, hRun, hBuilds, hSetup⟩ := callAll_adds hCreated hSourced (by rw [hGenerous]; exact hOk)
    (by rw [hGenerous]; exact hReady)
  rw [hGenerous] at hBuilds hSetup
  obtain ⟨t, rfl, hOutput⟩ :=
    finish_complete (callAll_sound hSound calls) hLimits (hSetup.trans hSetup₀) hBuilds hFinish
  have hProfile₀ : (generous w).profile = profile := congrArg Prod.fst hSetup₀
  have hLimits₀ : (generous w).limits = limits := congrArg (fun setup => setup.2.1) hSetup₀
  rw [hProfile₀, hLimits₀] at hRun
  obtain ⟨hEvents, hAdmitted⟩ := Draft.run_complete.mp hRun
  obtain ⟨_, _, hProfile, -⟩ := writerCreate_eq_ok.mp hCreate
  exact ⟨t, limits, hLimits, hEvents, hAdmitted, hProfile, hOutput hAdmitted.unique hAdmitted.valid⟩

end MaelysJson
