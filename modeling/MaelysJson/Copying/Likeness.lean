import MaelysJson.Copying.Drafts

/-! Drafts that differ in the order of members only. The same events keep them so, and in
the end both writers finish the same bytes. -/
namespace MaelysJson

open Run Utf8

/-! ### Drafts -/

/-- The same container, up to the order of members inside it. -/
inductive Hole.Like : Hole → Hole → Prop where
  | object {members members' : List (Bytes × Tree Numeral)} (key : Bytes)
      (h : Tree.Reordered (.object members) (.object members')) :
      Like (.object members key) (.object members' key)
  | array {elements elements' : List (Tree Numeral)}
      (h : Tree.Reordered (.array elements) (.array elements')) :
      Like (.array elements) (.array elements')

inductive Focus.Like : Focus → Focus → Prop where
  | object {members members' : List (Bytes × Tree Numeral)} (pending : Option Bytes)
      (h : Tree.Reordered (.object members) (.object members')) :
      Like (.object members pending) (.object members' pending)
  | array {elements elements' : List (Tree Numeral)}
      (h : Tree.Reordered (.array elements) (.array elements')) :
      Like (.array elements) (.array elements')

inductive Draft.Like : Draft → Draft → Prop where
  | empty : Like .empty .empty
  | growing {focus focus' : Focus} {holes holes' : List Hole} (h : focus.Like focus')
      (hHoles : List.Forall₂ Hole.Like holes holes') :
      Like (.growing focus holes) (.growing focus' holes')
  | complete {root root' : Tree Numeral} (h : Tree.Reordered root root') :
      Like (.complete root) (.complete root')

theorem Hole.Like.refl (hole : Hole) : hole.Like hole := by
  cases hole with
  | object members key => exact .object key (.refl _)
  | array elements => exact .array (.refl _)

theorem Hole.Like.fill {hole hole' : Hole} (h : hole.Like hole') {v v' : Tree Numeral}
    (hv : Tree.Reordered v v') :
    (hole.fill v).Like (hole'.fill v') := by
  cases h with
  | object key h => exact .object none (h.grow key hv)
  | array h => exact .array (h.grow [] hv)

theorem Focus.Like.refl (focus : Focus) : focus.Like focus := by
  cases focus with
  | object members pending => exact .object pending (.refl _)
  | array elements => exact .array (.refl _)

namespace Draft

variable {d d' next next' : Draft} {v v' : Tree Numeral}

theorem Like.close {holes holes' : List Hole} (hHoles : List.Forall₂ Hole.Like holes holes')
    (hv : Tree.Reordered v v') :
    (close v holes).Like (close v' holes') := by
  cases hHoles with
  | nil => exact .complete hv
  | cons hHole hHoles => exact .growing (hHole.fill hv) hHoles

theorem Like.room {holes holes' : List Hole} (h : d.Like d') (hRoom : d.room = some holes)
    (hRoom' : d'.room = some holes') : List.Forall₂ Hole.Like holes holes' := by
  cases h with
  | empty =>
      cases hRoom
      cases hRoom'
      exact .nil
  | growing hFocus hHoles =>
      obtain ⟨hole, hHole, rfl⟩ := Option.map_eq_some_iff.mp hRoom
      obtain ⟨hole', hHole', rfl⟩ := Option.map_eq_some_iff.mp hRoom'
      refine .cons ?_ hHoles
      cases hFocus with
      | object pending h =>
          obtain ⟨key, rfl, rfl⟩ := Option.map_eq_some_iff.mp hHole
          cases hHole'
          exact .object key h
      | array h =>
          cases hHole
          cases hHole'
          exact .array h
  | complete h => cases hRoom

/-- The next event leaves like drafts alike. -/
theorem Like.step (h : d.Like d') {e : Event} (hStep : d.step e = some next)
    (hStep' : d'.step e = some next') :
    next.Like next' := by
  have hAdd {t : Tree Numeral} (hAdd : d.add t = some next) (hAdd' : d'.add t = some next') :
      next.Like next' := by
    obtain ⟨holes, hRoom, rfl⟩ := Option.map_eq_some_iff.mp hAdd
    obtain ⟨holes', hRoom', rfl⟩ := Option.map_eq_some_iff.mp hAdd'
    exact .close (h.room hRoom hRoom') (.refl t)
  have hEnter {focus : Focus} (hEnter : d.enter focus = some next)
      (hEnter' : d'.enter focus = some next') : next.Like next' := by
    obtain ⟨holes, hRoom, rfl⟩ := Option.map_eq_some_iff.mp hEnter
    obtain ⟨holes', hRoom', rfl⟩ := Option.map_eq_some_iff.mp hEnter'
    exact .growing (.refl focus) (h.room hRoom hRoom')
  cases e with
  | objectBegin => exact hEnter hStep hStep'
  | arrayBegin => exact hEnter hStep hStep'
  | string text => exact hAdd hStep hStep'
  | number numeral => exact hAdd hStep hStep'
  | boolean value => exact hAdd hStep hStep'
  | null => exact hAdd hStep hStep'
  | objectEnd =>
      rcases h with _ | ⟨⟨_ | pending, hMembers⟩ | hElements, hHoles⟩ | hRoot
      · cases hStep
      · cases hStep
        cases hStep'
        exact .close hHoles hMembers
      · cases hStep
      · cases hStep
      · cases hStep
  | arrayEnd =>
      rcases h with _ | ⟨⟨pending, hMembers⟩ | hElements, hHoles⟩ | hRoot
      · cases hStep
      · cases hStep
      · cases hStep
        cases hStep'
        exact .close hHoles hElements
      · cases hStep
  | key name =>
      rcases h with _ | ⟨⟨_ | pending, hMembers⟩ | hElements, hHoles⟩ | hRoot
      · cases hStep
      · rw [Draft.step] at hStep hStep'
        split_ifs at hStep hStep'
        cases hStep
        cases hStep'
        exact .growing (.object (some name) hMembers) hHoles
      · cases hStep
      · cases hStep
      · cases hStep

end Draft

/-! ### Writers -/

/-- Two writers of like drafts. -/
structure Writer.Alike (w w' : Writer) : Prop where
  drafts : ∃ d d', w.Builds d ∧ w'.Builds d' ∧ d.Legal w.profile w.limits ∧
    d'.Legal w'.profile w'.limits ∧ d.Like d'
  setup : w.setup = w'.setup
  bytes : w.limits.maximumBytes < sizeMax / 2

/-- Where the program succeeds on both of two writers, they stay alike. -/
def Mirrors (x : WriterM Unit) : Prop :=
  ∀ ⦃w w' : Writer⦄, w.Alike w' → ∀ t t', x w = .ok () t → x w' = .ok () t' → t.Alike t'

theorem Draft.Legal.congr {d : Draft} {w t : Writer} (h : d.Legal w.profile w.limits)
    (hSetup : t.setup = w.setup) :
    d.Legal t.profile t.limits := by
  have hProfile : t.profile = w.profile := congrArg Prod.fst hSetup
  have hLimits : t.limits = w.limits := congrArg (fun setup => setup.2.1) hSetup
  rwa [hProfile, hLimits]

/-- One event, done to both. -/
theorem Writer.Alike.permit {w w' t t' : Writer} (hAlike : w.Alike w') {e : Event}
    (h : ∀ d, w.Builds d → ∃ next, d.permit w.profile w.limits e = some next ∧ t.Builds next ∧
      t.setup = w.setup)
    (h' : ∀ d, w'.Builds d → ∃ next, d.permit w'.profile w'.limits e = some next ∧ t'.Builds next ∧
      t'.setup = w'.setup) : t.Alike t' := by
  obtain ⟨⟨d, d', hBuilds, hBuilds', hLegal, hLegal', hLike⟩, hSame, hBytes⟩ := hAlike
  obtain ⟨next, hPermit, hNext, hSetup⟩ := h d hBuilds
  obtain ⟨next', hPermit', hNext', hSetup'⟩ := h' d' hBuilds'
  have hLimits : t.limits = w.limits := congrArg (fun setup => setup.2.1) hSetup
  refine ⟨⟨next, next', hNext, hNext', (hLegal.permit hPermit).congr hSetup,
    (hLegal'.permit hPermit').congr hSetup', ?_⟩, hSetup.trans (hSame.trans hSetup'.symm), by
      rw [hLimits]; exact hBytes⟩
  rw [Draft.permit] at hPermit hPermit'
  split_ifs at hPermit hPermit'
  exact hLike.step hPermit hPermit'

namespace Mirrors

theorem seq {x y : WriterM Unit} (hx : Mirrors x) (hy : Mirrors y) :
    Mirrors (x >>= fun _ => y) := by
  intro w w' hAlike t t' hRun hRun'
  obtain ⟨_, u, hFirst, hSecond⟩ := bind_eq_ok.mp hRun
  obtain ⟨_, u', hFirst', hSecond'⟩ := bind_eq_ok.mp hRun'
  exact hy (hx hAlike u u' hFirst hFirst') t t' hSecond hSecond'

theorem of_records {x : WriterM Unit} {e : Event} (h : Records x e) : Mirrors x := by
  intro w w' hAlike t t' hRun hRun'
  apply hAlike.permit
  · exact fun d hBuilds => h w d hBuilds t hRun
  · exact fun d hBuilds => h w' d hBuilds t' hRun'

/-- Every call that copies leaves like writers alike, whatever it copies. -/
theorem ofCalls : OfCalls Mirrors where
  toOfCopies := by
    apply OfCopies.of_records
    · intro w w' hAlike t t' hRun hRun'
      cases hRun
      cases hRun'
      exact hAlike
    · exact .seq
    · exact fun _ _ _ _ _ _ hRun => nomatch hRun
    · exact fun h => .of_records h
  recovered := by
    intro x h w w' hAlike t t' hRun hRun'
    have hCopy {w t : Writer} (hRun : orCopyFailed x w = .ok () t) : x w = .ok () t := by
      rw [orCopyFailed] at hRun
      cases hCopy : x w with
      | error r u =>
          rw [hCopy] at hRun
          simp only [copyFailed] at hRun
          split_ifs at hRun
          cases hRun
      | ok _ u =>
          rw [hCopy] at hRun
          exact hRun
    exact h hAlike t t' (hCopy hRun) (hCopy hRun')
  ready := by
    intro x h w w' hAlike t t' hRun hRun'
    obtain ⟨d, d', hBuilds, hBuilds', -⟩ := hAlike.drafts
    rw [bind_of_ok (writerReady_of_ready hBuilds.ready)] at hRun
    rw [bind_of_ok (writerReady_of_ready hBuilds'.ready)] at hRun'
    exact h hAlike t t' hRun hRun'

end Mirrors

/-! ### Calls -/

namespace WriterCall

variable {w w' : Writer} {c : WriterCall}

/-- Every call but the finish returns no bytes. -/
theorem output_none (hNot : ∀ outputsGiven, c ≠ .finish outputsGiven) :
    (c.call w).1.output = none := by
  have hSilent : ∃ x, c.operation = silent x := by
    cases c with
    | finish outputsGiven => exact absurd rfl (hNot outputsGiven)
    | _ => exact ⟨_, rfl⟩
  obtain ⟨x, hOperation⟩ := hSilent
  rw [call, hOperation, silent]
  cases hRun : x w with
  | ok _ t => rw [bind_of_ok hRun]; rfl
  | error r t => rw [bind_of_error hRun]

/-- A call that copies and succeeds is the run of its program. -/
theorem call_ok {x : WriterM Unit} {d : Draft} (hOperation : c.operation = silent x)
    (hBuilds : w.Builds d) (hOk : (c.call w).1.result = .ok) : x w = .ok () (c.call w).2 := by
  cases hRun : x w with
  | ok _ t =>
      rw [call, hOperation, silent, bind_of_ok hRun]
      rfl
  | error r t =>
      have hFailed : c.operation w = .error r t := by rw [hOperation, silent, bind_of_error hRun]
      obtain ⟨_, hHeeds⟩ := c.operation_heeds ⟨hBuilds.ready, hBuilds.tables.sized⟩
      rw [hFailed] at hHeeds
      rw [call, hFailed] at hOk
      exact absurd hOk hHeeds.1.failed

/-- A call other than the finish that succeeds on both of two writers leaves them alike. -/
theorem call_alike (hNot : ∀ outputsGiven, c ≠ .finish outputsGiven) (hAlike : w.Alike w')
    (hOk : (c.call w).1.result = .ok) (hOk' : (c.call w').1.result = .ok) :
    (c.call w).2.Alike (c.call w').2 := by
  have hSilent {x : WriterM Unit} (hOperation : c.operation = silent x) (hMirrors : Mirrors x) :
      (c.call w).2.Alike (c.call w').2 := by
    obtain ⟨d, d', hBuilds, hBuilds', -⟩ := hAlike.drafts
    exact hMirrors hAlike _ _ (call_ok hOperation hBuilds hOk) (call_ok hOperation hBuilds' hOk')
  have hSingle (hSingle : c.Single) : (c.call w).2.Alike (c.call w').2 := by
    have hEvent {w : Writer} (hOk : (c.call w).1.result = .ok) (d : Draft) (hBuilds : w.Builds d) :
        ∃ e next, c.event = some e ∧ d.permit w.profile w.limits e = some next ∧
          (c.call w).2.Builds next ∧ (c.call w).2.setup = w.setup := by
      have hCall := c.call_builds hSingle hBuilds
      cases hNext : c.next w.profile w.limits d with
      | none =>
          rw [hNext] at hCall
          exact absurd hOk hCall
      | some next =>
          rw [hNext] at hCall
          obtain ⟨e, hEvent, -, hPermit⟩ := next_eq_some.mp hNext
          exact ⟨e, next, hEvent, hPermit, hCall.2⟩
    obtain ⟨d, d', hBuilds, hBuilds', -⟩ := hAlike.drafts
    obtain ⟨e, -, hSame, -⟩ := hEvent hOk d hBuilds
    apply hAlike.permit
    · intro d hBuilds
      obtain ⟨e', next, hSame', hNext⟩ := hEvent hOk d hBuilds
      obtain rfl : e = e' := Option.some.inj (hSame.symm.trans hSame')
      exact ⟨next, hNext⟩
    · intro d hBuilds
      obtain ⟨e', next, hSame', hNext⟩ := hEvent hOk' d hBuilds
      obtain rfl : e = e' := Option.some.inj (hSame.symm.trans hSame')
      exact ⟨next, hNext⟩
  cases c with
  | value document index => exact hSilent rfl (Mirrors.ofCalls.writerValue document index)
  | objectBeginExcept document object excludedKeys =>
      exact hSilent rfl (Mirrors.ofCalls.writerObjectBeginExcept document object excludedKeys)
  | finish outputsGiven => exact absurd rfl (hNot outputsGiven)
  | _ => exact hSingle ⟨rfl, nofun⟩

end WriterCall

/-! ### Finished bytes -/

theorem Tree.Admitted.valid {profile : Profile} {limits : Limits} {holes : List Hole}
    {t : Tree Numeral} (h : t.Admitted profile limits holes) : t.Every Valid fun _ => True :=
  h.every.imp (fun _ hText => ((validText_iff _ _).mp hText.1).valid) fun _ _ => trivial

theorem outputOf_reordered {flags : UInt32} {profile : Profile} {limits : Limits}
    {t t' : Tree Numeral} (h : Tree.Reordered t t') (hAdmitted : t.Admitted profile limits []) :
    outputOf flags t.json = outputOf flags t'.json := by
  have hUnique : t.json.uniqueKeys = true := (Tree.uniqueKeys_map _ t).mpr hAdmitted.unique
  have hValid : t.json.Every Valid fun _ => True := Tree.every_map.mpr hAdmitted.valid
  have hSorted : t.json.sorted = t'.json.sorted := (Tree.sorted_eq_iff hUnique hValid).mpr (h.map _)
  rw [outputOf, outputOf, hSorted]

/-- Writers alike that are both finished return the same bytes. -/
theorem finish_alike {w w' : Writer} {outputsGiven : Bool} (hAlike : w.Alike w')
    (hOk : ((WriterCall.finish outputsGiven).call w).1.result = .ok)
    (hOk' : ((WriterCall.finish outputsGiven).call w').1.result = .ok) :
    ((WriterCall.finish outputsGiven).call w).1.output =
      ((WriterCall.finish outputsGiven).call w').1.output := by
  obtain ⟨⟨d, d', hBuilds, hBuilds', hLegal, hLegal', hLike⟩, hSame, hBytes⟩ := hAlike
  have hFlags : w.flags = w'.flags := congrArg (fun setup => setup.2.2) hSame
  have hLimits : w.limits = w'.limits := congrArg (fun setup => setup.2.1) hSame
  cases outputsGiven with
  | false => cases hOk
  | true =>
      cases hLike with
      | empty => exact absurd hOk (finish_incomplete hBuilds nofun)
      | growing _ _ => exact absurd hOk (finish_incomplete hBuilds nofun)
      | complete h =>
          have hOutput := (finish_accepted hBytes hBuilds hLegal.complete.unique
            hLegal.complete.valid).2 hOk
          have hOutput' := (finish_accepted (hLimits ▸ hBytes) hBuilds' hLegal'.complete.unique
            hLegal'.complete.valid).2 hOk'
          rw [hOutput, hOutput', ← hFlags, outputOf_reordered h hLegal.complete]

/-- Calls that all succeed on both of two writers alike return the same. -/
theorem callAll_alike {w w' : Writer} (hAlike : w.Alike w') {calls : List WriterCall}
    (hOk : ∀ returned ∈ (callAll calls w).1, returned.result = .ok)
    (hOk' : ∀ returned ∈ (callAll calls w').1, returned.result = .ok) :
    (callAll calls w).1 = (callAll calls w').1 := by
  induction calls generalizing w w' with
  | nil => rfl
  | cons c calls ih =>
      rw [callAll, List.forall_mem_cons] at hOk hOk'
      have hReturned (hOutput : (c.call w).1.output = (c.call w').1.output) :
        (c.call w).1 = (c.call w').1 :=
        congrArg₂ Returned.mk (hOk.1.trans hOk'.1.symm) hOutput
      rw [callAll, callAll, List.cons.injEq]
      by_cases hFinish : ∃ outputsGiven, c = .finish outputsGiven
      · obtain ⟨outputsGiven, rfl⟩ := hFinish
        obtain ⟨d, -, hBuilds, -⟩ := hAlike.drafts
        obtain ⟨_, hHeeded⟩ :=
          (WriterCall.finish outputsGiven).call_heeded ⟨hBuilds.ready, hBuilds.tables.sized⟩
        have hFinished : ((WriterCall.finish outputsGiven).call w).2.finished = true :=
          hHeeded.continues hOk.1
        refine ⟨hReturned (finish_alike hAlike hOk.1 hOk'.1), ?_⟩
        cases calls with
        | nil => rfl
        | cons c calls =>
            have hNot : ¬((WriterCall.finish outputsGiven).call w).2.Ready := fun hReady =>
              absurd (hFinished.symm.trans hReady.2) (by simp)
            have hLater := hOk.2 _ List.mem_cons_self
            rcases ((callAll_not_ready hNot (c :: calls)).1 _ List.mem_cons_self).1 with
              hRefused | hRefused
            · exact absurd (hLater.symm.trans hRefused) (by simp)
            · exact absurd (hLater.symm.trans hRefused) (by simp)
      · have hNot : ∀ outputsGiven, c ≠ .finish outputsGiven :=
          fun outputsGiven hSame => hFinish ⟨outputsGiven, hSame⟩
        refine ⟨hReturned ?_, ih (c.call_alike hNot hAlike hOk.1 hOk'.1) hOk.2 hOk'.2⟩
        rw [c.output_none hNot, c.output_none hNot]

end MaelysJson
