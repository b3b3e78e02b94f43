import MaelysJson.Copying.Documents
import MaelysJson.Copying.Likeness
import MaelysJson.Copying.Obstacles
import MaelysJson.Writing.Schedules

/-! Reading an object, modifying it and writing it again: an object that is begun without some
of its members and given them back is the object that is copied as a whole. -/
namespace MaelysJson

open Grammar Heap Run Allocating

/-! ### Calls that copy -/

/-- Where the calls all succeed they do these events of a copy to the draft. -/
def Makes (calls : List WriterCall) (events : List Event) : Prop :=
  ∀ (w : Writer) (d : Draft),
    w.Builds d → (∀ returned ∈ (callAll calls w).1, returned.result = .ok) →
    ∃ next, d.copyAll w.profile w.limits events = .ok next ∧ (callAll calls w).2.Builds next ∧
      (callAll calls w).2.setup = w.setup

namespace Makes

variable {calls calls' : List WriterCall} {events events' : List Event}

theorem nil : Makes [] [] := fun _ d hBuilds _ => ⟨d, rfl, hBuilds, rfl⟩

theorem append (h : Makes calls events) (h' : Makes calls' events') :
    Makes (calls ++ calls') (events ++ events') := by
  intro w d hBuilds hOk
  rw [callAll_append, List.forall_mem_append] at hOk
  obtain ⟨next, hCopy, hBuilds', hSetup⟩ := h w d hBuilds hOk.1
  obtain ⟨last, hCopy', hBuilds'', hSetup'⟩ := h' _ next hBuilds' hOk.2
  have hProfile : (callAll calls w).2.profile = w.profile := congrArg Prod.fst hSetup
  have hLimits : (callAll calls w).2.limits = w.limits := congrArg (fun setup => setup.2.1) hSetup
  rw [hProfile, hLimits] at hCopy'
  rw [callAll_append, Draft.copyAll_append, hCopy]
  exact ⟨last, hCopy', hBuilds'', hSetup'.trans hSetup⟩

/-- A call of one program. -/
theorem call {c : WriterCall} {x : WriterM Unit} (hOperation : c.operation = WriterCall.silent x)
    (h : ∀ (w : Writer) (d : Draft), w.Builds d →
      Yields x w (d.copyAll w.profile w.limits events)) :
    Makes [c] events := by
  intro w d hBuilds hOk
  have hRun := WriterCall.call_ok hOperation hBuilds (hOk _ List.mem_cons_self)
  have hYields := h w d hBuilds
  cases hCopy : d.copyAll w.profile w.limits events with
  | error r =>
      rw [hCopy] at hYields
      obtain ⟨t, hFails⟩ := hYields
      rw [hRun] at hFails
      cases hFails
  | ok next =>
      rw [hCopy] at hYields
      obtain ⟨t, hRun', hBuilds', hSetup⟩ := hYields
      rw [hRun] at hRun'
      cases hRun'
      exact ⟨next, rfl, hBuilds', hSetup⟩

end Makes

/-! ### Members and their handles -/

/-- The keys of an object with the handles of their values, as the accessors list them. -/
def objectMembers (document : Document) (object : Nat) : Except Result (List (Bytes × Nat)) := do
  let count ← objectSize document object
  (List.range count).mapM (objectMemberAt document object)

/-- The calls that put these members into the object. -/
def memberCalls (document : Document) (members : List (Bytes × Nat)) : List WriterCall :=
  members.flatMap fun m => [.key (.buffer m.1), .value (some document) m.2]

section

variable {document : Document}

/-- A key and the handle of its value, next to what they show. -/
def Document.ShowsMember (document : Document) (handle : Bytes × Nat) (m : Bytes × Json) : Prop :=
  handle.1 = m.1 ∧ document.Carries handle.2 m.2

theorem Document.Carries.objectMembers {object : Nat} {t : Json} (h : document.Carries object t)
    (hType : valueType document object = .object) :
    ∃ members handles, t = .object members ∧ objectMembers document object = .ok handles ∧
      List.Forall₂ document.ShowsMember handles members := by
  obtain ⟨members, rfl, hSize, hMembers⟩ := h.members hType
  have hEach (k : Fin members.length) :
      ∃ v, objectMemberAt document object k = .ok (members[k].1, v) ∧
      document.Carries v members[k].2 := hMembers k k.2
  choose handle hAt hCarries using hEach
  refine ⟨members, List.ofFn fun k => (members[k].1, handle k), rfl, ?_, ?_⟩
  · rw [MaelysJson.objectMembers, hSize]
    apply mapM_range List.length_ofFn
    intro k hk
    rw [List.length_ofFn] at hk
    rw [List.getElem_ofFn]
    exact hAt ⟨k, hk⟩
  · refine List.forall₂_iff_get.mpr ⟨List.length_ofFn, fun k hk hk' => ?_⟩
    rw [List.get_ofFn]
    exact ⟨rfl, hCarries ⟨k, hk'⟩⟩

theorem map_fst_of_shows {handles : List (Bytes × Nat)} {members : List (Bytes × Json)}
    (h : List.Forall₂ document.ShowsMember handles members) :
    handles.map Prod.fst = members.map Prod.fst := by
  induction h with
  | nil => rfl
  | cons hHead _ ih => rw [List.map_cons, List.map_cons, hHead.1, ih]

theorem memberCalls_makes {handles : List (Bytes × Nat)} {members : List (Bytes × Json)}
    (h : List.Forall₂ document.ShowsMember handles members) :
    Makes (memberCalls document handles) (members.flatMap fun m => .key m.1 :: m.2.steps) := by
  induction h with
  | nil => exact .nil
  | @cons handle m handles members hHead _ ih =>
      have hKey : Makes [.key (.buffer handle.1)] [.key handle.1] :=
        .call rfl (CopiesAs.step fun w d h => key_yields h handle.1)
      have hValue : Makes [.value (some document) handle.2] m.2.steps :=
        .call rfl fun w d hBuilds => writerValue_yields hBuilds hHead.2
      have hAll := (hKey.append hValue).append ih
      rw [hHead.1] at hAll
      rw [memberCalls, List.flatMap_cons, List.flatMap_cons, hHead.1]
      exact hAll

end

/-! ### The object that is put together again -/

theorem keyExcluded_eq (key : Bytes) (excluded : List Bytes) :
    keyExcluded key excluded = decide (key ∈ excluded) := by
  rw [Bool.eq_iff_iff, keyExcluded, List.any_eq_true, decide_eq_true_eq]
  exact ⟨fun ⟨_, hMem, hSame⟩ => eq_of_beq hSame ▸ hMem,
    fun hMem => ⟨key, hMem, beq_self_eq_true key⟩⟩

theorem mem_kept_iff {members : List (Bytes × Json)} {excluded : List Bytes} {name : Bytes} :
    name ∈ (members.filter fun m => !keyExcluded m.1 excluded).map Prod.fst ↔
      name ∈ members.map Prod.fst ∧ name ∉ excluded := by
  simp only [keyExcluded_eq, List.mem_map, List.mem_filter, Bool.not_eq_true',
    decide_eq_false_iff_not]
  constructor
  · rintro ⟨m, ⟨hMem, hNot⟩, rfl⟩
    exact ⟨⟨m, hMem, rfl⟩, hNot⟩
  · rintro ⟨⟨m, hMem, rfl⟩, hNot⟩
    exact ⟨m, ⟨hMem, hNot⟩, rfl⟩

namespace Draft

variable {profile : Profile} {limits : Limits} {d d' : Draft} {holes : List Hole}

theorem stepAll_of_run {events : List Event} (h : run profile limits events d = some d') :
    d.stepAll events = some d' := by
  induction events generalizing d with
  | nil => exact h
  | cons e events ih =>
      obtain ⟨-, next, hStep, hRun⟩ := run_cons.mp h
      rw [stepAll, hStep]
      exact ih hRun

/-- What a copy of a value leaves where it succeeds. -/
theorem copyAll_close {t : Json} (hUnique : t.uniqueKeys = true) (hRoom : d.room = some holes)
    (h : d.copyAll profile limits t.steps = .ok d') : d' = close t.copied holes := by
  have hRun := stepAll_of_run (copyAll_eq_ok.mp h).2
  rw [Tree.map_copied_steps, stepAll_value ((Tree.uniqueKeys_copied t).mpr hUnique) hRoom,
    Option.some.injEq] at hRun
  exact hRun.symm

end Draft

/-- The calls that begin an object without the excluded members and put others in their place. -/
def rewriteCalls (document : Document) (object : Nat) (excludedKeys : ExcludedKeys)
    (members : List (Bytes × Nat)) :
    List WriterCall :=
  .objectBeginExcept (some document) object excludedKeys ::
    (memberCalls document members ++ [.objectEnd])

section

variable {document : Document} {object : Nat} {members : List (Bytes × Json)}
  {handles added : List (Bytes × Nat)} {excludedKeys : ExcludedKeys} {excluded : List Bytes}

theorem beginExcept_makes (hCarries : document.Carries object (.object members))
    (hType : valueType document object = .object)
    (hStrings : excludedKeys.strings = some excluded) :
    Makes [.objectBeginExcept (some document) object excludedKeys]
      (stepsExcept members excluded) := by
  refine .call rfl fun w d hBuilds => ?_
  obtain ⟨members', hSame, hYields⟩ :=
    writerObjectBeginExcept_yields hBuilds hCarries hType hStrings
  cases hSame
  exact hYields

/-- The calls make an object with the members in another order. -/
theorem rewriteCalls_makes (hCarries : document.Carries object (.object members))
    (hType : valueType document object = .object)
    (hHandles : List.Forall₂ document.ShowsMember handles members)
    (hStrings : excludedKeys.strings = some excluded)
    (hAdded : added.Perm (handles.filter fun m => m.1 ∈ excluded)) :
    ∃ members', members.Perm members' ∧
      Makes (rewriteCalls document object excludedKeys added) (Tree.object members').steps := by
  have hFilter : List.Forall₂ document.ShowsMember (handles.filter fun m => m.1 ∈ excluded)
      (members.filter fun m => m.1 ∈ excluded) := by
    apply List.rel_filter _ hHandles
    intro handle m hShows
    simp only [hShows.1]
  obtain ⟨again, hAgain, hPerm⟩ := List.perm_comp_forall₂ hAdded hFilter
  refine ⟨(members.filter fun m => !keyExcluded m.1 excluded) ++ again, ?_, ?_⟩
  · have hSplit := List.filter_append_perm (fun m : Bytes × Json => decide (m.1 ∈ excluded)) members
    simp only [keyExcluded_eq]
    exact hSplit.symm.trans ((hPerm.symm.append_right _).trans List.perm_append_comm)
  · have hBegin : Makes [.objectBeginExcept (some document) object excludedKeys]
      (stepsExcept members excluded) :=
      beginExcept_makes hCarries hType hStrings
    have hEnd : Makes [.objectEnd] [.objectEnd] :=
      .call rfl (CopiesAs.step fun w d h => objectEnd_yields h)
    have hAll := hBegin.append ((memberCalls_makes hAgain).append hEnd)
    rw [Tree.steps_object, List.flatMap_append, List.cons_append, List.append_assoc]
    exact hAll

/-- Where all calls succeed, both ways leave writers alike. -/
theorem rewriteCalls_alike {w : Writer} (hDrafted : w.Drafted)
    (hBytes : w.limits.maximumBytes < sizeMax / 2) (hAdmits : w.AdmitsValue)
    (hCarries : document.Carries object (.object members))
    (hType : valueType document object = .object)
    (hHandles : List.Forall₂ document.ShowsMember handles members)
    (hStrings : excludedKeys.strings = some excluded)
    (hAdded : added.Perm (handles.filter fun m => m.1 ∈ excluded))
    (hOk : ∀ returned ∈ (callAll (rewriteCalls document object excludedKeys added) w).1,
      returned.result = .ok)
    (hOk' : ((WriterCall.value (some document) object).call w).1.result = .ok) :
    (callAll (rewriteCalls document object excludedKeys added) w).2.Alike
      ((WriterCall.value (some document) object).call w).2 := by
  obtain ⟨d, hBuilds, hLegal⟩ := hDrafted
  obtain ⟨holes, hRoom⟩ := Option.isSome_iff_exists.mp (hBuilds.room.mp hAdmits)
  obtain ⟨members', hPerm, hMakes⟩ := rewriteCalls_makes hCarries hType hHandles hStrings hAdded
  obtain ⟨next, hCopy, hNext, hSetup⟩ := hMakes w d hBuilds hOk
  have hWhole : Makes [.value (some document) object] (Tree.object members).steps :=
    .call rfl fun w d hBuilds => writerValue_yields hBuilds hCarries
  obtain ⟨next', hCopy', hNext', hSetup'⟩ := hWhole w d hBuilds (List.forall_mem_singleton.mpr hOk')
  have hReordered : Tree.Reordered (Tree.object members').copied (Tree.object members).copied :=
    Tree.Reordered.map _ (.permute hPerm.symm)
  have hUnique : (Tree.object members').uniqueKeys = true :=
    (Tree.Reordered.permute hPerm).uniqueKeys.mp hCarries.unique
  have hLimits : (callAll (rewriteCalls document object excludedKeys added) w).2.limits =
    w.limits :=
    congrArg (fun setup => setup.2.1) hSetup
  refine ⟨⟨next, next', hNext, hNext', (hLegal.copyAll hCopy).congr hSetup,
    (hLegal.copyAll hCopy').congr hSetup', ?_⟩,
    hSetup.trans hSetup'.symm, by rw [hLimits]; exact hBytes⟩
  rw [Draft.copyAll_close hUnique hRoom hCopy, Draft.copyAll_close hCarries.unique hRoom hCopy']
  exact .close (List.forall₂_same.mpr fun hole _ => .refl hole) hReordered

end

/-! ### Keys that are left over -/

/-- After the object is begun, a key is a duplicate when it was copied. Whether it is one is
known before memory is asked for. -/
theorem duplicate_iff {w : Writer} {holes : List Hole} {members : List (Bytes × Tree Numeral)}
    (hSound : w.Sound) (hBuilds : (generous w).Builds (.growing (.object members none) holes))
    {name : Bytes} (hText : validText w.profile (.buffer name) = true)
    (hLength : name.length ≤ w.limits.maximumBytes) :
    ((WriterCall.key (.buffer name)).call w).1.result = .errDuplicateKey ↔
      name ∈ members.map Prod.fst := by
  have hArgument : ¬(!validText w.profile (.buffer name)) = true := by
    rw [hText]
    simp
  have hLimit : ¬name.length > w.limits.maximumBytes := not_lt.mpr hLength
  have hState : ¬(¬w.needsKey = true ∨ w.pendingKey.isSome = true) := by
    have hNeeds : w.needsKey = true := hBuilds.needsKey
    have hPending : w.pendingKey = none := hBuilds.pending
    rw [hNeeds, hPending]
    rintro (hNot | hSome)
    · exact hNot rfl
    · cases hSome
  constructor
  · intro hDuplicate
    by_contra hKey
    have hYields := key_yields hBuilds name
    have hText' : validText (generous w).profile (.buffer name) = true := hText
    have hLimit' : ¬name.length > (generous w).limits.maximumBytes := hLimit
    rw [Draft.attempt_key, if_pos hText', if_neg hLimit', if_neg hKey, Draft.step, if_neg hKey]
      at hYields
    have hCall := @WriterCall.call_yields (.key (.buffer name)) _ _ _ _ rfl hBuilds hYields
    have hSame := ((WriterCall.key (.buffer name)).call_refused hSound).2.2
      (by rw [hDuplicate]; simp)
    rw [hSame] at hCall
    have hOk := congrArg Returned.result hCall.1
    exact absurd (hDuplicate.symm.trans hOk) (by simp)
  · intro hKey
    have hReady : w.Ready := hBuilds.ready
    have hRun : writerKey (.buffer name) w = .error .errDuplicateKey (w.fail .errDuplicateKey) :=
      (congrFun (if_neg hArgument) w).trans ((bind_of_ok (writerReady_of_ready hReady)).trans
        ((congrFun (if_neg hState) w).trans ((congrFun (if_neg hLimit) w).trans
          (congrFun (if_pos ((contains_iff hBuilds rfl name).mpr hKey)) w))))
    rw [WriterCall.call, WriterCall.operation, WriterCall.silent, bind_of_error hRun]

/-- An object that is read, begun without some of its members and given them back is copied
whole; and in between exactly the members that were kept are duplicates. -/
theorem rewrite_same {heap h heap' : Heap} {profile profile' : Profile}
    {requested requested' : Option Limits} {flags : UInt32} {w₀ : Writer}
    (hCreate : writerCreate heap profile requested flags = (.ok w₀, h)) (calls : List WriterCall)
    (hReady : (callAll calls w₀).2.Ready) (hAdmits : (callAll calls w₀).2.AdmitsValue)
    {input : CText} {errorGiven : Bool} {document : Document}
    (hParse : (documentParse heap' input profile' requested' errorGiven).document = some document)
    {object : Nat} (hType : valueType document object = .object) {excludedKeys : ExcludedKeys}
    {excluded : List Bytes} (hStrings : excludedKeys.strings = some excluded) :
    let w := (callAll calls w₀).2
    let begun := (WriterCall.objectBeginExcept (some document) object excludedKeys).call w
    ∃ members, objectMembers document object = .ok members ∧
      (∀ added rest, added.Perm (members.filter fun m => m.1 ∈ excluded) →
        (∀ returned ∈ (callAll (rewriteCalls document object excludedKeys added ++ rest) w).1,
          returned.result = .ok) →
        (∀ returned ∈ (callAll (.value (some document) object :: rest) w).1,
          returned.result = .ok) →
        (callAll rest (callAll (rewriteCalls document object excludedKeys added) w).2).1 =
          (callAll rest ((WriterCall.value (some document) object).call w).2).1) ∧
      (begun.1.result = .ok → ∀ name, validText w.profile (.buffer name) = true →
        name.length ≤ w.limits.maximumBytes →
          (((WriterCall.key (.buffer name)).call begun.2).1.result = .errDuplicateKey ↔
            name ∈ members.map Prod.fst ∧ name ∉ excluded)) := by
  intro w begun
  obtain ⟨limits, hLimits, -⟩ := writerCreate_eq_ok.mp hCreate
  have hSound₀ : w₀.Sound := fun _ => writerCreate_steady hCreate
  have hSound : w.Sound := callAll_sound hSound₀ calls
  -- with all the memory there is, the writer has a draft
  have hGenerous := callAll_generous hSound₀ (not_refused_of_ready hSound₀ hReady)
  obtain ⟨hCreated, hSetup₀⟩ :=
    writerCreate_drafted heap.unlimited_generous hLimits (writerCreate_generous hCreate)
  obtain ⟨hDrafted, hSetup⟩ := callAll_drafted hCreated calls (by rw [hGenerous]; exact hReady)
  rw [hGenerous] at hDrafted hSetup
  have hLimits' : w.limits = limits := congrArg (fun setup => setup.2.1) (hSetup.trans hSetup₀)
  have hBytes : w.limits.maximumBytes < sizeMax / 2 := by
    rw [hLimits']
    exact (limitsResolve_ok hLimits).1
  obtain ⟨t, hCarries⟩ := documentParse_carries hParse (by rw [hType]; nofun)
  obtain ⟨members, handles, rfl, hMembers, hHandles⟩ := hCarries.objectMembers hType
  -- calls that succeed do the same without refusals
  have hGranted {u : Writer} (hSound : u.Sound) {calls : List WriterCall}
      (hOk : ∀ returned ∈ (callAll calls u).1, returned.result = .ok) :
      callAll calls (generous u) = ((callAll calls u).1, generous (callAll calls u).2) :=
    callAll_generous hSound fun returned hMem => by
      rw [hOk returned hMem]
      nofun
  have hGrantedCall (c : WriterCall) (hOk : (c.call w).1.result = .ok) :
      c.call (generous w) = ((c.call w).1, generous (c.call w).2) :=
    (c.call_refused hSound).2.2 (by rw [hOk]; nofun)
  refine ⟨handles, hMembers, fun added rest hAdded hOk hOk' => ?_, fun hOk name hText hLength => ?_⟩
  · rw [callAll_append, List.forall_mem_append] at hOk
    rw [callAll, List.forall_mem_cons] at hOk'
    have hFirst := hGranted hSound hOk.1
    have hFirst' := hGrantedCall _ hOk'.1
    have hRest := hGranted (callAll_sound hSound _) hOk.2
    have hRest' := hGranted (WriterCall.call_sound _ hSound) hOk'.2
    have hAlike := rewriteCalls_alike hDrafted hBytes hAdmits hCarries hType hHandles
      hStrings hAdded (by rw [hFirst]; exact hOk.1) (by rw [hFirst']; exact hOk'.1)
    rw [hFirst, hFirst'] at hAlike
    have hSame := callAll_alike hAlike (by rw [hRest]; exact hOk.2) (by rw [hRest']; exact hOk'.2)
    rw [hRest, hRest'] at hSame
    exact hSame
  · obtain ⟨d, hBuilds, -⟩ := hDrafted
    obtain ⟨holes, hRoom⟩ := Option.isSome_iff_exists.mp (hBuilds.room.mp hAdmits)
    have hBegun := hGrantedCall _ hOk
    have hMakes : Makes [.objectBeginExcept (some document) object excludedKeys]
      (stepsExcept members excluded) :=
      beginExcept_makes hCarries hType hStrings
    obtain ⟨next, hCopy, hNext, hSame⟩ :=
      hMakes _ d hBuilds (List.forall_mem_singleton.mpr (by rw [hBegun]; exact hOk))
    have hStep := Draft.stepAll_of_run (Draft.copyAll_eq_ok.mp hCopy).2
    rw [stepAll_stepsExcept excluded hRoom hCarries.unique, Option.some.injEq] at hStep
    rw [← hStep] at hNext
    rw [callAll, callAll, hBegun] at hNext hSame
    have hProfile : begun.2.profile = w.profile := congrArg Prod.fst hSame
    have hLimits : begun.2.limits = w.limits := congrArg (fun setup => setup.2.1) hSame
    rw [← hProfile] at hText
    rw [← hLimits] at hLength
    rw [duplicate_iff (WriterCall.call_sound _ hSound) hNext hText hLength,
      map_fst_of_shows hHandles, List.map_map]
    exact mem_kept_iff

/-- The text `{"a":1,"b":[]}`. -/
def pairText : Bytes :=
  [0x7b, 0x22, 0x61, 0x22, 0x3a, 0x31, 0x2c, 0x22, 0x62, 0x22, 0x3a, 0x5b, 0x5d, 0x7d]

def pairDocument : Document :=
  ⟨.rfc8259, pairText,
    [⟨⟨none, some 1, some 4, none, 4⟩, .object, 0, 14, none, 0, 0, false, false, false⟩,
      ⟨⟨some 0, none, none, some 2, 0⟩, .string, 2, 3, some 0, 1, 0, true, false, false⟩,
      ⟨⟨some 0, none, none, some 3, 0⟩, .number, 5, 6, some 2, 1, 0, false, false, false⟩,
      ⟨⟨some 0, none, none, some 4, 0⟩, .string, 8, 9, some 4, 1, 0, true, false, false⟩,
      ⟨⟨some 0, none, none, none, 0⟩, .array, 11, 13, none, 0, 4, false, false, false⟩],
    14, [0x61, 0, 0x31, 0, 0x62, 0], 29, [1, 2, 3, 4], 0⟩

/-- The member `a` is left out and put back behind the member `b`; meanwhile `b` is taken. -/
theorem rewrite_same_pair :
    let w := Writer.fresh .rfc8259 ⟨65535, 32, 8192⟩ 0 ⟨fun _ => true, [144, 256, 256]⟩
    let excludedKeys := ExcludedKeys.entries [some [0x61, 0], some []]
    let begun := (WriterCall.objectBeginExcept (some pairDocument) 0 excludedKeys).call w
    (callAll [.finish true]
        (callAll (rewriteCalls pairDocument 0 excludedKeys [([0x61], 2)]) w).2).1 =
        (callAll [.finish true] ((WriterCall.value (some pairDocument) 0).call w).2).1 ∧
      ((WriterCall.key (.buffer [0x62])).call begun.2).1.result = .errDuplicateKey ∧
      ((WriterCall.key (.buffer [0x61])).call begun.2).1.result ≠ .errDuplicateKey := by
  intro w excludedKeys begun
  have hNil : (callAll [] w).2 = w := rfl
  obtain ⟨members, hMembers, hSame, hDuplicate⟩ := @rewrite_same ⟨fun _ => true, []⟩ ⟨fun _ => true,
    [144, 256, 256]⟩ ⟨fun _ => true, []⟩ .rfc8259 .rfc8259 none none 0 w rfl [] (by decide) (by
    decide) (.buffer pairText) true pairDocument (by decide +kernel) 0 (by
    decide +kernel) excludedKeys [[0x61], []] rfl
  rw [hNil] at hSame hDuplicate
  have hPair : objectMembers pairDocument 0 = .ok [([0x61], 2), ([0x62], 4)] := rfl
  obtain rfl : [([0x61], 2), ([0x62], 4)] = members := Except.ok.inj (hPair.symm.trans hMembers)
  have hBegun : begun.1.result = .ok := by decide +kernel
  have hTaken := hDuplicate hBegun [0x62] (by decide) (by decide)
  have hFree := hDuplicate hBegun [0x61] (by decide) (by decide)
  refine ⟨hSame _ _ (by decide) (by decide +kernel) (by decide +kernel), hTaken.mpr (by decide),
    fun hResult => ?_⟩
  exact absurd (hFree.mp hResult) (by decide)

end MaelysJson
