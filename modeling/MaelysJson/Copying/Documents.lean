import MaelysJson.Copying.Drafts
import MaelysJson.Reading.Representation

/-! The handles of a parsed document: each shows a value whose texts and numbers a writer may
be asked to take, and the copy of that value is a run of its events. -/
namespace MaelysJson

open Grammar Heap Run Utf8

/-! ### Texts of a grammatical value -/

/-- The profile of a writer that takes over what was parsed: the tolerant one is for readers
only. -/
def writerProfile (profile : Profile) : Profile :=
  if profile = .rfc8259LastWins then .rfc8259 else profile

theorem PlainText.relax {profile : Profile} {text : Bytes} (h : PlainText profile text) :
    PlainText .rfc8259 text := by
  refine ⟨h.valid, fun hZero => ?_⟩
  rw [PlainText] at h
  split_ifs at h
  · exact h.2 hZero
  · exact absurd (h 0 hZero).1 (by decide)

theorem Grammar.Content.plainText {profile : Profile} {content text : Bytes}
    (h : Content profile content text) :
    PlainText (writerProfile profile) text := by
  have hNul := h.zero_notMem
  cases profile with
  | contractAscii =>
      rw [Content, if_pos rfl] at h
      obtain ⟨hPlain, rfl⟩ := h
      exact hPlain
  | rfc8259 => exact ⟨(StringUnits.text (by rwa [Content, if_neg (by simp)] at h)).1, hNul⟩
  | rfc8259LastWins => exact ⟨(StringUnits.text (by rwa [Content, if_neg (by simp)] at h)).1, hNul⟩

/-- Texts and numbers of a value are such as the grammar has them. -/
theorem Grammar.Value.every {profile : Profile} {body : Bytes} {t : Json}
    (h : Value profile body t) :
    t.Every (PlainText (writerProfile profile)) Number := by
  induction t using Tree.induct generalizing body with
  | object members ih =>
      rw [Tree.every_object]
      intro m hm
      cases h with
      | emptyObject hGap => cases hm
      | object hBefore hBody hAfter =>
          obtain ⟨⟨content, hContent⟩, body, hValue⟩ := hBody.mem m hm
          exact ⟨hContent.plainText, ih m hm hValue⟩
  | array elements ih =>
      rw [Tree.every_array]
      intro v hv
      cases h with
      | emptyArray hGap => cases hv
      | array hBefore hBody hAfter =>
          obtain ⟨body, hValue⟩ := hBody.mem v hv
          exact ih v hv hValue
  | string text =>
      cases h with
      | string hContent => exact hContent.plainText
  | number lexeme =>
      cases h with
      | number hNumber => exact hNumber
  | boolean value => trivial
  | null => trivial

theorem Tree.Every.lastWins {ν : Type} {OnText : Bytes → Prop} {OnNumber : ν → Prop} {t : Tree ν}
    (h : t.Every OnText OnNumber) : t.lastWins.Every OnText OnNumber := by
  induction t with
  | object members ih =>
      rw [Tree.every_object] at h
      rw [Tree.lastWins_object, Tree.every_object]
      intro m hm
      obtain ⟨m, hMem, rfl⟩ := List.mem_map.mp ((Tree.lastOccurrences_sublist _).subset hm)
      exact ⟨(h m hMem).1, ih m hMem (h m hMem).2⟩
  | array elements ih =>
      rw [Tree.every_array] at h
      rw [Tree.lastWins_array, Tree.every_array, List.forall_mem_map]
      exact fun v hv => ih v hv (h v hv)
  | string text => exact h
  | number value => exact h
  | boolean value => trivial
  | null => trivial

theorem Source.Part.every {OnText OnNumber : Bytes → Prop} {s part : Source} (h : s.Part part)
    (hEvery : s.json.Every OnText OnNumber) : part.json.Every OnText OnNumber := by
  induction h with
  | self => exact hEvery
  | member outer hm ih =>
      rw [Source.json_object, Tree.every_object, List.forall_mem_map] at ih
      exact (ih _ hm).2
  | element outer hv ih =>
      rw [Source.json_array, Tree.every_array, List.forall_mem_map] at ih
      exact ih _ hv

/-! ### Handles -/

/-- The value at a handle, such as a parse leaves it. -/
structure Document.Carries (document : Document) (value : Nat) (t : Json) : Prop where
  tree : valueTree document document.tokens.length value = .ok t
  unique : t.uniqueKeys = true
  every : t.Every (PlainText .rfc8259) Number

section

variable {document : Document} {value : Nat} {t : Json} {w : Writer} {d : Draft}

/-- Every handle of a parsed document, be it the handle of a key, shows a value. -/
theorem documentParse_carries {heap : Heap} {input : CText} {profile : Profile}
    {requested : Option Limits} {errorGiven : Bool}
    (h : (documentParse heap input profile requested errorGiven).document = some document)
    (hValue : valueType document value ≠ .none) : ∃ t, document.Carries value t := by
  obtain ⟨limits, s, survivor, -, hRead, hPublished, hSurvivor, -⟩ := documentParse_returns h
  obtain ⟨before, body, after, -, hBody, -⟩ :=
    ((Reading.readText_iff _ s.json).mp ⟨s, hRead, rfl⟩).1
  have hEvery : survivor.json.Every (PlainText .rfc8259) Number := by
    rw [hSurvivor]
    exact (hBody.every.imp (fun _ hText => hText.relax) fun _ hNumber => hNumber).lastWins
  have hUnique : survivor.json.uniqueKeys = true := by
    rw [hSurvivor]
    exact Tree.uniqueKeys_lastWins s.json
  have hLength := hPublished.shows.length
  have hLt : value < (survivor.rows 0 none).length := by
    rw [← hLength]
    by_contra hNot
    exact hValue (if_neg hNot)
  rcases hPublished.stands hLt with ⟨hPart, hAt⟩ | ⟨hPart, hm, hAt⟩
  · rename_i part
    exact ⟨part.json, valueTree_eq hPublished part hAt (by omega), hPart.uniqueKeys hUnique,
      hPart.every hEvery⟩
  · rename_i span members m
    have hObject := hPart.every hEvery
    rw [Source.json_object, Tree.every_object, List.forall_mem_map] at hObject
    refine ⟨.string m.1.text, ?_, rfl, (hObject m hm).1⟩
    obtain ⟨⟨parent, cell⟩, hRow, hCell⟩ := Option.map_eq_some_iff.mp hAt.1
    have hType : (document.token value).type = .string := by
      rw [hPublished.shows.type hRow, show cell = Source.keyCell m.1 from hCell]
      rfl
    have hToken : tokenOf document value .string = .ok (document.token value) := by
      rw [tokenOf, if_neg (not_le.mpr (hLength ▸ hLt)), if_neg (not_not.mpr hType)]
    have hText : valueString document value = .ok m.1.text := by
      rw [valueString, textView, hToken]
      exact congrArg Except.ok (hPublished.key_text hAt)
    obtain ⟨fuel, hFuel⟩ : ∃ n, document.tokens.length = n + 1 :=
      ⟨document.tokens.length - 1, by omega⟩
    have hValueType : valueType document value = .string := (if_pos (hLength ▸ hLt)).trans hType
    rw [hFuel, valueTree, hValueType]
    simp only [hText]
    rfl

theorem Document.Carries.copies (h : document.Carries value t) :
    CopiesAs (copyValue document document.tokens.length value) t.steps :=
  CopiesAs.ofSteps.copyValue h.tree (h.every.imp (fun _ _ => trivial) fun _ hNumber => hNumber)

/-- The members of the object at a handle. -/
theorem Document.Carries.members (h : document.Carries value t)
    (hType : valueType document value = .object) :
    ∃ members, t = .object members ∧ objectSize document value = .ok members.length ∧
      ∀ k (hk : k < members.length), ∃ v, objectMemberAt document value k = .ok (members[k].1, v) ∧
        document.Carries v members[k].2 := by
  obtain ⟨fuel, hFuel⟩ : ∃ n, document.tokens.length = n + 1 := by
    cases hLength : document.tokens.length with
    | zero =>
        have hTree := h.tree
        rw [hLength] at hTree
        cases hTree
    | succ n => exact ⟨n, rfl⟩
  have hTree := h.tree
  rw [hFuel] at hTree
  obtain ⟨members, rfl, hSize, hMembers⟩ := valueTree_object hType hTree
  have hEvery := (Tree.every_object members).mp h.every
  have hUnique := (Tree.uniqueKeys_object members).mp h.unique
  refine ⟨members, rfl, hSize, fun k hk => ?_⟩
  obtain ⟨v, hAt, hMember⟩ := hMembers k hk
  have hMem := List.getElem_mem hk
  refine ⟨v, hAt, ?_, hUnique.2 _ hMem, (hEvery _ hMem).2⟩
  rw [hFuel]
  exact valueTree_succ hMember

/-- Every handle of a value has a type. -/
theorem Document.Carries.type_ne_none (h : document.Carries value t) :
    valueType document value ≠ .none := by
  intro hType
  have hTree := h.tree
  cases hLength : document.tokens.length with
  | zero =>
      rw [hLength] at hTree
      cases hTree
  | succ n =>
      rw [hLength, valueTree, hType] at hTree
      cases hTree

/-! ### The calls that copy -/

theorem orCopyFailed_yields {x : WriterM Unit} {outcome : Except Result Draft}
    (h : Yields x w outcome) :
    Yields (orCopyFailed x) w outcome := by
  cases outcome with
  | ok next =>
      obtain ⟨t, hRun, hBuilds, hSetup⟩ := h
      refine ⟨t, ?_, hBuilds, hSetup⟩
      rw [orCopyFailed, hRun]
  | error r =>
      obtain ⟨t, hRun⟩ := h
      rw [Yields, orCopyFailed, hRun]
      simp only [copyFailed]
      split_ifs
      · exact ⟨_, rfl⟩
      · exact ⟨_, rfl⟩

theorem writerValue_yields (hBuilds : w.Builds d) (h : document.Carries value t) :
    Yields (writerValue (some document) value) w (d.copyAll w.profile w.limits t.steps) := by
  have hRun : writerValue (some document) value w =
      orCopyFailed (copyValue document document.tokens.length value) w := by
    refine (congrFun (if_neg h.type_ne_none) w).trans ?_
    exact bind_of_ok (writerReady_of_ready hBuilds.ready)
  exact (orCopyFailed_yields (h.copies w d hBuilds)).congr hRun

/-- The events of an object that is begun without some of its members. -/
def stepsExcept (members : List (Bytes × Json)) (excluded : List Bytes) : List Event :=
  .objectBegin :: (members.filter fun m => !keyExcluded m.1 excluded).flatMap fun m =>
    .key m.1 :: m.2.steps

theorem writerObjectBeginExcept_yields (hBuilds : w.Builds d) (h : document.Carries value t)
    (hType : valueType document value = .object) {excludedKeys : ExcludedKeys}
    {excluded : List Bytes} (hStrings : excludedKeys.strings = some excluded) :
    ∃ members, t = .object members ∧
      Yields (writerObjectBeginExcept (some document) value excludedKeys) w
      (d.copyAll w.profile w.limits (stepsExcept members excluded)) := by
  obtain ⟨members, rfl, hSize, hMembers⟩ := h.members hType
  refine ⟨members, rfl, ?_⟩
  have hCopies : ∀ k (hk : k < members.length), ∃ v, objectMemberAt document value k =
      .ok (members[k].1, v) ∧
      CopiesAs (copyValue document document.tokens.length v) members[k].2.steps := by
    intro k hk
    obtain ⟨v, hAt, hMember⟩ := hMembers k hk
    exact ⟨v, hAt, hMember.copies⟩
  have hLoop : CopiesAs (readDocument (objectSize document value) >>= fun count =>
      copyMembersExcept document value excluded count 0)
        ((members.filter fun m => !keyExcluded m.1 excluded).flatMap fun m =>
          .key m.1 :: m.2.steps) :=
    .read hSize (CopiesAs.ofSteps.copyMembersExcept excluded hCopies members.length 0
      (Nat.zero_add _))
  have hRest : CopiesAs (orCopyFailed (readDocument (objectSize document value) >>= fun count =>
      copyMembersExcept document value excluded count 0))
        ((members.filter fun m => !keyExcluded m.1 excluded).flatMap fun m =>
          .key m.1 :: m.2.steps) :=
    fun w d hBuilds => orCopyFailed_yields (hLoop w d hBuilds)
  have hBegin : CopiesAs writerObjectBegin [.objectBegin] := .step fun w d h => objectBegin_yields h
  have hRun : writerObjectBeginExcept (some document) value excludedKeys w =
      (writerObjectBegin >>=
        fun _ => orCopyFailed (readDocument (objectSize document value) >>= fun count =>
        copyMembersExcept document value excluded count 0)) w := by
    simp only [writerObjectBeginExcept, hStrings]
    refine (congrFun (if_neg (not_not.mpr hType)) w).trans ?_
    exact bind_of_ok (writerReady_of_ready hBuilds.ready)
  exact ((hBegin.seq hRest) w d hBuilds).congr hRun

end

end MaelysJson
