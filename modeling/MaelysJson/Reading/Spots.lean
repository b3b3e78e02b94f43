import MaelysJson.Text.Content

/-! Beginnings of texts. What a text has spelled so far leads to a spot, and the
spot tells what may come next. Whatever leads to a spot can be completed to a text
whose keys are as the profile demands. -/
namespace MaelysJson

open Grammar

namespace Grammar

variable {profile : Profile} {before rest gap a b body content text key : Bytes} {t : Json}

theorem Blank.append (hLeft : Blank a) (hRight : Blank b) : Blank (a ++ b) := by
  intro byte hByte
  rcases List.mem_append.mp hByte with hByte | hByte
  · exact hLeft byte hByte
  · exact hRight byte hByte

/-- The strict profiles want the keys of each object to differ. -/
def DistinctKeys (profile : Profile) (t : Json) : Prop :=
  profile ≠ .rfc8259LastWins → t.uniqueKeys = true

/-- A key that may follow the keys of an object. -/
def Unused (profile : Profile) (seen : List Bytes) (key : Bytes) : Prop :=
  profile ≠ .rfc8259LastWins → key ∉ seen

/-- Where a text may stand: before a value, before an element of an array that is open, or
before a member of an object that is open and has the keys `seen` so far. -/
inductive Spot where
  | value
  | element
  | key (seen : List Bytes)

/-- The bytes `before` may stand at the beginning of a text, up to the spot: `level` containers are
open there, and nothing before it is nested deeper than `deepest`. -/
inductive Leads (profile : Profile) (deepest : Nat) : Nat → Spot → Bytes → Prop where
  | start : Leads profile deepest 0 .value []
  | space {level : Nat} {spot : Spot} {before gap : Bytes}
      (h : Leads profile deepest level spot before)
      (hGap : Blank gap) : Leads profile deepest level spot (before ++ gap)
  | item {level : Nat} {before : Bytes} (h : Leads profile deepest level .element before) :
      Leads profile deepest level .value before
  | openArray {level : Nat} {before : Bytes} (h : Leads profile deepest level .value before)
      (hDepth : level + 1 ≤ deepest) : Leads profile deepest (level + 1) .element (before ++ [0x5b])
  | nextElement {level : Nat} {before body gap : Bytes} {t : Json}
      (h : Leads profile deepest level .element before) (hValue : Value profile body t)
      (hKeys : DistinctKeys profile t) (hDepth : level + t.depth ≤ deepest) (hGap : Blank gap) :
      Leads profile deepest level .element (before ++ body ++ gap ++ [0x2c])
  | openObject {level : Nat} {before : Bytes} (h : Leads profile deepest level .value before)
      (hDepth : level + 1 ≤ deepest) :
      Leads profile deepest (level + 1) (.key []) (before ++ [0x7b])
  | memberValue {level : Nat} {before content key a : Bytes} {seen : List Bytes}
      (h : Leads profile deepest level (.key seen) before) (hContent : Content profile content key)
      (hUnused : Unused profile seen key) (hA : Blank a) :
      Leads profile deepest level .value (before ++ quoted content ++ a ++ [0x3a])
  | nextMember {level : Nat} {before content key a b body gap : Bytes}
      {seen : List Bytes} {t : Json} (h : Leads profile deepest level (.key seen) before)
      (hContent : Content profile content key) (hUnused : Unused profile seen key) (hA : Blank a)
      (hB : Blank b) (hValue : Value profile body t)
      (hKeys : DistinctKeys profile t) (hDepth : level + t.depth ≤ deepest) (hGap : Blank gap) :
      Leads profile deepest level (.key (key :: seen))
        (before ++ quoted content ++ a ++ [0x3a] ++ b ++ body ++ gap ++ [0x2c])

variable {deepest level room : Nat}

/-- At most `room` bytes make `bytes` a text of the profile that is nested no deeper than
`deepest`. -/
def Ends (profile : Profile) (deepest room : Nat) (bytes : Bytes) : Prop :=
  ∃ rest t, rest.length ≤ room ∧ Text profile (bytes ++ rest) t ∧ DistinctKeys profile t ∧
    t.depth ≤ deepest

/-- `bytes` is the beginning of a text of the profile that is nested no deeper than `deepest`, and
not much longer than `bytes`. -/
def Viable (profile : Profile) (deepest : Nat) (bytes : Bytes) : Prop :=
  Ends profile deepest (bytes.length + deepest + 32) bytes

/-- `content` is the beginning of the content of a string literal. -/
def Extends (profile : Profile) (content : Bytes) : Prop :=
  ∃ rest text, Content profile (content ++ rest) text

theorem Ends.left (rest : Bytes) (h : Ends profile deepest room (before ++ rest)) :
    Ends profile deepest (rest.length + room) before := by
  obtain ⟨rest', t, hRoom, hText, hKeys, hDepth⟩ := h
  refine ⟨rest ++ rest', t, ?_, by rwa [← List.append_assoc], hKeys, hDepth⟩
  rw [List.length_append]
  exact Nat.add_le_add_left hRoom _

theorem Ends.mono {room' : Nat} (h : Ends profile deepest room before) (hRoom : room ≤ room') :
    Ends profile deepest room' before := by
  obtain ⟨rest, t, hRest, hText⟩ := h
  exact ⟨rest, t, hRest.trans hRoom, hText⟩

/-! ### Completion -/

/-- What may come next at a spot can be completed: the open containers are closed. -/
def Completes (profile : Profile) (deepest level : Nat) (before : Bytes) : Spot → Prop
  | .value => ∀ gap body t, Blank gap → Value profile body t → DistinctKeys profile t →
      level + t.depth ≤ deepest → Ends profile deepest level (before ++ gap ++ body)
  | .element => ∀ gap body elements, Blank gap → Elements profile body elements →
      (∀ v ∈ elements, DistinctKeys profile v) → (∀ v ∈ elements, level + v.depth ≤ deepest) →
      Ends profile deepest level (before ++ gap ++ body)
  | .key seen => ∀ gap body members, Blank gap → Members profile body members →
      (profile ≠ .rfc8259LastWins → (members.map Prod.fst).Nodup ∧ ∀ m ∈ members, m.1 ∉ seen) →
      (∀ m ∈ members, DistinctKeys profile m.2) → (∀ m ∈ members, level + m.2.depth ≤ deepest) →
      Ends profile deepest level (before ++ gap ++ body)

/-- An array that is closed after its elements. -/
theorem Completes.openArray (h : Completes profile deepest level before .value)
    (hDepth : level + 1 ≤ deepest) :
    Completes profile deepest (level + 1) (before ++ [0x5b]) .element := by
  intro gap body elements hGap hBody hKeys hDeep
  have hArray := h [] _ _ (List.forall_mem_nil _)
    (.array hGap hBody (List.forall_mem_nil _ : Blank []))
    (fun hProfile => (Tree.uniqueKeys_array _).mpr fun v hv => hKeys v hv hProfile)
    ((Tree.depth_array_le _ _ _).mpr ⟨hDepth, hDeep⟩)
  rw [Nat.add_comm level]
  refine Ends.left [0x5d] ?_
  simpa using hArray

/-- An object that is closed after its members. -/
theorem Completes.openObject (h : Completes profile deepest level before .value)
    (hDepth : level + 1 ≤ deepest) :
    Completes profile deepest (level + 1) (before ++ [0x7b]) (.key []) := by
  intro gap body members hGap hBody hNames hKeys hDeep
  have hObject := h [] _ _ (List.forall_mem_nil _)
    (.object hGap hBody (List.forall_mem_nil _ : Blank []))
    (fun hProfile => (Tree.uniqueKeys_object _).mpr ⟨(hNames hProfile).1, fun m hm =>
      hKeys m hm hProfile⟩)
    ((Tree.depth_object_le _ _ _).mpr ⟨hDepth, hDeep⟩)
  rw [Nat.add_comm level]
  refine Ends.left [0x7d] ?_
  simpa using hObject

theorem Leads.completes {spot : Spot} (h : Leads profile deepest level spot before) :
    Completes profile deepest level before spot := by
  induction h with
  | start =>
      intro gap body t hGap hValue hKeys hDepth
      rw [Nat.zero_add] at hDepth
      exact ⟨[], t, Nat.zero_le _, ⟨gap, body, [], hGap, hValue, List.forall_mem_nil _, by simp⟩,
        hKeys, hDepth⟩
  | @space level spot before gap _ hGap ih =>
      cases spot with
      | value =>
          intro gap' body t hGap' hValue hKeys hDepth
          have := ih (gap ++ gap') body t (hGap.append hGap') hValue hKeys hDepth
          simpa using this
      | element =>
          intro gap' body elements hGap' hBody hKeys hDepth
          have := ih (gap ++ gap') body elements (hGap.append hGap') hBody hKeys hDepth
          simpa using this
      | key seen =>
          intro gap' body members hGap' hBody hNames hKeys hDepth
          have := ih (gap ++ gap') body members (hGap.append hGap') hBody hNames hKeys hDepth
          simpa using this
  | item _ ih =>
      intro gap body t hGap hValue hKeys hDepth
      exact ih gap body [t] hGap (.last hValue) (by simpa using hKeys) (by simpa using hDepth)
  | openArray _ hDepth ih => exact ih.openArray hDepth
  | @nextElement level before body gap t _ hValue hKeys hDepth hGap ih =>
      intro gap' body' elements hGap' hBody hKeys' hDepth'
      have := ih [] _ _ (List.forall_mem_nil _) (.more hValue hGap hGap' hBody)
        (List.forall_mem_cons.mpr ⟨hKeys, hKeys'⟩) (List.forall_mem_cons.mpr ⟨hDepth, hDepth'⟩)
      simpa using this
  | openObject _ hDepth ih => exact ih.openObject hDepth
  | @memberValue level before content key a seen _ hContent hUnused hA ih =>
      intro gap body t hGap hValue hKeys hDepth
      have := ih [] _ _ (List.forall_mem_nil _) (.last hContent hA hGap hValue)
        (fun hProfile => ⟨by simp, by simpa using hUnused hProfile⟩) (by simpa using hKeys)
        (by simpa using hDepth)
      simpa using this
  | @nextMember level before content key a b body gap seen t _ hContent hUnused hA hB hValue hKeys
      hDepth hGap ih =>
      intro gap' body' members hGap' hBody hNames hKeys' hDepth'
      have := ih [] _ _ (List.forall_mem_nil _) (.more hContent hA hB hValue hGap hGap' hBody)
        (fun hProfile => by
          obtain ⟨hNodup, hNot⟩ := hNames hProfile
          simp only [List.mem_cons, not_or] at hNot
          refine ⟨List.nodup_cons.mpr ⟨fun hMem => ?_, hNodup⟩, List.forall_mem_cons.mpr
            ⟨hUnused hProfile, fun m hm => (hNot m hm).2⟩⟩
          obtain ⟨m, hm, hKey⟩ := List.mem_map.mp hMem
          exact (hNot m hm).1 hKey)
        (List.forall_mem_cons.mpr ⟨hKeys, hKeys'⟩) (List.forall_mem_cons.mpr ⟨hDepth, hDepth'⟩)
      simpa using this

theorem Leads.level_le {spot : Spot} (h : Leads profile deepest level spot before) :
    level ≤ deepest := by
  induction h with
  | start => exact Nat.zero_le _
  | space _ _ ih => exact ih
  | item _ ih => exact ih
  | openArray _ hDepth _ => exact hDepth
  | nextElement _ _ _ _ _ ih => exact ih
  | openObject _ hDepth _ => exact hDepth
  | memberValue _ _ _ _ ih => exact ih
  | nextMember _ _ _ _ _ _ _ _ _ ih => exact ih

/-- The keys of the object that is open. -/
def Spot.seen : Spot → List Bytes
  | .key seen => seen
  | _ => []

/-- Each key has taken bytes of its own. -/
theorem Leads.seen_le {spot : Spot} (h : Leads profile deepest level spot before) :
    spot.seen.length ≤ before.length := by
  induction h with
  | space _ _ ih =>
      rw [List.length_append]
      exact ih.trans (Nat.le_add_right _ _)
  | nextMember _ _ _ _ _ _ _ _ _ ih =>
      simp only [Spot.seen, quoted, List.length_append, List.length_cons] at ih ⊢
      omega
  | _ => exact Nat.zero_le _

/-! ### Literals that are not closed -/

theorem encode_replicate (n : Nat) :
    Utf8.encode (List.replicate n 'x') = List.replicate n 0x78 := by
  induction n with
  | zero => rfl
  | succ n ih =>
      rw [List.replicate_succ, List.replicate_succ, Utf8.encode_cons, ih]
      rfl

/-- A literal may go on with any number of letters. -/
theorem Content.letters (h : Content profile content text) (n : Nat) :
    Content profile (content ++ List.replicate n 0x78) (text ++ List.replicate n 0x78) := by
  by_cases hProfile : profile = .contractAscii
  · rw [Content, if_pos hProfile] at h ⊢
    refine ⟨fun byte hByte => ?_, by rw [h.2]⟩
    rcases List.mem_append.mp hByte with hByte | hByte
    · exact h.1 byte hByte
    · rw [List.eq_of_mem_replicate hByte]
      exact ⟨by decide, by decide, by decide, by decide⟩
  · rw [Content, if_neg hProfile] at h ⊢
    have hLetters : StringUnits Unescaped (Utf8.encode (List.replicate n 'x'))
        (Utf8.encode (List.replicate n 'x')) := by
      refine .encode fun c hc => ?_
      rw [List.eq_of_mem_replicate hc]
      exact ⟨by decide, by decide, by decide⟩
    rw [encode_replicate] at hLetters
    exact h.append hLetters

theorem Content.nil (profile : Profile) : Content profile [] [] := by
  by_cases hProfile : profile = .contractAscii
  · rw [Content, if_pos hProfile]
    exact ⟨List.forall_mem_nil _, rfl⟩
  · rw [Content, if_neg hProfile]
    exact .nil

theorem StringUnit.unit_length_le {Raw : Char → Prop} {unit decoded : Bytes}
    (h : StringUnit Raw unit decoded) :
    unit.length ≤ 12 := by
  cases h with
  | scalar c raw => exact (length_encodeChar_le c).1.trans (by decide)
  | simple escapes => exact (by decide : 2 ≤ 12)
  | point c unit nonzero => simp [unit.length]
  | pair c high low highRange lowRange value => simp [high.length, low.length]

/-- What begins like the units of a literal breaks off in one of them. -/
theorem StringUnits.extends_short {Raw : Char → Prop} {bytes text content rest : Bytes}
    (h : StringUnits Raw bytes text) (hSplit : content ++ rest = bytes) :
    ∃ rest' text', rest'.length ≤ 12 ∧ StringUnits Raw (content ++ rest') text' := by
  induction h generalizing content with
  | nil =>
      exact ⟨[], [], Nat.zero_le _,
        by rw [List.append_nil, (List.append_eq_nil_iff.mp hSplit).1]; exact .nil⟩
  | @cons unit decoded tail text head _ ih =>
      rcases List.append_eq_append_iff.mp hSplit with ⟨more, rfl, -⟩ | ⟨content', rfl, hTail⟩
      · refine ⟨more, decoded, ?_, head.units⟩
        have := head.unit_length_le
        rw [List.length_append] at this
        omega
      · obtain ⟨rest', text', hRest, hUnits⟩ := ih hTail.symm
        exact ⟨rest', decoded ++ text', hRest, by rw [List.append_assoc]; exact .cons head hUnits⟩

/-- The content of a literal is never far from an end. -/
theorem Extends.short (h : Extends profile content) :
    ∃ rest text, rest.length ≤ 12 ∧ Content profile (content ++ rest) text := by
  obtain ⟨rest, text, hContent⟩ := h
  by_cases hProfile : profile = .contractAscii
  · rw [Content, if_pos hProfile] at hContent
    refine ⟨[], content, Nat.zero_le _, ?_⟩
    rw [Content, if_pos hProfile, List.append_nil]
    exact ⟨fun byte hByte => hContent.1 byte (List.mem_append_left _ hByte), rfl⟩
  · rw [Content, if_neg hProfile] at hContent
    simp only [Content, if_neg hProfile]
    exact hContent.extends_short rfl

/-- With letters enough, a key is none of finitely many. -/
theorem exists_unused (profile : Profile) (seen : List Bytes) (text : Bytes) :
    ∃ n ≤ seen.length, Unused profile seen (text ++ List.replicate n 0x78) := by
  by_contra hUsed
  push Not at hUsed
  -- one more candidate than there are keys
  let candidates :=
    (List.range (seen.length + 1)).map fun n => text ++ List.replicate n (0x78 : UInt8)
  have hNodup : candidates.Nodup := by
    refine List.Nodup.map (fun m n hSame => ?_) List.nodup_range
    simpa using congrArg List.length hSame
  have hSubset : candidates ⊆ seen := by
    intro key hKey
    obtain ⟨n, hn, rfl⟩ := List.mem_map.mp hKey
    have hUsed' := hUsed n (Nat.lt_succ_iff.mp (List.mem_range.mp hn))
    rw [Unused, not_forall, exists_prop, not_not] at hUsed'
    exact hUsed'.2
  have hLength := (hNodup.subperm hSubset).length_le
  simp only [candidates, List.length_map, List.length_range] at hLength
  omega

/-- A string literal may begin here, as a value or as a key. -/
def LiteralAt (profile : Profile) (deepest level : Nat) (before : Bytes) : Prop :=
  Leads profile deepest level .value before ∨ ∃ seen, Leads profile deepest level (.key seen) before

theorem Leads.ends_value (h : Leads profile deepest level .value before) :
    Ends profile deepest (4 + level) before := by
  have hEnds := h.completes [] _ _ (List.forall_mem_nil _) .null (fun _ => rfl) h.level_le
  exact ((hEnds.left [0x6e, 0x75, 0x6c, 0x6c]).left []).mono (Nat.zero_add _).le

theorem LiteralAt.level_le (h : LiteralAt profile deepest level before) : level ≤ deepest := by
  rcases h with hValue | ⟨seen, hKey⟩
  · exact hValue.level_le
  · exact hKey.level_le

/-- A literal that begins like one can be completed, and what follows it too. -/
theorem LiteralAt.ends_content (h : LiteralAt profile deepest level before)
    (hExtends : Extends profile content) :
    Ends profile deepest (before.length + level + 18) (before ++ [0x22] ++ content) := by
  obtain ⟨rest, text, hRest, hContent⟩ := hExtends.short
  rcases h with hValue | ⟨seen, hKey⟩
  · have hEnds := hValue.completes [] _ _ (List.forall_mem_nil _) (.string hContent) (fun _ => rfl)
      hValue.level_le
    refine (Ends.left (rest ++ [0x22]) (by simpa [quoted] using hEnds)).mono ?_
    simp only [List.length_append, List.length_singleton]
    omega
  · obtain ⟨n, hn, hUnused⟩ := exists_unused profile seen text
    have hSeen : seen.length ≤ before.length := hKey.seen_le
    have hEnds := (hKey.memberValue (hContent.letters n) hUnused
      (List.forall_mem_nil _ : Blank [])).ends_value
    refine (Ends.left (rest ++ List.replicate n 0x78 ++ [0x22, 0x3a])
      (by simpa [quoted] using hEnds)).mono ?_
    simp only [List.length_append, List.length_replicate, List.length_cons, List.length_nil]
    omega

theorem LiteralAt.ends (h : LiteralAt profile deepest level before) :
    Ends profile deepest (before.length + level + 19) before := by
  refine (((h.ends_content ⟨[], [], by simpa using Content.nil profile⟩).left []).left [0x22]).mono
    ?_
  simp only [List.length_nil, List.length_singleton]
  omega

end Grammar

end MaelysJson
