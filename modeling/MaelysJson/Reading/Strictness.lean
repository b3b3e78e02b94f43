import MaelysJson.Reading.Language

/-! The strict and the tolerant profile next to each other: both readers go the same
way until a key comes again in its object. There the strict one stops, and whatever
the tolerant one still reports lies further on. -/
namespace MaelysJson

open Forest Run

namespace Reading

/-- The same reading under the tolerant profile. -/
def tolerant (r : Reading) : Reading := { r with profile := .rfc8259LastWins }

/-- The two readers end alike, or the strict one has stopped at a repeated key that the
tolerant one has passed. -/
def Parts (r : Reading) {α : Type} (least : Nat) (strict tolerant : ReadM α) (place : Place) :
    Prop :=
  r.tolerant.Advances least tolerant place ∧
    match strict place, tolerant place with
    | .ok a next, .ok b next' => a = b ∧ next = next'
    | .error fault _, .error fault' _ =>
        if fault.code = .errDuplicateKey then
          fault.offset < fault'.offset ∧ fault.offset < r.bytes.length
        else fault' = fault
    | .error fault _, .ok _ next => fault.code = .errDuplicateKey ∧ fault.offset < next.offset
    | .ok _ _, .error _ _ => False

variable {r : Reading} {place : Place}

namespace Parts

/-- A part of the reading that does not know the profile. -/
theorem same {α : Type} {least : Nat} {read : ReadM α} (h : r.tolerant.Advances least read place) :
    r.Parts least read read place := by
  refine ⟨h, ?_⟩
  cases hRead : read place with
  | ok a next => exact ⟨rfl, rfl⟩
  | error fault next =>
      have hCode : fault.code ≠ .errDuplicateKey := by
        rcases (h.error hRead).2 with h | h | h | ⟨-, h⟩
        · rw [h]
          nofun
        · rw [h]
          nofun
        · rw [h]
          nofun
        · exact absurd rfl h
      simp only [if_neg hCode]

theorem mono {α : Type} {least least' : Nat} {x y : ReadM α} (h : r.Parts least x y place)
    (hLe : least' ≤ least) : r.Parts least' x y place := ⟨h.1.mono hLe, h.2⟩

theorem bind {α β : Type} {least : Nat} (least' : Nat) {x y : ReadM α} {f g : α → ReadM β}
    (hx : r.Parts least x y place)
    (hf : ∀ a next, y place = .ok a next → place.offset + least ≤ next.offset →
      next.offset ≤ r.bytes.length → r.Parts least' (f a) (g a) next) :
    r.Parts (least + least') (x >>= f) (y >>= g) place := by
  refine ⟨hx.1.bind _ fun a next hRun hLeast hLength => (hf a next hRun hLeast hLength).1, ?_⟩
  have hRun := hx.2
  rw [bind_eq, bind_eq]
  cases hStrict : x place with
  | ok a next =>
      cases hTolerant : y place with
      | ok b next' =>
          rw [hStrict, hTolerant] at hRun
          obtain ⟨rfl, rfl⟩ := hRun
          have := hx.1.ok hTolerant
          exact (hf a next hTolerant this.1 this.2).2
      | error fault' next' =>
          rw [hStrict, hTolerant] at hRun
          exact hRun.elim
  | error fault next =>
      cases hTolerant : y place with
      | error fault' next' =>
          rw [hStrict, hTolerant] at hRun
          exact hRun
      | ok b next' =>
          rw [hStrict, hTolerant] at hRun
          obtain ⟨hCode, hOffset⟩ := hRun
          have hPlace := hx.1.ok hTolerant
          have hLength : next'.offset ≤ r.bytes.length := hPlace.2
          have hRest := (hf b next' hTolerant hPlace.1 hPlace.2).1
          simp only
          -- the tolerant reader goes on from behind the repeated key
          cases hAfter : g b next' with
          | ok c last =>
              have := (hRest.ok hAfter).1
              exact ⟨hCode, by omega⟩
          | error fault' last =>
              have := (hRest.error hAfter).1
              simp only [if_pos hCode]
              exact ⟨by omega, by omega⟩

theorem within {α : Type} {least : Nat} {x y : ReadM α} (h : r.Parts least x y place)
    (step : Step) :
    r.Parts least (Reading.within step x) (Reading.within step y) place := by
  refine ⟨h.1.within step, ?_⟩
  have hRun := h.2
  rw [Reading.within, Reading.within]
  cases hx : x place <;> cases hy : y place <;> rw [hx, hy] at hRun
  · exact hRun
  · exact hRun
  · exact hRun
  · simp only at hRun ⊢
    split_ifs at hRun ⊢
    · exact hRun
    · rw [hRun]

end Parts

/-! ### Keys -/

theorem readString_tolerant (hStrict : r.profile = .rfc8259) :
    r.tolerant.readString = r.readString := by
  funext place
  simp only [readString, tolerant, atEnd, current, content, hStrict, scanStringFrom_lastWins,
    decodeString_lastWins]
  rfl

theorem readString_parts (hStrict : r.profile = .rfc8259) (hPlace : place.offset ≤ r.bytes.length) :
    r.Parts 1 r.readString r.tolerant.readString place := by
  rw [← readString_tolerant hStrict]
  exact .same (readString_advances (r := r.tolerant) hPlace)

theorem readKey_parts (hStrict : r.profile = .rfc8259) (seen : List Bytes)
    (hPlace : place.offset ≤ r.bytes.length) :
    r.Parts 1 (r.readKey seen) (r.tolerant.readKey seen) place := by
  have hKey := readKey_advances (r := r.tolerant) hPlace seen
  have hString := Parts.same (readString_advances (r := r.tolerant) hPlace)
  refine ⟨hKey, ?_⟩
  have hRun := hString.2
  rw [readKey, readKey, ← readString_tolerant hStrict]
  cases hRead : r.tolerant.readString place with
  | error fault next =>
      rw [hRead] at hRun
      exact hRun
  | ok key next =>
      have hTolerant : ¬(r.tolerant.profile ≠ .rfc8259LastWins ∧ key.text ∈ seen) :=
        fun h => h.1 rfl
      simp only [if_neg hTolerant]
      split_ifs
      · have := hString.1.ok hRead
        exact ⟨rfl, by simp only; omega⟩
      · exact ⟨rfl, rfl⟩

/-! ### Values -/

/-- A value is read alike by both readers, wherever it stands. -/
def ValueParts (r : Reading) (strict tolerant : ReadM Source) : Prop :=
  ∀ place : Place, place.offset ≤ r.bytes.length → r.Parts 0 strict tolerant place

theorem readItem_parts {strict tolerant : ReadM Source} (h : r.ValueParts strict tolerant)
    (hPlace : place.offset ≤ r.bytes.length) (closing : UInt8) (step : Step) :
    r.Parts 1 (r.readItem strict closing step) (r.tolerant.readItem tolerant closing step)
      place := by
  refine Parts.within ?_ step
  refine ((h place hPlace).bind 1 fun value next _ _ hNext => ?_).mono (by omega)
  exact Parts.bind 0 (.same (readDelimiter_advances (r := r.tolerant) hNext closing))
    fun closed last _ _ hLast => .same (.pure (value, closed) hLast)

theorem readMembers_parts (hStrict : r.profile = .rfc8259) {strict tolerant : ReadM Source}
    (h : r.ValueParts strict tolerant) (rounds : Nat) (seen : List Bytes)
    (hPlace : place.offset ≤ r.bytes.length) (hRounds : r.bytes.length < place.offset + rounds) :
    r.Parts 0 (r.readMembers strict rounds seen) (r.tolerant.readMembers tolerant rounds seen)
      place := by
  induction rounds generalizing place seen with
  | zero => omega
  | succ rounds ih =>
      refine ((readKey_parts hStrict seen hPlace).bind 0 fun key next _ hKey hNext => ?_).mono
        (Nat.zero_le _)
      refine Parts.bind 0 (.same (readSpace_advances (r := r.tolerant) hNext))
        fun _ next' _ hSpace hNext' => ?_
      refine (Parts.bind 0 (.same (readByte_advances (r := r.tolerant) 0x3a))
        fun _ next'' _ hColon hNext'' => ?_).mono (Nat.zero_le _)
      refine ((readItem_parts h hNext'' 0x7d _).bind 0 fun item last _ hItem hLast => ?_).mono
        (Nat.zero_le _)
      obtain ⟨value, closed⟩ := item
      cases closed with
      | true => exact .same (.pure _ hLast)
      | false =>
          exact (ih (key.text :: seen) hLast (by omega)).bind 0 fun rest place _ _ hEnd =>
            .same (.pure _ hEnd)

theorem readElements_parts {strict tolerant : ReadM Source} (h : r.ValueParts strict tolerant)
    (rounds position : Nat) (hPlace : place.offset ≤ r.bytes.length)
    (hRounds : r.bytes.length < place.offset + rounds) :
    r.Parts 0 (r.readElements strict rounds position)
      (r.tolerant.readElements tolerant rounds position)
      place := by
  induction rounds generalizing place position with
  | zero => omega
  | succ rounds ih =>
      refine ((readItem_parts h hPlace 0x5d _).bind 0 fun item last _ hItem hLast => ?_).mono
        (Nat.zero_le _)
      obtain ⟨value, closed⟩ := item
      cases closed with
      | true => exact .same (.pure _ hLast)
      | false =>
          exact (ih (position + 1) hLast (by omega)).bind 0 fun rest place _ _ hEnd =>
            .same (.pure _ hEnd)

theorem readObject_parts (hStrict : r.profile = .rfc8259) {strict tolerant : ReadM Source}
    {depth : Nat} (hPlace : place.offset + 1 ≤ r.bytes.length)
    (h : depth < r.maximumDepth → r.ValueParts strict tolerant) :
    r.Parts 0 (r.readObject strict depth) (r.tolerant.readObject tolerant depth) place := by
  rw [Parts, Advances, readObject_eq, readObject_eq]
  refine Parts.bind 0
    (.same (openContainer_advances (r := r.tolerant) hPlace depth 0x7d))
    fun closed next hOpen _ hNext => ?_
  have hValue := h (openContainer_depth (r := r.tolerant) hOpen)
  cases closed with
  | true => exact .same ⟨le_rfl, hNext⟩
  | false =>
      exact (readMembers_parts hStrict hValue (r.bytes.length + 1) [] hNext (by omega)).bind 0
        (f := fun members => get >>=
          fun last => pure (Source.object ⟨place.offset, last.offset⟩ members))
        fun members last _ _ hLast => .same ⟨le_rfl, hLast⟩

theorem readArray_parts {strict tolerant : ReadM Source} {depth : Nat}
    (hPlace : place.offset + 1 ≤ r.bytes.length)
    (h : depth < r.maximumDepth → r.ValueParts strict tolerant) :
    r.Parts 0 (r.readArray strict depth) (r.tolerant.readArray tolerant depth) place := by
  rw [Parts, Advances, readArray_eq, readArray_eq]
  refine Parts.bind 0
    (.same (openContainer_advances (r := r.tolerant) hPlace depth 0x5d))
    fun closed next hOpen _ hNext => ?_
  have hValue := h (openContainer_depth (r := r.tolerant) hOpen)
  cases closed with
  | true => exact .same ⟨le_rfl, hNext⟩
  | false =>
      exact (readElements_parts hValue (r.bytes.length + 1) 0 hNext (by omega)).bind 0
        (f := fun elements => get >>=
          fun last => pure (Source.array ⟨place.offset, last.offset⟩ elements))
        fun elements last _ _ hLast => .same ⟨le_rfl, hLast⟩

theorem readValue_parts (hStrict : r.profile = .rfc8259) (fuel depth : Nat)
    (hFuel : depth + fuel = r.maximumDepth + 1) (hDepth : depth ≤ r.maximumDepth) :
    r.ValueParts (r.readValue fuel depth) (r.tolerant.readValue fuel depth) := by
  induction fuel generalizing depth with
  | zero => omega
  | succ fuel ih =>
      intro place hPlace
      have hItem : depth < r.maximumDepth →
          r.ValueParts (r.readValue fuel (depth + 1)) (r.tolerant.readValue fuel (depth + 1)) :=
        fun hLt => ih _ (by omega) hLt
      refine Parts.bind 0 (.same (readSpace_advances (r := r.tolerant) hPlace))
        fun _ next _ _ hNext => ?_
      have hEndSame : r.tolerant.atEnd next = r.atEnd next := rfl
      have hCurrentSame : r.tolerant.current next = r.current next := rfl
      rw [Parts, Advances, get_bind, get_bind, hEndSame, hCurrentSame]
      by_cases hEnd : r.atEnd next = true
      · rw [if_pos hEnd, if_pos hEnd]
        exact @Parts.same _ _ Source 0 _ (.refuse le_rfl (Or.inl rfl))
      rw [if_neg hEnd, if_neg hEnd]
      by_cases hObject : r.current next = 0x7b
      · rw [if_pos hObject, if_pos hObject]
        exact readObject_parts hStrict (lt_of_not_atEnd hEnd) hItem
      rw [if_neg hObject, if_neg hObject]
      by_cases hArray : r.current next = 0x5b
      · rw [if_pos hArray, if_pos hArray]
        exact readArray_parts (lt_of_not_atEnd hEnd) hItem
      rw [if_neg hArray, if_neg hArray]
      by_cases hString : r.current next = 0x22
      · rw [if_pos hString, if_pos hString]
        exact ((readString_parts hStrict hNext).bind 0
          (f := fun literal => pure (Source.string literal))
          (g := fun literal => pure (Source.string literal))
          fun literal last _ _ hLast => .same (.pure _ hLast)).mono (Nat.zero_le _)
      · rw [if_neg hString, if_neg hString]
        exact Parts.same (readPrimitive_advances (r := r.tolerant) hNext)

theorem readText_eq (r : Reading) :
    r.readText = match r.readValue (r.maximumDepth + 1) 0 ⟨0, 0⟩ with
    | .error fault _ => .error fault
    | .ok value place =>
        if spaceEnd r.bytes place.offset ≠ r.bytes.length then
          .error ⟨.errSyntax, spaceEnd r.bytes place.offset, []⟩
        else .ok value := rfl

/-- The whole text under both profiles. -/
theorem readText_parts (hStrict : r.profile = .rfc8259) :
    match r.readText, r.tolerant.readText with
    | .ok s, .ok s' => s = s'
    | .error fault, .error fault' =>
        if fault.code = .errDuplicateKey then
          fault.offset < fault'.offset ∧ fault.offset < r.bytes.length
        else fault' = fault
    | .error fault, .ok _ => fault.code = .errDuplicateKey
    | .ok _, .error _ => False := by
  have hParts := readValue_parts hStrict (r.maximumDepth + 1) 0 (by omega) (Nat.zero_le _)
    ⟨0, 0⟩ (Nat.zero_le _)
  have hRun := hParts.2
  rw [readText_eq, readText_eq]
  cases hx : r.readValue (r.maximumDepth + 1) 0 ⟨0, 0⟩ with
  | ok s next =>
      cases hy : r.tolerant.readValue (r.maximumDepth + 1) 0 ⟨0, 0⟩ with
      | error fault' next' =>
          rw [hx, hy] at hRun
          exact hRun.elim
      | ok s' next' =>
          rw [hx, hy] at hRun
          obtain ⟨rfl, rfl⟩ := hRun
          have hy' : r.tolerant.readValue (r.tolerant.maximumDepth + 1) 0 ⟨0, 0⟩ = .ok s next := hy
          simp only [hy']
          by_cases hEnd : spaceEnd r.bytes next.offset ≠ r.bytes.length
          · have hEnd' : spaceEnd r.tolerant.bytes next.offset ≠ r.tolerant.bytes.length := hEnd
            rw [if_pos hEnd, if_pos hEnd']
            rfl
          · have hEnd' : ¬spaceEnd r.tolerant.bytes next.offset ≠ r.tolerant.bytes.length := hEnd
            rw [if_neg hEnd, if_neg hEnd']
  | error fault next =>
      cases hy : r.tolerant.readValue (r.maximumDepth + 1) 0 ⟨0, 0⟩ with
      | error fault' next' =>
          rw [hx, hy] at hRun
          have hy' : r.tolerant.readValue (r.tolerant.maximumDepth + 1) 0 ⟨0, 0⟩ =
            .error fault' next' := hy
          rw [hy']
          exact hRun
      | ok s' next' =>
          rw [hx, hy] at hRun
          obtain ⟨hCode, hOffset⟩ := hRun
          have hy' : r.tolerant.readValue (r.tolerant.maximumDepth + 1) 0 ⟨0, 0⟩ = .ok s' next' :=
            hy
          have hLength : next'.offset ≤ r.bytes.length := (hParts.1.ok hy).2
          have hSpace : next'.offset ≤ spaceEnd r.tolerant.bytes next'.offset := le_scanWhile _ _ _
          simp only [hy']
          by_cases hEnd : spaceEnd r.tolerant.bytes next'.offset ≠ r.tolerant.bytes.length
          · rw [if_pos hEnd]
            simp only [if_pos hCode]
            exact ⟨by omega, by omega⟩
          · rw [if_neg hEnd]
            exact hCode

end Reading

/-! ### Documents -/

theorem layOutChildren_congr {document document' : Document}
    (hTokens : document.tokens = document'.tokens) (hArena : document.arena = document'.arena)
    (hChildren : document.children = document'.children) (index : Nat) :
    (layOutChildren document index).tokens = (layOutChildren document' index).tokens ∧
      (layOutChildren document index).arena = (layOutChildren document' index).arena ∧
      (layOutChildren document index).children = (layOutChildren document' index).children := by
  have hToken : document'.token index = document.token index := by
    rw [Document.token, Document.token, hTokens]
  simp only [layOutChildren, hToken]
  by_cases hContainer : (document.token index).isContainer = true
  · rw [if_pos hContainer, if_pos hContainer]
    refine ⟨?_, hArena, ?_⟩
    · simp only [Document.updateToken, hTokens, hChildren]
    · simp only [hTokens, hChildren]
  · rw [if_neg hContainer, if_neg hContainer]
    exact ⟨hTokens, hArena, hChildren⟩

/-- Documents with one table have one layout of children. -/
theorem buildChildren_congr {document document' : Document}
    (hTokens : document.tokens = document'.tokens) (hArena : document.arena = document'.arena)
    {heap heap' : Heap} {published published' : Document} {after after' : Heap}
    (h : buildChildren document heap = (.ok, published, after))
    (h' : buildChildren document' heap' = (.ok, published', after')) :
    published.tokens = published'.tokens ∧ published.arena = published'.arena ∧
      published.children = published'.children := by
  have hFold (n : Nat) :
      let laid := (List.range n).foldl layOutChildren { document with children := [] }
      let laid' := (List.range n).foldl layOutChildren { document' with children := [] }
      laid.tokens = laid'.tokens ∧ laid.arena = laid'.arena ∧ laid.children = laid'.children := by
    induction n with
    | zero => exact ⟨hTokens, hArena, rfl⟩
    | succ n ih =>
        simp only [List.range_succ, List.foldl_append, List.foldl_cons, List.foldl_nil]
        exact layOutChildren_congr ih.1 ih.2.1 ih.2.2 n
  have hLaid {document : Document} {heap : Heap} {published : Document} {after : Heap}
      (h : buildChildren document heap = (.ok, published, after)) : published =
      (List.range document.tokens.length).foldl layOutChildren
        { document with children := [] } := by
    simp only [buildChildren] at h
    split_ifs at h
    · cases h
      rfl
    · cases h
  have hLength : document.tokens.length = document'.tokens.length := by rw [hTokens]
  rw [hLaid h, hLaid h', hLength]
  exact hFold _

/-! ### The two profiles -/

variable {heap heap' : Heap} {bytes : Bytes} {requested : Option Limits} {limits : Limits}
  {bound bound' : Nat}

/-- Where no key repeats, both profiles give one document; any other error is the same
error at the same place; and where the strict profile stops at a repeated key, the
tolerant one counts it or fails further on. -/
theorem documentParse_strict_tolerant (hHeap : heap.Generous) (hHeap' : heap'.Generous)
    (hLimits : limitsResolve requested = .ok limits) (hSize : bytes.length ≤ limits.maximumBytes)
    (hBound : documentParseAllocationBound bytes.length .rfc8259 requested = .ok bound)
    (hBound' : documentParseAllocationBound bytes.length .rfc8259LastWins requested = .ok bound') :
    let strict := documentParse heap (.buffer bytes) .rfc8259 requested true
    let tolerant := documentParse heap' (.buffer bytes) .rfc8259LastWins requested true
    (strict.result = .ok → tolerant.result = .ok ∧
      ∃ document document', strict.document = some document ∧ tolerant.document = some document' ∧
        documentDuplicateCount document' = 0 ∧ document'.tokens = document.tokens ∧
        document'.arena = document.arena ∧ document'.children = document.children) ∧
    (strict.result ≠ .ok → strict.result ≠ .errDuplicateKey →
      tolerant.result = strict.result ∧ tolerant.error = strict.error) ∧
    (strict.result = .errDuplicateKey → ∃ error, strict.error = some error ∧
      ((tolerant.result = .ok ∧ ∃ document', tolerant.document = some document' ∧
          1 ≤ documentDuplicateCount document') ∨
        (tolerant.result ≠ .ok ∧ ∃ error', tolerant.error = some error' ∧
          error.offset < error'.offset))) := by
  intro strict tolerant
  have hStrict := documentParse_reads hHeap hLimits hSize hBound true
  have hTolerant := documentParse_reads hHeap' hLimits hSize hBound' true
  have hParts := Reading.readText_parts (r := readingOf bytes .rfc8259 limits) rfl
  have hSame : (readingOf bytes .rfc8259 limits).tolerant =
    readingOf bytes .rfc8259LastWins limits := rfl
  rw [hSame] at hParts
  cases hx : (readingOf bytes .rfc8259 limits).readText with
  | ok s =>
      cases hy : (readingOf bytes .rfc8259LastWins limits).readText with
      | error fault' =>
          rw [hx, hy] at hParts
          exact hParts.elim
      | ok s' =>
          rw [hx, hy] at hParts
          obtain rfl : s = s' := hParts
          rw [hx] at hStrict
          rw [hy] at hTolerant
          obtain ⟨parsed, before, document, after, hParsed, hBefore, hPublish, hRun⟩ := hStrict
          obtain ⟨parsed', before', document', after', hParsed', hBefore', hPublish', hRun'⟩ :=
            hTolerant
          have hStrictRun : strict = ⟨.ok, some document, freshError true, after⟩ := hRun
          have hTolerantRun : tolerant = ⟨.ok, some document', freshError true, after'⟩ := hRun'
          rw [hStrictRun, hTolerantRun]
          have hUnique : s.json.uniqueKeys = true :=
            ((Reading.readText_iff _ s.json).mp ⟨s, hx, rfl⟩).2.2.2 (by simp [readingOf])
          have hNone : s.json.duplicates = 0 := Tree.duplicates_eq_zero.mpr hUnique
          have hCount : parsed.duplicateCount = 0 := hParsed.duplicates.trans hNone
          have hCount' : parsed'.duplicateCount = 0 := hParsed'.duplicates.trans hNone
          obtain ⟨published, after'', -, hBuilt, -, -, -, -, -,
            hKept⟩ := publishDocument_published hBefore'
            hParsed'.shows hParsed'.marks hParsed'.duplicates
          rw [hPublish'] at hBuilt
          cases hBuilt
          simp only [publishDocument, hCount, hCount', ne_eq, not_true_eq_false, if_false, if_true]
            at hPublish hPublish'
          obtain ⟨hTokens, hArena⟩ := hParsed'.tables_eq hParsed
          exact ⟨fun _ => ⟨rfl, document, document', rfl, rfl, hKept.trans hCount',
            buildChildren_congr hTokens hArena hPublish' hPublish⟩, fun h =>
              absurd rfl h, (by simp)⟩
  | error fault =>
      rw [hx] at hStrict
      obtain ⟨after, hRun⟩ := hStrict
      have hOk := (Reading.readText_reports hx).ne.1
      have hStrictRun : strict = ⟨fault.code, none,
        errorSet (freshError true) fault.code (some bytes) bytes.length fault.offset, after⟩ := hRun
      rw [hStrictRun]
      cases hy : (readingOf bytes .rfc8259LastWins limits).readText with
      | error fault' =>
          rw [hx, hy] at hParts
          rw [hy] at hTolerant
          obtain ⟨after', hRun'⟩ := hTolerant
          have hOk' := (Reading.readText_reports hy).ne.1
          have hTolerantRun : tolerant = ⟨fault'.code, none,
            errorSet (freshError true) fault'.code (some bytes) bytes.length fault'.offset,
            after'⟩ := hRun'
          rw [hTolerantRun]
          refine ⟨fun h => absurd h hOk, fun _ hCode => ?_, fun hCode => ?_⟩
          · have hCode' : ¬fault.code = .errDuplicateKey := hCode
            simp only [if_neg hCode'] at hParts
            rw [hParts]
            exact ⟨rfl, rfl⟩
          · have hCode' : fault.code = .errDuplicateKey := hCode
            simp only [if_pos hCode'] at hParts
            obtain ⟨hFurther, hInside⟩ := hParts
            have hInside' : fault.offset < bytes.length := hInside
            refine ⟨_, rfl, Or.inr ⟨hOk', _, rfl, ?_⟩⟩
            simp only
            split_ifs <;> omega
      | ok s' =>
          rw [hx, hy] at hParts
          rw [hy] at hTolerant
          obtain ⟨parsed', before', document', after', hParsed', hBefore', hPublish', hRun'⟩ :=
            hTolerant
          have hTolerantRun : tolerant = ⟨.ok, some document', freshError true, after'⟩ := hRun'
          rw [hTolerantRun]
          have hCode : fault.code = .errDuplicateKey := hParts
          refine ⟨fun h => absurd h hOk, fun _ h => absurd hCode h,
            fun _ => ⟨_, rfl, Or.inl ⟨rfl, document', rfl, ?_⟩⟩⟩
          obtain ⟨published, after'', -, hBuilt, -, -, -, -, -,
            hKept⟩ := publishDocument_published hBefore'
            hParsed'.shows hParsed'.marks hParsed'.duplicates
          rw [hPublish'] at hBuilt
          cases hBuilt
          rw [documentDuplicateCount, hKept, hParsed'.duplicates, Nat.one_le_iff_ne_zero]
          -- a text without repeated keys would have been accepted by the strict profile
          intro hNone
          obtain ⟨hText, hRoom, hDepth, -⟩ := (Reading.readText_iff _ s'.json).mp ⟨s', hy, rfl⟩
          obtain ⟨s, hRead,
            -⟩ := (Reading.readText_iff (readingOf bytes .rfc8259 limits) s'.json).mpr
            ⟨Grammar.text_lastWins.mp hText, hRoom, hDepth,
              fun _ => Tree.duplicates_eq_zero.mp hNone⟩
          rw [hx] at hRead
          cases hRead

/-- The text `{"a":1,"a":2}`, whose second key the strict profile refuses. -/
theorem documentParse_strict_tolerant_repeated :
    let bytes : Bytes :=
      [0x7b, 0x22, 0x61, 0x22, 0x3a, 0x31, 0x2c, 0x22, 0x61, 0x22, 0x3a, 0x32, 0x7d]
    let strict := documentParse ⟨fun _ => true, []⟩ (.buffer bytes) .rfc8259 none true
    let tolerant := documentParse ⟨fun _ => true, []⟩ (.buffer bytes) .rfc8259LastWins none true
    (strict.result = .ok → tolerant.result = .ok ∧
      ∃ document document', strict.document = some document ∧ tolerant.document = some document' ∧
        documentDuplicateCount document' = 0 ∧ document'.tokens = document.tokens ∧
        document'.arena = document.arena ∧ document'.children = document.children) ∧
    (strict.result ≠ .ok → strict.result ≠ .errDuplicateKey →
      tolerant.result = strict.result ∧ tolerant.error = strict.error) ∧
    (strict.result = .errDuplicateKey → ∃ error, strict.error = some error ∧
      ((tolerant.result = .ok ∧ ∃ document', tolerant.document = some document' ∧
          1 ≤ documentDuplicateCount document') ∨
        (tolerant.result ≠ .ok ∧ ∃ error', tolerant.error = some error' ∧
          error.offset < error'.offset))) :=
  @documentParse_strict_tolerant _ _ _ _ ⟨65535, 32, 8192⟩ 1609 2884
    (fun _ => rfl) (fun _ => rfl) (by decide) (by decide) (by decide) (by decide)

end MaelysJson
