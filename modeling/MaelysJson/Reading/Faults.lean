import MaelysJson.Reading.Soundness

/-! Where a reading can end: it only goes forward, a fault lies at or after the
place where the faulty part begins, and the bounds on rounds and nesting are never
what ends it. -/
namespace MaelysJson

open Grammar Run

/-- The codes a reader reports; only a strict one minds a repeated key. -/
def Reading.Reports (r : Reading) (code : Result) : Prop :=
  code = .errSyntax ∨ code = .errUtf8 ∨ code = .errLimit ∨
    (code = .errDuplicateKey ∧ r.profile ≠ .rfc8259LastWins)

theorem decodeString_reports (r : Reading) {bytes : Bytes} {profile : Profile} {code : Result}
    {bad : Nat} (h : decodeString bytes profile = .error (code, bad)) : r.Reports code := by
  have hFrom (rounds input : Nat) (out : Bytes)
      (h : decodeStringFrom bytes profile rounds input out = .error (code, bad)) :
        r.Reports code := by
    induction rounds generalizing input out with
    | zero => cases h
    | succ rounds ih =>
        simp only [decodeStringFrom] at h
        split_ifs at h
        · cases h
          exact Or.inl rfl
        · exact ih _ _ h
        · cases h
          exact Or.inr (Or.inl rfl)
        · exact ih _ _ h
        · cases h
          exact Or.inl rfl
        · cases h
          exact Or.inl rfl
        · exact ih _ _ h
        · cases hEscape : simpleEscape (byteAt bytes (input + 1)) with
          | none =>
              rw [hEscape] at h
              cases h
              exact Or.inl rfl
          | some decoded =>
              rw [hEscape] at h
              exact ih _ _ h
  exact hFrom _ _ _ h

theorem scanStringFrom_refused {profile : Profile} {bytes : Bytes} {rounds start offset : Nat}
    (h : scanStringFrom profile bytes rounds start = .refused offset) : start ≤ offset := by
  induction rounds generalizing start with
  | zero => cases h
  | succ rounds ih =>
      simp only [scanStringFrom] at h
      split_ifs at h
      · cases h
        exact le_rfl
      · cases h
        exact le_rfl
      · exact (Nat.le_add_right _ _).trans (ih h)
      · exact (Nat.le_add_right _ _).trans (ih h)

namespace Reading

/-- From `place`, a reading ends at least `least` bytes further on, inside the text,
or with a reported fault at or after `place`. -/
def Advances (r : Reading) {α : Type} (least : Nat) (read : ReadM α) (place : Place) : Prop :=
  match read place with
  | .ok _ next => place.offset + least ≤ next.offset ∧ next.offset ≤ r.bytes.length
  | .error fault _ => place.offset ≤ fault.offset ∧ r.Reports fault.code

variable {r : Reading} {place : Place}

namespace Advances

theorem ok {α : Type} {least : Nat} {read : ReadM α} (h : r.Advances least read place) {a : α}
    {next : Place} (hRun : read place = .ok a next) :
    place.offset + least ≤ next.offset ∧ next.offset ≤ r.bytes.length := by
  rwa [Advances, hRun] at h

theorem error {α : Type} {least : Nat} {read : ReadM α} (h : r.Advances least read place)
    {fault : Fault} {next : Place} (hRun : read place = .error fault next) :
    place.offset ≤ fault.offset ∧ r.Reports fault.code := by
  rwa [Advances, hRun] at h

theorem pure {α : Type} (a : α) (hPlace : place.offset ≤ r.bytes.length) :
    r.Advances 0 (pure a : ReadM α) place := ⟨le_rfl, hPlace⟩

theorem refuse {α : Type} {least : Nat} {code : Result} {offset : Nat}
    (hOffset : place.offset ≤ offset) (hCode : r.Reports code) :
    r.Advances least (Reading.refuse code offset : ReadM α) place :=
  ⟨hOffset, hCode⟩

theorem mono {α : Type} {least least' : Nat} {read : ReadM α} (h : r.Advances least read place)
    (hLe : least' ≤ least) : r.Advances least' read place := by
  cases hRead : read place with
  | ok a next =>
      have := h.ok hRead
      rw [Advances, hRead]
      exact ⟨by omega, this.2⟩
  | error fault next =>
      have := h.error hRead
      rw [Advances, hRead]
      exact this

theorem bind {α β : Type} {least : Nat} (least' : Nat) {x : ReadM α} {f : α → ReadM β}
    (hx : r.Advances least x place)
    (hf : ∀ a next, x place = .ok a next → place.offset + least ≤ next.offset →
      next.offset ≤ r.bytes.length → r.Advances least' (f a) next) :
    r.Advances (least + least') (x >>= f) place := by
  rw [Advances, bind_eq]
  cases hRun : x place with
  | error fault next => exact hx.error hRun
  | ok a next =>
      obtain ⟨hLeast, hLength⟩ := hx.ok hRun
      have hNext := hf a next hRun hLeast hLength
      simp only
      cases hRun' : f a next with
      | error fault last =>
          have := hNext.error hRun'
          exact ⟨by omega, this.2⟩
      | ok b last =>
          have := hNext.ok hRun'
          exact ⟨by omega, this.2⟩

theorem within {α : Type} {least : Nat} {read : ReadM α} (h : r.Advances least read place)
    (step : Step) :
    r.Advances least (Reading.within step read) place := by
  rw [Advances, Reading.within]
  cases hRead : read place with
  | ok a next => exact h.ok hRead
  | error fault next =>
      have hError := h.error hRead
      exact hError

end Advances

/-! ### Tokens of the text -/

theorem readSpace_advances (hPlace : place.offset ≤ r.bytes.length) :
    r.Advances 0 r.readSpace place :=
  ⟨le_scanWhile _ _ _, scanWhile_le _ _ _ hPlace⟩

theorem advance_advances {least : Nat} (hPlace : place.offset + least ≤ r.bytes.length) :
    r.Advances least (advance (place.offset + least)) place := ⟨le_rfl, hPlace⟩

theorem lt_of_not_atEnd (h : ¬r.atEnd place = true) : place.offset + 1 ≤ r.bytes.length := by
  rw [atEnd, decide_eq_true_eq, not_le] at h
  exact h

theorem readByte_advances (byte : UInt8) : r.Advances 1 (r.readByte byte) place := by
  rw [Advances, readByte]
  split_ifs with h
  · exact ⟨le_rfl, Or.inl rfl⟩
  · rw [not_or] at h
    exact ⟨le_rfl, lt_of_not_atEnd h.1⟩

theorem readString_advances (hPlace : place.offset ≤ r.bytes.length) :
    r.Advances 1 r.readString place := by
  rw [Advances]
  cases hRead : r.readString place with
  | ok literal next =>
      obtain ⟨content, -, hStands, -, -⟩ := readString_sound hRead
      have hStop := hStands.2
      rw [quoted] at hStop
      simp only [List.length_append, List.length_singleton] at hStop
      exact ⟨by omega, hStands.le_length hPlace⟩
  | error fault next =>
      simp only [readString] at hRead
      by_cases hQuote : r.atEnd place = true ∨ r.current place ≠ 0x22
      · rw [if_pos hQuote] at hRead
        cases hRead
        exact ⟨le_rfl, Or.inl rfl⟩
      rw [if_neg hQuote] at hRead
      cases hScan : scanStringFrom r.profile r.bytes (r.bytes.length + 1) (place.offset + 1) with
      | refused offset =>
          rw [hScan] at hRead
          cases hRead
          have := scanStringFrom_refused hScan
          exact ⟨by simp only; omega, Or.inl rfl⟩
      | unterminated offset =>
          rw [hScan] at hRead
          cases hRead
          exact ⟨le_rfl, Or.inl rfl⟩
      | closed stop =>
          simp only [hScan] at hRead
          by_cases hRoom : place.count ≥ r.capacity
          · rw [if_pos hRoom] at hRead
            cases hRead
            exact ⟨Nat.le_succ _, Or.inr (Or.inr (Or.inl rfl))⟩
          rw [if_neg hRoom] at hRead
          cases hDecode : decodeString (r.content (place.offset + 1) stop) r.profile with
          | ok text =>
              rw [hDecode] at hRead
              cases hRead
          | error fault' =>
              obtain ⟨code, bad⟩ := fault'
              rw [hDecode] at hRead
              cases hRead
              exact ⟨by simp only; omega, decodeString_reports r hDecode⟩

theorem readKey_advances (hPlace : place.offset ≤ r.bytes.length) (seen : List Bytes) :
    r.Advances 1 (r.readKey seen) place := by
  have hString := readString_advances hPlace
  rw [Advances, readKey]
  cases hRead : r.readString place with
  | error fault next => exact hString.error hRead
  | ok key next =>
      simp only
      split_ifs with hDuplicate
      · exact ⟨le_rfl, Or.inr (Or.inr (Or.inr ⟨rfl, hDuplicate.1⟩))⟩
      · exact hString.ok hRead

theorem readDelimiter_advances (hPlace : place.offset ≤ r.bytes.length) (closing : UInt8) :
    r.Advances 1 (r.readDelimiter closing) place := by
  refine ((readSpace_advances hPlace).bind 1 fun _ next _ _ hNext => ?_).mono (by omega)
  rw [Advances, get_bind]
  split_ifs with hEnd hClosing hComma
  · exact ⟨le_rfl, Or.inl rfl⟩
  · exact ⟨le_rfl, lt_of_not_atEnd hEnd⟩
  · have hRest := (advance_advances (lt_of_not_atEnd hEnd)).bind 0
      (f := fun _ => r.readSpace >>= fun _ => (pure false : ReadM Bool)) fun _ next _ _ hNext =>
        (readSpace_advances hNext).bind 0 fun _ last _ _ hLast => .pure false hLast
    exact hRest
  · exact ⟨le_rfl, Or.inl rfl⟩

theorem readEmpty_advances (hPlace : place.offset ≤ r.bytes.length) (closing : UInt8) :
    r.Advances 0 (r.readEmpty closing) place := by
  refine (readSpace_advances hPlace).bind 0 fun _ next _ _ hNext => ?_
  rw [Advances, get_bind]
  split_ifs with hClosing
  · exact ⟨Nat.le_succ _, lt_of_not_atEnd hClosing.1⟩
  · exact ⟨le_rfl, hNext⟩

theorem takeToken_advances (hPlace : place.offset ≤ r.bytes.length) :
    r.Advances 0 (r.takeToken place.offset) place := by
  rw [Advances, takeToken]
  split_ifs
  · exact ⟨le_rfl, Or.inr (Or.inr (Or.inl rfl))⟩
  · exact ⟨le_rfl, hPlace⟩

theorem openContainer_advances (hPlace : place.offset + 1 ≤ r.bytes.length) (depth : Nat)
    (closing : UInt8) :
    r.Advances 0 (r.openContainer depth closing) place := by
  rw [Advances, openContainer, get_bind]
  by_cases hDepth : depth ≥ r.maximumDepth
  · rw [if_pos hDepth]
    exact ⟨le_rfl, Or.inr (Or.inr (Or.inl rfl))⟩
  · rw [if_neg hDepth]
    exact (takeToken_advances (by omega)).bind 0
      (f := fun _ => advance (place.offset + 1) >>= fun _ => r.readEmpty closing)
      fun _ next hTake _ _ => by
        have hNext : next.offset = place.offset := by
          rw [takeToken] at hTake
          split_ifs at hTake
          · cases hTake
          · cases hTake
            rfl
        rw [← hNext] at hPlace ⊢
        exact ((advance_advances hPlace).bind 0 fun _ last _ _ hLast =>
          readEmpty_advances hLast closing).mono (by omega)

/-! ### Values -/

theorem readItem_advances {readValue : ReadM Source}
    (h : ∀ place : Place, place.offset ≤ r.bytes.length → r.Advances 0 readValue place)
    (hPlace : place.offset ≤ r.bytes.length) (closing : UInt8) (step : Step) :
    r.Advances 1 (r.readItem readValue closing step) place := by
  refine Advances.within ?_ step
  refine ((h place hPlace).bind 1 fun value next _ _ hNext => ?_).mono (by omega)
  exact (readDelimiter_advances hNext closing).bind 0 fun closed last _ _ hLast =>
    .pure (value, closed) hLast

theorem readMembers_advances {readValue : ReadM Source}
    (h : ∀ place : Place, place.offset ≤ r.bytes.length → r.Advances 0 readValue place)
    (rounds : Nat) (seen : List Bytes) (hPlace : place.offset ≤ r.bytes.length)
    (hRounds : r.bytes.length < place.offset + rounds) :
    r.Advances 0 (r.readMembers readValue rounds seen) place := by
  induction rounds generalizing place seen with
  | zero => omega
  | succ rounds ih =>
      refine ((readKey_advances hPlace seen).bind 0 fun key next _ hKey hNext => ?_).mono
        (Nat.zero_le _)
      refine (readSpace_advances hNext).bind 0 fun _ next' _ hSpace hNext' => ?_
      refine ((readByte_advances 0x3a).bind 0 fun _ next'' _ hColon hNext'' => ?_).mono
        (Nat.zero_le _)
      refine ((readItem_advances h hNext'' 0x7d _).bind 0 fun item last _ hItem hLast => ?_).mono
        (Nat.zero_le _)
      obtain ⟨value, closed⟩ := item
      cases closed with
      | true => exact .pure _ hLast
      | false =>
          exact (ih (key.text :: seen) hLast (by omega)).bind 0 fun rest place _ _ hEnd =>
            .pure _ hEnd

theorem readElements_advances {readValue : ReadM Source}
    (h : ∀ place : Place, place.offset ≤ r.bytes.length → r.Advances 0 readValue place)
    (rounds position : Nat) (hPlace : place.offset ≤ r.bytes.length)
    (hRounds : r.bytes.length < place.offset + rounds) :
    r.Advances 0 (r.readElements readValue rounds position) place := by
  induction rounds generalizing place position with
  | zero => omega
  | succ rounds ih =>
      refine ((readItem_advances h hPlace 0x5d _).bind 0 fun item last _ hItem hLast => ?_).mono
        (Nat.zero_le _)
      obtain ⟨value, closed⟩ := item
      cases closed with
      | true => exact .pure _ hLast
      | false =>
          exact (ih (position + 1) hLast (by omega)).bind 0 fun rest place _ _ hEnd =>
            .pure _ hEnd

theorem openContainer_depth {depth : Nat} {closing : UInt8} {closed : Bool} {next : Place}
    (h : r.openContainer depth closing place = .ok closed next) : depth < r.maximumDepth := by
  rw [openContainer, get_bind] at h
  split_ifs at h with hDepth
  · cases h
  · exact not_le.mp hDepth

theorem readObject_advances {readValue : ReadM Source} {depth : Nat}
    (hPlace : place.offset + 1 ≤ r.bytes.length)
    (h : depth < r.maximumDepth → ∀ place : Place, place.offset ≤ r.bytes.length →
      r.Advances 0 readValue place) : r.Advances 0 (r.readObject readValue depth) place := by
  rw [Advances, readObject_eq]
  refine (openContainer_advances hPlace depth 0x7d).bind 0 fun closed next hOpen _ hNext => ?_
  have hValue := h (openContainer_depth hOpen)
  cases closed with
  | true => exact ⟨le_rfl, hNext⟩
  | false =>
      exact (readMembers_advances hValue (r.bytes.length + 1) [] hNext (by omega)).bind 0
        (f := fun members => get >>=
          fun last => pure (Source.object ⟨place.offset, last.offset⟩ members))
        fun members last _ _ hLast => ⟨le_rfl, hLast⟩

theorem readArray_advances {readValue : ReadM Source} {depth : Nat}
    (hPlace : place.offset + 1 ≤ r.bytes.length)
    (h : depth < r.maximumDepth → ∀ place : Place, place.offset ≤ r.bytes.length →
      r.Advances 0 readValue place) : r.Advances 0 (r.readArray readValue depth) place := by
  rw [Advances, readArray_eq]
  refine (openContainer_advances hPlace depth 0x5d).bind 0 fun closed next hOpen _ hNext => ?_
  have hValue := h (openContainer_depth hOpen)
  cases closed with
  | true => exact ⟨le_rfl, hNext⟩
  | false =>
      exact (readElements_advances hValue (r.bytes.length + 1) 0 hNext (by omega)).bind 0
        (f := fun elements => get >>=
          fun last => pure (Source.array ⟨place.offset, last.offset⟩ elements))
        fun elements last _ _ hLast => ⟨le_rfl, hLast⟩

theorem readPrimitive_advances (hPlace : place.offset ≤ r.bytes.length) :
    r.Advances 0 r.readPrimitive place := by
  rw [Advances, readPrimitive]
  cases primitive ⟨place.offset, primitiveEnd r.bytes place.offset⟩
      (r.content place.offset (primitiveEnd r.bytes place.offset)) with
  | none => exact ⟨le_rfl, Or.inl rfl⟩
  | some value =>
      split_ifs
      · exact ⟨le_rfl, Or.inr (Or.inr (Or.inl rfl))⟩
      · exact ⟨le_scanWhile _ _ _, scanWhile_le _ _ _ hPlace⟩

theorem readValue_advances {fuel depth : Nat} (hFuel : depth + fuel = r.maximumDepth + 1)
    (hDepth : depth ≤ r.maximumDepth) (hPlace : place.offset ≤ r.bytes.length) :
    r.Advances 0 (r.readValue fuel depth) place := by
  induction fuel generalizing depth place with
  | zero => omega
  | succ fuel ih =>
      refine (readSpace_advances hPlace).bind 0 fun _ next _ _ hNext => ?_
      rw [Advances, get_bind]
      have hItem : depth < r.maximumDepth → ∀ place : Place, place.offset ≤ r.bytes.length →
          r.Advances 0 (r.readValue fuel (depth + 1)) place :=
        fun hLt place hPlace => ih (by omega) hLt hPlace
      split_ifs with hEnd hObject hArray hString
      · exact ⟨le_rfl, Or.inl rfl⟩
      · exact readObject_advances (lt_of_not_atEnd hEnd) hItem
      · exact readArray_advances (lt_of_not_atEnd hEnd) hItem
      · exact ((readString_advances hNext).bind 0 (f := fun literal => pure (Source.string literal))
          fun literal last _ _ hLast => .pure (Source.string literal) hLast).mono (Nat.zero_le _)
      · exact readPrimitive_advances hNext

/-- A text is read, or refused with a code of the reader. -/
theorem readText_reports {fault : Fault} (h : r.readText = .error fault) :
    r.Reports fault.code := by
  have hValue := @readValue_advances r ⟨0, 0⟩ (r.maximumDepth + 1) 0 (by omega) (Nat.zero_le _)
    (Nat.zero_le _)
  rw [readText] at h
  cases hRead : r.readValue (r.maximumDepth + 1) 0 ⟨0, 0⟩ with
  | error fault' next =>
      rw [hRead] at h
      cases h
      exact (hValue.error hRead).2
  | ok value next =>
      simp only [hRead] at h
      split_ifs at h
      cases h
      exact Or.inl rfl

end Reading

end MaelysJson
