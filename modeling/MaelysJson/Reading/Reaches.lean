import MaelysJson.Reading.Limits
import MaelysJson.Reading.Spots
import MaelysJson.Reading.Strictness

/-! The way of the reader. It comes to every spot that the text leads to and reads what
stands there, unless a limit stops it before. -/
namespace MaelysJson

open Grammar Run

namespace Reading

variable {r : Reading} {place next : Place} {profile : Profile}

/-- A limit stops the reader. -/
def Cut (r : Reading) : Prop := ∃ fault, r.readText = .error fault ∧ fault.code = .errLimit

/-- What `read` refuses at `place`, the reader refuses. -/
def Surfaces (r : Reading) {α : Type} (read : ReadM α) (place : Place) : Prop :=
  ∀ fault next, read place = .error fault next → ∃ path,
    r.readText = .error ⟨fault.code, fault.offset, path⟩

theorem Surfaces.cut {α : Type} {read : ReadM α} (h : r.Surfaces read place) {fault : Fault}
    {next : Place} (hRun : read place = .error fault next) (hCode : fault.code = .errLimit) :
    r.Cut := by
  obtain ⟨path, hText⟩ := h fault next hRun
  exact ⟨_, hText, hCode⟩

/-- The part of a sequence that is run first. -/
theorem Surfaces.first {α β : Type} {x : ReadM α} {f : α → ReadM β}
    (h : r.Surfaces (x >>= f) place) :
    r.Surfaces x place :=
  fun fault next hRun => h fault next (bind_of_error hRun)

theorem Surfaces.second {α β : Type} {x : ReadM α} {f : α → ReadM β}
    (h : r.Surfaces (x >>= f) place) {a : α} (hRun : x place = .ok a next) :
    r.Surfaces (f a) next := by
  intro fault last hLast
  exact h fault last (by rw [bind_of_ok hRun, hLast])

theorem Surfaces.within {α : Type} {x : ReadM α} {step : Step}
    (h : r.Surfaces (within step x) place) :
    r.Surfaces x place := by
  intro fault next hRun
  exact h { fault with path := step :: fault.path } next (by rw [Reading.within, hRun])

theorem Surfaces.congr {α : Type} {x y : ReadM α} (h : r.Surfaces x place)
    (hSame : x place = y next) :
    r.Surfaces y next := by
  intro fault last hRun
  exact h fault last (hSame.trans hRun)

/-- The reader comes to a spot at `offset`, or to the space before or after it. -/
def Reaches (r : Reading) (offset : Nat) : Spot → Prop
  | .value => ∃ fuel depth place, depth + (fuel + 1) = r.maximumDepth + 1 ∧
      spaceEnd r.bytes place.offset = spaceEnd r.bytes offset ∧
      r.Surfaces (r.readValue (fuel + 1) depth) place
  | .element => ∃ fuel depth rounds position place, depth + (fuel + 1) = r.maximumDepth + 1 ∧
      place.offset = spaceEnd r.bytes offset ∧ r.bytes.length < rounds + place.offset ∧
      r.Surfaces (r.readElements (r.readValue (fuel + 1) depth) rounds position) place
  | .key seen => ∃ fuel depth rounds place, depth + (fuel + 1) = r.maximumDepth + 1 ∧
      place.offset = spaceEnd r.bytes offset ∧ r.bytes.length < rounds + place.offset ∧
      r.Surfaces (r.readMembers (r.readValue (fuel + 1) depth) rounds seen) place

/-! ### One step of the reader, or a limit -/

/-- What a wider reading reads, this one reads as well, or a limit stops it. -/
theorem Cuts.or_limit {α : Type} {x y : ReadM α} (h : Cuts x y) {a : α}
    (hRun : y place = .ok a next) :
    (∃ fault last, x place = .error fault last ∧ fault.code = .errLimit) ∨
    x place = .ok a next := by
  have hCuts := h place
  cases hx : x place with
  | ok b last =>
      rw [hx, hRun] at hCuts
      exact Or.inr hCuts.symm
  | error fault last =>
      rw [hx, hRun] at hCuts
      rcases hCuts with hLimit | hSame
      · exact Or.inl ⟨fault, last, rfl, hLimit⟩
      · cases hSame

theorem readValue_or_limit {fuel depth : Nat} {gap body rest : Bytes} {t : Json}
    (hFuel : depth + (fuel + 1) = r.maximumDepth + 1) (hGap : Blank gap)
    (hValue : Value r.profile body t) (hKeys : DistinctKeys r.profile t)
    (hDrop : r.bytes.drop place.offset = gap ++ (body ++ rest)) (hRest : Delimited rest) :
    (∃ fault next, r.readValue (fuel + 1) depth place = .error fault next ∧
      fault.code = .errLimit) ∨
      ∃ value, r.readValue (fuel + 1) depth place =
        .ok value ⟨place.offset + gap.length + body.length, place.count + t.tokens⟩ := by
  -- under bounds that are wide enough the value is read
  let maximumDepth := max r.maximumDepth (depth + t.depth)
  let capacity := max r.capacity (place.count + t.tokens)
  have hLe : r.maximumDepth ≤ maximumDepth := le_max_left _ _
  obtain ⟨value, hRead, -⟩ := (readable t : (r.bounded maximumDepth capacity).Readable t)
    (maximumDepth + 1 - depth) depth place gap body rest hGap hValue hDrop hRest (le_max_right _ _)
    (by simp only [bounded]; omega) (le_max_right _ _) hKeys
  have hCuts := readValue_cuts hLe
    (le_max_left _ _ : r.capacity ≤ capacity) (fuel + 1) (maximumDepth + 1 - depth) depth
    hFuel (by omega) (by omega)
  exact (hCuts.or_limit hRead).imp_right fun hRun => ⟨value, hRun⟩

theorem readKey_or_limit {seen : List Bytes} {content key rest : Bytes}
    (hContent : Content r.profile content key) (hUnused : Unused r.profile seen key)
    (hDrop : r.bytes.drop place.offset = quoted content ++ rest) :
    (∃ fault next, r.readKey seen place = .error fault next ∧ fault.code = .errLimit) ∨
      r.readKey seen place = .ok ⟨⟨place.offset + 1, place.offset + 1 + content.length⟩, key⟩
        ⟨place.offset + (quoted content).length, place.count + 1⟩ := by
  let capacity := max r.capacity (place.count + 1)
  have hRead := @readString_complete (r.bounded r.maximumDepth capacity) place content key rest
    hContent hDrop (lt_of_lt_of_le (Nat.lt_succ_self _) (le_max_right _ _))
  have hWide : (r.bounded r.maximumDepth capacity).readKey seen place =
      .ok ⟨⟨place.offset + 1, place.offset + 1 + content.length⟩, key⟩
        ⟨place.offset + (quoted content).length, place.count + 1⟩ := by
    simp only [readKey, hRead]
    exact if_neg fun h => hUnused h.1 h.2
  exact (readKey_cuts (le_max_left _ _ : r.capacity ≤ capacity) seen).or_limit hWide

/-- What follows a spot does not close a container. -/
def Opens (rest : Bytes) : Prop :=
  ∀ byte ∈ (rest.dropWhile isSpace).head?, byte ≠ 0x5d ∧ byte ≠ 0x7d

theorem openContainer_or_limit {depth : Nat} {opening closing : UInt8} {rest : Bytes}
    (hClosing : closing = 0x5d ∨ closing = 0x7d)
    (hDrop : r.bytes.drop place.offset = opening :: rest) (hRest : Opens rest) :
    (∃ fault next, r.openContainer depth closing place = .error fault next ∧
      fault.code = .errLimit) ∨
      (depth < r.maximumDepth ∧ r.openContainer depth closing place =
        .ok false ⟨spaceEnd r.bytes (place.offset + 1), place.count + 1⟩) := by
  by_cases hDepth : depth ≥ r.maximumDepth
  · rw [openContainer, get_bind, if_pos hDepth]
    exact Or.inl ⟨_, _, rfl, rfl⟩
  by_cases hRoom : place.count ≥ r.capacity
  · have hToken : r.takeToken place.offset place = .error ⟨.errLimit, place.offset, []⟩ place := by
      rw [takeToken, if_pos hRoom]
      rfl
    rw [openContainer, get_bind, if_neg hDepth, bind_of_error hToken]
    exact Or.inl ⟨_, _, rfl, rfl⟩
  rw [ge_iff_le, not_le] at hDepth hRoom
  have hGap : Blank (rest.takeWhile isSpace) := fun byte hByte =>
    (isSpace_iff byte).mp (List.mem_takeWhile_imp hByte)
  have hHead : ∀ byte ∈ (rest.dropWhile isSpace).head?, isSpace byte = false := by
    intro byte hByte
    have := List.head?_dropWhile_not isSpace rest
    rw [Option.mem_def.mp hByte] at this
    simpa using this
  have hSplit : r.bytes.drop place.offset =
      opening :: (rest.takeWhile isSpace ++ rest.dropWhile isSpace) := by
    rw [hDrop, List.takeWhile_append_dropWhile]
  have hEnd := spaceEnd_eq hGap (drop_succ_of_drop hSplit) hHead
  rw [openContainer_complete hDepth hRoom hGap hHead hSplit, hEnd, if_neg]
  · exact Or.inr ⟨hDepth, rfl⟩
  · intro hClosed
    obtain ⟨hBracket, hBrace⟩ := hRest closing hClosed
    exact hClosing.elim hBracket hBrace

theorem spaceEnd_self {offset : Nat} {byte : UInt8} {rest : Bytes} (hByte : isSpace byte = false)
    (hDrop : r.bytes.drop offset = byte :: rest) : spaceEnd r.bytes offset = offset :=
  spaceEnd_eq (List.forall_mem_nil _) hDrop (by simpa using hByte)

theorem spaceEnd_blank {offset : Nat} {gap rest : Bytes} (hGap : Blank gap)
    (hDrop : r.bytes.drop offset = gap ++ rest) :
    spaceEnd r.bytes (offset + gap.length) = spaceEnd r.bytes offset := by
  have hSpace : ∀ byte ∈ gap, isSpace byte = true :=
    fun byte hByte => (isSpace_iff byte).mpr (hGap byte hByte)
  rw [spaceEnd, spaceEnd, scanWhile, scanWhile, hDrop, drop_add_of_drop hDrop,
    List.takeWhile_append_of_pos hSpace, List.length_append, Nat.add_assoc]

theorem spaceEnd_spaceEnd (offset : Nat) :
    spaceEnd r.bytes (spaceEnd r.bytes offset) = spaceEnd r.bytes offset := by
  obtain ⟨gap, hGap, hDrop, hEnd⟩ := stands_space r.bytes offset
  conv_lhs => rw [hEnd]
  exact spaceEnd_blank hGap hDrop

/-- A value that is read from the space before it. -/
theorem readValue_at {fuel depth offset : Nat} {byte : UInt8} {rest : Bytes}
    (hByte : isSpace byte = false)
    (hSpace : spaceEnd r.bytes place.offset = spaceEnd r.bytes offset)
    (hDrop : r.bytes.drop offset = byte :: rest) :
    r.readValue (fuel + 1) depth place =
      (if byte = 0x7b then r.readObject (r.readValue fuel (depth + 1)) depth
      else if byte = 0x5b then r.readArray (r.readValue fuel (depth + 1)) depth
      else if byte = 0x22 then r.readString >>= fun literal => pure (.string literal)
      else r.readPrimitive) ⟨offset, place.count⟩ := by
  rw [spaceEnd_self hByte hDrop] at hSpace
  obtain ⟨hEnd, hCurrent⟩ := @at_byte r ⟨offset, place.count⟩ _ _ hDrop
  have hMove : r.readSpace place = .ok () ⟨offset, place.count⟩ := by rw [readSpace, hSpace]
  rw [readValue, bind_of_ok hMove, get_bind, hEnd, hCurrent]
  rfl

/-! ### Every spot is reached -/

variable {before rest : Bytes}

theorem drop_before (hBytes : r.bytes = before ++ rest) : r.bytes.drop before.length = rest := by
  rw [hBytes, List.drop_left]

theorem Reaches.space {spot : Spot} {gap : Bytes} (h : r.Reaches before.length spot)
    (hGap : Blank gap) (hBytes : r.bytes = before ++ (gap ++ rest)) :
    r.Reaches (before ++ gap).length spot := by
  have hSame : spaceEnd r.bytes (before ++ gap).length = spaceEnd r.bytes before.length := by
    rw [List.length_append]
    exact spaceEnd_blank hGap (drop_before hBytes)
  cases spot with
  | value => simpa only [Reaches, hSame] using h
  | element => simpa only [Reaches, hSame] using h
  | key seen => simpa only [Reaches, hSame] using h

/-- The rounds of a loop do not run out before the text does. -/
theorem rounds_pos {rounds offset : Nat} (hOffset : offset ≤ r.bytes.length)
    (hRounds : r.bytes.length < rounds + spaceEnd r.bytes offset) : ∃ n, rounds = n + 1 := by
  have := scanWhile_le isSpace r.bytes offset hOffset
  refine Nat.exists_eq_add_one.mpr ?_
  rw [spaceEnd] at hRounds
  omega

theorem Reaches.item (h : r.Reaches before.length .element) (hBytes : r.bytes = before ++ rest) :
    r.Reaches before.length .value := by
  obtain ⟨fuel, depth, rounds, position, place, hFuel, hPlace, hRounds, hRun⟩ := h
  obtain ⟨rounds, rfl⟩ := rounds_pos (by rw [hBytes, List.length_append]; omega) (hPlace ▸ hRounds)
  refine ⟨fuel, depth, place, hFuel, ?_, hRun.first.within.first⟩
  rw [hPlace, spaceEnd_spaceEnd]

/-- A container is opened, unless a limit forbids it. -/
theorem Reaches.opens {opening closing : UInt8} (h : r.Reaches before.length .value)
    (hKind : opening = 0x5b ∧ closing = 0x5d ∨ opening = 0x7b ∧ closing = 0x7d)
    (hBytes : r.bytes = before ++ opening :: rest) (hRest : Opens rest) :
    r.Cut ∨ ∃ fuel depth place next, depth + 1 + (fuel + 1) = r.maximumDepth + 1 ∧
      next.offset = spaceEnd r.bytes (before.length + 1) ∧
      r.openContainer depth closing place = .ok false next ∧
      r.Surfaces ((if opening = 0x7b then r.readObject else r.readArray)
        (r.readValue (fuel + 1) (depth + 1)) depth)
        place := by
  obtain ⟨fuel, depth, place, hFuel, hSpace, hRun⟩ := h
  have hDrop := drop_before hBytes
  have hHead : isSpace opening = false := by rcases hKind with ⟨rfl, -⟩ | ⟨rfl, -⟩ <;> rfl
  have hRun' : r.Surfaces
      ((if opening = 0x7b then r.readObject else r.readArray) (r.readValue fuel (depth + 1)) depth)
      ⟨before.length, place.count⟩ := by
    refine hRun.congr ?_
    rw [readValue_at hHead hSpace hDrop]
    rcases hKind with ⟨rfl, -⟩ | ⟨rfl, -⟩ <;> rfl
  have hClosing : closing = 0x5d ∨ closing = 0x7d := hKind.imp And.right And.right
  rcases @openContainer_or_limit r ⟨before.length, place.count⟩ depth opening closing rest hClosing
    hDrop hRest with
    ⟨fault, next, hLimit, hCode⟩ | ⟨hDepth, hOpen⟩
  · refine Or.inl ?_
    rcases hKind with ⟨rfl, rfl⟩ | ⟨rfl, rfl⟩
    · exact (hRun'.congr (readArray_eq ..)).first.cut hLimit hCode
    · exact (hRun'.congr (readObject_eq ..)).first.cut hLimit hCode
  · obtain ⟨fuel, rfl⟩ : ∃ n, fuel = n + 1 := Nat.exists_eq_add_one.mpr (by omega)
    exact Or.inr ⟨fuel, depth, _, _, by omega, rfl, hOpen, hRun'⟩

theorem Reaches.openArray (h : r.Reaches before.length .value)
    (hBytes : r.bytes = before ++ 0x5b :: rest) (hRest : Opens rest) :
    r.Cut ∨ r.Reaches (before ++ [0x5b]).length .element := by
  refine (h.opens (.inl ⟨rfl, rfl⟩) hBytes hRest).imp_right ?_
  rintro ⟨fuel, depth, place, next, hFuel, hNext, hOpen, hRun⟩
  have hElements := ((hRun.congr (readArray_eq ..)).second hOpen).first
  refine ⟨fuel, depth + 1, r.bytes.length + 1, 0, next, hFuel, ?_, by omega, hElements⟩
  rw [hNext, List.length_append, List.length_singleton]

theorem Reaches.openObject (h : r.Reaches before.length .value)
    (hBytes : r.bytes = before ++ 0x7b :: rest) (hRest : Opens rest) :
    r.Cut ∨ r.Reaches (before ++ [0x7b]).length (.key []) := by
  refine (h.opens (.inr ⟨rfl, rfl⟩) hBytes hRest).imp_right ?_
  rintro ⟨fuel, depth, place, next, hFuel, hNext, hOpen, hRun⟩
  have hMembers := ((hRun.congr (readObject_eq ..)).second hOpen).first
  refine ⟨fuel, depth + 1, r.bytes.length + 1, next, hFuel, ?_, by omega, hMembers⟩
  rw [hNext, List.length_append, List.length_singleton]

/-- The comma after a value, and the space after the comma. -/
theorem readDelimiter_next {closing : UInt8} {gap : Bytes} (hGap : Blank gap)
    (hClosing : closing ≠ 0x2c) (hDrop : r.bytes.drop place.offset = gap ++ 0x2c :: rest) :
    r.readDelimiter closing place =
      .ok false ⟨spaceEnd r.bytes (place.offset + gap.length + 1), place.count⟩ := by
  have hGap' : Blank (rest.takeWhile isSpace) := fun byte hByte =>
    (isSpace_iff byte).mp (List.mem_takeWhile_imp hByte)
  have hHead : ∀ byte ∈ (rest.dropWhile isSpace).head?, isSpace byte = false := by
    intro byte hByte
    have := List.head?_dropWhile_not isSpace rest
    rw [Option.mem_def.mp hByte] at this
    simpa using this
  have hSplit : r.bytes.drop place.offset =
      gap ++ 0x2c :: (rest.takeWhile isSpace ++ rest.dropWhile isSpace) := by
    rw [hDrop, List.takeWhile_append_dropWhile]
  rw [readDelimiter_comma hGap hGap' hClosing hHead hSplit,
    spaceEnd_eq hGap' (drop_succ_of_drop (drop_add_of_drop hSplit)) hHead]

/-- A value and the comma after it. -/
theorem readItem_next {fuel depth : Nat} (closing : UInt8) (step : Step) {gap body gap' : Bytes}
    {t : Json} (hFuel : depth + (fuel + 1) = r.maximumDepth + 1) (hGap : Blank gap)
    (hValue : Value r.profile body t) (hKeys : DistinctKeys r.profile t) (hGap' : Blank gap')
    (hClosing : closing ≠ 0x2c)
    (hDrop : r.bytes.drop place.offset = gap ++ (body ++ (gap' ++ 0x2c :: rest))) :
    (∃ fault next, r.readItem (r.readValue (fuel + 1) depth) closing step place =
        .error fault next ∧ fault.code = .errLimit) ∨
      ∃ value next, r.readItem (r.readValue (fuel + 1) depth) closing step place =
        .ok (value, false) next ∧
        next.offset = spaceEnd r.bytes
          (place.offset + gap.length + body.length + gap'.length + 1) := by
  have hDelimited : Delimited (gap' ++ 0x2c :: rest) :=
    delimited_of_blank hGap' (by rintro _ ⟨⟩; rfl)
  rcases readValue_or_limit hFuel hGap hValue hKeys hDrop hDelimited with
    ⟨fault, next, hRun, hLimit⟩ | ⟨value, hRun⟩
  · refine Or.inl ⟨{ fault with path := step :: fault.path }, next, ?_, hLimit⟩
    rw [readItem, within, bind_of_error hRun]
  · have hNext := @readDelimiter_next r ⟨place.offset + gap.length + body.length,
      place.count + t.tokens⟩ rest closing gap'
      hGap' hClosing (drop_add_of_drop (drop_add_of_drop hDrop))
    exact Or.inr ⟨value, _, readItem_complete hRun hNext, rfl⟩

theorem Reaches.nextElement {body gap : Bytes} {t : Json} (h : r.Reaches before.length .element)
    (hValue : Value r.profile body t) (hKeys : DistinctKeys r.profile t) (hGap : Blank gap)
    (hBytes : r.bytes = before ++ (body ++ (gap ++ 0x2c :: rest))) :
    r.Cut ∨ r.Reaches (before ++ body ++ gap ++ [0x2c]).length .element := by
  obtain ⟨fuel, depth, rounds, position, place, hFuel, hPlace, hRounds, hRun⟩ := h
  obtain ⟨rounds, rfl⟩ := rounds_pos (by rw [hBytes, List.length_append]; omega) (hPlace ▸ hRounds)
  obtain ⟨byte, tail, rfl, hSpace⟩ := value_head hValue
  have hDrop := drop_before hBytes
  rw [spaceEnd_self hSpace hDrop] at hPlace
  rw [← hPlace] at hDrop
  rcases readItem_next 0x5d (.index position) hFuel (List.forall_mem_nil _) hValue hKeys hGap
      (by decide) hDrop with
    ⟨fault, next, hItem, hLimit⟩ | ⟨value, next, hItem, hNext⟩
  · exact Or.inl (hRun.first.cut hItem hLimit)
  · refine Or.inr ⟨fuel, depth, rounds, position + 1, next, hFuel, ?_, ?_,
      (hRun.second hItem).first⟩
    · rw [hNext, hPlace]
      simp only [List.length_append, List.length_cons, List.length_nil]
      congr 1
    · have := le_scanWhile isSpace r.bytes
        (place.offset + 0 + (byte :: tail).length + gap.length + 1)
      rw [← spaceEnd] at this
      simp only [List.length_nil] at hNext
      rw [List.length_cons] at *
      omega

/-- The key of a member and its colon. -/
theorem Reaches.colon {seen : List Bytes} {content key a : Bytes}
    (h : r.Reaches before.length (.key seen)) (hContent : Content r.profile content key)
    (hUnused : Unused r.profile seen key) (hA : Blank a)
    (hBytes : r.bytes = before ++ (quoted content ++ (a ++ 0x3a :: rest))) :
    r.Cut ∨ ∃ fuel depth rounds literal next, depth + (fuel + 1) = r.maximumDepth + 1 ∧
      next.offset = (before ++ quoted content ++ a ++ [0x3a]).length ∧
      r.bytes.length < rounds + next.offset ∧ literal.text = key ∧
      r.Surfaces (r.readItem (r.readValue (fuel + 1) depth) 0x7d (.key key) >>= fun item =>
        if item.2 then pure [(literal, item.1)]
        else r.readMembers (r.readValue (fuel + 1) depth) rounds (key :: seen) >>= fun members =>
          pure ((literal, item.1) :: members)) next := by
  obtain ⟨fuel, depth, rounds, place, hFuel, hPlace, hRounds, hRun⟩ := h
  obtain ⟨rounds, rfl⟩ := rounds_pos (by rw [hBytes, List.length_append]; omega) (hPlace ▸ hRounds)
  have hDrop := drop_before hBytes
  rw [@spaceEnd_self r before.length 0x22 _ rfl (by rw [hDrop]; rfl)] at hPlace
  rw [← hPlace] at hDrop
  rcases readKey_or_limit hContent hUnused hDrop with ⟨fault, next, hKey, hLimit⟩ | hKey
  · exact Or.inl (hRun.first.cut hKey hLimit)
  have hAfter := drop_add_of_drop hDrop
  have hSpace := @readSpace_eq r ⟨place.offset + (quoted content).length, place.count + 1⟩ _
    _ hA hAfter (by rintro _ ⟨⟩; rfl)
  have hColon := @readByte_complete r ⟨place.offset + (quoted content).length + a.length,
    place.count + 1⟩ _ _ (drop_add_of_drop hAfter)
  refine Or.inr ⟨fuel, depth, rounds, _, _, hFuel, ?_, ?_, rfl,
    ((hRun.second hKey).second hSpace).second hColon⟩
  · simp only [List.length_append, List.length_singleton, hPlace]
  · simp only
    omega

theorem Reaches.memberValue {seen : List Bytes} {content key a : Bytes}
    (h : r.Reaches before.length (.key seen)) (hContent : Content r.profile content key)
    (hUnused : Unused r.profile seen key) (hA : Blank a)
    (hBytes : r.bytes = before ++ (quoted content ++ (a ++ 0x3a :: rest))) :
    r.Cut ∨ r.Reaches (before ++ quoted content ++ a ++ [0x3a]).length .value := by
  refine (h.colon hContent hUnused hA hBytes).imp_right ?_
  rintro ⟨fuel, depth, rounds, literal, next, hFuel, hNext, -, -, hRun⟩
  exact ⟨fuel, depth, next, hFuel, by rw [hNext], hRun.first.within.first⟩

theorem Reaches.nextMember {seen : List Bytes} {content key a b body gap : Bytes} {t : Json}
    (h : r.Reaches before.length (.key seen)) (hContent : Content r.profile content key)
    (hUnused : Unused r.profile seen key) (hA : Blank a) (hB : Blank b)
    (hValue : Value r.profile body t) (hKeys : DistinctKeys r.profile t) (hGap : Blank gap)
    (hBytes : r.bytes =
      before ++ (quoted content ++ (a ++ 0x3a :: (b ++ (body ++ (gap ++ 0x2c :: rest)))))) :
    r.Cut ∨
      r.Reaches (before ++ quoted content ++ a ++ [0x3a] ++ b ++ body ++ gap ++ [0x2c]).length
        (.key (key :: seen)) := by
  rcases h.colon hContent hUnused hA hBytes with
    hCut | ⟨fuel, depth, rounds, literal, next, hFuel, hNext, hRounds, -, hRun⟩
  · exact Or.inl hCut
  have hDrop : r.bytes.drop next.offset = b ++ (body ++ (gap ++ 0x2c :: rest)) := by
    rw [hNext]
    exact drop_before (by rw [hBytes]; simp)
  rcases readItem_next 0x7d (.key key) hFuel hB hValue hKeys hGap (by decide) hDrop with
    ⟨fault, last, hItem, hLimit⟩ | ⟨value, last, hItem, hLast⟩
  · exact Or.inl (hRun.first.cut hItem hLimit)
  · refine Or.inr ⟨fuel, depth, rounds, last, hFuel, ?_, ?_, (hRun.second hItem).first⟩
    · rw [hLast, hNext]
      simp only [List.length_append, List.length_singleton]
    · have := le_scanWhile isSpace r.bytes (next.offset + b.length + body.length + gap.length + 1)
      rw [← spaceEnd] at this
      omega

end Reading

end MaelysJson
