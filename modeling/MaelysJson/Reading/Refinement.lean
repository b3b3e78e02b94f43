import MaelysJson.Reading.Steps

/-! The parser refines the reader: it accepts what the reader accepts, leaves the
tokens of what the reader finds, and fails as the reader fails. The key set never
grows, so the heap is left as it was. -/
namespace MaelysJson

open Forest Run

variable {r : Reading} {given : Option Error} {heap : Heap}

/-! ### Space, delimiters and containers -/

theorem skipSpace_follows {slack : Nat} {rows : List (Row Cell)} :
    Lockstep (Follows r given heap slack rows) skipSpace r.readSpace
      (fun _ _ => Follows r given heap slack rows) (Faulted r given heap) := by
  intro p place h
  rw [skipSpace, modify_run, Reading.readSpace, h.tracks.bytes, h.tracks.offset]
  exact h.seek _

theorem containerDelimiter_follows {slack : Nat} {rows : List (Row Cell)} (closing : UInt8) :
    Lockstep (Follows r given heap slack rows) (containerDelimiter closing)
      (r.readDelimiter closing)
      (fun closed closed' p place => closed = closed' ∧ Follows r given heap slack rows p place)
      (Faulted r given heap) := by
  refine skipSpace_follows.bind fun _ _ => ?_
  intro p place h
  rw [get_bind, get_bind, h.tracks.atEnd, h.tracks.current, h.tracks.offset]
  by_cases hEnd : r.atEnd place = true
  · rw [if_pos hEnd, if_pos hEnd, fail_bind]
    exact h.tracks.faulted _ _ _ _
  · rw [if_neg hEnd, if_neg hEnd]
    simp only [set_bind]
    by_cases hClosing : r.current place = closing
    · rw [if_pos hClosing, if_pos hClosing]
      exact ⟨rfl, h.seek _⟩
    · rw [if_neg hClosing, if_neg hClosing]
      by_cases hComma : r.current place = 0x2c
      · rw [if_neg (not_not.mpr hComma), if_pos hComma]
        have hRest := (@skipSpace_follows r _ _ slack _).bind
          (f := fun _ => (pure false : ParserM Bool)) (g := fun _ => (pure false : ReadM Bool))
          (Q := fun closed closed' p place => closed = closed' ∧
            Follows r given heap slack rows p place)
          fun _ _ => Lockstep.pure fun _ _ h => ⟨rfl, h⟩
        exact hRest _ _ (h.seek (place.offset + 1))
      · rw [if_pos hComma, if_neg hComma]
        exact (h.seek (place.offset + 1)).tracks.faulted _ _ _ _

theorem emptyContainer_follows {slack : Nat} {rows : List (Row Cell)} (closing : UInt8) :
    Lockstep (Follows r given heap slack rows) (emptyContainer closing) (r.readEmpty closing)
      (fun closed closed' p place => closed = closed' ∧ Follows r given heap slack rows p place)
      (Faulted r given heap) := by
  refine skipSpace_follows.bind fun _ _ => ?_
  intro p place h
  rw [get_bind, get_bind, h.tracks.atEnd, h.tracks.current, h.tracks.offset]
  by_cases hClosing : ¬r.atEnd place = true ∧ r.current place = closing
  · rw [if_pos hClosing, if_pos hClosing]
    exact ⟨rfl, h.seek _⟩
  · rw [if_neg hClosing, if_neg hClosing]
    exact ⟨rfl, h⟩

/-- What `parseObject` and `parseArray` do before their first item. -/
def parseOpen (type : ValueType) (parent : Option Nat) (depth : Nat) (closing : UInt8) :
    ParserM (Nat × Bool) := do
  let p ← get
  if depth ≥ p.limits.maximumDepth then fail .errLimit p.offset
  else
    let container ← addToken type p.offset parent false
    modify fun p => p.seek (p.offset + 1)
    let closed ← emptyContainer closing
    return (container, closed)

theorem rowKey_newCell (parent : Option Nat) (type : ValueType) (start : Nat) :
    rowKey (parent, newCell type start false) = none := rfl

/-- A new row that is no key. -/
theorem Keyed.plain {bound : Nat} {rows : List (Row Cell)} {row : Row Cell} {p : Parser}
    (h : Keyed r bound rows p) (hRow : rowKey row = none) : Keyed r bound (rows ++ [row]) p :=
  { holds := by rw [lastKey_concat_plain hRow]; exact h.holds
    roomy := h.roomy
    used := h.used
    marks := fun i => (h.marks i).trans (superseded_concat_plain hRow i).symm
    duplicates := by rw [keysOf_concat_plain hRow]; exact h.duplicates }

theorem parseOpen_follows {rows : List (Row Cell)} {parent : Option Nat} (type : ValueType)
    (depth : Nat) (closing : UInt8) (start : Nat)
    (hParent : ∀ q, parent = some q → q < rows.length) :
    Lockstep (fun p place => Follows r given heap 1 rows p place ∧ place.offset = start)
      (parseOpen type parent depth closing) (r.openContainer depth closing)
      (fun opened closed p place => opened = (rows.length, closed) ∧
        Follows r given heap 0 (rows ++ [(parent, newCell type start false)]) p place)
      (Faulted r given heap) := by
  rintro p place ⟨h, rfl⟩
  rw [parseOpen, get_bind, Reading.openContainer, get_bind, h.tracks.depth, h.tracks.offset]
  by_cases hDepth : depth ≥ r.maximumDepth
  · rw [if_pos hDepth, if_pos hDepth]
    exact h.tracks.faulted _ _ _ _
  rw [if_neg hDepth, if_neg hDepth]
  by_cases hRoom : place.count ≥ r.capacity
  · have hToken : r.takeToken place.offset place = Reading.refuse .errLimit place.offset place := by
      rw [Reading.takeToken, if_pos hRoom]
    rw [bind_of_error (addToken_full h.tracks hRoom), bind_of_error hToken]
    exact h.tracks.faulted _ _ _ _
  · have hToken : r.takeToken place.offset place = .ok () ⟨place.offset, place.count + 1⟩ := by
      rw [Reading.takeToken, if_neg hRoom]
    obtain ⟨q, hAdd, hTracks, hKeyed⟩ := addToken_room type place.offset false h.tracks hRoom
      hParent
    rw [bind_of_ok hAdd, bind_of_ok hToken, modify_bind, hTracks.offset]
    have hOpened : Follows r given heap 0 (rows ++ [(parent, newCell type place.offset false)]) q
        ⟨place.offset, place.count + 1⟩ := by
      refine ⟨hTracks, ?_⟩
      rw [List.length_append, List.length_singleton]
      exact (hKeyed _ h.keyed).plain rfl
    have hRest := (@emptyContainer_follows r given heap 0
      (rows ++ [(parent, newCell type place.offset false)]) closing).bind
      (f := fun closed => (pure (rows.length, closed) : ParserM (Nat × Bool)))
      (g := fun closed => (pure closed : ReadM Bool))
      (Q := fun opened closed q next => opened = (rows.length, closed) ∧
        Follows r given heap 0 (rows ++ [(parent, newCell type place.offset false)]) q next)
      fun _ _ => Lockstep.pure fun _ _ h => ⟨by rw [h.1], h.2⟩
    have hRun := hRest _ _ (hOpened.seek (place.offset + 1))
    rw [bind_pure] at hRun
    exact hRun

/-- A container learns where it stops. -/
theorem Follows.close {slack : Nat} {rows rest : List (Row Cell)} {parent : Option Nat}
    {type : ValueType} {start : Nat} {p : Parser} {place : Place}
    (h : Follows r given heap slack (rows ++ (parent, newCell type start false) :: rest) p place)
    (stop : Nat) :
    Follows r given heap slack (rows ++ (parent, ⟨type, ⟨start, stop⟩, none, false, false⟩) :: rest)
      (p.updateToken rows.length fun token => { token with stop }) place := by
  have hModify : (rows ++ (parent, newCell type start false) :: rest).modify rows.length
      (fun row => (row.1, { row.2 with span := ⟨row.2.span.start, stop⟩ })) =
      rows ++ (parent, ⟨type, ⟨start, stop⟩, none, false, false⟩) :: rest := by
    rw [List.modify_eq_take_cons_drop (by simp)]
    simp [newCell]
  have hTracks := h.tracks.update rows.length (fun token => { token with stop })
    (fun cell => { cell with span := ⟨cell.span.start, stop⟩ }) (fun _ => rfl) (fun _ => rfl)
    (fun _ _ => rfl) (fun _ => rfl) (fun _ => rfl)
  have hKeyed := h.keyed.update rows.length (fun token => { token with stop })
    (fun cell => { cell with span := ⟨cell.span.start, stop⟩ }) h.tracks.shows List.prefix_rfl
    (fun _ => rfl) (fun _ => rfl) (fun _ _ => rfl) (fun _ => rfl) (fun _ => rfl)
  rw [hModify] at hTracks
  refine ⟨hTracks, ?_⟩
  have hLength : (rows ++ (parent, (⟨type, ⟨start, stop⟩, none, false, false⟩ : Cell)) ::
      rest).length = (rows ++ (parent, newCell type start false) :: rest).length := by simp
  rw [hLength]
  refine hKeyed.congr ?_
  rw [List.map_append, List.map_append, List.map_cons, List.map_cons]
  rfl

/-! ### Strings and keys -/

theorem parseText_follows {rows : List (Row Cell)} {parent : Option Nat} (hFresh : Fresh given)
    (hParent : ∀ q, parent = some q → q < rows.length) :
    Lockstep (Follows r given heap 1 rows) (parseString parent false) r.readString
      (fun i literal p place => i = rows.length ∧
        Follows r given heap 0 (rows ++ [(parent, stringCell literal false)]) p place)
      (Faulted r given heap) := by
  intro p place h
  have hString := parseString_tracks parent false hFresh h.tracks hParent
  cases hRead : r.readString place with
  | error f next =>
      rw [hRead] at hString
      obtain ⟨e, q, hParse, hFault⟩ := hString
      rw [hParse]
      exact hFault
  | ok literal next =>
      rw [hRead] at hString
      obtain ⟨q, hParse, hTracks, -, -, hKeyed⟩ := hString
      rw [hParse]
      refine ⟨rfl, hTracks, ?_⟩
      rw [List.length_append, List.length_singleton]
      exact (hKeyed _ h.keyed).plain rfl

/-- A key is compared with the keys that its object has so far. -/
theorem parseKey_follows {rows : List (Row Cell)} {object : Nat} {seen : List Bytes}
    (hFresh : Fresh given) (hObject : object < rows.length)
    (hSeen : ∀ text, ⟨some object, text⟩ ∈ keysOf rows ↔ text ∈ seen) :
    Lockstep (Follows r given heap 0 rows) (parseString (some object) true) (r.readKey seen)
      (fun _ key => Follows r given heap 1 (rows ++ [(some object, Source.keyCell key)]))
      (Faulted r given heap) := by
  intro p place h
  have hString := parseString_tracks (some object) true hFresh h.tracks
    (by rintro q ⟨⟩; exact hObject)
  rw [Reading.readKey]
  cases hRead : r.readString place with
  | error f next =>
      rw [hRead] at hString
      obtain ⟨e, q, hParse, hFault⟩ := hString
      rw [hParse]
      exact hFault
  | ok key next =>
      rw [hRead] at hString
      obtain ⟨q, hParse, hTracks, hCount, hRoom, hKeyed⟩ := hString
      rw [hParse, if_pos rfl]
      have hKey : tokenKey q.document rows.length = ⟨some object, key.text⟩ :=
        hTracks.shows.tokenKey List.getElem?_concat_length
      have hMem : tokenKey q.document rows.length ∈ keysOf rows ↔ key.text ∈ seen := by
        rw [hKey, hSeen]
      simp only
      by_cases hDuplicate : r.profile ≠ .rfc8259LastWins ∧ key.text ∈ seen
      · obtain ⟨q', hInsert, hFault⟩ := insertKey_duplicate place.offset hTracks
          (hKeyed _ h.keyed) hDuplicate.1 (hMem.mpr hDuplicate.2)
        rw [if_pos hDuplicate, bind_of_error hInsert]
        exact ⟨hFault.code, hFault.heap, hFault.error⟩
      · obtain ⟨q', hInsert, hFollows⟩ := insertKey_follows place.offset hTracks
          (hKeyed _ h.keyed) (by rw [hKey]; rfl) hRoom
          fun hStrict hIn => hDuplicate ⟨hStrict, hMem.mp hIn⟩
        rw [if_neg hDuplicate, bind_of_ok hInsert]
        exact hFollows

/-! ### Items -/

theorem Lockstep.within {α β : Type} {pre : Parser → Place → Prop} {x : ParserM α} {y : ReadM β}
    {post : α → β → Parser → Place → Prop} (h : Lockstep pre x y post (Faulted r given heap))
    (step : Step) : Lockstep pre x (Reading.within step y) post (Faulted r given heap) := by
  intro p place hPre
  have hRun := h p place hPre
  rw [Reading.within]
  cases hx : x p <;> cases hy : y place <;> rw [hx, hy] at hRun
  · exact hRun
  · exact hRun
  · exact hRun
  · exact ⟨hRun.code, hRun.heap, hRun.error⟩

/-- A value is parsed as it is read, below any container of the table. -/
def ValueFollows (r : Reading) (given : Option Error) (heap : Heap) (rows : List (Row Cell))
    (parent : Option Nat) (parse : ParserM Nat) (read : ReadM Source) : Prop :=
  Lockstep (Follows r given heap 1 rows) parse read
    (fun i s p place => i = rows.length ∧
      Follows r given heap 0 (rows ++ s.rows rows.length parent) p place)
    (Faulted r given heap)

theorem item_follows {rows : List (Row Cell)} {container : Nat} {parse : ParserM Nat}
    {read : ReadM Source} (h : ValueFollows r given heap rows (some container) parse read)
    (closing : UInt8) (step : Step) :
    Lockstep (Follows r given heap 1 rows)
      (parse >>= fun _ => containerDelimiter closing) (r.readItem read closing step)
      (fun closed item p place => closed = item.2 ∧
        Follows r given heap 0 (rows ++ item.1.rows rows.length (some container)) p place)
      (Faulted r given heap) := by
  refine Lockstep.within (Lockstep.bind h fun i s => ?_) step
  have hRun := (@containerDelimiter_follows r given heap 0
    (rows ++ s.rows rows.length (some container)) closing).bind
    (f := fun closed => (pure closed : ParserM Bool))
    (g := fun closed => (pure (s, closed) : ReadM (Source × Bool)))
    (Q := fun closed item p place => closed = item.2 ∧
      Follows r given heap 0 (rows ++ item.1.rows rows.length (some container)) p place)
    fun _ _ => Lockstep.pure fun _ _ h => h
  rw [bind_pure] at hRun
  exact hRun.mono (fun _ _ h => h.2) (fun _ _ _ _ h => h) fun _ _ _ _ h => h

theorem parseElements_follows {array : Nat} (depth : Nat) (parse : Option Nat → Nat → ParserM Nat)
    {read : ReadM Source}
    (h : ∀ rows, array < rows.length →
      ValueFollows r given heap rows (some array) (parse (some array) (depth + 1)) read)
    (rounds position : Nat) (rows : List (Row Cell)) (hArray : array < rows.length) :
    Lockstep (Follows r given heap 0 rows) (parseElements parse array depth rounds)
      (r.readElements read rounds position)
      (fun _ elements =>
        Follows r given heap 0 (rows ++ Source.elementRows elements rows.length array))
      (Faulted r given heap) := by
  induction rounds generalizing rows position with
  | zero => exact fun p place h => ⟨rfl, h.tracks.heap, fun hState => absurd rfl hState⟩
  | succ rounds ih =>
      have hItem := (item_follows (h rows hArray) 0x5d (.index position)).mono
        (P := Follows r given heap 0 rows) (fun _ _ h => h.mono (Nat.zero_le 1))
        (fun _ _ _ _ h => h) fun _ _ _ _ h => h
      have hRun := hItem.bind
        (f := fun closed => if closed then (pure () : ParserM Unit) else
          parseElements parse array depth rounds)
        (g := fun item => if item.2 then (pure [item.1] : ReadM (List Source)) else do
          let rest ← r.readElements read rounds (position + 1)
          return item.1 :: rest)
        (Q := fun _ elements => Follows r given heap 0
          (rows ++ Source.elementRows elements rows.length array)) ?_
      · rwa [bind_assoc] at hRun
      · rintro closed ⟨value, closed'⟩ p place ⟨rfl, hFollows⟩
        simp only
        cases closed with
        | true =>
            simp only [if_true, pure_run]
            rw [Source.elementRows_cons, Source.elementRows_nil, List.append_nil]
            exact hFollows
        | false =>
            simp only [Bool.false_eq_true, if_false]
            have hRest := (ih (position + 1) (rows ++ value.rows rows.length (some array))
              (by rw [List.length_append]; omega)).bind
              (f := fun u => (pure u : ParserM Unit))
              (g := fun rest => (pure (value :: rest) : ReadM (List Source)))
              (Q := fun _ elements => Follows r given heap 0
                (rows ++ Source.elementRows elements rows.length array)) ?_
            · have := hRest p place hFollows
              rwa [bind_pure] at this
            · intro _ rest
              refine Lockstep.pure fun p place h => ?_
              rw [List.length_append, Source.length_rows, List.append_assoc] at h
              rw [Source.elementRows_cons]
              exact h

/-- The keys of an object after one more member. -/
theorem mem_keysOf_member {rows : List (Row Cell)} {object : Nat} {seen : List Bytes}
    (hObject : object < rows.length)
    (hSeen : ∀ text, ⟨some object, text⟩ ∈ keysOf rows ↔ text ∈ seen) (key : Literal)
    (value : Source) (text : Bytes) :
    ⟨some object, text⟩ ∈ keysOf (rows ++ [(some object, Source.keyCell key)] ++
      value.rows (rows.length + 1) (some object)) ↔ text ∈ key.text :: seen := by
  have hKey : rowKey (some object, Source.keyCell key) = some ⟨some object, key.text⟩ := rfl
  have hValue : ⟨some object, text⟩ ∉ keysOf (value.rows (rows.length + 1) (some object)) := by
    intro hMem
    obtain ⟨q, hq, hLe, -⟩ := value.keysOf_rows _ _ hMem
    cases hq
    omega
  rw [keysOf_append, keysOf_concat_key hKey, List.mem_append, List.mem_append, hSeen,
    List.mem_singleton, List.mem_cons, KeysetKey.mk.injEq]
  constructor
  · rintro ((h | ⟨-, h⟩) | h)
    · exact Or.inr h
    · exact Or.inl h
    · exact absurd h hValue
  · rintro (h | h)
    · exact Or.inl (Or.inr ⟨rfl, h⟩)
    · exact Or.inl (Or.inl h)

theorem parseMembers_follows {object : Nat} (depth : Nat) (parse : Option Nat → Nat → ParserM Nat)
    {read : ReadM Source} (hFresh : Fresh given)
    (h : ∀ rows, object < rows.length →
      ValueFollows r given heap rows (some object) (parse (some object) (depth + 1)) read)
    (rounds : Nat) (seen : List Bytes) (rows : List (Row Cell)) (hObject : object < rows.length)
    (hSeen : ∀ text, ⟨some object, text⟩ ∈ keysOf rows ↔ text ∈ seen) :
    Lockstep (Follows r given heap 0 rows) (parseMembers parse object depth rounds)
      (r.readMembers read rounds seen)
      (fun _ members =>
        Follows r given heap 0 (rows ++ Source.memberRows members rows.length object))
      (Faulted r given heap) := by
  induction rounds generalizing rows seen with
  | zero => exact fun p place h => ⟨rfl, h.tracks.heap, fun hState => absurd rfl hState⟩
  | succ rounds ih =>
      refine (parseKey_follows hFresh hObject hSeen).bind fun _ key => ?_
      refine skipSpace_follows.bind fun _ _ => ?_
      have hLength : (rows ++ [(some object, Source.keyCell key)]).length = rows.length + 1 := by
        rw [List.length_append, List.length_singleton]
      have hItem := item_follows (h (rows ++ [(some object, Source.keyCell key)]) (by omega)) 0x7d
        (.key key.text)
      have hRun := hItem.bind
        (f := fun closed => if closed then (pure () : ParserM Unit) else
          parseMembers parse object depth rounds)
        (g := fun item => if item.2 then
          (pure [(key, item.1)] : ReadM (List (Literal × Source))) else do
          let rest ← r.readMembers read rounds (key.text :: seen)
          return (key, item.1) :: rest)
        (Q := fun _ members => Follows r given heap 0
          (rows ++ Source.memberRows members rows.length object)) ?_
      · rw [bind_assoc] at hRun
        intro p place hFollows
        rw [get_bind, hFollows.tracks.atEnd, hFollows.tracks.current, hFollows.tracks.offset]
        by_cases hColon : r.atEnd place = true ∨ r.current place ≠ 0x3a
        · have hRead : r.readByte 0x3a place = Reading.refuse .errSyntax place.offset place := by
            rw [Reading.readByte, if_pos hColon]
          rw [if_pos hColon, bind_of_error hRead]
          exact hFollows.tracks.faulted _ _ _ _
        · have hRead : r.readByte 0x3a place = .ok () ⟨place.offset + 1, place.count⟩ := by
            rw [Reading.readByte, if_neg hColon]
            rfl
          rw [if_neg hColon, bind_of_ok hRead]
          exact hRun _ _ (hFollows.seek _)
      · rintro closed ⟨value, closed'⟩ p place ⟨rfl, hFollows⟩
        rw [hLength] at hFollows
        simp only at hFollows ⊢
        cases closed with
        | true =>
            simp only [if_true, pure_run]
            rw [Source.memberRows_cons, Source.memberRows_nil, List.append_nil,
              ← List.singleton_append, ← List.append_assoc]
            exact hFollows
        | false =>
            simp only [Bool.false_eq_true, if_false]
            have hRest := (ih (key.text :: seen) (rows ++ [(some object, Source.keyCell key)] ++
                value.rows (rows.length + 1) (some object)) (by rw [List.length_append]; omega)
                (mem_keysOf_member hObject hSeen key value)).bind
              (f := fun u => (pure u : ParserM Unit))
              (g := fun rest => (pure ((key, value) :: rest) : ReadM (List (Literal × Source))))
              (Q := fun _ members => Follows r given heap 0
                (rows ++ Source.memberRows members rows.length object)) ?_
            · have := hRest p place hFollows
              rwa [bind_pure] at this
            · intro _ rest
              refine Lockstep.pure fun p place h => ?_
              rw [List.length_append, Source.length_rows, hLength] at h
              rw [Source.memberRows_cons, ← List.singleton_append, ← List.append_assoc,
                ← List.append_assoc]
              exact h

/-! ### Values -/

/-- The frame that `parseObject` and `parseArray` share around their items. -/
def parseContainer (type : ValueType) (closing : UInt8) (items : Nat → ParserM Unit)
    (parent : Option Nat) (depth : Nat) : ParserM Nat := do
  let opened ← parseOpen type parent depth closing
  if !opened.2 then
    items opened.1
  modify fun p => p.updateToken opened.1 fun token => { token with stop := p.offset }
  return opened.1

theorem parseObject_eq (parse : Option Nat → Nat → ParserM Nat) (parent : Option Nat) (depth : Nat)
    (p : Parser) :
    parseObject parse parent depth p =
      parseContainer .object 0x7d
        (fun object => parseMembers parse object depth (p.document.bytes.length + 1)) parent
          depth p := by
  rw [parseObject, parseContainer, parseOpen, bind_assoc, get_bind, get_bind]
  by_cases hDepth : depth ≥ p.limits.maximumDepth
  · simp only [if_pos hDepth]
    rfl
  · simp only [if_neg hDepth, bind_assoc, pure_bind]

theorem parseArray_eq (parse : Option Nat → Nat → ParserM Nat) (parent : Option Nat) (depth : Nat)
    (p : Parser) :
    parseArray parse parent depth p =
      parseContainer .array 0x5d
        (fun array => parseElements parse array depth (p.document.bytes.length + 1)) parent
          depth p := by
  rw [parseArray, parseContainer, parseOpen, bind_assoc, get_bind, get_bind]
  by_cases hDepth : depth ≥ p.limits.maximumDepth
  · simp only [if_pos hDepth]
    rfl
  · simp only [if_neg hDepth, bind_assoc, pure_bind]

/-- A container is parsed as it is read when its items are. -/
theorem container_follows {ι : Type} {rows : List (Row Cell)} {parent : Option Nat}
    {type : ValueType} {closing : UInt8} {items : Nat → ParserM Unit} {readItems : ReadM (List ι)}
    (itemRows : List ι → List (Row Cell)) {make : Span → List ι → Source} {depth start : Nat}
    (hParent : ∀ q, parent = some q → q < rows.length) (hNil : itemRows [] = [])
    (hMake : ∀ span items, (make span items).rows rows.length parent =
      (parent, ⟨type, span, none, false, false⟩) :: itemRows items)
    (hItems : Lockstep (Follows r given heap 0 (rows ++ [(parent, newCell type start false)]))
      (items rows.length) readItems
        (fun _ items => Follows r given heap 0
          (rows ++ (parent, newCell type start false) :: itemRows items)) (Faulted r given heap)) :
    Lockstep (fun p place => Follows r given heap 1 rows p place ∧ place.offset = start)
      (parseContainer type closing items parent depth)
      (r.openContainer depth closing >>= fun closed =>
        (if closed then pure [] else readItems) >>= fun items =>
        get >>= fun place => pure (make ⟨start, place.offset⟩ items))
      (fun i s p place => i = rows.length ∧
        Follows r given heap 0 (rows ++ s.rows rows.length parent) p place)
      (Faulted r given heap) := by
  refine (parseOpen_follows type depth closing start hParent).bind ?_
  rintro ⟨container, closed⟩ closed'
  refine Lockstep.of_states ?_
  intro p place hOpen
  obtain ⟨hOpened, hFollows⟩ := hOpen
  obtain ⟨rfl, rfl⟩ := Prod.mk.inj hOpened
  -- what is left after the items: the container learns where it stops
  have hClose (list : List ι) : Lockstep
      (Follows r given heap 0 (rows ++ (parent, newCell type start false) :: itemRows list))
      (do
        modify fun p => p.updateToken rows.length fun token => { token with stop := p.offset }
        return rows.length)
      (get >>= fun place => pure (make ⟨start, place.offset⟩ list))
      (fun i s p place => i = rows.length ∧
        Follows r given heap 0 (rows ++ s.rows rows.length parent) p place)
      (Faulted r given heap) := by
    intro p place h
    simp only [modify_bind, get_bind, pure_run, hMake, h.tracks.offset]
    exact ⟨trivial, h.close place.offset⟩
  cases closed with
  | true =>
      rintro p' place' ⟨hp, hPlace⟩
      have hEmpty := hClose []
      rw [hNil] at hEmpty
      rw [hp, hPlace]
      exact hEmpty p place hFollows
  | false =>
      refine Lockstep.mono (hItems.bind fun _ list => hClose list) ?_ (fun _ _ _ _ h => h)
        fun _ _ _ _ h => h
      rintro p' place' ⟨hp, hPlace⟩
      rw [hp, hPlace]
      exact hFollows

/-- The types and values that `primitiveType` knows. -/
theorem primitive_cases (span : Span) (lexeme : Bytes) :
    (primitiveType lexeme = none ∧ Reading.primitive span lexeme = none) ∨
    (∃ value, primitiveType lexeme = some (.boolean, value) ∧
      Reading.primitive span lexeme = some (.boolean span value)) ∨
    (primitiveType lexeme = some (.null, false) ∧
      Reading.primitive span lexeme = some (.null span)) ∨
    (primitiveType lexeme = some (.number, false) ∧
      Reading.primitive span lexeme = some (.number span lexeme)) := by
  rw [Reading.primitive, primitiveType]
  split_ifs
  · exact Or.inr (Or.inl ⟨true, rfl, rfl⟩)
  · exact Or.inr (Or.inl ⟨false, rfl, rfl⟩)
  · exact Or.inr (Or.inr (Or.inl ⟨rfl, rfl⟩))
  · exact Or.inr (Or.inr (Or.inr ⟨rfl, rfl⟩))
  · exact Or.inl ⟨rfl, rfl⟩

/-- What `parsePrimitive` does once it knows the type of its lexeme. -/
def finishPrimitive (parent : Option Nat) (start stop : Nat) (lexeme : Bytes) (type : ValueType)
    (booleanValue : Bool) : ParserM Nat := do
  let index ← addToken type start parent false
  modify fun p => p.updateToken index fun token => { token with stop, booleanValue }
  if type = .number then modify fun p => p.storeText index lexeme
  return index

theorem finishPrimitive_full {rows : List (Row Cell)} {parent : Option Nat} {p : Parser}
    {place : Place} {start stop : Nat} {lexeme : Bytes} {type : ValueType} {booleanValue : Bool}
    (h : Tracks r given heap rows p place) (hFull : place.count ≥ r.capacity) :
    finishPrimitive parent start stop lexeme type booleanValue p =
      .error .errLimit (p.fail .errLimit start) :=
  bind_of_error (addToken_full h hFull)

theorem finishPrimitive_room {rows : List (Row Cell)} {parent : Option Nat} {p : Parser}
    {place : Place} {start stop : Nat} {lexeme : Bytes} {type : ValueType} {booleanValue : Bool}
    (h : Follows r given heap 1 rows p place) (hRoom : ¬place.count ≥ r.capacity)
    (hParent : ∀ q, parent = some q → q < rows.length) :
    ∃ q, finishPrimitive parent start stop lexeme type booleanValue p = .ok rows.length q ∧
      Follows r given heap 0 (rows ++ [(parent, ⟨type, ⟨start, stop⟩,
        if type = .number then some lexeme else none, false, booleanValue⟩)]) q
        ⟨place.offset, place.count + 1⟩ := by
  have hLength (row : Row Cell) : (rows ++ [row]).length + 0 = rows.length + 1 := by
    rw [List.length_append, List.length_singleton, Nat.add_zero]
  obtain ⟨q, hAdd, hTracks, hKeyed⟩ := addToken_room type start false h.tracks hRoom hParent
  have hStop := hTracks.update rows.length
    (fun token => { token with stop, booleanValue })
    (fun cell => { cell with span := ⟨cell.span.start, stop⟩, booleanValue })
    (fun _ => rfl) (fun _ => rfl) (fun _ _ => rfl) (fun _ => rfl) (fun _ => rfl)
  rw [modify_length_concat] at hStop
  have hMoved := (hKeyed _ h.keyed).update rows.length
    (fun token => { token with stop, booleanValue })
    (fun cell => { cell with span := ⟨cell.span.start, stop⟩, booleanValue })
    hTracks.shows (List.prefix_append _ _) (fun _ => rfl) (fun _ => rfl) (fun _ _ => rfl)
    (fun _ => rfl) (fun _ => rfl)
  rw [finishPrimitive, bind_of_ok hAdd, modify_bind]
  by_cases hNumber : type = .number
  · simp only [if_pos hNumber]
    refine ⟨_, rfl, hStop.store rfl lexeme, ?_⟩
    rw [hLength]
    exact (hMoved.store hStop.shows rfl lexeme).plain rfl
  · simp only [if_neg hNumber]
    refine ⟨_, rfl, hStop, ?_⟩
    rw [hLength]
    exact hMoved.plain rfl

/-- A primitive, once it is known where it ends. -/
theorem parsePrimitive_seek {p : Parser} {place : Place} (hOffset : p.offset = place.offset)
    (hBytes : p.document.bytes = r.bytes) (parent : Option Nat) :
    parsePrimitive parent p = (match primitiveType
      (r.content place.offset (primitiveEnd r.bytes place.offset)) with
    | none => fail .errSyntax place.offset
    | some (type, booleanValue) =>
        finishPrimitive parent place.offset (primitiveEnd r.bytes place.offset)
        (r.content place.offset (primitiveEnd r.bytes place.offset)) type booleanValue :
          ParserM Nat)
      (p.seek (primitiveEnd r.bytes place.offset)) := by
  rw [parsePrimitive, get_bind]
  simp only [set_bind, hOffset, hBytes]
  rfl

theorem parsePrimitive_follows {rows : List (Row Cell)} {parent : Option Nat}
    (hParent : ∀ q, parent = some q → q < rows.length) :
    ValueFollows r given heap rows parent (parsePrimitive parent) r.readPrimitive := by
  intro p place h
  have hSeek := h.seek (primitiveEnd r.bytes place.offset)
  rw [parsePrimitive_seek h.tracks.offset h.tracks.bytes, Reading.readPrimitive]
  rcases primitive_cases ⟨place.offset, primitiveEnd r.bytes place.offset⟩
      (r.content place.offset (primitiveEnd r.bytes place.offset)) with
    ⟨hType, hPrimitive⟩ | ⟨value, hType, hPrimitive⟩ | ⟨hType, hPrimitive⟩ | ⟨hType, hPrimitive⟩
  · simp only [hType, hPrimitive]
    exact hSeek.tracks.faulted _ _ _ _
  all_goals
    simp only [hType, hPrimitive]
    by_cases hRoom : place.count ≥ r.capacity
    · rw [finishPrimitive_full hSeek.tracks hRoom, if_pos hRoom]
      exact hSeek.tracks.faulted _ _ _ _
    · obtain ⟨q, hFinish, hFollows⟩ := finishPrimitive_room hSeek hRoom hParent
      rw [hFinish, if_neg hRoom]
      exact ⟨rfl, hFollows⟩

/-- A row that is still to come holds no key yet. -/
theorem Tracks.fresh_key {rows : List (Row Cell)} {p : Parser} {place : Place}
    (h : Tracks r given heap rows p place) (text : Bytes) :
    ⟨some rows.length, text⟩ ∉ keysOf rows := by
  intro hMem
  obtain ⟨⟨parent, cell⟩, hRow, hKey⟩ := List.mem_filterMap.mp hMem
  obtain ⟨i, hGet⟩ := List.mem_iff_getElem?.mp hRow
  rw [rowKey] at hKey
  split_ifs at hKey
  cases hKey
  have hBelow := h.shows.below hGet
  have hLt := (List.getElem?_eq_some_iff.mp hGet).1
  omega

theorem parseObject_follows {rows : List (Row Cell)} {parent : Option Nat} {depth : Nat}
    {parse : Option Nat → Nat → ParserM Nat} {read : ReadM Source} (hFresh : Fresh given)
    (hParent : ∀ q, parent = some q → q < rows.length)
    (hValue : ∀ rows' container, container < rows'.length →
      ValueFollows r given heap rows' (some container) (parse (some container) (depth + 1)) read) :
    ValueFollows r given heap rows parent (parseObject parse parent depth)
      (r.readObject read depth) := by
  intro p place h
  rw [parseObject_eq, Reading.readObject_eq, h.tracks.bytes]
  refine container_follows (fun members => Source.memberRows members (rows.length + 1) rows.length)
    hParent rfl (fun span members => Source.rows_object span members _ _) ?_ p place ⟨h, rfl⟩
  have hLength (row : Row Cell) : (rows ++ [row]).length = rows.length + 1 := by
    rw [List.length_append, List.length_singleton]
  have hSeen (text : Bytes) :
      ⟨some rows.length, text⟩ ∈ keysOf (rows ++ [(parent, newCell .object place.offset false)]) ↔
        text ∈ ([] : List Bytes) := by
    rw [keysOf_concat_plain (rowKey_newCell parent .object place.offset)]
    exact ⟨fun hMem => absurd hMem (h.tracks.fresh_key text), nofun⟩
  have hMembers := parseMembers_follows depth parse hFresh
    (fun rows' hLt => hValue rows' _ hLt) (r.bytes.length + 1) []
    (rows ++ [(parent, newCell .object place.offset false)]) (by rw [hLength]; omega) hSeen
  rw [hLength] at hMembers
  exact hMembers.mono (fun _ _ h => h)
    (fun _ _ _ _ h => by rwa [List.append_assoc, List.singleton_append] at h) fun _ _ _ _ h => h

theorem parseArray_follows {rows : List (Row Cell)} {parent : Option Nat} {depth : Nat}
    {parse : Option Nat → Nat → ParserM Nat} {read : ReadM Source}
    (hParent : ∀ q, parent = some q → q < rows.length)
    (hValue : ∀ rows' container, container < rows'.length →
      ValueFollows r given heap rows' (some container) (parse (some container) (depth + 1)) read) :
    ValueFollows r given heap rows parent (parseArray parse parent depth)
      (r.readArray read depth) := by
  intro p place h
  rw [parseArray_eq, Reading.readArray_eq, h.tracks.bytes]
  refine container_follows
    (fun elements => Source.elementRows elements (rows.length + 1) rows.length)
    hParent rfl (fun span elements => Source.rows_array span elements _ _) ?_ p place ⟨h, rfl⟩
  have hLength (row : Row Cell) : (rows ++ [row]).length = rows.length + 1 := by
    rw [List.length_append, List.length_singleton]
  have hElements := parseElements_follows depth parse
    (fun rows' hLt => hValue rows' rows.length hLt) (r.bytes.length + 1) 0
    (rows ++ [(parent, newCell .array place.offset false)])
    (by rw [List.length_append, List.length_singleton]; omega)
  rw [hLength] at hElements
  exact hElements.mono (fun _ _ h => h)
    (fun _ _ _ _ h => by rwa [List.append_assoc, List.singleton_append] at h) fun _ _ _ _ h => h

/-- The parser next to the reader, on any value below any container. -/
theorem parseValue_follows (hFresh : Fresh given) (fuel depth : Nat) (rows : List (Row Cell))
    (parent : Option Nat) (hParent : ∀ q, parent = some q → q < rows.length) :
    ValueFollows r given heap rows parent (parseValue fuel parent depth)
      (r.readValue fuel depth) := by
  induction fuel generalizing rows parent depth with
  | zero => exact fun p place h => ⟨rfl, h.tracks.heap, fun hState => absurd rfl hState⟩
  | succ fuel ih =>
      have hValue (rows' : List (Row Cell)) (container : Nat) (hLt : container < rows'.length) :
          ValueFollows r given heap rows' (some container)
            (parseValue fuel (some container) (depth + 1)) (r.readValue fuel (depth + 1)) :=
        ih (depth + 1) rows' (some container) (by rintro q ⟨⟩; exact hLt)
      refine skipSpace_follows.bind fun _ _ => ?_
      intro p place h
      rw [get_bind, get_bind, h.tracks.atEnd, h.tracks.current, h.tracks.offset]
      by_cases hEnd : r.atEnd place = true
      · rw [if_pos hEnd, if_pos hEnd, fail_bind]
        exact h.tracks.faulted _ _ _ _
      rw [if_neg hEnd, if_neg hEnd]
      simp only
      by_cases hObject : r.current place = 0x7b
      · rw [if_pos hObject, if_pos hObject]
        exact parseObject_follows hFresh hParent hValue p place h
      rw [if_neg hObject, if_neg hObject]
      by_cases hArray : r.current place = 0x5b
      · rw [if_pos hArray, if_pos hArray]
        exact parseArray_follows hParent hValue p place h
      rw [if_neg hArray, if_neg hArray]
      by_cases hString : r.current place = 0x22
      · rw [if_pos hString, if_pos hString]
        have hText := (@parseText_follows r _ heap _ _ hFresh hParent).bind
          (f := fun i => (pure i : ParserM Nat))
          (g := fun literal => (pure (.string literal) : ReadM Source))
          (Q := fun i s p place => i = rows.length ∧
            Follows r given heap 0 (rows ++ s.rows rows.length parent) p place)
          fun _ _ => Lockstep.pure fun _ _ h => h
        rw [bind_pure] at hText
        exact hText p place h
      · rw [if_neg hString, if_neg hString]
        exact parsePrimitive_follows hParent p place h

/-- The whole text: the root value and the space around it. -/
theorem parseRoot_follows {p : Parser} (hFresh : Fresh given)
    (h : Follows r given heap 1 [] p ⟨0, 0⟩) :
    match parseRoot p, r.readText with
    | .ok () q, .ok s => ∃ place, Follows r given heap 0 (s.rows 0 none) q place
    | .error e q, .error f => Faulted r given heap e f q ⟨0, 0⟩
    | _, _ => False := by
  have hRun := parseValue_follows hFresh (r.maximumDepth + 1) 0 [] none nofun p ⟨0, 0⟩ h
  rw [parseRoot, Reading.readText, h.tracks.depth]
  cases hParse : parseValue (r.maximumDepth + 1) none 0 p with
  | error e q =>
      cases hRead : r.readValue (r.maximumDepth + 1) 0 ⟨0, 0⟩ with
      | error f next =>
          rw [hParse, hRead] at hRun
          exact ⟨hRun.code, hRun.heap, hRun.error⟩
      | ok s next =>
          rw [hParse, hRead] at hRun
          exact hRun.elim
  | ok i q =>
      cases hRead : r.readValue (r.maximumDepth + 1) 0 ⟨0, 0⟩ with
      | error f next =>
          rw [hParse, hRead] at hRun
          exact hRun.elim
      | ok s next =>
          rw [hParse, hRead] at hRun
          obtain ⟨-, hFollows⟩ := hRun
          have hSpace := hFollows.seek (spaceEnd r.bytes next.offset)
          simp only [hFollows.tracks.bytes, hFollows.tracks.offset, hSpace.tracks.offset,
            hSpace.tracks.bytes]
          by_cases hStop : spaceEnd r.bytes next.offset ≠ r.bytes.length
          · rw [if_pos hStop, if_pos hStop]
            exact hSpace.tracks.faulted _ _ _ _
          · rw [if_neg hStop, if_neg hStop]
            exact ⟨_, hSpace⟩

end MaelysJson
