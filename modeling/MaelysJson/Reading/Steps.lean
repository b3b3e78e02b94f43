import MaelysJson.General.Run
import MaelysJson.Reading.Reader
import MaelysJson.Table.Keys

/-! The parser next to the reader, one token at a time: what a parser state has
to do with the rows read so far, and what each step of the parser leaves of it. -/
namespace MaelysJson

open Forest Run

/-- The caller passed no error record, or one that holds no code yet. -/
def Fresh (given : Option Error) : Prop := ∀ error, given = some error → error.code = .ok

/-- The parser stands where the reader stands, and its tables show `rows`. -/
structure Tracks (r : Reading) (given : Option Error) (heap : Heap) (rows : List (Row Cell))
    (p : Parser) (place : Place) : Prop where
  profile : p.profile = r.profile
  bytes : p.document.bytes = r.bytes
  depth : p.limits.maximumDepth = r.maximumDepth
  capacity : p.document.tokenCapacity = r.capacity
  error : p.error = given
  heap : p.heap = heap
  offset : p.offset = place.offset
  count : rows.length = place.count
  shows : p.document.Shows rows
  children : p.document.children = []
  documentProfile : p.document.profile = r.profile
  arenaCapacity : p.document.arenaCapacity = r.bytes.length + r.capacity + 1
  offsets : ∀ i, (p.document.token i).childrenOffset = 0

/-- The key set, the marks and the count of repeated keys are those of `rows`;
at most `bound` slots of the key set are spoken for. -/
structure Keyed (r : Reading) (bound : Nat) (rows : List (Row Cell)) (p : Parser) : Prop where
  holds : p.keys.Holds (tokenKey p.document) (lastKey rows)
  roomy : r.capacity + 1 ≤ p.keys.capacity
  used : p.keys.count * 2 ≤ bound
  marks : ∀ i, (p.document.token i).superseded = true ↔ Superseded rows i
  duplicates : p.document.duplicateCount = repeats (keysOf rows)

/-- Parser and reader stand together; a key may still wait for its value. -/
structure Follows (r : Reading) (given : Option Error) (heap : Heap) (slack : Nat)
    (rows : List (Row Cell)) (p : Parser) (place : Place) : Prop where
  tracks : Tracks r given heap rows p place
  keyed : Keyed r (rows.length + slack) rows p

/-- Parser and reader have failed in the same way. -/
structure Faulted (r : Reading) (given : Option Error) (heap : Heap) (e : Result) (f : Fault)
    (p : Parser) (_ : Place) : Prop where
  code : e = f.code
  heap : p.heap = heap
  error : f.code ≠ .errState →
    p.error = errorSet given f.code (some r.bytes) r.bytes.length f.offset

variable {r : Reading} {given : Option Error} {heap : Heap} {rows : List (Row Cell)} {p : Parser}
  {place : Place}

@[simp] theorem fail_run {α : Type} (result : Result) (offset : Nat) :
    (fail result offset : ParserM α) p = .error result (p.fail result offset) := rfl

@[simp] theorem fail_bind {α β : Type} (result : Result) (offset : Nat) (f : α → ParserM β) :
    (fail result offset >>= f) p = .error result (p.fail result offset) := rfl

namespace Tracks

theorem atEnd (h : Tracks r given heap rows p place) : p.atEnd = r.atEnd place := by
  rw [Parser.atEnd, Reading.atEnd, h.bytes, h.offset]

theorem current (h : Tracks r given heap rows p place) : p.current = r.current place := by
  rw [Parser.current, Reading.current, h.bytes, h.offset]

theorem seek (h : Tracks r given heap rows p place) (offset : Nat) :
    Tracks r given heap rows (p.seek offset) ⟨offset, place.count⟩ :=
  { h with offset := rfl, count := h.count }

theorem faulted (h : Tracks r given heap rows p place) (code : Result) (offset : Nat)
    (path : List Step) (next : Place) :
    Faulted r given heap code ⟨code, offset, path⟩ (p.fail code offset) next :=
  ⟨rfl, h.heap, fun _ => by rw [← h.bytes, ← h.error]; rfl⟩

end Tracks

theorem Keyed.seek {bound : Nat} (h : Keyed r bound rows p) (offset : Nat) :
    Keyed r bound rows (p.seek offset) := ⟨h.holds, h.roomy, h.used, h.marks, h.duplicates⟩

theorem Follows.seek {slack : Nat} (h : Follows r given heap slack rows p place) (offset : Nat) :
    Follows r given heap slack rows (p.seek offset) ⟨offset, place.count⟩ :=
  ⟨h.tracks.seek offset, h.keyed.seek offset⟩

theorem Follows.mono {slack slack' : Nat} (h : Follows r given heap slack rows p place)
    (hSlack : slack ≤ slack') : Follows r given heap slack' rows p place :=
  ⟨h.tracks, { h.keyed with used := h.keyed.used.trans (by omega) }⟩

/-! ### Tokens that changes leave alone -/

/-- What a change of links keeps of a token. -/
theorem token_addToken {β : Type} (document : Document) (type : ValueType) (start : Nat)
    (parent : Option Nat) (objectKey : Bool) (f : Token → β) (i : Nat)
    (hLinks : ∀ token links, f { token with links } = f token)
    (hNew : f { Token.blank with type, start, stop := start, objectKey, links := .init parent } =
      f .blank) :
    f ((document.addToken type start parent objectKey).token i) = f (document.token i) := by
  have hConcat : f ((document.tokens ++
      [{ Token.blank with type, start, stop := start, objectKey, links := .init parent }]).getD
      i .blank) = f (document.token i) := by
    rw [Document.token, List.getD_eq_getElem?_getD, List.getD_eq_getElem?_getD,
      List.getElem?_append]
    split_ifs with hi
    · rfl
    · rw [List.getElem?_eq_none (l := document.tokens) (by omega)]
      cases i - document.tokens.length with
      | zero => exact hNew
      | succ j => rfl
  cases parent with
  | none => exact hConcat
  | some container =>
      rw [← hConcat, Document.token, Document.addToken, List.getD_eq_getElem?_getD,
        List.getD_eq_getElem?_getD, linksAppend_getElem?]
      simp only
      cases (document.tokens ++ [{ Token.blank with
        type, start, stop := start, objectKey, links := .init (some container) }])[i]? with
      | none => rfl
      | some token =>
          rw [Option.map_some, Option.getD_some, Option.getD_some]
          split_ifs <;> simp only [Token.updateLinks, hLinks]

/-- A change that keeps the rows of keys, the marks and the counts keeps the key set. -/
theorem Keyed.transfer {bound : Nat} {keyRows rows' : List (Row Cell)} {p' : Parser}
    (h : Keyed r bound keyRows p) (hShows : p.document.Shows rows)
    (hShows' : p'.document.Shows rows') (hKeys : p'.keys = p.keys)
    (hDuplicates : p'.document.duplicateCount = p.document.duplicateCount)
    (hMarks : ∀ i, (p'.document.token i).superseded = (p.document.token i).superseded)
    (hRows : ∀ (i : Nat) (row : Row Cell), keyRows[i]? = some row → (rowKey row).isSome = true →
      ∃ old new : Row Cell, rows[i]? = some old ∧ rows'[i]? = some new ∧ new.1 = old.1 ∧
        new.2.text = old.2.text) :
    Keyed r bound keyRows p' := by
  refine ⟨?_, by rw [hKeys]; exact h.roomy, by rw [hKeys]; exact h.used,
    fun i => by rw [hMarks]; exact h.marks i, by rw [hDuplicates]; exact h.duplicates⟩
  rw [hKeys]
  refine h.holds.congr fun key i hLast => ?_
  obtain ⟨row, hRow, hKey⟩ := lastKey_some hLast
  obtain ⟨old, new, hOld, hNew, hParent, hText⟩ := hRows i row hRow (by rw [hKey]; rfl)
  rw [hShows'.tokenKey hNew, hShows.tokenKey hOld, hParent, hText]

/-! ### Tokens -/

/-- The row of a new token, before anything else is known of it. -/
def newCell (type : ValueType) (start : Nat) (objectKey : Bool) : Cell :=
  ⟨type, ⟨start, start⟩, none, objectKey, false⟩

theorem addToken_full {type : ValueType} {start : Nat} {parent : Option Nat} {objectKey : Bool}
    (h : Tracks r given heap rows p place) (hFull : place.count ≥ r.capacity) :
    addToken type start parent objectKey p = .error .errLimit (p.fail .errLimit start) := by
  rw [addToken, if_pos (by rw [h.shows.length, h.count, h.capacity]; exact hFull), fail_run]

theorem addToken_room (type : ValueType) (start : Nat) {parent : Option Nat} (objectKey : Bool)
    (h : Tracks r given heap rows p place) (hRoom : ¬place.count ≥ r.capacity)
    (hParent : ∀ q, parent = some q → q < rows.length) :
    ∃ q, addToken type start parent objectKey p = .ok rows.length q ∧
      Tracks r given heap (rows ++ [(parent, newCell type start objectKey)]) q
        ⟨place.offset, place.count + 1⟩ ∧
      ∀ bound, Keyed r bound rows p → Keyed r bound rows q := by
  refine ⟨{ p with document := p.document.addToken type start parent objectKey }, ?_, ?_, ?_⟩
  · rw [addToken, if_neg (by rw [h.shows.length, h.count, h.capacity]; exact hRoom), h.shows.length]
  · exact
      { profile := h.profile
        bytes := h.bytes
        depth := h.depth
        capacity := h.capacity
        error := h.error
        heap := h.heap
        offset := h.offset
        count := by rw [List.length_append, List.length_singleton, h.count]
        shows := h.shows.addToken type start objectKey hParent
        children := h.children
        documentProfile := h.documentProfile
        arenaCapacity := h.arenaCapacity
        offsets := fun i => (token_addToken p.document type start parent objectKey
          Token.childrenOffset i (fun _ _ => rfl) rfl).trans (h.offsets i) }
  · intro bound hKeyed
    refine hKeyed.transfer h.shows (h.shows.addToken type start objectKey hParent) rfl rfl
      (fun i => token_addToken p.document type start parent objectKey Token.superseded i
        (fun _ _ => rfl) rfl) fun i row hRow _ => ⟨row, row, hRow, ?_, rfl, rfl⟩
    rw [List.getElem?_append_left (List.getElem?_eq_some_iff.mp hRow).1, hRow]

/-- A token learns more of its value, without its text and its links. -/
theorem Tracks.update (index : Nat) (update : Token → Token) (change : Cell → Cell)
    (h : Tracks r given heap rows p place)
    (hLinks : ∀ token, (update token).links = token.links)
    (hCore : ∀ token, (update token).core = update token.core)
    (hRow : ∀ used row, rowToken used (row.1, change row.2) = update (rowToken used row))
    (hText : ∀ cell, (change cell).text = cell.text)
    (hOffsets : ∀ token, (update token).childrenOffset = token.childrenOffset) :
    Tracks r given heap (rows.modify index fun row => (row.1, change row.2))
      (p.updateToken index update)
      place :=
  { profile := h.profile
    bytes := h.bytes
    depth := h.depth
    capacity := h.capacity
    error := h.error
    heap := h.heap
    offset := h.offset
    count := by rw [List.length_modify, h.count]
    shows := h.shows.update hLinks hCore hRow hText
    children := h.children
    documentProfile := h.documentProfile
    arenaCapacity := h.arenaCapacity
    offsets := fun i => by
      have hToken := token_updateToken p.document index i update
      rw [Parser.updateToken, hToken]
      split_ifs
      · rw [hOffsets, h.offsets]
      · exact h.offsets i }

theorem Keyed.update {bound : Nat} {keyRows : List (Row Cell)} (index : Nat)
    (update : Token → Token) (change : Cell → Cell) (h : Keyed r bound keyRows p)
    (hShows : p.document.Shows rows) (hKeyRows : keyRows <+: rows)
    (hLinks : ∀ token, (update token).links = token.links)
    (hCore : ∀ token, (update token).core = update token.core)
    (hRow : ∀ used row, rowToken used (row.1, change row.2) = update (rowToken used row))
    (hText : ∀ cell, (change cell).text = cell.text)
    (hMarks : ∀ token, (update token).superseded = token.superseded) :
    Keyed r bound keyRows (p.updateToken index update) := by
  refine h.transfer hShows (hShows.update hLinks hCore hRow hText) rfl rfl (fun i => ?_)
    fun i row hRow _ => ?_
  · have hToken := token_updateToken p.document index i update
    rw [Parser.updateToken, hToken]
    split_ifs
    · rw [hMarks]
    · rfl
  · obtain ⟨rest, rfl⟩ := hKeyRows
    have hOld : (keyRows ++ rest)[i]? = some row := by
      rw [List.getElem?_append_left (List.getElem?_eq_some_iff.mp hRow).1, hRow]
    have hNew : ((keyRows ++ rest).modify index fun row => (row.1, change row.2))[i]? =
        some (if index = i then (row.1, change row.2) else row) := by
      rw [List.getElem?_modify, hOld]
      by_cases hi : index = i
      · simp only [hi, if_true, Option.map_eq_map, Option.map_some]
      · simp only [hi, if_false, id_map']
    refine ⟨row, _, hOld, hNew, ?_, ?_⟩
    · split_ifs <;> rfl
    · split_ifs <;> simp only [hText]

theorem token_storeText {β : Type} (p : Parser) (index : Nat) (text : Bytes) (f : Token → β)
    (i : Nat)
    (hText : ∀ token offset size, f { token with text := offset, textSize := size } = f token) :
    f ((p.storeText index text).document.token i) = f (p.document.token i) := by
  have hToken := token_updateToken p.document index i fun token =>
    { token with text := some p.document.arena.length, textSize := text.length }
  refine (congrArg f hToken).trans ?_
  split_ifs
  · exact hText _ _ _
  · rfl

/-- The last token gets its text. -/
theorem Tracks.store {row : Row Cell} (h : Tracks r given heap (rows ++ [row]) p place)
    (hRow : row.2.text = none) (text : Bytes) :
    Tracks r given heap (rows ++ [(row.1, { row.2 with text := some text })])
      (p.storeText rows.length text) place :=
  { profile := h.profile
    bytes := h.bytes
    depth := h.depth
    capacity := h.capacity
    error := h.error
    heap := h.heap
    offset := h.offset
    count := by rw [← h.count, List.length_append, List.length_append]; rfl
    shows := h.shows.store hRow text
    children := h.children
    documentProfile := h.documentProfile
    arenaCapacity := h.arenaCapacity
    offsets := fun i =>
      (token_storeText p rows.length text Token.childrenOffset i fun _ _ _ => rfl).trans
        (h.offsets i) }

theorem Keyed.store {bound : Nat} {row : Row Cell} (h : Keyed r bound rows p)
    (hShows : p.document.Shows (rows ++ [row])) (hRow : row.2.text = none) (text : Bytes) :
    Keyed r bound rows (p.storeText rows.length text) := by
  refine h.transfer hShows (hShows.store hRow text) rfl rfl
    (fun i => token_storeText p rows.length text Token.superseded i fun _ _ _ => rfl)
    fun i row hRow _ => ⟨row, row, ?_, ?_, rfl, rfl⟩
  · rw [List.getElem?_append_left (List.getElem?_eq_some_iff.mp hRow).1, hRow]
  · rw [List.getElem?_append_left (List.getElem?_eq_some_iff.mp hRow).1, hRow]

/-- Only the keys of the rows matter to the key set. -/
theorem Keyed.congr {bound : Nat} {rows' : List (Row Cell)} (h : Keyed r bound rows p)
    (hKeys : rows'.map rowKey = rows.map rowKey) : Keyed r bound rows' p := by
  have hLast : lastKey rows' = lastKey rows := by
    have hFrom (key : KeysetKey) (rows rows' : List (Row Cell)) (start : Nat)
        (hKeys : rows'.map rowKey = rows.map rowKey) :
        lastKeyFrom key rows' start = lastKeyFrom key rows start := by
      induction rows generalizing rows' start with
      | nil => rw [List.map_eq_nil_iff.mp hKeys]
      | cons row rows ih =>
          obtain ⟨row', rest, rfl, hRow, hRest⟩ := List.map_eq_cons_iff.mp hKeys
          rw [lastKeyFrom, lastKeyFrom, ih rest _ hRest, hRow]
    funext key
    exact hFrom key rows rows' 0 hKeys
  have hSuperseded (i : Nat) : Superseded rows' i ↔ Superseded rows i := by
    have hRow (rows : List (Row Cell)) : Superseded rows i ↔
        ∃ key, (rows.map rowKey)[i]? = some (some key) ∧ lastKey rows key ≠ some i := by
      simp only [Superseded, List.getElem?_map, Option.map_eq_some_iff]
      constructor
      · rintro ⟨row, key, hRow, hKey, hNe⟩
        exact ⟨key, ⟨row, hRow, hKey⟩, hNe⟩
      · rintro ⟨key, ⟨row, hRow, hKey⟩, hNe⟩
        exact ⟨row, key, hRow, hKey, hNe⟩
    rw [hRow, hRow, hKeys, hLast]
  have hKeysOf : keysOf rows' = keysOf rows := by
    have hMap (rows : List (Row Cell)) : keysOf rows = (rows.map rowKey).filterMap id := by
      rw [List.filterMap_map]
      rfl
    rw [hMap, hMap, hKeys]
  exact ⟨by rw [hLast]; exact h.holds, h.roomy, h.used,
    fun i => (h.marks i).trans (hSuperseded i).symm, by rw [hKeysOf]; exact h.duplicates⟩

/-! ### Strings -/

/-- The cell of a string value or a key. -/
def stringCell (literal : Literal) (objectKey : Bool) : Cell :=
  ⟨.string, literal.span, some literal.text, objectKey, false⟩

/-- `scanStringBody` as `parseString` calls it: an error without a position gets that
of the opening quotation mark. -/
def scanOrFail (opening : Nat) : ParserM Nat := fun p =>
  match scanStringBody p with
  | .ok stop p => .ok stop p
  | .error result p => if p.errorRecorded then .error result p else fail .errSyntax opening p

/-- What `parseString` does once it knows where the string stops. -/
def finishString (parent : Option Nat) (objectKey : Bool) (opening stop : Nat) : ParserM Nat := do
  let index ← addToken .string (opening + 1) parent objectKey
  modify (·.updateToken index fun token => { token with stop })
  let p ← get
  match decodeString ((p.document.bytes.drop (opening + 1)).take (stop - (opening + 1)))
    p.profile with
  | .error (result, bad) => fail result (opening + 1 + bad)
  | .ok text =>
      set (p.storeText index text)
      if objectKey then insertKey index opening
      return index

theorem parseString_eq (parent : Option Nat) (objectKey : Bool) (p : Parser) :
    parseString parent objectKey p =
      if p.atEnd ∨ p.current ≠ 0x22 then .error .errSyntax (p.fail .errSyntax p.offset)
      else (scanOrFail p.offset >>= finishString parent objectKey p.offset)
        (p.seek (p.offset + 1)) := by
  simp only [parseString, get_bind]
  by_cases hQuote : p.atEnd = true ∨ p.current ≠ 0x22
  · rw [if_pos hQuote, if_pos hQuote]
    rfl
  · rw [if_neg hQuote, if_neg hQuote]
    rfl

theorem scanOrFail_closed {start stop : Nat} (h : Tracks r given heap rows p place)
    (hScan : scanStringFrom r.profile r.bytes (r.bytes.length + 1) start = .closed stop)
    (opening : Nat) :
    scanOrFail opening (p.seek start) = .ok stop (p.seek (stop + 1)) := by
  have hBody : scanStringBody (p.seek start) = .ok stop (p.seek (stop + 1)) := by
    simp only [scanStringBody, Parser.seek, h.profile, h.bytes, hScan]
  rw [scanOrFail, hBody]

theorem scanOrFail_refused {start offset : Nat} (opening : Nat)
    (h : Tracks r given heap rows p place)
    (hScan : scanStringFrom r.profile r.bytes (r.bytes.length + 1) start = .refused offset) :
    ∃ q, scanOrFail opening (p.seek start) = .error .errSyntax q ∧
      Faulted r given heap .errSyntax ⟨.errSyntax, offset, []⟩ q place := by
  have hBody : scanStringBody (p.seek start) =
      .error .errSyntax ((p.seek offset).fail .errSyntax offset) := by
    simp only [scanStringBody, Parser.seek, h.profile, h.bytes, hScan, fail_run]
  have hFault := (h.seek offset).faulted .errSyntax offset [] place
  rw [scanOrFail, hBody]
  simp only
  split_ifs with hRecorded
  · exact ⟨_, rfl, hFault⟩
  · refine ⟨_, rfl, hFault.code, hFault.heap, fun _ => ?_⟩
    have hNone : given = none := by
      cases hGiven : given with
      | none => rfl
      | some error =>
          exfalso
          refine hRecorded ?_
          rw [Parser.errorRecorded, hFault.error (by simp), hGiven]
          rfl
    rw [Parser.fail]
    simp only [hFault.error (by simp), hNone]
    rfl

theorem scanOrFail_unterminated {start offset : Nat} (opening : Nat) (hFresh : Fresh given)
    (h : Tracks r given heap rows p place)
    (hScan : scanStringFrom r.profile r.bytes (r.bytes.length + 1) start = .unterminated offset) :
    ∃ q, scanOrFail opening (p.seek start) = .error .errSyntax q ∧
      Faulted r given heap .errSyntax ⟨.errSyntax, opening, []⟩ q place := by
  have hBody : scanStringBody (p.seek start) = .error .errSyntax (p.seek offset) := by
    simp only [scanStringBody, Parser.seek, h.profile, h.bytes, hScan]
  have hRecorded : (p.seek offset).errorRecorded = false := by
    rw [Parser.errorRecorded, (h.seek offset).error]
    cases hGiven : given with
    | none => rfl
    | some error =>
        simp only [hFresh error hGiven]
        rfl
  rw [scanOrFail, hBody]
  simp only [hRecorded]
  exact ⟨_, rfl, (h.seek offset).faulted .errSyntax opening [] place⟩

/-- Up to the key set, a string is read as the reader reads it. -/
theorem parseString_tracks (parent : Option Nat) (objectKey : Bool) (hFresh : Fresh given)
    (h : Tracks r given heap rows p place) (hParent : ∀ q, parent = some q → q < rows.length) :
    match r.readString place with
    | .error f next => ∃ e q, parseString parent objectKey p = .error e q ∧
        Faulted r given heap e f q next
    | .ok literal next => ∃ q, parseString parent objectKey p =
          (if objectKey then do
            insertKey rows.length place.offset
            return rows.length
          else return rows.length : ParserM Nat) q ∧
        Tracks r given heap (rows ++ [(parent, stringCell literal objectKey)]) q next ∧
        next.count = place.count + 1 ∧ next.count ≤ r.capacity ∧
        ∀ bound, Keyed r bound rows p → Keyed r bound rows q := by
  by_cases hQuote : r.atEnd place = true ∨ r.current place ≠ 0x22
  · have hRead : r.readString place = Reading.refuse .errSyntax place.offset place := by
      rw [Reading.readString, if_pos hQuote]
    rw [hRead]
    refine ⟨.errSyntax, p.fail .errSyntax place.offset, ?_, h.faulted _ _ _ _⟩
    rw [parseString_eq, h.atEnd, h.current, if_pos hQuote, h.offset]
  rw [Reading.readString, if_neg hQuote]
  rw [parseString_eq, h.atEnd, h.current, if_neg hQuote, h.offset]
  simp only
  cases hScan : scanStringFrom r.profile r.bytes (r.bytes.length + 1) (place.offset + 1) with
  | refused offset =>
      simp only
      obtain ⟨q, hBody, hFault⟩ := scanOrFail_refused place.offset h hScan
      exact ⟨_, q, bind_of_error hBody, hFault⟩
  | unterminated offset =>
      simp only
      obtain ⟨q, hBody, hFault⟩ := scanOrFail_unterminated place.offset hFresh h hScan
      exact ⟨_, q, bind_of_error hBody, hFault⟩
  | closed stop =>
      rw [bind_of_ok (scanOrFail_closed h hScan place.offset), finishString]
      have hSeek := h.seek (stop + 1)
      by_cases hRoom : place.count ≥ r.capacity
      · rw [bind_of_error (addToken_full hSeek hRoom)]
        simp only [if_pos hRoom]
        exact ⟨_, _, rfl, hSeek.faulted _ _ _ _⟩
      · obtain ⟨q, hAdd, hTracks, hKeyed⟩ := addToken_room .string (place.offset + 1) objectKey
          hSeek hRoom hParent
        rw [bind_of_ok hAdd, modify_bind, get_bind]
        have hStop := hTracks.update rows.length (fun token => { token with stop })
          (fun cell => { cell with span := ⟨cell.span.start, stop⟩ }) (fun _ => rfl)
          (fun _ => rfl) (fun _ _ => rfl) (fun _ => rfl) (fun _ => rfl)
        rw [modify_length_concat] at hStop
        have hContent : ((q.updateToken rows.length fun token =>
            { token with stop }).document.bytes.drop (place.offset + 1)).take
                (stop - (place.offset + 1)) = r.content (place.offset + 1) stop := by
          rw [hStop.bytes]
          rfl
        rw [hContent, show (q.updateToken rows.length fun token => { token with stop }).profile =
          r.profile from hStop.profile]
        simp only [if_neg hRoom]
        cases hDecode : decodeString (r.content (place.offset + 1) stop) r.profile with
        | error fault => exact ⟨_, _, rfl, hStop.faulted _ _ _ _⟩
        | ok text =>
            refine ⟨_, set_bind _ _ _, hStop.store rfl text, rfl, by simp only; omega,
              fun bound h' => ?_⟩
            have hMoved := (hKeyed bound (h'.seek (stop + 1))).update rows.length
              (fun token => { token with stop })
              (fun cell => { cell with span := ⟨cell.span.start, stop⟩ }) hTracks.shows
              (List.prefix_append _ _) (fun _ => rfl) (fun _ => rfl) (fun _ _ => rfl) (fun _ => rfl)
              (fun _ => rfl)
            exact hMoved.store hStop.shows rfl text

/-! ### Keys -/

/-- The key set after a new key, in a parser whose last row is that key's. -/
theorem Keyed.insert {bound : Nat} {row : Row Cell} {key : KeysetKey} {set : Keyset} {q : Parser}
    (h : Keyed r bound rows p) (hKey : rowKey row = some key)
    (hSet : set.Holds (tokenKey p.document) (Function.update (lastKey rows) key (some rows.length)))
    (hRoomy : p.keys.capacity = set.capacity) (hUsed : set.count ≤ p.keys.count + 1)
    (hKeys : q.keys = set) (hTokens : ∀ i, tokenKey q.document i = tokenKey p.document i)
    (hMarks : ∀ i, (q.document.token i).superseded = true ↔
      (p.document.token i).superseded = true ∨ lastKey rows key = some i)
    (hDuplicates : q.document.duplicateCount =
      p.document.duplicateCount + if key ∈ keysOf rows then 1 else 0) :
    Keyed r (bound + 2) (rows ++ [row]) q := by
  refine ⟨?_, ?_, ?_, fun i => ?_, ?_⟩
  · rw [hKeys, lastKey_concat_key hKey]
    exact hSet.congr fun _ i _ => hTokens i
  · rw [hKeys, ← hRoomy]
    exact h.roomy
  · have := h.used
    rw [hKeys]
    omega
  · rw [hMarks, h.marks, superseded_concat_key hKey]
  · rw [hDuplicates, h.duplicates, keysOf_concat_key hKey, repeats_concat]

theorem insertKey_duplicate {bound : Nat} (opening : Nat) {row : Row Cell}
    (h : Tracks r given heap (rows ++ [row]) p place) (hKeyed : Keyed r bound rows p)
    (hStrict : r.profile ≠ .rfc8259LastWins)
    (hMem : tokenKey p.document rows.length ∈ keysOf rows) :
    ∃ q, insertKey rows.length opening p = .error .errDuplicateKey q ∧
      Faulted r given heap .errDuplicateKey ⟨.errDuplicateKey, opening, []⟩ q place := by
  obtain ⟨old, hOld⟩ := Option.isSome_iff_exists.mp (lastKey_isSome.mpr hMem)
  have hInsert := keysetInsertWith_present false p.heap hKeyed.holds hOld
  simp only [Bool.false_eq_true, if_false] at hInsert
  refine ⟨p.fail .errDuplicateKey opening, ?_, h.faulted _ _ _ _⟩
  rw [insertKey, if_neg (by rw [h.profile]; exact hStrict), keysetInsert, hInsert]
  rfl

/-- The mark of a superseded key. -/
theorem Tracks.mark (h : Tracks r given heap rows p place) (index : Nat) :
    Tracks r given heap rows (p.updateToken index fun token => { token with superseded := true })
      place :=
  { profile := h.profile
    bytes := h.bytes
    depth := h.depth
    capacity := h.capacity
    error := h.error
    heap := h.heap
    offset := h.offset
    count := h.count
    shows := h.shows.mark _ _ (fun _ => rfl) (fun _ => rfl)
    children := h.children
    documentProfile := h.documentProfile
    arenaCapacity := h.arenaCapacity
    offsets := fun i => by
      have hToken := token_updateToken p.document index i fun token =>
        { token with superseded := true }
      refine (congrArg Token.childrenOffset hToken).trans ?_
      split_ifs
      · exact h.offsets i
      · exact h.offsets i }

theorem tokenKey_mark (document : Document) (index i : Nat) :
    tokenKey (document.updateToken index fun token => { token with superseded := true }) i =
      tokenKey document i := by
  have hToken := token_updateToken document index i fun token => { token with superseded := true }
  simp only [tokenKey, hToken]
  split_ifs <;> rfl

theorem superseded_mark (document : Document) {index : Nat}
    (hIndex : index < document.tokens.length) (i : Nat) :
    ((document.updateToken index fun token => { token with superseded := true }).token
      i).superseded = true ↔ (document.token i).superseded = true ∨ index = i := by
  rw [token_updateToken]
  split_ifs with h
  · simp [h.1]
  · have hNe : index ≠ i := fun hEq => h ⟨hEq, hEq ▸ hIndex⟩
    simp [hNe]

/-- A key enters the key set: the one before it, if the profile allows one, is marked. -/
theorem insertKey_follows (opening : Nat) {row : Row Cell}
    (h : Tracks r given heap (rows ++ [row]) p place) (hKeyed : Keyed r rows.length rows p)
    (hRow : rowKey row = some (tokenKey p.document rows.length)) (hRoom : place.count ≤ r.capacity)
    (hNew : r.profile ≠ .rfc8259LastWins → tokenKey p.document rows.length ∉ keysOf rows) :
    ∃ q, insertKey rows.length opening p = .ok () q ∧
      Follows r given heap 1 (rows ++ [row]) q place := by
  have hCount := h.count
  rw [List.length_append, List.length_singleton] at hCount
  have hFree : (p.keys.count + 1) * 2 ≤ p.keys.capacity := by
    have := hKeyed.used
    have := hKeyed.roomy
    omega
  have hBound : (rows ++ [row]).length + 1 = rows.length + 2 := by
    rw [List.length_append, List.length_singleton]
  by_cases hMem : tokenKey p.document rows.length ∈ keysOf rows
  · have hTolerant : r.profile = .rfc8259LastWins := not_not.mp fun hStrict => hNew hStrict hMem
    obtain ⟨old, hOld⟩ := Option.isSome_iff_exists.mp (lastKey_isSome.mpr hMem)
    obtain ⟨oldRow, hOldRow, -⟩ := lastKey_some hOld
    have hOldLt : old < p.document.tokens.length := by
      rw [h.shows.length, List.length_append]
      have := (List.getElem?_eq_some_iff.mp hOldRow).1
      omega
    have hInsert := keysetInsertWith_present true p.heap hKeyed.holds hOld
    simp only [if_true] at hInsert
    rw [insertKey, if_pos (by rw [h.profile]; exact hTolerant), keysetInsertLast, hInsert]
    have hMark := h.mark old
    refine ⟨_, rfl, ⟨hMark.profile, hMark.bytes, hMark.depth, hMark.capacity, hMark.error,
      hMark.heap, hMark.offset, hMark.count,
      ⟨hMark.shows.tokens, hMark.shows.linked, hMark.shows.arena⟩,
      hMark.children, hMark.documentProfile, hMark.arenaCapacity, hMark.offsets⟩, ?_⟩
    rw [hBound]
    refine hKeyed.insert hRow (hKeyed.holds.replace hOld) rfl (Nat.le_succ _) rfl
      (tokenKey_mark p.document old) (fun i => ?_) (by rw [if_pos hMem]; rfl)
    rw [hOld, Option.some.injEq]
    exact superseded_mark p.document hOldLt i
  · have hNone := lastKey_eq_none.mpr hMem
    have hInsert (replace : Bool) :=
      keysetInsertWith_absent replace p.heap hKeyed.holds hNone hFree
    have hRun : insertKey rows.length opening p = .ok ()
        { p with keys :=
          { p.keys with
            slots := p.keys.slots.set
              (findSlot (tokenKey p.document) p.keys.slots p.keys.capacity
                (tokenKey p.document rows.length)).1 (some rows.length)
            count := p.keys.count + 1 } } := by
      rw [insertKey, keysetInsertLast, keysetInsert, hInsert, hInsert]
      split_ifs <;> rfl
    refine ⟨_, hRun, ⟨h.profile, h.bytes, h.depth, h.capacity, h.error, h.heap, h.offset, h.count,
      h.shows, h.children, h.documentProfile, h.arenaCapacity, h.offsets⟩, ?_⟩
    rw [hBound]
    refine hKeyed.insert hRow (hKeyed.holds.store hNone hFree) rfl le_rfl rfl (fun _ => rfl)
      (fun i => ?_) (by rw [if_neg hMem]; rfl)
    rw [hNone]
    simp

end MaelysJson
