import MaelysJson.Code.Parser
import MaelysJson.General.Rose
import MaelysJson.Reading.Source
import MaelysJson.Table.Links

/-! Token tables as trees laid out in preorder: what each token shows of its
value, where its text stands in the arena, and the tree a whole table shows. -/
namespace MaelysJson

open Forest

/-- What a token shows, its place in the table left out. -/
structure Cell where
  type : ValueType
  span : Span
  text : Option Bytes
  objectKey : Bool
  booleanValue : Bool
  deriving DecidableEq

namespace Source

/-- The token of a key. -/
def keyCell (key : Literal) : Cell := ⟨.string, key.span, some key.text, true, false⟩

/-- The children of an object token: keys and values in turn. -/
def memberRoses {β : Type} (leaf : Literal → β) (members : List (Literal × β)) : List β :=
  members.flatMap fun m => [leaf m.1, m.2]

/-- The tree of the tokens of a value. -/
def rose : Source → Rose Cell :=
  fold
    { object := fun span members =>
        .node ⟨.object, span, none, false, false⟩
          (memberRoses (fun key => .node (keyCell key) []) members)
      array := fun span elements => .node ⟨.array, span, none, false, false⟩ elements
      string := fun literal => .node ⟨.string, literal.span, some literal.text, false, false⟩ []
      number := fun span lexeme => .node ⟨.number, span, some lexeme, false, false⟩ []
      boolean := fun span value => .node ⟨.boolean, span, none, false, value⟩ []
      null := fun span => .node ⟨.null, span, none, false, false⟩ [] }

theorem memberRoses_map {β γ : Type} (f : β → γ) (leaf : Literal → γ)
    (members : List (Literal × β)) :
    memberRoses leaf (members.map fun m => (m.1, f m.2)) = members.flatMap fun m =>
      [leaf m.1, f m.2] := by
  rw [memberRoses, List.flatMap_map]

theorem rose_object (span : Span) (members : List (Literal × Source)) :
    (object span members).rose = .node ⟨.object, span, none, false, false⟩
      (members.flatMap fun m => [.node (keyCell m.1) [], m.2.rose]) := by
  simp only [rose, fold_object, memberRoses_map]

theorem rose_array (span : Span) (elements : List Source) :
    (array span elements).rose = .node ⟨.array, span, none, false, false⟩ (elements.map rose) := by
  simp only [rose, fold_array]

/-- The rows of a value's tokens. -/
def rows (s : Source) (base : Nat) (parent : Option Nat) : List (Row Cell) :=
  s.rose.rows base parent

def memberRows (members : List (Literal × Source)) (start object : Nat) : List (Row Cell) :=
  Rose.rowsAll (members.flatMap fun m => [.node (keyCell m.1) [], m.2.rose]) start (some object)

def elementRows (elements : List Source) (start array : Nat) : List (Row Cell) :=
  Rose.rowsAll (elements.map rose) start (some array)

theorem rows_object (span : Span) (members : List (Literal × Source)) (base : Nat)
    (parent : Option Nat) :
    (object span members).rows base parent =
      (parent, ⟨.object, span, none, false, false⟩) :: memberRows members (base + 1) base := by
  rw [rows, rose_object, Rose.rows]
  rfl

theorem rows_array (span : Span) (elements : List Source) (base : Nat) (parent : Option Nat) :
    (array span elements).rows base parent =
      (parent, ⟨.array, span, none, false, false⟩) :: elementRows elements (base + 1) base := by
  rw [rows, rose_array, Rose.rows]
  rfl

theorem memberRows_nil (start object : Nat) : memberRows [] start object = [] := rfl

theorem elementRows_nil (start array : Nat) : elementRows [] start array = [] := rfl

theorem memberRows_cons (key : Literal) (value : Source) (members : List (Literal × Source))
    (start object : Nat) :
    memberRows ((key, value) :: members) start object =
      (some object, keyCell key) :: (value.rows (start + 1) (some object) ++
        memberRows members (start + 1 + value.rose.size) object) := rfl

theorem elementRows_cons (value : Source) (elements : List Source) (start array : Nat) :
    elementRows (value :: elements) start array =
      value.rows start (some array) ++ elementRows elements (start + value.rose.size) array := rfl

theorem append_memberRows_cons (rows : List (Row Cell)) (key : Literal) (value : Source)
    (members : List (Literal × Source)) (object : Nat) :
    rows ++ memberRows ((key, value) :: members) rows.length object =
      rows ++ [(some object, keyCell key)] ++ value.rows (rows.length + 1) (some object) ++
        memberRows members (rows ++ [(some object, keyCell key)] ++
          value.rows (rows.length + 1) (some object)).length object := by
  have hLength : (value.rows (rows.length + 1) (some object)).length = value.rose.size :=
    Rose.length_rows _ _ _
  rw [memberRows_cons, List.length_append, List.length_append, List.length_singleton, hLength,
    List.append_assoc, List.append_assoc, List.singleton_append]

theorem append_elementRows_cons (rows : List (Row Cell)) (value : Source) (elements : List Source)
    (array : Nat) :
    rows ++ elementRows (value :: elements) rows.length array =
      rows ++ value.rows rows.length (some array) ++
        elementRows elements (rows ++ value.rows rows.length (some array)).length array := by
  have hLength : (value.rows rows.length (some array)).length = value.rose.size :=
    Rose.length_rows _ _ _
  rw [elementRows_cons, List.length_append, hLength, List.append_assoc]

theorem length_rows (s : Source) (base : Nat) (parent : Option Nat) :
    (s.rows base parent).length = s.rose.size := Rose.length_rows _ _ _

/-- The first row of a value is not a key. -/
theorem rose_root (s : Source) :
    ∃ cell children, s.rose = .node cell children ∧ cell.objectKey = false := by
  cases s with
  | object span members => exact ⟨_, _, rose_object span members, rfl⟩
  | array span elements => exact ⟨_, _, rose_array span elements, rfl⟩
  | _ => exact ⟨_, _, rfl, rfl⟩

end Source

/-! ### Tables -/

/-- The text of a row as the arena holds it. -/
def cellText (cell : Cell) : Bytes :=
  match cell.text with
  | none => []
  | some text => text ++ [0]

def arenaOf (rows : List (Row Cell)) : Bytes := rows.flatMap fun row => cellText row.2

/-- The token of a row when `used` bytes of the arena are taken. -/
def rowToken (used : Nat) (row : Row Cell) : Token :=
  { links := .init row.1
    type := row.2.type
    start := row.2.span.start
    stop := row.2.span.stop
    text := row.2.text.map fun _ => used
    textSize := (row.2.text.getD []).length
    childrenOffset := 0
    objectKey := row.2.objectKey
    booleanValue := row.2.booleanValue
    superseded := false }

def rowTokens : Nat → List (Row Cell) → List Token
  | _, [] => []
  | used, row :: rows => rowToken used row :: rowTokens (used + (cellText row.2).length) rows

/-- A token without its children's links and the marks of later passes. -/
def Token.core (token : Token) : Token :=
  { token with links := .init token.links.parent, childrenOffset := 0, superseded := false }

/-- The table and the arena are those of the rows. -/
structure Document.Shows (document : Document) (rows : List (Row Cell)) : Prop where
  tokens : document.tokens.map Token.core = rowTokens 0 rows
  linked : LinkedBy Token.links document.tokens
  arena : document.arena = arenaOf rows

theorem arenaOf_append (left right : List (Row Cell)) :
    arenaOf (left ++ right) = arenaOf left ++ arenaOf right := List.flatMap_append

theorem arenaOf_cons (row : Row Cell) (rows : List (Row Cell)) :
    arenaOf (row :: rows) = cellText row.2 ++ arenaOf rows := rfl

@[simp] theorem arenaOf_singleton (row : Row Cell) : arenaOf [row] = cellText row.2 := by
  simp [arenaOf]

theorem rowTokens_append (used : Nat) (left right : List (Row Cell)) :
    rowTokens used (left ++ right) = rowTokens used left ++ rowTokens (used + (arenaOf left).length)
      right := by
  induction left generalizing used with
  | nil => rfl
  | cons row left ih =>
      rw [List.cons_append, rowTokens, rowTokens, ih, arenaOf_cons, List.length_append,
        ← Nat.add_assoc]
      rfl

@[simp] theorem length_rowTokens (used : Nat) (rows : List (Row Cell)) :
    (rowTokens used rows).length = rows.length := by
  induction rows generalizing used with
  | nil => rfl
  | cons row rows ih => rw [rowTokens, List.length_cons, List.length_cons, ih]

theorem rowTokens_getElem? (used : Nat) (rows : List (Row Cell)) (i : Nat) :
    (rowTokens used rows)[i]? =
      (rows[i]?).map (rowToken (used + (arenaOf (rows.take i)).length)) := by
  induction rows generalizing used i with
  | nil => rfl
  | cons row rows ih =>
      cases i with
      | zero => rfl
      | succ i =>
          rw [rowTokens, List.getElem?_cons_succ, List.getElem?_cons_succ, ih, List.take_succ_cons,
            arenaOf_cons, List.length_append, Nat.add_assoc]

theorem token_updateToken (document : Document) (index i : Nat) (update : Token → Token) :
    (document.updateToken index update).token i =
      if index = i ∧ i < document.tokens.length then update (document.token i)
        else document.token i := by
  rw [Document.token, Document.token, Document.updateToken, List.getD_eq_getElem?_getD,
    List.getD_eq_getElem?_getD, List.getElem?_modify]
  by_cases hi : index = i
  · by_cases hLt : i < document.tokens.length
    · simp [hi, hLt]
    · simp [hi, hLt]
  · simp [hi]

variable {document : Document} {rows : List (Row Cell)}

namespace Document.Shows

theorem length (h : document.Shows rows) : document.tokens.length = rows.length := by
  have := congrArg List.length h.tokens
  rwa [List.length_map, length_rowTokens] at this

/-- The core of every token is that of its row. -/
theorem core (h : document.Shows rows) {i : Nat} {row : Row Cell} (hRow : rows[i]? = some row) :
    (document.token i).core = rowToken (arenaOf (rows.take i)).length row := by
  have hGet := congrArg (fun l => l[i]?) h.tokens
  simp only [List.getElem?_map, rowTokens_getElem?, hRow, Option.map_some, Nat.zero_add] at hGet
  obtain ⟨token, hToken, hCore⟩ := Option.map_eq_some_iff.mp hGet
  rw [Document.token, List.getD_eq_getElem?_getD, hToken]
  exact hCore

theorem parent (h : document.Shows rows) {i : Nat} {row : Row Cell} (hRow : rows[i]? = some row) :
    (document.token i).links.parent = row.1 := congrArg (fun t => t.links.parent) (h.core hRow)

theorem type (h : document.Shows rows) {i : Nat} {row : Row Cell} (hRow : rows[i]? = some row) :
    (document.token i).type = row.2.type := congrArg (fun t => t.type) (h.core hRow)

theorem text (h : document.Shows rows) {i : Nat} {row : Row Cell} (hRow : rows[i]? = some row) :
    (document.token i).text = row.2.text.map fun _ => (arenaOf (rows.take i)).length :=
  congrArg (fun t => t.text) (h.core hRow)

theorem textSize (h : document.Shows rows) {i : Nat} {row : Row Cell} (hRow : rows[i]? = some row) :
    (document.token i).textSize = (row.2.text.getD []).length :=
  congrArg (fun t => t.textSize) (h.core hRow)

theorem objectKey (h : document.Shows rows) {i : Nat} {row : Row Cell}
    (hRow : rows[i]? = some row) :
    (document.token i).objectKey = row.2.objectKey := congrArg (fun t => t.objectKey) (h.core hRow)

theorem booleanValue (h : document.Shows rows) {i : Nat} {row : Row Cell}
    (hRow : rows[i]? = some row) :
    (document.token i).booleanValue = row.2.booleanValue :=
  congrArg (fun t => t.booleanValue) (h.core hRow)

/-- The arena from the text of a row on. -/
theorem drop_arena (h : document.Shows rows) {i : Nat} {row : Row Cell}
    (hRow : rows[i]? = some row) :
    document.arena.drop (arenaOf (rows.take i)).length =
      cellText row.2 ++ arenaOf (rows.drop (i + 1)) := by
  obtain ⟨hLt, rfl⟩ := List.getElem?_eq_some_iff.mp hRow
  have hSplit : rows = rows.take i ++ (rows[i] :: rows.drop (i + 1)) := by
    rw [← List.drop_eq_getElem_cons hLt, List.take_append_drop]
  have hArena : document.arena =
      arenaOf (rows.take i) ++ (cellText rows[i].2 ++ arenaOf (rows.drop (i + 1))) := by
    rw [h.arena]
    conv_lhs => rw [hSplit]
    rw [arenaOf_append, arenaOf_cons]
  rw [hArena, List.drop_left]

/-- A token's text is that of its row. -/
theorem textOf (h : document.Shows rows) {i : Nat} {row : Row Cell} (hRow : rows[i]? = some row) :
    document.textOf (document.token i) = row.2.text.getD [] := by
  rw [Document.textOf, h.text hRow, h.textSize hRow]
  cases hText : row.2.text with
  | none => simp
  | some text =>
      rw [Option.map_some, Option.getD_some, Option.getD_some, h.drop_arena hRow, cellText, hText,
        List.append_assoc, List.take_left]

theorem parents (h : document.Shows rows) :
    parentsOf Token.links document.tokens = rows.map Prod.fst := by
  have hCore : parentsOf Token.links document.tokens =
      parentsOf Token.links (document.tokens.map Token.core) := by
    rw [parentsOf, parentsOf, List.map_map]
    rfl
  have hRows (used : Nat) (rows : List (Row Cell)) :
      parentsOf Token.links (rowTokens used rows) = rows.map Prod.fst := by
    induction rows generalizing used with
    | nil => rfl
    | cons row rows ih => exact congrArg (row.1 :: ·) (ih (used + (cellText row.2).length))
  rw [hCore, h.tokens, hRows]

/-- Parents come before their children. -/
theorem below (h : document.Shows rows) {i p : Nat} {cell : Cell}
    (hRow : rows[i]? = some (some p, cell)) :
    p < i := by
  refine h.linked.below i p ?_
  rw [h.parents, List.getElem?_map, hRow]
  rfl

theorem tokenKey (h : document.Shows rows) {i : Nat} {row : Row Cell} (hRow : rows[i]? = some row) :
    tokenKey document i = ⟨row.1, row.2.text.getD []⟩ := by
  simp only [MaelysJson.tokenKey, h.parent hRow, h.textOf hRow]

/-! ### Walking a table -/

theorem token_getElem? (h : document.Shows rows) {i : Nat} (hi : i < rows.length) :
    document.tokens[i]? = some (document.token i) := by
  rw [Document.token, List.getD_eq_getElem?_getD,
    List.getElem?_eq_getElem (by rw [h.length]; exact hi)]
  rfl

theorem length_parents (h : document.Shows rows) :
    (parentsOf Token.links document.tokens).length = rows.length := by
  rw [h.parents, List.length_map]

theorem firstChild (h : document.Shows rows) {i : Nat} (hi : i < rows.length) :
    (document.token i).links.firstChild = (Forest.children (rows.map Prod.fst) i).head? := by
  have hFirst := h.linked.first i (by rwa [h.length_parents])
  rwa [h.parents, h.token_getElem? hi] at hFirst

theorem childCount (h : document.Shows rows) {i : Nat} (hi : i < rows.length) :
    (document.token i).links.childCount = (Forest.children (rows.map Prod.fst) i).length := by
  have hCount := h.linked.count i (by rwa [h.length_parents])
  rwa [h.parents, h.token_getElem? hi] at hCount

theorem child_below (h : document.Shows rows) {i j : Nat}
    (hj : j ∈ Forest.children (rows.map Prod.fst) i) : i < j ∧ j < rows.length := by
  have hLt := children_lt i hj
  rw [List.length_map] at hLt
  refine ⟨h.linked.below j i ?_, hLt⟩
  rw [h.parents]
  exact (mem_children i).mp hj

theorem nextSibling (h : document.Shows rows) {i : Nat} (left : List Nat) (j : Nat)
    (right : List Nat) (hSplit : Forest.children (rows.map Prod.fst) i = left ++ j :: right) :
    (document.token j).links.nextSibling = right.head? := by
  have hj : j < rows.length := by
    have := children_lt i (show j ∈ Forest.children (rows.map Prod.fst) i by rw [hSplit]; simp)
    rwa [List.length_map] at this
  have hNext := h.linked.next_eq (i := i) (j := j) (by rw [h.parents]; exact hSplit)
  rwa [h.token_getElem? hj] at hNext

theorem siblings_walk (tokens : List Token) (rounds : Nat) (start : Option Nat) :
    siblings tokens rounds start =
      walk (fun i => (tokens[i]?).bind fun token => token.links.nextSibling) rounds start := by
  induction rounds generalizing start with
  | zero => rfl
  | succ rounds ih =>
      cases start with
      | none => rfl
      | some i =>
          rw [siblings, walk, ih, List.getD_eq_getElem?_getD]
          cases tokens[i]? <;> rfl

theorem siblings_eq (h : document.Shows rows) {i : Nat} (hi : i < rows.length) :
    siblings document.tokens document.tokens.length (document.token i).links.firstChild =
      Forest.children (rows.map Prod.fst) i := by
  have hLength : i < (parentsOf Token.links document.tokens).length := by rwa [h.length_parents]
  have hWalk := h.linked.walk_eq hLength (length_parentsOf document.tokens).le
  rw [h.token_getElem? hi, h.parents] at hWalk
  rw [siblings_walk]
  exact hWalk

/-! ### Growing a table -/

theorem core_linksAppend (tokens : List Token) (container index : Nat) :
    (linksAppend Token.links Token.updateLinks tokens container index).map Token.core =
      tokens.map Token.core := by
  refine List.ext_getElem? fun i => ?_
  rw [List.getElem?_map, List.getElem?_map, linksAppend_getElem?, Option.map_map]
  congr 1
  funext token
  simp only [Function.comp_apply]
  split_ifs <;> rfl

/-- A new last token, which its container takes, and its text at the end of the arena. -/
theorem concat (h : document.Shows rows) {token : Token} (parent : Option Nat) (cell : Cell)
    (hLinks : token.links = .init parent)
    (hCore : token.core = rowToken (arenaOf rows).length (parent, cell))
    (hParent : ∀ p, parent = some p → p < rows.length) :
    Document.Shows
      { document with
        tokens := match parent with
          | none => document.tokens ++ [token]
          | some container =>
              linksAppend Token.links Token.updateLinks (document.tokens ++ [token]) container
                document.tokens.length
        arena := document.arena ++ cellText cell }
      (rows ++ [(parent, cell)]) := by
  have hTokens : (document.tokens ++ [token]).map Token.core =
      rowTokens 0 (rows ++ [(parent, cell)]) := by
    rw [rowTokens_append, List.map_append, h.tokens, List.map_singleton, hCore, Nat.zero_add]
    rfl
  have hArena : document.arena ++ cellText cell = arenaOf (rows ++ [(parent, cell)]) := by
    rw [arenaOf_append, arenaOf_singleton, h.arena]
  cases parent with
  | none => exact ⟨hTokens, h.linked.concat_root hLinks, hArena⟩
  | some container =>
      refine ⟨?_, ?_, hArena⟩
      · simp only [core_linksAppend]
        exact hTokens
      · exact h.linked.append (fun _ _ => rfl) (by rw [h.length]; exact hParent _ rfl) hLinks

/-- A new token before anything else is known of it. -/
theorem addToken (h : document.Shows rows) (type : ValueType) (start : Nat) {parent : Option Nat}
    (objectKey : Bool) (hParent : ∀ p, parent = some p → p < rows.length) :
    (document.addToken type start parent objectKey).Shows
      (rows ++ [(parent, ⟨type, ⟨start, start⟩, none, objectKey, false⟩)]) := by
  have hConcat := h.concat parent ⟨type, ⟨start, start⟩, none, objectKey, false⟩
    (show ({ Token.blank with type, start, stop := start, objectKey, links := .init parent } :
      Token).links = .init parent from rfl) rfl hParent
  have hArena : document.arena =
      arenaOf (rows ++ [(parent, ⟨type, ⟨start, start⟩, none, objectKey, false⟩)]) := by
    rw [← hConcat.arena]
    exact (List.append_nil _).symm
  cases parent <;> exact ⟨hConcat.tokens, hConcat.linked, hArena⟩

theorem map_core_modify (tokens : List Token) (index : Nat) (update : Token → Token)
    (hCore : ∀ token, (update token).core = update token.core) :
    (tokens.modify index update).map Token.core = (tokens.map Token.core).modify index update := by
  refine List.ext_getElem? fun i => ?_
  simp only [List.getElem?_map, List.getElem?_modify]
  by_cases hi : index = i
  · simp only [hi, if_true, Option.map_eq_map, Option.map_map, Function.comp_def, hCore]
  · simp only [hi, if_false, id_map']

theorem arenaOf_modify {rows : List (Row Cell)} {index : Nat} {change : Cell → Cell}
    (hText : ∀ cell, (change cell).text = cell.text) :
    arenaOf (rows.modify index fun row => (row.1, change row.2)) = arenaOf rows := by
  have hCell (cell : Cell) : cellText (change cell) = cellText cell := by
    rw [cellText, hText, cellText]
  induction rows generalizing index with
  | nil => simp
  | cons row rows ih =>
      cases index with
      | zero => rw [List.modify_zero_cons, arenaOf_cons, arenaOf_cons, hCell]
      | succ index => rw [List.modify_succ_cons, arenaOf_cons, arenaOf_cons, ih]

/-- A token learns more of its value: its row changes, its text does not. -/
theorem update (h : document.Shows rows) {index : Nat} {update : Token → Token}
    {change : Cell → Cell} (hLinks : ∀ token, (update token).links = token.links)
    (hCore : ∀ token, (update token).core = update token.core)
    (hRow : ∀ used row, rowToken used (row.1, change row.2) = update (rowToken used row))
    (hText : ∀ cell, (change cell).text = cell.text) :
    (document.updateToken index update).Shows
      (rows.modify index fun row => (row.1, change row.2)) := by
  refine ⟨?_, h.linked.modify hLinks, ?_⟩
  · rw [Document.updateToken, map_core_modify _ _ _ hCore, h.tokens]
    refine List.ext_getElem? fun i => ?_
    have hTake : arenaOf ((rows.modify index fun row => (row.1, change row.2)).take i) =
        arenaOf (rows.take i) := by
      rw [List.take_modify, arenaOf_modify hText]
    simp only [rowTokens_getElem?, hTake, List.getElem?_modify]
    by_cases hi : index = i
    · simp only [hi, if_true, Option.map_eq_map, Option.map_map, Function.comp_def, hRow]
    · simp only [hi, if_false, id_map']
  · rw [arenaOf_modify hText]
    exact h.arena

/-- A token that no pass has touched looks like one that a pass has marked. -/
theorem mark (h : document.Shows rows) (index : Nat) (update : Token → Token)
    (hLinks : ∀ token, (update token).links = token.links)
    (hCore : ∀ token, (update token).core = token.core) :
    (document.updateToken index update).Shows rows := by
  refine ⟨List.ext_getElem? fun i => ?_, h.linked.modify hLinks, h.arena⟩
  rw [← h.tokens, Document.updateToken, List.getElem?_map, List.getElem?_map, List.getElem?_modify]
  by_cases hi : index = i
  · simp only [hi, if_true, Option.map_eq_map, Option.map_map, Function.comp_def, hCore]
  · simp only [hi, if_false, id_map']

/-- The last token gets its text, and the arena that text and its NUL. -/
theorem store {row : Row Cell} (h : document.Shows (rows ++ [row])) (hRow : row.2.text = none)
    (text : Bytes) :
    Document.Shows
      { document.updateToken rows.length fun token =>
          { token with text := some document.arena.length, textSize := text.length } with
        arena := document.arena ++ text ++ [0] }
      (rows ++ [(row.1, { row.2 with text := some text })]) := by
  have hNone : cellText row.2 = [] := by rw [cellText, hRow]
  have hArena : document.arena = arenaOf rows := by
    rw [h.arena, arenaOf_append, arenaOf_singleton, hNone, List.append_nil]
  refine ⟨?_, h.linked.modify fun _ => rfl, ?_⟩
  · have hModify := map_core_modify document.tokens rows.length
      (fun token => { token with text := some document.arena.length, textSize := text.length })
      fun _ => rfl
    have hLength : (rowTokens 0 rows).length = rows.length := length_rowTokens 0 rows
    rw [Document.updateToken, hModify, h.tokens, rowTokens_append, rowTokens_append, ← hLength,
      rowTokens, rowTokens, rowTokens, rowTokens, modify_length_concat, Nat.zero_add, hArena]
    rfl
  · rw [arenaOf_append, arenaOf_singleton, ← hArena, List.append_assoc]
    rfl

end Document.Shows

end MaelysJson
