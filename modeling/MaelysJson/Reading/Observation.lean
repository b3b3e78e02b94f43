import MaelysJson.Code.Writer
import MaelysJson.Reading.Representation

/-! The values of a document are its tree. Two documents that show one tree, however their texts are
spelled and whatever was discarded on the way, give the same answers about their values, at the same
handles, and are copied alike. What is asked about the text itself is another matter: whether it is
canonical, and how many members it repeats. -/
namespace MaelysJson

open Forest

/-! ### The tokens of a tree -/

/-- The value with every part at the start of the text. -/
def Tree.source : Json → Source :=
  fold
    { object := fun members => .object ⟨0, 0⟩ (members.map fun m => (⟨⟨0, 0⟩, m.1⟩, m.2))
      array := .array ⟨0, 0⟩
      string := fun text => .string ⟨⟨0, 0⟩, text⟩
      number := .number ⟨0, 0⟩
      boolean := .boolean ⟨0, 0⟩
      null := .null ⟨0, 0⟩ }

theorem Tree.source_object (members : List (Bytes × Json)) :
    (object members).source =
      .object ⟨0, 0⟩ (members.map fun m => (⟨⟨0, 0⟩, m.1⟩, m.2.source)) := by
  simp only [source, fold_object, List.map_map]
  rfl

theorem Tree.source_array (elements : List Json) :
    (array elements).source = .array ⟨0, 0⟩ (elements.map source) := by
  simp only [source, fold_array]

def Cell.unplaced (cell : Cell) : Cell := { cell with span := ⟨0, 0⟩ }

/-- Apart from their places, the tokens of a value are those of its tree. -/
theorem Source.rose_unplaced (s : Source) : s.rose.map Cell.unplaced = s.json.source.rose := by
  induction s with
  | object span members ih =>
      rw [rose_object, json_object, Tree.source_object, rose_object, Rose.map_node,
        List.map_flatMap, List.map_map, List.flatMap_map]
      refine congrArg (Rose.node _) (List.flatMap_congr fun m hm => ?_)
      simp only [Function.comp_apply, List.map_cons, List.map_nil, ih m hm, Rose.map_node]
      rfl
  | array span elements ih =>
      rw [rose_array, json_array, Tree.source_array, rose_array, Rose.map_node, List.map_map,
        List.map_map, List.map_map]
      exact congrArg (Rose.node _) (List.map_congr_left fun v hv => ih v hv)
  | _ => simp [rose, fold, Cell.unplaced, Tree.source, Tree.fold]

/-- The rows of values with one tree differ in their places only. -/
theorem Source.rows_congr {s s' : Source} (h : s.json = s'.json) :
    (s.rows 0 none).map (fun row => (row.1, row.2.unplaced)) = (s'.rows 0 none).map fun row =>
      (row.1, row.2.unplaced) := by
  rw [rows, rows, ← Rose.rows_map, ← Rose.rows_map, rose_unplaced, rose_unplaced, h]

/-! ### What accessors look at -/

/-- Two documents are alike to the accessors: in all that these read of a token, and in the
children of the containers. -/
structure Document.Alike (document document' : Document) : Prop where
  length : document.tokens.length = document'.tokens.length
  type : ∀ i, (document.token i).type = (document'.token i).type
  text : ∀ i, document.textOf (document.token i) = document'.textOf (document'.token i)
  textSize : ∀ i, (document.token i).textSize = (document'.token i).textSize
  booleanValue : ∀ i, (document.token i).booleanValue = (document'.token i).booleanValue
  childCount : ∀ i, (document.token i).links.childCount = (document'.token i).links.childCount
  child : ∀ i k, k < (document.token i).links.childCount →
    childAt document (document.token i) k = childAt document' (document'.token i) k

variable {document document' : Document}

/-- A token past the end is blank. -/
theorem token_past {i : Nat} (h : document.tokens.length ≤ i) : document.token i = .blank := by
  rw [Document.token, List.getD_eq_getElem?_getD, List.getElem?_eq_none h, Option.getD_none]

/-- Documents published for one tree are alike. -/
theorem Document.Published.alike {s s' : Source} (h : document.Published (s.rows 0 none))
    (h' : document'.Published (s'.rows 0 none)) (hSame : s.json = s'.json) :
    document.Alike document' := by
  have hRows := Source.rows_congr hSame
  generalize hTable : s.rows 0 none = rows at h hRows
  generalize hTable' : s'.rows 0 none = rows' at h' hRows
  have hCount : rows.length = rows'.length := by simpa using congrArg List.length hRows
  have hLength : document.tokens.length = document'.tokens.length := by
    rw [h.shows.length, h'.shows.length, hCount]
  have hParents : rows.map Prod.fst = rows'.map Prod.fst := by
    simpa only [List.map_map, Function.comp_def] using congrArg (List.map Prod.fst) hRows
  -- what two tokens show that is one function of their cells
  have hCells {i : Nat} {α : Type} {shown shown' : α} {f : Cell → α}
      (hRow : ∀ row, rows[i]? = some row → shown = f row.2.unplaced)
      (hRow' : ∀ row, rows'[i]? = some row → shown' = f row.2.unplaced)
      (hPast : document.token i = .blank → document'.token i = .blank → shown = shown') :
        shown = shown' := by
    by_cases hi : i < rows.length
    · have hi' : i < rows'.length := hCount ▸ hi
      have hAt := congrArg (fun table => table[i]?) hRows
      simp only [List.getElem?_map, List.getElem?_eq_getElem hi, List.getElem?_eq_getElem hi',
        Option.map_some, Option.some.injEq, Prod.mk.injEq] at hAt
      rw [hRow _ (List.getElem?_eq_getElem hi), hRow' _ (List.getElem?_eq_getElem hi'), hAt.2]
    · exact hPast (token_past (by rw [h.shows.length]; exact not_lt.mp hi))
        (token_past (by rw [h'.shows.length, ← hCount]; exact not_lt.mp hi))
  have hKids (i : Nat) :
      (document.token i).links.childCount = (document'.token i).links.childCount := by
    by_cases hi : i < rows.length
    · rw [h.shows.childCount hi, h'.shows.childCount (hCount ▸ hi), hParents]
    · rw [token_past (by rw [h.shows.length]; exact not_lt.mp hi),
        token_past (by rw [h'.shows.length, ← hCount]; exact not_lt.mp hi)]
  refine ⟨hLength, fun i => ?_, fun i => ?_, fun i => ?_, fun i => ?_, hKids, fun i k hk => ?_⟩
  · exact @hCells i _ _ _ Cell.type (fun row hRow => h.shows.type hRow)
      (fun row hRow => h'.shows.type hRow) fun hBlank hBlank' => by rw [hBlank, hBlank']
  · exact @hCells i _ _ _ (fun cell => cell.text.getD []) (fun row hRow => h.shows.textOf hRow)
      (fun row hRow => h'.shows.textOf hRow) fun hBlank hBlank' => by rw [hBlank, hBlank']; rfl
  · exact @hCells i _ _ _ (fun cell => (cell.text.getD []).length)
      (fun row hRow => h.shows.textSize hRow) (fun row hRow => h'.shows.textSize hRow)
      fun hBlank hBlank' => by rw [hBlank, hBlank']
  · exact @hCells i _ _ _ Cell.booleanValue (fun row hRow => h.shows.booleanValue hRow)
      (fun row hRow => h'.shows.booleanValue hRow) fun hBlank hBlank' => by rw [hBlank, hBlank']
  · -- only containers have children
    have hk' := hk
    rw [hKids] at hk'
    have hi : i < rows.length := by
      by_contra hNot
      rw [token_past (by rw [h.shows.length]; exact not_lt.mp hNot)] at hk
      exact absurd hk (Nat.not_lt_zero k)
    rw [h.shows.childCount hi] at hk
    rw [h'.shows.childCount (hCount ▸ hi)] at hk'
    subst hTable hTable'
    rw [h.childAt_eq hi (h.container_of_child (List.getElem_mem hk)) hk,
      h'.childAt_eq (hCount ▸ hi) (h'.container_of_child (List.getElem_mem hk')) hk', hParents]

namespace Document.Alike

variable (h : document.Alike document')

include h

/-! ### Accessors -/

/-- A reading of a token goes alike. -/
theorem reads {α : Type} {value : Nat} {expected : ValueType} {read read' : Token → Except Result α}
    (hSame : value < document.tokens.length → (document.token value).type = expected →
      read (document.token value) = read' (document'.token value)) :
    (tokenOf document value expected >>= read) = tokenOf document' value expected >>= read' := by
  rw [tokenOf, tokenOf, ← h.length, ← h.type]
  split_ifs with hPast hType
  · rfl
  · rfl
  · exact hSame (not_le.mp hPast) (not_not.mp hType)

theorem root_eq : documentRoot document = documentRoot document' := by
  rw [documentRoot, documentRoot, h.length]

theorem valueType_eq (value : Nat) : valueType document value = valueType document' value := by
  rw [valueType, valueType, h.length, h.type]

theorem objectSize_eq (object : Nat) : objectSize document object = objectSize document' object :=
  h.reads fun _ _ => by rw [h.childCount]

theorem objectMemberAt_eq (object index : Nat) :
    objectMemberAt document object index = objectMemberAt document' object index := by
  refine h.reads fun _ _ => ?_
  by_cases hIndex : index ≥ (document.token object).links.childCount / 2
  · rw [if_pos hIndex, if_pos (by rwa [← h.childCount])]
    rfl
  · rw [if_neg hIndex, if_neg (by rwa [← h.childCount])]
    dsimp only
    rw [h.child object (2 * index) (by omega), h.child object (2 * index + 1) (by omega), h.text]

theorem objectGetFrom_eq (object : Nat) (key : Bytes) (rounds i : Nat)
    (hRounds : 2 * (i + rounds) ≤ (document.token object).links.childCount) :
    objectGetFrom document (document.token object) key rounds i =
      objectGetFrom document' (document'.token object) key rounds i := by
  induction rounds generalizing i with
  | zero => rfl
  | succ rounds ih =>
      rw [objectGetFrom, objectGetFrom, h.child object (2 * i) (by omega),
        h.child object (2 * i + 1) (by omega), h.text, h.textSize, ih (i + 1) (by omega)]

theorem objectGetSized_eq (object : Nat) (key : Bytes) :
    objectGetSized document object key = objectGetSized document' object key := by
  refine h.reads fun _ _ => ?_
  rw [← h.childCount]
  exact h.objectGetFrom_eq object key _ 0 (by omega)

theorem arraySize_eq (array : Nat) : arraySize document array = arraySize document' array :=
  h.reads fun _ _ => by rw [h.childCount]

theorem arrayGet_eq (array index : Nat) :
    arrayGet document array index = arrayGet document' array index := by
  refine h.reads fun _ _ => ?_
  by_cases hIndex : index ≥ (document.token array).links.childCount
  · rw [if_pos hIndex, if_pos (by rwa [← h.childCount])]
    rfl
  · rw [if_neg hIndex, if_neg (by rwa [← h.childCount])]
    rw [h.child array index (not_le.mp hIndex)]

theorem textView_eq (value : Nat) (expected : ValueType) :
    textView document value expected = textView document' value expected :=
  h.reads fun _ _ => by rw [h.text]

theorem readMagnitude_eq (value : Nat) (maximum : UInt64) :
    readMagnitude document value maximum = readMagnitude document' value maximum :=
  h.reads fun _ _ => by rw [h.text]

theorem valueU64_eq (value : Nat) : valueU64 document value = valueU64 document' value := by
  rw [valueU64, valueU64, h.readMagnitude_eq]

theorem valueI64_eq (value : Nat) : valueI64 document value = valueI64 document' value := by
  rw [valueI64, valueI64, h.readMagnitude_eq]

theorem valueBoolean_eq (value : Nat) :
    valueBoolean document value = valueBoolean document' value :=
  h.reads fun _ _ => by rw [h.booleanValue]

theorem valueIsNull_eq (value : Nat) :
    valueIsNull document value = valueIsNull document' value := by
  rw [valueIsNull, valueIsNull, h.length, h.type]

/-! ### Copies -/

theorem copyNumber_eq (value : Nat) : copyNumber document value = copyNumber document' value := by
  rw [copyNumber, copyNumber, valueNumberText, valueNumberText, h.textView_eq, h.valueI64_eq,
    h.valueU64_eq]

theorem copyMembers_eq (copy : Nat → WriterM Unit) (object rounds i : Nat) :
    copyMembers copy document object rounds i = copyMembers copy document' object rounds i := by
  induction rounds generalizing i with
  | zero => rfl
  | succ rounds ih => simp only [copyMembers, h.objectMemberAt_eq, ih]

theorem copyElements_eq (copy : Nat → WriterM Unit) (array rounds i : Nat) :
    copyElements copy document array rounds i = copyElements copy document' array rounds i := by
  induction rounds generalizing i with
  | zero => rfl
  | succ rounds ih => simp only [copyElements, h.arrayGet_eq, ih]

theorem copyValue_eq (fuel value : Nat) :
    copyValue document fuel value = copyValue document' fuel value := by
  induction fuel generalizing value with
  | zero => rfl
  | succ fuel ih =>
      have hBelow : copyValue document fuel = copyValue document' fuel := funext ih
      simp only [copyValue, copyObject, copyArray, h.valueType_eq, h.objectSize_eq, h.arraySize_eq,
        h.copyMembers_eq, h.copyElements_eq, h.copyNumber_eq, valueString, h.textView_eq,
        h.valueBoolean_eq, hBelow]

theorem copyMembersExcept_eq (object : Nat) (excluded : List Bytes) (rounds i : Nat) :
    copyMembersExcept document object excluded rounds i =
      copyMembersExcept document' object excluded rounds i := by
  induction rounds generalizing i with
  | zero => rfl
  | succ rounds ih =>
      simp only [copyMembersExcept, h.objectMemberAt_eq, h.copyValue_eq, h.length, ih]

theorem writerValue_eq (value : Nat) :
    writerValue (some document) value = writerValue (some document') value := by
  simp only [writerValue, h.valueType_eq, h.copyValue_eq, h.length]

theorem writerObjectBeginExcept_eq (object : Nat) (excludedKeys : ExcludedKeys) :
    writerObjectBeginExcept (some document) object excludedKeys =
      writerObjectBeginExcept (some document') object excludedKeys := by
  cases hStrings : excludedKeys.strings with
  | none => simp only [writerObjectBeginExcept, hStrings]
  | some excluded =>
      simp only [writerObjectBeginExcept, hStrings, h.valueType_eq, h.objectSize_eq,
        h.copyMembersExcept_eq]

end Document.Alike

/-! ### Whole documents -/

/-- No accessor of a value and no copy tells the documents apart: at every handle, index and key the
accessors answer alike, errors included, and every writer copies the same from both. -/
structure Document.Indistinguishable (document document' : Document) : Prop where
  root : documentRoot document = documentRoot document'
  type : ∀ value, valueType document value = valueType document' value
  objectSize : ∀ object, objectSize document object = objectSize document' object
  objectMemberAt : ∀ object index, objectMemberAt document object index =
    objectMemberAt document' object index
  objectGet : ∀ object key, objectGetSized document object key = objectGetSized document' object key
  arraySize : ∀ array, arraySize document array = arraySize document' array
  arrayGet : ∀ array index, arrayGet document array index = arrayGet document' array index
  string : ∀ value, valueString document value = valueString document' value
  numberText : ∀ value, valueNumberText document value = valueNumberText document' value
  u64 : ∀ value, valueU64 document value = valueU64 document' value
  i64 : ∀ value, valueI64 document value = valueI64 document' value
  boolean : ∀ value, valueBoolean document value = valueBoolean document' value
  isNull : ∀ value, valueIsNull document value = valueIsNull document' value
  copies : ∀ value, writerValue (some document) value = writerValue (some document') value
  copiesExcept : ∀ object excludedKeys,
    writerObjectBeginExcept (some document) object excludedKeys =
    writerObjectBeginExcept (some document') object excludedKeys

theorem Document.Alike.indistinguishable (h : document.Alike document') :
    document.Indistinguishable document' where
  root := h.root_eq
  type := h.valueType_eq
  objectSize := h.objectSize_eq
  objectMemberAt := h.objectMemberAt_eq
  objectGet := h.objectGetSized_eq
  arraySize := h.arraySize_eq
  arrayGet := h.arrayGet_eq
  string value := h.textView_eq value .string
  numberText value := h.textView_eq value .number
  u64 := h.valueU64_eq
  i64 := h.valueI64_eq
  boolean := h.valueBoolean_eq
  isNull := h.valueIsNull_eq
  copies := h.writerValue_eq
  copiesExcept := h.writerObjectBeginExcept_eq

theorem Document.Published.valueType_none {s : Source} (h : document.Published (s.rows 0 none))
    (value : Nat) :
    valueType document value = .none ↔ document.tokens.length ≤ value := by
  rw [valueType]
  split_ifs with hLt
  · refine iff_of_false ?_ (not_le.mpr hLt)
    rw [h.shows.length] at hLt
    rcases h.stands hLt with ⟨hPart, hAt⟩ | ⟨hPart, hm, hAt⟩
    · rename_i part
      rw [h.token_type hAt]
      cases part <;> simp [Source.cell]
    · obtain ⟨row, hRow, hCell⟩ := Option.map_eq_some_iff.mp hAt.1
      rw [h.shows.type hRow, hCell]
      simp [Source.keyCell]
  · exact iff_of_true rfl (not_lt.mp hLt)

namespace Document.Indistinguishable

variable (h : document.Indistinguishable document')

include h

theorem valueTree_eq (fuel value : Nat) :
    valueTree document fuel value = valueTree document' fuel value := by
  induction fuel generalizing value with
  | zero => rfl
  | succ fuel ih =>
      simp only [valueTree, h.type, h.objectSize, h.objectMemberAt, h.arraySize, h.arrayGet,
        h.string, h.numberText, h.boolean, h.isNull, ih]

/-- The handles that are none give the number of tokens away. -/
theorem length_eq {s s' : Source} (hPublished : document.Published (s.rows 0 none))
    (hPublished' : document'.Published (s'.rows 0 none)) :
    document.tokens.length = document'.tokens.length := by
  have hPast (value : Nat) : document.tokens.length ≤ value ↔ document'.tokens.length ≤ value := by
    rw [← hPublished.valueType_none, ← hPublished'.valueType_none, h.type]
  exact le_antisymm ((hPast _).mpr le_rfl) ((hPast _).mp le_rfl)

theorem documentTree_eq {s s' : Source} (hPublished : document.Published (s.rows 0 none))
    (hPublished' : document'.Published (s'.rows 0 none)) :
    documentTree document = documentTree document' := by
  rw [documentTree, documentTree, h.root, h.length_eq hPublished hPublished']
  simp only [h.valueTree_eq]

end Document.Indistinguishable

/-- The values of two parsed documents, of any texts under any profiles and limits, cannot be told
apart exactly when the documents show one tree. -/
theorem documentParse_indistinguishable {heap heap' : Heap} {input input' : CText}
    {profile profile' : Profile} {requested requested' : Option Limits}
    {errorGiven errorGiven' : Bool}
    (hParse : (documentParse heap input profile requested errorGiven).document = some document)
    (hParse' : (documentParse heap' input' profile' requested' errorGiven').document =
      some document') :
    document.Indistinguishable document' ↔ documentTree document = documentTree document' := by
  obtain ⟨limits, s, survivor, -, -, hPublished, -⟩ := documentParse_returns hParse
  obtain ⟨limits', s', survivor', -, -, hPublished', -⟩ := documentParse_returns hParse'
  refine ⟨fun h => h.documentTree_eq hPublished hPublished', fun hTree => ?_⟩
  rw [documentTree_eq hPublished, documentTree_eq hPublished', Except.ok.injEq] at hTree
  exact (hPublished.alike hPublished' hTree).indistinguishable

/-- The string `a` in an ASCII contract, and as an escape. -/
theorem documentParse_indistinguishable_escape :
    let token (start stop : Nat) : Token :=
      ⟨.init none, .string, start, stop, some 0, 1, 0, false, false, false⟩
    Document.Indistinguishable ⟨.contractAscii, [0x20, 0x22, 0x61, 0x22], [token 2 3], 4,
      [0x61, 0], 9, [], 0⟩ ⟨.rfc8259, [0x22, 0x5c, 0x75, 0x30, 0x30, 0x36, 0x31, 0x22], [token 1 7],
        8, [0x61, 0], 17, [], 0⟩ := by
  intro token
  refine (@documentParse_indistinguishable _ _ ⟨fun _ => true, []⟩ ⟨fun _ => true, []⟩
    (.buffer [0x20, 0x22, 0x61, 0x22]) (.buffer [0x22, 0x5c, 0x75, 0x30, 0x30, 0x36, 0x31, 0x22])
    .contractAscii .rfc8259 none none true true ?_ ?_).mpr rfl
  · decide +kernel
  · decide +kernel

end MaelysJson
