import MaelysJson.Code.Document
import MaelysJson.Code.Parser

/-! The in-memory writer: nodes joined by links, the stack of open containers,
the pending key and the sticky failure, and the copy of parsed values. -/
namespace MaelysJson

/-- `key` is the member key of the node, `string` a string value or a number
lexeme given as text. -/
structure Node where
  links : Links
  type : ValueType
  key : Option Bytes
  string : Option Bytes
  unsignedValue : UInt64
  signedValue : Int64
  numberSigned : Bool
  booleanValue : Bool
  deriving DecidableEq, Repr

def Node.init (type : ValueType) (parent : Option Nat) : Node :=
  ⟨.init parent, type, none, none, 0, 0, false, false⟩

def Node.blank : Node := .init .none none

def Node.updateLinks (update : Links → Links) (node : Node) : Node :=
  { node with links := update node.links }

def finalNewlineFlag : UInt32 := 1

def indentFlag : UInt32 := 2

def asciiFlag : UInt32 := 4

/-- `stack` holds the indices of the open containers, innermost first; its
length is the writer's `depth`. -/
structure Writer where
  profile : Profile
  limits : Limits
  flags : UInt32
  nodes : List Node
  nodeCapacity : Nat
  keys : Keyset
  stack : List Nat
  pendingKey : Option Bytes
  finished : Bool
  failure : Result
  heap : Heap

abbrev WriterM := EStateM Result Writer

def Writer.node (w : Writer) (index : Nat) : Node := w.nodes.getD index .blank

def Writer.depth (w : Writer) : Nat := w.stack.length

def writerInitialNodes : Nat := 16

def writerInitialKeys : Nat := 16

def nodeKey (nodes : List Node) (index : Nat) : KeysetKey :=
  let node := nodes.getD index .blank
  { parent := node.links.parent, bytes := node.key.getD [] }

def Writer.fail (w : Writer) (result : Result) : Writer :=
  { w with failure := if w.failure = .ok then result else w.failure }

/-- Records the first sticky error and returns it. -/
def writerFail {α : Type} (result : Result) : WriterM α :=
  fun w => .error result (w.fail result)

def writerReady : WriterM Unit := fun w =>
  if w.finished ∨ w.failure ≠ .ok then .error .errState w else .ok () w

def validText (profile : Profile) (text : CText) : Bool :=
  match text with
  | .null size => size == 0
  | .buffer bytes =>
      if profile = .rfc8259 then
        if bytes.any (· == 0) then false else utf8Validate bytes
      else
        bytes.all fun byte => !(byte < 0x20 || byte > 0x7e || byte == 0x22 || byte == 0x5c)

/-- One request of the writer: whether it was granted. -/
def writerRequest (size : Nat) : WriterM Bool := fun w =>
  let (granted, heap) := w.heap.request size
  .ok granted { w with heap }

/-- The copy of a text with its final NUL, when memory allows. -/
def copyBytes (bytes : Bytes) : WriterM (Option Bytes) := do
  let granted ← writerRequest (bytes.length + 1)
  return if granted then some bytes else none

def sizeOfNode : Nat := 104

def growNodes : WriterM Unit := do
  let w ← get
  if w.nodes.length ≥ w.limits.maximumTokens then
    throw .errLimit
  if w.nodes.length < w.nodeCapacity then return ()
  let capacity := if w.nodeCapacity ≠ 0 then w.nodeCapacity * 2 else writerInitialNodes
  let capacity := if capacity > w.limits.maximumTokens then w.limits.maximumTokens else capacity
  let granted ← writerRequest (capacity * sizeOfNode)
  if !granted then
    throw .errMemory
  modify ({ · with nodeCapacity := capacity })

def Writer.currentContainer (w : Writer) : Option Node := w.stack.head?.map w.node

def Writer.needsKey (w : Writer) : Bool :=
  match w.currentContainer with
  | none => false
  | some container => container.type == .object

/-- `grow_nodes`, with its failure made sticky. -/
def growNodesOrFail : WriterM Unit := fun w =>
  match growNodes w with
  | .ok _ w => .ok () w
  | .error result w => writerFail result w

/-- The new node takes the pending key, and the key enters the key set. -/
def attachKey (index : Nat) : WriterM Unit := fun w =>
  let w := { w with
    nodes := w.nodes.modify index fun node => { node with key := w.pendingKey }
    pendingKey := none }
  let inserted := keysetInsert (nodeKey w.nodes) w.keys w.heap index
  let w := { w with keys := inserted.set, heap := inserted.heap }
  if inserted.result = .ok then .ok () w else writerFail inserted.result w

/-- Appends a node to the current container, or as the root. -/
def attachNode (type : ValueType) : WriterM Nat := do
  let w ← get
  if w.currentContainer.isNone ∧ w.nodes.length ≠ 0 then
    writerFail .errState
  if (w.needsKey ∧ w.pendingKey.isNone) ∨ (¬w.needsKey ∧ w.pendingKey.isSome) then
    writerFail .errState
  growNodesOrFail
  let parent := w.stack.head?
  let index := w.nodes.length
  modify fun w => { w with nodes := w.nodes ++ [.init type parent] }
  if w.needsKey then attachKey index
  match parent with
  | none => return index
  | some container =>
      modify fun w =>
        { w with nodes := linksAppend Node.links Node.updateLinks w.nodes container index }
      return index

def sizeOfWriter : Nat := 144

def knownFlags : UInt32 := finalNewlineFlag ||| indentFlag ||| asciiFlag

/-- The writer under construction: the stack and the key set are requested in turn. -/
def writerCreate (heap : Heap) (profile : Profile) (requested : Option Limits) (flags : UInt32) :
    Except Result Writer × Heap :=
  if profile = .rfc8259LastWins ∨ flags &&& ~~~knownFlags ≠ 0 then (.error .errArgument, heap)
  else match limitsResolve requested with
    | .error _ => (.error .errArgument, heap)
    | .ok limits =>
        let (granted, heap) := heap.request sizeOfWriter
        if !granted then (.error .errMemory, heap)
        else
          let (granted, heap) := heap.request (limits.maximumDepth * sizeOfSize)
          if !granted then (.error .errMemory, heap)
          else match keysetInit heap writerInitialKeys with
            | (.ok, keys, heap) =>
                (.ok ⟨profile, limits, flags, [], 0, keys, [], none, false, .ok, heap⟩, heap)
            | (_, _, heap) => (.error .errMemory, heap)

def writerStatus (w : Writer) : Result := w.failure

def containerBegin (type : ValueType) : WriterM Unit := do
  writerReady
  let w ← get
  if w.depth ≥ w.limits.maximumDepth then
    writerFail .errLimit
  let index ← attachNode type
  modify fun w => { w with stack := index :: w.stack }

def containerEnd (type : ValueType) : WriterM Unit := do
  writerReady
  let w ← get
  match w.currentContainer with
  | none => writerFail .errState
  | some container =>
      if container.type ≠ type ∨ w.pendingKey.isSome then
        writerFail .errState
      set { w with stack := w.stack.tail }

def writerObjectBegin : WriterM Unit := containerBegin .object

def writerObjectEnd : WriterM Unit := containerEnd .object

def writerArrayBegin : WriterM Unit := containerBegin .array

def writerArrayEnd : WriterM Unit := containerEnd .array

def writerKey (key : CText) : WriterM Unit := do
  let w ← get
  if !validText w.profile key then
    throw .errArgument
  writerReady
  if ¬w.needsKey ∨ w.pendingKey.isSome then
    writerFail .errState
  if key.size > w.limits.maximumBytes then
    writerFail .errLimit
  if keysetContains (nodeKey w.nodes) w.keys ⟨w.stack.head?, key.bytes⟩ then
    writerFail .errDuplicateKey
  match ← copyBytes key.bytes with
  | none => writerFail .errMemory
  | some copy => modify ({ · with pendingKey := some copy })

/-- The bytes of a C string before its NUL. -/
def cString (bytes : Bytes) : Bytes := bytes.takeWhile (· != 0)

/-- The key is a C string, `none` for `NULL`. -/
def writerKeyCstr (key : Option Bytes) : WriterM Unit :=
  match key with
  | none => throw .errArgument
  | some bytes => writerKey (.buffer (cString bytes))

def Writer.updateNode (w : Writer) (index : Nat) (update : Node → Node) : Writer :=
  { w with nodes := w.nodes.modify index update }

/-- The common end of `writerString` and `writeNumberLexeme`: the length limit,
the copy, the node that keeps it. -/
def attachText (type : ValueType) (text : Bytes) : WriterM Unit := do
  writerReady
  let w ← get
  if text.length > w.limits.maximumBytes then
    writerFail .errLimit
  match ← copyBytes text with
  | none => writerFail .errMemory
  | some copy =>
      let index ← attachNode type
      modify (·.updateNode index fun node => { node with string := some copy })

def writerString (value : CText) : WriterM Unit := do
  let w ← get
  if !validText w.profile value then
    throw .errArgument
  attachText .string value.bytes

def writerStringCstr (value : Option Bytes) : WriterM Unit :=
  match value with
  | none => throw .errArgument
  | some bytes => writerString (.buffer (cString bytes))

/-- A scalar whose value is set once the node stands. -/
def attachScalar (type : ValueType) (update : Node → Node) : WriterM Unit := do
  writerReady
  let index ← attachNode type
  modify (·.updateNode index update)

def writerU64 (value : UInt64) : WriterM Unit :=
  attachScalar .number fun node => { node with unsignedValue := value }

def writerI64 (value : Int64) : WriterM Unit :=
  attachScalar .number fun node => { node with signedValue := value, numberSigned := true }

/-- Attaches a number written as its own lexeme, at most `maximum` bytes long. -/
def writeNumberLexeme (lexeme : CText) (maximum : Nat) : WriterM Unit := do
  match lexeme with
  | .null _ => throw .errArgument
  | .buffer bytes =>
      if bytes.length > maximum ∨ !numberSyntax bytes then
        throw .errArgument
      attachText .number bytes

def writerNumberText (lexeme : CText) : WriterM Unit :=
  writeNumberLexeme lexeme maximumNumberText

def writerBoolean (enabled : Int) : WriterM Unit :=
  attachScalar .boolean fun node => { node with booleanValue := enabled ≠ 0 }

def writerNull : WriterM Unit := attachScalar .null id

/-- Reads the document inside a writer call. -/
def readDocument {α : Type} (read : Except Result α) : WriterM α :=
  match read with
  | .error result => throw result
  | .ok value => return value

def copyNumber (document : Document) (value : Nat) : WriterM Unit := do
  let text ← readDocument (valueNumberText document value)
  if text.head? = some 0x2d then
    match valueI64 document value with
    | .ok number => writerI64 number
    | .error .errNotInteger => writeNumberLexeme (.buffer text) (← get).limits.maximumBytes
    | .error result => throw result
  else
    match valueU64 document value with
    | .ok number => writerU64 number
    | .error .errNotInteger => writeNumberLexeme (.buffer text) (← get).limits.maximumBytes
    | .error result => throw result

/-- The loop of `copyObject` from member `i`, with as many rounds as members left. -/
def copyMembers (copyValue : Nat → WriterM Unit) (document : Document) (object : Nat) :
    Nat → Nat → WriterM Unit
  | 0, _ => return ()
  | rounds + 1, i => do
      let (key, member) ← readDocument (objectMemberAt document object i)
      writerKey (.buffer key)
      copyValue member
      copyMembers copyValue document object rounds (i + 1)

def copyObject (copyValue : Nat → WriterM Unit) (document : Document) (object : Nat) :
    WriterM Unit := do
  let count ← readDocument (objectSize document object)
  writerObjectBegin
  copyMembers copyValue document object count 0
  writerObjectEnd

/-- The loop of `copyArray`. -/
def copyElements (copyValue : Nat → WriterM Unit) (document : Document) (array : Nat) :
    Nat → Nat → WriterM Unit
  | 0, _ => return ()
  | rounds + 1, i => do
      let element ← readDocument (arrayGet document array i)
      copyValue element
      copyElements copyValue document array rounds (i + 1)

def copyArray (copyValue : Nat → WriterM Unit) (document : Document) (array : Nat) :
    WriterM Unit := do
  let count ← readDocument (arraySize document array)
  writerArrayBegin
  copyElements copyValue document array count 0
  writerArrayEnd

/-- `fuel` bounds the nesting; no path in a document is longer than its token count. -/
def copyValue (document : Document) : Nat → Nat → WriterM Unit
  | 0, _ => throw .errArgument
  | fuel + 1, value =>
      match valueType document value with
      | .object => copyObject (copyValue document fuel) document value
      | .array => copyArray (copyValue document fuel) document value
      | .string => do
          let text ← readDocument (valueString document value)
          writerString (.buffer text)
      | .number => copyNumber document value
      | .boolean => do
          let enabled ← readDocument (valueBoolean document value)
          writerBoolean (if enabled then 1 else 0)
      | .null => writerNull
      | .none => throw .errArgument

/-- Turns a copy failure into the sticky state. An argument error found in
mid-copy leaves a partial tree, so the writer cannot continue either. -/
def copyFailed (result : Result) : WriterM Unit := fun w =>
  if result = .errArgument then .error result (w.fail .errState)
  else writerFail result w

/-- Runs a copy whose failure goes through `copyFailed`. -/
def orCopyFailed (copy : WriterM Unit) : WriterM Unit := fun w =>
  match copy w with
  | .ok _ w => .ok () w
  | .error result w => copyFailed result w

/-- The document is `none` for a `NULL` pointer. -/
def writerValue (document : Option Document) (value : Nat) : WriterM Unit := do
  match document with
  | none => throw .errArgument
  | some document =>
      if valueType document value = .none then
        throw .errArgument
      writerReady
      orCopyFailed (copyValue document document.tokens.length value)

/-- Each excluded key is compared as a C string. -/
def keyExcluded (key : Bytes) (excluded : List Bytes) : Bool := excluded.any (· == key)

/-- The loop of `writerObjectBeginExcept`. -/
def copyMembersExcept (document : Document) (object : Nat) (excluded : List Bytes) :
    Nat → Nat → WriterM Unit
  | 0, _ => return ()
  | rounds + 1, i => do
      let (key, member) ← readDocument (objectMemberAt document object i)
      if !keyExcluded key excluded then
        writerKey (.buffer key)
        copyValue document document.tokens.length member
      copyMembersExcept document object excluded rounds (i + 1)

/-- The array of excluded keys as the caller passes it: `NULL` with a count, or
entries that may themselves be `NULL`. -/
inductive ExcludedKeys where
  | null (count : Nat)
  | entries (keys : List (Option Bytes))
  deriving DecidableEq, Repr

/-- The C strings, when neither the array nor an entry is a `NULL` to refuse. -/
def ExcludedKeys.strings : ExcludedKeys → Option (List Bytes)
  | .null count => if count = 0 then some [] else none
  | .entries keys => keys.mapM (Option.map cString)

def writerObjectBeginExcept (document : Option Document) (object : Nat)
    (excludedKeys : ExcludedKeys) : WriterM Unit := do
  match document, excludedKeys.strings with
  | some document, some excluded =>
      if valueType document object ≠ .object then
        throw .errArgument
      writerReady
      writerObjectBegin
      orCopyFailed do
        let count ← readDocument (objectSize document object)
        copyMembersExcept document object excluded count 0
  | _, _ => throw .errArgument

end MaelysJson
