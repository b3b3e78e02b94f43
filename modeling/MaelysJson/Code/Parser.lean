import MaelysJson.Code.Document

/-! The reader: tokens, string literals, containers and primitives, the
compaction of superseded members and the layout of children. A parser call is
a state transformer that returns a value or the error code of the C function. -/
namespace MaelysJson

/-- `error` is the caller's error record, `none` when it passed `NULL`. The
heap stands here because every request of a parse goes through the parser. -/
structure Parser where
  document : Document
  profile : Profile
  limits : Limits
  error : Option Error
  offset : Nat
  keys : Keyset
  heap : Heap

abbrev ParserM := EStateM Result Parser

def tokenKey (document : Document) (index : Nat) : KeysetKey :=
  let token := document.token index
  { parent := token.links.parent, bytes := document.textOf token }

def Parser.fail (p : Parser) (result : Result) (offset : Nat) : Parser :=
  { p with error := errorSet p.error result (some p.document.bytes) p.document.bytes.length offset }

/-- Records the error and returns its code. -/
def fail {α : Type} (result : Result) (offset : Nat) : ParserM α :=
  fun p => .error result (p.fail result offset)

def Parser.atEnd (p : Parser) : Bool := p.offset ≥ p.document.bytes.length

def Parser.current (p : Parser) : UInt8 := byteAt p.document.bytes p.offset

def spaceEnd (bytes : Bytes) (offset : Nat) : Nat := scanWhile isSpace bytes offset

def Parser.seek (p : Parser) (offset : Nat) : Parser := { p with offset }

def skipSpace : ParserM Unit :=
  modify fun p => p.seek (spaceEnd p.document.bytes p.offset)

def Document.addToken (document : Document) (type : ValueType) (start : Nat) (parent : Option Nat)
    (objectKey : Bool) : Document :=
  let index := document.tokens.length
  let token : Token :=
    { Token.blank with type, start, stop := start, objectKey, links := .init parent }
  let tokens := document.tokens ++ [token]
  { document with
    tokens := match parent with
      | none => tokens
      | some container => linksAppend Token.links Token.updateLinks tokens container index }

def addToken (type : ValueType) (start : Nat) (parent : Option Nat) (objectKey : Bool) :
    ParserM Nat := fun p =>
  if p.document.tokens.length ≥ p.document.tokenCapacity then fail .errLimit start p
  else
    .ok p.document.tokens.length
      { p with document := p.document.addToken type start parent objectKey }

def Document.updateToken (document : Document) (index : Nat) (update : Token → Token) : Document :=
  { document with tokens := document.tokens.modify index update }

def Parser.updateToken (p : Parser) (index : Nat) (update : Token → Token) : Parser :=
  { p with document := p.document.updateToken index update }

/-- Where the scan of a string body stops: at its closing quotation mark, at a
byte it refuses, or at the end of the input. -/
inductive StringScan where
  | closed (offset : Nat)
  | refused (offset : Nat)
  | unterminated (offset : Nat)
  deriving DecidableEq, Repr

/-- The loop of `scanStringBody`; every round advances. -/
def scanStringFrom (profile : Profile) (bytes : Bytes) : Nat → Nat → StringScan
  | 0, offset => .unterminated offset
  | rounds + 1, offset =>
      if offset < bytes.length then
        let byte := byteAt bytes offset
        if byte = 0x22 then .closed offset
        else if byte < 0x20 then .refused offset
        else if profile = .contractAscii ∧ (byte = 0x5c ∨ byte > 0x7e) then .refused offset
        else if byte = 0x5c then
          if offset + 1 < bytes.length then scanStringFrom profile bytes rounds (offset + 2)
          else .unterminated (offset + 1)
        else scanStringFrom profile bytes rounds (offset + 1)
      else .unterminated offset

/-- Returns the offset of the closing quotation mark and moves past it. An
unterminated body is an error that records no position. -/
def scanStringBody : ParserM Nat := fun p =>
  match scanStringFrom p.profile p.document.bytes (p.document.bytes.length + 1) p.offset with
  | .closed offset => .ok offset (p.seek (offset + 1))
  | .refused offset => fail .errSyntax offset (p.seek offset)
  | .unterminated offset => .error .errSyntax (p.seek offset)

def Parser.errorRecorded (p : Parser) : Bool :=
  match p.error with
  | none => false
  | some error => error.code ≠ .ok

/-- A key enters the key set. In the tolerant profile a repeated key marks the
previous one; in the strict profiles it is an error at the opening quotation mark. -/
def insertKey (index opening : Nat) : ParserM Unit := fun p =>
  if p.profile = .rfc8259LastWins then
    let inserted := keysetInsertLast (tokenKey p.document) p.keys p.heap index
    let p := { p with keys := inserted.set, heap := inserted.heap }
    match inserted.result, inserted.previous with
    | .ok, some previous =>
        let p := p.updateToken previous fun token => { token with superseded := true }
        .ok () { p with
          document := { p.document with duplicateCount := p.document.duplicateCount + 1 } }
    | .ok, none => .ok () p
    | result, _ => fail result opening p
  else
    let inserted := keysetInsert (tokenKey p.document) p.keys p.heap index
    let p := { p with keys := inserted.set, heap := inserted.heap }
    match inserted.result with
    | .ok => .ok () p
    | result => fail result opening p

/-- Stores a decoded text and its NUL at the end of the used arena. -/
def Parser.storeText (p : Parser) (index : Nat) (text : Bytes) : Parser :=
  let offset := p.document.arena.length
  let p := p.updateToken index fun token =>
    { token with text := some offset, textSize := text.length }
  { p with document := { p.document with arena := p.document.arena ++ text ++ [0] } }

def parseString (parent : Option Nat) (objectKey : Bool) : ParserM Nat := do
  let p ← get
  let opening := p.offset
  if p.atEnd ∨ p.current ≠ 0x22 then
    fail .errSyntax opening
  let start := opening + 1
  set (p.seek start)
  let stop ← fun p => match scanStringBody p with
    | .ok stop p => .ok stop p
    | .error result p => if p.errorRecorded then .error result p else fail .errSyntax opening p
  let index ← addToken .string start parent objectKey
  modify (·.updateToken index fun token => { token with stop })
  let p ← get
  match decodeString ((p.document.bytes.drop start).take (stop - start)) p.profile with
  | .error (result, bad) => fail result (start + bad)
  | .ok text =>
      set (p.storeText index text)
      if objectKey then insertKey index opening
      return index

/-- Consumes a comma or the closing delimiter; true when the container is closed. -/
def containerDelimiter (closing : UInt8) : ParserM Bool := do
  skipSpace
  let p ← get
  if p.atEnd then
    fail .errSyntax p.offset
  set (p.seek (p.offset + 1))
  if p.current = closing then return true
  if p.current ≠ 0x2c then
    fail .errSyntax p.offset
  skipSpace
  return false

/-- The member loop of `parseObject`. Every round consumes at least one byte,
so the input size bounds the rounds. -/
def parseMembers (parseValue : Option Nat → Nat → ParserM Nat) (object depth : Nat) :
    Nat → ParserM Unit
  | 0 => throw .errState
  | rounds + 1 => do
      let _ ← parseString (some object) true
      skipSpace
      let p ← get
      if p.atEnd ∨ p.current ≠ 0x3a then
        fail .errSyntax p.offset
      set (p.seek (p.offset + 1))
      let _ ← parseValue (some object) (depth + 1)
      let closed ← containerDelimiter 0x7d
      if closed then return ()
      parseMembers parseValue object depth rounds

/-- Consumes `closing` when it comes first: the container is empty. -/
def emptyContainer (closing : UInt8) : ParserM Bool := do
  skipSpace
  let p ← get
  if ¬p.atEnd ∧ p.current = closing then
    set (p.seek (p.offset + 1))
    return true
  return false

def parseObject (parseValue : Option Nat → Nat → ParserM Nat) (parent : Option Nat) (depth : Nat) :
    ParserM Nat := do
  let p ← get
  if depth ≥ p.limits.maximumDepth then
    fail .errLimit p.offset
  let object ← addToken .object p.offset parent false
  modify fun p => p.seek (p.offset + 1)
  let closed ← emptyContainer 0x7d
  if !closed then
    parseMembers parseValue object depth (p.document.bytes.length + 1)
  modify fun p => p.updateToken object fun token => { token with stop := p.offset }
  return object

/-- The element loop of `parseArray`. -/
def parseElements (parseValue : Option Nat → Nat → ParserM Nat) (array depth : Nat) :
    Nat → ParserM Unit
  | 0 => throw .errState
  | rounds + 1 => do
      let _ ← parseValue (some array) (depth + 1)
      let closed ← containerDelimiter 0x5d
      if closed then return ()
      parseElements parseValue array depth rounds

def parseArray (parseValue : Option Nat → Nat → ParserM Nat) (parent : Option Nat) (depth : Nat) :
    ParserM Nat := do
  let p ← get
  if depth ≥ p.limits.maximumDepth then
    fail .errLimit p.offset
  let array ← addToken .array p.offset parent false
  modify fun p => p.seek (p.offset + 1)
  let closed ← emptyContainer 0x5d
  if !closed then
    parseElements parseValue array depth (p.document.bytes.length + 1)
  modify fun p => p.updateToken array fun token => { token with stop := p.offset }
  return array

def isDelimiter (byte : UInt8) : Bool :=
  byte == 0x2c || byte == 0x7d || byte == 0x5d || isSpace byte

/-- The run of bytes `parsePrimitive` looks at. -/
def primitiveEnd (bytes : Bytes) (offset : Nat) : Nat :=
  scanWhile (fun byte => !isDelimiter byte) bytes offset

/-- Type and boolean value of a primitive lexeme, if it is one. -/
def primitiveType (lexeme : Bytes) : Option (ValueType × Bool) :=
  if lexeme = [0x74, 0x72, 0x75, 0x65] then some (.boolean, true)
  else if lexeme = [0x66, 0x61, 0x6c, 0x73, 0x65] then some (.boolean, false)
  else if lexeme = [0x6e, 0x75, 0x6c, 0x6c] then some (.null, false)
  else if numberSyntax lexeme then some (.number, false)
  else none

def parsePrimitive (parent : Option Nat) : ParserM Nat := do
  let p ← get
  let start := p.offset
  let stop := primitiveEnd p.document.bytes start
  set (p.seek stop)
  let lexeme := (p.document.bytes.drop start).take (stop - start)
  match primitiveType lexeme with
  | none => fail .errSyntax start
  | some (type, booleanValue) =>
      let index ← addToken type start parent false
      modify (·.updateToken index fun token => { token with stop, booleanValue })
      if type = .number then modify (·.storeText index lexeme)
      return index

/-- `fuel` bounds the nesting. The depth test of the containers stops the
recursion before it runs out. -/
def parseValue : Nat → Option Nat → Nat → ParserM Nat
  | 0, _, _ => throw .errState
  | fuel + 1, parent, depth => do
      skipSpace
      let p ← get
      if p.atEnd then
        fail .errSyntax p.offset
      if p.current = 0x7b then parseObject (parseValue fuel) parent depth
      else if p.current = 0x5b then parseArray (parseValue fuel) parent depth
      else if p.current = 0x22 then parseString parent false
      else parsePrimitive parent

/-- The walk along `nextSibling` from `child`, at most `rounds` long. -/
def siblings (tokens : List Token) : Nat → Option Nat → List Nat
  | 0, _ => []
  | _, none => []
  | rounds + 1, some child =>
      child :: siblings tokens rounds (tokens.getD child .blank).links.nextSibling

def Token.isContainer (token : Token) : Bool :=
  token.type == .object || token.type == .array

/-- One round of `buildChildren`: the children of the token at `index` are laid
out after those of the tokens before it. -/
def layOutChildren (document : Document) (index : Nat) : Document :=
  let token := document.token index
  if token.isContainer then
    { document.updateToken index
        (fun token => { token with childrenOffset := document.children.length }) with
      children := document.children ++
        siblings document.tokens document.tokens.length token.links.firstChild }
  else document

def buildChildren (document : Document) (heap : Heap) : Result × Document × Heap :=
  let (granted, heap) := heap.request (document.tokens.length * sizeOfSize)
  if granted then
    (.ok, (List.range document.tokens.length).foldl layOutChildren { document with children := [] },
      heap)
  else (.errMemory, document, heap)

/-- The target of a compaction. Without `tokens` the walk only measures. -/
structure Packed where
  tokens : Option (List Token)
  tokenCount : Nat
  arena : Bytes
  arenaUsed : Nat
  deriving DecidableEq, Repr

/-- The text of a token with its NUL, as the arena holds it. -/
def Document.textBytes (document : Document) (token : Token) : Bytes :=
  match token.text with
  | none => []
  | some offset => (document.arena.drop offset).take (token.textSize + 1)

/-- What the text of a token takes in the arena. -/
def Token.textRoom (token : Token) : Nat :=
  match token.text with
  | none => 0
  | some _ => token.textSize + 1

/-- Copies one token and its text, or counts them. -/
def Packed.take (target : Packed) (source : Document) (index : Nat) (parent : Option Nat) :
    Packed :=
  let old := source.token index
  let fresh := target.tokenCount
  let target : Packed := match target.tokens with
    | none => target
    | some tokens =>
        let token : Token :=
          { old with
            links := .init parent
            text := old.text.map fun _ => target.arenaUsed }
        let tokens := tokens ++ [token]
        { target with
          tokens := some (match parent with
            | none => tokens
            | some container => linksAppend Token.links Token.updateLinks tokens container fresh)
          arena := target.arena ++ source.textBytes old }
  { target with
    tokenCount := fresh + 1
    arenaUsed := target.arenaUsed + old.textRoom }

/-- The loop of `compactWalk` over the children of `fresh`, from `child`. A
superseded key is passed over together with its value. -/
def compactChildren (walk : Nat → Option Nat → Packed → Packed) (source : Document) (fresh : Nat) :
    Nat → Option Nat → Packed → Packed
  | 0, _, target => target
  | _, none, target => target
  | rounds + 1, some child, target =>
      let entry := source.token child
      if entry.objectKey && entry.superseded then
        compactChildren walk source fresh rounds
          (entry.links.nextSibling.bind fun value => (source.token value).links.nextSibling) target
      else
        compactChildren walk source fresh rounds entry.links.nextSibling
          (walk child (some fresh) target)

/-- Traverses the surviving pairs below `index`. The sizing pass and the
copying pass are this walk on different targets. -/
def compactWalk (source : Document) : Nat → Nat → Option Nat → Packed → Packed
  | 0, _, _, target => target
  | fuel + 1, index, parent, target =>
      compactChildren (compactWalk source fuel) source target.tokenCount source.tokens.length
        (source.token index).links.firstChild (target.take source index parent)

def sizeOfToken : Nat := 96

def sizeOfDocument : Nat := 88

def compactDocument (document : Document) (heap : Heap) : Result × Document × Heap :=
  let sized := compactWalk document document.tokens.length 0 none ⟨none, 0, [], 0⟩
  let arenaCapacity := if sized.arenaUsed ≠ 0 then sized.arenaUsed else 1
  let (tokensGranted, heap) := heap.request (sized.tokenCount * sizeOfToken)
  let (arenaGranted, heap) := heap.request arenaCapacity
  if tokensGranted && arenaGranted then
    let packed := compactWalk document document.tokens.length 0 none ⟨some [], 0, [], 0⟩
    (.ok, { document with
        tokens := packed.tokens.getD []
        tokenCapacity := sized.tokenCount
        arena := packed.arena
        arenaCapacity }, heap)
  else (.errMemory, document, heap)

/-- Adds one term of the allocation bound, or nothing when the sum passes `SIZE_MAX`. -/
def addBounded (total : Option Nat) (size : Nat) : Option Nat :=
  total.bind fun total => if size > sizeMax - total then none else some (wrap (total + size))

def tokenCapacityFor (size : Nat) (limits : Limits) : Nat :=
  let tokens := if size < limits.maximumTokens then size else limits.maximumTokens
  if tokens = 0 then 1 else tokens

/-- Upper bound on the heap requests of a parse of `size` bytes. -/
def documentParseAllocationBound (size : Nat) (profile : Profile) (requested : Option Limits) :
    Except Result Nat :=
  match limitsResolve requested with
  | .error _ => .error .errArgument
  | .ok limits =>
      if size = sizeMax then .error .errArgument
      else if size > limits.maximumBytes then .error .errLimit
      else
        let tokens := tokenCapacityFor size limits
        let slots := keysetCapacity (tokens / 2 + 1)
        let copies := if profile = .rfc8259LastWins then 2 else 1
        let sizes := [sizeOfDocument, wrap (size + 1)] ++
          List.replicate copies (wrap (tokens * sizeOfToken)) ++
          List.replicate copies (wrap (size + tokens + 1)) ++
          [wrap (slots * sizeOfSize), wrap (tokens * sizeOfSize)]
        match sizes.foldl addBounded (some 0) with
        | none => .error .errLimit
        | some total => .ok total

/-- The four requests of `allocateDocument`; the last three are made together. -/
def allocateDocument (heap : Heap) (bytes : Bytes) (limits : Limits) (profile : Profile) :
    Option Document × Heap :=
  let (granted, heap) := heap.request sizeOfDocument
  if granted then
    let tokenCapacity := tokenCapacityFor bytes.length limits
    let arenaCapacity := bytes.length + tokenCapacity + 1
    let (bytesGranted, heap) := heap.request (bytes.length + 1)
    let (tokensGranted, heap) := heap.request (tokenCapacity * sizeOfToken)
    let (arenaGranted, heap) := heap.request arenaCapacity
    if bytesGranted && tokensGranted && arenaGranted then
      (some ⟨profile, bytes, [], tokenCapacity, [], arenaCapacity, [], 0⟩, heap)
    else (none, heap)
  else (none, heap)

/-- A pointer and a size, as C callers pass text: `NULL` with any size, or a
buffer of that size. -/
inductive CText where
  | null (size : Nat)
  | buffer (bytes : Bytes)
  deriving DecidableEq, Repr

def CText.bytes : CText → Bytes
  | .null _ => []
  | .buffer bytes => bytes

def CText.size : CText → Nat
  | .null size => size
  | .buffer bytes => bytes.length

/-- What a call of `documentParse` leaves to its caller. -/
structure Parsed where
  result : Result
  document : Option Document
  error : Option Error
  heap : Heap

/-- The parse proper, after allocation: the root value, then nothing but space. -/
def parseRoot : ParserM Unit := fun p =>
  match parseValue (p.limits.maximumDepth + 1) none 0 p with
  | .error result p => .error result p
  | .ok _ p =>
      let p := p.seek (spaceEnd p.document.bytes p.offset)
      if p.offset ≠ p.document.bytes.length then fail .errSyntax p.offset p
      else .ok () p

/-- From a parsed root to the published document: compaction if a key was
repeated, then the children. -/
def publishDocument (document : Document) (heap : Heap) : Result × Document × Heap :=
  let (result, document, heap) :=
    if document.duplicateCount ≠ 0 then compactDocument document heap
    else (.ok, document, heap)
  if result = .ok then buildChildren document heap else (result, document, heap)

/-- An error without a recorded position is reported at offset 0. -/
def reportError (error : Option Error) (result : Result) (bytes : Bytes) : Option Error :=
  match error with
  | none => none
  | some recorded =>
      if recorded.code = .ok then errorSet error result (some bytes) bytes.length 0
      else error

/-- `errorGiven` tells whether the caller passed a place for the error. -/
def documentParse (heap : Heap) (input : CText) (profile : Profile) (requested : Option Limits)
    (errorGiven : Bool) : Parsed :=
  let error : Option Error := if errorGiven then some ⟨.ok, 0, 0, 0⟩ else none
  let size := input.size
  let bytes := input.bytes
  match limitsResolve requested with
  | .error _ => ⟨.errArgument, none, errorSet error .errArgument none 0 0, heap⟩
  | .ok limits =>
      if (input = .null size ∧ size ≠ 0) ∨ size = sizeMax then
        ⟨.errArgument, none, errorSet error .errArgument none 0 0, heap⟩
      else if size > limits.maximumBytes then
        ⟨.errLimit, none, errorSet error .errLimit (some bytes) size 0, heap⟩
      else match documentParseAllocationBound size profile (some limits) with
        | .error bounded => ⟨bounded, none, errorSet error bounded (some bytes) size 0, heap⟩
        | .ok _ =>
            match allocateDocument heap bytes limits profile with
            | (none, heap) =>
                ⟨.errMemory, none, errorSet error .errMemory (some bytes) size 0, heap⟩
            | (some document, heap) =>
                match keysetInit heap (document.tokenCapacity / 2 + 1) with
                | (.ok, keys, heap) =>
                    match parseRoot ⟨document, profile, limits, error, 0, keys, heap⟩ with
                    | .error result p => ⟨result, none, reportError p.error result bytes, p.heap⟩
                    | .ok _ p =>
                        match publishDocument p.document p.heap with
                        | (.ok, document, heap) => ⟨.ok, some document, p.error, heap⟩
                        | (result, _, heap) =>
                            ⟨result, none, reportError p.error result bytes, heap⟩
                | (result, _, heap) => ⟨result, none, reportError error result bytes, heap⟩

end MaelysJson
