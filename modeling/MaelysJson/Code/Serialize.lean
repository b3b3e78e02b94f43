import MaelysJson.Code.Writer

/-! Serialization of a finished tree: the growing output buffer, the spelling
of strings and numbers, the merge sort of members and the two layouts. -/
namespace MaelysJson

/-- `bytes` is the output so far, of length `size` in the C structure. -/
structure Serializer where
  bytes : Bytes
  capacity : Nat
  maximum : Nat
  indent : Bool
  ascii : Bool
  heap : Heap

abbrev SerializerM := EStateM Result Serializer

/-- Subtraction of `size_t`. -/
def wrapSub (a b : Nat) : Nat := wrap (a + 2 ^ 64 - b)

/-- The doubling loop of `reserve`. A capacity of at least one doubles past
`SIZE_MAX` in 64 rounds, so the loop has ended by then. -/
def reserveCapacity (needed maximum : Nat) : Nat → Nat → Nat
  | 0, capacity => capacity
  | rounds + 1, capacity =>
      if capacity < needed then
        reserveCapacity needed maximum rounds
          (if capacity > maximum / 2 then maximum else wrap (capacity * 2))
      else capacity

def reserve (extra : Nat) : SerializerM Unit := fun s =>
  if extra > wrapSub s.maximum s.bytes.length then .error .errLimit s
  else
    let needed := wrap (s.bytes.length + extra)
    if needed ≤ s.capacity then .ok () s
    else
      let capacity :=
        reserveCapacity needed s.maximum 64 (if s.capacity ≠ 0 then s.capacity else 128)
      let (granted, heap) := s.heap.request (wrap (capacity + 1))
      if granted then .ok () { s with capacity, heap } else .error .errMemory { s with heap }

def append (bytes : Bytes) : SerializerM Unit := do
  if bytes.length = 0 then return ()
  reserve bytes.length
  modify fun s => { s with bytes := s.bytes ++ bytes }

def indentWidth : Nat := 2

/-- `count` spaces, one `append` each. -/
def appendSpaces : Nat → SerializerM Unit
  | 0 => return ()
  | count + 1 => do
      append [0x20]
      appendSpaces count

/-- A newline and the indentation of `level`; nothing in compact mode. -/
def appendBreak (level : Nat) : SerializerM Unit := do
  if !(← get).indent then return ()
  append [0x0a]
  appendSpaces (level * indentWidth)

def u16Escape (unit : Nat) : Bytes :=
  [0x5c, 0x75, hexDigit (unit / 4096 % 16), hexDigit (unit / 256 % 16), hexDigit (unit / 16 % 16),
    hexDigit (unit % 16)]

def appendU16Escape (unit : Nat) : SerializerM Unit := append (u16Escape unit)

/-- The loop of `appendString` over the bytes still unread. Each round takes at
least one of them. -/
def appendStringFrom : Nat → Bytes → SerializerM Unit
  | 0, _ => return ()
  | _, [] => return ()
  | rounds + 1, byte :: rest => do
      if byte ≥ 0x80 ∧ (← get).ascii then
        let (length, point) := utf8Decode (byte :: rest)
        if point ≥ 0x10000 then
          let point := point - 0x10000
          appendU16Escape (0xd800 + point / 1024)
          appendU16Escape (0xdc00 + point % 1024)
        else appendU16Escape point
        appendStringFrom rounds ((byte :: rest).drop length)
      else
        append (canonicalEscape byte)
        appendStringFrom rounds rest

def appendString (bytes : Bytes) : SerializerM Unit := do
  append [0x22]
  appendStringFrom bytes.length bytes
  append [0x22]

/-- Decimal digits of `n`, most significant first. -/
def decimalFrom : Nat → Nat → Bytes
  | 0, _ => []
  | rounds + 1, n =>
      if n < 10 then [.ofNat (0x30 + n)]
      else decimalFrom rounds (n / 10) ++ [.ofNat (0x30 + n % 10)]

/-- `snprintf` of `PRIu64`: the shortest decimal of at most twenty digits. -/
def decimalU64 (value : UInt64) : Bytes := decimalFrom 20 value.toNat

/-- `snprintf` of `PRId64`. -/
def decimalI64 (value : Int64) : Bytes :=
  if value < 0 then 0x2d :: decimalFrom 20 value.toInt.natAbs
  else decimalFrom 20 value.toInt.natAbs

/-- The text of a number node. -/
def Node.numberText (node : Node) : Bytes :=
  match node.string with
  | some lexeme => lexeme
  | none => if node.numberSigned then decimalI64 node.signedValue else decimalU64 node.unsignedValue

def appendNumber (node : Node) : SerializerM Unit := append node.numberText

def keyCompare (nodes : List Node) (left right : Nat) : Int :=
  utf16Compare ((nodes.getD left .blank).key.getD []) ((nodes.getD right .blank).key.getD [])

/-- The merge loop of `mergeKeys`: it returns what the loop writes to `scratch`
from `begin` on. Every round moves one value, so `finish - begin` are enough. -/
def mergeFrom (compare : Nat → Nat → Int) (values : List Nat) (middle finish : Nat) :
    Nat → Nat → Nat → List Nat
  | 0, _, _ => []
  | rounds + 1, left, right =>
      if left < middle ∨ right < finish then
        if right ≥ finish ∨ (left < middle ∧
            compare (values.getD left 0) (values.getD right 0) ≤ 0) then
          values.getD left 0 :: mergeFrom compare values middle finish rounds (left + 1) right
        else
          values.getD right 0 :: mergeFrom compare values middle finish rounds left (right + 1)
      else []

/-- The merged run is copied back over `values[begin .. finish)`. -/
def mergeKeys (compare : Nat → Nat → Int) (values : List Nat) (start middle finish : Nat) :
    List Nat :=
  values.take start ++ mergeFrom compare values middle finish (finish - start) start middle ++
    values.drop finish

/-- `fuel` bounds the halvings; the length of the range is enough. -/
def sortKeys (compare : Nat → Nat → Int) : Nat → List Nat → Nat → Nat → List Nat
  | 0, values, _, _ => values
  | fuel + 1, values, start, finish =>
      if finish - start < 2 then values
      else
        let middle := start + (finish - start) / 2
        let values := sortKeys compare fuel values start middle
        let values := sortKeys compare fuel values middle finish
        mergeKeys compare values start middle finish

/-- The walk along `nextSibling` from `child`, at most `rounds` long. -/
def nodeSiblings (nodes : List Node) : Nat → Option Nat → List Nat
  | 0, _ => []
  | _, none => []
  | rounds + 1, some child =>
      child :: nodeSiblings nodes rounds (nodes.getD child .blank).links.nextSibling

def serializerRequest (size : Nat) : SerializerM Bool := fun s =>
  let (granted, heap) := s.heap.request size
  .ok granted { s with heap }

/-- The member loop of `serializeObject`; `first` holds in its first round only. -/
def serializeMembers (serializeNode : Nat → Nat → SerializerM Unit) (nodes : List Node)
    (level : Nat) : Bool → List Nat → SerializerM Unit
  | _, [] => return ()
  | first, child :: rest => do
      if !first then append [0x2c]
      appendBreak (level + 1)
      appendString ((nodes.getD child .blank).key.getD [])
      append (if (← get).indent then [0x3a, 0x20] else [0x3a])
      serializeNode child (level + 1)
      serializeMembers serializeNode nodes level false rest

def serializeObject (serializeNode : Nat → Nat → SerializerM Unit) (nodes : List Node) (node : Node)
    (level : Nat) : SerializerM Unit := do
  let count := node.links.childCount
  if count = 0 then append [0x7b, 0x7d]
  else
    let valuesGranted ← serializerRequest (count * sizeOfSize)
    let scratchGranted ← serializerRequest (count * sizeOfSize)
    if !(valuesGranted && scratchGranted) then
      throw .errMemory
    let values := nodeSiblings nodes nodes.length node.links.firstChild
    let values := sortKeys (keyCompare nodes) count values 0 count
    append [0x7b]
    serializeMembers serializeNode nodes level true values
    appendBreak level
    append [0x7d]

/-- The element loop of `serializeArray`. -/
def serializeElements (serializeNode : Nat → Nat → SerializerM Unit) (level : Nat) :
    Bool → List Nat → SerializerM Unit
  | _, [] => return ()
  | first, child :: rest => do
      if !first then append [0x2c]
      appendBreak (level + 1)
      serializeNode child (level + 1)
      serializeElements serializeNode level false rest

def serializeArray (serializeNode : Nat → Nat → SerializerM Unit) (nodes : List Node) (node : Node)
    (level : Nat) : SerializerM Unit := do
  if node.links.childCount = 0 then append [0x5b, 0x5d]
  else
    append [0x5b]
    serializeElements serializeNode level true
      (nodeSiblings nodes nodes.length node.links.firstChild)
    appendBreak level
    append [0x5d]

/-- `fuel` bounds the nesting; no path in a tree is longer than its node count. -/
def serializeNode (nodes : List Node) : Nat → Nat → Nat → SerializerM Unit
  | 0, _, _ => throw .errState
  | fuel + 1, index, level =>
      let node := nodes.getD index .blank
      match node.type with
      | .object => serializeObject (serializeNode nodes fuel) nodes node level
      | .array => serializeArray (serializeNode nodes fuel) nodes node level
      | .string => appendString (node.string.getD [])
      | .number => appendNumber node
      | .boolean =>
          append (if node.booleanValue then [0x74, 0x72, 0x75, 0x65]
            else [0x66, 0x61, 0x6c, 0x73, 0x65])
      | .null => append [0x6e, 0x75, 0x6c, 0x6c]
      | .none => throw .errState

/-- Serializes the tree of a writer according to its flags. -/
def serialize (w : Writer) : EStateM.Result Result Serializer Unit :=
  let s : Serializer :=
    { bytes := [], capacity := 0, maximum := w.limits.maximumBytes
      indent := w.flags &&& indentFlag ≠ 0, ascii := w.flags &&& asciiFlag ≠ 0, heap := w.heap }
  (do
    serializeNode w.nodes w.nodes.length 0 0
    if w.flags &&& finalNewlineFlag ≠ 0 then append [0x0a] : SerializerM Unit) s

/-- The finished bytes. `outputsGiven` tells whether both output pointers were
passed; without them nothing is done. -/
def writerFinish (outputsGiven : Bool) : WriterM Bytes := do
  if !outputsGiven then
    throw .errArgument
  writerReady
  let w ← get
  if w.depth ≠ 0 ∨ w.pendingKey.isSome ∨ w.nodes.length = 0 then
    writerFail .errState
  match serialize w with
  | .error result s =>
      set { w with heap := s.heap }
      writerFail result
  | .ok _ s =>
      set { w with heap := s.heap, finished := true }
      return s.bytes

end MaelysJson
