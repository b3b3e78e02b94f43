import MaelysJson.Code.Keyset
import MaelysJson.Code.Utf8

/-! Parsed documents: tokens joined by links, the text arena, and the read
accessors. A writer's nodes use the same links. `VALUE_NONE` is `none`. -/
namespace MaelysJson

/-- Parent and sibling links shared by parser tokens and writer nodes. -/
structure Links where
  parent : Option Nat
  firstChild : Option Nat
  lastChild : Option Nat
  nextSibling : Option Nat
  childCount : Nat
  deriving DecidableEq, Repr

def Links.init (parent : Option Nat) : Links := ⟨parent, none, none, none, 0⟩

/-- Appends `index` as the last child of `container`: `items` is the table both
live in, `links` and `update` read and write the links of one entry. -/
def linksAppend {α : Type} (links : α → Links) (update : (Links → Links) → α → α)
    (items : List α) (container index : Nat) : List α :=
  match (items[container]?).bind fun entry => (links entry).lastChild with
  | some last =>
      (items.modify last (update fun l => { l with nextSibling := some index })).modify container
        (update fun l => { l with lastChild := some index, childCount := l.childCount + 1 })
  | none =>
      items.modify container
        (update fun l =>
          { l with
            firstChild := some index, lastChild := some index, childCount := l.childCount + 1 })

/-- `text` is the offset in the arena of the decoded string or number lexeme. -/
structure Token where
  links : Links
  type : ValueType
  start : Nat
  stop : Nat
  text : Option Nat
  textSize : Nat
  childrenOffset : Nat
  objectKey : Bool
  booleanValue : Bool
  superseded : Bool
  deriving DecidableEq, Repr

def Token.blank : Token := ⟨.init none, .none, 0, 0, none, 0, 0, false, false, false⟩

def Token.updateLinks (update : Links → Links) (token : Token) : Token :=
  { token with links := update token.links }

/-- `tokens` and `arena` hold the entries in use; their capacities are kept
apart. `bytes` is the copy of the input, without its final NUL. -/
structure Document where
  profile : Profile
  bytes : Bytes
  tokens : List Token
  tokenCapacity : Nat
  arena : Bytes
  arenaCapacity : Nat
  children : List Nat
  duplicateCount : Nat
  deriving DecidableEq, Repr

def Document.token (document : Document) (index : Nat) : Token :=
  document.tokens.getD index .blank

/-- The `textSize` bytes a token's text points to. -/
def Document.textOf (document : Document) (token : Token) : Bytes :=
  (document.arena.drop (token.text.getD 0)).take token.textSize

def documentDuplicateCount (document : Document) : Nat := document.duplicateCount

def documentRoot (document : Document) : Option Nat :=
  if document.tokens.length = 0 then none else some 0

def valueType (document : Document) (value : Nat) : ValueType :=
  if value < document.tokens.length then (document.token value).type else .none

/-- Resolves a handle to a token of the expected type. -/
def tokenOf (document : Document) (value : Nat) (expected : ValueType) : Except Result Token :=
  if value ≥ document.tokens.length then .error .errArgument
  else if (document.token value).type ≠ expected then .error .errType
  else .ok (document.token value)

def childAt (document : Document) (token : Token) (position : Nat) : Nat :=
  document.children.getD (token.childrenOffset + position) 0

/-- The search loop of `objectGetSized` from member `i`, `rounds` members left. -/
def objectGetFrom (document : Document) (container : Token) (key : Bytes) :
    Nat → Nat → Except Result Nat
  | 0, _ => .error .errNotFound
  | rounds + 1, i =>
      let keyToken := document.token (childAt document container (2 * i))
      if keyToken.textSize = key.length ∧ document.textOf keyToken = key then
        .ok (childAt document container (2 * i + 1))
      else objectGetFrom document container key rounds (i + 1)

def objectGetSized (document : Document) (object : Nat) (key : Bytes) : Except Result Nat := do
  let container ← tokenOf document object .object
  objectGetFrom document container key (container.links.childCount / 2) 0

def objectSize (document : Document) (object : Nat) : Except Result Nat := do
  let container ← tokenOf document object .object
  return container.links.childCount / 2

/-- Key and value of the member at `index`. -/
def objectMemberAt (document : Document) (object index : Nat) : Except Result (Bytes × Nat) := do
  let container ← tokenOf document object .object
  if index ≥ container.links.childCount / 2 then throw .errRange
  let keyToken := document.token (childAt document container (2 * index))
  return (document.textOf keyToken, childAt document container (2 * index + 1))

def arraySize (document : Document) (array : Nat) : Except Result Nat := do
  let container ← tokenOf document array .array
  return container.links.childCount

def arrayGet (document : Document) (array index : Nat) : Except Result Nat := do
  let container ← tokenOf document array .array
  if index ≥ container.links.childCount then throw .errRange
  return childAt document container index

def textView (document : Document) (value : Nat) (expected : ValueType) : Except Result Bytes := do
  let token ← tokenOf document value expected
  return document.textOf token

def valueString (document : Document) (value : Nat) : Except Result Bytes :=
  textView document value .string

def valueNumberText (document : Document) (value : Nat) : Except Result Bytes :=
  textView document value .number

/-- The loop of `readMagnitude` over the digits still unread. -/
def magnitudeFrom (maximum : UInt64) : Bytes → UInt64 → Except Result UInt64
  | [], magnitude => .ok magnitude
  | byte :: rest, magnitude =>
      if byte < 0x30 ∨ byte > 0x39 then .error .errNotInteger
      else
        let digit := (byte - 0x30).toUInt64
        if magnitude > (maximum - digit) / 10 then .error .errRange
        else magnitudeFrom maximum rest (magnitude * 10 + digit)

/-- Reads an integer lexeme as a magnitude no larger than `maximum`, and its sign. -/
def readMagnitude (document : Document) (value : Nat) (maximum : UInt64) :
    Except Result (UInt64 × Bool) := do
  let token ← tokenOf document value .number
  let bytes := document.textOf token
  let negative := bytes.head? == some 0x2d
  let magnitude ← magnitudeFrom maximum (if negative then bytes.tail else bytes) 0
  return (magnitude, negative)

def valueU64 (document : Document) (value : Nat) : Except Result UInt64 := do
  let (magnitude, negative) ← readMagnitude document value 18446744073709551615
  if negative ∧ magnitude ≠ 0 then throw .errRange
  return magnitude

def valueI64 (document : Document) (value : Nat) : Except Result Int64 := do
  let minimumMagnitude : UInt64 := 9223372036854775808
  let (magnitude, negative) ← readMagnitude document value minimumMagnitude
  if ¬negative ∧ magnitude > 9223372036854775807 then throw .errRange
  if negative ∧ magnitude = minimumMagnitude then return Int64.minValue
  return if negative then -magnitude.toInt64 else magnitude.toInt64

def valueBoolean (document : Document) (value : Nat) : Except Result Bool := do
  let token ← tokenOf document value .boolean
  return token.booleanValue

def valueIsNull (document : Document) (value : Nat) : Bool :=
  value < document.tokens.length && (document.token value).type == .null

end MaelysJson
