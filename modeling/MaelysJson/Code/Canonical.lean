import MaelysJson.Code.Serialize

/-! The streaming canonical check: a cursor over the source bytes demands what
the canonical writer would have produced. A mismatch is the answer "not
canonical", not an error, so every `expect` returns the cursor it leaves. -/
namespace MaelysJson

structure Cursor where
  bytes : Bytes
  offset : Nat

def expect (cursor : Cursor) (text : Bytes) : Option Cursor :=
  if cursor.bytes.length - cursor.offset < text.length ∨
      (cursor.bytes.drop cursor.offset).take text.length ≠ text then none
  else some { cursor with offset := cursor.offset + text.length }

def expectByte (cursor : Cursor) (byte : UInt8) : Option Cursor := expect cursor [byte]

/-- The loop of `expectString` over the decoded text. -/
def expectEscaped : Cursor → Bytes → Option Cursor
  | cursor, [] => some cursor
  | cursor, byte :: rest => do
      let cursor ← expect cursor (canonicalEscape byte)
      expectEscaped cursor rest

def expectString (cursor : Cursor) (text : Bytes) : Option Cursor := do
  let cursor ← expectByte cursor 0x22
  let cursor ← expectEscaped cursor text
  expectByte cursor 0x22

/-- A byte that marks a fraction or an exponent. -/
def isFractional (byte : UInt8) : Bool := byte == 0x2e || byte == 0x65 || byte == 0x45

def expectNumber (cursor : Cursor) (document : Document) (value : Nat) : Option Cursor :=
  let text := document.textOf (document.token value)
  if text.any isFractional then none
  else if text.head? = some 0x2d then
    match valueI64 document value with
    | .error _ => none
    | .ok number => expect cursor (decimalI64 number)
  else
    match valueU64 document value with
    | .error _ => none
    | .ok number => expect cursor (decimalU64 number)

/-- The member loop of `expectObject` from member `i`, `rounds` members left. -/
def expectMembers (expectValue : Cursor → Nat → Option Cursor) (document : Document)
    (token : Token) :
    Nat → Nat → Option Bytes → Cursor → Option Cursor
  | 0, _, _, cursor => some cursor
  | rounds + 1, i, previous, cursor => do
      let cursor ← if i ≠ 0 then expectByte cursor 0x2c else some cursor
      let key := document.textOf (document.token (childAt document token (2 * i)))
      match previous with
      | some previous => if utf16Compare previous key ≥ 0 then none
      | none => pure ()
      let cursor ← expectString cursor key
      let cursor ← expectByte cursor 0x3a
      let cursor ← expectValue cursor (childAt document token (2 * i + 1))
      expectMembers expectValue document token rounds (i + 1) (some key) cursor

def expectObject (expectValue : Cursor → Nat → Option Cursor) (cursor : Cursor)
    (document : Document) (token : Token) : Option Cursor := do
  let cursor ← expectByte cursor 0x7b
  let cursor ←
    expectMembers expectValue document token (token.links.childCount / 2) 0 none cursor
  expectByte cursor 0x7d

/-- The element loop of `expectArray`. -/
def expectElements (expectValue : Cursor → Nat → Option Cursor) (document : Document)
    (token : Token) : Nat → Nat → Cursor → Option Cursor
  | 0, _, cursor => some cursor
  | rounds + 1, i, cursor => do
      let cursor ← if i ≠ 0 then expectByte cursor 0x2c else some cursor
      let cursor ← expectValue cursor (childAt document token i)
      expectElements expectValue document token rounds (i + 1) cursor

def expectArray (expectValue : Cursor → Nat → Option Cursor) (cursor : Cursor)
    (document : Document) (token : Token) : Option Cursor := do
  let cursor ← expectByte cursor 0x5b
  let cursor ← expectElements expectValue document token token.links.childCount 0 cursor
  expectByte cursor 0x5d

/-- `fuel` bounds the nesting; no path in a document is longer than its token count. -/
def expectValue (document : Document) : Nat → Cursor → Nat → Option Cursor
  | 0, _, _ => none
  | fuel + 1, cursor, value =>
      let token := document.token value
      match token.type with
      | .object => expectObject (expectValue document fuel) cursor document token
      | .array => expectArray (expectValue document fuel) cursor document token
      | .string => expectString cursor (document.textOf token)
      | .number => expectNumber cursor document value
      | .boolean =>
          expect cursor (if token.booleanValue then [0x74, 0x72, 0x75, 0x65]
            else [0x66, 0x61, 0x6c, 0x73, 0x65])
      | .null => expect cursor [0x6e, 0x75, 0x6c, 0x6c]
      | .none => none

/-- Whether the source bytes are the canonical serialization of the document.
Flags other than the final newline are refused. -/
def documentIsCanonical (document : Document) (flags : UInt32) : Except Result Bool :=
  if flags &&& ~~~finalNewlineFlag ≠ 0 then .error .errArgument
  else if document.duplicateCount ≠ 0 then .ok false
  else
    let walked : Option Cursor :=
      if document.tokens.length = 0 then none
      else expectValue document document.tokens.length ⟨document.bytes, 0⟩ 0
    let claimed : Option Cursor :=
      if flags &&& finalNewlineFlag ≠ 0 then walked.bind fun cursor => expectByte cursor 0x0a
      else walked
    match claimed with
    | none => .ok false
    | some cursor => .ok (cursor.offset == document.bytes.length)

end MaelysJson
