import MaelysJson.Code.Parser
import MaelysJson.General.Run
import MaelysJson.Reading.Source

/-! The reader without its tables: what the parser accepts and what it reports,
as a function of the bytes and of the two bounds. It keeps a place in the text
and the number of tokens so far; keys are compared within their object. -/
namespace MaelysJson

/-- What is read, and under which bounds; `capacity` is the room for tokens. -/
structure Reading where
  profile : Profile
  bytes : Bytes
  maximumDepth : Nat
  capacity : Nat

structure Place where
  offset : Nat
  count : Nat
  deriving DecidableEq, Repr

/-- Why and where a reading ends, and the path of the open containers. -/
structure Fault where
  code : Result
  offset : Nat
  path : List Step
  deriving DecidableEq, Repr

abbrev ReadM := EStateM Fault Place

namespace Reading

def refuse {α : Type} (code : Result) (offset : Nat) : ReadM α :=
  fun place => .error ⟨code, offset, []⟩ place

/-- Faults of `read` happen below `step`. -/
def within {α : Type} (step : Step) (read : ReadM α) : ReadM α := fun place =>
  match read place with
  | .ok value place => .ok value place
  | .error fault place => .error { fault with path := step :: fault.path } place

def advance (offset : Nat) : ReadM Unit := fun place => .ok () { place with offset }

variable (r : Reading)

def atEnd (place : Place) : Bool := place.offset ≥ r.bytes.length

def current (place : Place) : UInt8 := byteAt r.bytes place.offset

def readSpace : ReadM Unit :=
  fun place => .ok () { place with offset := spaceEnd r.bytes place.offset }

/-- Takes room for one token. -/
def takeToken (start : Nat) : ReadM Unit := fun place =>
  if place.count ≥ r.capacity then refuse .errLimit start place
  else .ok () { place with count := place.count + 1 }

def content (start stop : Nat) : Bytes := (r.bytes.drop start).take (stop - start)

def readString : ReadM Literal := fun place =>
  let opening := place.offset
  if r.atEnd place ∨ r.current place ≠ 0x22 then refuse .errSyntax opening place
  else
    let start := opening + 1
    match scanStringFrom r.profile r.bytes (r.bytes.length + 1) start with
    | .refused offset => refuse .errSyntax offset place
    | .unterminated _ => refuse .errSyntax opening place
    | .closed stop =>
        if place.count ≥ r.capacity then refuse .errLimit start place
        else match decodeString (r.content start stop) r.profile with
          | .error (code, bad) => refuse code (start + bad) place
          | .ok text => .ok ⟨⟨start, stop⟩, text⟩ ⟨stop + 1, place.count + 1⟩

/-- A key, refused in the strict profiles when its object has it already. -/
def readKey (seen : List Bytes) : ReadM Literal := fun place =>
  match r.readString place with
  | .error fault place => .error fault place
  | .ok key next =>
      if r.profile ≠ .rfc8259LastWins ∧ key.text ∈ seen then
        refuse .errDuplicateKey place.offset place
      else .ok key next

/-- Demands `byte` at the current offset. -/
def readByte (byte : UInt8) : ReadM Unit := fun place =>
  if r.atEnd place ∨ r.current place ≠ byte then refuse .errSyntax place.offset place
  else advance (place.offset + 1) place

/-- True at the closing delimiter, false at a comma and the space after it. -/
def readDelimiter (closing : UInt8) : ReadM Bool := do
  r.readSpace
  let place ← get
  if r.atEnd place then refuse .errSyntax place.offset
  else if r.current place = closing then
    advance (place.offset + 1)
    return true
  else if r.current place = 0x2c then
    advance (place.offset + 1)
    r.readSpace
    return false
  else refuse .errSyntax place.offset

/-- Whether `closing` comes first. -/
def readEmpty (closing : UInt8) : ReadM Bool := do
  r.readSpace
  let place ← get
  if ¬r.atEnd place ∧ r.current place = closing then
    advance (place.offset + 1)
    return true
  else return false

/-- A value inside a container, and whether the container ends after it. -/
def readItem (readValue : ReadM Source) (closing : UInt8) (step : Step) : ReadM (Source × Bool) :=
  within step do
    let value ← readValue
    let closed ← r.readDelimiter closing
    return (value, closed)

def readMembers (readValue : ReadM Source) : Nat → List Bytes → ReadM (List (Literal × Source))
  | 0, _ => refuse .errState 0
  | rounds + 1, seen => do
      let key ← r.readKey seen
      r.readSpace
      r.readByte 0x3a
      let (value, closed) ← r.readItem readValue 0x7d (.key key.text)
      if closed then return [(key, value)]
      else
        let rest ← readMembers readValue rounds (key.text :: seen)
        return (key, value) :: rest

def readElements (readValue : ReadM Source) : Nat → Nat → ReadM (List Source)
  | 0, _ => refuse .errState 0
  | rounds + 1, position => do
      let (value, closed) ← r.readItem readValue 0x5d (.index position)
      if closed then return [value]
      else
        let rest ← readElements readValue rounds (position + 1)
        return value :: rest

/-- The token of a container and what comes before its first item: whether it is empty. -/
def openContainer (depth : Nat) (closing : UInt8) : ReadM Bool := do
  let place ← get
  if depth ≥ r.maximumDepth then refuse .errLimit place.offset
  else
    r.takeToken place.offset
    advance (place.offset + 1)
    r.readEmpty closing

def readObject (readValue : ReadM Source) (depth : Nat) : ReadM Source := do
  let start := (← get).offset
  let closed ← r.openContainer depth 0x7d
  let members ← if closed then pure [] else r.readMembers readValue (r.bytes.length + 1) []
  return .object ⟨start, (← get).offset⟩ members

def readArray (readValue : ReadM Source) (depth : Nat) : ReadM Source := do
  let start := (← get).offset
  let closed ← r.openContainer depth 0x5d
  let elements ← if closed then pure [] else r.readElements readValue (r.bytes.length + 1) 0
  return .array ⟨start, (← get).offset⟩ elements

/-- The value of a primitive lexeme, if it is one. -/
def primitive (span : Span) (lexeme : Bytes) : Option Source :=
  match primitiveType lexeme with
  | some (.number, _) => some (.number span lexeme)
  | some (.boolean, value) => some (.boolean span value)
  | some (.null, _) => some (.null span)
  | _ => none

def readPrimitive : ReadM Source := fun place =>
  let stop := primitiveEnd r.bytes place.offset
  match primitive ⟨place.offset, stop⟩ (r.content place.offset stop) with
  | none => refuse .errSyntax place.offset place
  | some value =>
      if place.count ≥ r.capacity then refuse .errLimit place.offset place
      else .ok value ⟨stop, place.count + 1⟩

def readValue : Nat → Nat → ReadM Source
  | 0, _ => refuse .errState 0
  | fuel + 1, depth => do
      r.readSpace
      let place ← get
      if r.atEnd place then refuse .errSyntax place.offset
      else if r.current place = 0x7b then r.readObject (readValue fuel (depth + 1)) depth
      else if r.current place = 0x5b then r.readArray (readValue fuel (depth + 1)) depth
      else if r.current place = 0x22 then do
        let literal ← r.readString
        return .string literal
      else r.readPrimitive

/-- One value and nothing after it but space. -/
def readText : Except Fault Source :=
  match r.readValue (r.maximumDepth + 1) 0 ⟨0, 0⟩ with
  | .error fault _ => .error fault
  | .ok value place =>
      let stop := spaceEnd r.bytes place.offset
      if stop ≠ r.bytes.length then .error ⟨.errSyntax, stop, []⟩ else .ok value

/-! ### Containers, step by step -/

theorem readObject_eq (read : ReadM Source) (depth : Nat) (place : Place) :
    r.readObject read depth place =
      (r.openContainer depth 0x7d >>= fun closed =>
        (if closed then pure [] else r.readMembers read (r.bytes.length + 1) []) >>= fun members =>
        get >>= fun next => pure (Source.object ⟨place.offset, next.offset⟩ members)) place := by
  rw [Reading.readObject, Run.get_bind, Run.bind_eq, Run.bind_eq]
  cases r.openContainer depth 0x7d place with
  | ok closed next => cases closed <;> rfl
  | error fault next => rfl

theorem readArray_eq (read : ReadM Source) (depth : Nat) (place : Place) :
    r.readArray read depth place =
      (r.openContainer depth 0x5d >>= fun closed =>
        (if closed then pure [] else r.readElements read (r.bytes.length + 1) 0) >>= fun elements =>
        get >>= fun next => pure (Source.array ⟨place.offset, next.offset⟩ elements)) place := by
  rw [Reading.readArray, Run.get_bind, Run.bind_eq, Run.bind_eq]
  cases r.openContainer depth 0x5d place with
  | ok closed next => cases closed <;> rfl
  | error fault next => rfl

end Reading

end MaelysJson
