import MaelysJson.Code.Serialize

/-! The texts of results and errors. -/
namespace MaelysJson

/-- The bytes of a literal of the source, all of them ASCII. -/
def ascii (text : String) : Bytes := text.toList.map fun c => .ofNat c.toNat

def resultString : Result → Bytes
  | .ok => ascii "ok"
  | .errArgument => ascii "invalid argument"
  | .errMemory => ascii "out of memory"
  | .errLimit => ascii "configured limit exceeded"
  | .errSyntax => ascii "invalid JSON syntax"
  | .errUtf8 => ascii "invalid UTF-8"
  | .errDuplicateKey => ascii "duplicate object key"
  | .errType => ascii "unexpected JSON type"
  | .errRange => ascii "numeric value out of range"
  | .errState => ascii "invalid writer state"
  | .errNotFound => ascii "object member not found"
  | .errNotInteger => ascii "number is not an integer"
  | .errIo => ascii "input/output error"

/-- `snprintf` of a text: its length, and the memory afterwards. A capacity of zero
writes nothing; otherwise the text is cut to leave room for its NUL. -/
def snprintf (buffer : Option Bytes) (capacity : Nat) (text : Bytes) : Nat × Option Bytes :=
  (text.length,
    if capacity = 0 then buffer
    else buffer.map fun memory =>
      text.take (capacity - 1) ++ 0 :: memory.drop (min text.length (capacity - 1) + 1))

/-- `%zu`: the shortest decimal of at most twenty digits. -/
def decimalSize (n : Nat) : Bytes := decimalFrom 20 n

/-- The format of `errorFormat`, filled in. -/
def errorText (error : Error) : Bytes :=
  ascii "line " ++ decimalSize error.line ++ ascii ", column " ++ decimalSize error.column ++
    ascii " (offset " ++ decimalSize error.offset ++ ascii "): " ++ resultString error.code

/-- The `buffer` is `none` for a `NULL` pointer. -/
def errorFormat (error : Option Error) (buffer : Option Bytes) (capacity : Nat) :
    Nat × Option Bytes :=
  match error with
  | none => (0, buffer)
  | some error =>
      if buffer = none ∧ capacity ≠ 0 then (0, buffer)
      else snprintf buffer capacity (errorText error)

end MaelysJson
