import Mathlib.Data.List.GetD
import Mathlib.Data.List.Sort
import Mathlib.Data.List.Dedup
import Mathlib.Tactic

/-! The shared vocabulary of the library: result codes, profiles, limits, error
positions, the number grammar scanner and the canonical spelling of one byte.
Buffers are lists of bytes; a pointer that may be `NULL` is an `Option`. -/
namespace MaelysJson

abbrev Bytes := List UInt8

instance : LawfulBEq Bytes := inferInstanceAs (LawfulBEq (List UInt8))

/-- The largest `size_t` of the 64-bit targets. -/
def sizeMax : Nat := 2 ^ 64 - 1

inductive Result where
  | ok
  | errArgument
  | errMemory
  | errLimit
  | errSyntax
  | errUtf8
  | errDuplicateKey
  | errType
  | errRange
  | errState
  | errNotFound
  | errNotInteger
  | errIo
  deriving DecidableEq, Repr

inductive Profile where
  | rfc8259
  | contractAscii
  | rfc8259LastWins
  deriving DecidableEq, Repr

inductive ValueType where
  | none
  | object
  | array
  | string
  | number
  | boolean
  | null
  deriving DecidableEq, Repr

/-- The heap as its callers see it: whether each request in turn is granted,
and the sizes of the requests made so far. -/
structure Heap where
  grant : Nat → Bool
  requests : List Nat

/-- One `malloc`, `calloc` or `realloc` of `size` bytes. -/
def Heap.request (heap : Heap) (size : Nat) : Bool × Heap :=
  (heap.grant heap.requests.length, { heap with requests := heap.requests ++ [size] })

/-- No request is ever refused. -/
def Heap.Generous (heap : Heap) : Prop := ∀ n, heap.grant n = true

structure Limits where
  maximumBytes : Nat
  maximumDepth : Nat
  maximumTokens : Nat
  deriving DecidableEq, Repr

def defaultMaximumBytes : Nat := 65535
def defaultMaximumDepth : Nat := 32
def defaultMaximumTokens : Nat := 8192

/-- The absolute ceiling of `maximumDepth`, for the parser and the writer. -/
def maximumDepthCeiling : Nat := 256

def maximumNumberText : Nat := 64

/-- A zero field, or no limits at all, selects the default. -/
def limitsResolve (requested : Option Limits) : Except Result Limits :=
  let result : Limits := match requested with
    | none => ⟨defaultMaximumBytes, defaultMaximumDepth, defaultMaximumTokens⟩
    | some limits =>
        { maximumBytes :=
            if limits.maximumBytes = 0 then defaultMaximumBytes else limits.maximumBytes
          maximumDepth :=
            if limits.maximumDepth = 0 then defaultMaximumDepth else limits.maximumDepth
          maximumTokens :=
            if limits.maximumTokens = 0 then defaultMaximumTokens else limits.maximumTokens }
  if result.maximumDepth > maximumDepthCeiling ∨ result.maximumBytes ≥ sizeMax / 2 ∨
      result.maximumTokens > sizeMax / 256 then
    .error .errArgument
  else .ok result

structure Error where
  code : Result
  offset : Nat
  line : Nat
  column : Nat
  deriving DecidableEq, Repr

/-- Line and column after `bytes`, both one-based; columns count bytes. -/
def linePosition (bytes : Bytes) : Nat × Nat :=
  bytes.foldl (fun position byte =>
    if byte = 0x0a then (position.1 + 1, 1) else (position.1, position.2 + 1)) (1, 1)

/-- The error stays `NULL` when the caller passed none. Without `bytes` the
position is line 1, column 1, whatever the offset. -/
def errorSet (error : Option Error) (code : Result) (bytes : Option Bytes) (size offset : Nat) :
    Option Error :=
  error.map fun _ =>
    let offset := if offset > size then size else offset
    let position := match bytes with
      | none => (1, 1)
      | some bytes => linePosition (bytes.take offset)
    ⟨code, offset, position.1, position.2⟩

def byteAt (bytes : Bytes) (offset : Nat) : UInt8 := bytes.getD offset 0

/-- The loop `while (offset < size && accept(bytes[offset])) ++offset`. -/
def scanWhile (accept : UInt8 → Bool) (bytes : Bytes) (offset : Nat) : Nat :=
  offset + ((bytes.drop offset).takeWhile accept).length

def isSpace (byte : UInt8) : Bool :=
  byte == 0x20 || byte == 0x09 || byte == 0x0d || byte == 0x0a

def isDigit (byte : UInt8) : Bool := 0x30 ≤ byte && byte ≤ 0x39

/-- The exponent part of `numberSyntax`, and its end-of-input test. -/
def numberExponent (bytes : Bytes) (offset : Nat) : Bool :=
  if offset < bytes.length ∧ (byteAt bytes offset = 0x65 ∨ byteAt bytes offset = 0x45) then
    let offset := offset + 1
    let exponent :=
      if offset < bytes.length ∧ (byteAt bytes offset = 0x2b ∨ byteAt bytes offset = 0x2d) then
        offset + 1
      else offset
    let offset := scanWhile isDigit bytes exponent
    if offset = exponent then false else offset == bytes.length
  else offset == bytes.length

/-- The fraction part of `numberSyntax`. -/
def numberFraction (bytes : Bytes) (offset : Nat) : Bool :=
  if offset < bytes.length ∧ byteAt bytes offset = 0x2e then
    let fraction := offset + 1
    let offset := scanWhile isDigit bytes fraction
    if offset = fraction then false else numberExponent bytes offset
  else numberExponent bytes offset

/-- Whether `bytes` is exactly one number of the JSON grammar. -/
def numberSyntax (bytes : Bytes) : Bool :=
  let offset := if 0 < bytes.length ∧ byteAt bytes 0 = 0x2d then 1 else 0
  if offset ≥ bytes.length then false
  else if byteAt bytes offset = 0x30 then numberFraction bytes (offset + 1)
  else if byteAt bytes offset < 0x31 ∨ byteAt bytes offset > 0x39 then false
  else numberFraction bytes (scanWhile isDigit bytes offset)

/-- Lowercase hexadecimal digit of a value below 16. -/
def hexDigit (value : Nat) : UInt8 :=
  if value < 10 then .ofNat (0x30 + value) else .ofNat (0x61 + (value - 10))

/-- The two-byte escapes of the canonical form. -/
def shortEscape (byte : UInt8) : Option UInt8 :=
  if byte = 0x22 then some 0x22
  else if byte = 0x5c then some 0x5c
  else if byte = 0x08 then some 0x62
  else if byte = 0x0c then some 0x66
  else if byte = 0x0a then some 0x6e
  else if byte = 0x0d then some 0x72
  else if byte = 0x09 then some 0x74
  else none

/-- Canonical spelling of one byte inside a string literal. -/
def canonicalEscape (byte : UInt8) : Bytes :=
  match shortEscape byte with
  | some escape => [0x5c, escape]
  | none =>
      if byte ≥ 0x20 then [byte]
      else [0x5c, 0x75, 0x30, 0x30, hexDigit (byte.toNat / 16 % 16), hexDigit (byte.toNat % 16)]

end MaelysJson
