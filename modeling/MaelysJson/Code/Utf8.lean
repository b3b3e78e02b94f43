import MaelysJson.Code.Common

/-! UTF-8 validation and decoding, string literal decoding, and the comparison
of two keys by UTF-16 code units. Code points are natural numbers. -/
namespace MaelysJson

def continuation (byte : UInt8) : Bool := byte &&& 0xc0 == 0x80

/-- One round of the loop of `utf8ValidPrefix`: where the sequence that starts
at `i` ends, or nothing when the loop returns `i`. -/
def utf8SequenceEnd (bytes : Bytes) (i : Nat) : Option Nat :=
  let a := byteAt bytes i
  if a ≤ 0x7f then some (i + 1)
  else if 0xc2 ≤ a ∧ a ≤ 0xdf then
    if i + 1 ≥ bytes.length ∨ !continuation (byteAt bytes (i + 1)) then none
    else some (i + 2)
  else if 0xe0 ≤ a ∧ a ≤ 0xef then
    if i + 2 ≥ bytes.length ∨ !continuation (byteAt bytes (i + 1)) ∨
        !continuation (byteAt bytes (i + 2)) then none
    else if (a = 0xe0 ∧ byteAt bytes (i + 1) < 0xa0) ∨
        (a = 0xed ∧ byteAt bytes (i + 1) ≥ 0xa0) then none
    else some (i + 3)
  else if 0xf0 ≤ a ∧ a ≤ 0xf4 then
    if i + 3 ≥ bytes.length ∨ !continuation (byteAt bytes (i + 1)) ∨
        !continuation (byteAt bytes (i + 2)) ∨ !continuation (byteAt bytes (i + 3)) then none
    else if (a = 0xf0 ∧ byteAt bytes (i + 1) < 0x90) ∨
        (a = 0xf4 ∧ byteAt bytes (i + 1) ≥ 0x90) then none
    else some (i + 4)
  else none

/-- The loop of `utf8ValidPrefix` from `i`. Every round advances, so
`bytes.length` rounds are enough. -/
def utf8ValidPrefixFrom (bytes : Bytes) : Nat → Nat → Nat
  | 0, i => i
  | rounds + 1, i =>
      if i < bytes.length then
        match utf8SequenceEnd bytes i with
        | some next => utf8ValidPrefixFrom bytes rounds next
        | none => i
      else bytes.length

/-- Size of the longest valid UTF-8 prefix of `bytes`. -/
def utf8ValidPrefix (bytes : Bytes) : Nat :=
  utf8ValidPrefixFrom bytes (bytes.length + 1) 0

def utf8Validate (bytes : Bytes) : Bool := utf8ValidPrefix bytes == bytes.length

/-- Length and code point of the first sequence of validated UTF-8. -/
def utf8Decode (bytes : Bytes) : Nat × Nat :=
  let a := (byteAt bytes 0).toNat
  let b := (byteAt bytes 1).toNat
  let c := (byteAt bytes 2).toNat
  let d := (byteAt bytes 3).toNat
  if a ≤ 0x7f then (1, a)
  else if a ≤ 0xdf then (2, (a &&& 0x1f) <<< 6 ||| (b &&& 0x3f))
  else if a ≤ 0xef then
    (3, (a &&& 0x0f) <<< 12 ||| (b &&& 0x3f) <<< 6 ||| (c &&& 0x3f))
  else
    (4, (a &&& 0x07) <<< 18 ||| (b &&& 0x3f) <<< 12 ||| (c &&& 0x3f) <<< 6 ||| (d &&& 0x3f))

/-- The value of a hexadecimal digit; nothing stands for the `-1` of the code. -/
def hexValue (byte : UInt8) : Option Nat :=
  if 0x30 ≤ byte ∧ byte ≤ 0x39 then some (byte.toNat - 0x30)
  else if 0x61 ≤ byte ∧ byte ≤ 0x66 then some (byte.toNat - 0x61 + 10)
  else if 0x41 ≤ byte ∧ byte ≤ 0x46 then some (byte.toNat - 0x41 + 10)
  else none

/-- The four hexadecimal digits at `offset`. -/
def readU16 (bytes : Bytes) (offset : Nat) : Option Nat := do
  let a ← hexValue (byteAt bytes offset)
  let b ← hexValue (byteAt bytes (offset + 1))
  let c ← hexValue (byteAt bytes (offset + 2))
  let d ← hexValue (byteAt bytes (offset + 3))
  return ((a * 16 + b) * 16 + c) * 16 + d

def encodeUtf8 (point : Nat) : Bytes :=
  if point ≤ 0x7f then [.ofNat point]
  else if point ≤ 0x7ff then
    [.ofNat (0xc0 ||| point >>> 6), .ofNat (0x80 ||| (point &&& 0x3f))]
  else if point ≤ 0xffff then
    [.ofNat (0xe0 ||| point >>> 12), .ofNat (0x80 ||| (point >>> 6 &&& 0x3f)),
      .ofNat (0x80 ||| (point &&& 0x3f))]
  else
    [.ofNat (0xf0 ||| point >>> 18), .ofNat (0x80 ||| (point >>> 12 &&& 0x3f)),
      .ofNat (0x80 ||| (point >>> 6 &&& 0x3f)), .ofNat (0x80 ||| (point &&& 0x3f))]

/-- Reads a `\uXXXX` escape, and its low surrogate when needed, from just after
the `u`. The point 0 stands for a syntax error: U+0000 itself is refused. -/
def readEscapePoint (bytes : Bytes) (input : Nat) : Nat × Nat :=
  if input + 4 > bytes.length then (0, input)
  else match readU16 bytes input with
    | none => (0, input)
    | some point =>
        let input := input + 4
        if 0xd800 ≤ point ∧ point ≤ 0xdbff then
          if input + 6 > bytes.length ∨ byteAt bytes input ≠ 0x5c ∨
              byteAt bytes (input + 1) ≠ 0x75 then (0, input)
          else match readU16 bytes (input + 2) with
            | none => (0, input)
            | some low =>
                if low < 0xdc00 ∨ low > 0xdfff then (0, input)
                else (0x10000 + (point - 0xd800) <<< 10 + (low - 0xdc00), input + 6)
        else if 0xdc00 ≤ point ∧ point ≤ 0xdfff then (0, input)
        else (point, input)

def simpleEscape (escape : UInt8) : Option UInt8 :=
  if escape = 0x22 then some 0x22
  else if escape = 0x5c then some 0x5c
  else if escape = 0x2f then some 0x2f
  else if escape = 0x62 then some 0x08
  else if escape = 0x66 then some 0x0c
  else if escape = 0x6e then some 0x0a
  else if escape = 0x72 then some 0x0d
  else if escape = 0x74 then some 0x09
  else none

/-- The loop of `decodeString`: `input` is the read position and `out` what has
been decoded. An error carries the code and the bad offset. -/
def decodeStringFrom (bytes : Bytes) (profile : Profile) :
    Nat → Nat → Bytes → Except (Result × Nat) Bytes
  | 0, _, out => .ok out
  | rounds + 1, input, out =>
      if input < bytes.length then
        let byte := byteAt bytes input
        if profile = .contractAscii then
          if byte < 0x20 ∨ byte > 0x7e ∨ byte = 0x5c then .error (.errSyntax, input)
          else decodeStringFrom bytes profile rounds (input + 1) (out ++ [byte])
        else if byte ≠ 0x5c then
          let stop := scanWhile (· != 0x5c) bytes input
          let run := (bytes.drop input).take (stop - input)
          let valid := utf8ValidPrefix run
          if valid ≠ stop - input then .error (.errUtf8, input + valid)
          else decodeStringFrom bytes profile rounds stop (out ++ run)
        else if input + 1 ≥ bytes.length then .error (.errSyntax, input)
        else
          let escape := byteAt bytes (input + 1)
          if escape = 0x75 then
            let (point, next) := readEscapePoint bytes (input + 2)
            if point = 0 then .error (.errSyntax, input)
            else decodeStringFrom bytes profile rounds next (out ++ encodeUtf8 point)
          else match simpleEscape escape with
            | none => .error (.errSyntax, input)
            | some decoded => decodeStringFrom bytes profile rounds (input + 2) (out ++ [decoded])
      else .ok out

/-- Decodes the content of a string literal, the quotation marks left out. -/
def decodeString (bytes : Bytes) (profile : Profile) : Except (Result × Nat) Bytes :=
  decodeStringFrom bytes profile (bytes.length + 1) 0 []

/-- A cursor over the UTF-16 code units of a validated UTF-8 string. -/
structure Utf16Cursor where
  bytes : Bytes
  offset : Nat
  pendingLowSurrogate : Nat

def utf16Next (cursor : Utf16Cursor) : Option (Nat × Utf16Cursor) :=
  if cursor.pendingLowSurrogate ≠ 0 then
    some (cursor.pendingLowSurrogate, { cursor with pendingLowSurrogate := 0 })
  else if cursor.offset ≥ cursor.bytes.length then none
  else
    let (length, point) := utf8Decode (cursor.bytes.drop cursor.offset)
    let offset := cursor.offset + length
    if point ≥ 0x10000 then
      let point := point - 0x10000
      some (0xd800 + point >>> 10,
        { cursor with offset, pendingLowSurrogate := 0xdc00 + (point &&& 0x3ff) })
    else some (point, { cursor with offset })

/-- The loop of `utf16Compare`. Each round takes one unit from either side, and
a string has no more units than bytes. -/
def utf16CompareFrom : Nat → Utf16Cursor → Utf16Cursor → Int
  | 0, _, _ => 0
  | rounds + 1, a, b =>
      match utf16Next a, utf16Next b with
      | none, none => 0
      | none, some _ => -1
      | some _, none => 1
      | some (unitA, a), some (unitB, b) =>
          if unitA ≠ unitB then if unitA < unitB then -1 else 1
          else utf16CompareFrom rounds a b

/-- Negative, zero or positive, as `left` comes before, equals or follows
`right` in the key order of the canonical form. -/
def utf16Compare (left right : Bytes) : Int :=
  utf16CompareFrom (left.length + 1) ⟨left, 0, 0⟩ ⟨right, 0, 0⟩

end MaelysJson
