import MaelysJson.Json.Tree

/-! The RFC 8259 grammar over bytes, each rule with the value it denotes. A
string literal denotes the UTF-8 bytes of its decoded text; the profile decides
which literals there are. -/
namespace MaelysJson.Grammar

/-- `ws = *( %x20 / %x09 / %x0A / %x0D )` -/
def Blank (bytes : Bytes) : Prop :=
  ∀ byte ∈ bytes, byte = 0x20 ∨ byte = 0x09 ∨ byte = 0x0a ∨ byte = 0x0d

/-! ### Numbers -/

def Digit (byte : UInt8) : Prop := 0x30 ≤ byte ∧ byte ≤ 0x39

/-- `1*DIGIT` -/
def Digits (bytes : Bytes) : Prop := bytes ≠ [] ∧ ∀ byte ∈ bytes, Digit byte

/-- `int = zero / ( digit1-9 *DIGIT )` -/
def IntegerPart (bytes : Bytes) : Prop :=
  bytes = [0x30] ∨ (Digits bytes ∧ bytes.head? ≠ some 0x30)

/-- `[ frac ]`, where `frac = decimal-point 1*DIGIT` -/
def FractionPart (bytes : Bytes) : Prop :=
  bytes = [] ∨ ∃ digits, Digits digits ∧ bytes = 0x2e :: digits

/-- `[ exp ]`, where `exp = e [ minus / plus ] 1*DIGIT` -/
def ExponentPart (bytes : Bytes) : Prop :=
  bytes = [] ∨ ∃ marker sign digits, (marker = 0x65 ∨ marker = 0x45) ∧
    (sign = [] ∨ sign = [0x2b] ∨ sign = [0x2d]) ∧ Digits digits ∧ bytes = marker :: sign ++ digits

/-- The parts of a number, kept apart. -/
structure NumberParts where
  minus : Bytes
  integer : Bytes
  fraction : Bytes
  exponent : Bytes

def NumberParts.bytes (parts : NumberParts) : Bytes :=
  parts.minus ++ parts.integer ++ parts.fraction ++ parts.exponent

structure NumberParts.WellFormed (parts : NumberParts) : Prop where
  minus : parts.minus = [] ∨ parts.minus = [0x2d]
  integer : IntegerPart parts.integer
  fraction : FractionPart parts.fraction
  exponent : ExponentPart parts.exponent

/-- `number = [ minus ] int [ frac ] [ exp ]` -/
def Number (bytes : Bytes) : Prop :=
  ∃ parts : NumberParts, parts.WellFormed ∧ bytes = parts.bytes

/-! ### Strings -/

/-- The value of one `HEXDIG`, of either case. -/
def HexDigit (byte : UInt8) (value : Nat) : Prop :=
  (0x30 ≤ byte.toNat ∧ byte.toNat ≤ 0x39 ∧ value = byte.toNat - 0x30) ∨
  (0x61 ≤ byte.toNat ∧ byte.toNat ≤ 0x66 ∧ value = byte.toNat - 0x61 + 10) ∨
  (0x41 ≤ byte.toNat ∧ byte.toNat ≤ 0x46 ∧ value = byte.toNat - 0x41 + 10)

/-- `4HEXDIG` -/
def CodeUnit (bytes : Bytes) (unit : Nat) : Prop :=
  ∃ a b c d p q r s, bytes = [a, b, c, d] ∧ HexDigit a p ∧ HexDigit b q ∧ HexDigit c r ∧
    HexDigit d s ∧ unit = ((p * 16 + q) * 16 + r) * 16 + s

/-- The eight two-byte escapes and the bytes they denote. -/
def simpleEscapes : List (UInt8 × UInt8) :=
  [(0x22, 0x22), (0x5c, 0x5c), (0x2f, 0x2f), (0x62, 0x08), (0x66, 0x0c), (0x6e, 0x0a), (0x72, 0x0d),
    (0x74, 0x09)]

/-- One `char` of a string: its bytes and the UTF-8 bytes it denotes. `Raw`
tells which scalar values may stand for themselves. U+0000 has no spelling and
no surrogate stands alone. -/
inductive StringUnit (Raw : Char → Prop) : Bytes → Bytes → Prop where
  | scalar (c : Char) (raw : Raw c) :
      StringUnit Raw (String.utf8EncodeChar c) (String.utf8EncodeChar c)
  | simple {escape byte : UInt8} (escapes : (escape, byte) ∈ simpleEscapes) :
      StringUnit Raw [0x5c, escape] [byte]
  | point (c : Char) {digits : Bytes} (unit : CodeUnit digits c.val.toNat)
      (nonzero : c.val.toNat ≠ 0) :
      StringUnit Raw ([0x5c, 0x75] ++ digits) (String.utf8EncodeChar c)
  | pair (c : Char) {high low : Nat} {highDigits lowDigits : Bytes}
      (highUnit : CodeUnit highDigits high) (lowUnit : CodeUnit lowDigits low)
      (highRange : 0xd800 ≤ high ∧ high ≤ 0xdbff) (lowRange : 0xdc00 ≤ low ∧ low ≤ 0xdfff)
      (value : c.val.toNat = 0x10000 + (high - 0xd800) * 0x400 + (low - 0xdc00)) :
      StringUnit Raw ([0x5c, 0x75] ++ highDigits ++ [0x5c, 0x75] ++ lowDigits)
        (String.utf8EncodeChar c)

/-- `*char` -/
inductive StringUnits (Raw : Char → Prop) : Bytes → Bytes → Prop where
  | nil : StringUnits Raw [] []
  | cons {unit decoded rest text : Bytes} (head : StringUnit Raw unit decoded)
      (tail : StringUnits Raw rest text) : StringUnits Raw (unit ++ rest) (decoded ++ text)

/-- `unescaped = %x20-21 / %x23-5B / %x5D-10FFFF` -/
def Unescaped (c : Char) : Prop := 0x20 ≤ c.val.toNat ∧ c.val.toNat ≠ 0x22 ∧ c.val.toNat ≠ 0x5c

/-- Printable ASCII without quotation mark and reverse solidus. -/
def PlainAscii (byte : UInt8) : Prop :=
  0x20 ≤ byte ∧ byte ≤ 0x7e ∧ byte ≠ 0x22 ∧ byte ≠ 0x5c

/-- The content of a string literal, between its quotation marks, and the text
it denotes. -/
def Content (profile : Profile) (content text : Bytes) : Prop :=
  if profile = .contractAscii then (∀ byte ∈ content, PlainAscii byte) ∧ text = content
  else StringUnits Unescaped content text

/-! ### Values -/

def quoted (content : Bytes) : Bytes := [0x22] ++ content ++ [0x22]

mutual

inductive Value (profile : Profile) : Bytes → Json → Prop where
  | null : Value profile [0x6e, 0x75, 0x6c, 0x6c] .null
  | true : Value profile [0x74, 0x72, 0x75, 0x65] (.boolean Bool.true)
  | false : Value profile [0x66, 0x61, 0x6c, 0x73, 0x65] (.boolean Bool.false)
  | number {lexeme : Bytes} (hNumber : Number lexeme) : Value profile lexeme (.number lexeme)
  | string {content text : Bytes} (hContent : Content profile content text) :
      Value profile (quoted content) (.string text)
  | emptyObject {gap : Bytes} (hGap : Blank gap) :
      Value profile ([0x7b] ++ gap ++ [0x7d]) (.object [])
  | object {before body after : Bytes} {members : List (Bytes × Json)} (hBefore : Blank before)
      (hBody : Members profile body members) (hAfter : Blank after) :
      Value profile ([0x7b] ++ before ++ body ++ after ++ [0x7d]) (.object members)
  | emptyArray {gap : Bytes} (hGap : Blank gap) :
      Value profile ([0x5b] ++ gap ++ [0x5d]) (.array [])
  | array {before body after : Bytes} {elements : List Json} (hBefore : Blank before)
      (hBody : Elements profile body elements) (hAfter : Blank after) :
      Value profile ([0x5b] ++ before ++ body ++ after ++ [0x5d]) (.array elements)

/-- `member *( value-separator member )`, where `member = string name-separator value` -/
inductive Members (profile : Profile) : Bytes → List (Bytes × Json) → Prop where
  | last {content key a b bytes : Bytes} {value : Json} (hContent : Content profile content key)
      (hA : Blank a) (hB : Blank b) (hValue : Value profile bytes value) :
      Members profile (quoted content ++ a ++ [0x3a] ++ b ++ bytes) [(key, value)]
  | more {content key a b bytes c d rest : Bytes} {value : Json} {members : List (Bytes × Json)}
      (hContent : Content profile content key) (hA : Blank a) (hB : Blank b)
      (hValue : Value profile bytes value) (hC : Blank c) (hD : Blank d)
      (hRest : Members profile rest members) :
      Members profile (quoted content ++ a ++ [0x3a] ++ b ++ bytes ++ c ++ [0x2c] ++ d ++ rest)
        ((key, value) :: members)

/-- `value *( value-separator value )` -/
inductive Elements (profile : Profile) : Bytes → List Json → Prop where
  | last {bytes : Bytes} {value : Json} (hValue : Value profile bytes value) :
      Elements profile bytes [value]
  | more {bytes c d rest : Bytes} {value : Json} {elements : List Json}
      (hValue : Value profile bytes value) (hC : Blank c) (hD : Blank d)
      (hRest : Elements profile rest elements) :
      Elements profile (bytes ++ c ++ [0x2c] ++ d ++ rest) (value :: elements)

end

/-- `JSON-text = ws value ws` -/
def Text (profile : Profile) (bytes : Bytes) (t : Json) : Prop :=
  ∃ before body after, Blank before ∧ Value profile body t ∧ Blank after ∧
    bytes = before ++ body ++ after

end MaelysJson.Grammar
