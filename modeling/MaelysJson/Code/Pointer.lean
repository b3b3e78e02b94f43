import MaelysJson.Code.Parser

/-! The JSON Pointer of the value under construction at a byte offset, by a
structural rescan of the input. The scan does not validate: it tracks containers,
member keys and element indices only, and stops at the offset. -/
namespace MaelysJson

/-- One open container; `inValue` tells that the colon of the key was seen. -/
structure Frame where
  isObject : Bool
  index : Nat
  keyStart : Nat
  keyEnd : Nat
  hasKey : Bool
  inValue : Bool
  deriving DecidableEq, Repr

def Frame.opening (isObject : Bool) : Frame := ⟨isObject, 0, 0, 0, false, false⟩

/-- `buffer` is the memory of the caller, `none` for `NULL`. -/
structure Emitter where
  buffer : Option Bytes
  capacity : Nat
  length : Nat
  deriving DecidableEq, Repr

/-- `NULL` comes with no capacity. -/
def Emitter.init (buffer : Option Bytes) (capacity : Nat) : Emitter :=
  { buffer, capacity := if buffer.isSome then capacity else 0, length := 0 }

def emitByte (emitter : Emitter) (byte : UInt8) : Emitter :=
  { emitter with
    buffer :=
      if emitter.length + 1 < emitter.capacity then
        emitter.buffer.map fun buffer => buffer.set emitter.length byte
      else emitter.buffer
    length := emitter.length + 1 }

def emitFinish (emitter : Emitter) : Emitter :=
  if emitter.capacity ≠ 0 then
    let stop := if emitter.length < emitter.capacity then emitter.length else emitter.capacity - 1
    { emitter with buffer := emitter.buffer.map fun buffer => buffer.set stop 0 }
  else emitter

/-- The body of the loop in `emitToken`. -/
def emitEscaped (emitter : Emitter) (byte : UInt8) : Emitter :=
  if byte = 0x7e then emitByte (emitByte emitter 0x7e) 0x30
  else if byte = 0x2f then emitByte (emitByte emitter 0x7e) 0x31
  else emitByte emitter byte

/-- A solidus, then the key with the escapes of a pointer. -/
def emitToken (emitter : Emitter) (bytes : Bytes) : Emitter :=
  bytes.foldl emitEscaped (emitByte emitter 0x2f)

/-- The first loop of `emitIndex`: decimal digits, the lowest first. -/
def indexDigits : Nat → Nat → Bytes
  | 0, _ => []
  | rounds + 1, index =>
      .ofNat (0x30 + index % 10) :: if index / 10 = 0 then [] else indexDigits rounds (index / 10)

def emitIndex (emitter : Emitter) (index : Nat) : Emitter :=
  (indexDigits (index + 1) index).reverse.foldl emitByte (emitByte emitter 0x2f)

/-- The decoded key, or its raw bytes when it cannot be decoded or no memory is there. -/
def emitKey (heap : Heap) (emitter : Emitter) (bytes : Bytes) (frame : Frame) : Emitter × Heap :=
  let size := frame.keyEnd - frame.keyStart
  let raw := (bytes.drop frame.keyStart).take size
  let (granted, heap) := heap.request (size + 1)
  let token := if granted then
      match decodeString raw .rfc8259 with
      | .ok decoded => decoded
      | .error _ => raw
    else raw
  (emitToken emitter token, heap)

/-- The delimiters of the scan; the colon is not one of the parser's. -/
def isPointerDelimiter (byte : UInt8) : Bool :=
  byte == 0x2c || byte == 0x7d || byte == 0x5d || byte == 0x3a || isSpace byte

/-- The loop of `skipString`. -/
def skipStringFrom (bytes : Bytes) : Nat → Nat → Nat
  | 0, offset => offset
  | rounds + 1, offset =>
      if offset < bytes.length ∧ byteAt bytes offset ≠ 0x22 then
        skipStringFrom bytes rounds (offset + if byteAt bytes offset = 0x5c then 2 else 1)
      else offset

/-- The offset just past the closing quotation mark of the literal that opens at
`offset`, or the end of the input. -/
def skipString (bytes : Bytes) (offset : Nat) : Nat :=
  let stop := skipStringFrom bytes (bytes.length + 1) (offset + 1)
  if stop < bytes.length then stop + 1 else bytes.length

/-- The position of the scan and its open containers, the innermost first. -/
structure Scanner where
  offset : Nat
  frames : List Frame
  deriving DecidableEq, Repr

def Scanner.updateTop (frames : List Frame) (update : Frame → Frame) : List Frame :=
  match frames with
  | [] => []
  | top :: below => update top :: below

def Frame.comma (frame : Frame) : Frame :=
  if frame.isObject then { frame with hasKey := false, inValue := false }
  else { frame with index := frame.index + 1 }

def Frame.colon (frame : Frame) : Frame :=
  if frame.isObject && frame.hasKey then { frame with inValue := true } else frame

/-- A literal from `opening` to `stop` is a key where one can stand. -/
def Frame.literal (bytes : Bytes) (opening stop : Nat) (frame : Frame) : Frame :=
  if frame.isObject && !frame.inValue then
    { frame with
      keyStart := opening + 1
      keyEnd :=
        if stop > opening + 1 ∧ byteAt bytes (stop - 1) = 0x22 ∧ stop - 1 > opening then stop - 1
        else stop
      hasKey := true }
  else frame

/-- The body of the loop of `scan`. -/
def scanStep (bytes : Bytes) (s : Scanner) : Scanner :=
  let byte := byteAt bytes s.offset
  if isSpace byte then { s with offset := s.offset + 1 }
  else if byte = 0x7b ∨ byte = 0x5b then
    { offset := s.offset + 1
      frames :=
        if s.frames.length < maximumDepthCeiling then .opening (byte = 0x7b) :: s.frames
        else s.frames }
  else if byte = 0x7d ∨ byte = 0x5d then { offset := s.offset + 1, frames := s.frames.tail }
  else if byte = 0x2c then
    { offset := s.offset + 1, frames := Scanner.updateTop s.frames Frame.comma }
  else if byte = 0x3a then
    { offset := s.offset + 1, frames := Scanner.updateTop s.frames Frame.colon }
  else if byte = 0x22 then
    let stop := skipString bytes s.offset
    { offset := stop, frames := Scanner.updateTop s.frames (Frame.literal bytes s.offset stop) }
  else { s with offset := scanWhile (fun byte => !isPointerDelimiter byte) bytes s.offset }

/-- Every round advances. -/
def scanFrom (bytes : Bytes) (limit : Nat) : Nat → Scanner → Scanner
  | 0, s => s
  | rounds + 1, s => if s.offset < limit then scanFrom bytes limit rounds (scanStep bytes s) else s

/-- The open containers at `limit`, the outermost first. -/
def scan (bytes : Bytes) (limit : Nat) : List Frame :=
  (scanFrom bytes limit (limit + 1) ⟨0, []⟩).frames.reverse

/-- The loop over the frames; it ends inside a key or before its colon. -/
def emitFrames (bytes : Bytes) : List Frame → Emitter → Heap → Emitter × Heap
  | [], emitter, heap => (emitter, heap)
  | frame :: frames, emitter, heap =>
      if frame.isObject then
        if !frame.hasKey || !frame.inValue then (emitter, heap)
        else
          let (emitter, heap) := emitKey heap emitter bytes frame
          emitFrames bytes frames emitter heap
      else emitFrames bytes frames (emitIndex emitter frame.index) heap

def sizeOfFrame : Nat := 40

/-- What a call of `errorPointer` leaves to its caller. -/
structure Pointed where
  length : Nat
  buffer : Option Bytes
  heap : Heap

def errorPointer (heap : Heap) (input : CText) (error : Option Error) (buffer : Option Bytes)
    (capacity : Nat) : Pointed :=
  let emitter := Emitter.init buffer capacity
  match error, input with
  | some error, .buffer bytes =>
      if bytes.length = 0 then ⟨0, (emitFinish emitter).buffer, heap⟩
      else
        let limit := if error.offset < bytes.length then error.offset else bytes.length
        let (granted, heap) := heap.request (maximumDepthCeiling * sizeOfFrame)
        if granted then
          let (emitter, heap) := emitFrames bytes (scan bytes limit) emitter heap
          ⟨emitter.length, (emitFinish emitter).buffer, heap⟩
        else ⟨0, (emitFinish emitter).buffer, heap⟩
  | _, _ => ⟨0, (emitFinish emitter).buffer, heap⟩

end MaelysJson
