import MaelysJson.Code.Serialize

/-! Reading from and writing to streams. A stream is outside of the library: one to read
may give its bytes in pieces of any size and fail after them, one to write may take any
number of the bytes it is given, and a flush may fail. -/
namespace MaelysJson

/-- `pieces` is what the coming calls of `fread` find ready, `breaks` whether the reading
ends with an error, `closes` whether `fclose` will succeed; `eof` and `error` are the flags. -/
structure InputStream where
  pieces : List Bytes
  breaks : Bool
  closes : Bool
  eof : Bool
  error : Bool
  deriving DecidableEq, Repr

/-- `fread` of at most `count` single bytes. A call that gives less than it was asked for,
and leaves nothing, sets one of the flags. -/
def InputStream.fread (stream : InputStream) (count : Nat) : Bytes × InputStream :=
  let piece := stream.pieces.headD []
  let pieces :=
    if piece.length > count then piece.drop count :: stream.pieces.tail else stream.pieces.tail
  let ended := pieces.isEmpty && decide (piece.length < count)
  (piece.take count,
    { stream with
      pieces
      eof := stream.eof || (ended && !stream.breaks)
      error := stream.error || (ended && stream.breaks) })

/-- The loop of `readStream`, with `bytes` read so far. -/
def readStreamFrom (capacity : Nat) : Nat → Bytes → InputStream → Bytes × InputStream
  | 0, bytes, stream => (bytes, stream)
  | rounds + 1, bytes, stream =>
      if bytes.length < capacity && !stream.eof && !stream.error then
        let (read, stream) := stream.fread (capacity - bytes.length)
        readStreamFrom capacity rounds (bytes ++ read) stream
      else (bytes, stream)

/-- Reads at most `capacity` bytes; a short read at the end of the file is no error. -/
def readStream (stream : InputStream) (capacity : Nat) : Except Result Bytes × InputStream :=
  let (bytes, stream) := readStreamFrom capacity (stream.pieces.length + 1) [] stream
  (if stream.error then .error .errIo else .ok bytes, stream)

/-- `fopen` shows the files: a path that cannot be opened has none. The `path` is `none`
for a `NULL` pointer, and `errorGiven` as for `documentParse`. -/
def documentParseFile (fopen : Bytes → Option InputStream) (heap : Heap) (path : Option Bytes)
    (profile : Profile) (requested : Option Limits) (errorGiven : Bool) : Parsed :=
  let error : Option Error := if errorGiven then some ⟨.ok, 0, 0, 0⟩ else none
  match path, limitsResolve requested with
  | none, _ => ⟨.errArgument, none, errorSet error .errArgument none 0 0, heap⟩
  | _, .error _ => ⟨.errArgument, none, errorSet error .errArgument none 0 0, heap⟩
  | some path, .ok limits =>
      match fopen path with
      | none => ⟨.errIo, none, errorSet error .errIo none 0 0, heap⟩
      | some stream =>
          -- one extra byte tells an oversized file without reading it all
          let capacity := wrap (limits.maximumBytes + 1)
          let (granted, heap) := heap.request capacity
          if !granted then ⟨.errMemory, none, errorSet error .errMemory none 0 0, heap⟩
          else
            let (read, stream) := readStream stream capacity
            let result : Result :=
              match read with
              | .error result => result
              | .ok bytes =>
                  if !stream.closes then .errIo
                  else if bytes.length ≥ capacity then .errLimit
                  else .ok
            match read, result with
            | .ok bytes, .ok => documentParse heap (.buffer bytes) profile (some limits) errorGiven
            | _, result => ⟨result, none, errorSet error result none 0 0, heap⟩

/-- `room` is what the next `fwrite` takes at most, `flushes` whether the next `fflush`
succeeds, `accepted` all bytes taken so far and `flushed` those that a flush has passed on. -/
structure Stream where
  room : Nat
  flushes : Bool
  accepted : Bytes
  flushed : Bytes
  deriving DecidableEq, Repr

/-- `fwrite` of single bytes: how many were taken. -/
def Stream.fwrite (stream : Stream) (bytes : Bytes) : Nat × Stream :=
  (min stream.room bytes.length,
    { stream with accepted := stream.accepted ++ bytes.take stream.room })

/-- `fflush`: whether it succeeded. -/
def Stream.fflush (stream : Stream) : Bool × Stream :=
  (stream.flushes, if stream.flushes then { stream with flushed := stream.accepted } else stream)

/-- What a call with a stream leaves. -/
structure Streamed where
  result : Result
  writer : Writer
  stream : Option Stream

/-- The stream is `none` for a `NULL` pointer. -/
def writerFinishFile (w : Writer) (stream : Option Stream) : Streamed :=
  match stream with
  | none => ⟨.errArgument, w, none⟩
  | some stream =>
      match writerFinish true w with
      | .error result w => ⟨result, w, some stream⟩
      | .ok bytes w =>
          let (written, stream) := stream.fwrite bytes
          if written ≠ bytes.length then ⟨.errIo, w, some stream⟩
          else
            let (flushed, stream) := stream.fflush
            if !flushed then ⟨.errIo, w, some stream⟩ else ⟨.ok, w, some stream⟩

end MaelysJson
