import MaelysJson.Code.Canonical
import MaelysJson.Code.Messages
import MaelysJson.Code.Pointer
import MaelysJson.Code.Stdio

/-! The tool `maelys-json-canon`, which canonicalizes, checks or reformats one document
from its standard input to its standard output. What it prints for its user goes to the
standard error stream, whose own failures it does not look at. -/
namespace MaelysJson

/-- `INPUT_LIMIT` -/
def inputLimit : Nat := 16 * 1024 * 1024

/-- The loop of `readStdin`, with a buffer of this capacity that holds `bytes`. -/
def readStdinFrom : Nat → Heap → Nat → Bytes → InputStream → Option Bytes × Heap
  | 0, heap, _, bytes, _ => (some bytes, heap)
  | rounds + 1, heap, capacity, bytes, stdin =>
      let (read, stdin) := stdin.fread (capacity - bytes.length)
      let bytes := bytes ++ read
      if bytes.length < capacity ∨ capacity ≥ inputLimit then (some bytes, heap)
      else
        let capacity := capacity * 2
        let (granted, heap) := heap.request capacity
        if granted then readStdinFrom rounds heap capacity bytes stdin else (none, heap)

/-- The capacity doubles from 65536 to the limit, so the loop has ended after nine rounds. -/
def readStdin (heap : Heap) (stdin : InputStream) : Option Bytes × Heap :=
  let (granted, heap) := heap.request 65536
  if granted then readStdinFrom 9 heap 65536 [] stdin else (none, heap)

/-- What `printEscaped` prints: the text as a literal in ASCII, by the writer of the library. -/
def printEscaped (heap : Heap) (text : Bytes) : Bytes :=
  let written : Option Bytes :=
    match writerCreate heap .rfc8259 none asciiFlag with
    | (.error _, _) => none
    | (.ok w, _) =>
        match (writerStringCstr (some text) >>= fun _ => writerFinish true) w with
        | .ok bytes _ => some bytes
        | .error _ _ => none
  written.getD (ascii "(pointer not printable)")

structure CanonOptions where
  profile : Profile
  flags : UInt32
  check : Bool
  deriving DecidableEq, Repr

/-- The loop over the arguments after the name of the program. -/
def parseArguments : List Bytes → CanonOptions → Option CanonOptions
  | [], options => some options
  | argument :: arguments, options =>
      if argument = ascii "--contract" then
        parseArguments arguments { options with profile := .contractAscii }
      else if argument = ascii "--indent" then
        parseArguments arguments { options with flags := options.flags ||| indentFlag }
      else if argument = ascii "--ascii" then
        parseArguments arguments { options with flags := options.flags ||| asciiFlag }
      else if argument = ascii "--newline" then
        parseArguments arguments { options with flags := options.flags ||| finalNewlineFlag }
      else if argument = ascii "--check" then
        parseArguments arguments { options with check := true }
      else none

def canonUsage : Bytes :=
  ascii "usage: maelys-json-canon [--contract] [--indent] [--ascii] [--newline] [--check]\n"

def canonLimits : Limits := ⟨inputLimit, maximumDepthCeiling, inputLimit⟩

/-- What a run of the tool leaves: its exit code, and what its streams have received. -/
structure CanonRun where
  status : Nat
  stdout : Stream
  stderr : Bytes

/-- The copy of the document to `stdout`. -/
def canonCopy (heap : Heap) (options : CanonOptions) (document : Document) (stdout : Stream) :
    Result × Stream :=
  match writerCreate heap options.profile (some canonLimits) options.flags with
  | (.error result, _) => (result, stdout)
  | (.ok w, _) =>
      match writerValue (some document) 0 w with
      | .error result _ => (result, stdout)
      | .ok _ w =>
          let streamed := writerFinishFile w (some stdout)
          (streamed.result, streamed.stream.getD stdout)

/-- The tool after its arguments. `message` and `pointer` are the arrays of `main` as the
stack holds them, of 128 and 256 bytes. -/
def canonRun (heap : Heap) (options : CanonOptions) (stdin : InputStream) (stdout : Stream)
    (message pointer : Bytes) : CanonRun :=
  match readStdin heap stdin with
  | (none, _) => ⟨2, stdout, ascii "out of memory\n"⟩
  | (some input, heap) =>
      let parsed := documentParse heap (.buffer input) options.profile (some canonLimits) true
      match parsed.result, parsed.document with
      | .ok, some document =>
          if options.check then
            match documentIsCanonical document (options.flags &&& finalNewlineFlag) with
            | .error _ => ⟨2, stdout, []⟩
            | .ok canonical => ⟨if canonical then 0 else 1, stdout, []⟩
          else
            let (result, stdout) := canonCopy parsed.heap options document stdout
            if result = .ok then ⟨0, stdout, []⟩
            else
              ⟨if result = .errNotInteger ∨ result = .errRange then 3 else 2, stdout,
                resultString result ++ ascii "\n"⟩
      | _, _ =>
          let (_, message) := errorFormat parsed.error (some message) 128
          let pointed := errorPointer parsed.heap (.buffer input) parsed.error (some pointer) 256
          ⟨2, stdout,
            cString (message.getD []) ++ ascii " at " ++
              printEscaped pointed.heap (cString (pointed.buffer.getD [])) ++ ascii "\n"⟩

/-- `main`, with the arguments after the name of the program. -/
def canonMain (heap : Heap) (arguments : List Bytes) (stdin : InputStream) (stdout : Stream)
    (message pointer : Bytes) : CanonRun :=
  match parseArguments arguments ⟨.rfc8259, 0, false⟩ with
  | none => ⟨4, stdout, canonUsage⟩
  | some options => canonRun heap options stdin stdout message pointer

end MaelysJson
