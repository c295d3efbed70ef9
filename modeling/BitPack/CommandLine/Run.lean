/-
# Running the program

A run of the program is a function of its arguments.  Its outcome gives an exit code and the
lines of the two outputs: results go to the standard output; errors, and debug events when
they are asked for, go to the standard error output.
-/
import BitPack.Batch
import BitPack.Params.Reading
import BitPack.Text.Hex
import BitPack.CommandLine.Commands

namespace BitPack.CommandLine

/-- How a run of the program ends. -/
inductive Outcome where
  /-- Help was asked for, or nothing at all. -/
  | help
  /-- The version was asked for. -/
  | version
  /-- The arguments of the program or of one of its commands are wrong. -/
  | misuse (command : Option String) (e : UsageError)
  /-- A command succeeded with the lines it prints and the lines of its log. -/
  | finished (lines log : List String)
  /-- A command failed with the lines of its log and an error. -/
  | failed (log : List String) (e : Error)
  /-- A command was broken off by an error that it does not report. -/
  | aborted (log : List String) (e : Error)
deriving DecidableEq, Repr

/-- The name of the program. -/
def programName : String := "varbits"

/-- The name and version of the program. -/
def versionLine : String := programName ++ " 0.1.0"

/-- The name of the parameters in messages. -/
def paramsName : String := "VariableWidthParams"

/-- The help of the program. -/
def helpLines : List String := [
  "usage: " ++ programName ++ " [-h] [--version] [-v] COMMAND ...",
  "",
  "Packs integers into a stream of bits in chunks of variable number.",
  "",
  "  encode --chunk C [options] VALUE ...   encode integers",
  "  decode --chunk C [options] HEX         decode bytes in hexadecimal",
  "",
  "  --chunk C        payload bits per chunk",
  "  --width W        width of the values: 8, 16, 32 or 64 (default 64)",
  "  --signed         values are signed",
  "  --zigzag K       zigzag block exponent of signed values (default 0)",
  "  --word-bits N    size of a storage word: 8, 16, 32 or 64 (default 64)",
  "  --count N        number of values to decode (default: up to the padding)",
  "  -v, --verbose    show debug events",
  "",
  "A stream does not describe itself: decode with the options used to encode."]

/-- The value of an option as JSON.  An empty value is an empty array. -/
def OptionValue.toJson {α : Type} (number : α → Int) : OptionValue α → Json
  | given a => .int (number a)
  | empty => .array []

/-- The parameters that the options of a command stand for. -/
def Settings.params (s : Settings) (chunk : OptionValue Int) : Except Error Params :=
  Params.ofFields [
    ("width", s.width.toJson fun w => w.bits), ("chunk_length", chunk.toJson id),
    ("signed", .bool s.signed), ("zigzag_exponent", s.zigzag.toJson id)]

/-- The size of a word that the options of a command stand for. -/
def Settings.word (s : Settings) : Except Error Width :=
  match s.wordSize with
  | .given w => .ok w
  | .empty => .error .noWordSize

/-- The lines of the command `encode`: the stream, its size, its bytes. -/
def encodeLines (p : Params) (values : List Int) (wr : Writer) : List String :=
  let stream := String.ofList (wr.paddedText.toList.take wr.bitLength)
  let bits := wr.bitLength
  let most := p.maxBits * values.length
  let bytes := BitSink.byteLength wr
  ["Stream: " ++ stream,
    "Bits:   " ++ toString bits ++ " (max " ++ toString most ++ ")",
    "Bytes:  " ++ toString bytes,
    "Hex:    " ++ Text.Hex.render wr.bytes]

/-- The lines that a command prints. -/
def Command.lines : Command → Traced (List String)
  | encode s chunk values => do
    let p ← s.params chunk
    let w ← s.word
    let wr ← encodeToWriter p w values
    return encodeLines p values wr
  | decode s chunk data => do
    let p ← s.params chunk
    let w ← s.word
    let bytes ← readHex data
    let values ← match s.count with
      | none => decodeAll p w bytes
      | some (.given n) => BitPack.decode p w bytes n
      | some .empty => Traced.ofExcept (.error .noCount)
    return values.map toString
where
  /-- The bytes of a text. -/
  readHex (text : String) : Except Error Bytes :=
    (Text.Hex.parse text).mapError .notHex

/-- The lines of a finding: its field, if it has one, and its text. -/
def findingLines (e : FieldError) : List String :=
  e.field.toList ++ ["  " ++ e.fault.text ++ " [type=" ++ e.fault.kind ++ "]"]

/-- The lines that tell an error. -/
def errorLines : Error → List String
  | .invalidParams findings =>
    let s := if findings.length = 1 then "" else "s"
    ("Error: " ++ toString findings.length ++ " validation error" ++ s ++ " for " ++ paramsName)
      :: findings.flatMap findingLines
  | e => ["Error: " ++ e.message]

/-- Whether the program reports an error.  The others break it off. -/
def reported (e : Error) : Bool :=
  match e.kind with
  | .contract | .encoding | .decoding | .validation => true
  | .comparison | .arithmetic => false

/-- Carries out an invocation. -/
def Invocation.run (i : Invocation) : Outcome :=
  match i.command with
  | none => .help
  | some c =>
    let t := c.lines
    let log := if i.verbose then t.events.map Event.line else []
    match t.result with
    | .ok lines => .finished lines log
    | .error e => if reported e then .failed log e else .aborted log e

/-- The line that tells a wrong use of the program or of one of its commands. -/
def misuseLine (command : Option String) (e : UsageError) : String :=
  let name := match command with
    | none => programName
    | some c => programName ++ " " ++ c
  name ++ ": error: " ++ e.message

/-- A run of the program. -/
def run (arguments : List String) : Outcome :=
  match readArguments arguments with
  | .ok i => i.run
  | .error .help => .help
  | .error .version => .version
  | .error (.misuse command e) => .misuse command e

namespace Outcome

/-- The exit code: 0 for success, 1 for a failure and 2 for wrong arguments. -/
def exitCode : Outcome → Nat
  | help | version | finished .. => 0
  | failed .. | aborted .. => 1
  | misuse .. => 2

/-- The lines of the standard output. -/
def output : Outcome → List String
  | help => helpLines
  | version => [versionLine]
  | finished lines _ => lines
  | failed .. | aborted .. | misuse .. => []

/-- The lines of the standard error output. -/
def errors : Outcome → List String
  | help | version => []
  | finished _ log => log
  | failed log e => log ++ errorLines e
  | aborted log e => log ++ [e.message]
  | misuse command e => [misuseLine command e]

end Outcome
end BitPack.CommandLine
