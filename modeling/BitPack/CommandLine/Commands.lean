/-
# The commands

The program has the commands `encode`, which takes integers, and `decode`, which takes bytes
in hexadecimal.  Both share the options for the parameters of the fields and for the size of
a word.
-/
import BitPack.Width
import BitPack.CommandLine.Grammar
import BitPack.Text.Numeral

namespace BitPack.CommandLine

/-- The options of the two commands. -/
inductive CommandOption where
  | help
  | width
  | chunk
  | signed
  | zigzag
  | wordBits
  | count
deriving DecidableEq, Repr

/-- The value of an option.  It is empty when the mark `--` is attached to the option. -/
inductive OptionValue (α : Type) where
  | given (a : α)
  | empty
deriving DecidableEq, Repr

/-- What the options of a command say. -/
structure Settings where
  /-- The width of the numbers. -/
  width : OptionValue Width := .given .w64
  /-- The payload bits of a chunk. -/
  chunk : Option (OptionValue Int) := none
  /-- Whether numbers are signed. -/
  signed : Bool := false
  /-- The exponent of block zigzag. -/
  zigzag : OptionValue Int := .given 0
  /-- The size of a word. -/
  wordSize : OptionValue Width := .given .w64
  /-- The number of values to decode. -/
  count : Option (OptionValue Int) := none
deriving DecidableEq, Repr

/-- A command with its arguments. -/
inductive Command where
  /-- Encodes integers. -/
  | encode (settings : Settings) (chunk : OptionValue Int) (values : List Int)
  /-- Decodes bytes in hexadecimal. -/
  | decode (settings : Settings) (chunk : OptionValue Int) (data : String)
deriving DecidableEq, Repr

/-- What the program is asked to do. -/
structure Invocation where
  /-- Whether debug events are shown. -/
  verbose : Bool := false
  /-- The command, if there is one. -/
  command : Option Command := none
deriving DecidableEq, Repr

/-! ## Values of options -/

/-- The numbers of bits that can be chosen. -/
def widthChoices : List Nat := Width.all.map Width.bits

/-- An integer. -/
def readInt (argument text : String) : Except UsageError Int :=
  match Text.Numeral.toInt? text.toList with
  | some n => .ok n
  | none => .error (.notAnInteger argument text)

/-- One of the four sizes. -/
def readWidth (argument text : String) : Except UsageError Width := do
  let n ← readInt argument text
  match Width.ofBits? n with
  | some w => return w
  | none => throw (.notAChoice argument n widthChoices)

/-- The value of an option in a text, read unless the text is the mark `--`. -/
def OptionValue.ofText {α : Type} (read : String → Except UsageError α) (text : String) :
    Except UsageError (OptionValue α) :=
  if text = "--" then .ok .empty else .given <$> read text

/-- An integer that may be left empty. -/
def intValue (argument : String) : String → Except UsageError (OptionValue Int) :=
  OptionValue.ofText (readInt argument)

/-- One of the four sizes, which may be left empty. -/
def widthValue (argument : String) : String → Except UsageError (OptionValue Width) :=
  OptionValue.ofText (readWidth argument)

/-- The settings after an option with its value; `--help` has no setting. -/
def Settings.assign (key : CommandOption) (value : String) (s : Settings) :
    Except UsageError Settings :=
  match key with
  | .width => do return { s with width := ← widthValue "--width" value }
  | .chunk => do return { s with chunk := some (← intValue "--chunk" value) }
  | .zigzag => do return { s with zigzag := ← intValue "--zigzag" value }
  | .wordBits => do return { s with wordSize := ← widthValue "--word-bits" value }
  | .count => do return { s with count := some (← intValue "--count" value) }
  | .signed => .ok { s with signed := true }
  | .help => .ok s

/-- Carries out an option of a command. -/
def Settings.set (command : String) (key : CommandOption) (value : String) (s : Settings) :
    Except Stop Settings :=
  if key = .help then .error .help
  else (s.assign key value).mapError (.misuse command)

/-! ## Grammars -/

/-- The options that both commands have. -/
def sharedOptions : List (OptionSpec CommandOption) := [
  ⟨.help, ["-h", "--help"], false⟩,
  ⟨.width, ["--width"], true⟩,
  ⟨.chunk, ["--chunk"], true⟩,
  ⟨.signed, ["--signed"], false⟩,
  ⟨.zigzag, ["--zigzag"], true⟩,
  ⟨.wordBits, ["--word-bits"], true⟩]

/-- The arguments of `encode`: options and integers. -/
def encodeGrammar : Grammar CommandOption (Settings × Option (List Int)) where
  command := some "encode"
  options := sharedOptions
  operands := .many
  setOption key value st := do return (← st.1.set "encode" key value, st.2)
  setOperands args st :=
    match args.mapM (readInt "values") with
    | .ok values => .ok (st.1, some values)
    | .error e => .error (.misuse "encode" e)

/-- The arguments of `decode`: options and one text. -/
def decodeGrammar : Grammar CommandOption (Settings × Option String) where
  command := some "decode"
  options := sharedOptions ++ [⟨.count, ["--count"], true⟩]
  operands := .one
  setOption key value st := do return (← st.1.set "decode" key value, st.2)
  setOperands args st := .ok (st.1, args.head?)

/-- The names of the required arguments that are absent. -/
def absent {α : Type} (operandName : String) (st : Settings × Option α) : List String :=
  (if st.1.chunk = none then ["--chunk"] else []) ++
    (if st.2.isNone then [operandName] else [])

/-- The command made of what its arguments say, which have to be complete. -/
def finish {α : Type} (command operandName : String)
    (make : Settings → OptionValue Int → α → Command) (st : Settings × Option α) :
    Except Stop Command :=
  match st.1.chunk, st.2 with
  | some chunk, some a => .ok (make st.1 chunk a)
  | _, _ => .error (.misuse command (.missing (absent operandName st)))

/-- Reads the arguments of a command; returns the command and what is left over. -/
def readCommand (name : String) (arguments : List String) :
    Except Stop (Command × List String) :=
  if name = "encode" then do
    let (st, extras) ← encodeGrammar.parse arguments ({}, none)
    return (← finish "encode" "values" .encode st, extras)
  else if name = "decode" then do
    let (st, extras) ← decodeGrammar.parse arguments ({}, none)
    return (← finish "decode" "data" .decode st, extras)
  else .error (.misuse none (.notACommand name ["encode", "decode"]))

/-- The options of the program. -/
inductive ProgramOption where
  | help
  | version
  | verbose
deriving DecidableEq, Repr

/-- The arguments of the program: its options, then a command with its own arguments.  What
the command leaves over is kept beside. -/
def programGrammar : Grammar ProgramOption (Invocation × List String) where
  command := none
  options := [
    ⟨.help, ["-h", "--help"], false⟩,
    ⟨.version, ["--version"], false⟩,
    ⟨.verbose, ["-v", "--verbose"], false⟩]
  operands := .rest
  setOption key _ st :=
    match key with
    | .help => .error .help
    | .version => .error .version
    | .verbose => .ok ({ st.1 with verbose := true }, st.2)
  setOperands args st :=
    match args with
    | [] => .ok st
    | name :: rest => do
      let (command, extras) ← readCommand name rest
      return ({ st.1 with command := some command }, extras)

/-- Reads the arguments of the program. -/
def readArguments (arguments : List String) : Except Stop Invocation := do
  let ((invocation, inner), outer) ← programGrammar.parse arguments ({}, [])
  match outer ++ inner with
  | [] => return invocation
  | extras => throw (.misuse none (.unrecognized extras))

end BitPack.CommandLine
