/-
# Misuse of the command line

What can be wrong with the arguments of the program, and how it is told.
-/
import BitPack.Text.Quoted

namespace BitPack.CommandLine

/-- What is wrong with the arguments. -/
inductive UsageError where
  /-- An abbreviated option has several meanings. -/
  | ambiguous (argument : String) (candidates : List String)
  /-- An option is not followed by its value. -/
  | valueExpected (option : String)
  /-- A value is attached to an option that takes none. -/
  | valueIgnored (option : String) (value : String)
  /-- A value is not an integer. -/
  | notAnInteger (argument : String) (text : String)
  /-- An integer is not one of those admitted. -/
  | notAChoice (argument : String) (n : Int) (choices : List Nat)
  /-- There is no such command. -/
  | notACommand (text : String) (commands : List String)
  /-- Required arguments are absent. -/
  | missing (arguments : List String)
  /-- Arguments are left over. -/
  | unrecognized (arguments : List String)
deriving DecidableEq, Repr

/-- The text of an error. -/
def UsageError.message : UsageError → String
  | ambiguous argument candidates =>
    "ambiguous option: " ++ argument ++ " could match " ++ ", ".intercalate candidates
  | valueExpected option => "argument " ++ option ++ ": expected one argument"
  | valueIgnored option value =>
    "argument " ++ option ++ ": ignored explicit argument " ++ Text.quoted value
  | notAnInteger argument text =>
    "argument " ++ argument ++ ": invalid int value: " ++ Text.quoted text
  | notAChoice argument n choices =>
    "argument " ++ argument ++ ": invalid choice: " ++ toString n ++
      " (choose from " ++ ", ".intercalate (choices.map toString) ++ ")"
  | notACommand text commands =>
    "argument command: invalid choice: " ++ Text.quoted text ++
      " (choose from " ++ ", ".intercalate (commands.map Text.quoted) ++ ")"
  | missing arguments =>
    "the following arguments are required: " ++ ", ".intercalate arguments
  | unrecognized arguments => "unrecognized arguments: " ++ " ".intercalate arguments

/-- Why reading the arguments ends before their end. -/
inductive Stop where
  /-- Help is asked for. -/
  | help
  /-- The version is asked for. -/
  | version
  /-- The arguments of the program or of one of its commands are wrong. -/
  | misuse (command : Option String) (e : UsageError)
deriving DecidableEq, Repr

end BitPack.CommandLine
