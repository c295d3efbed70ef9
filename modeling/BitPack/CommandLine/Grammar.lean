/-
# Options and operands

Arguments are options, which start with a hyphen, and operands.  A long option may be cut
down as long as one meaning is left and may carry its value behind an equals sign; short options
without a value may be run together behind one hyphen, with or without an equals sign after
the first of them.  An argument that looks like
a negative number, or that has a space, is an operand unless it names an option, and the
argument `--` makes operands of all that follow.

`classify` decides for each argument what it is, `parse` then goes through the arguments once
and hands options and operands to a `Grammar`.
-/
import BitPack.CommandLine.Usage
import BitPack.Text.Digit

namespace BitPack.CommandLine

/-- An option that a key stands for. -/
structure OptionSpec (κ : Type) where
  /-- The key of the option. -/
  key : κ
  /-- The spellings of the option, short ones with one hyphen and long ones with two. -/
  names : List String
  /-- Whether the option has a value. -/
  takesValue : Bool

/-- The name of an option in messages. -/
def OptionSpec.title {κ : Type} (o : OptionSpec κ) : String := "/".intercalate o.names

/-- What is attached to the name of an option in the same argument. -/
inductive Attachment where
  /-- Nothing. -/
  | none
  /-- The text behind a long name and its equals sign, which is a value. -/
  | value (s : List Char)
  /-- The text behind a short name, which is a value or made of more short names. -/
  | tail (s : List Char)
deriving DecidableEq, Repr

/-- What an argument is. -/
inductive Token (κ : Type) where
  /-- An option and what is attached to its name. -/
  | option (argument : String) (o : OptionSpec κ) (attached : Attachment)
  /-- An argument that looks like an option but is none. -/
  | unknown (argument : String)
  /-- An operand, or the value of an option. -/
  | word (argument : String)
  /-- The mark behind which there are only operands. -/
  | divider

namespace Token

variable {κ : Type}

/-- The argument as it was written. -/
def argument : Token κ → String
  | option a _ _ | unknown a | word a => a
  | divider => "--"

/-- Whether an argument may be among operands. -/
def isOperand : Token κ → Bool
  | word _ | divider => true
  | _ => false

/-- The operands among arguments. -/
def words : List (Token κ) → List String
  | [] => []
  | word a :: ts => a :: words ts
  | _ :: ts => words ts

end Token

section Classify

variable {κ : Type}

/-- The spellings of options with their options, in order. -/
def spellings (options : List (OptionSpec κ)) : List (List Char × OptionSpec κ) :=
  options.flatMap fun o => o.names.map fun n => (n.toList, o)

/-- The option of a spelling. -/
def spelled? (options : List (OptionSpec κ)) (name : List Char) : Option (OptionSpec κ) :=
  ((spellings options).find? fun p => p.1 == name).map (·.2)

/-- What an equals sign attaches to the name in front of it. -/
def attachment (s : List Char) : Attachment :=
  match s.dropWhile (· ≠ '='), s with
  | [], _ => .none
  | _ :: v, '-' :: '-' :: _ => .value v
  | _ :: v, _ => .tail v

/-- The options that an argument may mean, with their spellings and what is attached: a
long name may be cut down, a short one may be followed by anything. -/
def meanings (options : List (OptionSpec κ)) (s : List Char) :
    List (List Char × OptionSpec κ × Attachment) :=
  match s with
  | '-' :: '-' :: _ =>
    ((spellings options).filter fun p => (s.takeWhile (· ≠ '=')).isPrefixOf p.1).map
      fun p => (p.1, p.2, attachment s)
  | a :: b :: rest =>
    ((spellings options).filter fun p => p.1 == [a, b]).map fun p => (p.1, p.2, .tail rest)
  | _ => []

/-- Whether a text is that of a negative number: digits behind a hyphen, perhaps with a
point before the last of them, and perhaps a line end. -/
def isNegativeNumber : List Char → Bool
  | '-' :: s =>
    let body := if s.getLast? = some '\n' then s.dropLast else s
    match body.dropWhile Text.isDigit with
    | [] => !body.isEmpty
    | '.' :: fraction => !fraction.isEmpty && fraction.all Text.isDigit
    | _ => false
  | _ => false

/-- What an argument other than `--` is.  A name written in full, perhaps with a value behind
an equals sign, comes before all other meanings. -/
def classify (options : List (OptionSpec κ)) (argument : String) :
    Except UsageError (Token κ) :=
  let s := argument.toList
  if s.head? ≠ some '-' then .ok (.word argument)
  else match spelled? options s, spelled? options (s.takeWhile (· ≠ '=')) with
    | some o, _ => .ok (.option argument o .none)
    | none, some o => .ok (.option argument o (attachment s))
    | none, none =>
      if s.length = 1 then .ok (.word argument)
      else match meanings options s with
        | [(_, o, attached)] => .ok (.option argument o attached)
        | [] =>
          if isNegativeNumber s ∨ ' ' ∈ s then .ok (.word argument)
          else .ok (.unknown argument)
        | ms => .error (.ambiguous argument (ms.map fun m => String.ofList m.1))

/-- What the arguments are. -/
def classifyAll (options : List (OptionSpec κ)) :
    List String → Except UsageError (List (Token κ))
  | [] => .ok []
  | a :: rest =>
    if a = "--" then .ok (.divider :: rest.map .word)
    else do
      let t ← classify options a
      let ts ← classifyAll options rest
      return t :: ts

end Classify

/-- How many operands there are. -/
inductive Operands where
  /-- One operand. -/
  | one
  /-- At least one operand, without an option between them. -/
  | many
  /-- An operand and all that follows it, options included. -/
  | rest

/-- How arguments are read: the options, the operands, and what each of them does to a state
that is built up. -/
structure Grammar (κ σ : Type) where
  /-- The command whose arguments are read, none for the program itself. -/
  command : Option String
  /-- The options. -/
  options : List (OptionSpec κ)
  /-- The operands. -/
  operands : Operands
  /-- What an option does; the value is empty for an option without one. -/
  setOption : κ → String → σ → Except Stop σ
  /-- What the operands do. -/
  setOperands : List String → σ → Except Stop σ

/-- What one argument means as options: options without a value, then an option and the
value attached to it. -/
structure Unpacked (κ : Type) where
  /-- The options without a value. -/
  flags : List (OptionSpec κ)
  /-- The last option. -/
  last : OptionSpec κ
  /-- The value attached to the last option. -/
  value : Option String

namespace Grammar

variable {κ σ : Type} (g : Grammar κ σ)

/-- Ends the reading with an error. -/
def refuse {α : Type} (e : UsageError) : Except Stop α := .error (.misuse g.command e)

/-- Refuses the text attached to an option that takes no value. -/
def refuseValue {α : Type} (o : OptionSpec κ) (s : List Char) : Except Stop α :=
  g.refuse (.valueIgnored o.title (String.ofList s))

/-- What a short option followed by a text means. -/
def unpackTail (o : OptionSpec κ) (s : List Char) : Except Stop (Unpacked κ) :=
  if o.takesValue then .ok ⟨[], o, some (String.ofList s)⟩
  else match s with
    | [] => g.refuseValue o []
    | c :: t =>
      match spelled? g.options ['-', c], t with
      | none, _ => g.refuseValue o s
      | some o', [] => .ok ⟨[o], o', none⟩
      | some o', t => do
        let u ← unpackTail o' t
        return { u with flags := o :: u.flags }

/-- What an option with its attachment means. -/
def unpack (o : OptionSpec κ) : Attachment → Except Stop (Unpacked κ)
  | .none => .ok ⟨[], o, none⟩
  | .value s =>
    if o.takesValue then .ok ⟨[], o, some (String.ofList s)⟩ else g.refuseValue o s
  | .tail s => g.unpackTail o s

/-- Carries out options without a value. -/
def setFlags : List (OptionSpec κ) → σ → Except Stop σ
  | [], st => .ok st
  | o :: os, st => do setFlags os (← g.setOption o.key "" st)

/-- The operands at the front of the arguments and the arguments behind them.  There are
none when nothing but the mark is left. -/
def takeOperands (ts : List (Token κ)) : Option (List String × List (Token κ)) :=
  if Token.words (ts.takeWhile Token.isOperand) = [] then none
  else match g.operands, ts with
    | .rest, _ => some (ts.map Token.argument, [])
    | .many, _ =>
      some (Token.words (ts.takeWhile Token.isOperand), ts.dropWhile Token.isOperand)
    | .one, .divider :: .word a :: rest | .one, .word a :: .divider :: rest
    | .one, .word a :: rest => some ([a], rest)
    | .one, _ => none

theorem length_takeOperands_lt {ts rest : List (Token κ)} {args : List String}
    (h : g.takeOperands ts = some (args, rest)) : rest.length < ts.length := by
  unfold takeOperands at h
  cases ts with
  | nil => simp [Token.words] at h
  | cons t ts =>
    split at h
    · simp at h
    · next hw =>
      split at h
      · simp only [Option.some.injEq, Prod.mk.injEq] at h
        obtain ⟨-, rfl⟩ := h
        simp
      · simp only [Option.some.injEq, Prod.mk.injEq] at h
        obtain ⟨-, rfl⟩ := h
        cases ht : t.isOperand with
        | false => simp [ht, Token.words] at hw
        | true =>
          rw [List.dropWhile_cons_of_pos ht, List.length_cons]
          exact Nat.lt_succ_of_le (List.dropWhile_sublist _).length_le
      all_goals
        simp_all only [List.cons.injEq, Option.some.injEq, Prod.mk.injEq, reduceCtorEq,
          List.length_cons]
      all_goals omega

/-- The operands at the front of the arguments unless they have been taken before. -/
def operandsAt (pending : Bool) (ts : List (Token κ)) :
    Option (List String × List (Token κ)) :=
  if pending then g.takeOperands ts else none

theorem length_operandsAt_lt {pending : Bool} {ts rest : List (Token κ)}
    {args : List String} (h : g.operandsAt pending ts = some (args, rest)) :
    rest.length < ts.length := by
  unfold operandsAt at h
  split at h
  · exact g.length_takeOperands_lt h
  · simp at h

/-- Goes through the arguments: options are carried out as they come, operands are taken
where the first of them stands, and what belongs nowhere is collected. -/
def consume (ts : List (Token κ)) (pending : Bool) (st : σ) :
    Except Stop (σ × List String) :=
  match ts with
  | [] => .ok (st, [])
  | .unknown a :: rest => do
    let (st, extras) ← consume rest pending st
    return (st, a :: extras)
  | .option _ o attached :: rest => do
    let u ← g.unpack o attached
    match u.last.takesValue, u.value, rest with
    | false, _, rest' =>
      consume rest' pending (← g.setOption u.last.key "" (← g.setFlags u.flags st))
    | true, some v, rest' =>
      consume rest' pending (← g.setOption u.last.key v (← g.setFlags u.flags st))
    | true, none, .word v :: rest' =>
      consume rest' pending (← g.setOption u.last.key v (← g.setFlags u.flags st))
    | true, none, _ => g.refuse (.valueExpected u.last.title)
  | t :: rest =>
    match _h : g.operandsAt pending (t :: rest) with
    | some (args, rest') => do consume rest' false (← g.setOperands args st)
    | none => do
      let (st, extras) ← consume rest pending st
      return (st, t.argument :: extras)
termination_by ts.length
decreasing_by
  all_goals simp_wf
  all_goals first
    | omega
    | have hlt := length_operandsAt_lt _ _h
      rw [List.length_cons] at hlt
      omega

/-- Reads arguments; returns the state and the arguments that belong nowhere. -/
def parse (arguments : List String) (st : σ) : Except Stop (σ × List String) :=
  match classifyAll g.options arguments with
  | .ok ts => g.consume ts true st
  | .error e => g.refuse e

end Grammar
end BitPack.CommandLine
