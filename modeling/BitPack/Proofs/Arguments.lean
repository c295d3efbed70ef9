/-
# Commands written out

Every command can be written so that reading the arguments gives it back: all options are written
in full with their numbers in decimal, and the values of `encode` stand behind the mark `--`, as
negative ones would otherwise be taken for options.  The program passes such arguments on as they
are, since none of them is cut down to two of its own options
(`readArguments_of_readCommand`).  What is read are the settings of the parameters and what is to be
encoded or decoded (`readArguments_encodeArguments`, `readArguments_decodeArguments`).
-/
import BitPack.CommandLine.Commands
import BitPack.Params
import BitPack.Proofs.NumeralText
import BitPack.Proofs.WrittenOptions

namespace BitPack.CommandLine

open Text.Numeral (maxDigits)

/-! ## Numbers -/

/-- Numbers of up to 64 bits are within the limit of digits. -/
lemma lt_pow_maxDigits {n : Nat} (h : n ≤ 2 ^ 64) : n < 10 ^ maxDigits := by
  have hbits : 2 ^ 64 < 10 ^ 20 := by decide
  have hdigits : 10 ^ 20 ≤ 10 ^ maxDigits := Nat.pow_le_pow_right (by decide) (by decide)
  omega

lemma readInt_toString (argument : String) {n : Int} (h : n.natAbs < 10 ^ maxDigits) :
    readInt argument (toString n) = .ok n := by
  rw [readInt, Text.Numeral.toInt?_toString h]

/-- The texts of integers are read one after the other. -/
lemma mapM_readInt_toString (argument : String) {values : List Int}
    (h : ∀ v ∈ values, v.natAbs < 10 ^ maxDigits) :
    (values.map toString).mapM (readInt argument) = .ok values := by
  induction values with
  | nil => rfl
  | cons v vs ih =>
    obtain ⟨hv, hvs⟩ := List.forall_mem_cons.mp h
    rw [List.map_cons, List.mapM_cons, readInt_toString argument hv, ih hvs]
    rfl

section OptionValue

variable {α : Type} {read : String → Except UsageError α} (argument : String) {n : Nat}

lemma ofText_toString {a : α} (h : read (toString n) = .ok a) :
    OptionValue.ofText read (toString n) = .ok (.given a) := by
  have hne := WrittenOption.ne_divider_of_head? (Text.Numeral.head?_toString_nat n)
  rw [OptionValue.ofText, if_neg hne, h]
  rfl

lemma intValue_toString (h : n < 10 ^ maxDigits) :
    intValue argument (toString n) = .ok (.given n) :=
  ofText_toString (readInt_toString argument (n := n) h)

lemma widthValue_toString (w : Width) :
    widthValue argument (toString w.bits) = .ok (.given w) := by
  have hw := w.bits_le
  refine ofText_toString ?_
  have hread := readInt_toString argument (n := w.bits) (lt_pow_maxDigits (by omega))
  rw [Text.Numeral.toString_natCast] at hread
  rw [readWidth, hread]
  show (pure (w.bits : Int) >>= _ : Except UsageError Width) = _
  rw [pure_bind, Width.ofBits?_bits]
  rfl

end OptionValue

/-! ## Options of parameters -/

/-- The settings that parameters and a size of words amount to. -/
def Settings.ofParams (p : Params) (w : Width) : Settings where
  width := .given p.width
  chunk := some (.given p.chunkLength)
  signed := p.signed
  zigzag := .given p.zigzagExponent
  wordSize := .given w

/-- An option with a number. -/
def numberOption (key : CommandOption) (name : String) (n : Nat) : WrittenOption CommandOption :=
  ⟨⟨key, [name], true⟩, name, some (toString n)⟩

/-- The options for parameters and a size of words. -/
def parameterOptions (p : Params) (w : Width) : List (WrittenOption CommandOption) :=
  [numberOption .width "--width" p.width.bits, numberOption .chunk "--chunk" p.chunkLength] ++
    (if p.signed then [⟨⟨.signed, ["--signed"], false⟩, "--signed", none⟩] else []) ++
    [numberOption .zigzag "--zigzag" p.zigzagExponent,
      numberOption .wordBits "--word-bits" w.bits]

/-- The arguments of these options. -/
def parameterArguments (p : Params) (w : Width) : List String :=
  ["--width", toString p.width.bits, "--chunk", toString p.chunkLength] ++
    (if p.signed then ["--signed"] else []) ++
    ["--zigzag", toString p.zigzagExponent, "--word-bits", toString w.bits]

lemma flatMap_arguments_parameterOptions (p : Params) (w : Width) :
    (parameterOptions p w).flatMap WrittenOption.arguments = parameterArguments p w := by
  unfold parameterOptions parameterArguments
  cases p.signed <;> rfl

/-- An option with a number is written in full. -/
lemma plain_numberOption {options : List (OptionSpec CommandOption)} {key : CommandOption}
    {name : String} (hhead : name.toList.head? = some '-') (hne : name ≠ "--")
    (hspelled : spelled? options name.toList = some ⟨key, [name], true⟩) (n : Nat) :
    (numberOption key name n).Plain options where
  head?_name := hhead
  name_ne := hne
  spelled?_name := hspelled
  takesValue_eq := rfl
  head?_value := by
    rintro _ ⟨⟩
    exact Text.Numeral.head?_toString_nat n

lemma plain_parameterOptions (p : Params) (w : Width) :
    ∀ x ∈ parameterOptions p w, x.Plain sharedOptions := by
  intro x hx
  simp only [parameterOptions, List.mem_append, List.mem_cons, List.not_mem_nil, or_false] at hx
  rcases hx with ((rfl | rfl) | hx) | rfl | rfl
  · exact plain_numberOption (by decide) (by decide) rfl _
  · exact plain_numberOption (by decide) (by decide) rfl _
  · split at hx
    · obtain rfl := List.mem_singleton.mp hx
      exact ⟨by decide, by decide, rfl, rfl, by simp⟩
    · exact absurd hx List.not_mem_nil
  · exact plain_numberOption (by decide) (by decide) rfl _
  · exact plain_numberOption (by decide) (by decide) rfl _

/-! ## Settings -/

section Settings

variable {command : String} {key : CommandOption} {value : String} {s s' : Settings}

lemma Settings.set_of_assign (hkey : key ≠ .help) (h : s.assign key value = .ok s') :
    s.set command key value = .ok s' := by
  rw [Settings.set, if_neg hkey, h]
  rfl

variable (command s)

lemma Settings.set_width (w : Width) :
    s.set command .width (toString w.bits) = .ok { s with width := .given w } := by
  refine set_of_assign (by decide) ?_
  rw [assign, widthValue_toString]
  rfl

lemma Settings.set_wordBits (w : Width) :
    s.set command .wordBits (toString w.bits) = .ok { s with wordSize := .given w } := by
  refine set_of_assign (by decide) ?_
  rw [assign, widthValue_toString]
  rfl

lemma Settings.set_chunk {n : Nat} (h : n < 10 ^ maxDigits) :
    s.set command .chunk (toString n) = .ok { s with chunk := some (.given n) } := by
  refine set_of_assign (by decide) ?_
  rw [assign, intValue_toString _ h]
  rfl

lemma Settings.set_zigzag {n : Nat} (h : n < 10 ^ maxDigits) :
    s.set command .zigzag (toString n) = .ok { s with zigzag := .given n } := by
  refine set_of_assign (by decide) ?_
  rw [assign, intValue_toString _ h]
  rfl

lemma Settings.set_count {n : Nat} (h : n < 10 ^ maxDigits) :
    s.set command .count (toString n) = .ok { s with count := some (.given n) } := by
  refine set_of_assign (by decide) ?_
  rw [assign, intValue_toString _ h]
  rfl

lemma Settings.set_signed : s.set command .signed "" = .ok { s with signed := true } :=
  set_of_assign (by decide) rfl

end Settings

/-- The settings after an option of a command, which are kept beside its operands. -/
def SetsSettings {α : Type} (g : Grammar CommandOption (Settings × α)) (command : String) :
    Prop :=
  ∀ key value st, g.setOption key value st = (·, st.2) <$> st.1.set command key value

section Fold

variable {α : Type} {g : Grammar CommandOption (Settings × α)} {command : String}
  (hset : SetsSettings g command) {s s' : Settings} (a : α)
include hset

/-- An option that is set leaves the others to be set. -/
lemma foldlM_cons_of_set {x : WrittenOption CommandOption}
    (h : s.set command x.spec.key (x.value.getD "") = .ok s')
    (xs : List (WrittenOption CommandOption)) :
    (x :: xs).foldlM (WrittenOption.set g) (s, a) =
      xs.foldlM (WrittenOption.set g) (s', a) := by
  rw [List.foldlM_cons, WrittenOption.set, hset, h]
  rfl

/-- The options of parameters are read as these. -/
lemma foldlM_parameterOptions {p : Params} (hchunk : p.chunkLength < 10 ^ maxDigits) (w : Width) :
    (parameterOptions p w).foldlM (WrittenOption.set g) ({}, a) = .ok (.ofParams p w, a) := by
  have hzigzag : p.zigzagExponent < 10 ^ maxDigits := by
    have hlt := p.zigzagExponent_lt
    have hw := p.width.bits_le
    exact lt_pow_maxDigits (by omega)
  -- the options behind `--signed` are the same in both cases
  have hlast : ∀ s : Settings,
      [numberOption .zigzag "--zigzag" p.zigzagExponent,
        numberOption .wordBits "--word-bits" w.bits].foldlM (WrittenOption.set g) (s, a) =
        .ok ({ s with zigzag := .given p.zigzagExponent, wordSize := .given w }, a) := by
    intro s
    rw [foldlM_cons_of_set hset a (Settings.set_zigzag command _ hzigzag),
      foldlM_cons_of_set hset a (Settings.set_wordBits command _ w)]
    rfl
  unfold parameterOptions Settings.ofParams
  rw [List.append_assoc, List.cons_append, List.singleton_append,
    foldlM_cons_of_set hset a (Settings.set_width command _ p.width),
    foldlM_cons_of_set hset a (Settings.set_chunk command _ hchunk)]
  cases p.signed with
  | false =>
    rw [if_neg (by decide), List.nil_append, hlast]
  | true =>
    rw [if_pos rfl, List.singleton_append,
      foldlM_cons_of_set hset a (Settings.set_signed command _), hlast]

end Fold

/-! ## Commands -/

/-- The arguments that encode values. -/
def encodeArguments (p : Params) (w : Width) (values : List Int) : List String :=
  parameterArguments p w ++ "--" :: values.map toString

/-- The arguments that decode a number of values. -/
def decodeArguments (p : Params) (w : Width) (count : Nat) (text : String) : List String :=
  parameterArguments p w ++ ["--count", toString count, text]

lemma setsSettings_encodeGrammar : SetsSettings encodeGrammar "encode" := fun _ _ _ => rfl

lemma setsSettings_decodeGrammar : SetsSettings decodeGrammar "decode" := fun _ _ _ => rfl

section Commands

variable {p : Params} (hchunk : p.chunkLength < 10 ^ maxDigits) (w : Width)
include hchunk

lemma parse_encodeArguments {values : List Int} (hne : values ≠ [])
    (hvalues : ∀ v ∈ values, v.natAbs < 10 ^ maxDigits) :
    encodeGrammar.parse (encodeArguments p w values) ({}, none) =
      .ok ((.ofParams p w, some values), []) := by
  have hplain : ∀ x ∈ parameterOptions p w, x.Plain encodeGrammar.options :=
    plain_parameterOptions p w
  have hoperands : encodeGrammar.takeOperands (.divider :: (values.map toString).map .word) =
      some (values.map toString, []) := Grammar.takeOperands_divider _ rfl (by simpa using hne)
  have hset : encodeGrammar.setOperands (values.map toString) (.ofParams p w, none) =
      .ok (.ofParams p w, some values) := by
    simp only [encodeGrammar, mapM_readInt_toString "values" hvalues]
  rw [encodeArguments, ← flatMap_arguments_parameterOptions,
    WrittenOption.parse_arguments_append hplain classifyAll_divider,
    foldlM_parameterOptions setsSettings_encodeGrammar none hchunk]
  show encodeGrammar.consume _ true (.ofParams p w, none) = _
  rw [Grammar.consume_operands _ _ _ rfl hoperands, hset]
  exact Grammar.consume_nil _ _ _

lemma parse_decodeArguments {count : Nat} (hcount : count < 10 ^ maxDigits) {text : String}
    (htext : text.toList.head? ≠ some '-') :
    decodeGrammar.parse (decodeArguments p w count text) ({}, none) =
      .ok (({ Settings.ofParams p w with count := some (.given count) }, some text), []) := by
  have hplain : ∀ x ∈ parameterOptions p w ++ [numberOption .count "--count" count],
      x.Plain decodeGrammar.options := by
    rw [List.forall_mem_append]
    refine ⟨fun x hx => (plain_parameterOptions p w x hx).append _, ?_⟩
    rintro _ (_ | ⟨_, ⟨⟩⟩)
    exact plain_numberOption (by decide) (by decide) rfl count
  have harguments : decodeArguments p w count text =
      (parameterOptions p w ++ [numberOption .count "--count" count]).flatMap
        WrittenOption.arguments ++ [text] := by
    rw [List.flatMap_append, flatMap_arguments_parameterOptions, List.append_assoc]
    rfl
  have htokens : classifyAll decodeGrammar.options [text] = .ok [.word text] := by
    rw [classifyAll_cons (WrittenOption.ne_divider_of_head? htext) (classify_word htext)]
    rfl
  rw [harguments, WrittenOption.parse_arguments_append hplain htokens, List.foldlM_append,
    foldlM_parameterOptions setsSettings_decodeGrammar none hchunk]
  show [numberOption .count "--count" count].foldlM _ (Settings.ofParams p w, none) >>= _ = _
  rw [foldlM_cons_of_set setsSettings_decodeGrammar _ (Settings.set_count "decode" _ hcount)]
  show decodeGrammar.consume [.word text] true _ = _
  rw [Grammar.consume_operands _ _ _ rfl rfl]
  exact Grammar.consume_nil _ _ _

end Commands

/-! ## The program -/

/-- The program hands the arguments of a command on as they are, if none of them is mistaken for
one of its own options cut down. -/
lemma readArguments_of_readCommand {name : String} (hname : name.toList.head? ≠ some '-')
    {arguments : List String}
    (hclassify : ∃ ts, classifyAll programGrammar.options arguments = .ok ts) {c : Command}
    (h : readCommand name arguments = .ok (c, [])) :
    readArguments (name :: arguments) = .ok { command := some c } := by
  obtain ⟨ts, hts⟩ := hclassify
  -- the name does not look like an option, so it and all that follows it are operands
  have hall : classifyAll programGrammar.options (name :: arguments) = .ok (.word name :: ts) := by
    rw [classifyAll_cons (WrittenOption.ne_divider_of_head? hname) (classify_word hname), hts]
    rfl
  have hoperands : programGrammar.takeOperands (.word name :: ts) =
      some (name :: arguments, []) := by
    rw [← map_argument_of_classifyAll hts]
    rfl
  have hset : programGrammar.setOperands (name :: arguments) ({}, []) =
      .ok ({ command := some c }, []) := by
    show (readCommand name arguments >>= fun x =>
      .ok (({ command := some x.1 } : Invocation), x.2)) = _
    rw [h]
    rfl
  rw [readArguments, Grammar.parse, hall]
  dsimp only
  rw [Grammar.consume_operands _ _ _ rfl hoperands, hset]
  show (programGrammar.consume [] false ({ command := some c }, []) >>= _) = _
  rw [Grammar.consume_nil]
  rfl

/-- The options of parameters are none of the options of the program. -/
lemma exists_classify_parameterArguments (p : Params) (w : Width) :
    ∀ a ∈ parameterArguments p w, ∃ t, classify programGrammar.options a = .ok t := by
  have hnumber : ∀ n : Nat, ∃ t, classify programGrammar.options (toString n) = .ok t :=
    fun n => ⟨_, classify_word (Text.Numeral.head?_toString_nat n)⟩
  intro a ha
  simp only [parameterArguments, List.mem_append, List.mem_cons, List.not_mem_nil, or_false] at ha
  rcases ha with ((rfl | rfl | rfl | rfl) | ha) | rfl | rfl | rfl | rfl
  · exact ⟨.unknown "--width", rfl⟩
  · exact hnumber _
  · exact ⟨.unknown "--chunk", rfl⟩
  · exact hnumber _
  · split at ha
    · obtain rfl := List.mem_singleton.mp ha
      exact ⟨.unknown "--signed", rfl⟩
    · exact absurd ha List.not_mem_nil
  · exact ⟨.unknown "--zigzag", rfl⟩
  · exact hnumber _
  · exact ⟨.unknown "--word-bits", rfl⟩
  · exact hnumber _

section Program

variable {p : Params} (hchunk : p.chunkLength < 10 ^ maxDigits) (w : Width)
include hchunk

/-- Arguments that encode values are read as these with their settings. -/
lemma readArguments_encodeArguments {values : List Int} (hne : values ≠ [])
    (hvalues : ∀ v ∈ values, v.natAbs < 10 ^ maxDigits) :
    readArguments ("encode" :: encodeArguments p w values) =
      .ok { command := some (.encode (.ofParams p w) (.given p.chunkLength) values) } := by
  refine readArguments_of_readCommand (by decide) ?_ ?_
  · exact exists_classifyAll_append (exists_classify_parameterArguments p w)
      ⟨_, classifyAll_divider⟩
  · rw [readCommand, if_pos rfl, parse_encodeArguments hchunk w hne hvalues]
    rfl

example : readArguments ["encode", "--width", "16", "--chunk", "3", "--signed", "--zigzag", "2",
      "--word-bits", "64", "--", "-5", "7"] =
    .ok { command := some (.encode (.ofParams ⟨.w16, 3, true, 2, by decide, by decide⟩ .w64)
      (.given 3) [-5, 7]) } := by
  decide +kernel

/-- Arguments that decode a number of values are read as these with their settings. -/
lemma readArguments_decodeArguments {count : Nat} (hcount : count < 10 ^ maxDigits)
    {text : String} (htext : text.toList.head? ≠ some '-') :
    readArguments ("decode" :: decodeArguments p w count text) =
      .ok { command := some (.decode { Settings.ofParams p w with count := some (.given count) }
        (.given p.chunkLength) text) } := by
  refine readArguments_of_readCommand (by decide) ?_ ?_
  · refine exists_classifyAll_append (exists_classify_parameterArguments p w) ?_
    show ∃ ts, classifyAll _ (["--count", toString count, text] ++ []) = .ok ts
    refine exists_classifyAll_append ?_ ⟨[], rfl⟩
    simp only [List.forall_mem_cons]
    exact ⟨⟨.unknown "--count", rfl⟩, ⟨_, classify_word (Text.Numeral.head?_toString_nat count)⟩,
      ⟨_, classify_word htext⟩, fun _ h => absurd h List.not_mem_nil⟩
  · rw [readCommand, if_neg (by decide), if_pos rfl, parse_decodeArguments hchunk w hcount htext]
    rfl

end Program

end BitPack.CommandLine
