/-
# Options written in full

Reading arguments is lenient about how options are written.  In the plainest form the name of an
option is spelled out and its value, if it takes one, is the next argument, which does not look
like an option (`WrittenOption.Plain`).  Options in this form are what they look like whatever
stands behind them (`classifyAll_arguments_append`), and reading carries them out one after the
other (`Grammar.consume_tokens_append`).
-/
import BitPack.CommandLine.Grammar
import BitPack.Proofs.Checks
import Mathlib.Data.List.TakeWhile

namespace BitPack.CommandLine

variable {κ σ : Type}

/-! ## Classifying -/

section Classify

variable {options : List (OptionSpec κ)} {argument : String} {rest : List String}

/-- An argument that does not start with a hyphen is no option. -/
lemma classify_word (h : argument.toList.head? ≠ some '-') :
    classify options argument = .ok (.word argument) := by
  rw [classify, if_pos h]

/-- An option is recognised by one of its spellings. -/
lemma classify_spelled {o : OptionSpec κ} (h : argument.toList.head? = some '-')
    (ho : spelled? options argument.toList = some o) :
    classify options argument = .ok (.option argument o .none) := by
  rw [classify, if_neg (not_not_intro h), ho]

lemma classifyAll_cons {t : Token κ} (hne : argument ≠ "--")
    (h : classify options argument = .ok t) :
    classifyAll options (argument :: rest) = (t :: ·) <$> classifyAll options rest := by
  rw [classifyAll, if_neg hne, h]
  rfl

/-- Behind the mark there are only operands. -/
lemma classifyAll_divider :
    classifyAll options ("--" :: rest) = .ok (.divider :: rest.map .word) := by
  rw [classifyAll, if_pos rfl]

/-- Classifying fails only where it fails for a single argument. -/
lemma exists_classifyAll_append {front : List String}
    (hfront : ∀ a ∈ front, ∃ t, classify options a = .ok t)
    (hrest : ∃ ts, classifyAll options rest = .ok ts) :
    ∃ ts, classifyAll options (front ++ rest) = .ok ts := by
  induction front with
  | nil => exact hrest
  | cons a front ih =>
    obtain ⟨⟨t, ht⟩, hfront⟩ := List.forall_mem_cons.mp hfront
    obtain ⟨ts, hts⟩ := ih hfront
    rw [List.cons_append, classifyAll, ht, hts]
    split <;> exact ⟨_, rfl⟩

lemma map_argument_words (arguments : List String) :
    (arguments.map .word : List (Token κ)).map Token.argument = arguments := by
  rw [List.map_map]
  exact List.map_id arguments

lemma words_map_word (arguments : List String) :
    Token.words (arguments.map .word : List (Token κ)) = arguments := by
  induction arguments with
  | nil => rfl
  | cons a as ih => exact congrArg (a :: ·) ih

lemma argument_of_classify {t : Token κ} (h : classify options argument = .ok t) :
    t.argument = argument := by
  unfold classify at h
  dsimp only at h
  repeat' split at h
  all_goals
    cases h
    try rfl

/-- Nothing is lost when arguments are classified. -/
lemma map_argument_of_classifyAll {arguments : List String} {ts : List (Token κ)}
    (h : classifyAll options arguments = .ok ts) : ts.map Token.argument = arguments := by
  induction arguments generalizing ts with
  | nil =>
    cases h
    rfl
  | cons a rest ih =>
    rw [classifyAll] at h
    split at h
    · next ha =>
      cases h
      rw [List.map_cons, map_argument_words, ha]
      rfl
    · obtain ⟨t, ht, h⟩ := Except.bind_eq_ok_iff.mp h
      obtain ⟨ts', hts, h⟩ := Except.bind_eq_ok_iff.mp h
      cases h
      rw [List.map_cons, argument_of_classify ht, ih hts]

end Classify

/-! ## Carrying out -/

namespace Grammar

variable (g : Grammar κ σ) {o : OptionSpec κ} (name : String) (ts : List (Token κ))
  (pending : Bool) (st : σ)

/-- An option without a value is carried out. -/
lemma consume_flag (h : o.takesValue = false) :
    g.consume (.option name o .none :: ts) pending st =
      g.setOption o.key "" st >>= g.consume ts pending := by
  obtain ⟨key, names, _⟩ := o
  subst h
  rw [consume]
  rfl

/-- An option with a value is carried out with the next argument. -/
lemma consume_option (h : o.takesValue = true) (v : String) :
    g.consume (.option name o .none :: .word v :: ts) pending st =
      g.setOption o.key v st >>= g.consume ts pending := by
  obtain ⟨key, names, _⟩ := o
  subst h
  rw [consume]
  rfl

@[simp] lemma consume_nil : g.consume [] pending st = .ok (st, []) := by
  rw [consume]

/-- All that is behind the mark are operands. -/
lemma takeOperands_divider (hg : g.operands = .many) {operands : List String}
    (hne : operands ≠ []) :
    g.takeOperands (.divider :: operands.map .word) = some (operands, []) := by
  have hall : ∀ t ∈ (.divider :: operands.map .word : List (Token κ)), t.isOperand = true := by
    simp [Token.isOperand]
  have hwords : Token.words (.divider :: operands.map .word : List (Token κ)) = operands :=
    words_map_word operands
  unfold takeOperands
  rw [List.takeWhile_eq_self_iff.mpr hall, hwords, if_neg hne, hg,
    List.dropWhile_eq_nil_iff.mpr hall]

/-- Operands are taken where the first of them stands. -/
lemma consume_operands {t : Token κ} (ht : t.isOperand = true) {operands : List String}
    {rest : List (Token κ)} (h : g.takeOperands (t :: ts) = some (operands, rest)) :
    g.consume (t :: ts) true st = g.setOperands operands st >>= g.consume rest false := by
  have hat : g.operandsAt true (t :: ts) = some (operands, rest) := h
  -- an operand is neither an unknown argument nor an option, which are read in other ways
  have hunknown : ∀ a, t = .unknown a → False := by
    rintro a rfl
    cases ht
  have hoption : ∀ a o x, t = .option a o x → False := by
    rintro a o x rfl
    cases ht
  rw [consume]
  · split
    · next h' =>
      rw [hat] at h'
      cases h'
      rfl
    · next h' =>
      rw [hat] at h'
      cases h'
  · exact hunknown
  · exact hoption

end Grammar

/-! ## Options and their values -/

/-- An option with the name that is written for it and its value. -/
structure WrittenOption (κ : Type) where
  /-- The option. -/
  spec : OptionSpec κ
  /-- The name that is written. -/
  name : String
  /-- The value that follows, if the option takes one. -/
  value : Option String

namespace WrittenOption

/-- The arguments that are written. -/
def arguments (x : WrittenOption κ) : List String := x.name :: x.value.toList

/-- What the arguments are. -/
def tokens (x : WrittenOption κ) : List (Token κ) :=
  .option x.name x.spec .none :: x.value.toList.map .word

/-- The option is written in full, and its value does not look like an option. -/
structure Plain (options : List (OptionSpec κ)) (x : WrittenOption κ) : Prop where
  head?_name : x.name.toList.head? = some '-'
  name_ne : x.name ≠ "--"
  spelled?_name : spelled? options x.name.toList = some x.spec
  takesValue_eq : x.spec.takesValue = x.value.isSome
  head?_value : ∀ v ∈ x.value, v.toList.head? ≠ some '-'

/-- Carries out an option. -/
def set (g : Grammar κ σ) (st : σ) (x : WrittenOption κ) : Except Stop σ :=
  g.setOption x.spec.key (x.value.getD "") st

variable {options : List (OptionSpec κ)} {xs : List (WrittenOption κ)}

lemma ne_divider_of_head? {a : String} (h : a.toList.head? ≠ some '-') : a ≠ "--" := by
  rintro rfl
  exact h rfl

/-- More options behind the others do not change what is written in full. -/
lemma Plain.append {x : WrittenOption κ} (h : x.Plain options) (more : List (OptionSpec κ)) :
    x.Plain (options ++ more) where
  head?_name := h.head?_name
  name_ne := h.name_ne
  spelled?_name := by
    obtain ⟨p, hp, hspec⟩ := Option.map_eq_some_iff.mp h.spelled?_name
    rw [spelled?, spellings, List.flatMap_append, List.find?_append, ← spellings, hp,
      Option.some_or, Option.map_some, hspec]
  takesValue_eq := h.takesValue_eq
  head?_value := h.head?_value

/-- Options written in full are classified as such, whatever follows them. -/
lemma classifyAll_arguments_append (h : ∀ x ∈ xs, x.Plain options) (rest : List String) :
    classifyAll options (xs.flatMap arguments ++ rest) =
      (xs.flatMap tokens ++ ·) <$> classifyAll options rest := by
  induction xs with
  | nil => simp
  | cons x xs ih =>
    obtain ⟨hx, hxs⟩ := List.forall_mem_cons.mp h
    rw [List.flatMap_cons, List.append_assoc, arguments, List.cons_append,
      classifyAll_cons hx.name_ne (classify_spelled hx.head?_name hx.spelled?_name)]
    rcases hv : x.value with _ | v
    · rw [Option.toList_none, List.nil_append, ih hxs, ← comp_map]
      simp only [List.flatMap_cons, tokens, hv]
      rfl
    · -- the value does not look like an option, so it is a word
      have hhead := hx.head?_value v hv
      rw [Option.toList_some, List.singleton_append,
        classifyAll_cons (ne_divider_of_head? hhead) (classify_word hhead), ih hxs, ← comp_map,
        ← comp_map]
      simp only [List.flatMap_cons, tokens, hv]
      rfl

/-- Options written in full are carried out one after the other. -/
lemma consume_tokens_append {g : Grammar κ σ} (h : ∀ x ∈ xs, x.Plain g.options)
    (ts : List (Token κ)) (pending : Bool) (st : σ) :
    g.consume (xs.flatMap tokens ++ ts) pending st =
      xs.foldlM (set g) st >>= g.consume ts pending := by
  induction xs generalizing st with
  | nil => rfl
  | cons x xs ih =>
    obtain ⟨hx, hxs⟩ := List.forall_mem_cons.mp h
    have hvalue := hx.takesValue_eq
    rw [List.flatMap_cons, List.append_assoc, tokens, List.foldlM_cons, bind_assoc, set]
    simp only [← ih hxs]
    rcases hv : x.value with _ | v
    · rw [hv] at hvalue
      exact g.consume_flag x.name _ pending st hvalue
    · rw [hv] at hvalue
      exact g.consume_option x.name _ pending st hvalue v

/-- Options written in full are carried out in front of what follows them. -/
lemma parse_arguments_append {g : Grammar κ σ} (h : ∀ x ∈ xs, x.Plain g.options)
    {rest : List String} {ts : List (Token κ)} (hrest : classifyAll g.options rest = .ok ts)
    (st : σ) :
    g.parse (xs.flatMap arguments ++ rest) st = xs.foldlM (set g) st >>= g.consume ts true := by
  rw [Grammar.parse, classifyAll_arguments_append h, hrest]
  exact consume_tokens_append h ts true st

end WrittenOption
end BitPack.CommandLine
