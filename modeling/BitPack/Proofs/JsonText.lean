/-
# Values read back from their JSON text

A JSON value is printed without blanks, and every part of it shows where it ends: a text by its
closing quote, an array and an object by their brackets, a number by the first character that is
none of its own.  So a value is read back whatever follows it, unless what follows goes on with a
number.  The limits of the reader are the only reason not to read it: the numbers have few enough
digits and the value is not nested too deep just when `fits` says so, and then the whole text is
read back (`parse?_render`).
-/
import BitPack.Json.Parser
import BitPack.Proofs.NumeralText
import Mathlib.Tactic.SplitIfs

namespace BitPack.Json

open Text

/-! ## Values within the limits of a reader -/

/-- The digits of a number are within the limits. -/
def digitsFit (limits : Limits) (n : Int) : Bool :=
  (Nat.toDigits 10 n.natAbs).length ≤ limits.digits

mutual

/-- A value inside `depth` arrays and objects is within the limits. -/
def fits (limits : Limits) (depth : Nat) : Json → Bool
  | null | bool _ | nonFinite | text _ => true
  | int n => digitsFit limits n
  | decimal d => digitsFit limits d.mantissa
  | array js => js.isEmpty || (depth < limits.depth && itemsFit limits (depth + 1) js)
  | object ms => ms.isEmpty || (depth < limits.depth && membersFit limits (depth + 1) ms)

/-- The items of an array are within the limits. -/
def itemsFit (limits : Limits) (depth : Nat) : List Json → Bool
  | [] => true
  | j :: js => fits limits depth j && itemsFit limits depth js

/-- The members of an object are within the limits. -/
def membersFit (limits : Limits) (depth : Nat) : List (String × Json) → Bool
  | [] => true
  | (_, j) :: ms => fits limits depth j && membersFit limits depth ms

end

/-- A text that does not go on with a number in front of it. -/
def Stops (s : List Char) : Prop :=
  ∀ c, s.head? = some c → c.isDigit = false ∧ c ≠ '.' ∧ c ≠ 'e' ∧ c ≠ 'E'

lemma stops_nil : Stops [] := by
  rintro c ⟨⟩

lemma stops_cons {c : Char} (s : List Char)
    (h : c.isDigit = false ∧ c ≠ '.' ∧ c ≠ 'e' ∧ c ≠ 'E') : Stops (c :: s) := by
  rintro d hd
  cases hd
  exact h

lemma stops_comma (s : List Char) : Stops (',' :: s) := stops_cons s (by decide)

lemma stops_bracket (s : List Char) : Stops (']' :: s) := stops_cons s (by decide)

lemma stops_brace (s : List Char) : Stops ('\x7d' :: s) := stops_cons s (by decide)

/-! ## Texts -/

lemma hexValue?_hexDigit_mod (n : Nat) : hexValue? (hexDigit n) = some (n % 16) := by
  have h := hexValue?_hexDigit (Nat.mod_lt n (by decide : 0 < 16))
  rwa [hexDigit, Nat.mod_mod] at h

/-- Four hexadecimal digits are read back. -/
lemma unit?_hexDigit {n : Nat} (h : n < 2 ^ 16) :
    unit? (hexDigit (n / 16 / 16 / 16)) (hexDigit (n / 16 / 16)) (hexDigit (n / 16))
      (hexDigit n) = some n := by
  simp only [unit?, hexValue?_hexDigit_mod, Option.bind_eq_bind, Option.bind_some, Option.pure_def]
  rw [Option.some.injEq]
  omega

/-- A character that needs no escape is taken as it is. -/
lemma chars_cons {c : Char} (hquote : c ≠ '"') (hslash : c ≠ '\\') (hc : ¬c.toNat < 0x20)
    (s : List Char) : chars (c :: s) = (chars s).map fun r => (c :: r.1, r.2) := by
  rw [chars.eq_def]
  split
  · next heq => cases heq
  · next heq =>
    cases heq
    exact absurd rfl hquote
  · next heq =>
    cases heq
    exact absurd rfl hslash
  · next heq =>
    cases heq
    exact absurd rfl hslash
  · next heq =>
    cases heq
    rw [if_neg hc]

/-- A character is read back from its escaped form. -/
lemma chars_escapeChar_append (c : Char) (s : List Char) :
    chars (escapeChar c ++ s) = (chars s).map fun r => (c :: r.1, r.2) := by
  unfold escapeChar
  split_ifs with hescape hcontrol
  · rcases hescape with rfl | rfl
    · simp [chars, shortEscape?]
    · simp [chars, shortEscape?]
  · -- a control character is a unit of its own
    have hunit := unit?_hexDigit (Nat.lt_trans hcontrol (by decide))
    simp only [hexDigits, List.nil_append, List.cons_append, chars, hunit]
    rw [if_neg (by omega), if_neg (by omega), Char.ofNat_toNat]
  · obtain ⟨hquote, hslash⟩ := not_or.mp hescape
    rw [List.singleton_append, chars_cons hquote hslash hcontrol]

/-- A text between quotes in front of more characters. -/
lemma renderText_append (t : String) (s : List Char) :
    renderText t ++ s = '"' :: (t.toList.flatMap escapeChar ++ '"' :: s) := by
  rw [renderText, List.cons_append, List.cons_append, List.append_assoc, List.singleton_append]

/-- A text is read back up to its closing quote. -/
lemma chars_flatMap_escapeChar_append (cs s : List Char) :
    chars (cs.flatMap escapeChar ++ '"' :: s) = some (cs, s) := by
  induction cs with
  | nil => simp [chars]
  | cons c cs ih =>
    rw [List.flatMap_cons, List.append_assoc, chars_escapeChar_append, ih]
    rfl

/-! ## Numbers -/

section Numbers

variable {limits : Limits} {s : List Char}

lemma spanDigits_append {ds : List Char} (hds : ∀ c ∈ ds, c.isDigit)
    (hs : ∀ c, s.head? = some c → c.isDigit = false) : spanDigits (ds ++ s) = (ds, s) := by
  rw [spanDigits, List.takeWhile_append_of_pos hds, List.dropWhile_append_of_pos hds]
  cases s with
  | nil => simp
  | cons c s => simp [hs c rfl]

lemma spanDigits_toDigits_append (n : Nat) (hs : ∀ c, s.head? = some c → c.isDigit = false) :
    spanDigits (Nat.toDigits 10 n ++ s) = (Nat.toDigits 10 n, s) :=
  spanDigits_append (fun _ => Numeral.isDigit_of_mem_toDigits) hs

lemma ofDigits_toDigits (n : Nat) : ofDigits (Nat.toDigits 10 n) = n :=
  Nat.ofDigitChars_ten_toDigits

/-- Only zero begins with the digit zero. -/
lemma head?_toDigits {n : Nat} (h : n ≠ 0) : (Nat.toDigits 10 n).head? ≠ some '0' := by
  induction n using Nat.strongRecOn with
  | ind n ih =>
    rw [Nat.toDigits_eq_if (by decide)]
    split_ifs with hn
    · simpa using h
    · intro hhead
      refine ih (n / 10) (by omega) (by omega) ?_
      rwa [List.head?_append, Option.or_of_isSome (by simp [Nat.toDigits_ne_nil])] at hhead

lemma toDigits_no_leading_zero (n : Nat) :
    ¬((Nat.toDigits 10 n).head? = some '0' ∧ 1 < (Nat.toDigits 10 n).length) := by
  rintro ⟨hhead, hlen⟩
  have hn : n = 0 := Classical.byContradiction fun h => head?_toDigits h hhead
  rw [hn] at hlen
  exact absurd hlen (by decide)

lemma fraction_of_head? (h : s.head? ≠ some '.') : fraction s = some ([], s) := by
  unfold fraction
  split
  · exact absurd rfl h
  · rfl

lemma exponent_of_stops (h : Stops s) : exponent s = some (none, s) := by
  unfold exponent
  split
  · exact absurd rfl (h _ rfl).2.2.1
  · exact absurd rfl (h _ rfl).2.2.2
  · rfl

/-- A number without a fraction: its digits and then its exponent. -/
lemma unsigned_toDigits_append (sign : Int) (n : Nat)
    (hs : ∀ c, s.head? = some c → c.isDigit = false ∧ c ≠ '.') :
    unsigned limits sign (Nat.toDigits 10 n ++ s) =
      if (Nat.toDigits 10 n).length ≤ limits.digits then
        (exponent s).map fun r =>
          ((match r.1 with
            | none => int (sign * n)
            | some e => decimal ⟨sign * n, e⟩), r.2)
      else none := by
  have hdot : s.head? ≠ some '.' := fun h => (hs _ h).2 rfl
  rw [unsigned, spanDigits_toDigits_append n fun c h => (hs c h).1]
  simp only [Nat.toDigits_ne_nil, toDigits_no_leading_zero, false_or]
  split_ifs with hmany hfew
  · omega
  · rfl
  · rw [fraction_of_head? hdot]
    simp only [Option.bind_eq_bind, Option.bind_some, true_and, List.append_nil,
      ofDigits_toDigits]
    rcases exponent s with _ | ⟨_ | e, t⟩
    · rfl
    · rfl
    · simp
  · omega

/-- The decimal digits of a number begin with a digit. -/
lemma exists_toDigits_eq_cons (n : Nat) : ∃ d ds, Nat.toDigits 10 n = d :: ds ∧ d.isDigit := by
  obtain ⟨d, ds, hds⟩ := List.exists_cons_of_ne_nil (Nat.toDigits_ne_nil : Nat.toDigits 10 n ≠ [])
  exact ⟨d, ds, hds, Numeral.isDigit_of_mem_toDigits (hds ▸ List.mem_cons_self)⟩

lemma toDigits_append_ne {n : Nat} {c : Char} {t : List Char} (h : c.isDigit = false) :
    Nat.toDigits 10 n ++ s ≠ c :: t := by
  obtain ⟨d, ds, hds, hd⟩ := exists_toDigits_eq_cons n
  rw [hds]
  rintro heq
  cases heq
  exact absurd hd (by simp [h])

lemma infinity?_toDigits_append (n : Nat) : infinity? (Nat.toDigits 10 n ++ s) = none := by
  unfold infinity?
  split
  · next heq => exact absurd heq (toDigits_append_ne rfl)
  · rfl

lemma number_toDigits_append (n : Nat) :
    number limits (Nat.toDigits 10 n ++ s) = unsigned limits 1 (Nat.toDigits 10 n ++ s) := by
  rw [number]
  · rw [infinity?_toDigits_append]
  · exact fun _ => toDigits_append_ne rfl
  · exact fun _ => toDigits_append_ne rfl

lemma number_neg_toDigits_append (n : Nat) :
    number limits ('-' :: (Nat.toDigits 10 n ++ s)) =
      unsigned limits (-1) (Nat.toDigits 10 n ++ s) := by
  rw [number, infinity?_toDigits_append]

/-- An integer is read back from its text, as a decimal number if an exponent follows. -/
lemma number_toString_append (n : Int)
    (hs : ∀ c, s.head? = some c → c.isDigit = false ∧ c ≠ '.') :
    number limits ((toString n).toList ++ s) =
      if digitsFit limits n then
        (exponent s).map fun r =>
          ((match r.1 with
            | none => int n
            | some e => decimal ⟨n, e⟩), r.2)
      else none := by
  rcases n with n | n
  · show number limits ((toString n).toList ++ s) = _
    rw [Numeral.toList_toString_nat, number_toDigits_append, unsigned_toDigits_append 1 n hs]
    simp [digitsFit]
  · have hneg : -1 * ((n + 1 : Nat) : Int) = Int.negSucc n := by omega
    rw [Numeral.toList_toString_negSucc, List.cons_append, number_neg_toDigits_append,
      unsigned_toDigits_append (-1) (n + 1) hs]
    simp only [digitsFit, Int.natAbs_negSucc, Nat.succ_eq_add_one, decide_eq_true_eq, hneg]

/-- An exponent is read back from its text. -/
lemma exponent_toString_append (e : Int) (hs : ∀ c, s.head? = some c → c.isDigit = false) :
    exponent ('e' :: ((toString e).toList ++ s)) = some (some e, s) := by
  rcases e with e | e
  · show exponent ('e' :: ((toString e).toList ++ s)) = _
    rw [Numeral.toList_toString_nat, exponent]
    · rw [spanDigits_toDigits_append e hs]
      split
      · next heq => exact absurd (Prod.mk.inj heq).1 Nat.toDigits_ne_nil
      · next heq =>
        cases heq
        simp [ofDigits_toDigits]
    -- the digits begin with no sign
    · exact fun _ => toDigits_append_ne rfl
    · exact fun _ => toDigits_append_ne rfl
  · rw [Numeral.toList_toString_negSucc, List.cons_append, exponent]
    simp only [spanDigits_toDigits_append (e + 1) hs]
    split
    · next heq => exact absurd (Prod.mk.inj heq).1 Nat.toDigits_ne_nil
    · next heq =>
      cases heq
      simp [ofDigits_toDigits, Int.negSucc_eq]

lemma number_int (n : Int) (hs : Stops s) :
    number limits ((toString n).toList ++ s) =
      if digitsFit limits n then some (int n, s) else none := by
  rw [number_toString_append n fun c h => ⟨(hs c h).1, (hs c h).2.1⟩, exponent_of_stops hs]
  rfl

lemma number_renderDecimal (d : Decimal) (hs : Stops s) :
    number limits (renderDecimal d ++ s) =
      if digitsFit limits d.mantissa then some (decimal d, s) else none := by
  rw [renderDecimal, List.append_assoc, List.cons_append, number_toString_append,
    exponent_toString_append d.exponent fun c h => (hs c h).1]
  · rfl
  · rintro c ⟨⟩
    decide

end Numbers

/-! ## Values -/

section Values

/-- The blanks between the parts of a value. -/
def blanks : List Char := [' ', '\t', '\n', '\r']

lemma skipBlanks_cons {c : Char} (h : c ∉ blanks) (s : List Char) :
    skipBlanks (c :: s) = c :: s :=
  List.dropWhile_cons_of_neg (by simpa [blanks, and_assoc] using h)

/-- The text of an integer begins with a digit or a hyphen. -/
lemma exists_toString_eq_cons (n : Int) :
    ∃ c t, (toString n).toList = c :: t ∧ (c.isDigit ∨ c = '-') := by
  rcases n with n | n
  · obtain ⟨d, ds, hds, hd⟩ := exists_toDigits_eq_cons n
    exact ⟨d, ds, (Numeral.toList_toString_nat n).trans hds, .inl hd⟩
  · exact ⟨'-', _, Numeral.toList_toString_negSucc n, .inr rfl⟩

lemma not_mem_of_isDigit {c : Char} {cs : List Char} (h : c.isDigit)
    (hcs : cs.any Char.isDigit = false) : c ∉ cs :=
  fun hc => List.any_eq_false.mp hcs c hc h

/-- A digit or a hyphen is no blank and closes no array. -/
lemma not_mem_blanks_of_number {c : Char} (h : c.isDigit ∨ c = '-') : c ∉ blanks ∧ c ≠ ']' := by
  rcases h with h | rfl
  · exact ⟨not_mem_of_isDigit h (by decide), fun hc => absurd (hc ▸ h) (by decide)⟩
  · decide

/-- The first character of a value is no blank and closes no array. -/
lemma exists_renderChars_eq_cons (j : Json) :
    ∃ c t, renderChars j = c :: t ∧ c ∉ blanks ∧ c ≠ ']' := by
  have hnumber (n : Int) (s : List Char) :
      ∃ c t, (toString n).toList ++ s = c :: t ∧ c ∉ blanks ∧ c ≠ ']' := by
    obtain ⟨c, t, ht, hc⟩ := exists_toString_eq_cons n
    exact ⟨c, t ++ s, by rw [ht, List.cons_append], not_mem_blanks_of_number hc⟩
  match j with
  | null => exact ⟨'n', _, rfl, by decide⟩
  | bool true => exact ⟨'t', _, rfl, by decide⟩
  | bool false => exact ⟨'f', _, rfl, by decide⟩
  | int n => simpa [renderChars] using hnumber n []
  | decimal d => exact hnumber d.mantissa _
  | nonFinite => exact ⟨'N', _, rfl, by decide⟩
  | text s => exact ⟨'"', _, rfl, by decide⟩
  | array [] => exact ⟨'[', _, rfl, by decide⟩
  | array (j :: js) => exact ⟨'[', _, rfl, by decide⟩
  | object [] => exact ⟨'\x7b', _, rfl, by decide⟩
  | object ((k, j) :: ms) => exact ⟨'\x7b', _, rfl, by decide⟩

variable {limits : Limits} {fuel depth : Nat} {s : List Char}

lemma value_of_number {c : Char} (h : c.isDigit ∨ c = '-') (s : List Char) :
    value limits (fuel + 1) depth (c :: s) = number limits (c :: s) := by
  have hne : c ∉ ['n', 't', 'f', '"', '[', '\x7b'] := by
    rcases h with h | rfl
    · exact not_mem_of_isDigit h (by decide)
    · decide
  rw [value, skipBlanks_cons (not_mem_blanks_of_number h).1]
  split
  case h_7 => rfl
  all_goals
    next heq =>
      cases heq
      exact absurd hne (by decide)

/-- Nesting takes a level that the reader still has. -/
lemma nested_eq {α : Type} (f : α → Json) {x : Option (α × List Char)} {y : α} {b : Bool}
    (hx : x = if b then some (y, s) else none) :
    (if limits.depth ≤ depth then none else x.map fun r => (f r.1, r.2)) =
      if depth < limits.depth && b then some (f y, s) else none := by
  rw [hx]
  by_cases hdepth : depth < limits.depth
  · rw [if_neg (by omega)]
    cases b <;> simp [hdepth]
  · simp [Nat.not_lt.mp hdepth, hdepth]

lemma value_array {t : List Char} {js : List Json} {b : Bool}
    (ht : ∃ c u, t = c :: u ∧ c ∉ blanks ∧ c ≠ ']')
    (hjs : items limits fuel (depth + 1) t = if b then some (js, s) else none) :
    value limits (fuel + 1) depth ('[' :: t) =
      if depth < limits.depth && b then some (array js, s) else none := by
  obtain ⟨c, u, rfl, hblank, hc⟩ := ht
  rw [value, skipBlanks_cons (by decide)]
  simp only [skipBlanks_cons hblank]
  split
  · next heq =>
    cases heq
    exact absurd rfl hc
  · exact nested_eq array hjs

lemma value_object {t : List Char} {ms : List (String × Json)} {b : Bool} (ht : ∃ u, t = '"' :: u)
    (hms : members limits fuel (depth + 1) t = if b then some (ms, s) else none) :
    value limits (fuel + 1) depth ('\x7b' :: t) =
      if depth < limits.depth && b then some (object ms, s) else none := by
  obtain ⟨u, rfl⟩ := ht
  have hquote : '"' ∉ blanks := by decide
  rw [value, skipBlanks_cons (by decide)]
  simp only [skipBlanks_cons hquote]
  exact nested_eq object hms

section Items

variable {t u : List Char} {j : Json} {js : List Json} {a b : Bool}

lemma items_last (hj : value limits fuel depth t = if a then some (j, ']' :: s) else none) :
    items limits (fuel + 1) depth t = if a then some ([j], s) else none := by
  have hclose : ']' ∉ blanks := by decide
  rw [items, hj]
  cases a with
  | false => rfl
  | true => simp only [if_true, skipBlanks_cons hclose]

lemma items_cons (hj : value limits fuel depth t = if a then some (j, ',' :: u) else none)
    (hjs : items limits fuel depth u = if b then some (js, s) else none) :
    items limits (fuel + 1) depth t = if a && b then some (j :: js, s) else none := by
  have hcomma : ',' ∉ blanks := by decide
  rw [items, hj]
  cases a with
  | false => rfl
  | true =>
    simp only [if_true, skipBlanks_cons hcomma, hjs]
    cases b <;> rfl

end Items

section Members

variable {k : String} {t u : List Char} {j : Json} {ms : List (String × Json)} {a b : Bool}

lemma members_last (hj : value limits fuel depth t = if a then some (j, '\x7d' :: s) else none) :
    members limits (fuel + 1) depth (renderText k ++ ':' :: t) =
      if a then some ([(k, j)], s) else none := by
  have hcolon : ':' ∉ blanks := by decide
  have hclose : '\x7d' ∉ blanks := by decide
  rw [members, renderText_append, skipBlanks_cons (by decide)]
  simp only [chars_flatMap_escapeChar_append, skipBlanks_cons hcolon, hj]
  cases a with
  | false => rfl
  | true => simp only [if_true, skipBlanks_cons hclose, String.ofList_toList]

lemma members_cons (hj : value limits fuel depth t = if a then some (j, ',' :: u) else none)
    (hms : members limits fuel depth u = if b then some (ms, s) else none) :
    members limits (fuel + 1) depth (renderText k ++ ':' :: t) =
      if a && b then some ((k, j) :: ms, s) else none := by
  have hcolon : ':' ∉ blanks := by decide
  have hcomma : ',' ∉ blanks := by decide
  rw [members, renderText_append, skipBlanks_cons (by decide)]
  simp only [chars_flatMap_escapeChar_append, skipBlanks_cons hcolon, hj]
  cases a with
  | false => rfl
  | true =>
    simp only [if_true, skipBlanks_cons hcomma, hms, String.ofList_toList]
    cases b <;> rfl

end Members

/-! The induction is on the value, its items and its members.  Twice as much fuel as there are
characters is enough: a character in front of a value or behind it, a bracket or a comma, pays for
the call that reads the list there and for the one that reads the value. -/

mutual

/-- A value is read back in front of whatever does not go on with a number. -/
lemma value_renderChars_append : ∀ (j : Json) (fuel depth : Nat) {s : List Char},
    2 * (renderChars j).length ≤ fuel → Stops s →
    value limits fuel depth (renderChars j ++ s) =
      if fits limits depth j then some (j, s) else none
  | j, 0, _, _, hfuel, _ => by
    obtain ⟨c, t, ht, -⟩ := exists_renderChars_eq_cons j
    simp [ht] at hfuel
  | null, _ + 1, _, _, _, _ => by simp [renderChars, value, fits, skipBlanks]
  | bool true, _ + 1, _, _, _, _ => by simp [renderChars, value, fits, skipBlanks]
  | bool false, _ + 1, _, _, _, _ => by simp [renderChars, value, fits, skipBlanks]
  | int n, fuel + 1, depth, s, _, hs => by
    obtain ⟨c, t, ht, hc⟩ := exists_toString_eq_cons n
    rw [renderChars, fits, ← number_int n hs, ht, List.cons_append, value_of_number hc]
  | decimal d, fuel + 1, depth, s, _, hs => by
    obtain ⟨c, t, ht, hc⟩ := exists_toString_eq_cons d.mantissa
    rw [renderChars, fits, ← number_renderDecimal d hs, renderDecimal, ht, List.cons_append,
      List.cons_append, value_of_number hc]
  | nonFinite, _ + 1, _, _, _, _ => by simp [renderChars, value, fits, skipBlanks, number]
  | text t, fuel + 1, depth, s, _, _ => by
    rw [renderChars, renderText_append, value, skipBlanks_cons (by decide)]
    simp [chars_flatMap_escapeChar_append, fits]
  | array [], _ + 1, _, _, _, _ => by simp [renderChars, value, fits, skipBlanks]
  | array (j :: js), fuel + 1, depth, s, hfuel, _ => by
    have hlen : 2 * (renderChars j ++ renderItems js).length < fuel := by
      simp only [renderChars, List.length_append, List.length_cons, List.length_nil] at hfuel ⊢
      omega
    have htext : renderChars (array (j :: js)) ++ s =
        '[' :: (renderChars j ++ renderItems js ++ ']' :: s) := by
      simp [renderChars]
    obtain ⟨c, t, ht, hc⟩ := exists_renderChars_eq_cons j
    rw [htext, fits, List.isEmpty_cons, Bool.false_or]
    exact value_array ⟨c, _, by rw [ht]; rfl, hc⟩ (items_renderItems (j :: js) fuel _ rfl hlen)
  | object [], _ + 1, _, _, _, _ => by simp [renderChars, value, fits, skipBlanks]
  | object ((k, j) :: ms), fuel + 1, depth, s, hfuel, _ => by
    have hlen : 2 * (renderText k ++ ':' :: renderChars j ++ renderMembers ms).length < fuel := by
      simp only [renderChars, List.length_append, List.length_cons, List.length_nil] at hfuel ⊢
      omega
    have htext : renderChars (object ((k, j) :: ms)) ++ s =
        '\x7b' :: (renderText k ++ ':' :: renderChars j ++ renderMembers ms ++ '\x7d' :: s) := by
      simp [renderChars]
    rw [htext, fits, List.isEmpty_cons, Bool.false_or]
    exact value_object ⟨_, by simp [renderText]; rfl⟩
      (members_renderMembers ((k, j) :: ms) fuel _ rfl hlen)

/-- The items of an array are read back up to its closing bracket. -/
lemma items_renderItems : ∀ (js : List Json) (fuel depth : Nat) {t s : List Char},
    renderItems js = ',' :: t → 2 * t.length < fuel →
    items limits fuel depth (t ++ ']' :: s) =
      if itemsFit limits depth js then some (js, s) else none
  | [], _, _, _, _, h, _ => by cases h
  | _ :: _, 0, _, _, _, _, hfuel => by omega
  | [j], fuel + 1, depth, t, s, h, hfuel => by
    obtain rfl : renderChars j = t := by simpa [renderItems] using h
    rw [itemsFit, itemsFit, Bool.and_true]
    exact items_last (value_renderChars_append j fuel depth (by omega) (stops_bracket s))
  | j :: j' :: js, fuel + 1, depth, t, s, h, hfuel => by
    obtain ⟨u, hu⟩ : ∃ u, renderItems (j' :: js) = ',' :: u := ⟨_, rfl⟩
    obtain rfl : renderChars j ++ ',' :: u = t := by
      rw [renderItems, hu] at h
      exact List.tail_eq_of_cons_eq h
    rw [List.length_append, List.length_cons] at hfuel
    rw [List.append_assoc, List.cons_append, itemsFit]
    exact items_cons (value_renderChars_append j fuel depth (by omega) (stops_comma _))
      (items_renderItems (j' :: js) fuel depth hu (by omega))

/-- The members of an object are read back up to its closing bracket. -/
lemma members_renderMembers : ∀ (ms : List (String × Json)) (fuel depth : Nat) {t s : List Char},
    renderMembers ms = ',' :: t → 2 * t.length < fuel →
    members limits fuel depth (t ++ '\x7d' :: s) =
      if membersFit limits depth ms then some (ms, s) else none
  | [], _, _, _, _, h, _ => by cases h
  | _ :: _, 0, _, _, _, _, hfuel => by omega
  | [(k, j)], fuel + 1, depth, t, s, h, hfuel => by
    obtain rfl : renderText k ++ ':' :: renderChars j = t := by simpa [renderMembers] using h
    rw [List.length_append, List.length_cons] at hfuel
    rw [List.append_assoc, List.cons_append, membersFit, membersFit, Bool.and_true]
    exact members_last (value_renderChars_append j fuel depth (by omega) (stops_brace s))
  | (k, j) :: m :: ms, fuel + 1, depth, t, s, h, hfuel => by
    obtain ⟨u, hu⟩ : ∃ u, renderMembers (m :: ms) = ',' :: u := ⟨_, rfl⟩
    obtain rfl : renderText k ++ ':' :: (renderChars j ++ ',' :: u) = t := by
      rw [renderMembers, hu] at h
      simpa using h
    simp only [List.length_append, List.length_cons] at hfuel
    rw [List.append_assoc, List.cons_append, List.append_assoc, List.cons_append, membersFit]
    exact members_cons (value_renderChars_append j fuel depth (by omega) (stops_comma _))
      (members_renderMembers (m :: ms) fuel depth hu (by omega))

end

end Values

/-- Just the values within the limits are read back from their text. -/
theorem parse?_render (limits : Limits) (j : Json) :
    parse? limits j.render = if fits limits 0 j then some j else none := by
  have hvalue : value limits (2 * (renderChars j).length + 2) 0 (renderChars j ++ []) = _ :=
    value_renderChars_append j _ 0 (by omega) stops_nil
  rw [List.append_nil] at hvalue
  rw [parse?, render, String.toList_ofList, String.length_ofList, hvalue]
  split_ifs <;> rfl

end BitPack.Json
