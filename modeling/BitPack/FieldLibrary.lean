/-
# Libraries for records with declared fields

A record is declared by what its fields have to satisfy.  Taking a value for a field, printing
a record as JSON text and taking such a text apart again is the work of a library, which is free
in much of it: it may take a text for an integer, and lay out the JSON as it likes.
`FieldLibrary` is what a library offers.  What it hands out satisfies the constraint it was
asked for.  That integers and truth values are not changed, and integers not refused that satisfy
the constraint, is `FieldLibrary.TakesPlain`; that a text does not change them either is
`FieldLibrary.Exact`.
-/
import BitPack.FieldError
import BitPack.Json

namespace BitPack

/-- What an integer field has to satisfy. -/
inductive Constraint where
  /-- To be one of the integers listed. -/
  | oneOf (choices : List Int)
  /-- To be at least one number and, if there is a second, below that. -/
  | between (least : Int) (bound : Option Int)
deriving DecidableEq, Repr

namespace Constraint

/-- An integer satisfies the constraint. -/
def Admits : Constraint → Int → Prop
  | oneOf choices, n => n ∈ choices
  | between least bound, n => least ≤ n ∧ ∀ b ∈ bound, n < b

instance (c : Constraint) (n : Int) : Decidable (c.Admits n) :=
  match c with
  | oneOf choices => inferInstanceAs (Decidable (n ∈ choices))
  | between least none => decidable_of_iff (least ≤ n) (by simp [Admits])
  | between least (some b) => decidable_of_iff (least ≤ n ∧ n < b) (by simp [Admits])

/-- What is wrong with an integer that does not satisfy the constraint.  The upper bound is
looked at first. -/
def fault (n : Int) : Constraint → FieldFault
  | oneOf choices => .notAChoice choices
  | between least none => .tooSmall least
  | between least (some b) => if b ≤ n then .tooLarge b else .tooSmall least

/-- An integer that has to satisfy the constraint. -/
def check (c : Constraint) (n : Int) : Except FieldFault { n : Int // c.Admits n } :=
  if h : c.Admits n then .ok ⟨n, h⟩ else .error (c.fault n)

theorem check_eq_ok_iff {c : Constraint} {n : Int} {m : { n : Int // c.Admits n }} :
    c.check n = .ok m ↔ m.val = n := by
  obtain ⟨m, hm⟩ := m
  unfold check
  split
  · rw [Except.ok.injEq, Subtype.mk.injEq, eq_comm]
  · next h =>
    simp only [reduceCtorEq, false_iff]
    rintro rfl
    exact h hm

end Constraint

/-- What a library offers for records with declared fields. -/
structure FieldLibrary where
  /-- The integer that a value stands for, which has to satisfy a constraint. -/
  integer (c : Constraint) (j : Json) : Except FieldFault { n : Int // c.Admits n }
  /-- The truth value that a value stands for. -/
  boolean (j : Json) : Except FieldFault Bool
  /-- The text of a JSON value. -/
  print (j : Json) : String
  /-- The JSON value of a text. -/
  parse (s : String) : Option Json

/-- An integer or a truth value. -/
def Json.IsPlain : Json → Prop
  | int _ | bool _ => True
  | _ => False

/-- The library takes integers and truth values as they are, integers as far as they satisfy the
constraint. -/
structure FieldLibrary.TakesPlain (lib : FieldLibrary) : Prop where
  integer_eq_ok_iff {c : Constraint} {n : Int} {m : { n : Int // c.Admits n }} :
    lib.integer c (.int n) = .ok m ↔ m.val = n
  boolean_eq (b : Bool) : lib.boolean (.bool b) = .ok b

/-- The library takes integers and truth values as they are, and reads them back from the text of an
object, the names of which are distinct. -/
structure FieldLibrary.Exact (lib : FieldLibrary) : Prop extends lib.TakesPlain where
  parse_print {members : List (String × Json)} (h : ∀ m ∈ members, m.2.IsPlain)
    (hnames : (members.map (·.1)).Nodup) :
    lib.parse (lib.print (.object members)) = some (.object members)

end BitPack
