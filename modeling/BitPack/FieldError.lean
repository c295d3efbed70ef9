/-
# What can be wrong with parameters

A set of parameters is refused with a list of findings.  A finding belongs to one field,
or to the parameters as a whole, and has a text and a short name for its kind.
-/

namespace BitPack

/-- Why a field, or the parameters as a whole, cannot be accepted. -/
inductive FieldFault where
  /-- A required field is absent. -/
  | missing
  /-- There is no field of this name. -/
  | unknown
  /-- The field is none of the integers that can be chosen. -/
  | notAChoice (choices : List Int)
  /-- The field cannot stand for an integer. -/
  | notAnInteger
  /-- The text of the field is not that of an integer. -/
  | unreadableInteger
  /-- The text or number of the field is too large to be taken as an integer. -/
  | oversizedInteger
  /-- The number of the field has a fractional part. -/
  | fractionalInteger
  /-- The number of the field is infinite or undefined. -/
  | notFinite
  /-- The integer of the field is below its least value. -/
  | tooSmall (least : Int)
  /-- The integer of the field is not below its bound. -/
  | tooLarge (bound : Int)
  /-- The field cannot stand for a truth value. -/
  | notABoolean
  /-- The text or number of the field is not that of a truth value. -/
  | unreadableBoolean
  /-- The zigzag exponent does not fit the width. -/
  | exponentNotBelowWidth (width exponent : Nat)
  /-- The parameters are not given as an object. -/
  | notAnObject
  /-- The parameters are given as text that is no JSON. -/
  | notJson
  /-- A field of finished parameters is assigned. -/
  | frozen
deriving DecidableEq, Repr

namespace FieldFault

/-- Choices as they are listed in a text. -/
def listing : List Int → String
  | [] => ""
  | [n] => toString n
  | [m, n] => toString m ++ " or " ++ toString n
  | n :: ns => toString n ++ ", " ++ listing ns

/-- The text of a finding. -/
def text : FieldFault → String
  | missing => "Field required"
  | unknown => "Extra inputs are not permitted"
  | notAChoice choices => "Input should be " ++ listing choices
  | notAnInteger => "Input should be a valid integer"
  | unreadableInteger =>
    "Input should be a valid integer, unable to parse string as an integer"
  | oversizedInteger =>
    "Unable to parse input string as an integer, exceeded maximum size"
  | fractionalInteger =>
    "Input should be a valid integer, got a number with a fractional part"
  | notFinite => "Input should be a finite number"
  | tooSmall least => s!"Input should be greater than or equal to {least}"
  | tooLarge bound => s!"Input should be less than {bound}"
  | notABoolean => "Input should be a valid boolean"
  | unreadableBoolean => "Input should be a valid boolean, unable to interpret input"
  | exponentNotBelowWidth width exponent =>
    s!"Value error, zigzag_exponent must be below width {width}, got {exponent}"
  | notAnObject => "Input should be an object"
  | notJson => "Invalid JSON"
  | frozen => "Instance is frozen"

/-- The short name of a finding's kind. -/
def kind : FieldFault → String
  | missing => "missing"
  | unknown => "extra_forbidden"
  | notAChoice _ => "literal_error"
  | notAnInteger => "int_type"
  | unreadableInteger => "int_parsing"
  | oversizedInteger => "int_parsing_size"
  | fractionalInteger => "int_from_float"
  | notFinite => "finite_number"
  | tooSmall _ => "greater_than_equal"
  | tooLarge _ => "less_than"
  | notABoolean => "bool_type"
  | unreadableBoolean => "bool_parsing"
  | exponentNotBelowWidth _ _ => "value_error"
  | notAnObject => "model_type"
  | notJson => "json_invalid"
  | frozen => "frozen_instance"

end FieldFault

/-- A finding: the field it belongs to (none for the parameters as a whole) and the fault. -/
structure FieldError where
  /-- The name of the field. -/
  field : Option String
  /-- What is wrong with it. -/
  fault : FieldFault
deriving DecidableEq, Repr

/-- A finding in one line: field, text and kind. -/
def FieldError.line (e : FieldError) : String :=
  e.field.getD "" ++ ": " ++ e.fault.text ++ " (" ++ e.fault.kind ++ ")"

end BitPack
