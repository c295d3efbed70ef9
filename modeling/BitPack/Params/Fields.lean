/-
# Parameters from fields

Parameters are built by a library from named JSON values.  A field that is absent takes its
default, and only the length of a chunk has none.  All findings are reported together, in the
order of the fields and then of the names that belong to no field; the condition that ties the
zigzag exponent to the width is looked at last.
-/
import BitPack.Params
import BitPack.Error
import BitPack.FieldLibrary

namespace BitPack

namespace Params

/-- The width is one of the four sizes. -/
def widthConstraint : Constraint := .oneOf Width.sizes

/-- A chunk has a payload bit. -/
def chunkLengthConstraint : Constraint := .between 1 none

/-- The zigzag exponent is one of the greatest width. -/
def exponentConstraint : Constraint := .between 0 (some 64)

/-- Reads a field that may be absent. -/
def field {α : Type} (name : String) (absent : Except FieldFault α)
    (read : Json → Except FieldFault α) (members : List (String × Json)) :
    Except FieldError α :=
  match (match Json.lookup name members with | some j => read j | none => absent) with
  | .ok a => .ok a
  | .error f => .error ⟨name, f⟩

/-- The finding of a field that could not be read. -/
def findings {α : Type} : Except FieldError α → List FieldError
  | .ok _ => []
  | .error e => [e]

/-- The names that belong to no field, each once. -/
def strangers (members : List (String × Json)) : List String :=
  ((members.map (·.1)).filter (· ∉ fieldNames)).eraseDups

end Params

namespace FieldLibrary

variable (lib : FieldLibrary)

/-- A value that stands for a width. -/
def readWidth (j : Json) : Except FieldFault Width :=
  (lib.integer Params.widthConstraint j).map fun n => Width.ofSize n.val n.property

/-- A value that stands for the length of a chunk. -/
def readChunkLength (j : Json) : Except FieldFault { n : Nat // 0 < n } :=
  (lib.integer Params.chunkLengthConstraint j).map fun n =>
    ⟨n.val.toNat, Int.pos_iff_toNat_pos.mp n.property.1⟩

/-- A value that stands for a zigzag exponent of some width. -/
def readExponent (j : Json) : Except FieldFault Nat :=
  (lib.integer Params.exponentConstraint j).map fun n => n.val.toNat

/-- The parameters with the given fields. -/
def paramsOfFields (members : List (String × Json)) : Except Error Params :=
  let width := Params.field "width" (.ok .w64) lib.readWidth members
  let chunkLength := Params.field "chunk_length" (.error .missing) lib.readChunkLength members
  let signed := Params.field "signed" (.ok false) lib.boolean members
  let exponent := Params.field "zigzag_exponent" (.ok 0) lib.readExponent members
  let extra := (Params.strangers members).map fun name => ⟨name, .unknown⟩
  match width, chunkLength, signed, exponent, extra with
  | .ok w, .ok ⟨c, hc⟩, .ok s, .ok k, [] =>
    if h : k < w.bits then .ok ⟨w, c, s, k, hc, h⟩
    else .error (.invalidParams [⟨none, .exponentNotBelowWidth w.bits k⟩])
  | _, _, _, _, _ =>
    .error (.invalidParams
      (Params.findings width ++ Params.findings chunkLength ++ Params.findings signed ++
        Params.findings exponent ++ extra))

/-- The parameters of a JSON value, which has to be an object. -/
def paramsOfJson : Json → Except Error Params
  | .object members => lib.paramsOfFields members
  | _ => .error (.invalidParams [⟨none, .notAnObject⟩])

/-- The parameters of a JSON text. -/
def paramsOfText (s : String) : Except Error Params :=
  match lib.parse s with
  | some j => lib.paramsOfJson j
  | none => .error (.invalidParams [⟨none, .notJson⟩])

/-- Parameters as JSON text. -/
def paramsText (p : Params) : String := lib.print p.toJson

end FieldLibrary

/-- Finished parameters cannot be changed: assigning any field is refused. -/
def Params.assign (_ : Params) (name : String) : Except Error Params :=
  .error (.invalidParams [⟨some name, .frozen⟩])

end BitPack
