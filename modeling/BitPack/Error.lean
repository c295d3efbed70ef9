/-
# Errors

Every operation that can refuse its arguments or its data names the cause as a value of
`Error`.  A cause is about something (`Error.subject`) and has a text (`Error.text`), which
shows the numbers that matter in decimal.  A number of more than `maxDigits` digits has no
decimal text.  What is raised for a cause that would have to show one is therefore an error of
another kind and with another text: it is an error of the contract, as the number was given by
the caller, and tells the limit.  `Error.kind` and `Error.message` are the kind and the text of
what is raised.

An operation that keeps a state and may be refused is a computation in `EStateM Error`; a check
in front of it is a value of `Except Error`.
-/
import BitPack.Width
import BitPack.FieldError
import BitPack.Text.Numeral
import BitPack.Text.Quoted

namespace BitPack

/-- Why an operation is refused or data cannot be read. -/
inductive Error where
  /-- A number of bits is not between zero and its limit. -/
  | bitCount (limit count : Int)
  /-- A stream text is longer than the number of bits it is read into. -/
  | textTooLong (limit length : Int)
  /-- A stream text has a character other than `0` and `1`. -/
  | textCharacter (text : String)
  /-- A number is outside the signed 64-bit range. -/
  | notSigned64 (value : Int)
  /-- A number is outside the unsigned 64-bit range. -/
  | notUnsigned64 (value : Int)
  /-- A block exponent is not between 0 and 63. -/
  | blockExponent (exponent : Int)
  /-- The width of a field is not one of the four sizes. -/
  | fieldWidth (width : Int)
  /-- A chunk has no payload bit. -/
  | chunkLength (length : Int)
  /-- A negative number is written as unsigned. -/
  | negativeValue (value : Int)
  /-- A number has more bits than its field. -/
  | valueTooWide (value width : Int)
  /-- A number is outside the signed range of its field. -/
  | outOfSignedRange (value width least greatest : Int)
  /-- A zigzag exponent is not between 0 and its limit. -/
  | zigzagExponent (limit exponent : Int)
  /-- The size of a storage word is not one of the four sizes. -/
  | wordSize (bits : Int)
  /-- The size of a storage word is left empty. -/
  | noWordSize
  /-- A number does not fit in a storage word. -/
  | wordTooWide (word : Int) (size : Nat)
  /-- A negative number of values is asked for. -/
  | negativeCount (count : Int)
  /-- The number of values asked for is left empty. -/
  | noCount
  /-- A text is cut into pieces of length zero. -/
  | zeroStep
  /-- A number is shifted by a negative number of places. -/
  | negativeShift
  /-- Division by zero. -/
  | divisionByZero
  /-- A remainder modulo zero. -/
  | moduloByZero
  /-- A text is not that of bytes in hexadecimal, first seen at an offset. -/
  | notHex (offset : Nat)
  /-- A value of a sequence to be encoded is out of bounds.  It is an error of encoding only as long
  as the value and its index can be printed. -/
  | outOfBounds (value : Int) (index : Nat) (least greatest : Int) (width : Nat)
  /-- The data ends inside a value, or before the last of the values asked for.  It is an error of
  decoding only as long as the index and the number asked for can be printed. -/
  | truncated (index : Nat) (count : Option Nat)
  /-- Parameters are refused. -/
  | invalidParams (findings : List FieldError)
deriving DecidableEq, Repr

namespace Error

/-- What errors are about. -/
inductive Kind where
  /-- An argument breaks the contract of an operation. -/
  | contract
  /-- An argument is left empty where a number is compared. -/
  | comparison
  /-- A division by zero. -/
  | arithmetic
  /-- A sequence of values cannot be encoded. -/
  | encoding
  /-- Data cannot be decoded. -/
  | decoding
  /-- Parameters are refused. -/
  | validation
deriving DecidableEq, Repr

/-- What a cause is about. -/
def subject : Error → Kind
  | divisionByZero | moduloByZero => .arithmetic
  | noCount => .comparison
  | outOfBounds .. => .encoding
  | truncated .. => .decoding
  | invalidParams _ => .validation
  | _ => .contract

/-- The text of a cause. -/
def text : Error → String
  | bitCount limit count => s!"num_bits must be 0-{limit}, got {count}"
  | textTooLong limit length => s!"Stream length must be at most {limit}, got {length}"
  | textCharacter text => "Stream must contain only '0' and '1', got " ++ Text.quoted text
  | notSigned64 value => s!"Value {value} doesn't fit in a signed 64-bit integer"
  | notUnsigned64 value => s!"Value {value} doesn't fit in an unsigned 64-bit integer"
  | blockExponent exponent => s!"block_exponent must be 0-63, got {exponent}"
  | fieldWidth width => s!"width must be one of {Width.choices}, got {width}"
  | chunkLength length => s!"chunk_length must be >= 1, got {length}"
  | negativeValue value => s!"Unsigned encoding requires non-negative value, got {value}"
  | valueTooWide value width => s!"Value {value} requires more than {width} bits"
  | outOfSignedRange value width least greatest =>
    s!"Value {value} doesn't fit in {width} bits (range: {least} to {greatest})"
  | zigzagExponent limit exponent => s!"zigzag_exponent must be 0-{limit}, got {exponent}"
  | wordSize bits => s!"word_bits must be one of {Width.choices}, got {bits}"
  | noWordSize => s!"word_bits must be one of {Width.choices}, got []"
  | wordTooWide word size => s!"Word {word} doesn't fit in {size} bits"
  | negativeCount count => s!"count must be >= 0, got {count}"
  | noCount => "'<' not supported between instances of 'list' and 'int'"
  | zeroStep => "range() arg 3 must not be zero"
  | negativeShift => "negative shift count"
  | divisionByZero => "integer division or modulo by zero"
  | moduloByZero => "integer modulo by zero"
  | notHex offset => s!"non-hexadecimal number found in fromhex() arg at position {offset}"
  | outOfBounds value index least greatest width =>
    s!"Value {value} at index {index} out of bounds [{least}, {greatest}] for width {width}"
  | truncated index (some count) =>
    s!"Truncated data: stream ended while decoding value {index} of {count}"
  | truncated index none => s!"Truncated data: stream ended while decoding value {index}"
  | invalidParams findings => "; ".intercalate (findings.map FieldError.line)

/-- The numbers that the text of a cause shows in decimal.  The offset of `notHex` is a machine
word, and the numbers of `invalidParams` are among the declared ones. -/
def numbers : Error → List Int
  | bitCount limit count => [limit, count]
  | textTooLong limit length => [limit, length]
  | notSigned64 value | notUnsigned64 value | negativeValue value => [value]
  | blockExponent exponent => [exponent]
  | fieldWidth width => [width]
  | chunkLength length => [length]
  | valueTooWide value width => [value, width]
  | outOfSignedRange value width least greatest => [value, width, least, greatest]
  | zigzagExponent limit exponent => [limit, exponent]
  | wordSize bits => [bits]
  | wordTooWide word size => [word, size]
  | negativeCount count => [count]
  | outOfBounds value index least greatest width => [value, index, least, greatest, width]
  | truncated index (some count) => [index, count]
  | truncated index none => [index]
  | textCharacter _ | noWordSize | noCount | zeroStep | negativeShift | divisionByZero
  | moduloByZero | notHex _ | invalidParams _ => []

/-- All numbers in the text of a cause have at most `maxDigits` digits. -/
def Printable (e : Error) : Prop := ∀ n ∈ e.numbers, n.natAbs < 10 ^ Text.Numeral.maxDigits

instance (e : Error) : Decidable e.Printable :=
  inferInstanceAs (Decidable (∀ n ∈ e.numbers, n.natAbs < 10 ^ Text.Numeral.maxDigits))

/-- The text of an error the cause of which cannot be printed. -/
def limitText : String :=
  s!"Exceeds the limit ({Text.Numeral.maxDigits} digits) for integer string conversion; " ++
    "use sys.set_int_max_str_digits() to increase the limit"

/-- The kind of an error: what its cause is about, if the cause can be printed. -/
def kind (e : Error) : Kind := if e.Printable then e.subject else .contract

/-- The text of an error: that of its cause, if the cause can be printed. -/
def message (e : Error) : String := if e.Printable then e.text else limitText

theorem kind_of_printable {e : Error} (h : e.Printable) : e.kind = e.subject := if_pos h

theorem kind_of_not_printable {e : Error} (h : ¬e.Printable) : e.kind = .contract := if_neg h

/-- A cause that is about the contract is an error of the contract in any case. -/
theorem kind_eq_contract {e : Error} (h : e.subject = .contract) : e.kind = .contract := by
  by_cases hprint : e.Printable
  · rw [kind_of_printable hprint, h]
  · exact kind_of_not_printable hprint

end Error

/-- A check that fails leaves the state of the operation behind it as it is. -/
instance {σ : Type} : MonadLift (Except Error) (EStateM Error σ) where
  monadLift x := fun s =>
    match x with
    | .ok a => .ok a s
    | .error e => .error e s

@[simp] theorem run_liftM_ok {σ α : Type} (a : α) (s : σ) :
    (liftM (Except.ok a : Except Error α) : EStateM Error σ α).run s = .ok a s := rfl

@[simp] theorem run_liftM_error {σ α : Type} (e : Error) (s : σ) :
    (liftM (Except.error e : Except Error α) : EStateM Error σ α).run s = .error e s := rfl

/-- The number of bits of a request, which is between zero and a limit. -/
def checkCount (limit count : Int) : Except Error Nat :=
  if 0 ≤ count ∧ count ≤ limit then .ok count.toNat else .error (.bitCount limit count)

theorem checkCount_eq_ok_iff {limit count : Int} {n : Nat} :
    checkCount limit count = .ok n ↔ (n : Int) = count ∧ count ≤ limit := by
  unfold checkCount
  split
  · rw [Except.ok.injEq]; omega
  · simp only [reduceCtorEq, false_iff]; omega

/-- The size of a storage word, given as a number of bits. -/
def checkWordSize (bits : Int) : Except Error Width :=
  match Width.ofBits? bits with
  | some w => .ok w
  | none => .error (.wordSize bits)

end BitPack
