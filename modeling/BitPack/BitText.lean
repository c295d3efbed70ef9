/-
# Streams as text

A run of bits can be shown as a text of the characters `0` and `1`, read from left to
right: the first character is the first bit of the stream, so it is the lowest bit of a
number, not the highest one.  A number of fixed size is called a bitset here and a list of
words a buffer; this file turns both into such texts and back.
-/
import BitPack.Bits
import BitPack.Error

namespace BitPack.BitText

/-- The character of a bit. -/
def charOfBit (b : Bool) : Char := if b then '1' else '0'

/-- The bit of a character. -/
def bitOfChar? (c : Char) : Option Bool :=
  if c = '1' then some true else if c = '0' then some false else none

/-- A run of bits as text. -/
def ofBits (s : Bits) : String := String.ofList (s.map charOfBit)

/-- The run of bits that a text stands for. -/
def toBits? (s : String) : Option Bits := s.toList.mapM bitOfChar?

/-- The first bits of a bitset as text, all of them when no number is given. -/
def ofBitset (bits size : Int) (count : Option Int) : Except Error String := do
  let n ← checkCount size (count.getD size)
  return ofBits (Bits.ofInt n bits)

/-- The bitset of a text, which is at most as long as its size. -/
def toBitset (text : String) (size : Int) : Except Error Nat :=
  if size < text.length then .error (.textTooLong size text.length)
  else match toBits? text with
    | some s => .ok s.toNat
    | none => .error (.textCharacter text)

/-- The first bits of a 64-bit number as text. -/
def ofNumber (bits count : Int) : Except Error String := ofBitset bits 64 (some count)

/-- The 64-bit number of a text. -/
def toNumber (text : String) : Except Error Nat := toBitset text 64

/-- The `n` low bits of each word as text. -/
def ofWords (n : Nat) (words : List Int) : String := ofBits (words.flatMap (Bits.ofInt n))

/-- A buffer of words as text. -/
def ofBuffer (words : List Int) (wordBits : Int) : Except Error String :=
  if words = [] then .ok ""
  else do
    let n ← checkCount wordBits wordBits
    return ofWords n words

/-- A list cut into pieces of `n` elements, of which the last may be shorter. -/
def pieces {α : Type} (n : Nat) (s : List α) : List (List α) :=
  if n = 0 ∨ s.length = 0 then [] else s.take n :: pieces n (s.drop n)
termination_by s.length
decreasing_by
  simp only [List.length_drop]
  omega

/-- The buffer of words of a text; a last word that is cut short is completed with zeros. -/
def toBuffer (text : String) (wordBits : Int) : Except Error (List Nat) :=
  if wordBits = 0 then .error .zeroStep
  else (pieces wordBits.toNat text.toList).mapM fun s => toBitset (String.ofList s) wordBits

/-- A text completed with the character `0` to a multiple of a number of characters. -/
def padTo (text : String) (size : Int) : Except Error String :=
  if size = 0 then .error .moduloByZero
  else
    let tail := Int.fmod text.length size
    if tail = 0 then .ok text
    else .ok (text ++ String.ofList (List.replicate (size - tail).toNat '0'))

@[simp] theorem bitOfChar?_charOfBit (b : Bool) : bitOfChar? (charOfBit b) = some b := by
  cases b <;> decide

theorem bitOfChar?_eq_some_iff {c : Char} {b : Bool} :
    bitOfChar? c = some b ↔ c = charOfBit b := by
  constructor
  · unfold bitOfChar?
    split
    · rintro ⟨⟩; assumption
    · split
      · rintro ⟨⟩; assumption
      · simp
  · rintro rfl
    exact bitOfChar?_charOfBit b

@[simp] theorem toList_ofBits (s : Bits) : (ofBits s).toList = s.map charOfBit := by
  simp [ofBits]

@[simp] theorem length_ofBits (s : Bits) : (ofBits s).length = s.length := by
  rw [← String.length_toList, toList_ofBits, List.length_map]

/-- The text of a run of bits reads back as the run. -/
@[simp] theorem toBits?_ofBits (s : Bits) : toBits? (ofBits s) = some s := by
  rw [toBits?, toList_ofBits]
  induction s with
  | nil => rfl
  | cons b s ih => simp [ih]

end BitPack.BitText
