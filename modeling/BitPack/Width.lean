/-
# The four sizes

Storage words and integer fields come in the same four sizes.  This file names them and
converts between a size and its number of bits.
-/

namespace BitPack

/-- A size of a storage word or of an integer field: 8, 16, 32 or 64 bits. -/
inductive Width where
  | w8
  | w16
  | w32
  | w64
deriving DecidableEq, Repr, Inhabited

namespace Width

/-- The size in bytes. -/
def bytes : Width → Nat
  | w8 => 1
  | w16 => 2
  | w32 => 4
  | w64 => 8

/-- The size in bits. -/
def bits (w : Width) : Nat := 8 * w.bytes

/-- The sizes, smallest first. -/
def all : List Width := [w8, w16, w32, w64]

/-- The size with the given number of bits, if there is one. -/
def ofBits? (n : Int) : Option Width := all.find? fun w => (w.bits : Int) = n

/-- The numbers of bits of the sizes. -/
def sizes : List Int := all.map fun w => (w.bits : Int)

/-- The text that lists the admitted numbers of bits. -/
def choices : String := "(8, 16, 32, 64)"

theorem bytes_pos (w : Width) : 0 < w.bytes := by cases w <;> decide

theorem bits_pos (w : Width) : 0 < w.bits := by cases w <;> decide

theorem bits_le (w : Width) : w.bits ≤ 64 := by cases w <;> decide

theorem bits_injective {v w : Width} (h : v.bits = w.bits) : v = w := by
  cases v <;> cases w <;> first | rfl | exact absurd h (by decide)

@[simp] theorem ofBits?_bits (w : Width) : ofBits? w.bits = some w := by
  cases w <;> decide

theorem ofBits?_eq_some_iff {n : Int} {w : Width} : ofBits? n = some w ↔ n = w.bits := by
  constructor
  · intro h
    have := List.find?_some h
    simpa using (of_decide_eq_true this).symm
  · rintro rfl
    exact ofBits?_bits w

theorem bits_mem_sizes (w : Width) : (w.bits : Int) ∈ sizes := by
  cases w <;> decide

theorem isSome_ofBits? {n : Int} (h : n ∈ sizes) : (ofBits? n).isSome := by
  obtain ⟨w, -, rfl⟩ := List.mem_map.mp h
  rw [ofBits?_bits]
  rfl

/-- The size with one of the numbers of bits. -/
def ofSize (n : Int) (h : n ∈ sizes) : Width := (ofBits? n).get (isSome_ofBits? h)

theorem ofSize_eq_iff {n : Int} {h : n ∈ sizes} {w : Width} : ofSize n h = w ↔ n = w.bits := by
  rw [← ofBits?_eq_some_iff, Option.eq_some_iff_get_eq]
  exact ⟨fun heq => ⟨_, heq⟩, fun ⟨_, heq⟩ => heq⟩

end Width
end BitPack
