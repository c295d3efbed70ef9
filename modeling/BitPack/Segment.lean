/-
# Segments

A run of bits at some position of a sequence of words falls into segments, one for each word
it touches.  Writing and reading both go segment by segment.
-/
import BitPack.Width

namespace BitPack

/-- The part of a run of bits that lies in one word. -/
structure Segment where
  /-- The index of the word. -/
  word : Nat
  /-- The number of bits of the word below the segment. -/
  offset : Nat
  /-- The number of bits of the segment. -/
  length : Nat
deriving DecidableEq, Repr

/-- The segments of the `n` bits at a position, lowest first. -/
def segments (w : Width) (position n : Nat) : List Segment :=
  if n = 0 then []
  else
    let offset := position % w.bits
    let length := min n (w.bits - offset)
    ⟨position / w.bits, offset, length⟩ :: segments w (position + length) (n - length)
termination_by n
decreasing_by
  have := Nat.mod_lt position w.bits_pos
  omega

@[simp] theorem segments_zero (w : Width) (position : Nat) : segments w position 0 = [] := by
  rw [segments]; simp

theorem segments_of_pos (w : Width) (position : Nat) {n : Nat} (h : 0 < n) :
    segments w position n =
      ⟨position / w.bits, position % w.bits, min n (w.bits - position % w.bits)⟩ ::
        segments w (position + min n (w.bits - position % w.bits))
          (n - min n (w.bits - position % w.bits)) := by
  rw [segments, if_neg (Nat.ne_of_gt h)]

end BitPack
