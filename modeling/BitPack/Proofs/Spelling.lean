/-
# Runs that are fields

`Chunking.decode` says what comes of a run of bits when a field is read off its front.  This file
says by rules which runs are fields at all: full chunks with a set signal bit behind each, and in
the end a full chunk with a signal bit that is not set, or the chunk that completes the width,
which has none.  A number may be spelt in more chunks than it needs.  The main facts are

* `Chunking.decodeFrom_eq_some_iff`: just what is spelt at the front of a run is read off it;
* `Chunking.spells_encode`: the code of a number spells it;
* `Chunking.Spells.min_le_length`: a field is not shorter than a chunk with its signal bit, or
  than the width.
-/
import BitPack.Proofs.FieldCode

namespace BitPack.Chunking

/-- A run of bits spells a number when `left` bits of the width are left. -/
inductive Spells (c : Chunking) : Nat → Bits → Nat → Prop
  /-- The last chunk completes the width. -/
  | last {left : Nat} {s : Bits} (h : left ≤ c.length) (hs : s.length = left) :
      c.Spells left s (Bits.toNat s)
  /-- The signal bit behind a full chunk ends the field. -/
  | stop {left : Nat} {s : Bits} (h : ¬left ≤ c.length) (hs : s.length = c.length) :
      c.Spells left (s ++ [false]) (Bits.toNat s)
  /-- The signal bit behind a full chunk asks for more. -/
  | more {left v : Nat} {s t : Bits} (h : ¬left ≤ c.length) (hs : s.length = c.length)
      (ht : c.Spells (left - c.length) t v) :
      c.Spells left (s ++ true :: t) (Bits.toNat s + 2 ^ c.length * v)

variable {c : Chunking} {left v : Nat} {s t u : Bits}

/-- What is spelt is read, whatever follows it. -/
lemma Spells.decodeFrom_append (h : c.Spells left u v) (t : Bits) :
    c.decodeFrom left (u ++ t) = some (v, t) := by
  induction h with
  | last h hs =>
    rw [decodeFrom_last h, if_pos (by simp [hs]), List.take_left' hs, List.drop_left' hs]
  | stop h hs =>
    rw [List.append_assoc, List.singleton_append, decodeFrom_chunk h hs, if_neg (by simp)]
  | more h hs _ ih =>
    rw [List.append_assoc, List.cons_append, decodeFrom_chunk h hs, if_pos rfl, ih,
      Option.map_some]

/-- What is read is spelt by the bits that are taken. -/
lemma exists_spells_of_decodeFrom (h : c.decodeFrom left s = some (v, t)) :
    ∃ u, s = u ++ t ∧ c.Spells left u v := by
  have hc := c.length_pos
  induction left using Nat.strongRecOn generalizing s v with
  | _ left ih =>
    rcases decodeFrom_cases h with
      ⟨hlast, u, hu, rfl, rfl⟩ | ⟨hmore, u, hu, ⟨rfl, rfl⟩ | ⟨t', x, rfl, hx, rfl⟩⟩
    · exact ⟨u, rfl, .last hlast hu⟩
    · exact ⟨u ++ [false], by simp, .stop hmore hu⟩
    · obtain ⟨u', rfl, hu'⟩ := ih _ (by omega) hx
      exact ⟨u ++ true :: u', by simp, .more hmore hu hu'⟩

lemma decodeFrom_eq_some_iff :
    c.decodeFrom left s = some (v, t) ↔ ∃ u, s = u ++ t ∧ c.Spells left u v := by
  constructor
  · exact exists_spells_of_decodeFrom
  · rintro ⟨u, rfl, hu⟩
    exact hu.decodeFrom_append t

/-- Nothing is read exactly if no field is at the front of the run. -/
lemma decode_eq_none_iff :
    c.decode s = none ↔ ¬∃ u v, u <+: s ∧ c.Spells c.width.bits u v := by
  constructor
  · rintro hnone ⟨u, v, ⟨t, rfl⟩, hu⟩
    have hread : c.decode (u ++ t) = some (v, t) := hu.decodeFrom_append t
    simp [hnone] at hread
  · intro hno
    rcases hd : c.decode s with _ | ⟨v, t⟩
    · rfl
    · obtain ⟨u, rfl, hu⟩ := exists_spells_of_decodeFrom hd
      exact absurd ⟨u, v, List.prefix_append u t, hu⟩ hno

lemma spells_encode (hv : v < 2 ^ c.width.bits) : c.Spells c.width.bits (c.encode v) v := by
  have hread := decode_encode_append hv []
  obtain ⟨u, hu, h⟩ := decodeFrom_eq_some_iff.mp hread
  rw [List.append_nil, List.append_nil] at hu
  rwa [hu]

lemma Spells.min_le_length (h : c.Spells left u v) : min left (c.length + 1) ≤ u.length := by
  cases h with
  | last h hs => omega
  | stop h hs =>
    rw [List.length_append, List.length_singleton]
    omega
  | more h hs ht =>
    rw [List.length_append, List.length_cons]
    omega

/-- Reading a field takes at least a chunk with its signal bit, or the width. -/
lemma min_add_length_le_of_decode (h : c.decode s = some (v, t)) :
    min c.width.bits (c.length + 1) + t.length ≤ s.length := by
  obtain ⟨u, rfl, hu⟩ := exists_spells_of_decodeFrom h
  have hlen := hu.min_le_length
  rw [List.length_append]
  omega

end BitPack.Chunking
