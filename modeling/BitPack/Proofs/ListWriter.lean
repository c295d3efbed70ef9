/-
# Writers and plain lists of bits

A destination keeps a plain list of bits if its raw operation checks the number of bits and then
appends the low bits of a number to the list, and if its bytes hold the list from the lowest bit
of the first byte on.  All other writes are built on the raw operation, so nothing else has to
be said about it.  A writer over words of any size is such a destination in disguise: it answers
every write alike and agrees with the list about all lengths and bytes (`Writer.refines_list`).
The size of the words is therefore never seen in the bytes, and since every word fits its size,
laying the words out as bytes never fails.
-/
import BitPack.BitList
import BitPack.Proofs.WriterContents

namespace BitPack

namespace Bytes

/-- The bytes of a list of words, each of which has to fit its size. -/
def ofWords? (w : Width) (words : List Nat) : Option Bytes :=
  if ∀ x ∈ words, x < 2 ^ w.bits then some (ofWords w words) else none

lemma ofWords?_of_fits {w : Width} {words : List Nat} (h : ∀ x ∈ words, x < 2 ^ w.bits) :
    ofWords? w words = some (ofWords w words) :=
  if_pos h

/-- A list of bytes is given by its length and its bits. -/
lemma eq_ofBits {s : Bytes} {t : Bits} (hlen : s.length = byteCount t.length)
    (hbit : ∀ {i : Nat} (h : i / 8 < s.length), s[i / 8].toNat.testBit (i % 8) = t.getD i false) :
    s = ofBits t := by
  have hpad : (Bits.pad 8 t).length = 8 * s.length := by
    rw [hlen]
    exact Bits.length_pad (by decide) t
  apply toBits_injective
  rw [toBits_ofBits]
  refine List.ext_getElem? fun i => ?_
  rw [getElem?_toBits]
  by_cases hi : i < 8 * s.length
  · have hbyte : i / 8 < s.length := Nat.div_lt_of_lt_mul hi
    rw [Bits.getElem?_pad (by omega), List.getElem?_eq_getElem hbyte, Option.map_some, hbit hbyte]
  · -- behind the last byte there is nothing on either side
    rw [List.getElem?_eq_none (l := Bits.pad 8 t) (by omega),
      List.getElem?_eq_none (by omega), Option.map_none]

lemma testBit_ofBits {t : Bits} {i : Nat} (h : i / 8 < (ofBits t).length) :
    (ofBits t)[i / 8].toNat.testBit (i % 8) = t.getD i false := by
  have hlen : (Bits.pad 8 t).length = 8 * (ofBits t).length := by
    rw [← toBits_ofBits, length_toBits]
  have hbit := getElem?_toBits (ofBits t) i
  rw [toBits_ofBits, Bits.getElem?_pad (by omega), List.getElem?_eq_getElem h, Option.map_some,
    Option.some.injEq] at hbit
  exact hbit.symm

end Bytes

/-! ## Destinations that keep a list -/

namespace BitSink

variable {σ τ : Type} [BitSink σ] [BitSink τ]

/-- A destination keeps a plain list of bits.  A raw write is refused if its number of bits is out
of bounds and appends the low bits of the number otherwise; the length is that of the list, there
are as many bytes as the list needs, and bit `i` of the list is bit `i % 8` of byte `i / 8`, with
zeros behind the list. -/
structure KeepsList (list : σ → Bits) : Prop where
  refuses (s : σ) (value : Int) {count : Int} {e : Error}
    (h : checkCount maxRawBits count = .error e) : (writeBits value count).run s = .error e s
  appends (s : σ) (value : Int) {count : Int} {n : Nat}
    (h : checkCount maxRawBits count = .ok n) :
    ∃ s', (writeBits value count).run s = .ok () s' ∧ list s' = list s ++ Bits.ofInt n value
  bitLength_eq (s : σ) : bitLength s = (list s).length
  length_bytes (s : σ) : (bytes s).length = byteCount (list s).length
  testBit_bytes (s : σ) {i : Nat} (h : i / 8 < (bytes s).length) :
    (bytes s)[i / 8].toNat.testBit (i % 8) = (list s).getD i false

lemma faithful_of_keepsList {list : σ → Bits} (h : KeepsList list) :
    Faithful fun s t => list s = t where
  writeBits {s t} hs value count := by
    subst hs
    rw [WriteRequest.stream]
    cases hn : checkCount maxRawBits count with
    | error e => exact h.refuses s value hn
    | ok n => exact h.appends s value hn
  bitLength {s t} hs := by rw [h.bitLength_eq, hs]
  bytes {s t} hs := by
    subst hs
    exact Bytes.eq_ofBits (h.length_bytes s) (h.testBit_bytes s)

/-- Two destinations hold the same number of bits and the same bytes. -/
structure Agree (s : σ) (t : τ) : Prop where
  bitLength_eq : bitLength s = bitLength t
  byteLength_eq : byteLength s = byteLength t
  bytes_eq : bytes s = bytes t

section Agree

variable {R : σ → Bits → Prop} {R' : τ → Bits → Prop} (hR : Faithful R) (hR' : Faithful R')
  {s : σ} {t : τ} {u : Bits}

include hR in
lemma length_bytes_of_faithful (h : R s u) : (bytes s).length = byteLength s := by
  rw [hR.bytes h, Bytes.length_ofBits, byteLength, hR.bitLength h]

include hR hR' in
/-- Faithful destinations that hold the same run agree. -/
lemma agree_of_faithful (h : R s u) (h' : R' t u) : Agree s t := by
  have hlen : bitLength s = bitLength t := by rw [hR.bitLength h, hR'.bitLength h']
  refine ⟨hlen, ?_, ?_⟩
  · rw [byteLength, byteLength, hlen]
  · rw [hR.bytes h, hR'.bytes h']

end Agree
end BitSink

/-- The list itself keeps its bits. -/
lemma BitList.keepsList : BitSink.KeepsList BitList.bits where
  refuses s value {count e} h := by
    show (liftM (checkCount maxRawBits count) >>= fun _ => _ : EStateM Error BitList Unit).run s = _
    rw [h]
    rfl
  appends s value {count n} h := by
    refine ⟨⟨s.bits ++ Bits.ofInt n value⟩, ?_, rfl⟩
    show (liftM (checkCount maxRawBits count) >>= fun _ => _ : EStateM Error BitList Unit).run s = _
    rw [h]
    rfl
  bitLength_eq s := rfl
  length_bytes s := Bytes.length_ofBits s.bits
  testBit_bytes s {i} h := Bytes.testBit_ofBits h

/-! ## Writers -/

namespace Writer

open WriteRequest (attempts)

/-- The words of a writer can be laid out as bytes, and its bytes are the first ones of these. -/
lemma take_ofWords?_of_holds {w : Width} {wr : Writer} {s : Bits} (h : Holds w wr s) :
    (Bytes.ofWords? w wr.words).map (List.take (BitSink.byteLength wr)) =
      some (BitSink.bytes wr) := by
  have hbytes : BitSink.bytes wr = (Bytes.ofWords w wr.words).take (BitSink.byteLength wr) := by
    rw [← h.wordSize_eq]
    rfl
  rw [Bytes.ofWords?_of_fits fun x hx => lt_of_mem_words h hx, Option.map_some, hbytes]

/-- **A writer refines a plain list of bits.**  Any writes, valid or not, are answered alike by
a writer over words of any size and by a destination that keeps a plain list.  Behind them, and
so behind every one of them, both hold the same number of bits and the same bytes, as many bytes
as the bits need.  All words can be laid out as bytes, the bytes of the writer are the first
ones of these, and they are those of a writer over words of any other size. -/
theorem refines_list {σ : Type} [BitSink σ] {list : σ → Bits} (hlist : BitSink.KeepsList list)
    {s : σ} (hs : list s = []) (w : Width) (qs : List WriteRequest) :
    (attempts qs (empty w)).1 = (attempts qs s).1 ∧
      let wr := (attempts qs (empty w)).2
      BitSink.Agree wr (attempts qs s).2 ∧
        (BitSink.bytes wr).length = BitSink.byteLength wr ∧
        (Bytes.ofWords? w wr.words).map (List.take (BitSink.byteLength wr)) =
          some (BitSink.bytes wr) ∧
        ∀ w', BitSink.bytes (attempts qs (empty w')).2 = BitSink.bytes wr := by
  have hfaithful := BitSink.faithful_of_keepsList hlist
  obtain ⟨hanswers, hholds⟩ := WriteRequest.attempts_appends (faithful w) (holds_empty w) qs
  obtain ⟨hanswers', hholds'⟩ := WriteRequest.attempts_appends hfaithful hs qs
  refine ⟨hanswers.trans hanswers'.symm,
    BitSink.agree_of_faithful (faithful w) hfaithful hholds hholds',
    BitSink.length_bytes_of_faithful (faithful w) hholds, take_ofWords?_of_holds hholds, ?_⟩
  intro w'
  exact (BitSink.agree_of_faithful (faithful w') (faithful w) (holds_attempts w' qs)
    (holds_attempts w qs)).bytes_eq

/-- Writes of every kind against the list itself: a negative number, a number of bits out of
bounds, a text with a wrong character and a field that crosses a word among them. -/
theorem refines_list_bitList :
    let qs : List WriteRequest := [.bits (-3) 5, .bits 1 65, .text "01x", .unsigned 300 4 16,
      .signed (-2) 3 1 8, .bitset 5 9 (some 3)]
    BitSink.KeepsList BitList.bits ∧ BitList.empty.bits = [] ∧
      (attempts qs (empty .w16)).1 = (attempts qs BitList.empty).1 ∧
      let wr := (attempts qs (empty .w16)).2
      BitSink.Agree wr (attempts qs BitList.empty).2 ∧
        (BitSink.bytes wr).length = BitSink.byteLength wr ∧
        (Bytes.ofWords? .w16 wr.words).map (List.take (BitSink.byteLength wr)) =
          some (BitSink.bytes wr) ∧
        ∀ w', BitSink.bytes (attempts qs (empty w')).2 = BitSink.bytes wr := by
  intro qs
  exact ⟨BitList.keepsList, rfl, refines_list BitList.keepsList rfl .w16 qs⟩

end Writer
end BitPack
