/-
# What a read takes

`ReadRequest.answer` says, without a source, what a read answers when given bits are ahead
and which bits it leaves.  A source is faithful to a relation between its states and the bits
ahead of them if its raw operation takes bits from the front, fewer than requested only at
the end, and refuses any other request.  Everything else follows from the raw operation:

* `BitSource.yields_readChunks`: the chunk loop decodes a field off the bits ahead, or takes
  them all and counts the payload among them;
* `ReadRequest.run_yields`: every read on a faithful source answers as `ReadRequest.answer`
  says, and a refused one leaves the state alone;
* `ReadRequest.attempts_yields`: reads one after the other, failures among them.
-/
import BitPack.Source
import BitPack.Proofs.FieldCode
import BitPack.Proofs.StreamText
import Mathlib.Tactic.Ring

namespace BitPack

/-! ## Answers of single reads -/

/-- A run of bits as the answer to a raw request. -/
def Taken.ofBits (s : Bits) : Taken := ⟨Bits.toNat s, s.length⟩

/-- What comes of the signal bit behind a chunk: the run ends in front of it, the field ends
with it, or more is to be read. -/
def afterSignal {α : Type} (onEnd onStop : α) (more : Bits → α × Bits) : Bits → α × Bits
  | [] => (onEnd, [])
  | false :: t => (onStop, t)
  | true :: t => more t

namespace Chunking

/-- The payload bits among the first `n` bits of a field that goes on: behind every full chunk
there is one signal bit, all else is payload. -/
def payloadOf (c : Chunking) (n : Nat) : Nat := n - n / (c.length + 1)

/-- Reads a field off a run and turns its number into another one.  A run that ends inside the
field is taken whole. -/
def read (c : Chunking) (f : Nat → Int) (t : Bits) : FieldRead × Bits :=
  match c.decode t with
  | some (v, r) => (.value (f v), r)
  | none => (.truncated c.length c.width.bits (c.payloadOf t.length), [])

section read

variable {c : Chunking} {f : Nat → Int} {t : Bits}

lemma read_of_some {x : Nat × Bits} (h : c.decode t = some x) :
    c.read f t = (.value (f x.1), x.2) := by
  rw [read, h]

lemma read_of_none (h : c.decode t = none) :
    c.read f t = (.truncated c.length c.width.bits (c.payloadOf t.length), []) := by
  rw [read, h]

lemma read_suffix : (c.read f t).2 <:+ t := by
  cases h : c.decode t with
  | none =>
    rw [read_of_none h]
    exact List.nil_suffix
  | some x =>
    rw [read_of_some h]
    exact decodeFrom_suffix h

end read

/-- Reads the rest of a field of which `payload` bits, forming `value`, have been read. -/
def readFrom (c : Chunking) (payload value : Nat) (t : Bits) : FieldRead × Bits :=
  match c.decodeFrom (c.width.bits - payload) t with
  | some (v, r) => (.value (value + v * 2 ^ payload : Nat), r)
  | none =>
    (.truncated c.length c.width.bits (payload + c.payloadOf t.length : Nat), [])

lemma payloadOf_of_le {c : Chunking} {n : Nat} (h : n ≤ c.length) : c.payloadOf n = n := by
  rw [payloadOf, Nat.div_eq_of_lt (by omega), Nat.sub_zero]

lemma payloadOf_chunk (c : Chunking) (n : Nat) :
    c.payloadOf (c.length + 1 + n) = c.length + c.payloadOf n := by
  have hle := Nat.div_le_self n (c.length + 1)
  have hdiv : (c.length + 1 + n) / (c.length + 1) = n / (c.length + 1) + 1 :=
    Nat.add_div_left n (Nat.succ_pos _)
  rw [payloadOf, payloadOf, hdiv]
  omega

section readFrom

variable {c : Chunking} {payload value : Nat} {t : Bits}

/-- The last chunk has no signal bit. -/
lemma readFrom_last (hlast : c.width.bits - payload ≤ c.length)
    (ht : c.width.bits - payload ≤ t.length) :
    c.readFrom payload value t =
      (.value (value + Bits.toNat (t.take (c.width.bits - payload)) * 2 ^ payload : Nat),
        t.drop (c.width.bits - payload)) := by
  rw [readFrom, decodeFrom_last hlast, if_pos ht]

/-- The run ends inside a chunk. -/
lemma readFrom_short (ht : t.length < min c.length (c.width.bits - payload)) :
    c.readFrom payload value t =
      (.truncated c.length c.width.bits (payload + t.length : Nat), []) := by
  have hnone : c.decodeFrom (c.width.bits - payload) t = none := by
    by_cases hlast : c.width.bits - payload ≤ c.length
    · rw [decodeFrom_last hlast, if_neg (by omega)]
    · rw [decodeFrom, if_neg hlast, List.drop_of_length_le (by omega)]
  rw [readFrom, hnone, payloadOf_of_le (by omega)]

/-- Behind a full chunk a signal bit ends the field or asks for more chunks. -/
lemma readFrom_chunk (hmore : ¬c.width.bits - payload ≤ c.length) (ht : t.length = c.length)
    (u : Bits) :
    c.readFrom payload value (t ++ u) =
      afterSignal (.truncated c.length c.width.bits (payload + c.length : Nat))
        (.value (value + Bits.toNat t * 2 ^ payload : Nat))
        (c.readFrom (payload + c.length) (value + Bits.toNat t * 2 ^ payload)) u := by
  rcases u with _ | ⟨b, u⟩
  · -- the run ends in front of the signal bit
    have hnone : c.decodeFrom (c.width.bits - payload) t = none := by
      rw [decodeFrom, if_neg hmore, List.drop_of_length_le (by omega)]
    rw [List.append_nil, readFrom, hnone, payloadOf_of_le (by omega), ht, afterSignal]
  · rw [readFrom, decodeFrom_chunk hmore ht]
    cases b with
    | false => rfl
    | true =>
      have hlen : (t ++ true :: u).length = c.length + 1 + u.length := by
        rw [List.length_append, List.length_cons, ht]
        omega
      rw [if_pos rfl, afterSignal, readFrom, Nat.sub_sub, hlen, payloadOf_chunk]
      cases c.decodeFrom (c.width.bits - (payload + c.length)) u with
      | none => rw [Option.map_none, Nat.add_assoc]
      | some x =>
        have hsum : value + Bits.toNat t * 2 ^ payload + x.1 * 2 ^ (payload + c.length) =
            value + (Bits.toNat t + 2 ^ c.length * x.1) * 2 ^ payload := by
          rw [Nat.pow_add]
          ring
        rw [Option.map_some]
        dsimp only
        rw [hsum]

end readFrom

lemma readFrom_zero (c : Chunking) (t : Bits) : c.readFrom 0 0 t = c.read Nat.cast t := by
  simp [readFrom, read, decode]

end Chunking

/-- The answer to a request when the bits `t` are ahead and the bits that it leaves, or its
error. -/
def ReadRequest.answer (t : Bits) : ReadRequest → Except Error (ReadAnswer × Bits)
  | bits count => do
    let n ← checkCount maxRawBits count
    return (.bits (Taken.ofBits (t.take n)), t.drop n)
  | text count => do
    let n ← checkCount maxRawBits count
    return (.text (BitText.ofBits (t.take n)), t.drop n)
  | bitset size count => do
    let n ← checkCount size (count.getD size)
    let n ← checkCount maxRawBits n
    return (.bits (Taken.ofBits (t.take n)), t.drop n)
  | unsigned chunkLength width => do
    let c ← Chunking.ofInts chunkLength width
    let x := c.read Nat.cast t
    return (.field x.1, x.2)
  | signed chunkLength exponent width => do
    let c ← Chunking.ofInts chunkLength width
    let k ← checkZigzagExponent exponent width
    let x := c.read (Zigzag.unfold k) t
    return (.field x.1, x.2)

namespace ReadRequest

variable {t : Bits}

lemma answer_bits {n : Nat} (hn : n ≤ 64) :
    (ReadRequest.bits n).answer t = .ok (.bits (Taken.ofBits (t.take n)), t.drop n) := by
  rw [answer, checkCount_maxRawBits hn]
  rfl

lemma answer_text {n : Nat} (hn : n ≤ 64) :
    (ReadRequest.text n).answer t = .ok (.text (BitText.ofBits (t.take n)), t.drop n) := by
  rw [answer, checkCount_maxRawBits hn]
  rfl

lemma answer_bitset {size : Int} {count : Option Int} {n : Nat} (hcount : count.getD size = n)
    (hsize : n ≤ size) (hn : n ≤ 64) :
    (ReadRequest.bitset size count).answer t =
      .ok (.bits (Taken.ofBits (t.take n)), t.drop n) := by
  rw [answer, hcount, checkCount_natCast hsize, ← answer_bits hn]
  rfl

lemma answer_unsigned (c : Chunking) :
    (ReadRequest.unsigned c.length c.width.bits).answer t =
      .ok (.field (c.read Nat.cast t).1, (c.read Nat.cast t).2) := by
  rw [answer, Chunking.ofInts_self]
  rfl

lemma answer_signed (c : Chunking) {k : Nat} (hk : k < c.width.bits) :
    (ReadRequest.signed c.length k c.width.bits).answer t =
      .ok (.field (c.read (Zigzag.unfold k) t).1, (c.read (Zigzag.unfold k) t).2) := by
  rw [answer, Chunking.ofInts_self,
    checkZigzagExponent_eq_ok_iff.mpr ⟨rfl, hk⟩]
  rfl

/-- The bits that a request leaves when the bits `t` are ahead; one that is refused leaves them
all. -/
def rest (t : Bits) (q : ReadRequest) : Bits :=
  match q.answer t with
  | .ok a => a.2
  | .error _ => t

/-- The answers to requests, one after the other, when the bits `t` are ahead. -/
def answers : Bits → List ReadRequest → List (Except Error ReadAnswer)
  | _, [] => []
  | t, q :: qs => (q.answer t).map Prod.fst :: answers (q.rest t) qs

/-- The bits that requests leave. -/
def rests (t : Bits) (qs : List ReadRequest) : Bits := qs.foldl rest t

lemma rest_suffix (t : Bits) (q : ReadRequest) : q.rest t <:+ t := by
  rw [rest]
  split
  · next a ha =>
    cases q with
    | bits count =>
      simp only [answer, Except.bind_eq_ok_iff] at ha
      obtain ⟨n, -, h⟩ := ha
      cases h
      exact List.drop_suffix n t
    | text count =>
      simp only [answer, Except.bind_eq_ok_iff] at ha
      obtain ⟨n, -, h⟩ := ha
      cases h
      exact List.drop_suffix n t
    | bitset size count =>
      simp only [answer, Except.bind_eq_ok_iff] at ha
      obtain ⟨_, -, n, -, h⟩ := ha
      cases h
      exact List.drop_suffix n t
    | unsigned chunkLength width =>
      simp only [answer, Except.bind_eq_ok_iff] at ha
      obtain ⟨c, -, h⟩ := ha
      cases h
      exact Chunking.read_suffix
    | signed chunkLength exponent width =>
      simp only [answer, Except.bind_eq_ok_iff] at ha
      obtain ⟨c, -, k, -, h⟩ := ha
      cases h
      exact Chunking.read_suffix
  · exact List.suffix_refl t

lemma rests_append (t : Bits) (qs qs' : List ReadRequest) :
    rests t (qs ++ qs') = rests (rests t qs) qs' :=
  List.foldl_append

lemma rests_suffix (t : Bits) (qs : List ReadRequest) : rests t qs <:+ t := by
  induction qs generalizing t with
  | nil => exact List.suffix_refl t
  | cons q qs ih => exact (ih (q.rest t)).trans (rest_suffix t q)

lemma attempts_cons {σ : Type} [BitSource σ] (q : ReadRequest) (qs : List ReadRequest) (s : σ) :
    attempts (q :: qs) s =
      ((q.attempt s).1 :: (attempts qs (q.attempt s).2).1, (attempts qs (q.attempt s).2).2) :=
  rfl

end ReadRequest

/-! ## Faithful sources -/

namespace BitSource

variable {σ : Type}

/-- A computation gives an answer and leaves bits ahead, or it fails with an error and leaves
the state alone. -/
def Yields {α : Type} (R : σ → Bits → Prop) (x : EStateM Error σ α) (s : σ) :
    Except Error (α × Bits) → Prop
  | .ok a => ∃ s', x.run s = .ok a.1 s' ∧ R s' a.2
  | .error e => x.run s = .error e s

section Answers

variable {α β : Type} {R : σ → Bits → Prop} {s : σ} {t : Bits}

/-- A check in front of a computation answers with its error when it fails. -/
lemma yields_check (check : Except Error α) {f : α → EStateM Error σ β}
    {g : α → Except Error (β × Bits)} (h : ∀ a, check = .ok a → Yields R (f a) s (g a)) :
    Yields R (liftM check >>= f) s (check >>= g) := by
  cases check with
  | error e => rfl
  | ok a => exact h a rfl

lemma yields_pure (h : R s t) (a : α) : Yields R (pure a) s (.ok (a, t)) := ⟨s, rfl, h⟩

/-- A computation that succeeds is followed by the next one. -/
lemma yields_bind {x : EStateM Error σ α} {f : α → EStateM Error σ β} {a : α × Bits}
    {b : β × Bits} (hx : Yields R x s (.ok a))
    (hf : ∀ s', R s' a.2 → Yields R (f a.1) s' (.ok b)) : Yields R (x >>= f) s (.ok b) := by
  obtain ⟨s', hs', hR⟩ := hx
  obtain ⟨s'', hs'', hR'⟩ := hf s' hR
  refine ⟨s'', ?_, hR'⟩
  rw [EStateM.run_bind, hs']
  exact hs''

/-- A computation that may fail is followed by one that does not. -/
lemma yields_bind_map {x : EStateM Error σ α} {f : α → EStateM Error σ β}
    {answer : Except Error (α × Bits)} {g : α × Bits → β × Bits} (hx : Yields R x s answer)
    (hf : ∀ a, answer = .ok a → ∀ s', R s' a.2 → Yields R (f a.1) s' (.ok (g a))) :
    Yields R (x >>= f) s (g <$> answer) := by
  cases answer with
  | error e =>
    show (x >>= f).run s = .error e s
    rw [EStateM.run_bind, show x.run s = .error e s from hx]
  | ok a => exact yields_bind hx (hf a rfl)

/-- An answer turned into another one. -/
lemma yields_map {x : EStateM Error σ α} (f : α → β) {answer : Except Error (α × Bits)}
    (hx : Yields R x s answer) :
    Yields R (f <$> x) s ((fun a => (f a.1, a.2)) <$> answer) := by
  rw [map_eq_pure_bind f x]
  refine yields_bind_map hx ?_
  intro a _ s' h
  exact yields_pure h (f a.1)

end Answers

variable [BitSource σ]

/-- A source whose states have runs of bits ahead as `R` says: the raw operation takes bits from the
front, those that are left at the end, and the end is reached when no bit is ahead. -/
structure Faithful (R : σ → Bits → Prop) : Prop where
  readBits {s : σ} {t : Bits} (h : R s t) (count : Int) :
    Yields R (BitSource.readBits count) s
      (checkCount maxRawBits count >>= fun n => .ok (Taken.ofBits (t.take n), t.drop n))
  reachedEnd {s : σ} {t : Bits} (h : R s t) : BitSource.reachedEnd s = t.isEmpty

/-- Raw reads of at most `m` bits take the bits in front. -/
def TakesFront (R : σ → Bits → Prop) (m : Nat) : Prop :=
  ∀ ⦃s : σ⦄ ⦃t : Bits⦄, R s t → ∀ n : Nat, n ≤ m →
    Yields R (readBits n) s (.ok (Taken.ofBits (t.take n), t.drop n))

section Chunks

variable {R : σ → Bits → Prop} {m : Nat} (hR : TakesFront R m) (hm : 1 ≤ m) {s : σ} {t : Bits}
include hR hm

/-- A signal bit ends a field or lets it go on; without one the field is truncated. -/
lemma TakesFront.yields_signal {α : Type} (h : R s t) {onEnd onStop : α}
    {more : EStateM Error σ α} {rest : Bits → α × Bits}
    (hmore : ∀ u s', R s' u → Yields R more s' (.ok (rest u))) :
    Yields R
      (readBits 1 >>= fun signal =>
        if signal.count ≠ 1 then pure onEnd
        else if signal.value = 0 then pure onStop
        else more)
      s (.ok (afterSignal onEnd onStop rest t)) := by
  have hone : (1 : Int) = (1 : Nat) := rfl
  rw [hone]
  refine yields_bind (hR h 1 hm) ?_
  intro s' h'
  cases t with
  | nil => exact yields_pure h' onEnd
  | cons b u =>
    have hsignal : Taken.ofBits ((b :: u).take 1) = ⟨(b.toNat : Nat), 1⟩ := by
      simp [Taken.ofBits]
    rw [hsignal, if_neg (fun hne => hne rfl)]
    cases b with
    | false => exact yields_pure h' onStop
    | true => exact hmore u s' h'

/-- The chunk loop reads the rest of a field off the bits ahead, if no chunk is longer than the
raw reads may be. -/
lemma TakesFront.yields_readChunks {c : Chunking} (hc : min c.length c.width.bits ≤ m)
    {payload value : Nat} (hp : payload < c.width.bits) (hvalue : value < 2 ^ payload) (h : R s t) :
    Yields R (readChunks c payload value) s (.ok (c.readFrom payload value t)) := by
  induction hleft : c.width.bits - payload using Nat.strongRecOn
    generalizing payload value s t with
  | _ left ih =>
    have hpos := c.length_pos
    rw [readChunks]
    refine yields_bind (hR h _ (by omega)) ?_
    intro s₁ h₁
    dsimp only at h₁ ⊢
    by_cases hshort : t.length < min c.length (c.width.bits - payload)
    · -- the bits end inside the chunk
      rw [List.drop_of_length_le (by omega)] at h₁
      rw [Chunking.readFrom_short hshort, List.take_of_length_le (by omega), if_pos]
      · exact yields_pure h₁ _
      · rw [Taken.ofBits]
        dsimp only
        omega
    · have hcount : (Taken.ofBits (t.take (min c.length (c.width.bits - payload)))).count =
          (min c.length (c.width.bits - payload) : Nat) := by
        rw [Taken.ofBits, List.length_take_of_le (by omega)]
      rw [if_neg (fun hne => hne hcount), Taken.ofBits, Bits.orInt_mul_two_pow hvalue]
      by_cases hlast : c.width.bits - payload ≤ c.length
      · -- the last chunk
        rw [Nat.min_eq_right hlast] at *
        rw [dif_pos (by omega), Chunking.readFrom_last hlast (by omega)]
        exact yields_pure h₁ _
      · -- a full chunk, behind which a signal bit is due
        rw [Nat.min_eq_left (by omega)] at *
        rw [dif_neg (by omega)]
        have hlen : (t.take c.length).length = c.length := List.length_take_of_le (by omega)
        have hread : c.readFrom payload value (t.take c.length ++ t.drop c.length) = _ :=
          Chunking.readFrom_chunk hlast hlen _
        rw [List.take_append_drop] at hread
        rw [hread]
        refine hR.yields_signal hm h₁ ?_
        intro u s₂ h₂
        have hjoined := Bits.add_mul_two_pow_lt hvalue (Bits.toNat_take_lt t c.length)
        exact ih (c.width.bits - (payload + c.length)) (by omega) (by omega) hjoined h₂ rfl

/-- An unsigned field is read off the bits ahead. -/
lemma TakesFront.yields_readUnsigned {c : Chunking} (hc : min c.length c.width.bits ≤ m)
    (h : R s t) :
    Yields R (readUnsigned c.length c.width.bits) s (.ok (c.read Nat.cast t)) := by
  have hread : Yields R (readUnsigned c.length c.width.bits) s
      (Chunking.ofInts c.length c.width.bits >>= fun c => .ok (c.read Nat.cast t)) := by
    refine yields_check _ ?_
    intro c' hc'
    obtain rfl : c = c' := by simpa using hc'
    rw [← c.readFrom_zero]
    exact hR.yields_readChunks hm hc c.width.bits_pos Nat.one_pos h
  rwa [Chunking.ofInts_self] at hread

end Chunks

section Reads

variable {R : σ → Bits → Prop} (hR : Faithful R) {s : σ} {t : Bits}
include hR

lemma yields_readBits_natCast (h : R s t) {n : Nat} (hn : n ≤ 64) :
    Yields R (readBits n) s (.ok (Taken.ofBits (t.take n), t.drop n)) := by
  have hread := hR.readBits h n
  rwa [checkCount_maxRawBits hn] at hread

lemma Faithful.takesFront : TakesFront R 64 :=
  fun _ _ h _ hn => yields_readBits_natCast hR h hn

/-- The chunk loop reads a field off the bits ahead. -/
lemma yields_readChunks (c : Chunking) (h : R s t) :
    Yields R (readChunks c 0 0) s (.ok (c.read Nat.cast t)) := by
  have hw := c.width.bits_le
  rw [← c.readFrom_zero]
  exact hR.takesFront.yields_readChunks (by decide) (by omega) c.width.bits_pos Nat.one_pos h

lemma yields_readText (h : R s t) (count : Int) :
    Yields R (readText count) s
      (checkCount maxRawBits count >>= fun n => .ok (BitText.ofBits (t.take n), t.drop n)) := by
  have hread := hR.readBits h count
  cases hn : checkCount maxRawBits count with
  | error e =>
    rw [hn] at hread
    show (readText count).run s = .error e s
    rw [readText, EStateM.run_bind, show (readBits count).run s = .error e s from hread]
  | ok n =>
    rw [hn] at hread
    obtain ⟨rfl, hn⟩ := checkCount_eq_ok_iff.mp hn
    refine yields_bind hread ?_
    intro s' h'
    have hlen : (t.take n).length ≤ 64 :=
      Nat.le_trans (List.length_take_le n t) (by rw [maxRawBits] at hn; omega)
    rw [Taken.ofBits, BitText.ofNumber_toNat hlen]
    exact yields_pure h' _

lemma yields_readBitset (h : R s t) (size : Int) (count : Option Int) :
    Yields R (readBitset size count) s
      (checkCount size (count.getD size) >>= fun n =>
        checkCount maxRawBits n >>= fun n => .ok (Taken.ofBits (t.take n), t.drop n)) :=
  yields_check _ fun n _ => hR.readBits h n

lemma yields_readUnsigned (h : R s t) (chunkLength width : Int) :
    Yields R (readUnsigned chunkLength width) s
      (Chunking.ofInts chunkLength width >>= fun c => .ok (c.read Nat.cast t)) := by
  refine yields_check _ ?_
  intro c _
  exact yields_readChunks hR c h

/-- What is read of a signed field is a code of its width, so unfolding it does not fail. -/
lemma yields_readSigned (h : R s t) (chunkLength exponent width : Int) :
    Yields R (readSigned chunkLength exponent width) s
      (Chunking.ofInts chunkLength width >>= fun c =>
        checkZigzagExponent exponent width >>= fun k => .ok (c.read (Zigzag.unfold k) t)) := by
  refine yields_check _ ?_
  intro c hc
  refine yields_check _ ?_
  intro k hk
  obtain ⟨rfl, rfl⟩ := Chunking.ofInts_eq_ok_iff.mp hc
  obtain ⟨-, hk⟩ := checkZigzagExponent_eq_ok_iff.mp hk
  have hread := yields_readChunks hR c h
  cases hd : c.decode t with
  | none =>
    -- a truncated field is handed on as it is
    rw [Chunking.read_of_none hd] at hread ⊢
    refine yields_bind hread ?_
    intro s' h'
    exact yields_pure h' _
  | some x =>
    rw [Chunking.read_of_some hd] at hread ⊢
    refine yields_bind hread ?_
    intro s' h'
    dsimp only
    rw [Zigzag.decodeBlocks_eq_ok hk (Chunking.lt_of_decodeFrom hd)]
    exact yields_pure h' _

/-- With arguments within bounds, an unsigned field is not refused. -/
lemma run_readUnsigned_of_faithful (h : R s t) (c : Chunking) :
    ∃ s', (readUnsigned c.length c.width.bits).run s = .ok (c.read Nat.cast t).1 s' ∧
      R s' (c.read Nat.cast t).2 := by
  have hread := yields_readUnsigned hR h c.length c.width.bits
  rwa [Chunking.ofInts_self] at hread

/-- With arguments within bounds, a signed field is not refused. -/
lemma run_readSigned_of_faithful (h : R s t) {c : Chunking} {k : Nat} (hk : k < c.width.bits) :
    ∃ s', (readSigned c.length k c.width.bits).run s = .ok (c.read (Zigzag.unfold k) t).1 s' ∧
      R s' (c.read (Zigzag.unfold k) t).2 := by
  have hread := yields_readSigned hR h c.length k c.width.bits
  rwa [Chunking.ofInts_self, checkZigzagExponent_of_lt hk] at hread

end Reads
end BitSource

namespace ReadRequest

variable {σ : Type} [BitSource σ] {R : σ → Bits → Prop} (hR : BitSource.Faithful R)
include hR

/-- Every read on a faithful source answers as the bits ahead say and leaves those behind
them, or fails with its error. -/
lemma run_yields {s : σ} {t : Bits} (h : R s t) (q : ReadRequest) :
    BitSource.Yields R q.run s (q.answer t) := by
  cases q with
  | bits count =>
    have hread := BitSource.yields_map ReadAnswer.bits (hR.readBits h count)
    rwa [map_bind] at hread
  | text count =>
    have hread := BitSource.yields_map ReadAnswer.text (BitSource.yields_readText hR h count)
    rwa [map_bind] at hread
  | bitset size count =>
    have hread := BitSource.yields_map ReadAnswer.bits
      (BitSource.yields_readBitset hR h size count)
    simp only [map_bind] at hread
    exact hread
  | unsigned chunkLength width =>
    have hread := BitSource.yields_map ReadAnswer.field
      (BitSource.yields_readUnsigned hR h chunkLength width)
    rwa [map_bind] at hread
  | signed chunkLength exponent width =>
    have hread := BitSource.yields_map ReadAnswer.field
      (BitSource.yields_readSigned hR h chunkLength exponent width)
    simp only [map_bind] at hread
    exact hread

/-- A read without an answer leaves a faithful source as it is. -/
lemma attempt_of_error {s : σ} {t : Bits} (h : R s t) {q : ReadRequest} {e : Error}
    (hq : q.answer t = .error e) : q.attempt s = (.error e, s) := by
  have hrun := run_yields hR h q
  rw [hq] at hrun
  rw [attempt, show q.run.run s = .error e s from hrun]

/-- A single attempt gives the answer of the bits ahead and leaves those behind them. -/
lemma attempt_yields {s : σ} {t : Bits} (h : R s t) (q : ReadRequest) :
    (q.attempt s).1 = (q.answer t).map Prod.fst ∧ R (q.attempt s).2 (q.rest t) := by
  cases ha : q.answer t with
  | ok a =>
    have hrun := run_yields hR h q
    rw [ha] at hrun
    obtain ⟨s', hs', h'⟩ := hrun
    rw [attempt, rest, hs', ha]
    exact ⟨rfl, h'⟩
  | error e =>
    rw [attempt_of_error hR h ha, rest, ha]
    exact ⟨rfl, h⟩

/-- Attempts one after the other: every one is answered as the bits ahead of it say. -/
lemma attempts_yields {s : σ} {t : Bits} (h : R s t) (qs : List ReadRequest) :
    (attempts qs s).1 = answers t qs ∧ R (attempts qs s).2 (rests t qs) := by
  induction qs generalizing s t with
  | nil => exact ⟨rfl, h⟩
  | cons q qs ih =>
    obtain ⟨h1, h2⟩ := attempt_yields hR h q
    obtain ⟨h3, h4⟩ := ih h2
    refine ⟨?_, h4⟩
    rw [attempts_cons, answers, h1, h3]

end ReadRequest
end BitPack
