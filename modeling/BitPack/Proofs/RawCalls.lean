/-
# The raw calls of a field

A field is written and read by raw calls for a chunk and for a signal bit in turn.  A destination or
a source may be anything: it may refuse calls, and a source may answer with any numbers, also with
such that make no sense.  So what is asked of it must not depend on what it answers.  It does not:
the calls begin a list that only the width and the length of a chunk determine
(`Chunking.callsFrom`), which gives a bound for their number and bounds for what each of them asks
for (`Chunking.fieldCalls_of_isPrefix`).  A destination or source with a count of its calls, refused
ones among them, acts like the one without (`Counted.counts_writePieces`,
`Counted.counts_readChunks`).  Both together are `Chunking.raw_calls`.
-/
import Mathlib.Algebra.BigOperators.Ring.Finset
import Mathlib.Algebra.Order.BigOperators.Group.List
import Mathlib.Data.List.Infix
import BitPack.Proofs.Sizes

namespace BitPack

/-! ## The raw calls that a field may take -/

/-- The first element of a list, the third one and so on. -/
def everyOther {α : Type} : List α → List α
  | [] => []
  | [a] => [a]
  | a :: _ :: l => a :: everyOther l

section everyOther

variable {α : Type}

@[simp] lemma everyOther_nil : everyOther ([] : List α) = [] := rfl

lemma everyOther_cons (a : α) (l : List α) : everyOther (a :: l) = a :: everyOther l.tail := by
  cases l <;> rfl

lemma everyOther_subset (l : List α) : everyOther l ⊆ l := by
  fun_induction everyOther l with
  | case1 => exact List.Subset.refl _
  | case2 a => exact List.Subset.refl _
  | case3 a b l ih =>
    exact List.cons_subset_cons a (List.Subset.trans ih (List.subset_cons_self b l))

lemma everyOther_isPrefix {l l' : List α} (h : l <+: l') : everyOther l <+: everyOther l' := by
  obtain ⟨rest, rfl⟩ := h
  fun_induction everyOther l with
  | case1 => exact List.nil_prefix
  | case2 a => exact ⟨everyOther rest.tail, (everyOther_cons a rest).symm⟩
  | case3 a b l ih => exact List.cons_prefix_cons.mpr ⟨rfl, ih⟩

end everyOther

namespace Chunking

variable {c : Chunking} {left : Nat} {n : Int} {calls : List Int}

/-- The numbers of bits of the raw calls for a field that goes on to the end of its width when
`left` bits of it are left: chunks with a signal bit behind each but the last one. -/
def callsFrom (c : Chunking) (left : Nat) : List Int :=
  if left ≤ c.length then [(left : Int)]
  else (c.length : Int) :: 1 :: c.callsFrom (left - c.length)
termination_by left
decreasing_by
  have := c.length_pos
  omega

lemma callsFrom_last (h : left ≤ c.length) : c.callsFrom left = [(left : Int)] := by
  rw [callsFrom, if_pos h]

lemma callsFrom_more (h : ¬left ≤ c.length) :
    c.callsFrom left = (c.length : Int) :: 1 :: c.callsFrom (left - c.length) := by
  rw [callsFrom, if_neg h]

lemma length_callsFrom (h : 0 < left) :
    (c.callsFrom left).length = 2 * ((left - 1) / c.length) + 1 := by
  fun_induction callsFrom c left with
  | case1 left hlast =>
    rw [Nat.div_eq_of_lt (by omega)]
    rfl
  | case2 left hmore ih =>
    rw [List.length_cons, List.length_cons, ih (by omega), pred_div_length hmore]
    omega

/-- Each call asks for some bits, but not for more than are left. -/
lemma bounds_of_mem_callsFrom (h : 0 < left) (hn : n ∈ c.callsFrom left) : 1 ≤ n ∧ n ≤ left := by
  have hc := c.length_pos
  fun_induction callsFrom c left with
  | case1 left hlast =>
    obtain rfl := List.mem_singleton.mp hn
    omega
  | case2 left hmore ih =>
    simp only [List.mem_cons] at hn
    rcases hn with rfl | rfl | hn
    · omega
    · omega
    · have := ih (by omega) hn
      omega

/-- The payload asked for is what is left of the width. -/
lemma sum_everyOther_callsFrom : (everyOther (c.callsFrom left)).sum = left := by
  fun_induction callsFrom c left with
  | case1 left hlast => simp [everyOther]
  | case2 left hmore ih =>
    rw [everyOther, List.sum_cons, ih]
    omega

/-- Between the chunks one bit is asked for at a time. -/
lemma eq_one_of_mem_everyOther_tail (hn : n ∈ everyOther (c.callsFrom left).tail) : n = 1 := by
  fun_induction callsFrom c left with
  | case1 left hlast => simp at hn
  | case2 left hmore ih =>
    rw [List.tail_cons, everyOther_cons, List.mem_cons] at hn
    rcases hn with rfl | hn
    · rfl
    · exact ih hn

/-- The pieces of a number are as long as calls that a field may take. -/
lemma map_count_piecesFrom_isPrefix (c : Chunking) (left value : Nat) :
    ((c.piecesFrom left value).map fun p => (p.count : Int)) <+: c.callsFrom left := by
  fun_induction piecesFrom c left value with
  | case1 left value hlast => rw [callsFrom_last hlast]; exact List.prefix_refl _
  | case2 left value hmore rest hrest =>
    rw [callsFrom_more hmore]
    exact ⟨c.callsFrom (left - c.length), rfl⟩
  | case3 left value hmore rest hrest ih =>
    rw [callsFrom_more hmore]
    exact List.cons_prefix_cons.mpr ⟨rfl, List.cons_prefix_cons.mpr ⟨rfl, ih⟩⟩

/-- Together the pieces are as long as the code. -/
lemma sum_count_pieces (c : Chunking) (value : Nat) :
    ((c.pieces value).map fun p => (p.count : Int)).sum = c.size value := by
  have hcode := congrArg List.length (c.flatMap_pieces value)
  rw [List.length_flatMap, length_encode] at hcode
  rw [← hcode]
  simp only [Piece.bits, Bits.length_ofInt]
  rw [Nat.cast_list_sum, List.map_map]
  rfl

/-- What the raw calls for a field are like.  There is at most one for each chunk and one for the
signal bit behind each full chunk in front of the last bit, and each asks for a number of bits that
a raw operation has to carry out.  The first one, the third one and so on ask for payload, together
for no more than the width; the others ask for a signal bit. -/
structure FieldCalls (c : Chunking) (calls : List Int) : Prop where
  length_le : calls.length ≤ 2 * ((c.width.bits - 1) / c.length) + 1
  bounds : ∀ n ∈ calls, 1 ≤ n ∧ n ≤ 64
  payload_le : (everyOther calls).sum ≤ c.width.bits
  signal_eq : ∀ n ∈ everyOther calls.tail, n = 1

/-- Any calls that begin those of the longest field are like that. -/
lemma fieldCalls_of_isPrefix (h : calls <+: c.callsFrom c.width.bits) : c.FieldCalls calls := by
  have hw := c.width.bits_pos
  have hmax := c.width.bits_le
  refine ⟨?_, ?_, ?_, ?_⟩
  · rw [← length_callsFrom hw]
    exact h.length_le
  · intro n hn
    have := bounds_of_mem_callsFrom hw (h.subset hn)
    omega
  · -- the payload that is not asked for any more is not negative
    rw [← sum_everyOther_callsFrom (c := c)]
    refine (everyOther_isPrefix h).sublist.sum_le_sum fun n hn => ?_
    have := bounds_of_mem_callsFrom hw (everyOther_subset _ hn)
    omega
  · intro n hn
    have htail : calls.tail <+: (c.callsFrom c.width.bits).tail := by simpa using h.drop 1
    exact eq_one_of_mem_everyOther_tail ((everyOther_isPrefix htail).subset hn)

end Chunking

/-! ## Counting raw calls -/

/-- A destination or a source and the numbers of bits of all raw calls made on it. -/
structure Counted (σ : Type) where
  /-- The destination or the source. -/
  stream : σ
  /-- The numbers of bits, first call first. -/
  calls : List Int

namespace Counted

variable {σ α β : Type}

/-- A destination or a source on which no raw call has been made. -/
def start (s : σ) : Counted σ := ⟨s, []⟩

/-- Makes a raw call and keeps its number of bits, also when it is refused. -/
def call (n : Int) (x : EStateM Error σ α) : EStateM Error (Counted σ) α := fun s =>
  match x.run s.stream with
  | .ok a t => .ok a ⟨t, s.calls ++ [n]⟩
  | .error e t => .error e ⟨t, s.calls ++ [n]⟩

lemma run_call (n : Int) (x : EStateM Error σ α) (s : Counted σ) :
    (call n x).run s =
      match x.run s.stream with
      | .ok a t => .ok a ⟨t, s.calls ++ [n]⟩
      | .error e t => .error e ⟨t, s.calls ++ [n]⟩ :=
  rfl

instance [BitSink σ] : BitSink (Counted σ) where
  writeBits value count := call count (BitSink.writeBits value count)
  bitLength s := BitSink.bitLength s.stream
  bytes s := BitSink.bytes s.stream

instance [BitSource σ] : BitSource (Counted σ) where
  readBits count := call count (BitSource.readBits count)
  reachedEnd s := BitSource.reachedEnd s.stream
  onlyZeroesLeft s := BitSource.onlyZeroesLeft s.stream

/-- A computation does to a stream what another one does to it, and its raw calls begin the list
`ns`.  If it fails, the last of them has been refused. -/
def Counts (Refused : Int → Error → σ → Prop) (ns : List Int) (x : EStateM Error (Counted σ) α)
    (y : EStateM Error σ α) : Prop :=
  ∀ s, ∃ calls, calls <+: ns ∧
    match y.run s.stream with
    | .ok a t => x.run s = .ok a ⟨t, s.calls ++ calls⟩
    | .error e t =>
      x.run s = .error e ⟨t, s.calls ++ calls⟩ ∧ ∃ n, calls.getLast? = some n ∧ Refused n e t

@[simp] lemma start_stream (s : σ) : (start s).stream = s := rfl

@[simp] lemma start_calls (s : σ) : (start s).calls = [] := rfl

section Counts

variable {Refused : Int → Error → σ → Prop} {n : Int} {ns : List Int}

/-- A computation may end in front of calls that it could make. -/
lemma counts_pure (a : α) : Counts Refused ns (pure a) (pure a) := by
  intro s
  exact ⟨[], List.nil_prefix, by rw [List.append_nil]; rfl⟩

/-- A raw call is followed by a computation that may make further ones. -/
lemma counts_call {x : EStateM Error σ α} {f : α → EStateM Error (Counted σ) β}
    {g : α → EStateM Error σ β} (hx : ∀ s e t, x.run s = .error e t → Refused n e t)
    (hf : ∀ a, Counts Refused ns (f a) (g a)) :
    Counts Refused (n :: ns) (call n x >>= f) (x >>= g) := by
  intro s
  rw [EStateM.run_bind, EStateM.run_bind, run_call]
  cases hrun : x.run s.stream with
  | error e t =>
    exact ⟨[n], ⟨ns, rfl⟩, rfl, n, rfl, hx _ e t hrun⟩
  | ok a t =>
    obtain ⟨calls, hcalls, hresult⟩ := hf a ⟨t, s.calls ++ [n]⟩
    refine ⟨n :: calls, List.cons_prefix_cons.mpr ⟨rfl, hcalls⟩, ?_⟩
    dsimp only at hresult ⊢
    rw [List.append_assoc, List.singleton_append] at hresult
    cases hg : (g a).run t with
    | ok b u =>
      rw [hg] at hresult
      exact hresult
    | error e u =>
      rw [hg] at hresult
      obtain ⟨hrun', m, hlast, hm⟩ := hresult
      exact ⟨hrun', m, by rw [List.getLast?_cons, hlast, Option.getD_some], hm⟩

lemma counts_start {x : EStateM Error (Counted σ) α} {y : EStateM Error σ α}
    (h : Counts Refused ns x y) (s : σ) :
    ∃ calls, calls <+: ns ∧
      match y.run s with
      | .ok a t => x.run (start s) = .ok a ⟨t, calls⟩
      | .error e t =>
        x.run (start s) = .error e ⟨t, calls⟩ ∧ ∃ n, calls.getLast? = some n ∧ Refused n e t := by
  simpa only [start_stream, start_calls, List.nil_append] using h (start s)

end Counts

/-! ## Writing -/

section Writing

variable [BitSink σ]

lemma writeBits_eq_call (value n : Int) :
    (BitSink.writeBits value n : EStateM Error (Counted σ) Unit) =
      call n (BitSink.writeBits value n) :=
  rfl

/-- Some raw write of `n` bits has been refused. -/
def WriteRefused (n : Int) (e : Error) (t : σ) : Prop :=
  ∃ value s, (BitSink.writeBits value n).run s = .error e t

/-- Pieces are written by a raw write for each of them. -/
lemma counts_writePieces (ps : List Piece) :
    Counts (σ := σ) WriteRefused (ps.map fun p => (p.count : Int)) (BitSink.writePieces ps)
      (BitSink.writePieces ps) := by
  induction ps with
  | nil => exact counts_pure ()
  | cons p ps ih =>
    exact counts_call (fun s e t h => ⟨p.value, s, h⟩) fun _ => ih

/-- If none is refused, all of them are made. -/
lemma calls_of_writePieces_ok {ps : List Piece} {s t : Counted σ}
    (h : (BitSink.writePieces ps).run s = .ok () t) :
    t.calls = s.calls ++ ps.map fun p => (p.count : Int) := by
  induction ps generalizing s with
  | nil =>
    obtain rfl : s = t := by simpa [BitSink.writePieces] using h
    rw [List.map_nil, List.append_nil]
  | cons p ps ih =>
    rw [BitSink.writePieces, EStateM.run_bind, writeBits_eq_call, run_call] at h
    cases hrun : (BitSink.writeBits (p.value : Int) p.count).run s.stream with
    | error e u =>
      rw [hrun] at h
      simp at h
    | ok _ u =>
      rw [hrun] at h
      rw [ih h, List.append_assoc, List.singleton_append, List.map_cons]

end Writing

/-! ## Reading -/

section Reading

variable [BitSource σ]

/-- Some raw read of `n` bits has been refused. -/
def ReadRefused (n : Int) (e : Error) (t : σ) : Prop :=
  ∃ s, (BitSource.readBits n).run s = .error e t

/-- Whatever a source answers, it is asked for chunks and signal bits in turn, up to the end of the
width. -/
lemma counts_readChunks (c : Chunking) {payload : Nat} (hpayload : payload < c.width.bits)
    (value : Int) :
    Counts (σ := σ) ReadRefused (c.callsFrom (c.width.bits - payload))
      (BitSource.readChunks c payload value) (BitSource.readChunks c payload value) := by
  induction payload, value using BitSource.readChunks.induct c with
  | case1 payload value n ih =>
    have hc := c.length_pos
    rw [BitSource.readChunks, BitSource.readChunks]
    by_cases hlast : c.width.bits - payload ≤ c.length
    · rw [Nat.min_eq_right hlast, Chunking.callsFrom_last hlast]
      refine counts_call (fun s e t h => ⟨s, h⟩) fun t => ?_
      split
      · exact counts_pure _
      · rw [dif_pos (by omega), dif_pos (by omega)]
        exact counts_pure _
    · have hn : n = c.length := Nat.min_eq_left (by omega)
      rw [hn] at ih
      rw [Nat.min_eq_left (by omega), Chunking.callsFrom_more hlast, Nat.sub_sub]
      refine counts_call (fun s e t h => ⟨s, h⟩) fun t => ?_
      split
      · exact counts_pure _
      · rw [dif_neg (by omega), dif_neg (by omega)]
        refine counts_call (fun s e t h => ⟨s, h⟩) fun signal => ?_
        split
        · exact counts_pure _
        · split
          · exact counts_pure _
          · exact ih t (by omega) (by omega)

end Reading
end Counted

namespace Chunking

open Counted

section Field

variable {σ : Type} (c : Chunking)

lemma writeUnsigned_eq_writePieces [BitSink σ] {v : Nat} (hv : v < 2 ^ c.width.bits) :
    (BitSink.writeUnsigned v c.length c.width.bits : EStateM Error σ Unit) =
      BitSink.writePieces (c.pieces v) := by
  have hcheck : checkUnsigned v c.width.bits = .ok v := checkUnsigned_eq_ok_iff.mpr ⟨rfl, hv⟩
  rw [BitSink.writeUnsigned, ofInts_self, hcheck]
  rfl

lemma readUnsigned_eq_readChunks [BitSource σ] :
    (BitSource.readUnsigned c.length c.width.bits : EStateM Error σ FieldRead) =
      BitSource.readChunks c 0 0 := by
  rw [BitSource.readUnsigned, ofInts_self]
  rfl

end Field

/-- **The raw calls of a field.**  Whatever a destination or a source does, a field is written and
read in at most one raw call for each chunk and one for each signal bit that the width has room
for.  Each call asks for 1 to 64 bits, the signal bits one by one, and the payload asked for is not
more than the width.  Only a refused call ends a field with an error.  The calls that write a number
ask for as many bits in all as its size says, or for fewer if one of them is refused. -/
theorem raw_calls (c : Chunking) :
    (∀ v : Nat, v < 2 ^ c.width.bits →
      ∃ size, unsignedSize v c.length c.width.bits = .ok size ∧
        ∀ {σ : Type} [BitSink σ] (s : σ), ∃ calls, c.FieldCalls calls ∧
          match (BitSink.writeUnsigned v c.length c.width.bits).run s with
          | .ok _ t =>
            (BitSink.writeUnsigned v c.length c.width.bits).run (Counted.start s) =
                .ok () ⟨t, calls⟩ ∧
              calls.sum = size
          | .error e t =>
            (BitSink.writeUnsigned v c.length c.width.bits).run (Counted.start s) =
                .error e ⟨t, calls⟩ ∧
              calls.sum ≤ size ∧ ∃ n, calls.getLast? = some n ∧ WriteRefused n e t) ∧
    ∀ {σ : Type} [BitSource σ] (s : σ), ∃ calls, c.FieldCalls calls ∧
      match (BitSource.readUnsigned c.length c.width.bits).run s with
      | .ok x t =>
        (BitSource.readUnsigned c.length c.width.bits).run (Counted.start s) = .ok x ⟨t, calls⟩
      | .error e t =>
        (BitSource.readUnsigned c.length c.width.bits).run (Counted.start s) =
            .error e ⟨t, calls⟩ ∧
          ∃ n, calls.getLast? = some n ∧ ReadRefused n e t := by
  refine ⟨?_, ?_⟩
  · intro v hv
    refine ⟨c.size v, unsignedSize_eq_ok_iff.mpr ⟨v, rfl, hv, rfl⟩, ?_⟩
    intro σ _ s
    rw [writeUnsigned_eq_writePieces c hv, writeUnsigned_eq_writePieces c hv]
    obtain ⟨calls, hcalls, hrun⟩ := counts_start (counts_writePieces (c.pieces v)) s
    refine ⟨calls, fieldCalls_of_isPrefix (hcalls.trans (map_count_piecesFrom_isPrefix c _ v)), ?_⟩
    rw [← sum_count_pieces]
    split
    · next t hok =>
      rw [hok] at hrun
      have hall := calls_of_writePieces_ok hrun
      rw [start_calls, List.nil_append] at hall
      exact ⟨hrun, congrArg List.sum hall⟩
    · next e t herror =>
      rw [herror] at hrun
      refine ⟨hrun.1, hcalls.sublist.sum_le_sum ?_, hrun.2⟩
      simp
  · intro σ _ s
    rw [readUnsigned_eq_readChunks, readUnsigned_eq_readChunks]
    obtain ⟨calls, hcalls, hrun⟩ := counts_start (counts_readChunks c c.width.bits_pos 0) s
    refine ⟨calls, fieldCalls_of_isPrefix hcalls, ?_⟩
    split
    · next x t hok => rwa [hok] at hrun
    · next e t herror => rwa [herror] at hrun

/-- The greatest number of a byte takes two chunks of four bits with a signal bit between them. -/
theorem raw_calls_two_chunks :
    let c : Chunking := ⟨.w8, 4, by decide⟩
    255 < 2 ^ c.width.bits ∧ ∃ t calls,
      (BitSink.writeUnsigned 255 4 8).run (Counted.start (Writer.empty .w16)) =
          .ok () ⟨t, calls⟩ ∧
        calls.sum = 9 ∧ c.FieldCalls calls := by
  intro c
  have hlt : 255 < 2 ^ c.width.bits := by decide
  have hsize : unsignedSize 255 4 8 = .ok 9 := by cbv
  obtain ⟨size, hsize', hcalls⟩ := (raw_calls c).1 255 hlt
  obtain rfl : 9 = size := Except.ok.inj (hsize.symm.trans hsize')
  obtain ⟨calls, hfield, hrun⟩ := hcalls (Writer.empty .w16)
  have hwrite := BitSink.run_writeUnsigned (Writer.faithful .w16) (Writer.holds_empty .w16) 255 4 8
  rw [hsize] at hwrite
  obtain ⟨t, -, hok, -⟩ := hwrite
  rw [show (BitSink.writeUnsigned (255 : Nat) c.length c.width.bits).run (Writer.empty .w16) =
    .ok () t from hok] at hrun
  exact ⟨hlt, t, calls, hrun.1, hrun.2, hfield⟩

end Chunking
end BitPack
