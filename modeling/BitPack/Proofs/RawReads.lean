/-
# Raw reads on record

All reads are built on the raw operation of their source, so what has to hold of every access to
the source, also in the middle of a field, has to hold of the raw reads.  A recorded source does
what the source does and keeps its raw reads.  The main facts are

* `ReadRequest.attempts_recorded`: keeping a record changes neither answers nor states;
* `Recorded.faithful`: what holds of every raw read of a faithful source holds of all raw reads
  on record.
-/
import BitPack.Proofs.Simulation

namespace BitPack

/-- A raw read as it happened. -/
structure RawRead (σ : Type) where
  /-- The state in front of the read. -/
  before : σ
  /-- The number of bits asked for. -/
  count : Int
  /-- What was taken. -/
  taken : Taken
  /-- The state behind the read. -/
  after : σ

/-- A source and the raw reads made on it. -/
structure Recorded (σ : Type) where
  /-- The source. -/
  source : σ
  /-- The raw reads, last one first. -/
  reads : List (RawRead σ)

namespace Recorded

variable {σ α : Type}

/-- A source on which no raw read has been made. -/
def start (s : σ) : Recorded σ := ⟨s, []⟩

variable [BitSource σ]

/-- A raw read that is refused is not put on record. -/
instance : BitSource (Recorded σ) where
  readBits count := fun x =>
    match (BitSource.readBits count).run x.source with
    | .ok t s => .ok t ⟨s, ⟨x.source, count, t, s⟩ :: x.reads⟩
    | .error e s => .error e ⟨s, x.reads⟩
  reachedEnd x := BitSource.reachedEnd x.source
  onlyZeroesLeft x := BitSource.onlyZeroesLeft x.source

lemma run_readBits (count : Int) (x : Recorded σ) :
    (BitSource.readBits count).run x =
      match (BitSource.readBits count).run x.source with
      | .ok t s => .ok t ⟨s, ⟨x.source, count, t, s⟩ :: x.reads⟩
      | .error e s => .error e ⟨s, x.reads⟩ :=
  rfl

/-! ## Forgetting the record -/

/-- A result without the record. -/
def forget : EStateM.Result Error (Recorded σ) α → EStateM.Result Error σ α
  | .ok a x => .ok a x.source
  | .error e x => .error e x.source

/-- A computation on a recorded source does to the source what another one does to it. -/
def Follows (x : EStateM Error (Recorded σ) α) (y : EStateM Error σ α) : Prop :=
  ∀ r, forget (x.run r) = y.run r.source

lemma alike_readBits (count : Int) :
    BitSource.Alike (fun (r : Recorded σ) s => r.source = s) (BitSource.readBits count)
      (BitSource.readBits count) := by
  rintro r s rfl
  rw [run_readBits]
  cases (BitSource.readBits count).run r.source with
  | ok t s => exact .ok t rfl
  | error e s => exact .error e rfl

/-- Every read on a recorded source does to the source what the read itself does to it. -/
lemma follows_run (q : ReadRequest) :
    Follows (q.run : EStateM Error (Recorded σ) ReadAnswer) q.run := by
  intro r
  have hresult := BitSource.alike_run alike_readBits q (rfl : r.source = r.source)
  generalize q.run.run r = x at hresult ⊢
  generalize q.run.run r.source = y at hresult ⊢
  cases hresult with
  | ok a h => rw [forget, h]
  | error e h => rw [forget, h]

/-! ## What holds of all raw reads -/

/-- If every raw read of a faithful source has a property, a recorded source is faithful too and
all raw reads on record have the property. -/
lemma faithful {R : σ → Bits → Prop} (hR : BitSource.Faithful R) {P : RawRead σ → Prop}
    (hP : ∀ {s s' t n}, R s t → R s' (t.drop n) → P ⟨s, n, Taken.ofBits (t.take n), s'⟩) :
    BitSource.Faithful fun (x : Recorded σ) t => R x.source t ∧ ∀ e ∈ x.reads, P e where
  readBits {x t} h count := by
    obtain ⟨hx, hreads⟩ := h
    have hread := hR.readBits hx count
    cases hn : checkCount maxRawBits count with
    | error e =>
      rw [hn] at hread
      show (BitSource.readBits count).run x = .error e x
      rw [run_readBits, show (BitSource.readBits count).run x.source = .error e x.source from hread]
    | ok n =>
      obtain ⟨rfl, -⟩ := checkCount_eq_ok_iff.mp hn
      rw [hn] at hread
      obtain ⟨s', hs', h'⟩ := hread
      refine ⟨⟨s', ⟨x.source, n, Taken.ofBits (t.take n), s'⟩ :: x.reads⟩, ?_, h', ?_⟩
      · rw [run_readBits, hs']
      · exact List.forall_mem_cons.mpr ⟨hP hx h', hreads⟩
  reachedEnd h := hR.reachedEnd h.1

end Recorded

/-! ## Reads on record -/

namespace ReadRequest

variable {σ : Type} [BitSource σ]

lemma attempt_recorded (q : ReadRequest) (x : Recorded σ) :
    (q.attempt x).1 = (q.attempt x.source).1 ∧ (q.attempt x).2.source = (q.attempt x.source).2 := by
  have hq := Recorded.follows_run q x
  rw [attempt, attempt, ← hq]
  cases q.run.run x <;> exact ⟨rfl, rfl⟩

/-- Recorded reads are answered like the reads themselves and leave the source alike. -/
lemma attempts_recorded (qs : List ReadRequest) (x : Recorded σ) :
    (attempts qs x).1 = (attempts qs x.source).1 ∧
      (attempts qs x).2.source = (attempts qs x.source).2 := by
  induction qs generalizing x with
  | nil => exact ⟨rfl, rfl⟩
  | cons q qs ih =>
    obtain ⟨h1, h2⟩ := attempt_recorded q x
    obtain ⟨h3, h4⟩ := ih (q.attempt x).2
    rw [h2] at h3 h4
    refine ⟨?_, h4⟩
    rw [attempts_cons, attempts_cons, h1, h3]

end ReadRequest
end BitPack
