/-
# Sources that act alike

All reads are built on the raw operation of their source, so two sources whose raw operations
answer alike from related states, and leave related states, cannot be told apart by any read
(`BitSource.alike_run`), failures included, nor by reads one after the other
(`ReadRequest.attempts_alike`).  Nothing is asked of what the raw operations answer.  With one
source in place of both and a relation that holds of equal states only, this says that a property
which every raw read keeps is kept by all reads.
-/
import BitPack.Proofs.FaithfulSource

namespace BitPack

variable {σ τ α β : Type}

namespace BitSource

/-- Two results are the same except for the states, which are related. -/
inductive SameResult (S : σ → τ → Prop) :
    EStateM.Result Error σ α → EStateM.Result Error τ α → Prop
  | ok (a : α) {s : σ} {t : τ} (h : S s t) : SameResult S (.ok a s) (.ok a t)
  | error (e : Error) {s : σ} {t : τ} (h : S s t) : SameResult S (.error e s) (.error e t)

/-- From related states two computations give the same result and leave related states. -/
def Alike (S : σ → τ → Prop) (x : EStateM Error σ α) (y : EStateM Error τ α) : Prop :=
  ∀ ⦃s t⦄, S s t → SameResult S (x.run s) (y.run t)

section Alike

variable {S : σ → τ → Prop} {x : EStateM Error σ α} {y : EStateM Error τ α}

lemma alike_pure (a : α) : Alike S (pure a) (pure a) :=
  fun _ _ h => .ok a h

lemma alike_bind {f : α → EStateM Error σ β} {g : α → EStateM Error τ β} (hx : Alike S x y)
    (hf : ∀ a, Alike S (f a) (g a)) : Alike S (x >>= f) (y >>= g) := by
  intro s t h
  have hresult := hx h
  rw [EStateM.run_bind, EStateM.run_bind]
  generalize x.run s = u at hresult ⊢
  generalize y.run t = v at hresult ⊢
  cases hresult with
  | ok a h' => exact hf a h'
  | error e h' => exact .error e h'

lemma alike_map (f : α → β) (hx : Alike S x y) : Alike S (f <$> x) (f <$> y) := by
  rw [map_eq_pure_bind, map_eq_pure_bind]
  exact alike_bind hx fun a => alike_pure (f a)

/-- A check does not look at the state. -/
lemma alike_check (check : Except Error α) : Alike S (liftM check) (liftM check) := by
  intro s t h
  cases check with
  | ok a => exact .ok a h
  | error e => exact .error e h

end Alike

section Reads

variable [BitSource σ] [BitSource τ] {S : σ → τ → Prop}
  (hS : ∀ count, Alike S (readBits count) (readBits count))
include hS

lemma alike_readChunks (c : Chunking) (payload : Nat) (value : Int) :
    Alike S (readChunks c payload value) (readChunks c payload value) := by
  induction payload, value using readChunks.induct c
  next payload value n ih =>
    rw [readChunks, readChunks]
    refine alike_bind (hS _) ?_
    intro t
    dsimp only
    split
    · exact alike_pure _
    · split
      · exact alike_pure _
      · next hmore =>
        refine alike_bind (hS 1) ?_
        intro signal
        split
        · exact alike_pure _
        · split
          · exact alike_pure _
          · -- more chunks follow
            exact ih t hmore

/-- Every read acts alike on two sources if the raw reads do. -/
lemma alike_run (q : ReadRequest) : Alike S q.run q.run := by
  cases q with
  | bits count => exact alike_map _ (hS count)
  | text count =>
    refine alike_map _ (alike_bind (hS count) ?_)
    intro t
    exact alike_check _
  | bitset size count =>
    refine alike_map _ (alike_bind (alike_check _) ?_)
    intro n
    exact hS n
  | unsigned chunkLength width =>
    refine alike_map _ (alike_bind (alike_check _) ?_)
    intro c
    exact alike_readChunks hS c 0 0
  | signed chunkLength exponent width =>
    refine alike_map _ (alike_bind (alike_check _) ?_)
    intro c
    refine alike_bind (alike_check _) ?_
    intro k
    refine alike_bind (alike_readChunks hS c 0 0) ?_
    intro r
    cases r with
    | value u => exact alike_bind (alike_check _) fun v => alike_pure _
    | truncated => exact alike_pure _

end Reads
end BitSource

namespace ReadRequest

variable [BitSource σ] [BitSource τ] {S : σ → τ → Prop}
  (hS : ∀ count, BitSource.Alike S (BitSource.readBits count) (BitSource.readBits count))
include hS

lemma attempt_alike {s : σ} {t : τ} (h : S s t) (q : ReadRequest) :
    (q.attempt s).1 = (q.attempt t).1 ∧ S (q.attempt s).2 (q.attempt t).2 := by
  have hresult := BitSource.alike_run hS q h
  rw [attempt, attempt]
  generalize q.run.run s = u at hresult ⊢
  generalize q.run.run t = v at hresult ⊢
  cases hresult with
  | ok a h' => exact ⟨rfl, h'⟩
  | error e h' => exact ⟨rfl, h'⟩

/-- Reads one after the other are answered alike and leave related states. -/
lemma attempts_alike {s : σ} {t : τ} (h : S s t) (qs : List ReadRequest) :
    (attempts qs s).1 = (attempts qs t).1 ∧ S (attempts qs s).2 (attempts qs t).2 := by
  induction qs generalizing s t with
  | nil => exact ⟨rfl, h⟩
  | cons q qs ih =>
    obtain ⟨h1, h2⟩ := attempt_alike hS h q
    obtain ⟨h3, h4⟩ := ih h2
    refine ⟨?_, h4⟩
    rw [attempts_cons, attempts_cons, h1, h3]

end ReadRequest
end BitPack
