/-
# Runs of bits

A run of bits is a list of booleans in stream order: the first bit is the lowest bit of
the number it stands for.  `Bits.ofInt n x` are the `n` low bits of `x` in two's
complement and `Bits.toNat` reads a run as a number; the two are inverse to each other up
to reduction modulo `2 ^ n` (`toNat_ofInt`, `ofInt_toNat`).
-/

-- Powers of numbers are those of the core library, also where algebraic ones are in scope.
attribute [instance (20000), default_instance (20000)] instPowNat

namespace BitPack

/-- A run of bits in stream order, lowest bit first. -/
abbrev Bits := List Bool

namespace Bits

/-- The `n` low bits of an integer in two's complement. -/
def ofInt : Nat → Int → Bits
  | 0, _ => []
  | n + 1, x => decide (x % 2 = 1) :: ofInt n (x / 2)

/-- The number whose binary digits are the given bits. -/
def toNat : Bits → Nat
  | [] => 0
  | b :: s => b.toNat + 2 * toNat s

/-- The number formed by the `n` low bits of an integer. -/
def low (n : Nat) (x : Int) : Nat := (x % 2 ^ n).toNat

/-- The bitwise or of two integers in two's complement.  Of a negative one the bits are those
that its complement does not have. -/
def orInt : Int → Int → Int
  | .ofNat m, .ofNat n => .ofNat (m ||| n)
  | .ofNat m, .negSucc n => .negSucc (n ^^^ (m &&& n))
  | .negSucc m, .ofNat n => .negSucc (m ^^^ (m &&& n))
  | .negSucc m, .negSucc n => .negSucc (m &&& n)

@[simp] theorem ofInt_zero (x : Int) : ofInt 0 x = [] := rfl

@[simp] theorem toNat_nil : toNat [] = 0 := rfl

@[simp] theorem toNat_cons (b : Bool) (s : Bits) : toNat (b :: s) = b.toNat + 2 * toNat s := rfl

@[simp] theorem length_ofInt (n : Nat) (x : Int) : (ofInt n x).length = n := by
  induction n generalizing x with
  | zero => rfl
  | succ n ih => simp [ofInt, ih]

theorem low_lt (n : Nat) (x : Int) : low n x < 2 ^ n := by
  have h : (0 : Int) < 2 ^ n := Int.pow_pos (by decide)
  have h1 := Int.emod_lt_of_pos x h
  have h2 := Int.emod_nonneg x (Int.ne_of_gt h)
  have h3 : ((low n x : Nat) : Int) < ((2 ^ n : Nat) : Int) := by
    rw [low, Int.toNat_of_nonneg h2, Int.natCast_pow]
    exact h1
  exact Int.ofNat_lt.mp h3

theorem coe_low (n : Nat) (x : Int) : (low n x : Int) = x % 2 ^ n :=
  Int.toNat_of_nonneg (Int.emod_nonneg x (Int.ne_of_gt (Int.pow_pos (by decide))))

theorem toNat_lt (s : Bits) : toNat s < 2 ^ s.length := by
  induction s with
  | nil => decide
  | cons b s ih =>
    have : b.toNat ≤ 1 := b.toNat_le
    simp only [toNat_cons, List.length_cons, Nat.pow_succ]
    omega

/-- Splitting off the lowest bit. -/
theorem low_succ (n : Nat) (x : Int) :
    low (n + 1) x = (decide (x % 2 = 1)).toNat + 2 * low n (x / 2) := by
  apply Int.ofNat_inj.mp
  rw [Int.natCast_add, Int.natCast_mul, coe_low, coe_low]
  have hp : (2 : Int) ^ (n + 1) = 2 * 2 ^ n := by rw [Int.pow_succ, Int.mul_comm]
  have h0 : ((decide (x % 2 = 1)).toNat : Int) = x % 2 := by
    rcases Int.emod_two_eq x with h | h <;> simp [h]
  have h1 : x / (2 * 2 ^ n) = x / 2 / 2 ^ n := (Int.ediv_ediv_of_nonneg (by decide)).symm
  rw [hp, h0, Int.emod_def x (2 * 2 ^ n), h1, Int.emod_def (x / 2), Int.mul_assoc]
  generalize (2 : Int) ^ n * (x / 2 / 2 ^ n) = q
  have := Int.emod_add_mul_ediv x 2
  omega

/-- The low bits read back as the number reduced modulo `2 ^ n`. -/
@[simp] theorem toNat_ofInt (n : Nat) (x : Int) : toNat (ofInt n x) = low n x := by
  induction n generalizing x with
  | zero => simp [low]
  | succ n ih => rw [ofInt, toNat_cons, ih, low_succ]

/-- A run of bits is recovered from its number and its length. -/
@[simp] theorem ofInt_toNat (s : Bits) : ofInt s.length (toNat s) = s := by
  induction s with
  | nil => rfl
  | cons b s ih =>
    have hb : b.toNat < 2 := b.toNat_lt
    have h1 : ((toNat (b :: s) : Nat) : Int) % 2 = b.toNat := by
      rw [toNat_cons]
      omega
    have h2 : ((toNat (b :: s) : Nat) : Int) / 2 = toNat s := by
      rw [toNat_cons]
      omega
    rw [List.length_cons, ofInt, h1, h2, ih]
    cases b <;> rfl

/-- Bits above those of a number are added to it. -/
theorem orInt_mul_two_pow {m k : Nat} (h : m < 2 ^ k) (n : Nat) :
    orInt m (n * 2 ^ k) = (m + n * 2 ^ k : Nat) := by
  have hshift : (n * 2 ^ k : Int) = (n * 2 ^ k : Nat) := by
    rw [Int.natCast_mul, Int.natCast_pow]
    rfl
  rw [hshift]
  show ((m ||| n * 2 ^ k : Nat) : Int) = _
  rw [Nat.or_comm, Nat.mul_comm n, ← Nat.two_pow_add_eq_or_of_lt h, Nat.add_comm]

/-- A run read in two parts: the second part stands above the first. -/
theorem toNat_append (s t : Bits) : toNat (s ++ t) = toNat s + 2 ^ s.length * toNat t := by
  induction s with
  | nil => simp
  | cons b s ih =>
    simp only [List.cons_append, toNat_cons, ih, List.length_cons, Nat.pow_succ]
    rw [Nat.mul_add, ← Nat.mul_assoc, Nat.mul_comm (2 ^ s.length) 2]
    omega

end Bits
end BitPack
