import Mathlib.NumberTheory.LucasPrimality
import Mathlib.Data.List.Prime
/-!
# Primality — primes by a chain of Lucas tests

A `Step` gives a number, a base of full multiplicative order and the prime factors of the number less one, each shown
prime by an earlier step.  `chain` runs the tests of a list of steps; powers are taken by repeated squaring, so a step
for a number of 256 bits is a few hundred multiplications for each factor (`prime_of_chain`).
-/
namespace Primality

/-- `acc * b ^ e` modulo `m` by repeated squaring, for exponents of at most `n` bits. -/
def powMod (m : ℕ) : ℕ → ℕ → ℕ → ℕ → ℕ
  | 0, _, _, acc     => acc
  | n + 1, b, e, acc => powMod m n (b * b % m) (e / 2) (if e % 2 = 1 then acc * b % m else acc)

theorem powMod_mod (m : ℕ) : ∀ (n b e acc : ℕ), e < 2 ^ n → powMod m n b e acc % m = acc * b ^ e % m
  | 0, b, e, acc, h     => by
    have he : e = 0 := by simpa using h
    rw [he, powMod, pow_zero, Nat.mul_one]
  | n + 1, b, e, acc, h => by
    have hlt : e / 2 < 2 ^ n := by rw [Nat.pow_succ] at h; omega
    have hsq : ∀ a, a * (b * b % m) ^ (e / 2) % m = a * b ^ (2 * (e / 2)) % m := by
      intro a
      rw [Nat.mul_mod, ← Nat.pow_mod, ← Nat.mul_mod, ← pow_two, ← pow_mul]
    rw [powMod, powMod_mod m n _ _ _ hlt, hsq]
    split
    · rename_i hodd
      have he : e = 2 * (e / 2) + 1 := by omega
      conv_rhs => rw [he, pow_succ']
      rw [Nat.mul_mod, Nat.mod_mod, ← Nat.mul_mod, Nat.mul_assoc]
    · rename_i heven
      have he : 2 * (e / 2) = e := by omega
      rw [he]

structure Step where
  p : ℕ
  base : ℕ
  /-- The prime factors of `p - 1`, with repetition. -/
  factors : List ℕ

/-- The base to the power `e`. -/
def Step.pow (s : Step) (e : ℕ) : ℕ := powMod s.p (s.p.log2 + 1) s.base e 1 % s.p

/-- Lucas's test. -/
def Step.ok (primes : List ℕ) (s : Step) : Bool :=
  1 < s.p && s.factors.all (primes.contains ·) && s.factors.prod == s.p - 1 && s.pow (s.p - 1) == 1 &&
    s.factors.all (fun q => s.pow ((s.p - 1) / q) != 1)

/-- The tests one after the other, each number joining the primes known. -/
def chain : List ℕ → List Step → Bool
  | _, []              => true
  | primes, s :: steps => s.ok primes && chain (s.p :: primes) steps

theorem natCast_ne_zero {p n : ℕ} (hpos : 0 < n) (hlt : n < p) : (n : ZMod p) ≠ 0 := by
  intro h
  have hval := ZMod.val_natCast_of_lt hlt
  rw [h, ZMod.val_zero] at hval
  omega

theorem natCast_pow_eq_one {p : ℕ} (hp : 1 < p) (a k : ℕ) : (a : ZMod p) ^ k = 1 ↔ a ^ k % p = 1 := by
  have h1 : (1 : ZMod p) = (1 : ℕ) := Nat.cast_one.symm
  rw [← Nat.cast_pow, h1, ZMod.natCast_eq_natCast_iff', Nat.mod_eq_of_lt hp]

theorem Step.ok_prime {primes : List ℕ} {s : Step} (hprimes : ∀ q ∈ primes, q.Prime) (h : s.ok primes = true) :
    s.p.Prime := by
  simp only [Step.ok, Bool.and_eq_true, decide_eq_true_eq, List.all_eq_true, beq_iff_eq, bne_iff_ne,
    List.contains_eq_mem] at h
  obtain ⟨⟨⟨⟨h1, hfac⟩, hprod⟩, hone⟩, hne⟩ := h
  have hpow : ∀ k ≤ s.p - 1, (s.base : ZMod s.p) ^ k = 1 ↔ s.pow k = 1 := by
    intro k hk
    have hlt : s.p < 2 ^ (s.p.log2 + 1) := Nat.lt_log2_self
    rw [natCast_pow_eq_one h1, pow, powMod_mod _ _ _ _ _ (by omega), Nat.one_mul]
  refine lucas_primality s.p s.base ((hpow _ le_rfl).2 hone) (fun q hq hdvd => ?_)
  obtain ⟨r, hr, hqr⟩ := (Prime.dvd_prod_iff hq.prime).1 (hprod ▸ hdvd)
  obtain rfl : q = r := (Nat.prime_dvd_prime_iff_eq hq (hprimes r (hfac r hr))).1 hqr
  exact fun hone' => hne q hr ((hpow _ (Nat.div_le_self _ _)).1 hone')

/-- **Every number of a chain that passes is prime.** -/
theorem prime_of_chain : ∀ (steps : List Step) {primes : List ℕ}, (∀ q ∈ primes, q.Prime) →
    chain primes steps = true → ∀ s ∈ steps, s.p.Prime
  | [], _, _, _, s, hs             => by cases hs
  | t :: steps, primes, hp, h, s, hs => by
    simp only [chain, Bool.and_eq_true] at h
    have ht := Step.ok_prime hp h.1
    rcases List.mem_cons.1 hs with rfl | hs
    · exact ht
    · refine prime_of_chain steps (fun q hq => ?_) h.2 s hs
      rcases List.mem_cons.1 hq with rfl | hq
      · exact ht
      · exact hp q hq

end Primality
