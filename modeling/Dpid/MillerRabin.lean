import Dpid.Bytes
import Mathlib.FieldTheory.Finite.Basic
/-!
# MillerRabin — the primality test (`crypto/threshsig/millerrabin.py`)

`n - 1` is written as `2^s * d` with `d` odd; a base is a witness that `n` is composite when the chain of squarings from
its `d`th power neither starts at one nor meets minus one.  The bases are what `random.randrange` draws.
-/
namespace Dpid
namespace MillerRabin

/-! ## The program -/

def mrptNumTrials : Nat := 50

/-- `random.randrange(lo, hi)`, by the number the generator gives. -/
def randrange (lo hi r : Nat) : Except Exn Nat :=
  if lo < hi then .ok (lo + r % (hi - lo)) else .error (.valueError "empty range for randrange()")

/-- `pow(a, k, n)`. -/
def powMod (a k n : Nat) : Nat := a ^ k % n

/-- The factor-of-two loop at `s` and `d`, for at most `fuel` rounds. -/
def splitTwos : Nat → Nat → Nat → Option (Nat × Nat)
  | 0, _, _        => none
  | fuel + 1, s, d => if d % 2 = 1 then some (s, d) else splitTwos fuel (s + 1) (d / 2)

def tryComposite (n s d a : Nat) : Bool :=
  if powMod a d n = 1 then false
  else !(List.range s).any (fun i => powMod a (2 ^ i * d) n == n - 1)

/-- The trials of the numbered rounds, `rand i` being the generator's answer in round `i`. -/
def trials (rand : Nat → Nat) (n s d : Nat) : List Nat → Except Exn Bool
  | []      => .ok true
  | i :: is => do
    let a ← randrange 2 n (rand i)
    if tryComposite n s d a then return false
    trials rand n s d is

/-- `is_probable_prime(n)`; `none` where the factor-of-two loop does not stop within `fuel` rounds. -/
def isProbablePrime (fuel : Nat) (rand : Nat → Nat) (n : Nat) : Option (Except Exn Bool) :=
  if n < 2 then some (.error .assertionError)
  else if n = 2 then some (.ok true)
  else if n % 2 = 0 then some (.ok false)
  else match splitTwos fuel 0 (n - 1) with
    | none        => none
    | some (s, d) =>
      some (if 2 ^ s * d = n - 1 then trials rand n s d (List.range mrptNumTrials) else .error .assertionError)

/-! ## The range of the bases -/

theorem randrange_mem {lo hi r a : Nat} (h : randrange lo hi r = .ok a) : lo ≤ a ∧ a < hi := by
  unfold randrange at h
  split at h
  · rename_i hlt
    obtain rfl := Except.ok.inj h
    have := Nat.mod_lt r (Nat.sub_pos_of_lt hlt)
    omega
  · cases h

/-- Every base of the range is drawn for some answer of the generator. -/
theorem exists_randrange {lo hi a : Nat} (hlo : lo ≤ a) (hhi : a < hi) : ∃ r, randrange lo hi r = .ok a := by
  refine ⟨a - lo, ?_⟩
  rw [randrange, if_pos (by omega), Nat.mod_eq_of_lt (by omega), Nat.add_sub_cancel' hlo]

theorem exists_randrange_ok {lo hi : Nat} (h : lo < hi) (r : Nat) : ∃ a, randrange lo hi r = .ok a :=
  ⟨lo + r % (hi - lo), by rw [randrange, if_pos h]⟩

/-! ## The factor-of-two loop -/

/-- **The loop takes all factors of two out of a positive `d`**, and no more rounds than `d`. -/
theorem splitTwos_spec : ∀ {fuel : Nat} (s : Nat) {d : Nat}, 0 < d → d ≤ fuel →
    ∃ s' d', splitTwos fuel s d = some (s', d') ∧ d' % 2 = 1 ∧ 2 ^ s' * d' = 2 ^ s * d
  | 0, _, _, hpos, hfuel        => by omega
  | fuel + 1, s, d, hpos, hfuel => by
    by_cases hodd : d % 2 = 1
    · exact ⟨s, d, by rw [splitTwos, if_pos hodd], hodd, rfl⟩
    · have hhalf : d / 2 ≤ fuel := by omega
      obtain ⟨s', d', hrun, hodd', heq⟩ := splitTwos_spec (s + 1) (by omega) hhalf
      refine ⟨s', d', by rw [splitTwos, if_neg hodd, hrun], hodd', ?_⟩
      rw [heq, pow_succ, mul_assoc, show 2 * (d / 2) = d by omega]

/-! ## The chain of squarings -/

/-- **A chain of squarings that ends at one starts at one or meets minus one**, one having no other square roots. -/
theorem eq_one_or_exists_eq_neg_one {F : Type*} [CommRing F] [NoZeroDivisors F] {x : F} :
    ∀ {s : Nat}, x ^ 2 ^ s = 1 → x = 1 ∨ ∃ i < s, x ^ 2 ^ i = -1
  | 0, h     => .inl (by rwa [pow_zero, pow_one] at h)
  | s + 1, h => by
    rw [pow_succ, pow_mul] at h
    rcases sq_eq_one_iff.1 h with hone | hneg
    · rcases eq_one_or_exists_eq_neg_one hone with hx | ⟨i, hi, hx⟩
      · exact .inl hx
      · exact .inr ⟨i, by omega, hx⟩
    · exact .inr ⟨s, by omega, hneg⟩

/-! ## A prime -/

theorem powMod_eq_one {a k p : Nat} (hp : 1 < p) (h : (a : ZMod p) ^ k = 1) : powMod a k p = 1 := by
  have hmod : (a ^ k : Nat) ≡ 1 [MOD p] := by
    rw [← ZMod.natCast_eq_natCast_iff]
    push_cast
    exact h
  rw [powMod, hmod, Nat.mod_eq_of_lt hp]

theorem powMod_eq_pred {a k p : Nat} (hp : 1 < p) (h : (a : ZMod p) ^ k = -1) : powMod a k p = p - 1 := by
  have hmod : (a ^ k : Nat) ≡ p - 1 [MOD p] := by
    rw [← ZMod.natCast_eq_natCast_iff, Nat.cast_sub hp.le, ZMod.natCast_self]
    push_cast
    rw [h, zero_sub]
  rw [powMod, hmod, Nat.mod_eq_of_lt (by omega)]

/-- **No base of the range is a witness against a prime.** -/
theorem tryComposite_prime {p s d a : Nat} (hp : p.Prime) (hsplit : 2 ^ s * d = p - 1) (hlo : 2 ≤ a) (hhi : a < p) :
    tryComposite p s d a = false := by
  have := Fact.mk hp
  have hone : 1 < p := hp.one_lt
  have hne : (a : ZMod p) ≠ 0 := by
    intro h0
    have hdvd := (ZMod.natCast_eq_zero_iff a p).1 h0
    exact absurd (Nat.le_of_dvd (by omega) hdvd) (by omega)
  have hfermat : ((a : ZMod p) ^ d) ^ 2 ^ s = 1 := by
    rw [← pow_mul, mul_comm, hsplit]
    exact ZMod.pow_card_sub_one_eq_one hne
  rw [tryComposite]
  rcases eq_one_or_exists_eq_neg_one hfermat with h | ⟨i, hi, h⟩
  · rw [if_pos (powMod_eq_one hone h)]
  · rw [← pow_mul, mul_comm] at h
    have hmeet : (List.range s).any (fun i => powMod a (2 ^ i * d) p == p - 1) = true := by
      rw [List.any_eq_true]
      exact ⟨i, List.mem_range.2 hi, by rw [powMod_eq_pred hone h, beq_self_eq_true]⟩
    split
    · rfl
    · rw [hmeet, Bool.not_true]

theorem trials_eq {rand : Nat → Nat} {n s d : Nat} (hn : 2 < n)
    (hcomp : ∀ a, 2 ≤ a → a < n → tryComposite n s d a = false) : ∀ is, trials rand n s d is = .ok true
  | []      => rfl
  | i :: is => by
    obtain ⟨a, ha⟩ := exists_randrange_ok hn (rand i)
    obtain ⟨hlo, hhi⟩ := randrange_mem ha
    rw [trials, ha]
    have hrest : trials rand n s d is = .ok true := trials_eq hn hcomp is
    simp only [hcomp a hlo hhi, bind, Except.bind, Bool.false_eq_true, if_false, hrest]

/-- What the test does with an odd number from three on. -/
theorem isProbablePrime_odd {fuel n : Nat} (hn : 2 < n) (hodd : n % 2 = 1) (hfuel : n ≤ fuel) (rand : Nat → Nat) :
    ∃ s d, splitTwos fuel 0 (n - 1) = some (s, d) ∧ d % 2 = 1 ∧ 2 ^ s * d = n - 1 ∧
      isProbablePrime fuel rand n = some (trials rand n s d (List.range mrptNumTrials)) := by
  have hloop : ∃ s d, splitTwos fuel 0 (n - 1) = some (s, d) ∧ d % 2 = 1 ∧ 2 ^ s * d = 2 ^ 0 * (n - 1) :=
    splitTwos_spec 0 (by omega) (by omega)
  obtain ⟨s, d, hrun, hd, heq⟩ := hloop
  rw [pow_zero, one_mul] at heq
  refine ⟨s, d, hrun, hd, heq, ?_⟩
  rw [isProbablePrime, if_neg (by omega), if_neg (by omega), if_neg (by omega), hrun]
  simp only [heq, if_true]

/-- **The test ends without an exception and accepts every prime**, whatever the generator answers; and its loop takes
all factors of two out of `n - 1`. -/
theorem isProbablePrime_prime (fuel n : Nat) (hfuel : n ≤ fuel) :
    (n.Prime → ∀ rand, isProbablePrime fuel rand n = some (.ok true)) ∧
      (2 ≤ n → n % 2 = 1 → ∃ s d, splitTwos fuel 0 (n - 1) = some (s, d) ∧ d % 2 = 1 ∧ 2 ^ s * d = n - 1) := by
  constructor
  · intro hp rand
    rcases hp.eq_two_or_odd with rfl | hodd
    · rfl
    · have hn : 2 < n := by have := hp.two_le; omega
      obtain ⟨s, d, -, -, hsplit, hrun⟩ := isProbablePrime_odd hn hodd hfuel rand
      rw [hrun, trials_eq hn (fun a => tryComposite_prime hp hsplit)]
  · intro hn hodd
    obtain ⟨s, d, hrun, hd, heq, -⟩ := isProbablePrime_odd (by omega) hodd hfuel (fun _ => 0)
    exact ⟨s, d, hrun, hd, heq⟩

/-- The boundary prime three, whose only base is two. -/
theorem isProbablePrime_three :
    isProbablePrime 3 id 3 = some (.ok true) ∧ ∃ s d, splitTwos 3 0 2 = some (s, d) ∧ d % 2 = 1 ∧ 2 ^ s * d = 2 :=
  ⟨(isProbablePrime_prime 3 3 le_rfl).1 Nat.prime_three id, (isProbablePrime_prime 3 3 le_rfl).2 (by decide) rfl⟩

end MillerRabin
end Dpid
