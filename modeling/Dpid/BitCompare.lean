import Mathlib.Algebra.Order.Ring.Nat
import Mathlib.Data.Nat.ModEq
import Mathlib.Tactic.Ring
/-!
# BitCompare — which of two numbers is larger, read off a parity

`weighted k r c` adds, for each of the `k` bits where `r` has a one and `c` a zero, two to the number of bits above it
where they differ.  Only the highest bit that differs counts one, so the sum is odd exactly when `c < r`.
-/
namespace BitCompare

/-- The number of the lowest `k` bits in which `r` and `c` differ. -/
def differing : Nat → Nat → Nat → Nat
  | 0, _, _     => 0
  | k + 1, r, c => (if r % 2 = c % 2 then 0 else 1) + differing k (r / 2) (c / 2)

def weighted : Nat → Nat → Nat → Nat
  | 0, _, _     => 0
  | k + 1, r, c => r % 2 * (1 - c % 2) * 2 ^ differing k (r / 2) (c / 2) + weighted k (r / 2) (c / 2)

/-- The lowest `k` bits the other way round. -/
def rev : Nat → Nat → Nat
  | 0, _     => 0
  | k + 1, n => n % 2 * 2 ^ k + rev k (n / 2)

theorem differing_le : ∀ k r c : Nat, differing k r c ≤ k
  | 0, _, _     => Nat.le_refl 0
  | k + 1, r, c => by
    have ih := differing_le k (r / 2) (c / 2)
    rw [differing]
    split <;> omega

theorem weighted_lt : ∀ k r c : Nat, weighted k r c < 2 ^ differing k r c
  | 0, _, _     => Nat.one_pos
  | k + 1, r, c => by
    have ih := weighted_lt k (r / 2) (c / 2)
    rw [weighted, differing]
    rcases Nat.mod_two_eq_zero_or_one r with hr | hr <;> rcases Nat.mod_two_eq_zero_or_one c with hc | hc <;>
      simp only [hr, hc] <;> norm_num [Nat.pow_add] <;> omega

theorem differing_self : ∀ k r : Nat, differing k r r = 0
  | 0, _     => rfl
  | k + 1, r => by rw [differing, if_pos rfl, differing_self k]

theorem eq_of_differing : ∀ {k r c : Nat}, r < 2 ^ k → c < 2 ^ k → differing k r c = 0 → r = c
  | 0, r, c, hr, hc, _     => by omega
  | k + 1, r, c, hr, hc, h => by
    rw [Nat.pow_succ] at hr hc
    rw [differing] at h
    have hhalf := eq_of_differing (k := k) (r := r / 2) (c := c / 2) (by omega) (by omega) (by omega)
    split at h <;> omega

/-- **The sum is odd exactly when the first number is the larger.** -/
theorem weighted_odd : ∀ {k r c : Nat}, r < 2 ^ k → c < 2 ^ k → (weighted k r c % 2 = 1 ↔ c < r)
  | 0, r, c, hr, hc     => by
    have hr₀ : r = 0 := by omega
    have hc₀ : c = 0 := by omega
    simp [weighted, hr₀, hc₀]
  | k + 1, r, c, hr, hc => by
    rw [Nat.pow_succ] at hr hc
    have hr₂ : r / 2 < 2 ^ k := by omega
    have hc₂ : c / 2 < 2 ^ k := by omega
    have ih := weighted_odd hr₂ hc₂
    rw [weighted]
    by_cases hhalf : r / 2 = c / 2
    · -- the lowest bit decides
      have hlt := weighted_lt k (r / 2) (c / 2)
      have hzero : differing k (r / 2) (c / 2) = 0 := by rw [hhalf, differing_self]
      rw [hzero, Nat.pow_zero] at hlt ⊢
      have hsum : weighted k (r / 2) (c / 2) = 0 := by omega
      rw [hsum]
      rcases Nat.mod_two_eq_zero_or_one r with hbr | hbr <;> rcases Nat.mod_two_eq_zero_or_one c with hbc | hbc <;>
        rw [hbr, hbc] <;> omega
    · -- a higher bit does, and the term of the lowest is even
      have hpos : differing k (r / 2) (c / 2) ≠ 0 := fun h => hhalf (eq_of_differing hr₂ hc₂ h)
      obtain ⟨d, hd⟩ := Nat.exists_eq_succ_of_ne_zero hpos
      have heven : r % 2 * (1 - c % 2) * 2 ^ differing k (r / 2) (c / 2) = 2 * (r % 2 * (1 - c % 2) * 2 ^ d) := by
        rw [hd, Nat.pow_succ]
        ring
      rw [heven, Nat.mul_add_mod, ih]
      omega

/-- All bits differ exactly between a number and its complement. -/
theorem differing_eq_width : ∀ {k r c : Nat}, r < 2 ^ k → c < 2 ^ k → (differing k r c = k ↔ r + c + 1 = 2 ^ k)
  | 0, r, c, hr, hc     => by
    rw [differing]
    omega
  | k + 1, r, c, hr, hc => by
    rw [Nat.pow_succ] at hr hc
    have ih := differing_eq_width (k := k) (r := r / 2) (c := c / 2) (by omega) (by omega)
    have hle := differing_le k (r / 2) (c / 2)
    rw [differing, Nat.pow_succ]
    split <;> omega

/-- **The sum with the complement** is the number read backwards. -/
theorem weighted_complement : ∀ {k r c : Nat}, r + c + 1 = 2 ^ k → weighted k r c = rev k r
  | 0, _, _, _     => rfl
  | k + 1, r, c, h => by
    rw [Nat.pow_succ] at h
    have hhalf : r / 2 + c / 2 + 1 = 2 ^ k := by omega
    have hall : differing k (r / 2) (c / 2) = k := (differing_eq_width (by omega) (by omega)).2 hhalf
    rw [weighted, rev, weighted_complement hhalf, hall]
    rcases Nat.mod_two_eq_zero_or_one r with hr | hr
    · rw [hr, Nat.zero_mul]
    · have hc : c % 2 = 0 := by omega
      rw [hr, hc]

/-! ## Parities under a mask -/

theorem mod_cases {p n : Nat} (h : n < 3 * p) :
    n < p ∧ n % p = n ∨ p ≤ n ∧ n < 2 * p ∧ n % p = n - p ∨ 2 * p ≤ n ∧ n % p = n - 2 * p := by
  have hsub : p ≤ n → n % p = (n - p) % p := fun hle => Nat.mod_eq_sub_mod hle
  have hsub₂ : p ≤ n - p → (n - p) % p = (n - p - p) % p := fun hle => Nat.mod_eq_sub_mod hle
  rcases Nat.lt_or_ge n p with h₁ | h₁
  · exact .inl ⟨h₁, Nat.mod_eq_of_lt h₁⟩
  rcases Nat.lt_or_ge n (2 * p) with h₂ | h₂
  · exact .inr (.inl ⟨h₁, h₂, (hsub h₁).trans (Nat.mod_eq_of_lt (by omega))⟩)
  · refine .inr (.inr ⟨h₂, ?_⟩)
    rw [hsub h₁, hsub₂ (by omega), Nat.mod_eq_of_lt (by omega)]
    omega

/-- **Twice a difference, masked by `r`**: the parities and whether the sum has wrapped tell its sign. -/
theorem parity_difference {p a b r c : Nat} (hp : p % 2 = 1) (ha : a < (p - 1) / 2) (hb : b < (p - 1) / 2) (hr : r < p)
    (hc : c < p) (h : c + 2 * b ≡ 2 * a + r [MOD p]) :
    (c % 2 + r % 2 + if c < r then 1 else 0) % 2 = if a < b then 1 else 0 := by
  have hmod : (c + 2 * b) % p = (2 * a + r) % p := h
  rcases mod_cases (p := p) (n := c + 2 * b) (by omega) with ⟨hlt, h₁⟩ | ⟨hge, hlt, h₁⟩ | ⟨hge, h₁⟩ <;>
    rcases mod_cases (p := p) (n := 2 * a + r) (by omega) with ⟨hlt', h₂⟩ | ⟨hge', hlt', h₂⟩ | ⟨hge', h₂⟩ <;>
      rw [h₁, h₂] at hmod <;> split_ifs <;> omega

/-- **A number masked by one with the high part `2 * t`**: a sum below the high part is taken for one that has wrapped.
That gives the parity of the number exactly when it and the low part do not reach the modulus. -/
theorem parity_masked {p t l X : Nat} (hp : p % 2 = 1) (hs : 2 * t + l < p) (hX : X + l < 2 * p) :
    ((2 * t + l) % 2 + ((2 * t + l + X) % p % 2 + if (2 * t + l + X) % p < 2 * t then 1 else 0) % 2) % 2 = X % 2 ↔
      X + l < p := by
  have hparity : ∀ k d e : Nat, d % 2 = (l + X + k) % 2 →
      (((2 * t + l) % 2 + (d % 2 + e) % 2) % 2 = X % 2 ↔ (k + e) % 2 = 0) := by
    intro k d e hd
    omega
  rcases mod_cases (p := p) (n := 2 * t + l + X) (by omega) with ⟨hlt, hmod⟩ | ⟨hge, hlt, hmod⟩ | ⟨hge, hmod⟩
  · rw [hmod, if_neg (by omega), hparity 0 _ _ (by omega)]
    omega
  · have hbelow : 2 * t + l + X - p < 2 * t ↔ X + l < p := by omega
    rw [hmod, hparity 1 _ _ (by omega), ← hbelow]
    split_ifs with h <;> simp [h]
  · -- the sum has wrapped twice
    rw [hmod, if_pos (by omega), hparity 0 _ _ (by omega)]
    omega

end BitCompare
