import Mathlib.FieldTheory.Finite.Basic
import Mathlib.Tactic.LinearCombination
import Mathlib.Tactic.Ring
/-!
# RootRatio — the square root of a ratio by one power

In a finite field whose order is `5` modulo `8`, one power of `u * v ^ 7` gives a candidate for the square root of `u / v`
without an inversion.  Its square, times `v`, is `u` times a fourth root of unity; where that is not `1`, a root `i` of
`-1` repairs the candidate, or shows that `u / v` is no square and gives the root of `i * u / v` instead.
-/
namespace RootRatio

variable {F : Type*} [Field F]

/-! ## What is asked for -/

/-- `r` is a root of `u / v`, or of `i * u / v` where that has none; `square` tells which. -/
structure IsRoot (i u v : F) (square : Bool) (r : F) : Prop where
  square_iff : square = true ↔ u = 0 ∨ v ≠ 0 ∧ IsSquare (u / v)
  zero : u = 0 ∨ v = 0 → r = 0
  value : v ≠ 0 → v * r ^ 2 = if square then u else i * u

/-- The sign of the root is free. -/
theorem IsRoot.neg {i u v r : F} {square : Bool} (h : IsRoot i u v square r) : IsRoot i u v square (-r) where
  square_iff := h.square_iff
  zero h0 := by rw [h.zero h0, neg_zero]
  value hv := by rw [neg_sq, h.value hv]

/-! ## The candidate -/

section

variable [Fintype F]

def candidate (u v : F) : F := u * v ^ 3 * (u * v ^ 7) ^ ((Fintype.card F - 5) / 8)

variable {u v i : F}

theorem mul_candidate_sq (hq : Fintype.card F % 8 = 5) :
    v * candidate u v ^ 2 = u * (u * v ^ 7) ^ (Fintype.card F / 4) := by
  have hexp : Fintype.card F / 4 = (Fintype.card F - 5) / 8 * 2 + 1 := by omega
  rw [hexp, pow_succ _ ((Fintype.card F - 5) / 8 * 2), pow_mul, candidate]
  ring

theorem ringChar_ne_two (hq : Fintype.card F % 8 = 5) : ringChar F ≠ 2 := by
  intro h2
  have heven := FiniteField.even_card_iff_char_two.1 h2
  omega

theorem pow_quarter_sq (hq : Fintype.card F % 8 = 5) (w : F) : (w ^ (Fintype.card F / 4)) ^ 2 = w ^ (Fintype.card F / 2) := by
  rw [← pow_mul]
  congr 1
  omega

/-- A fourth root of unity has no root. -/
theorem not_isSquare_of_sq (hq : Fintype.card F % 8 = 5) (hi : i ^ 2 = -1) : ¬ IsSquare i := by
  rintro ⟨r, rfl⟩
  have h2 := Ring.neg_one_ne_one_of_char_ne_two (ringChar_ne_two hq)
  have hr0 : r ≠ 0 := by
    rintro rfl
    rw [mul_zero, zero_pow two_ne_zero] at hi
    exact one_ne_zero (neg_eq_zero.1 hi.symm)
  have hexp : Fintype.card F - 1 = 4 * (2 * ((Fintype.card F - 5) / 8) + 1) := by omega
  have hpow := FiniteField.pow_card_sub_one_eq_one r hr0
  have hr4 : r ^ 4 = -1 := by
    rw [← hi]
    ring
  rw [hexp, pow_mul, hr4, pow_succ, pow_mul, neg_one_sq, one_pow, one_mul] at hpow
  exact h2 hpow

/-- **The fourth roots of unity.** -/
theorem pow_quarter (hq : Fintype.card F % 8 = 5) (hi : i ^ 2 = -1) {w : F} (hw : w ≠ 0) :
    w ^ (Fintype.card F / 4) = 1 ∨ w ^ (Fintype.card F / 4) = -1 ∨ w ^ (Fintype.card F / 4) = i ∨
      w ^ (Fintype.card F / 4) = -i := by
  rcases FiniteField.pow_dichotomy (ringChar_ne_two hq) hw with h | h
  · rw [← pow_quarter_sq hq, ← one_pow 2] at h
    rcases sq_eq_sq_iff_eq_or_eq_neg.1 h with h | h
    · exact .inl h
    · exact .inr (.inl h)
  · rw [← pow_quarter_sq hq, ← hi] at h
    rcases sq_eq_sq_iff_eq_or_eq_neg.1 h with h | h
    · exact .inr (.inr (.inl h))
    · exact .inr (.inr (.inr h))

/-- The ratio is a square where the fourth root of unity is `1` or `-1`. -/
theorem isSquare_ratio_iff (hq : Fintype.card F % 8 = 5) (hu : u ≠ 0) (hv : v ≠ 0) :
    IsSquare (u / v) ↔ ((u * v ^ 7) ^ (Fintype.card F / 4)) ^ 2 = 1 := by
  have hprod : u * v ^ 7 = u / v * (v ^ 4) ^ 2 := by field_simp
  have hexp : 2 * (Fintype.card F / 2) = Fintype.card F - 1 := by omega
  have hone : ((v ^ 4) ^ 2) ^ (Fintype.card F / 2) = 1 := by
    rw [← pow_mul (v ^ 4), hexp]
    exact FiniteField.pow_card_sub_one_eq_one _ (pow_ne_zero 4 hv)
  rw [pow_quarter_sq hq, hprod, mul_pow, hone, mul_one]
  exact FiniteField.isSquare_iff (ringChar_ne_two hq) (div_ne_zero hu hv)

theorem candidate_eq_zero (h : u = 0 ∨ v = 0) : candidate u v = 0 := by
  rcases h with rfl | rfl
  · simp [candidate]
  · simp [candidate]

end

/-! ## The root -/

section

variable [DecidableEq F]

/-- The flag for the number `check`, the square of the candidate times `v`. -/
def isSquareFlag (u check : F) : Bool := decide (check = u) || decide (check = -u)

/-- The candidate, or its multiple by `i`. -/
def repair (i u check r : F) : F := if check = -u ∨ check = -u * i then i * r else r

variable {u v i z r : F}

theorem isSquareFlag_mul (hu : u ≠ 0) : isSquareFlag u (u * z) = true ↔ z ^ 2 = 1 := by
  have hone : u * z = u ↔ z = 1 := mul_eq_left₀ hu
  have hneg : u * z = -u ↔ z = -1 := by rw [← mul_neg_one u, mul_right_inj' hu]
  rw [isSquareFlag, Bool.or_eq_true, decide_eq_true_eq, decide_eq_true_eq, hone, hneg, sq_eq_one_iff]

theorem repair_mul (hu : u ≠ 0) : repair i u (u * z) r = if z = -1 ∨ z = -i then i * r else r := by
  have hneg : u * z = -u ↔ z = -1 := by rw [← mul_neg_one u, mul_right_inj' hu]
  have hnegi : u * z = -u * i ↔ z = -i := by rw [neg_mul_comm, mul_right_inj' hu]
  simp only [repair, hneg, hnegi]

/-- With a fourth root of unity as the factor, the repaired candidate is the root. -/
theorem repair_value (htwo : (1 : F) ≠ -1) (hi : i ^ 2 = -1) (hu : u ≠ 0) (hz : z = 1 ∨ z = -1 ∨ z = i ∨ z = -i)
    (hr : v * r ^ 2 = u * z) :
    v * repair i u (u * z) r ^ 2 = if isSquareFlag u (u * z) = true then u else i * u := by
  have hi1 : i ^ 2 ≠ 1 := by
    rw [hi]
    exact htwo.symm
  simp only [isSquareFlag_mul hu, repair_mul hu]
  rcases hz with rfl | rfl | rfl | rfl
  · have hne : (1 : F) ≠ -i := fun h => hi1 (by linear_combination (i - 1) * h)
    rw [if_neg (not_or.2 ⟨htwo, hne⟩), if_pos (one_pow 2), hr, mul_one]
  · rw [if_pos (.inl rfl), if_pos (by ring)]
    linear_combination i ^ 2 * hr - u * hi
  · have hne : z ≠ -1 := fun h => hi1 (by rw [h, neg_one_sq])
    have hne' : z ≠ -z := fun h => htwo (by linear_combination -z * h + 2 * hi)
    rw [if_neg (not_or.2 ⟨hne, hne'⟩), if_neg hi1, hr, mul_comm]
  · rw [if_pos (.inr rfl), if_neg (by rwa [neg_sq])]
    linear_combination i ^ 2 * hr - u * i * hi

/-- **The repaired candidate is the root asked for.** -/
theorem isRoot_repair [Fintype F] (hq : Fintype.card F % 8 = 5) (hi : i ^ 2 = -1) (u v : F) :
    IsRoot i u v (isSquareFlag u (v * candidate u v ^ 2)) (repair i u (v * candidate u v ^ 2) (candidate u v)) := by
  by_cases h0 : u = 0 ∨ v = 0
  · have hr := candidate_eq_zero h0
    have hzero : repair i u (v * 0 ^ 2) 0 = 0 := by
      unfold repair
      split_ifs
      · exact mul_zero i
      · rfl
    have hflag : isSquareFlag u (v * 0 ^ 2) = true ↔ u = 0 := by
      rw [isSquareFlag, zero_pow two_ne_zero, mul_zero, Bool.or_eq_true, decide_eq_true_eq, decide_eq_true_eq,
        eq_comm, zero_eq_neg, or_self]
    rw [hr, hzero]
    refine ⟨?_, fun _ => rfl, fun hv => ?_⟩
    · rw [hflag]
      exact ⟨.inl, fun h => h.elim id (fun hv => h0.resolve_right hv.1)⟩
    · have hu := h0.resolve_right hv
      rw [if_pos (hflag.2 hu), hu, zero_pow two_ne_zero, mul_zero]
  · obtain ⟨hu, hv⟩ := not_or.1 h0
    have hcheck := mul_candidate_sq (u := u) (v := v) hq
    have htwo : (1 : F) ≠ -1 := (Ring.neg_one_ne_one_of_char_ne_two (ringChar_ne_two hq)).symm
    rw [hcheck]
    refine ⟨?_, fun h => absurd h h0, fun _ => ?_⟩
    · rw [isSquareFlag_mul hu, isSquare_ratio_iff hq hu hv]
      exact ⟨fun h => .inr ⟨hv, h⟩, fun h => h.elim (absurd · hu) And.right⟩
    · exact repair_value htwo hi hu (pow_quarter hq hi (mul_ne_zero hu (pow_ne_zero 7 hv))) hcheck

end

end RootRatio
