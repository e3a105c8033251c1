import Dpid.EdwardsModels
import Mathlib.Tactic.Abel
/-!
# EdwardsTorsion — the points of order four, and the even points

On a complete Edwards curve with `a = -1` the points `P` with `4 • P = 0` are those with a zero coordinate.  Two points
differ by one of them if their coordinates are proportional, straight or crosswise (`coset_iff`).  Where `-(1 + d)` is a
square, the points with a square `1 + x²` are a subgroup that holds every double.
-/
namespace Edwards

variable {F : Type} [Field F] {E : Curve F} {P Q R : E.Point}

/-! ## Order four -/

theorem sub_x_numerator : (P - Q).x = 0 ↔ P.x * Q.y = P.y * Q.x := by
  have hne := Curve.Point.one_add_ne_zero P (-Q)
  rw [sub_eq_add_neg, Curve.Point.add_x, div_eq_zero_iff, or_iff_left hne, Curve.Point.neg_x, Curve.Point.neg_y, mul_neg,
    ← sub_eq_add_neg, sub_eq_zero]

theorem sub_y_numerator (ha : E.a = -1) : (P - Q).y = 0 ↔ P.x * Q.x = P.y * Q.y := by
  have hne := Curve.Point.one_sub_ne_zero P (-Q)
  rw [sub_eq_add_neg, Curve.Point.add_y, div_eq_zero_iff, or_iff_left hne, Curve.Point.neg_x, Curve.Point.neg_y, ha, mul_neg,
    neg_mul_neg, one_mul, sub_eq_zero, eq_comm]

/-- The only points that are their own opposites have `x = 0`. -/
theorem two_nsmul_eq_zero_iff (h2 : (2 : F) ≠ 0) : 2 • P = 0 ↔ P.x = 0 := by
  rw [two_nsmul, add_eq_zero_iff_eq_neg]
  constructor
  · intro h
    have hx := congrArg Curve.Point.x h
    rw [Curve.Point.neg_x, eq_neg_iff_add_eq_zero, ← two_mul] at hx
    exact (mul_eq_zero.1 hx).resolve_left h2
  · intro h
    refine Curve.Point.ext ?_ rfl
    rw [Curve.Point.neg_x, h, neg_zero]

/-- **The points of order four** have a zero coordinate. -/
theorem four_nsmul_eq_zero_iff (h2 : (2 : F) ≠ 0) : 4 • P = 0 ↔ P.x = 0 ∨ P.y = 0 := by
  have hdouble : (2 • P).x = 0 ↔ P.x = 0 ∨ P.y = 0 := by
    have hne := Curve.Point.one_add_ne_zero P P
    rw [two_nsmul, Curve.Point.add_x, div_eq_zero_iff, or_iff_left hne, mul_comm P.y, ← two_mul, mul_eq_zero,
      or_iff_right h2, mul_eq_zero]
  rw [← hdouble, ← two_nsmul_eq_zero_iff h2, ← mul_nsmul']

/-- **Points that differ by one of order four.** -/
theorem coset_iff (ha : E.a = -1) (h2 : (2 : F) ≠ 0) :
    4 • (P - Q) = 0 ↔ P.x * Q.y = P.y * Q.x ∨ P.x * Q.x = P.y * Q.y := by
  rw [four_nsmul_eq_zero_iff h2, sub_x_numerator, sub_y_numerator ha]

/-- A point with `x = 0` changes the signs, -/
theorem add_of_x_eq_zero (ha : E.a = -1) (hR : R.x = 0) : (P + R).x = R.y * P.x ∧ (P + R).y = R.y * P.y ∧ R.y ^ 2 = 1 := by
  have hsq := R.equation
  rw [OnCurve, ha, hR] at hsq
  rw [Curve.Point.add_x, Curve.Point.add_y, hR, ha]
  refine ⟨?_, ?_, ?_⟩
  · rw [mul_zero, mul_zero, zero_mul, mul_zero, add_zero, add_zero, div_one, mul_comm]
  · rw [mul_zero, mul_zero, zero_mul, mul_zero, sub_zero, sub_zero, div_one, mul_comm]
  · linear_combination hsq

/-- and one with `y = 0` exchanges the coordinates. -/
theorem add_of_y_eq_zero (ha : E.a = -1) (hR : R.y = 0) : (P + R).x = R.x * P.y ∧ (P + R).y = R.x * P.x ∧ R.x ^ 2 = -1 := by
  have hsq := R.equation
  rw [OnCurve, ha, hR] at hsq
  rw [Curve.Point.add_x, Curve.Point.add_y, hR, ha]
  refine ⟨?_, ?_, ?_⟩
  · rw [mul_zero, mul_zero, mul_zero, mul_zero, zero_add, add_zero, div_one, mul_comm]
  · rw [mul_zero, mul_zero, mul_zero, zero_sub, sub_zero, div_one, neg_one_mul, neg_neg, mul_comm]
  · linear_combination -hsq

/-- **The four points of a coset**, by the constant that takes one to the other. -/
theorem coset_coords (ha : E.a = -1) (h2 : (2 : F) ≠ 0) (h : 4 • (P - Q) = 0) : ∃ c : F,
    P.x = c * Q.x ∧ P.y = c * Q.y ∧ c ^ 2 = 1 ∨ P.x = c * Q.y ∧ P.y = c * Q.x ∧ c ^ 2 = -1 := by
  rw [four_nsmul_eq_zero_iff h2] at h
  have hadd : Q + (P - Q) = P := add_sub_cancel Q P
  rcases h with hx | hy
  · refine ⟨(P - Q).y, Or.inl ?_⟩
    have hc := add_of_x_eq_zero (P := Q) ha hx
    rwa [hadd] at hc
  · refine ⟨(P - Q).x, Or.inr ?_⟩
    have hc := add_of_y_eq_zero (P := Q) ha hy
    rwa [hadd] at hc

/-! ## Even points -/

/-- **The points with a square `1 + x²`.** -/
def IsEven (P : E.Point) : Prop := IsSquare (1 + P.x ^ 2)

theorem curve_eq (ha : E.a = -1) (P : E.Point) : P.y ^ 2 - P.x ^ 2 = 1 + E.d * P.x ^ 2 * P.y ^ 2 := by
  have h := P.equation
  rw [OnCurve, ha] at h
  linear_combination h

theorem norm_eq (ha : E.a = -1) (P : E.Point) : (1 - P.y ^ 2) * (1 + P.x ^ 2) = -(1 + E.d) * (P.x ^ 2 * P.y ^ 2) := by
  linear_combination -curve_eq ha P

/-- Of two factors of a square, both are squares or none is. -/
theorem isSquare_iff_of_mul {u v : F} (hu : u ≠ 0) (hv : v ≠ 0) (h : IsSquare (u * v)) : IsSquare u ↔ IsSquare v := by
  constructor
  · intro hsq
    have hdiv := h.div hsq
    rwa [mul_div_cancel_left₀ _ hu] at hdiv
  · intro hsq
    have hdiv := h.div hsq
    rwa [mul_div_cancel_right₀ _ hv] at hdiv

/-- The addition law, its denominator without `d`. -/
theorem add_x_dual (ha : E.a = -1) (hden : P.y * Q.y - P.x * Q.x ≠ 0) :
    (P + Q).x = (P.x * P.y + Q.x * Q.y) / (P.y * Q.y - P.x * Q.x) := by
  rw [Curve.Point.add_x, div_eq_div_iff (Curve.Point.one_add_ne_zero P Q) hden]
  linear_combination P.x * P.y * curve_eq ha Q + Q.x * Q.y * curve_eq ha P

theorem isEven_zero : IsEven (0 : E.Point) := ⟨1, by
  have hx : (0 : E.Point).x = 0 := rfl
  rw [hx]
  ring⟩

theorem isEven_neg (h : IsEven P) : IsEven (-P) := by
  rwa [IsEven, Curve.Point.neg_x, neg_sq]

/-- **Every double is even.** -/
theorem isEven_add_self (ha : E.a = -1) (P : E.Point) : IsEven (P + P) := by
  have hne := Curve.Point.one_add_ne_zero P P
  have hcurve := curve_eq ha P
  refine ⟨(P.x ^ 2 + P.y ^ 2) / (1 + E.d * (P.x * P.x * (P.y * P.y))), ?_⟩
  rw [Curve.Point.add_x, ← sq ((_ : F) / _), div_pow, div_pow, eq_div_iff (pow_ne_zero 2 hne), add_mul,
    div_mul_cancel₀ _ (pow_ne_zero 2 hne)]
  linear_combination (P.x ^ 2 - P.y ^ 2 - 1 - E.d * P.x ^ 2 * P.y ^ 2) * hcurve

section

variable {k : F} (ha : E.a = -1) (hk : k ^ 2 = -(1 + E.d)) (hk0 : k ≠ 0)

include ha hk hk0

/-- The same said of `1 - y²`. -/
theorem isEven_iff : IsEven P ↔ IsSquare (1 - P.y ^ 2) := by
  have hnorm := norm_eq ha P
  rw [← hk] at hnorm
  have hcurve := curve_eq ha P
  by_cases hx : P.x = 0
  · rw [hx] at hcurve
    have hy : P.y ^ 2 = 1 := by linear_combination hcurve
    rw [IsEven, hx, hy]
    exact ⟨fun _ => ⟨0, by ring⟩, fun _ => ⟨1, by ring⟩⟩
  · by_cases hy : P.y = 0
    · rw [hy] at hcurve
      have hx2 : P.x ^ 2 = -1 := by linear_combination -hcurve
      rw [IsEven, hx2, hy]
      exact ⟨fun _ => ⟨1, by ring⟩, fun _ => ⟨0, by ring⟩⟩
    · have hprod : (1 - P.y ^ 2) * (1 + P.x ^ 2) ≠ 0 := by
        rw [hnorm]
        exact mul_ne_zero (pow_ne_zero 2 hk0) (mul_ne_zero (pow_ne_zero 2 hx) (pow_ne_zero 2 hy))
      have hsq : IsSquare ((1 + P.x ^ 2) * (1 - P.y ^ 2)) := ⟨k * (P.x * P.y), by rw [mul_comm, hnorm]; ring⟩
      exact isSquare_iff_of_mul (mul_ne_zero_iff.1 hprod).2 (mul_ne_zero_iff.1 hprod).1 hsq

/-- A point with `y = 0` makes no difference. -/
theorem isEven_add_of_y_eq_zero (hP : IsEven P) (hR : R.y = 0) : IsEven (P + R) := by
  obtain ⟨hx, -, hc⟩ := add_of_y_eq_zero (P := P) ha hR
  have heq : 1 + (P + R).x ^ 2 = 1 - P.y ^ 2 := by rw [hx, mul_pow, hc]; ring
  rw [IsEven, heq]
  exact (isEven_iff ha hk hk0).1 hP

theorem one_add_x_sq_ne_zero (h : P.y ≠ 0) : 1 + P.x ^ 2 ≠ 0 := by
  have hcurve := curve_eq ha P
  intro h0
  refine mul_ne_zero (pow_ne_zero 2 h) (pow_ne_zero 2 hk0) ?_
  rw [hk]
  linear_combination -hcurve - (1 + E.d * P.y ^ 2) * h0

/-- **The even points are closed under addition.** -/
theorem isEven_add (hP : IsEven P) (hQ : IsEven Q) : IsEven (P + Q) := by
  by_cases hPy : P.y = 0
  · rw [add_comm]
    exact isEven_add_of_y_eq_zero ha hk hk0 hQ hPy
  by_cases hQy : Q.y = 0
  · exact isEven_add_of_y_eq_zero ha hk hk0 hP hQy
  by_cases hdiff : P.x * Q.x = P.y * Q.y
  · -- `P - Q` has `y = 0`, and `P + Q` is twice `Q` and this
    have hy := (sub_y_numerator ha).2 hdiff
    have heq : P + Q = (Q + Q) + (P - Q) := by abel
    rw [heq]
    exact isEven_add_of_y_eq_zero ha hk hk0 (isEven_add_self ha Q) hy
  · have hden : P.y * Q.y - P.x * Q.x ≠ 0 := fun h => hdiff (sub_eq_zero.1 h).symm
    have hPne := one_add_x_sq_ne_zero ha hk hk0 hPy
    have hQne := one_add_x_sq_ne_zero ha hk hk0 hQy
    obtain ⟨r, hr⟩ := hP
    obtain ⟨s, hs⟩ := hQ
    have hr0 : r ≠ 0 := fun h => hPne (by rw [hr, h, mul_zero])
    have hs0 : s ≠ 0 := fun h => hQne (by rw [hs, h, mul_zero])
    -- one factor of the numerator for each point
    have hfst : (P.y ^ 2 + Q.x ^ 2) * (1 + P.x ^ 2) = (1 + P.x ^ 2 + Q.x ^ 2 - E.d * P.x ^ 2 * Q.x ^ 2) * P.y ^ 2 := by
      linear_combination -Q.x ^ 2 * curve_eq ha P
    have hsnd : (Q.y ^ 2 + P.x ^ 2) * (1 + Q.x ^ 2) = (1 + P.x ^ 2 + Q.x ^ 2 - E.d * P.x ^ 2 * Q.x ^ 2) * Q.y ^ 2 := by
      linear_combination -P.x ^ 2 * curve_eq ha Q
    generalize 1 + P.x ^ 2 + Q.x ^ 2 - E.d * P.x ^ 2 * Q.x ^ 2 = m at hfst hsnd
    rw [hr] at hfst
    rw [hs] at hsnd
    refine ⟨m * (P.y * Q.y) / ((P.y * Q.y - P.x * Q.x) * (r * s)), ?_⟩
    rw [add_x_dual ha hden, div_pow, ← sq (_ / _), div_pow, eq_div_iff (pow_ne_zero 2 (mul_ne_zero hden
      (mul_ne_zero hr0 hs0))), mul_pow (P.y * Q.y - P.x * Q.x), ← mul_assoc, add_mul, div_mul_cancel₀ _ (pow_ne_zero 2 hden)]
    linear_combination (Q.y ^ 2 + P.x ^ 2) * (s * s) * hfst + m * P.y ^ 2 * hsnd

/-- **No even point has order eight**, where `i` is no square and `k` is one. -/
theorem x_sq_add_y_sq_ne_zero {i : F} (hi : i ^ 2 = -1) (hni : ¬ IsSquare i) (hks : IsSquare k) (hP : IsEven P) :
    P.x ^ 2 + P.y ^ 2 ≠ 0 := by
  intro h0
  have hcurve := curve_eq ha P
  obtain ⟨r, hr⟩ := hP
  obtain ⟨t, ht⟩ := hks
  have hx : P.x ≠ 0 := by
    intro hx
    rw [hx] at h0 hcurve
    exact one_ne_zero (show (1 : F) = 0 by linear_combination h0 - hcurve)
  have hne : t * P.x ≠ 0 := by
    refine mul_ne_zero (fun ht0 => hk0 ?_) hx
    rw [ht, ht0, mul_zero]
  have hsq : (1 + P.x ^ 2) ^ 2 = (i * (t * P.x) ^ 2) ^ 2 := by
    have hright : (i * (t * P.x) ^ 2) ^ 2 = i ^ 2 * k ^ 2 * P.x ^ 4 := by
      rw [ht]
      ring
    rw [hright, hi, hk]
    linear_combination -hcurve + (1 - E.d * P.x ^ 2) * h0
  rcases sq_eq_sq_iff_eq_or_eq_neg.1 hsq with h | h
  · refine hni ⟨r / (t * P.x), ?_⟩
    rw [← sq, div_pow, eq_div_iff (pow_ne_zero 2 hne)]
    linear_combination hr - h
  · refine hni ⟨i * r / (t * P.x), ?_⟩
    rw [← sq, div_pow, eq_div_iff (pow_ne_zero 2 hne)]
    linear_combination h - hr - r ^ 2 * hi

end

end Edwards
