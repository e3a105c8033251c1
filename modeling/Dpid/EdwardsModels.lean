import Dpid.Edwards
/-!
# EdwardsModels — coordinates without divisions

A point of a complete Edwards curve with `a = -1` is kept as quotients: projective (`x = X/Z`, `y = Y/Z`), extended (with
`T = XY/Z`), completed (`x = X/Z`, `y = Y/T`), or prepared for an addition (`Y + X`, `Y - X`, `2dT`).  The formulas of the
coordinates are the addition law, and no denominator vanishes.
-/
namespace Edwards

variable {F : Type} [Field F] {E : Curve F} {P Q : E.Point} {X Y Z T X' Y' Z' T' A B C : F}

/-! ## The models -/

/-- `X / Z` and `Y / Z`. -/
structure Projective (E : Curve F) (P : E.Point) (X Y Z : F) : Prop where
  ne : Z ≠ 0
  x : X = P.x * Z
  y : Y = P.y * Z

/-- And `T = X * Y / Z`. -/
structure Extended (E : Curve F) (P : E.Point) (X Y Z T : F) : Prop extends Projective E P X Y Z where
  t : T = P.x * P.y * Z

/-- `X / Z` and `Y / T`. -/
structure Completed (E : Curve F) (P : E.Point) (X Y Z T : F) : Prop where
  ne_z : Z ≠ 0
  ne_t : T ≠ 0
  x : X = P.x * Z
  y : Y = P.y * T

/-- The sum and the difference of the coordinates, and `2 * d * x * y`, all times `Z`. -/
structure ProjectiveNiels (E : Curve F) (P : E.Point) (A B Z C : F) : Prop where
  ne : Z ≠ 0
  plus : A = (P.y + P.x) * Z
  minus : B = (P.y - P.x) * Z
  xy2d : C = (E.d + E.d) * (P.x * P.y) * Z

/-- The same for `Z = 1`. -/
structure AffineNiels (E : Curve F) (P : E.Point) (A B C : F) : Prop where
  plus : A = P.y + P.x
  minus : B = P.y - P.x
  xy2d : C = (E.d + E.d) * (P.x * P.y)

/-! ## Between the models -/

theorem Extended.zero : Extended E 0 0 1 1 0 := by
  refine ⟨⟨one_ne_zero, ?_, ?_⟩, ?_⟩
  · exact (zero_mul (1 : F)).symm
  · exact (one_mul (1 : F)).symm
  · exact (by rw [zero_mul, zero_mul] : (0 : F) = 0 * 1 * 1)

theorem ProjectiveNiels.zero : ProjectiveNiels E 0 1 1 1 0 := by
  refine ⟨one_ne_zero, ?_, ?_, ?_⟩
  · exact (by ring : (1 : F) = (1 + 0) * 1)
  · exact (by ring : (1 : F) = (1 - 0) * 1)
  · exact (by ring : (0 : F) = (E.d + E.d) * (0 * 1) * 1)

theorem AffineNiels.zero : AffineNiels E 0 1 1 0 := by
  refine ⟨?_, ?_, ?_⟩
  · exact (by ring : (1 : F) = 1 + 0)
  · exact (by ring : (1 : F) = 1 - 0)
  · exact (by ring : (0 : F) = (E.d + E.d) * (0 * 1))

/-- A prepared point, its denominator divided out. -/
theorem AffineNiels.projective (h : AffineNiels E P A B C) : ProjectiveNiels E P A B 1 C :=
  ⟨one_ne_zero, by rw [h.plus, mul_one], by rw [h.minus, mul_one], by rw [h.xy2d, mul_one]⟩

theorem Projective.extended (h : Projective E P X Y Z) : Extended E P (X * Z) (Y * Z) (Z ^ 2) (X * Y) := by
  refine ⟨⟨pow_ne_zero 2 h.ne, ?_, ?_⟩, ?_⟩
  · rw [h.x]; ring
  · rw [h.y]; ring
  · rw [h.x, h.y]; ring

theorem Completed.projective (h : Completed E P X Y Z T) : Projective E P (X * T) (Y * Z) (Z * T) := by
  refine ⟨mul_ne_zero h.ne_z h.ne_t, ?_, ?_⟩
  · rw [h.x]; ring
  · rw [h.y]; ring

theorem Completed.extended (h : Completed E P X Y Z T) : Extended E P (X * T) (Y * Z) (Z * T) (X * Y) := by
  refine ⟨h.projective, ?_⟩
  rw [h.x, h.y]; ring

theorem Extended.projectiveNiels (h : Extended E P X Y Z T) :
    ProjectiveNiels E P (Y + X) (Y - X) Z (T * (E.d + E.d)) := by
  refine ⟨h.ne, ?_, ?_, ?_⟩
  · rw [h.x, h.y]; ring
  · rw [h.x, h.y]; ring
  · rw [h.t]; ring

theorem Extended.affineNiels (h : Extended E P X Y Z T) :
    AffineNiels E P (Y * Z⁻¹ + X * Z⁻¹) (Y * Z⁻¹ - X * Z⁻¹) (X * Z⁻¹ * (Y * Z⁻¹) * (E.d + E.d)) := by
  have hx : X * Z⁻¹ = P.x := by rw [h.x, mul_inv_cancel_right₀ h.ne]
  have hy : Y * Z⁻¹ = P.y := by rw [h.y, mul_inv_cancel_right₀ h.ne]
  rw [hx, hy]
  exact ⟨rfl, rfl, by ring⟩

/-! ## Opposites -/

theorem Extended.neg (h : Extended E P X Y Z T) : Extended E (-P) (-X) Y Z (-T) := by
  refine ⟨⟨h.ne, ?_, h.y⟩, ?_⟩
  · rw [h.x, Curve.Point.neg_x, neg_mul]
  · rw [h.t, Curve.Point.neg_x, Curve.Point.neg_y]; ring

theorem ProjectiveNiels.neg (h : ProjectiveNiels E P A B Z C) : ProjectiveNiels E (-P) B A Z (-C) := by
  refine ⟨h.ne, ?_, ?_, ?_⟩
  · rw [h.minus, Curve.Point.neg_x, Curve.Point.neg_y, sub_eq_add_neg]
  · rw [h.plus, Curve.Point.neg_x, Curve.Point.neg_y, sub_neg_eq_add]
  · rw [h.xy2d, Curve.Point.neg_x, Curve.Point.neg_y]; ring

theorem AffineNiels.neg (h : AffineNiels E P A B C) : AffineNiels E (-P) B A (-C) := by
  refine ⟨?_, ?_, ?_⟩
  · rw [h.minus, Curve.Point.neg_x, Curve.Point.neg_y, sub_eq_add_neg]
  · rw [h.plus, Curve.Point.neg_x, Curve.Point.neg_y, sub_neg_eq_add]
  · rw [h.xy2d, Curve.Point.neg_x, Curve.Point.neg_y]; ring

/-! ## The laws -/

/-- A quotient times a multiple of its denominator. -/
theorem div_mul_mul {n b : F} (hb : b ≠ 0) (c : F) : n / b * (c * b) = c * n := by
  rw [mul_comm c b, ← mul_assoc, div_mul_cancel₀ _ hb, mul_comm]

/-- **The addition formula** for a prepared point: the addition law, doubled. -/
theorem Extended.add (ha : E.a = -1) (h2 : (2 : F) ≠ 0) (hP : Extended E P X Y Z T) (hQ : ProjectiveNiels E Q A B Z' C) :
    Completed E (P + Q) ((Y + X) * A - (Y - X) * B) ((Y + X) * A + (Y - X) * B) (Z * Z' + Z * Z' + T * C)
      (Z * Z' + Z * Z' - T * C) := by
  have hplus := Curve.Point.one_add_ne_zero P Q
  have hminus := Curve.Point.one_sub_ne_zero P Q
  have hz : 2 * (Z * Z') ≠ 0 := mul_ne_zero h2 (mul_ne_zero hP.ne hQ.ne)
  have hZ : Z * Z' + Z * Z' + T * C = 2 * (Z * Z') * (1 + E.d * (P.x * Q.x * (P.y * Q.y))) := by
    rw [hP.t, hQ.xy2d]; ring
  have hT : Z * Z' + Z * Z' - T * C = 2 * (Z * Z') * (1 - E.d * (P.x * Q.x * (P.y * Q.y))) := by
    rw [hP.t, hQ.xy2d]; ring
  rw [hZ, hT]
  refine ⟨mul_ne_zero hz hplus, mul_ne_zero hz hminus, ?_, ?_⟩
  · rw [Curve.Point.add_x, div_mul_mul hplus, hP.x, hP.y, hQ.plus, hQ.minus]
    ring
  · rw [Curve.Point.add_y, div_mul_mul hminus, hP.x, hP.y, hQ.plus, hQ.minus, ha]
    ring

/-- **The doubling formula**: the curve's equation is its denominators. -/
theorem Projective.double (ha : E.a = -1) (h : Projective E P X Y Z) :
    Completed E (P + P) ((X + Y) ^ 2 - (Y ^ 2 + X ^ 2)) (Y ^ 2 + X ^ 2) (Y ^ 2 - X ^ 2) (2 * Z ^ 2 - (Y ^ 2 - X ^ 2)) := by
  have hplus := Curve.Point.one_add_ne_zero P P
  have hminus := Curve.Point.one_sub_ne_zero P P
  have hz := pow_ne_zero 2 h.ne
  have hcurve : -P.x ^ 2 + P.y ^ 2 = 1 + E.d * P.x ^ 2 * P.y ^ 2 := by
    have heq := P.equation
    rw [OnCurve, ha] at heq
    linear_combination heq
  have hZ : Y ^ 2 - X ^ 2 = Z ^ 2 * (1 + E.d * (P.x * P.x * (P.y * P.y))) := by
    rw [h.x, h.y]
    linear_combination Z ^ 2 * hcurve
  have hT : 2 * Z ^ 2 - (Y ^ 2 - X ^ 2) = Z ^ 2 * (1 - E.d * (P.x * P.x * (P.y * P.y))) := by
    rw [hZ]; ring
  rw [hT, hZ]
  refine ⟨mul_ne_zero hz hplus, mul_ne_zero hz hminus, ?_, ?_⟩
  · rw [Curve.Point.add_x, div_mul_mul hplus, h.x, h.y]
    ring
  · rw [Curve.Point.add_y, div_mul_mul hminus, h.x, h.y, ha]
    ring

/-! ## Equality -/

/-- **Two quotients are compared crosswise.** -/
theorem Projective.eq_iff (hP : Projective E P X Y Z) (hQ : Projective E Q X' Y' Z') :
    P = Q ↔ X * Z' = X' * Z ∧ Y * Z' = Y' * Z := by
  have hz := mul_ne_zero hP.ne hQ.ne
  constructor
  · rintro rfl
    rw [hP.x, hP.y, hQ.x, hQ.y]
    exact ⟨by ring, by ring⟩
  · rintro ⟨hx, hy⟩
    rw [hP.x, hQ.x] at hx
    rw [hP.y, hQ.y] at hy
    refine Curve.Point.ext (mul_right_cancel₀ hz ?_) (mul_right_cancel₀ hz ?_)
    · linear_combination hx
    · linear_combination hy

end Edwards
