import Mathlib.Algebra.Field.Basic
import Mathlib.Algebra.Group.Even
import Mathlib.Tactic.FieldSimp
import Mathlib.Tactic.LinearCombination
import Mathlib.Tactic.Ring
/-!
# Edwards — the group of a complete twisted Edwards curve

The points with `a x² + y² = 1 + d x² y²` over a field.  Where the denominators of the affine addition law never vanish
on the curve, the law makes the points a commutative group with `(0, 1)` as its neutral element.
-/
namespace Edwards

variable {F : Type*} [Field F]

/-! ## The affine law -/

def OnCurve (a d : F) (P : F × F) : Prop := a * P.1 ^ 2 + P.2 ^ 2 = 1 + d * P.1 ^ 2 * P.2 ^ 2

instance (a d : F) [DecidableEq F] (P : F × F) : Decidable (OnCurve a d P) :=
  inferInstanceAs (Decidable (_ = _))

def add (a d : F) (P Q : F × F) : F × F :=
  ((P.1 * Q.2 + P.2 * Q.1) / (1 + d * (P.1 * Q.1 * (P.2 * Q.2))),
    (P.2 * Q.2 - a * (P.1 * Q.1)) / (1 - d * (P.1 * Q.1 * (P.2 * Q.2))))

def neg (P : F × F) : F × F := (-P.1, P.2)

theorem zero_onCurve (a d : F) : OnCurve a d (0, 1) := by
  rw [OnCurve]
  ring

theorem neg_onCurve {a d : F} {P : F × F} (h : OnCurve a d P) : OnCurve a d (neg P) := by
  rw [OnCurve] at h ⊢
  rw [neg, neg_sq]
  exact h

/-! ## The identities behind it -/

section

variable {a d x₁ y₁ x₂ y₂ x₃ y₃ : F}

/-- The sum is on the curve, its denominators cleared. -/
theorem closure_identity (h₁ : a * x₁ ^ 2 + y₁ ^ 2 = 1 + d * x₁ ^ 2 * y₁ ^ 2)
    (h₂ : a * x₂ ^ 2 + y₂ ^ 2 = 1 + d * x₂ ^ 2 * y₂ ^ 2) :
    a * (x₁ * y₂ + y₁ * x₂) ^ 2 * (1 - d * (x₁ * x₂ * (y₁ * y₂))) ^ 2 +
        (y₁ * y₂ - a * (x₁ * x₂)) ^ 2 * (1 + d * (x₁ * x₂ * (y₁ * y₂))) ^ 2 =
      (1 + d * (x₁ * x₂ * (y₁ * y₂))) ^ 2 * (1 - d * (x₁ * x₂ * (y₁ * y₂))) ^ 2 +
        d * (x₁ * y₂ + y₁ * x₂) ^ 2 * (y₁ * y₂ - a * (x₁ * x₂)) ^ 2 := by
  linear_combination
    ((a * x₂ ^ 2 + y₂ ^ 2) * (1 + d ^ 2 * x₁ ^ 2 * y₁ ^ 2 * x₂ ^ 2 * y₂ ^ 2) -
        d * x₂ ^ 2 * y₂ ^ 2 * (a * x₁ ^ 2 + y₁ ^ 2 + 1 + d * x₁ ^ 2 * y₁ ^ 2)) * h₁ +
      ((1 + d * x₁ ^ 2 * y₁ ^ 2) * (1 + d ^ 2 * x₁ ^ 2 * y₁ ^ 2 * x₂ ^ 2 * y₂ ^ 2) -
        d * x₁ ^ 2 * y₁ ^ 2 * (a * x₂ ^ 2 + y₂ ^ 2 + 1 + d * x₂ ^ 2 * y₂ ^ 2)) * h₂

/-- Associativity in the first coordinate, its denominators cleared. -/
theorem assoc_identity_fst (h₁ : a * x₁ ^ 2 + y₁ ^ 2 = 1 + d * x₁ ^ 2 * y₁ ^ 2)
    (h₂ : a * x₂ ^ 2 + y₂ ^ 2 = 1 + d * x₂ ^ 2 * y₂ ^ 2) (h₃ : a * x₃ ^ 2 + y₃ ^ 2 = 1 + d * x₃ ^ 2 * y₃ ^ 2) :
    ((x₁ * y₂ + y₁ * x₂) * (1 - d * (x₁ * x₂ * (y₁ * y₂))) * y₃ +
          (y₁ * y₂ - a * (x₁ * x₂)) * (1 + d * (x₁ * x₂ * (y₁ * y₂))) * x₃) *
        ((1 + d * (x₂ * x₃ * (y₂ * y₃))) * (1 - d * (x₂ * x₃ * (y₂ * y₃))) +
          d * (x₁ * y₁) * ((x₂ * y₃ + y₂ * x₃) * (y₂ * y₃ - a * (x₂ * x₃)))) =
      (x₁ * (y₂ * y₃ - a * (x₂ * x₃)) * (1 + d * (x₂ * x₃ * (y₂ * y₃))) +
          y₁ * (x₂ * y₃ + y₂ * x₃) * (1 - d * (x₂ * x₃ * (y₂ * y₃)))) *
        ((1 + d * (x₁ * x₂ * (y₁ * y₂))) * (1 - d * (x₁ * x₂ * (y₁ * y₂))) +
          d * ((x₁ * y₂ + y₁ * x₂) * (y₁ * y₂ - a * (x₁ * x₂))) * (x₃ * y₃)) := by
  linear_combination
    d * x₂ * y₂ * x₃ * y₃ * (x₁ * (y₂ * y₃ - a * (x₂ * x₃)) * (1 + d * (x₂ * x₃ * (y₂ * y₃))) -
        y₁ * (x₂ * y₃ + y₂ * x₃) * (1 - d * (x₂ * x₃ * (y₂ * y₃)))) * h₁ +
      d ^ 2 * x₁ * y₁ * x₂ * y₂ * x₃ * y₃ * (x₁ * y₁ * (y₁ * (x₂ * y₃ + y₂ * x₃) - x₁ * (y₂ * y₃ - a * (x₂ * x₃))) +
        x₃ * y₃ * (x₃ * (y₁ * y₂ - a * (x₁ * x₂)) - y₃ * (x₁ * y₂ + y₁ * x₂))) * h₂ -
      d * x₁ * y₁ * x₂ * y₂ * (x₃ * (y₁ * y₂ - a * (x₁ * x₂)) * (1 + d * (x₁ * x₂ * (y₁ * y₂))) -
        y₃ * (x₁ * y₂ + y₁ * x₂) * (1 - d * (x₁ * x₂ * (y₁ * y₂)))) * h₃

/-- Associativity in the second coordinate, its denominators cleared. -/
theorem assoc_identity_snd (h₁ : a * x₁ ^ 2 + y₁ ^ 2 = 1 + d * x₁ ^ 2 * y₁ ^ 2)
    (h₂ : a * x₂ ^ 2 + y₂ ^ 2 = 1 + d * x₂ ^ 2 * y₂ ^ 2) (h₃ : a * x₃ ^ 2 + y₃ ^ 2 = 1 + d * x₃ ^ 2 * y₃ ^ 2) :
    ((y₁ * y₂ - a * (x₁ * x₂)) * (1 + d * (x₁ * x₂ * (y₁ * y₂))) * y₃ -
          a * ((x₁ * y₂ + y₁ * x₂) * (1 - d * (x₁ * x₂ * (y₁ * y₂))) * x₃)) *
        ((1 + d * (x₂ * x₃ * (y₂ * y₃))) * (1 - d * (x₂ * x₃ * (y₂ * y₃))) -
          d * (x₁ * y₁) * ((x₂ * y₃ + y₂ * x₃) * (y₂ * y₃ - a * (x₂ * x₃)))) =
      (y₁ * (y₂ * y₃ - a * (x₂ * x₃)) * (1 + d * (x₂ * x₃ * (y₂ * y₃))) -
          a * (x₁ * (x₂ * y₃ + y₂ * x₃) * (1 - d * (x₂ * x₃ * (y₂ * y₃))))) *
        ((1 + d * (x₁ * x₂ * (y₁ * y₂))) * (1 - d * (x₁ * x₂ * (y₁ * y₂))) -
          d * ((x₁ * y₂ + y₁ * x₂) * (y₁ * y₂ - a * (x₁ * x₂))) * (x₃ * y₃)) := by
  linear_combination
    d * x₂ * y₂ * x₃ * y₃ * (y₁ * (y₂ * y₃ - a * (x₂ * x₃)) * (1 + d * (x₂ * x₃ * (y₂ * y₃))) +
        a * x₁ * (x₂ * y₃ + y₂ * x₃) * (1 - d * (x₂ * x₃ * (y₂ * y₃)))) * h₁ +
      d ^ 2 * x₁ * y₁ * x₂ * y₂ * x₃ * y₃ * (x₃ * y₃ * (y₃ * (y₁ * y₂ - a * (x₁ * x₂)) + a * x₃ * (x₁ * y₂ + y₁ * x₂)) -
        x₁ * y₁ * (y₁ * (y₂ * y₃ - a * (x₂ * x₃)) + a * x₁ * (x₂ * y₃ + y₂ * x₃))) * h₂ -
      d * x₁ * y₁ * x₂ * y₂ * (y₃ * (y₁ * y₂ - a * (x₁ * x₂)) * (1 + d * (x₁ * x₂ * (y₁ * y₂))) +
        a * x₃ * (x₁ * y₂ + y₁ * x₂) * (1 - d * (x₁ * x₂ * (y₁ * y₂)))) * h₃

theorem quotients_onCurve {s c b e : F} (hb : b ≠ 0) (he : e ≠ 0)
    (h : a * s ^ 2 * e ^ 2 + c ^ 2 * b ^ 2 = b ^ 2 * e ^ 2 + d * s ^ 2 * c ^ 2) : OnCurve a d (s / b, c / e) := by
  rw [OnCurve]
  field_simp
  linear_combination h

theorem one_add_quotients {s c b e x y : F} (hb : b ≠ 0) (he : e ≠ 0) :
    1 + d * (s / b * x * (c / e * y)) = (b * e + d * (s * c) * (x * y)) / (b * e) := by field_simp

theorem one_sub_quotients {s c b e x y : F} (hb : b ≠ 0) (he : e ≠ 0) :
    1 - d * (s / b * x * (c / e * y)) = (b * e - d * (s * c) * (x * y)) / (b * e) := by field_simp

/-- Adding a point to quotients, in the first coordinate. -/
theorem add_quotients_fst {s c b e x y : F} (hb : b ≠ 0) (he : e ≠ 0) :
    (s / b * y + c / e * x) / (1 + d * (s / b * x * (c / e * y))) = (s * e * y + c * b * x) / (b * e + d * (s * c) * (x * y)) := by
  have hnum : s / b * y + c / e * x = (s * e * y + c * b * x) / (b * e) := by field_simp
  rw [hnum, one_add_quotients hb he, div_div_div_cancel_right₀ (mul_ne_zero hb he)]

/-- Adding a point to quotients, in the second coordinate. -/
theorem add_quotients_snd {s c b e x y : F} (hb : b ≠ 0) (he : e ≠ 0) :
    (c / e * y - a * (s / b * x)) / (1 - d * (s / b * x * (c / e * y))) =
      (c * b * y - a * (s * e * x)) / (b * e - d * (s * c) * (x * y)) := by
  have hnum : c / e * y - a * (s / b * x) = (c * b * y - a * (s * e * x)) / (b * e) := by field_simp
  rw [hnum, one_sub_quotients hb he, div_div_div_cancel_right₀ (mul_ne_zero hb he)]

end

/-! ## Complete curves -/

/-- A curve on which no denominator of the addition law vanishes. -/
structure Curve (F : Type*) [Field F] where
  a : F
  d : F
  complete : ∀ P Q : F × F, OnCurve a d P → OnCurve a d Q → 1 + d * (P.1 * Q.1 * (P.2 * Q.2)) ≠ 0

namespace Curve

/-- Where a denominator vanishes, `d` is a square unless one sum of coordinates is zero. -/
theorem isSquare_of_denominator {r d x₁ y₁ x₂ y₂ : F} (h₁ : r ^ 2 * x₁ ^ 2 + y₁ ^ 2 = 1 + d * x₁ ^ 2 * y₁ ^ 2)
    (h₂ : r ^ 2 * x₂ ^ 2 + y₂ ^ 2 = 1 + d * x₂ ^ 2 * y₂ ^ 2) (h : 1 + d * (x₁ * x₂ * (y₁ * y₂)) = 0)
    (hsum : r * x₂ + y₂ ≠ 0) : IsSquare d := by
  have hprod : x₁ * y₁ ≠ 0 := by
    intro h0
    exact one_ne_zero (show (1 : F) = 0 by linear_combination h - d * x₂ * y₂ * h0)
  have hsq : d * (x₁ * y₁ * (r * x₂ + y₂)) ^ 2 = (r * x₁ - y₁) ^ 2 := by
    linear_combination d * x₁ ^ 2 * y₁ ^ 2 * h₂ - h₁ + (2 * r * x₁ * y₁ + d * (x₁ * x₂ * (y₁ * y₂)) - 1) * h
  have hne : (x₁ * y₁ * (r * x₂ + y₂)) ^ 2 ≠ 0 := pow_ne_zero 2 (mul_ne_zero hprod hsum)
  refine ⟨(r * x₁ - y₁) / (x₁ * y₁ * (r * x₂ + y₂)), ?_⟩
  rw [← sq, div_pow, ← hsq, mul_div_cancel_right₀ _ hne]

/-- **A square `a` and a non-square `d` make the law complete.** -/
theorem denominator_ne_zero (h2 : (2 : F) ≠ 0) {a d : F} (ha : IsSquare a) (hd : ¬ IsSquare d) (P Q : F × F)
    (hP : OnCurve a d P) (hQ : OnCurve a d Q) : 1 + d * (P.1 * Q.1 * (P.2 * Q.2)) ≠ 0 := by
  intro h
  obtain ⟨r, rfl⟩ := ha
  rw [OnCurve, ← sq] at hP hQ
  by_cases hsum : r * Q.1 + Q.2 = 0
  · have hsum' : -r * Q.1 + Q.2 ≠ 0 := by
      intro hdiff
      have hy : Q.2 = 0 := by
        have htwo : 2 * Q.2 = 0 := by linear_combination hsum + hdiff
        exact (mul_eq_zero.1 htwo).resolve_left h2
      rw [hy, mul_zero, mul_zero, mul_zero, add_zero] at h
      exact one_ne_zero h
    rw [← neg_sq] at hP hQ
    exact hd (isSquare_of_denominator hP hQ h hsum')
  · exact hd (isSquare_of_denominator hP hQ h hsum)

variable (E : Curve F)

theorem one_sub_ne_zero {P Q : F × F} (hP : OnCurve E.a E.d P) (hQ : OnCurve E.a E.d Q) :
    1 - E.d * (P.1 * Q.1 * (P.2 * Q.2)) ≠ 0 := by
  have h := E.complete P (neg Q) hP (neg_onCurve hQ)
  rw [neg] at h
  intro h0
  exact h (by linear_combination h0)

theorem add_onCurve {P Q : F × F} (hP : OnCurve E.a E.d P) (hQ : OnCurve E.a E.d Q) :
    OnCurve E.a E.d (add E.a E.d P Q) := by
  have hplus := E.complete P Q hP hQ
  have hminus := E.one_sub_ne_zero hP hQ
  exact quotients_onCurve hplus hminus (closure_identity hP hQ)

theorem add_comm (a d : F) (P Q : F × F) : add a d P Q = add a d Q P := by
  rw [add, add]
  refine Prod.ext_iff.2 ⟨?_, ?_⟩ <;> ring_nf

theorem zero_add (a d : F) (P : F × F) : add a d (0, 1) P = P := by
  rw [add]
  refine Prod.ext_iff.2 ⟨?_, ?_⟩ <;> simp

theorem neg_add_cancel {P : F × F} (hP : OnCurve E.a E.d P) : add E.a E.d (neg P) P = (0, 1) := by
  have hplus := E.complete (neg P) P (neg_onCurve hP) hP
  have hminus := E.one_sub_ne_zero (neg_onCurve hP) hP
  rw [add]
  refine Prod.ext_iff.2 ⟨?_, ?_⟩
  · rw [div_eq_zero_iff]
    exact .inl (by rw [neg]; ring)
  · rw [div_eq_one_iff_eq hminus]
    rw [OnCurve] at hP
    rw [neg]
    linear_combination hP

/-- **The addition law is associative** on the curve. -/
theorem add_assoc {P Q R : F × F} (hP : OnCurve E.a E.d P) (hQ : OnCurve E.a E.d Q) (hR : OnCurve E.a E.d R) :
    add E.a E.d (add E.a E.d P Q) R = add E.a E.d P (add E.a E.d Q R) := by
  have hpq := E.complete P Q hP hQ
  have hpq' := E.one_sub_ne_zero hP hQ
  have hqr := E.complete Q R hQ hR
  have hqr' := E.one_sub_ne_zero hQ hR
  have hl := E.complete _ R (E.add_onCurve hP hQ) hR
  have hl' := E.one_sub_ne_zero (E.add_onCurve hP hQ) hR
  have hr := E.complete _ P (E.add_onCurve hQ hR) hP
  have hr' := E.one_sub_ne_zero (E.add_onCurve hQ hR) hP
  rw [add] at hl hl' hr hr'
  rw [one_add_quotients hpq hpq'] at hl
  rw [one_sub_quotients hpq hpq'] at hl'
  rw [one_add_quotients hqr hqr'] at hr
  rw [one_sub_quotients hqr hqr'] at hr'
  rw [add_comm E.a E.d P (add E.a E.d Q R)]
  refine Prod.ext_iff.2 ⟨?_, ?_⟩
  · calc (add E.a E.d (add E.a E.d P Q) R).1
        = _ := add_quotients_fst hpq hpq'
      _ = _ := (div_eq_div_iff (div_ne_zero_iff.1 hl).1 (div_ne_zero_iff.1 hr).1).2
        (by linear_combination assoc_identity_fst hP hQ hR)
      _ = (add E.a E.d (add E.a E.d Q R) P).1 := (add_quotients_fst hqr hqr').symm
  · calc (add E.a E.d (add E.a E.d P Q) R).2
        = _ := add_quotients_snd hpq hpq'
      _ = _ := (div_eq_div_iff (div_ne_zero_iff.1 hl').1 (div_ne_zero_iff.1 hr').1).2
        (by linear_combination assoc_identity_snd hP hQ hR)
      _ = (add E.a E.d (add E.a E.d Q R) P).2 := (add_quotients_snd hqr hqr').symm

/-! ## The group -/

/-- A point of the curve. -/
@[ext]
structure Point where
  x : F
  y : F
  equation : OnCurve E.a E.d (x, y)

namespace Point

variable {E}

def coords (P : E.Point) : F × F := (P.x, P.y)

theorem coords_injective : Function.Injective (coords : E.Point → F × F) := fun _ _ h =>
  Point.ext (congrArg Prod.fst h) (congrArg Prod.snd h)

instance : Zero E.Point := ⟨⟨0, 1, zero_onCurve E.a E.d⟩⟩

instance : Neg E.Point := ⟨fun P => ⟨-P.x, P.y, neg_onCurve P.equation⟩⟩

instance : Add E.Point := ⟨fun P Q =>
  ⟨(Edwards.add E.a E.d P.coords Q.coords).1, (Edwards.add E.a E.d P.coords Q.coords).2,
    E.add_onCurve P.equation Q.equation⟩⟩

/-- **The points are a commutative group.** -/
instance : AddCommGroup E.Point where
  add_assoc P Q R := coords_injective (E.add_assoc P.equation Q.equation R.equation)
  zero_add P := coords_injective (Curve.zero_add E.a E.d P.coords)
  add_zero P := coords_injective ((Curve.add_comm E.a E.d P.coords (0, 1)).trans (Curve.zero_add E.a E.d P.coords))
  neg_add_cancel P := coords_injective (E.neg_add_cancel P.equation)
  add_comm P Q := coords_injective (Curve.add_comm E.a E.d P.coords Q.coords)
  nsmul := nsmulRec
  zsmul := zsmulRec

variable (P Q : E.Point)

theorem one_add_ne_zero : 1 + E.d * (P.x * Q.x * (P.y * Q.y)) ≠ 0 := E.complete P.coords Q.coords P.equation Q.equation

theorem one_sub_ne_zero : 1 - E.d * (P.x * Q.x * (P.y * Q.y)) ≠ 0 := E.one_sub_ne_zero P.equation Q.equation

theorem add_x : (P + Q).x = (P.x * Q.y + P.y * Q.x) / (1 + E.d * (P.x * Q.x * (P.y * Q.y))) := rfl

theorem add_y : (P + Q).y = (P.y * Q.y - E.a * (P.x * Q.x)) / (1 - E.d * (P.x * Q.x * (P.y * Q.y))) := rfl

@[simp] theorem neg_x : (-P).x = -P.x := rfl

@[simp] theorem neg_y : (-P).y = P.y := rfl

end Point

end Curve

end Edwards
