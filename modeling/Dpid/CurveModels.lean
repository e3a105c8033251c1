import Dpid.EdwardsModels
import Dpid.FieldElement
import Mathlib.NumberTheory.LegendreSymbol.Basic
/-!
# CurveModels — the points of curve25519 in limbs (`backend/serial/curve_models/mod.rs`)

The curve is `-x² + y² = 1 + d x² y²`, on which `-1` is a square and `d` is not, so that the addition law has no
exceptions.  Each model of a point is coordinates in limbs, and each formula keeps the limbs small enough for the next.
-/
namespace Dpid
namespace Curve25519

open Checked Edwards
open FieldElement51 (Rep)

/-! ## The curve -/

/-- `EDWARDS_D`. -/
def EDWARDS_D : FieldElement51 := ⟨929955233495203, 466365720129213, 1662059464998953, 2033849074728123, 1442794654840575⟩

/-- `EDWARDS_D2`. -/
def EDWARDS_D2 : FieldElement51 := ⟨1859910466990425, 932731440258426, 1072319116312658, 1815898335770999, 633789495995903⟩

def edwardsD : Fp := (EDWARDS_D.val : Nat)

theorem EDWARDS_D_rep : Rep (2 ^ 52) edwardsD EDWARDS_D := ⟨by decide, rfl⟩

theorem EDWARDS_D2_rep : Rep (2 ^ 52) (edwardsD + edwardsD) EDWARDS_D2 := by
  refine ⟨by decide, ?_⟩
  have h : EDWARDS_D2.val + p25519 = EDWARDS_D.val + EDWARDS_D.val := by decide
  have hcast : ((EDWARDS_D2.val + p25519 : Nat) : Fp) = (EDWARDS_D.val + EDWARDS_D.val : Nat) := congrArg Nat.cast h
  rwa [Nat.cast_add, ZMod.natCast_self, add_zero, Nat.cast_add] at hcast

theorem two_ne_zero_fp : (2 : Fp) ≠ 0 := by
  exact_mod_cast Primality.natCast_ne_zero (p := p25519) (n := 2) (by decide) (by decide)

theorem isSquare_neg_one_fp : IsSquare (-1 : Fp) := ⟨FieldElement51.sqrtM1, by rw [← sq, FieldElement51.sqrtM1_sq]⟩

theorem powMod_edwardsD :
    Primality.powMod p25519 256 EDWARDS_D.val (p25519 / 2) 1 % p25519 = p25519 - 1 := by decide +kernel

theorem edwardsD_pow : edwardsD ^ (p25519 / 2) = -1 := by
  have h := Primality.powMod_mod p25519 256 EDWARDS_D.val (p25519 / 2) 1 (by decide)
  rw [powMod_edwardsD, Nat.one_mul] at h
  have hcast : ((EDWARDS_D.val ^ (p25519 / 2) : Nat) : Fp) = ((p25519 - 1 : Nat) : Fp) := by
    rw [← ZMod.natCast_mod (EDWARDS_D.val ^ (p25519 / 2)), ← h]
  rw [Nat.cast_pow, Nat.cast_sub (by decide), ZMod.natCast_self, zero_sub, Nat.cast_one] at hcast
  exact hcast

/-- **`d` is not a square**, by Euler's criterion. -/
theorem not_isSquare_edwardsD : ¬ IsSquare edwardsD := by
  intro h
  have hne : edwardsD ≠ 0 := by
    intro h0
    have hpow := edwardsD_pow
    rw [h0, zero_pow (by decide)] at hpow
    exact one_ne_zero (neg_eq_zero.1 hpow.symm)
  have hone := (ZMod.euler_criterion p25519 hne).1 h
  rw [edwardsD_pow] at hone
  exact two_ne_zero_fp (by linear_combination -hone)

/-- The curve. -/
def ed25519 : Edwards.Curve Fp where
  a := -1
  d := edwardsD
  complete := Edwards.Curve.denominator_ne_zero two_ne_zero_fp isSquare_neg_one_fp not_isSquare_edwardsD

/-! ## The functions -/

/-- `P²`: `X / Z`, `Y / Z`. -/
structure ProjectivePoint where
  X : FieldElement51
  Y : FieldElement51
  Z : FieldElement51

/-- `P¹ × P¹`: `X / Z`, `Y / T`. -/
structure CompletedPoint where
  X : FieldElement51
  Y : FieldElement51
  Z : FieldElement51
  T : FieldElement51

/-- `P³`: `X / Z`, `Y / Z` and their product. -/
structure EdwardsPoint where
  X : FieldElement51
  Y : FieldElement51
  Z : FieldElement51
  T : FieldElement51
deriving DecidableEq

structure AffineNielsPoint where
  yPlusX : FieldElement51
  yMinusX : FieldElement51
  xy2d : FieldElement51

structure ProjectiveNielsPoint where
  YPlusX : FieldElement51
  YMinusX : FieldElement51
  Z : FieldElement51
  T2d : FieldElement51

open FieldElement51 (zero one add sub negate mul square square2)

def ProjectivePoint.identity : ProjectivePoint := ⟨zero, one, one⟩

def ProjectiveNielsPoint.identity : ProjectiveNielsPoint := ⟨one, one, one, zero⟩

def AffineNielsPoint.identity : AffineNielsPoint := ⟨one, one, zero⟩

def ProjectivePoint.toExtended (p : ProjectivePoint) : Option EdwardsPoint := do
  return ⟨← mul p.X p.Z, ← mul p.Y p.Z, ← square p.Z, ← mul p.X p.Y⟩

def CompletedPoint.toProjective (p : CompletedPoint) : Option ProjectivePoint := do
  return ⟨← mul p.X p.T, ← mul p.Y p.Z, ← mul p.Z p.T⟩

def CompletedPoint.toExtended (p : CompletedPoint) : Option EdwardsPoint := do
  return ⟨← mul p.X p.T, ← mul p.Y p.Z, ← mul p.Z p.T, ← mul p.X p.Y⟩

def ProjectivePoint.double (p : ProjectivePoint) : Option CompletedPoint := do
  let XX ← square p.X
  let YY ← square p.Y
  let ZZ2 ← square2 p.Z
  let XPlusY ← add p.X p.Y
  let XPlusYSq ← square XPlusY
  let YYPlusXX ← add YY XX
  let YYMinusXX ← sub YY XX
  return ⟨← sub XPlusYSq YYPlusXX, YYPlusXX, YYMinusXX, ← sub ZZ2 YYMinusXX⟩

/-- `self + other` for a `ProjectiveNielsPoint`. -/
def EdwardsPoint.addProjectiveNiels (p : EdwardsPoint) (other : ProjectiveNielsPoint) : Option CompletedPoint := do
  let YPlusX ← add p.Y p.X
  let YMinusX ← sub p.Y p.X
  let PP ← mul YPlusX other.YPlusX
  let MM ← mul YMinusX other.YMinusX
  let TT2d ← mul p.T other.T2d
  let ZZ ← mul p.Z other.Z
  let ZZ2 ← add ZZ ZZ
  return ⟨← sub PP MM, ← add PP MM, ← add ZZ2 TT2d, ← sub ZZ2 TT2d⟩

/-- `self - other` for a `ProjectiveNielsPoint`. -/
def EdwardsPoint.subProjectiveNiels (p : EdwardsPoint) (other : ProjectiveNielsPoint) : Option CompletedPoint := do
  let YPlusX ← add p.Y p.X
  let YMinusX ← sub p.Y p.X
  let PM ← mul YPlusX other.YMinusX
  let MP ← mul YMinusX other.YPlusX
  let TT2d ← mul p.T other.T2d
  let ZZ ← mul p.Z other.Z
  let ZZ2 ← add ZZ ZZ
  return ⟨← sub PM MP, ← add PM MP, ← sub ZZ2 TT2d, ← add ZZ2 TT2d⟩

/-- `self + other` for an `AffineNielsPoint`. -/
def EdwardsPoint.addAffineNiels (p : EdwardsPoint) (other : AffineNielsPoint) : Option CompletedPoint := do
  let YPlusX ← add p.Y p.X
  let YMinusX ← sub p.Y p.X
  let PP ← mul YPlusX other.yPlusX
  let MM ← mul YMinusX other.yMinusX
  let Txy2d ← mul p.T other.xy2d
  let Z2 ← add p.Z p.Z
  return ⟨← sub PP MM, ← add PP MM, ← add Z2 Txy2d, ← sub Z2 Txy2d⟩

/-- `self - other` for an `AffineNielsPoint`. -/
def EdwardsPoint.subAffineNiels (p : EdwardsPoint) (other : AffineNielsPoint) : Option CompletedPoint := do
  let YPlusX ← add p.Y p.X
  let YMinusX ← sub p.Y p.X
  let PM ← mul YPlusX other.yMinusX
  let MP ← mul YMinusX other.yPlusX
  let Txy2d ← mul p.T other.xy2d
  let Z2 ← add p.Z p.Z
  return ⟨← sub PM MP, ← add PM MP, ← sub Z2 Txy2d, ← add Z2 Txy2d⟩

def ProjectiveNielsPoint.neg (p : ProjectiveNielsPoint) : Option ProjectiveNielsPoint := do
  return ⟨p.YMinusX, p.YPlusX, p.Z, ← negate p.T2d⟩

def AffineNielsPoint.neg (p : AffineNielsPoint) : Option AffineNielsPoint := do
  return ⟨p.yMinusX, p.yPlusX, ← negate p.xy2d⟩

/-! ## What they stand for -/

variable {P Q : ed25519.Point}

def ProjectivePoint.Of (P : ed25519.Point) (p : ProjectivePoint) : Prop :=
  ∃ X Y Z, Projective ed25519 P X Y Z ∧ Rep (2 ^ 52) X p.X ∧ Rep (2 ^ 52) Y p.Y ∧ Rep (2 ^ 52) Z p.Z

def CompletedPoint.Of (P : ed25519.Point) (p : CompletedPoint) : Prop :=
  ∃ X Y Z T, Completed ed25519 P X Y Z T ∧ Rep (2 ^ 54) X p.X ∧ Rep (2 ^ 54) Y p.Y ∧ Rep (2 ^ 54) Z p.Z ∧
    Rep (2 ^ 54) T p.T

def EdwardsPoint.Of (P : ed25519.Point) (p : EdwardsPoint) : Prop :=
  ∃ X Y Z T, Extended ed25519 P X Y Z T ∧ Rep (2 ^ 52) X p.X ∧ Rep (2 ^ 52) Y p.Y ∧ Rep (2 ^ 52) Z p.Z ∧
    Rep (2 ^ 52) T p.T

def ProjectiveNielsPoint.Of (P : ed25519.Point) (p : ProjectiveNielsPoint) : Prop :=
  ∃ A B Z C, ProjectiveNiels ed25519 P A B Z C ∧ Rep (2 ^ 54) A p.YPlusX ∧ Rep (2 ^ 54) B p.YMinusX ∧
    Rep (2 ^ 54) Z p.Z ∧ Rep (2 ^ 54) C p.T2d

def AffineNielsPoint.Of (P : ed25519.Point) (p : AffineNielsPoint) : Prop :=
  ∃ A B C, AffineNiels ed25519 P A B C ∧ Rep (2 ^ 54) A p.yPlusX ∧ Rep (2 ^ 54) B p.yMinusX ∧ Rep (2 ^ 54) C p.xy2d

/-! ## Limbs that are small enough -/

variable {e f : Fp} {x y : FieldElement51} {m n : Nat}

theorem rep54 (h : Rep (2 ^ 52) e x) : Rep (2 ^ 54) e x := h.mono (by decide)

theorem sum_returns (hx : Rep (2 ^ 52) e x) (hy : Rep (2 ^ 52) f y) : Returns (add x y) (Rep (2 ^ 53) (e + f)) :=
  (FieldElement51.add_returns hx hy (by decide)).mono (fun _ h => h.mono (by decide))

/-- A sum that is one summand of another. -/
theorem sum_returns' (hx : Rep (2 ^ 53) e x) (hy : Rep (2 ^ 52) f y) : Returns (add x y) (Rep (2 ^ 54) (e + f)) :=
  (FieldElement51.add_returns hx hy (by decide)).mono (fun _ h => h.mono (by decide))

theorem rep54' (h : Rep (2 ^ 53) e x) : Rep (2 ^ 54) e x := h.mono (by decide)

open FieldElement51 (mul_returns sub_returns square_returns square2_returns negate_returns zero_rep one_rep)

/-! ## The identity -/

theorem zero_of : Rep (2 ^ 52) (0 : Fp) zero := zero_rep.mono (by decide)

theorem one_of : Rep (2 ^ 52) (1 : Fp) one := one_rep.mono (by decide)

theorem ProjectivePoint.identity_of : ProjectivePoint.identity.Of 0 :=
  ⟨0, 1, 1, Extended.zero.toProjective, zero_of, one_of, one_of⟩

theorem ProjectiveNielsPoint.identity_of : ProjectiveNielsPoint.identity.Of 0 :=
  ⟨1, 1, 1, 0, ProjectiveNiels.zero, rep54 one_of, rep54 one_of, rep54 one_of, rep54 zero_of⟩

theorem AffineNielsPoint.identity_of : AffineNielsPoint.identity.Of 0 :=
  ⟨1, 1, 0, AffineNiels.zero, rep54 one_of, rep54 one_of, rep54 zero_of⟩

/-! ## Conversions -/

theorem ProjectivePoint.toExtended_returns {p : ProjectivePoint} (hp : p.Of P) : Returns p.toExtended (EdwardsPoint.Of P) := by
  obtain ⟨X, Y, Z, h, hX, hY, hZ⟩ := hp
  refine (mul_returns (rep54 hX) (rep54 hZ)).bind (fun x hx => ?_)
  refine (mul_returns (rep54 hY) (rep54 hZ)).bind (fun y hy => ?_)
  refine (square_returns (rep54 hZ)).bind (fun z hz => ?_)
  refine (mul_returns (rep54 hX) (rep54 hY)).bind (fun t ht => ?_)
  exact Returns.ret ⟨_, _, _, _, h.extended, hx, hy, hz, ht⟩

theorem CompletedPoint.toProjective_returns {p : CompletedPoint} (hp : p.Of P) :
    Returns p.toProjective (ProjectivePoint.Of P) := by
  obtain ⟨X, Y, Z, T, h, hX, hY, hZ, hT⟩ := hp
  refine (mul_returns hX hT).bind (fun x hx => ?_)
  refine (mul_returns hY hZ).bind (fun y hy => ?_)
  refine (mul_returns hZ hT).bind (fun z hz => ?_)
  exact Returns.ret ⟨_, _, _, h.projective, hx, hy, hz⟩

theorem CompletedPoint.toExtended_returns {p : CompletedPoint} (hp : p.Of P) :
    Returns p.toExtended (EdwardsPoint.Of P) := by
  obtain ⟨X, Y, Z, T, h, hX, hY, hZ, hT⟩ := hp
  refine (mul_returns hX hT).bind (fun x hx => ?_)
  refine (mul_returns hY hZ).bind (fun y hy => ?_)
  refine (mul_returns hZ hT).bind (fun z hz => ?_)
  refine (mul_returns hX hY).bind (fun t ht => ?_)
  exact Returns.ret ⟨_, _, _, _, h.extended, hx, hy, hz, ht⟩

/-! ## The formulas -/

theorem ed25519_a : ed25519.a = -1 := rfl

/-- **Doubling.** -/
theorem ProjectivePoint.double_returns {p : ProjectivePoint} (hp : p.Of P) : Returns p.double (CompletedPoint.Of (P + P)) := by
  obtain ⟨X, Y, Z, h, hX, hY, hZ⟩ := hp
  refine (square_returns (rep54 hX)).bind (fun XX hXX => ?_)
  refine (square_returns (rep54 hY)).bind (fun YY hYY => ?_)
  refine (square2_returns (rep54 hZ)).bind (fun ZZ2 hZZ2 => ?_)
  refine (sum_returns hX hY).bind (fun s hs => ?_)
  refine (square_returns (rep54' hs)).bind (fun ss hss => ?_)
  refine (sum_returns hYY hXX).bind (fun plus hplus => ?_)
  refine (sub_returns (rep54 hYY) (rep54 hXX)).bind (fun minus hminus => ?_)
  refine (sub_returns (rep54 hss) (rep54' hplus)).bind (fun x hx => ?_)
  refine (sub_returns (rep54' hZZ2) (rep54 hminus)).bind (fun t ht => ?_)
  exact Returns.ret ⟨_, _, _, _, h.double ed25519_a, rep54 hx, rep54' hplus, rep54 hminus, rep54 ht⟩

/-- The coordinates of a sum, from the two products and the two parts of the denominators. -/
theorem sums_returns {a b c d : FieldElement51} {A B C D : Fp} (ha : Rep (2 ^ 52) A a) (hb : Rep (2 ^ 52) B b)
    (hc : Rep (2 ^ 53) C c) (hd : Rep (2 ^ 52) D d) (h : Completed ed25519 P (A - B) (A + B) (C + D) (C - D)) :
    Returns (do return CompletedPoint.mk (← sub a b) (← add a b) (← add c d) (← sub c d)) (CompletedPoint.Of P) := by
  refine (sub_returns (rep54 ha) (rep54 hb)).bind (fun x hx => ?_)
  refine (sum_returns ha hb).bind (fun y hy => ?_)
  refine (sum_returns' hc hd).bind (fun z hz => ?_)
  refine (sub_returns (rep54' hc) (rep54 hd)).bind (fun t ht => ?_)
  exact Returns.ret ⟨_, _, _, _, h, rep54 hx, rep54' hy, hz, rep54 ht⟩

/-- The coordinates of a difference: the denominators change places. -/
theorem differences_returns {a b c d : FieldElement51} {A B C D : Fp} (ha : Rep (2 ^ 52) A a) (hb : Rep (2 ^ 52) B b)
    (hc : Rep (2 ^ 53) C c) (hd : Rep (2 ^ 52) D d) (h : Completed ed25519 P (A - B) (A + B) (C - D) (C + D)) :
    Returns (do return CompletedPoint.mk (← sub a b) (← add a b) (← sub c d) (← add c d)) (CompletedPoint.Of P) := by
  refine (sub_returns (rep54 ha) (rep54 hb)).bind (fun x hx => ?_)
  refine (sum_returns ha hb).bind (fun y hy => ?_)
  refine (sub_returns (rep54' hc) (rep54 hd)).bind (fun z hz => ?_)
  refine (sum_returns' hc hd).bind (fun t ht => ?_)
  exact Returns.ret ⟨_, _, _, _, h, rep54 hx, rep54' hy, rep54 hz, ht⟩

/-- **Addition.** -/
theorem EdwardsPoint.addProjectiveNiels_returns {p : EdwardsPoint} {q : ProjectiveNielsPoint} (hp : p.Of P) (hq : q.Of Q) :
    Returns (p.addProjectiveNiels q) (CompletedPoint.Of (P + Q)) := by
  obtain ⟨X, Y, Z, T, h, hX, hY, hZ, hT⟩ := hp
  obtain ⟨A, B, Z', C, h', hA, hB, hZ', hC⟩ := hq
  refine (sum_returns hY hX).bind (fun plus hplus => ?_)
  refine (sub_returns (rep54 hY) (rep54 hX)).bind (fun minus hminus => ?_)
  refine (mul_returns (rep54' hplus) hA).bind (fun PP hPP => ?_)
  refine (mul_returns (rep54 hminus) hB).bind (fun MM hMM => ?_)
  refine (mul_returns (rep54 hT) hC).bind (fun TT2d hTT2d => ?_)
  refine (mul_returns (rep54 hZ) hZ').bind (fun ZZ hZZ => ?_)
  refine (sum_returns hZZ hZZ).bind (fun ZZ2 hZZ2 => ?_)
  exact sums_returns hPP hMM hZZ2 hTT2d (h.add ed25519_a two_ne_zero_fp h')

/-- The addition of an opposite, its denominators written as differences. -/
theorem completed_sub {X Y Z T A B Z' C : Fp} (h : Extended ed25519 P X Y Z T) (h' : ProjectiveNiels ed25519 Q A B Z' C) :
    Completed ed25519 (P - Q) ((Y + X) * B - (Y - X) * A) ((Y + X) * B + (Y - X) * A) (Z * Z' + Z * Z' - T * C)
      (Z * Z' + Z * Z' + T * C) := by
  have hneg := h.add ed25519_a two_ne_zero_fp h'.neg
  rwa [mul_neg, ← sub_eq_add_neg, sub_neg_eq_add, ← sub_eq_add_neg] at hneg

/-- **Subtraction.** -/
theorem EdwardsPoint.subProjectiveNiels_returns {p : EdwardsPoint} {q : ProjectiveNielsPoint} (hp : p.Of P) (hq : q.Of Q) :
    Returns (p.subProjectiveNiels q) (CompletedPoint.Of (P - Q)) := by
  obtain ⟨X, Y, Z, T, h, hX, hY, hZ, hT⟩ := hp
  obtain ⟨A, B, Z', C, h', hA, hB, hZ', hC⟩ := hq
  refine (sum_returns hY hX).bind (fun plus hplus => ?_)
  refine (sub_returns (rep54 hY) (rep54 hX)).bind (fun minus hminus => ?_)
  refine (mul_returns (rep54' hplus) hB).bind (fun PM hPM => ?_)
  refine (mul_returns (rep54 hminus) hA).bind (fun MP hMP => ?_)
  refine (mul_returns (rep54 hT) hC).bind (fun TT2d hTT2d => ?_)
  refine (mul_returns (rep54 hZ) hZ').bind (fun ZZ hZZ => ?_)
  refine (sum_returns hZZ hZZ).bind (fun ZZ2 hZZ2 => ?_)
  exact differences_returns hPM hMP hZZ2 hTT2d (completed_sub h h')

theorem EdwardsPoint.addAffineNiels_returns {p : EdwardsPoint} {q : AffineNielsPoint} (hp : p.Of P) (hq : q.Of Q) :
    Returns (p.addAffineNiels q) (CompletedPoint.Of (P + Q)) := by
  obtain ⟨X, Y, Z, T, h, hX, hY, hZ, hT⟩ := hp
  obtain ⟨A, B, C, h', hA, hB, hC⟩ := hq
  have hsum := h.add ed25519_a two_ne_zero_fp h'.projective
  rw [mul_one] at hsum
  refine (sum_returns hY hX).bind (fun plus hplus => ?_)
  refine (sub_returns (rep54 hY) (rep54 hX)).bind (fun minus hminus => ?_)
  refine (mul_returns (rep54' hplus) hA).bind (fun PP hPP => ?_)
  refine (mul_returns (rep54 hminus) hB).bind (fun MM hMM => ?_)
  refine (mul_returns (rep54 hT) hC).bind (fun Txy2d hTxy2d => ?_)
  refine (sum_returns hZ hZ).bind (fun Z2 hZ2 => ?_)
  exact sums_returns hPP hMM hZ2 hTxy2d hsum

theorem EdwardsPoint.subAffineNiels_returns {p : EdwardsPoint} {q : AffineNielsPoint} (hp : p.Of P) (hq : q.Of Q) :
    Returns (p.subAffineNiels q) (CompletedPoint.Of (P - Q)) := by
  obtain ⟨X, Y, Z, T, h, hX, hY, hZ, hT⟩ := hp
  obtain ⟨A, B, C, h', hA, hB, hC⟩ := hq
  have hdiff := completed_sub h h'.projective
  rw [mul_one] at hdiff
  refine (sum_returns hY hX).bind (fun plus hplus => ?_)
  refine (sub_returns (rep54 hY) (rep54 hX)).bind (fun minus hminus => ?_)
  refine (mul_returns (rep54' hplus) hB).bind (fun PM hPM => ?_)
  refine (mul_returns (rep54 hminus) hA).bind (fun MP hMP => ?_)
  refine (mul_returns (rep54 hT) hC).bind (fun Txy2d hTxy2d => ?_)
  refine (sum_returns hZ hZ).bind (fun Z2 hZ2 => ?_)
  exact differences_returns hPM hMP hZ2 hTxy2d hdiff

/-! ## Opposites -/

theorem ProjectiveNielsPoint.neg_returns {p : ProjectiveNielsPoint} (hp : p.Of P) :
    Returns p.neg (ProjectiveNielsPoint.Of (-P)) := by
  obtain ⟨A, B, Z, C, h, hA, hB, hZ, hC⟩ := hp
  exact (negate_returns hC).bind (fun c hc => Returns.ret ⟨_, _, _, _, h.neg, hB, hA, hZ, rep54 hc⟩)

theorem AffineNielsPoint.neg_returns {p : AffineNielsPoint} (hp : p.Of P) :
    Returns p.neg (AffineNielsPoint.Of (-P)) := by
  obtain ⟨A, B, C, h, hA, hB, hC⟩ := hp
  exact (negate_returns hC).bind (fun c hc => Returns.ret ⟨_, _, _, h.neg, hB, hA, rep54 hc⟩)

end Curve25519
end Dpid
