import Dpid.Bytes
import Dpid.Jubjub
import Mathlib.Data.Nat.Bitwise
import Mathlib.Data.Nat.Size
import Mathlib.Tactic.Module
/-!
# SharedPoint — points of the curve as shares (`progs/jubjub.py`)

A share stands for the field element it opens to, so that dividing shares raises when the divisor opens to zero.  The
neutral element has two forms: a `SharedPoint` at `(0, 1)` and a `SharedIdeal`, whose class overrides what it inherits.
All points are of one curve and one context.
-/
namespace Dpid
namespace Jubjub

/-! ## The program -/

/-- A local `Point`, or its subclass `Ideal`. -/
inductive LocalPoint (F : Type*) where
  | point (x y : F)
  | ideal
deriving DecidableEq

/-- A `SharedPoint`, or its subclass `SharedIdeal`. -/
inductive SharedPoint (F : Type*) where
  | point (xs ys : F)
  | ideal
deriving DecidableEq

variable {F : Type*} [Field F] [DecidableEq F]

/-- The division of two shares. -/
def divide (x y : F) : Except Exn F := if y = 0 then .error .zeroDivisionError else .ok (x / y)

namespace SharedPoint

/-- `open()`. -/
def opened : SharedPoint F → LocalPoint F
  | point xs ys => .point xs ys
  | ideal       => .ideal

def neg : SharedPoint F → SharedPoint F
  | point xs ys => point (-1 * xs) ys
  | ideal       => ideal

/-- `add(other)`; `SharedIdeal.add` returns itself. -/
def add (J : JubjubCurve F) : SharedPoint F → SharedPoint F → Except Exn (SharedPoint F)
  | ideal, _                  => .ok ideal
  | point x1 y1, ideal        => .ok (point x1 y1)
  | point x1 y1, point x2 y2  => do
    let xProd := x1 * x2
    let yProd := y1 * y2
    let dProd := J.d * xProd * yProd
    let x3 ← divide (x1 * y2 + y1 * x2) (1 + dProd)
    let y3 ← divide (yProd + xProd) (1 - dProd)
    return point x3 y3

def double (J : JubjubCurve F) : SharedPoint F → Except Exn (SharedPoint F)
  | ideal       => .ok ideal
  | point x_ y_ => do
    let xSq := x_ * x_
    let ySq := y_ * y_
    let axSq := J.a * xSq
    let xDenom := axSq + ySq
    let x ← divide ((2 : Nat) * x_ * y_) xDenom
    let y ← divide (ySq - axSq) ((2 : Nat) - xDenom)
    return point x y

/-- The loop of `mul` at `i = 2^j`. -/
def mulLoop (J : JubjubCurve F) (n j : Nat) (current product : SharedPoint F) : Except Exn (SharedPoint F) :=
  if 2 ^ j ≤ n then do
    let product ← if n &&& 2 ^ j = 2 ^ j then add J product current else .ok product
    let current ← double J current
    mulLoop J n (j + 1) current product
  else .ok product
termination_by n + 1 - 2 ^ j
decreasing_by
  have := Nat.pow_lt_pow_right (show 1 < 2 by decide) (Nat.lt_succ_self j)
  omega

/-- `mul(n)` from `n >= 0` on. -/
def mulNat (J : JubjubCurve F) (P : SharedPoint F) (n : Nat) : Except Exn (SharedPoint F) :=
  if n = 0 then .ok ideal else mulLoop J n 0 P (point 0 1)

/-- `mul(n)`; `SharedIdeal.mul` returns itself. -/
def mul (J : JubjubCurve F) (P : SharedPoint F) (n : Int) : Except Exn (SharedPoint F) :=
  match P with
  | ideal       => .ok ideal
  | point xs ys => if n < 0 then mulNat J (neg (point xs ys)) (-n).toNat else mulNat J (point xs ys) n.toNat

/-- The loop of `montgomery_mul` with `k` rounds left, at `i = 2^(k - 1)`. -/
def ladder (J : JubjubCurve F) (n : Nat) : Nat → SharedPoint F → SharedPoint F → Except Exn (SharedPoint F)
  | 0, _, product           => .ok product
  | k + 1, current, product =>
    if n &&& 2 ^ k = 2 ^ k then do
      let product ← add J product current
      let current ← double J current
      ladder J n k current product
    else do
      let current ← add J product current
      let product ← double J product
      ladder J n k current product

/-- `montgomery_mul(n)`, which `SharedIdeal` inherits without a `context` to start the product in. -/
def montgomeryMul (J : JubjubCurve F) (P : SharedPoint F) (n : Int) : Except Exn (SharedPoint F) :=
  if n < 0 then mul J (neg P) (-n)
  else if n = 0 then .ok ideal
  else match P with
    | ideal       => .error .attributeError
    | point xs ys => ladder J n.toNat (n.toNat.size + 1) (point xs ys) (point 0 1)

/-! ## The operations on the group -/

section

variable (J : JubjubCurve F)

/-- The shared form of a point of the group. -/
def ofPoint {J : JubjubCurve F} (P : J.Point) : SharedPoint F := point P.x P.y

theorem divide_ok {x y : F} (h : y ≠ 0) : divide x y = .ok (x / y) := if_neg h

/-- **Adding two points is the group's addition**, the law being complete. -/
theorem add_ofPoint (P Q : J.Point) : add J (ofPoint P) (ofPoint Q) = .ok (ofPoint (P + Q)) := by
  rw [ofPoint, ofPoint, add]
  simp only [mul_assoc J.d, divide_ok (P.one_add_ne_zero Q), divide_ok (P.one_sub_ne_zero Q), bind, Except.bind, pure,
    Except.pure]
  rw [ofPoint, Edwards.Curve.Point.add_x, Edwards.Curve.Point.add_y, J.a_eq, neg_one_mul, sub_neg_eq_add]

/-- **Doubling is adding a point to itself**: on the curve the denominators agree. -/
theorem double_ofPoint (P : J.Point) : double J (ofPoint P) = .ok (ofPoint (P + P)) := by
  have hcurve : J.a * (P.x * P.x) + P.y * P.y = 1 + J.d * (P.x * P.x * (P.y * P.y)) := by
    have h : J.a * P.x ^ 2 + P.y ^ 2 = 1 + J.d * P.x ^ 2 * P.y ^ 2 := P.equation
    linear_combination h
  have htwo : 2 - (1 + J.d * (P.x * P.x * (P.y * P.y))) = 1 - J.d * (P.x * P.x * (P.y * P.y)) := by ring
  rw [ofPoint, double]
  simp only [Nat.cast_ofNat, hcurve, htwo, divide_ok (P.one_add_ne_zero P), divide_ok (P.one_sub_ne_zero P), bind,
    Except.bind, pure, Except.pure]
  rw [ofPoint, Edwards.Curve.Point.add_x, Edwards.Curve.Point.add_y, show P.x * P.y + P.y * P.x = 2 * P.x * P.y by ring]

omit [DecidableEq F] in
theorem neg_ofPoint (P : J.Point) : neg (ofPoint P) = ofPoint (-P) := by
  rw [ofPoint, ofPoint, neg, Edwards.Curve.Point.neg_x, Edwards.Curve.Point.neg_y, neg_one_mul]

omit [DecidableEq F] in
theorem ofPoint_zero : ofPoint (0 : J.Point) = point 0 1 := rfl

/-! ## Scalar multiplication -/

theorem and_two_pow (n j : Nat) : n &&& 2 ^ j = 2 ^ j ↔ n / 2 ^ j % 2 = 1 := by
  rw [Nat.and_two_pow, Nat.testBit_eq_decide_div_mod_eq]
  by_cases h : n / 2 ^ j % 2 = 1
  · simp [h]
  · simp [h, (Nat.two_pow_pos j).ne]

/-- **The loop adds the multiple that is left**: the bits from `j` on. -/
theorem mulLoop_eq (n : Nat) (j : Nat) (C R : J.Point) :
    mulLoop J n j (ofPoint C) (ofPoint R) = .ok (ofPoint (R + (n / 2 ^ j) • C)) := by
  induction hk : n + 1 - 2 ^ j using Nat.strong_induction_on generalizing j C R with
  | _ k ih =>
    subst hk
    have hgrow := Nat.pow_lt_pow_right (show 1 < 2 by decide) (Nat.lt_succ_self j)
    rw [mulLoop]
    split
    · rename_i hle
      have hdiv : n / 2 ^ j = 2 * (n / 2 ^ (j + 1)) + n / 2 ^ j % 2 := by
        rw [pow_succ, ← Nat.div_div_eq_div_mul, Nat.div_add_mod]
      have hrest : ∀ R' : J.Point, mulLoop J n (j + 1) (ofPoint (C + C)) (ofPoint R') =
          .ok (ofPoint (R' + (n / 2 ^ (j + 1)) • (C + C))) := fun R' => ih _ (by omega) (j + 1) (C + C) R' rfl
      by_cases hbit : n &&& 2 ^ j = 2 ^ j
      · rw [if_pos hbit, add_ofPoint]
        simp only [bind, Except.bind, double_ofPoint, hrest]
        have hsum : R + C + (n / 2 ^ (j + 1)) • (C + C) = R + (2 * (n / 2 ^ (j + 1)) + 1) • C := by module
        rw [hdiv, (and_two_pow n j).1 hbit, hsum]
      · rw [if_neg hbit]
        simp only [bind, Except.bind, double_ofPoint, hrest]
        have hzero : n / 2 ^ j % 2 = 0 := by
          have := (and_two_pow n j).not.1 hbit
          omega
        have hsum : R + (n / 2 ^ (j + 1)) • (C + C) = R + (2 * (n / 2 ^ (j + 1)) + 0) • C := by module
        rw [hdiv, hzero, hsum]
    · rename_i hlt
      rw [Nat.div_eq_of_lt (by omega), zero_nsmul, add_zero]

/-- **The ladder keeps `current = product + P`**, the product doubling and taking one bit a round. -/
theorem ladder_eq (n : Nat) (P : J.Point) : ∀ (k : Nat) (R : J.Point),
    ladder J n k (ofPoint (R + P)) (ofPoint R) = .ok (ofPoint (2 ^ k • R + (n % 2 ^ k) • P))
  | 0, R     => by rw [ladder, pow_zero, one_nsmul, Nat.mod_one, zero_nsmul, add_zero]
  | k + 1, R => by
    have hmod : n % 2 ^ (k + 1) = n % 2 ^ k + 2 ^ k * (n / 2 ^ k % 2) := by rw [pow_succ, Nat.mod_mul]
    rw [ladder]
    by_cases hbit : n &&& 2 ^ k = 2 ^ k
    · rw [if_pos hbit, add_ofPoint]
      have hcurrent : R + P + (R + P) = R + (R + P) + P := by module
      simp only [bind, Except.bind, double_ofPoint, hcurrent, ladder_eq n P k]
      have hsum : 2 ^ k • (R + (R + P)) + (n % 2 ^ k) • P = 2 ^ (k + 1) • R + (n % 2 ^ k + 2 ^ k * 1) • P := by module
      rw [hmod, (and_two_pow n k).1 hbit, hsum]
    · rw [if_neg hbit, add_ofPoint]
      have hcurrent : R + (R + P) = R + R + P := by module
      have hzero : n / 2 ^ k % 2 = 0 := by
        have := (and_two_pow n k).not.1 hbit
        omega
      simp only [bind, Except.bind, double_ofPoint, hcurrent, ladder_eq n P k]
      have hsum : 2 ^ k • (R + R) + (n % 2 ^ k) • P = 2 ^ (k + 1) • R + (n % 2 ^ k + 2 ^ k * 0) • P := by module
      rw [hmod, hzero, hsum]

/-- The multiple by `n` as it is returned: `SharedIdeal` for zero and for no other integer. -/
def multiple {J : JubjubCurve F} (P : J.Point) (n : Int) : SharedPoint F := if n = 0 then ideal else ofPoint (n • P)

theorem mulNat_ofPoint (P : J.Point) (n : Nat) : mulNat J (ofPoint P) n = .ok (multiple P n) := by
  rw [mulNat, multiple]
  by_cases hn : n = 0
  · rw [if_pos hn, if_pos (by exact_mod_cast hn)]
  · have h := mulLoop_eq J n 0 P 0
    rw [pow_zero, Nat.div_one, zero_add, ofPoint_zero] at h
    rw [if_neg hn, if_neg (by exact_mod_cast hn), h, natCast_zsmul]

/-- **`mul` is scalar multiplication.** -/
theorem mul_ofPoint (P : J.Point) (n : Int) : mul J (ofPoint P) n = .ok (multiple P n) := by
  have hunfold : mul J (ofPoint P) n =
      if n < 0 then mulNat J (neg (ofPoint P)) (-n).toNat else mulNat J (ofPoint P) n.toNat := rfl
  rw [hunfold, neg_ofPoint, mulNat_ofPoint, mulNat_ofPoint]
  split
  · rename_i hneg
    have hcast : ((-n).toNat : Int) = -n := Int.toNat_of_nonneg (by omega)
    rw [hcast, multiple, multiple, neg_smul_neg]
    simp only [neg_eq_zero]
  · rename_i hpos
    rw [Int.toNat_of_nonneg (by omega)]

theorem ladder_ofPoint (P : J.Point) (n : Nat) :
    ladder J n (n.size + 1) (ofPoint P) (point 0 1) = .ok (ofPoint (n • P)) := by
  have h := ladder_eq J n P (n.size + 1) 0
  rw [zero_add, ofPoint_zero, smul_zero, zero_add, Nat.mod_eq_of_lt] at h
  · exact h
  · exact n.lt_size_self.trans_le (Nat.pow_le_pow_right Nat.two_pos (Nat.le_succ _))

/-- **The ladder and the doubling loop return the same.** -/
theorem montgomeryMul_ofPoint (P : J.Point) (n : Int) : montgomeryMul J (ofPoint P) n = .ok (multiple P n) := by
  have hunfold : montgomeryMul J (ofPoint P) n = if n < 0 then mul J (neg (ofPoint P)) (-n) else if n = 0 then .ok ideal
      else ladder J n.toNat (n.toNat.size + 1) (ofPoint P) (point 0 1) := rfl
  rw [hunfold, neg_ofPoint, mul_ofPoint, ladder_ofPoint]
  split
  · rw [multiple, multiple, neg_smul_neg]
    simp only [neg_eq_zero]
  · rename_i hpos
    have hcast : (n.toNat : Int) = n := Int.toNat_of_nonneg (by omega)
    rw [← natCast_zsmul, hcast, multiple]
    split <;> rfl

/-! ## Adding multiples -/

/-- `P.mul(a).add(P.mul(b))`. -/
def mulAdd (J : JubjubCurve F) (P : SharedPoint F) (a b : Int) : Except Exn (SharedPoint F) := do
  let A ← mul J P a
  let B ← mul J P b
  add J A B

/-- The coordinates of a local point, those of the neutral element for `Ideal`. -/
def coords : LocalPoint F → F × F
  | .point x y => (x, y)
  | .ideal     => (0, 1)

/-- What the sum of two multiples is: `SharedIdeal` on the left swallows the other one. -/
theorem mulAdd_eq (P : J.Point) (a b : Int) :
    mulAdd J (ofPoint P) a b = .ok (if a = 0 then ideal else ofPoint ((a + b) • P)) := by
  rw [mulAdd, mul_ofPoint, mul_ofPoint, multiple, multiple]
  simp only [bind, Except.bind]
  by_cases ha : a = 0
  · rw [if_pos ha, if_pos ha]
    rfl
  · rw [if_neg ha, if_neg ha]
    by_cases hb : b = 0
    · rw [if_pos hb, hb, add_zero]
      rfl
    · rw [if_neg hb, add_ofPoint, ← add_smul]

omit [DecidableEq F] in
theorem coords_opened_ofPoint (P : J.Point) : coords (ofPoint P).opened = P.coords := rfl

omit [DecidableEq F] in
theorem coords_opened_multiple (P : J.Point) (n : Int) : coords (multiple P n).opened = (n • P).coords := by
  rw [multiple]
  split
  · rename_i h
    rw [h, zero_smul]
    rfl
  · rfl

omit [DecidableEq F] in
/-- Only the multiple by zero is a `SharedIdeal`. -/
theorem opened_multiple_eq_ideal (P : J.Point) (n : Int) : (multiple P n).opened = .ideal ↔ n = 0 := by
  rw [multiple]
  split
  · rename_i h
    exact iff_of_true rfl h
  · rename_i h
    exact iff_of_false (fun h' => by cases h') h

omit [DecidableEq F] in
theorem opened_multiple_eq_point (P : J.Point) (n : Int) : (ofPoint (n • P)).opened = (multiple P n).opened ↔ n ≠ 0 := by
  rw [multiple]
  split
  · rename_i h
    exact iff_of_false (fun h' => by cases h') (not_not.2 h)
  · rename_i h
    exact iff_of_true rfl h

theorem montgomeryMul_ideal (a : Int) :
    montgomeryMul J ideal a = if a ≤ 0 then .ok ideal else .error .attributeError := by
  rw [montgomeryMul]
  rcases lt_trichotomy a 0 with hneg | hzero | hpos
  · rw [if_pos hneg, if_pos hneg.le]
    rfl
  · rw [if_neg (by omega), if_pos hzero, if_pos hzero.le]
  · rw [if_neg (by omega), if_neg (by omega), if_neg (by omega)]

/-- **When the multiples of a shared point add up.**  The ladder always agrees with `mul`.  As points, the sum of the
multiples is the multiple by the sum unless the first is by zero and the second not neutral; the same form of the
neutral element comes out unless the first alone is by zero or the two cancel.  On a `SharedIdeal` the sum is right and
the ladder raises for a positive integer. -/
theorem mul_add_iff (P : J.Point) (a b : Int) :
    (montgomeryMul J (ofPoint P) a).map opened = (mul J (ofPoint P) a).map opened ∧
      (∃ S T, mulAdd J (ofPoint P) a b = .ok S ∧ mul J (ofPoint P) (a + b) = .ok T ∧
        (coords S.opened = coords T.opened ↔ a ≠ 0 ∨ b • P = 0) ∧
        (S.opened = T.opened ↔ (a = 0 → b = 0) ∧ (a + b = 0 → a = 0))) ∧
      mulAdd J ideal a b = mul J ideal (a + b) ∧
      ((montgomeryMul J ideal a).map opened = (mul J ideal a).map opened ↔ a ≤ 0) := by
  refine ⟨?_, ⟨_, _, mulAdd_eq J P a b, mul_ofPoint J P (a + b), ?_, ?_⟩, rfl, ?_⟩
  · rw [montgomeryMul_ofPoint, mul_ofPoint]
  · rw [coords_opened_multiple]
    by_cases ha : a = 0
    · rw [if_pos ha, ha, zero_add]
      have hcoords : coords (ideal : SharedPoint F).opened = (b • P).coords ↔ b • P = 0 := by
        have hzero : coords (ideal : SharedPoint F).opened = (0 : J.Point).coords := rfl
        rw [hzero, Edwards.Curve.Point.coords_injective.eq_iff, eq_comm]
      rw [hcoords, or_iff_right (not_not.2 rfl)]
    · rw [if_neg ha, coords_opened_ofPoint]
      exact iff_of_true rfl (.inl ha)
  · by_cases ha : a = 0
    · rw [if_pos ha, ha, zero_add, eq_comm]
      have hopened : (ideal : SharedPoint F).opened = .ideal := rfl
      rw [hopened, opened_multiple_eq_ideal]
      exact ⟨fun hb => ⟨fun _ => hb, fun _ => rfl⟩, fun h => h.1 rfl⟩
    · rw [if_neg ha, opened_multiple_eq_point]
      exact ⟨fun hab => ⟨fun h => absurd h ha, fun h => absurd h hab⟩, fun h hab => ha (h.2 hab)⟩
  · rw [montgomeryMul_ideal]
    have hmul : mul J ideal a = .ok ideal := rfl
    rw [hmul]
    split
    · rename_i h
      exact iff_of_true rfl h
    · rename_i h
      exact iff_of_false (fun h' => by cases h') h

end

section

attribute [local instance] Pairing.frModulus_fact

/-- **The multiples of the generator by zero and by one add up to `SharedIdeal`**, not to the generator. -/
theorem mulAdd_counterexample :
    (mulAdd jubjub (ofPoint jubjubGenerator) 0 1).map (fun S => coords S.opened) ≠
      (mul jubjub (ofPoint jubjubGenerator) (0 + 1)).map (fun S => coords S.opened) := by
  rw [mulAdd_eq, mul_ofPoint, if_pos rfl, zero_add]
  intro h
  have hcoords : coords (ideal : SharedPoint Pairing.FrField).opened = coords (multiple jubjubGenerator 1).opened :=
    Except.ok.inj h
  rw [coords_opened_multiple, one_smul] at hcoords
  have hfst : (0 : Pairing.FrField) = 5 := congrArg Prod.fst hcoords
  exact five_ne_zero_fr hfst.symm

end

end SharedPoint

end Jubjub
end Dpid
