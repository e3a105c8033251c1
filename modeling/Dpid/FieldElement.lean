import Dpid.BatchInversion
import Dpid.Field51Bytes
import Dpid.RootRatio
/-!
# FieldElement — inverses and square roots (`field.rs`)

The inverse is the power `p25519 - 2`, by a chain of products and repeated squarings, and `sqrt_ratio_i` merges an
inversion, a square root and the test for a square into one power.  Both are total: the inverse of zero is zero.
-/
namespace Dpid
namespace Curve25519

open Checked BatchInversion

namespace FieldElement51

/-! ## The functions -/

/-- `(self ^ (2 ^ 250 - 1), self ^ 11)`. -/
def pow22501 (x : FieldElement51) : Option (FieldElement51 × FieldElement51) := do
  let t0 ← square x
  let t1 ← square (← square t0)
  let t2 ← mul x t1
  let t3 ← mul t0 t2
  let t4 ← square t3
  let t5 ← mul t2 t4
  let t6 ← pow2k t5 5
  let t7 ← mul t6 t5
  let t8 ← pow2k t7 10
  let t9 ← mul t8 t7
  let t10 ← pow2k t9 20
  let t11 ← mul t10 t9
  let t12 ← pow2k t11 10
  let t13 ← mul t12 t7
  let t14 ← pow2k t13 50
  let t15 ← mul t14 t13
  let t16 ← pow2k t15 100
  let t17 ← mul t16 t15
  let t18 ← pow2k t17 50
  let t19 ← mul t18 t13
  return (t19, t3)

def invert (x : FieldElement51) : Option FieldElement51 := do
  let (t19, t3) ← pow22501 x
  let t20 ← pow2k t19 5
  mul t20 t3

def powP58 (x : FieldElement51) : Option FieldElement51 := do
  let (t19, _) ← pow22501 x
  let t20 ← pow2k t19 2
  mul x t20

/-- The loop that records the products so far. -/
def prefixProducts : FieldElement51 → List FieldElement51 → Option (List FieldElement51 × FieldElement51)
  | acc, []              => some ([], acc)
  | acc, input :: inputs => do
    let acc' ← mul acc input
    let (scratch, last) ← prefixProducts acc' inputs
    return (acc :: scratch, last)

/-- The loop backwards over the inputs and the products before them: the inverses, the last first. -/
def invertBackwards : FieldElement51 → List (FieldElement51 × FieldElement51) → Option (List FieldElement51)
  | _, []                          => some []
  | acc, (input, scratch) :: pairs => do
    let tmp ← mul acc input
    let inverse ← mul acc scratch
    let rest ← invertBackwards tmp pairs
    return inverse :: rest

def batchInvert (inputs : List FieldElement51) : Option (List FieldElement51) := do
  let (scratch, acc) ← prefixProducts one inputs
  let zero ← isZero acc
  guard (zero = false)
  let acc ← invert acc
  let inverses ← invertBackwards acc (inputs.zip scratch).reverse
  return inverses.reverse

/-- One of the square roots of `-1`. -/
def SQRT_M1 : FieldElement51 := ⟨1718705420411056, 234908883556509, 2233514472574048, 2117202627021982, 765476049583133⟩

/-- `conditional_negate`. -/
def conditionalNegate (x : FieldElement51) (choice : Bool) : Option FieldElement51 := do
  let neg ← negate x
  return if choice then neg else x

def sqrtRatioI (u v : FieldElement51) : Option (Bool × FieldElement51) := do
  let v3 ← mul (← square v) v
  let v7 ← mul (← square v3) v
  let r ← mul (← mul u v3) (← powP58 (← mul u v7))
  let check ← mul v (← square r)
  let correctSignSqrt ← ctEq check u
  let flippedSignSqrt ← ctEq check (← negate u)
  let flippedSignSqrtI ← ctEq check (← mul (← negate u) SQRT_M1)
  let rPrime ← mul SQRT_M1 r
  let r := if flippedSignSqrt || flippedSignSqrtI then rPrime else r
  let rIsNegative ← isNegative r
  let r ← conditionalNegate r rIsNegative
  return (correctSignSqrt || flippedSignSqrt, r)

def invsqrt (x : FieldElement51) : Option (Bool × FieldElement51) := sqrtRatioI one x

/-! ## Powers -/

variable {e f : Fp} {x y : FieldElement51}

theorem mul_pow_returns {i j : Nat} (hx : Rep (2 ^ 54) (e ^ i) x) (hy : Rep (2 ^ 54) (e ^ j) y) :
    Returns (mul x y) (Rep (2 ^ 54) (e ^ (i + j))) := by
  rw [pow_add]
  exact (mul_returns hx hy).mono (fun _ hz => hz.mono (by decide))

theorem pow2k_pow_returns {i k : Nat} (hk : 0 < k) (hx : Rep (2 ^ 54) (e ^ i) x) :
    Returns (pow2k x k) (Rep (2 ^ 54) (e ^ (i * 2 ^ k))) := by
  rw [pow_mul]
  exact (pow2k_returns hk hx).mono (fun _ hz => hz.mono (by decide))

theorem square_pow_returns {i : Nat} (hx : Rep (2 ^ 54) (e ^ i) x) : Returns (square x) (Rep (2 ^ 54) (e ^ (i * 2 ^ 1))) :=
  pow2k_pow_returns Nat.one_pos hx

/-- **The chain**: every squaring doubles the exponent, and every product adds two. -/
theorem pow22501_returns (hx : Rep (2 ^ 54) e x) :
    Returns (pow22501 x) (fun t => Rep (2 ^ 54) (e ^ (2 ^ 250 - 1)) t.1 ∧ Rep (2 ^ 54) (e ^ 11) t.2) := by
  have h1 : Rep (2 ^ 54) (e ^ 1) x := by rwa [pow_one]
  refine (square_pow_returns h1).bind (fun t0 h0 => ?_)
  refine (square_pow_returns h0).bind (fun t h => ?_)
  refine (square_pow_returns h).bind (fun t1 h1' => ?_)
  refine (mul_pow_returns h1 h1').bind (fun t2 h2 => ?_)
  refine (mul_pow_returns h0 h2).bind (fun t3 h3 => ?_)
  refine (square_pow_returns h3).bind (fun t4 h4 => ?_)
  refine (mul_pow_returns h2 h4).bind (fun t5 h5 => ?_)
  refine (pow2k_pow_returns (by decide) h5).bind (fun t6 h6 => ?_)
  refine (mul_pow_returns h6 h5).bind (fun t7 h7 => ?_)
  refine (pow2k_pow_returns (by decide) h7).bind (fun t8 h8 => ?_)
  refine (mul_pow_returns h8 h7).bind (fun t9 h9 => ?_)
  refine (pow2k_pow_returns (by decide) h9).bind (fun t10 h10 => ?_)
  refine (mul_pow_returns h10 h9).bind (fun t11 h11 => ?_)
  refine (pow2k_pow_returns (by decide) h11).bind (fun t12 h12 => ?_)
  refine (mul_pow_returns h12 h7).bind (fun t13 h13 => ?_)
  refine (pow2k_pow_returns (by decide) h13).bind (fun t14 h14 => ?_)
  refine (mul_pow_returns h14 h13).bind (fun t15 h15 => ?_)
  refine (pow2k_pow_returns (by decide) h15).bind (fun t16 h16 => ?_)
  refine (mul_pow_returns h16 h15).bind (fun t17 h17 => ?_)
  refine (pow2k_pow_returns (by decide) h17).bind (fun t18 h18 => ?_)
  refine (mul_pow_returns h18 h13).bind (fun t19 h19 => ?_)
  exact Returns.ret ⟨h19, h3⟩

theorem inv_eq_pow (e : Fp) : e ^ (p25519 - 2) = e⁻¹ := by
  by_cases h : e = 0
  · rw [h, inv_zero]
    exact zero_pow (by decide)
  · have hone : e ^ (p25519 - 2) * e = 1 := by
      rw [← pow_succ]
      exact ZMod.pow_card_sub_one_eq_one h
    exact eq_inv_of_mul_eq_one_left hone

/-- **The inverse**, zero for zero. -/
theorem invert_returns (hx : Rep (2 ^ 54) e x) : Returns (invert x) (Rep (2 ^ 54) e⁻¹) := by
  rw [← inv_eq_pow]
  refine (pow22501_returns hx).bind (fun t h => ?_)
  refine (pow2k_pow_returns (by decide) h.1).bind (fun t20 h20 => ?_)
  have hexp : (2 ^ 250 - 1) * 2 ^ 5 + 11 = p25519 - 2 := by decide
  rw [← hexp]
  exact mul_pow_returns h20 h.2

theorem powP58_returns (hx : Rep (2 ^ 54) e x) : Returns (powP58 x) (Rep (2 ^ 54) (e ^ ((p25519 - 5) / 8))) := by
  have h1 : Rep (2 ^ 54) (e ^ 1) x := by rwa [pow_one]
  refine (pow22501_returns hx).bind (fun t h => ?_)
  refine (pow2k_pow_returns (by decide) h.1).bind (fun t20 h20 => ?_)
  have hexp : 1 + (2 ^ 250 - 1) * 2 ^ 2 = (p25519 - 5) / 8 := by decide
  rw [← hexp]
  exact mul_pow_returns h1 h20

/-! ## Square roots -/

/-- The element that `SQRT_M1` stands for. -/
def sqrtM1 : Fp := (SQRT_M1.val : Nat)

theorem SQRT_M1_rep : Rep (2 ^ 52) sqrtM1 SQRT_M1 := ⟨by decide, rfl⟩

theorem sqrtM1_sq : sqrtM1 ^ 2 = -1 := by
  have h : SQRT_M1.val ^ 2 + 1 = p25519 * ((SQRT_M1.val ^ 2 + 1) / p25519) := by decide
  have hcast : ((SQRT_M1.val ^ 2 + 1 : Nat) : Fp) = 0 := by
    rw [h, Nat.cast_mul, ZMod.natCast_self, zero_mul]
  rw [sqrtM1, ← add_eq_zero_iff_eq_neg]
  exact_mod_cast hcast

theorem conditionalNegate_rep {B : Nat} (h52 : 2 ^ 52 ≤ B) (h54 : B ≤ 2 ^ 54) (hx : Rep B e x) (choice : Bool) :
    Returns (conditionalNegate x choice) (Rep B (if choice then -e else e)) := by
  refine (negate_returns (hx.mono h54)).bind (fun z hz => Returns.ret ?_)
  cases choice with
  | false => exact hx
  | true  => exact hz.mono h52

theorem conditionalNegate_returns (hx : Rep (2 ^ 52) e x) (choice : Bool) :
    Returns (conditionalNegate x choice)
      (fun z => (choice = true → Rep (2 ^ 52) (-e) z) ∧ (choice = false → Rep (2 ^ 52) e z)) := by
  refine (conditionalNegate_rep (Nat.le_refl _) (by decide) hx choice).mono (fun z hz => ⟨?_, ?_⟩)
  · rintro rfl
    exact hz
  · rintro rfl
    exact hz

/-- The number below the modulus is even. -/
def NonNegative (e : Fp) : Prop := e.val % 2 = 0

/-- The negative of a negative element is not negative. -/
theorem nonNegative_neg {e : Fp} (h : e.val % 2 = 1) : NonNegative (-e) := by
  have h0 : e ≠ 0 := by
    rintro rfl
    simp at h
  have hlt := ZMod.val_lt e
  have hp : p25519 % 2 = 1 := by decide
  rw [NonNegative, ZMod.neg_val, if_neg h0]
  omega

/-- **The merged inversion and square root.**  The root has no sign, and the flag tells whose root it is. -/
theorem sqrtRatioI_returns {u v : FieldElement51} (hu : Rep (2 ^ 54) e u) (hv : Rep (2 ^ 54) f v) :
    Returns (sqrtRatioI u v) (fun z => ∃ r, Rep (2 ^ 52) r z.2 ∧ NonNegative r ∧ RootRatio.IsRoot sqrtM1 e f z.1 r) := by
  have h52 : ∀ {g : Fp} {z : FieldElement51}, Rep (2 ^ 52) g z → Rep (2 ^ 54) g z := fun h => h.mono (by decide)
  have h64 : ∀ {g : Fp} {z : FieldElement51}, Rep (2 ^ 54) g z → Rep (2 ^ 64) g z := fun h => h.mono (by decide)
  have hi := h52 SQRT_M1_rep
  refine (square_returns hv).bind (fun v2 h2 => ?_)
  refine (mul_returns (h52 h2) hv).bind (fun v3 h3 => ?_)
  refine (square_returns (h52 h3)).bind (fun v6 h6 => ?_)
  refine (mul_returns (h52 h6) hv).bind (fun v7 h7 => ?_)
  refine (mul_returns hu (h52 h3)).bind (fun uv3 huv3 => ?_)
  refine (mul_returns hu (h52 h7)).bind (fun uv7 huv7 => ?_)
  refine (powP58_returns (h52 huv7)).bind (fun w hw => ?_)
  refine (mul_returns (h52 huv3) hw).bind (fun r hr => ?_)
  have hcand : e * (f ^ 2 * f) * (e * ((f ^ 2 * f) ^ 2 * f)) ^ ((p25519 - 5) / 8) = RootRatio.candidate e f := by
    rw [RootRatio.candidate, ZMod.card]
    ring_nf
  rw [hcand] at hr
  refine (square_returns (h52 hr)).bind (fun r2 hr2 => ?_)
  refine (mul_returns hv (h52 hr2)).bind (fun check hcheck => ?_)
  refine (ctEq_returns (h64 (h52 hcheck)) (h64 hu)).bind (fun c1 hc1 => ?_)
  refine (negate_returns hu).bind (fun nu hnu => ?_)
  refine (ctEq_returns (h64 (h52 hcheck)) (h64 (h52 hnu))).bind (fun c2 hc2 => ?_)
  refine (negate_returns hu).bind (fun nu' hnu' => ?_)
  refine (mul_returns (h52 hnu') hi).bind (fun nui hnui => ?_)
  refine (ctEq_returns (h64 (h52 hcheck)) (h64 (h52 hnui))).bind (fun c3 hc3 => ?_)
  refine (mul_returns hi (h52 hr)).bind (fun r' hr' => ?_)
  have hroot := RootRatio.isRoot_repair (F := Fp) (by rw [ZMod.card]; decide) sqrtM1_sq e f
  have hrep : Rep (2 ^ 52) (RootRatio.repair sqrtM1 e (f * RootRatio.candidate e f ^ 2) (RootRatio.candidate e f))
      (if (c2 || c3) = true then r' else r) := by
    have hiff : (c2 || c3) = true ↔ f * RootRatio.candidate e f ^ 2 = -e ∨ f * RootRatio.candidate e f ^ 2 = -e * sqrtM1 := by
      rw [hc2, hc3, Bool.or_eq_true, decide_eq_true_eq, decide_eq_true_eq]
    unfold RootRatio.repair
    by_cases hflip : (c2 || c3) = true
    · rw [if_pos hflip, if_pos (hiff.1 hflip)]
      exact hr'
    · rw [if_neg hflip, if_neg (fun h => hflip (hiff.2 h))]
      exact hr
  have hflag : RootRatio.isSquareFlag e (f * RootRatio.candidate e f ^ 2) = (c1 || c2) := by rw [hc1, hc2]; rfl
  rw [hflag] at hroot
  generalize RootRatio.repair sqrtM1 e _ _ = s at hrep hroot
  refine (isNegative_returns (h64 (h52 hrep))).bind (fun neg hneg => ?_)
  refine (conditionalNegate_returns hrep neg).bind (fun z hz => Returns.ret ?_)
  cases neg with
  | false =>
    have hsign : ¬ s.val % 2 = 1 := of_decide_eq_false hneg.symm
    exact ⟨s, hz.2 rfl, Nat.mod_two_ne_one.1 hsign, hroot⟩
  | true  =>
    have hsign : s.val % 2 = 1 := of_decide_eq_true hneg.symm
    exact ⟨-s, hz.1 rfl, nonNegative_neg hsign, hroot.neg⟩

/-! ## Batches -/

theorem prefixProducts_returns : ∀ {inputs : List FieldElement51} {es : List Fp} {acc : FieldElement51} {a : Fp},
    List.Forall₂ (Rep (2 ^ 54)) es inputs → Rep (2 ^ 54) a acc →
      Returns (prefixProducts acc inputs)
        (fun z => List.Forall₂ (Rep (2 ^ 54)) (products a es) z.1 ∧ Rep (2 ^ 54) (a * es.prod) z.2)
  | [], [], acc, a, _, ha                        => by
    rw [List.prod_nil, mul_one]
    exact Returns.ret ⟨List.Forall₂.nil, ha⟩
  | _ :: _, e :: es, acc, a, List.Forall₂.cons hx hxs, ha => by
    refine (mul_returns ha hx).bind (fun acc' ha' => ?_)
    refine (prefixProducts_returns hxs (ha'.mono (by decide))).bind (fun z hz => Returns.ret ⟨?_, ?_⟩)
    · exact List.Forall₂.cons ha hz.1
    · rw [List.prod_cons, ← mul_assoc]
      exact hz.2

/-- An element and a product stand for a pair. -/
def RepPair (p : Fp × Fp) (q : FieldElement51 × FieldElement51) : Prop := Rep (2 ^ 54) p.1 q.1 ∧ Rep (2 ^ 54) p.2 q.2

theorem forall₂_zip : ∀ {es ss : List Fp} {xs ys : List FieldElement51}, List.Forall₂ (Rep (2 ^ 54)) es xs →
    List.Forall₂ (Rep (2 ^ 54)) ss ys → List.Forall₂ RepPair (es.zip ss) (xs.zip ys)
  | [], _, [], _, _, _                                                          => List.Forall₂.nil
  | _ :: _, [], _ :: _, [], _, _                                                => List.Forall₂.nil
  | _ :: _, _ :: _, _ :: _, _ :: _, List.Forall₂.cons h hs, List.Forall₂.cons k ks =>
    List.Forall₂.cons ⟨h, k⟩ (forall₂_zip hs ks)

theorem invertBackwards_returns : ∀ {ps : List (Fp × Fp)} {pairs : List (FieldElement51 × FieldElement51)} {c : Fp}
    {acc : FieldElement51}, List.Forall₂ RepPair ps pairs → Downward c ps → Rep (2 ^ 54) c⁻¹ acc →
      Returns (invertBackwards acc pairs) (List.Forall₂ (Rep (2 ^ 54)) (ps.map (fun p => p.1⁻¹)))
  | [], [], _, _, _, _, _                                                     => Returns.ret List.Forall₂.nil
  | (e, s) :: ps, (_, _) :: _, c, _, List.Forall₂.cons hp hps, hdown, hacc => by
    refine (mul_returns hacc hp.1).bind (fun tmp ht => ?_)
    refine (mul_returns hacc hp.2).bind (fun inverse hi => ?_)
    rw [hdown.inv_mul_element] at ht
    rw [hdown.inv_mul_product] at hi
    refine (invertBackwards_returns hps hdown.2.2.2 (ht.mono (by decide))).bind (fun rest hrest => Returns.ret ?_)
    exact List.Forall₂.cons (hi.mono (by decide)) hrest

/-- **A batch is inverted element by element**, with one inversion. -/
theorem batchInvert_returns {inputs : List FieldElement51} {es : List Fp} (hx : List.Forall₂ (Rep (2 ^ 54)) es inputs)
    (hes : ∀ e ∈ es, e ≠ 0) : Returns (batchInvert inputs) (List.Forall₂ (Rep (2 ^ 54)) (es.map (·⁻¹))) := by
  refine (prefixProducts_returns hx (one_rep.mono (by decide))).bind (fun z hz => ?_)
  obtain ⟨scratch, acc⟩ := z
  obtain ⟨hscratch, hacc⟩ := hz
  rw [one_mul] at hacc
  have hprod : es.prod ≠ 0 := List.prod_ne_zero (fun h => hes 0 h rfl)
  refine (isZero_returns (hacc.mono (by decide))).bind (fun zero hzero => ?_)
  refine guard_bind (by rw [hzero, decide_eq_false hprod]) ?_
  refine (invert_returns hacc).bind (fun inv hinv => ?_)
  have hpairs : List.Forall₂ RepPair (es.zip (products 1 es)).reverse (inputs.zip scratch).reverse :=
    List.forall₂_reverse_iff.2 (forall₂_zip hx hscratch)
  have hdown : Downward es.prod ((es.zip (products 1 es)).reverse ++ []) :=
    downward_products one_ne_zero hes (one_mul es.prod).symm trivial
  rw [List.append_nil] at hdown
  refine (invertBackwards_returns hpairs hdown hinv).bind (fun inverses h => Returns.ret ?_)
  rw [map_inv_zip_products]
  exact List.forall₂_reverse_iff.2 h

/-- One zero is enough for the assertion to fail. -/
theorem batchInvert_none {inputs : List FieldElement51} {es : List Fp} (hx : List.Forall₂ (Rep (2 ^ 54)) es inputs)
    (h0 : (0 : Fp) ∈ es) : batchInvert inputs = none := by
  obtain ⟨⟨scratch, acc⟩, heq, -, hacc⟩ := prefixProducts_returns hx (one_rep.mono (by decide))
  rw [List.prod_eq_zero h0, mul_zero] at hacc
  obtain ⟨zero, hzero, htrue⟩ := isZero_returns (hacc.mono (by decide))
  rw [decide_eq_true rfl] at htrue
  subst htrue
  rw [batchInvert, heq]
  dsimp only [Option.bind_eq_bind, Option.bind_some]
  rw [hzero]
  rfl

end FieldElement51
end Curve25519
end Dpid
