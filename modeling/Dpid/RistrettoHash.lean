import Dpid.Ristretto
/-!
# RistrettoHash — points from bytes (`ristretto.rs`)

Any sixty-four bytes give a Ristretto point, by a map that is defined on every field element: where the root or the
denominator is missing, another branch of the map takes its place.
-/
namespace Dpid
namespace Curve25519

open Checked Edwards LittleEndian
open FieldElement51 (Rep zero one mul sub add negate square toBytes fromBytes isNegative sqrtRatioI conditionalNegate
  sqrtM1 SQRT_M1)

/-! ## The functions -/

def MINUS_ONE : FieldElement51 := ⟨2251799813685228, 2251799813685247, 2251799813685247, 2251799813685247, 2251799813685247⟩

/-- `(1 - d²)`. -/
def ONE_MINUS_EDWARDS_D_SQUARED : FieldElement51 :=
  ⟨1136626929484150, 1998550399581263, 496427632559748, 118527312129759, 45110755273534⟩

/-- `(d - 1)²`. -/
def EDWARDS_D_MINUS_ONE_SQUARED : FieldElement51 :=
  ⟨1507062230895904, 1572317787530805, 683053064812840, 317374165784489, 1572899562415810⟩

/-- `sqrt(a * d - 1)`. -/
def SQRT_AD_MINUS_ONE : FieldElement51 := ⟨2241493124984347, 425987919032274, 2207028919301688, 1220490630685848, 974799131293748⟩

namespace RistrettoPoint

def elligatorRistrettoFlavor (r0 : FieldElement51) : Option RistrettoPoint := do
  let r ← mul SQRT_M1 (← square r0)
  let Ns ← mul (← add r one) ONE_MINUS_EDWARDS_D_SQUARED
  let D ← mul (← sub MINUS_ONE (← mul EDWARDS_D r)) (← add r EDWARDS_D)
  let (isSq, s) ← sqrtRatioI Ns D
  let sPrime ← mul s r0
  let sPrimeIsPos := !(← isNegative sPrime)
  let sPrime ← conditionalNegate sPrime sPrimeIsPos
  let s := if !isSq then sPrime else s
  let c := if !isSq then r else MINUS_ONE
  let Nt ← sub (← mul (← mul c (← sub r one)) EDWARDS_D_MINUS_ONE_SQUARED) D
  let sSq ← square s
  let w : CompletedPoint := ⟨← mul (← add s s) D, ← sub one sSq, ← mul Nt SQRT_AD_MINUS_ONE, ← add one sSq⟩
  return ⟨← w.toExtended⟩

def fromUniformBytes (bytes : Vector UInt8 64) : Option RistrettoPoint := do
  let r1Bytes : Bytes32 := Vector.ofFn fun i => bytes.get ⟨i.val, by omega⟩
  let R1 ← elligatorRistrettoFlavor (fromBytes r1Bytes)
  let r2Bytes : Bytes32 := Vector.ofFn fun i => bytes.get ⟨32 + i.val, by omega⟩
  let R2 ← elligatorRistrettoFlavor (fromBytes r2Bytes)
  R1.plus R2

end RistrettoPoint

/-! ## The constants -/

open FieldElement51 (cast_eq_of_add_mul)

theorem MINUS_ONE_rep : Rep (2 ^ 52) (-1) MINUS_ONE := by
  refine ⟨by decide, ?_⟩
  have h : MINUS_ONE.val + 1 = p25519 := by decide
  have hcast : ((MINUS_ONE.val + 1 : Nat) : Fp) = 0 := by rw [h, ZMod.natCast_self]
  rw [Nat.cast_add, Nat.cast_one] at hcast
  exact eq_neg_of_add_eq_zero_left hcast

theorem ONE_MINUS_EDWARDS_D_SQUARED_rep : Rep (2 ^ 52) (1 - edwardsD ^ 2) ONE_MINUS_EDWARDS_D_SQUARED := by
  refine ⟨by decide, ?_⟩
  have h : 1 + p25519 * ((ONE_MINUS_EDWARDS_D_SQUARED.val + EDWARDS_D.val ^ 2) / p25519) =
      ONE_MINUS_EDWARDS_D_SQUARED.val + EDWARDS_D.val ^ 2 := by decide
  have hcast := cast_eq_of_add_mul h
  rw [Nat.cast_add, Nat.cast_pow, Nat.cast_one] at hcast
  exact eq_sub_of_add_eq hcast.symm

theorem EDWARDS_D_MINUS_ONE_SQUARED_rep : Rep (2 ^ 52) ((edwardsD - 1) ^ 2) EDWARDS_D_MINUS_ONE_SQUARED := by
  refine ⟨by decide, ?_⟩
  have h : EDWARDS_D_MINUS_ONE_SQUARED.val + p25519 * ((EDWARDS_D.val - 1) ^ 2 / p25519) = (EDWARDS_D.val - 1) ^ 2 := by decide
  have hcast := cast_eq_of_add_mul h
  rw [Nat.cast_pow, Nat.cast_sub (by decide), Nat.cast_one] at hcast
  exact hcast

def sqrtAdMinusOne : Fp := (SQRT_AD_MINUS_ONE.val : Nat)

theorem SQRT_AD_MINUS_ONE_rep : Rep (2 ^ 52) sqrtAdMinusOne SQRT_AD_MINUS_ONE := ⟨by decide, rfl⟩

theorem sqrtAdMinusOne_sq : sqrtAdMinusOne ^ 2 = -(1 + ed25519.d) := by
  have h : SQRT_AD_MINUS_ONE.val ^ 2 + (1 + EDWARDS_D.val) =
      p25519 * ((SQRT_AD_MINUS_ONE.val ^ 2 + (1 + EDWARDS_D.val)) / p25519) := by decide
  have hcast : ((SQRT_AD_MINUS_ONE.val ^ 2 + (1 + EDWARDS_D.val) : Nat) : Fp) = 0 := by
    rw [h, Nat.cast_mul, ZMod.natCast_self, zero_mul]
  rw [Nat.cast_add, Nat.cast_pow, Nat.cast_add, Nat.cast_one] at hcast
  exact eq_neg_of_add_eq_zero_left hcast

theorem one_add_edwardsD_ne_zero : 1 + edwardsD ≠ 0 := by
  intro h0
  have h := invsqrtAMinusD_sq
  rw [h0, neg_zero, mul_zero] at h
  exact zero_ne_one h

theorem one_sub_edwardsD_ne_zero : 1 - edwardsD ≠ 0 := by
  intro h0
  refine not_isSquare_edwardsD ⟨1, ?_⟩
  linear_combination -h0

theorem edwardsD_ne_zero : edwardsD ≠ 0 := by
  intro h0
  refine not_isSquare_edwardsD ⟨0, ?_⟩
  rw [h0, mul_zero]

theorem sqrtAdMinusOne_ne_zero : sqrtAdMinusOne ≠ 0 := by
  intro h0
  have h := sqrtAdMinusOne_sq
  rw [h0, zero_pow two_ne_zero] at h
  exact one_add_edwardsD_ne_zero (neg_eq_zero.1 h.symm)

/-! ## Points from bytes -/

namespace RistrettoPoint

open EdwardsPoint (rep64)
open FieldElement51 (mul_returns sub_returns square_returns negate_returns isNegative_returns toBytes_returns
  conditionalNegate_returns sqrtRatioI_returns fromBytes_rep)

/-- Where the map's denominator is zero, the numerator is not, and the point is the identity. -/
theorem elligator_zero {r : Fp} (hD : (-1 - edwardsD * r) * (r + edwardsD) = 0) :
    (r + 1) * (1 - edwardsD ^ 2) ≠ 0 ∧ r * (r - 1) * (edwardsD - 1) ^ 2 ≠ 0 := by
  have hd0 := edwardsD_ne_zero
  have hd1 := one_add_edwardsD_ne_zero
  have hd2 := one_sub_edwardsD_ne_zero
  refine ⟨mul_ne_zero (fun h => ?_) ?_, mul_ne_zero (mul_ne_zero (fun h => ?_) (fun h => ?_)) (pow_ne_zero 2 (fun h => ?_))⟩
  · refine mul_ne_zero hd2 hd2 ?_
    linear_combination hD + (1 - edwardsD * (1 - r) + edwardsD ^ 2) * h
  · have hfactor : 1 - edwardsD ^ 2 = (1 - edwardsD) * (1 + edwardsD) := by ring
    rw [hfactor]
    exact mul_ne_zero hd2 hd1
  · exact hd0 (by linear_combination -hD - (1 + edwardsD * r + edwardsD ^ 2) * h)
  · refine mul_ne_zero hd1 hd1 ?_
    linear_combination -hD - (1 + edwardsD * (1 + r) + edwardsD ^ 2) * h
  · exact hd2 (by linear_combination -h)

/-- The quotients of the map are an even point. -/
theorem elligator_point {r c s D n : Fp} (hD : D = (-1 - edwardsD * r) * (r + edwardsD))
    (hn : n = c * (r - 1) * (edwardsD - 1) ^ 2 - D)
    (hcase : D ≠ 0 → c = -1 ∧ s ^ 2 * D = (r + 1) * (1 - edwardsD ^ 2) ∨
      c = r ∧ s ^ 2 * D = r * ((r + 1) * (1 - edwardsD ^ 2)))
    (hzero : D = 0 → s = 0 ∧ c = r) :
    ∃ P : ed25519.Point, Completed ed25519 P ((s + s) * D) (1 - s ^ 2) (n * sqrtAdMinusOne) (1 + s ^ 2) ∧ IsEven P := by
  have hd : ed25519.d = edwardsD := rfl
  by_cases hD0 : D = 0
  · obtain ⟨rfl, rfl⟩ := hzero hD0
    have hn0 : n ≠ 0 := by
      rw [hn, hD0, sub_zero]
      exact (elligator_zero (hD ▸ hD0)).2
    refine ⟨0, ⟨mul_ne_zero hn0 sqrtAdMinusOne_ne_zero, ?_, ?_, ?_⟩, isEven_zero⟩
    · rw [zero_pow two_ne_zero, add_zero]
      exact one_ne_zero
    · exact (by rw [hD0, mul_zero, zero_mul] : (0 + 0) * D = 0 * (n * sqrtAdMinusOne))
    · exact (by ring : 1 - (0 : Fp) ^ 2 = 1 * (1 + 0 ^ 2))
  · have hnorm := elligator_norm (N := s ^ 2 * D) hD hn (hcase hD0)
    rw [← hd] at hnorm
    exact elligator_completed ed25519_a two_ne_zero_fp sqrtAdMinusOne_sq sqrtAdMinusOne_ne_zero FieldElement51.sqrtM1_sq
      not_isSquare_edwardsD hnorm rfl hD0

/-- The roots of the two cases. -/
theorem elligator_roots {e r N D s f : Fp} {isSq : Bool} (hroot : RootRatio.IsRoot sqrtM1 N D isSq s) (hr : sqrtM1 * e ^ 2 = r)
    (hf : f ^ 2 = (s * e) ^ 2) (hN : D = 0 → N ≠ 0) :
    (isSq = true → D ≠ 0 ∧ s ^ 2 * D = N) ∧ (isSq = false → (D = 0 → f = 0) ∧ (D ≠ 0 → f ^ 2 * D = r * N)) := by
  have hD : isSq = true → D ≠ 0 := by
    intro htrue h0
    rcases hroot.square_iff.1 htrue with h | h
    · exact hN h0 h
    · exact h.1 h0
  refine ⟨fun htrue => ⟨hD htrue, ?_⟩, fun hfalse => ⟨fun h0 => ?_, fun h0 => ?_⟩⟩
  · have hval := hroot.value (hD htrue)
    rw [if_pos htrue] at hval
    rw [mul_comm, hval]
  · rw [hroot.zero (Or.inr h0), zero_mul, zero_pow two_ne_zero] at hf
    exact (pow_eq_zero_iff two_ne_zero).1 hf
  · have hval := hroot.value h0
    rw [hfalse, if_neg Bool.false_ne_true] at hval
    rw [hf, ← hr]
    linear_combination e ^ 2 * hval

/-- **The map from the field misses no element.** -/
theorem elligatorRistrettoFlavor_returns {e : Fp} {r0 : FieldElement51} (h : Rep (2 ^ 52) e r0) :
    Returns (elligatorRistrettoFlavor r0) (fun p => ∃ P, p.Of P) := by
  refine (square_returns (rep54 h)).bind (fun r0s hr0s => ?_)
  refine (mul_returns (rep54 FieldElement51.SQRT_M1_rep) (rep54 hr0s)).bind (fun r hr => ?_)
  refine (sum_returns hr one_of).bind (fun r1 hr1 => ?_)
  refine (mul_returns (rep54' hr1) (rep54 ONE_MINUS_EDWARDS_D_SQUARED_rep)).bind (fun Ns hNs => ?_)
  refine (mul_returns (rep54 EDWARDS_D_rep) (rep54 hr)).bind (fun dr hdr => ?_)
  refine (sub_returns (rep54 MINUS_ONE_rep) (rep54 hdr)).bind (fun cdr hcdr => ?_)
  refine (sum_returns hr EDWARDS_D_rep).bind (fun rd hrd => ?_)
  refine (mul_returns (rep54 hcdr) (rep54' hrd)).bind (fun D hD => ?_)
  refine (sqrtRatioI_returns (rep54 hNs) (rep54 hD)).bind (fun z hz => ?_)
  obtain ⟨isSq, s⟩ := z
  obtain ⟨es, hs, -, hroot⟩ := hz
  dsimp only at hs hroot
  refine (mul_returns (rep54 hs) (rep54 h)).bind (fun sp hsp => ?_)
  refine (isNegative_returns (rep64 hsp)).bind (fun spneg hspneg => ?_)
  refine (conditionalNegate_returns hsp (!spneg)).bind (fun sp' hsp' => ?_)
  have hprime : ∃ f, Rep (2 ^ 52) f sp' ∧ f ^ 2 = (es * e) ^ 2 := by
    cases spneg with
    | false => exact ⟨_, hsp'.1 rfl, neg_sq _⟩
    | true  => exact ⟨_, hsp'.2 rfl, rfl⟩
  obtain ⟨f, hf, hfsq⟩ := hprime
  generalize her : sqrtM1 * e ^ 2 = er at *
  generalize heD : (-1 - edwardsD * er) * (er + edwardsD) = eD at *
  -- the root and the constant that the two cases choose
  have hchoice : ∃ ec et, Rep (2 ^ 52) ec (if !isSq then r else MINUS_ONE) ∧ Rep (2 ^ 52) et (if !isSq then sp' else s) ∧
      (eD ≠ 0 → ec = -1 ∧ et ^ 2 * eD = (er + 1) * (1 - edwardsD ^ 2) ∨
        ec = er ∧ et ^ 2 * eD = er * ((er + 1) * (1 - edwardsD ^ 2))) ∧ (eD = 0 → et = 0 ∧ ec = er) := by
    obtain ⟨htrue, hfalse⟩ := elligator_roots hroot her hfsq (fun h0 => (elligator_zero (heD.trans h0)).1)
    cases isSq with
    | false =>
      obtain ⟨h0, hne⟩ := hfalse rfl
      exact ⟨er, f, hr, hf, fun hD => Or.inr ⟨rfl, hne hD⟩, fun hD => ⟨h0 hD, rfl⟩⟩
    | true  =>
      obtain ⟨hne, hval⟩ := htrue rfl
      exact ⟨-1, es, MINUS_ONE_rep, hs, fun _ => Or.inl ⟨rfl, hval⟩, fun h0 => absurd h0 hne⟩
  obtain ⟨ec, et, hc, ht, hcase, hzero⟩ := hchoice
  obtain ⟨P, hP, heven⟩ := elligator_point heD.symm rfl hcase hzero
  refine (sub_returns (rep54 hr) (rep54 one_of)).bind (fun rm hrm => ?_)
  refine (mul_returns (rep54 hc) (rep54 hrm)).bind (fun crm hcrm => ?_)
  refine (mul_returns (rep54 hcrm) (rep54 EDWARDS_D_MINUS_ONE_SQUARED_rep)).bind (fun cdm hcdm => ?_)
  refine (sub_returns (rep54 hcdm) (rep54 hD)).bind (fun Nt hNt => ?_)
  refine (square_returns (rep54 ht)).bind (fun ssq hssq => ?_)
  refine (sum_returns ht ht).bind (fun s2 hs2 => ?_)
  refine (mul_returns (rep54' hs2) (rep54 hD)).bind (fun X hX => ?_)
  refine (sub_returns (rep54 one_of) (rep54 hssq)).bind (fun Y hY => ?_)
  refine (mul_returns (rep54 hNt) (rep54 SQRT_AD_MINUS_ONE_rep)).bind (fun Z hZ => ?_)
  refine (sum_returns one_of hssq).bind (fun T hT => ?_)
  have hw : CompletedPoint.Of P ⟨X, Y, Z, T⟩ := ⟨_, _, _, _, hP, rep54 hX, rep54 hY, rep54 hZ, rep54' hT⟩
  exact (CompletedPoint.toExtended_returns hw).bind (fun p hp => Returns.ret ⟨P, hp, heven⟩)

/-- **Sixty-four bytes give a point**, whatever they are. -/
theorem fromUniformBytes_returns (bytes : Vector UInt8 64) : Returns (fromUniformBytes bytes) (fun p => ∃ P, p.Of P) := by
  refine (elligatorRistrettoFlavor_returns ((fromBytes_rep _).mono (by decide))).bind (fun R1 h1 => ?_)
  refine (elligatorRistrettoFlavor_returns ((fromBytes_rep _).mono (by decide))).bind (fun R2 h2 => ?_)
  obtain ⟨P, hP⟩ := h1
  obtain ⟨Q, hQ⟩ := h2
  exact (plus_returns hP hQ).mono (fun _ h => ⟨P + Q, h⟩)

end RistrettoPoint

end Curve25519
end Dpid
