import Dpid.Ristretto
/-!
# RistrettoBatch — encodings in batches (`ristretto.rs`)

`double_and_compress_batch` gives the encodings of the doubles of many points with one inversion and no root.  The batch is
inverted as one product, so one point of the identity's coset is enough for it to fail.
-/
namespace Dpid
namespace Curve25519

open Checked Edwards LittleEndian
open FieldElement51 (Rep one mul sub add negate square toBytes isNegative batchInvert conditionalNegate sqrtM1 SQRT_M1)

/-! ## The functions -/

namespace RistrettoPoint

/-- `BatchCompressState`. -/
structure BatchCompressState where
  e : FieldElement51
  f : FieldElement51
  g : FieldElement51
  h : FieldElement51
  eg : FieldElement51
  fh : FieldElement51

/-- `BatchCompressState::from`. -/
def BatchCompressState.ofPoint (P : RistrettoPoint) : Option BatchCompressState := do
  let XX ← square P.edwards.X
  let YY ← square P.edwards.Y
  let ZZ ← square P.edwards.Z
  let dTT ← mul (← square P.edwards.T) EDWARDS_D
  let e ← mul P.edwards.X (← add P.edwards.Y P.edwards.Y)
  let f ← add ZZ dTT
  let g ← add YY XX
  let h ← sub ZZ dTT
  return ⟨e, f, g, h, ← mul e g, ← mul f h⟩

def BatchCompressState.efgh (s : BatchCompressState) : Option FieldElement51 := mul s.eg s.fh

/-- The encoding of the double, from the inverse of `efgh`. -/
def BatchCompressState.finish (state : BatchCompressState) (inv : FieldElement51) : Option CompressedRistretto := do
  let Zinv ← mul state.eg inv
  let Tinv ← mul state.fh inv
  let negcheck1 ← isNegative (← mul state.eg Zinv)
  let minusE ← negate state.e
  let fTimesSqrta ← mul state.f SQRT_M1
  let e := if negcheck1 then state.g else state.e
  let g := if negcheck1 then minusE else state.g
  let h := if negcheck1 then fTimesSqrta else state.h
  let magic := if negcheck1 then SQRT_M1 else INVSQRT_A_MINUS_D
  let negcheck2 ← isNegative (← mul (← mul h e) Zinv)
  let g ← conditionalNegate g negcheck2
  let s ← mul (← sub h g) (← mul magic (← mul g Tinv))
  let s ← conditionalNegate s (← isNegative s)
  toBytes s

def doubleAndCompressBatch (points : List RistrettoPoint) : Option (List CompressedRistretto) := do
  let states ← points.mapM BatchCompressState.ofPoint
  let invs ← states.mapM BatchCompressState.efgh
  let invs ← batchInvert invs
  (states.zip invs).mapM (fun si => si.1.finish si.2)

/-! ## What a state stands for -/

open EdwardsPoint (rep64)
open FieldElement51 (mul_returns sub_returns square_returns negate_returns isNegative_returns toBytes_returns
  conditionalNegate_rep batchInvert_returns)

variable {P Q : ed25519.Point} {p q : RistrettoPoint}

/-- A state for the double of `P`. -/
def BatchCompressState.Of (P : ed25519.Point) (state : BatchCompressState) : Prop :=
  ∃ X Y Z T, Extended ed25519 P X Y Z T ∧ Rep (2 ^ 52) (X * (Y + Y)) state.e ∧ Rep (2 ^ 53) (Z ^ 2 + T ^ 2 * edwardsD) state.f ∧
    Rep (2 ^ 53) (Y ^ 2 + X ^ 2) state.g ∧ Rep (2 ^ 52) (Z ^ 2 - T ^ 2 * edwardsD) state.h ∧
    Rep (2 ^ 52) (X * (Y + Y) * (Y ^ 2 + X ^ 2)) state.eg ∧
    Rep (2 ^ 52) ((Z ^ 2 + T ^ 2 * edwardsD) * (Z ^ 2 - T ^ 2 * edwardsD)) state.fh

theorem BatchCompressState.ofPoint_returns (hp : p.edwards.Of P) : Returns (BatchCompressState.ofPoint p) (BatchCompressState.Of P) := by
  obtain ⟨X, Y, Z, T, h, hX, hY, hZ, hT⟩ := hp
  refine (square_returns (rep54 hX)).bind (fun XX hXX => ?_)
  refine (square_returns (rep54 hY)).bind (fun YY hYY => ?_)
  refine (square_returns (rep54 hZ)).bind (fun ZZ hZZ => ?_)
  refine (square_returns (rep54 hT)).bind (fun TT hTT => ?_)
  refine (mul_returns (rep54 hTT) (rep54 EDWARDS_D_rep)).bind (fun dTT hdTT => ?_)
  refine (sum_returns hY hY).bind (fun YaddY hYaddY => ?_)
  refine (mul_returns (rep54 hX) (rep54' hYaddY)).bind (fun e he => ?_)
  refine (sum_returns hZZ hdTT).bind (fun f hf => ?_)
  refine (sum_returns hYY hXX).bind (fun g hg => ?_)
  refine (sub_returns (rep54 hZZ) (rep54 hdTT)).bind (fun h' hh => ?_)
  refine (mul_returns (rep54 he) (rep54' hg)).bind (fun eg heg => ?_)
  refine (mul_returns (rep54' hf) (rep54 hh)).bind (fun fh hfh => ?_)
  exact Returns.ret ⟨X, Y, Z, T, h, he, hf, hg, hh, heg, hfh⟩

/-- The end of `finish`: `g` takes the sign that makes `h * e * Zinv` positive. -/
theorem finish_tail_returns {ee eg eh ez em et y : Fp} {e g h Zinv magic Tinv : FieldElement51} (he : Rep (2 ^ 53) ee e)
    (hg : Rep (2 ^ 53) eg g) (hh : Rep (2 ^ 52) eh h) (hz : Rep (2 ^ 52) ez Zinv) (hm : Rep (2 ^ 52) em magic)
    (ht : Rep (2 ^ 52) et Tinv) (hneg : Negative (eh * ee * ez) → y = -eg) (hpos : ¬ Negative (eh * ee * ez) → y = eg) :
    Returns (do
      let negcheck2 ← isNegative (← mul (← mul h e) Zinv)
      let g ← conditionalNegate g negcheck2
      let s ← mul (← sub h g) (← mul magic (← mul g Tinv))
      let s ← conditionalNegate s (← isNegative s)
      toBytes s) (fun b => ∃ s : Fp, leVal b.toList = s.val ∧ ¬ Negative s ∧ s ^ 2 = ((eh - y) * (em * (y * et))) ^ 2) := by
  refine (mul_returns (rep54 hh) (rep54' he)).bind (fun he' hhe => ?_)
  refine (mul_returns (rep54 hhe) (rep54 hz)).bind (fun hez hhez => ?_)
  refine (isNegative_returns (rep64 hhez)).bind (fun b hb => ?_)
  refine (conditionalNegate_rep (by decide) (by decide) hg b).bind (fun g' hg' => ?_)
  have hy : Rep (2 ^ 53) y g' := by
    cases b with
    | false =>
      rw [hpos (of_decide_eq_false hb.symm)]
      exact hg'
    | true  =>
      rw [hneg (of_decide_eq_true hb.symm)]
      exact hg'
  refine (sub_returns (rep54 hh) (rep54' hy)).bind (fun hg hhg => ?_)
  refine (mul_returns (rep54' hy) (rep54 ht)).bind (fun gt hgt => ?_)
  refine (mul_returns (rep54 hm) (rep54 hgt)).bind (fun mgt hmgt => ?_)
  refine (mul_returns (rep54 hhg) (rep54 hmgt)).bind (fun s hs => ?_)
  refine (abs_returns hs).bind (fun c hc => hc.bind (fun t ht => ?_))
  obtain ⟨f, hf, hsq, hnn⟩ := ht
  exact (toBytes_returns (rep64 hf)).mono (fun b hb => ⟨f, hb, hnn, hsq⟩)

/-- What `efgh` is the product for. -/
def BatchCompressState.value (state : BatchCompressState) : Fp := (state.eg.val : Fp) * (state.fh.val : Fp)

theorem BatchCompressState.efgh_returns {state : BatchCompressState} (h : state.Of P) :
    Returns state.efgh (Rep (2 ^ 54) state.value) := by
  obtain ⟨X, Y, Z, T, -, -, -, -, -, heg, hfh⟩ := h
  rw [BatchCompressState.value, heg.val_eq, hfh.val_eq]
  exact (mul_returns (rep54 heg) (rep54 hfh)).mono (fun _ h => rep54 h)

/-- **The encoding of the double.** -/
theorem BatchCompressState.finish_returns {state : BatchCompressState} (hstate : state.Of P) (hne : state.value ≠ 0)
    {inv : FieldElement51} (hi : Rep (2 ^ 54) state.value⁻¹ inv) :
    Returns (state.finish inv) (fun b => ∃ Q, 4 • (P + P - Q) = 0 ∧ Received b Q) := by
  obtain ⟨X, Y, Z, T, h, he, hf, hg, hh, heg, hfh⟩ := hstate
  rw [BatchCompressState.value, heg.val_eq, hfh.val_eq] at hne hi
  obtain ⟨hf0, hh0, hx, hy⟩ := batch_double h ed25519_a
  have hnorm := batch_norm h ed25519_a
  have hpyth := batch_pythagoras h ed25519_a
  have hd : ed25519.d = edwardsD := rfl
  rw [hd] at hf0 hh0 hx hy hnorm hpyth
  have hone := mul_inv_cancel₀ hne
  generalize (X * (Y + Y) * (Y ^ 2 + X ^ 2) * ((Z ^ 2 + T ^ 2 * edwardsD) * (Z ^ 2 - T ^ 2 * edwardsD)))⁻¹ = i at hone hi
  generalize X * (Y + Y) = e at *
  generalize Y ^ 2 + X ^ 2 = g at *
  generalize Z ^ 2 + T ^ 2 * edwardsD = f at *
  generalize Z ^ 2 - T ^ 2 * edwardsD = k at *
  obtain ⟨heg0, -⟩ := mul_ne_zero_iff.1 hne
  refine (mul_returns (rep54 heg) hi).bind (fun Zinv hZinv => ?_)
  refine (mul_returns (rep54 hfh) hi).bind (fun Tinv hTinv => ?_)
  refine (mul_returns (rep54 heg) (rep54 hZinv)).bind (fun egZ hegZ => ?_)
  refine (isNegative_returns (rep64 hegZ)).bind (fun negcheck1 hneg1 => ?_)
  refine (negate_returns (rep54 he)).bind (fun minusE hminus => ?_)
  refine (mul_returns (rep54' hf) (rep54 FieldElement51.SQRT_M1_rep)).bind (fun fi hfi => ?_)
  have hZ : e * g * i * (f * k) = 1 := by linear_combination hone
  have hT : f * k * i * (e * g) = 1 := by linear_combination hone
  have hxy : e * g * (e * g * i) = (P + P).x * (P + P).y := by
    rw [← hx, ← hy] at hZ ⊢
    linear_combination (P + P).x * (P + P).y * hZ
  have hxy0 : (P + P).x * (P + P).y ≠ 0 := by
    rw [← hx, ← hy] at heg0
    exact mul_ne_zero (left_ne_zero_of_mul (left_ne_zero_of_mul heg0)) (left_ne_zero_of_mul (right_ne_zero_of_mul heg0))
  rw [hxy] at hneg1
  cases negcheck1 with
  | false =>
    have ht : ¬ Negative ((P + P).x * (P + P).y) := of_decide_eq_false hneg1.symm
    obtain ⟨Q, hcoset, hnormal, hneg, hpos⟩ := exists_normal_straight ed25519_a isSign_negative two_ne_zero_fp hxy0 ht
    have hsign : k * e * (e * g * i) = (P + P).x := by
      rw [← hx] at hZ ⊢
      linear_combination (P + P).x * hZ
    have hQ : (Q.y * k) ^ 2 = g ^ 2 := by
      by_cases hn : Negative (P + P).x
      · rw [hneg hn, ← hy]
        ring
      · rw [hpos hn, hy]
    refine (finish_tail_returns (he.mono (by decide)) hg hh hZinv INVSQRT_A_MINUS_D_rep hTinv (y := Q.y * k) (fun hn => ?_)
      (fun hn => ?_)).mono (fun b hb => ?_)
    · rw [hsign] at hn
      rw [hneg hn, neg_mul, hy]
    · rw [hsign] at hn
      rw [hpos hn, hy]
    · obtain ⟨s, hs, hnn, hsq⟩ := hb
      refine ⟨Q, hcoset, s, hs, hnn, hnormal, ratio_of_batch hh0 ?_ rfl hsq⟩
      rw [mul_pow invsqrtAMinusD, mul_pow (Q.y * k), hQ, hnorm]
      linear_combination (f * k * i * (e * g)) ^ 2 * invsqrtAMinusD_sq + (f * k * i * (e * g) + 1) * hT
  | true  =>
    have ht : Negative ((P + P).x * (P + P).y) := of_decide_eq_true hneg1.symm
    obtain ⟨Q, hcoset, hnormal, hneg, hpos⟩ := exists_normal_crossed ed25519_a isSign_negative two_ne_zero_fp
      FieldElement51.sqrtM1_sq hxy0 ht
    have hroot := FieldElement51.sqrtM1_sq
    have hsign : f * sqrtM1 * g * (e * g * i) = sqrtM1 * (P + P).y := by
      rw [← hy] at hZ ⊢
      linear_combination sqrtM1 * (P + P).y * hZ
    have hQ : (Q.y * (f * sqrtM1)) ^ 2 = e ^ 2 := by
      by_cases hn : Negative (sqrtM1 * (P + P).y)
      · rw [hneg hn, ← hx]
        linear_combination ((P + P).x * f) ^ 2 * (sqrtM1 ^ 2 - 1) * hroot
      · rw [hpos hn, ← hx]
        linear_combination ((P + P).x * f) ^ 2 * (sqrtM1 ^ 2 - 1) * hroot
    refine (finish_tail_returns hg (hminus.mono (by decide)) hfi hZinv FieldElement51.SQRT_M1_rep hTinv
      (y := Q.y * (f * sqrtM1)) (fun hn => ?_) (fun hn => ?_)).mono (fun b hb => ?_)
    · rw [hsign] at hn
      rw [hneg hn]
      linear_combination -(P + P).x * f * hroot + hx
    · rw [hsign] at hn
      rw [hpos hn]
      linear_combination (P + P).x * f * hroot - hx
    · obtain ⟨s, hs, hnn, hsq⟩ := hb
      refine ⟨Q, hcoset, s, hs, hnn, hnormal, ratio_of_batch (mul_ne_zero hf0 ?_) ?_ rfl hsq⟩
      · rintro h0
        rw [h0, zero_pow two_ne_zero] at hroot
        exact one_ne_zero (neg_eq_zero.1 hroot.symm)
      · rw [mul_pow sqrtM1, mul_pow (Q.y * (f * sqrtM1)), hQ]
        linear_combination (f ^ 2 * (sqrtM1 ^ 2 - 1) - e ^ 2) * e ^ 2 * (f * k * i) ^ 2 * hroot +
          e ^ 2 * (f * k * i) ^ 2 * hpyth + (f * k * i * (e * g) + 1) * hT

/-! ## The batch -/

/-- A root of `1 / sqrt(a - d)`. -/
def rootOfInvsqrt : Nat := 35207705556619070874589532158920323129529894028515186298512384410868104380874

theorem isSquare_sqrtAMinusD : IsSquare sqrtAMinusD := by
  refine IsSquare.inv ⟨(rootOfInvsqrt : Nat), ?_⟩
  have h : INVSQRT_A_MINUS_D.val + p25519 * (rootOfInvsqrt * rootOfInvsqrt / p25519) = rootOfInvsqrt * rootOfInvsqrt := by decide
  have hcast := FieldElement51.cast_eq_of_add_mul h
  rwa [Nat.cast_mul] at hcast

theorem not_isSquare_sqrtM1 : ¬ IsSquare sqrtM1 :=
  RootRatio.not_isSquare_of_sq (by rw [ZMod.card]; decide) FieldElement51.sqrtM1_sq

/-- **No inverse is asked for in vain**, but for the identity. -/
theorem BatchCompressState.value_ne_zero_iff {state : BatchCompressState} (h : state.Of P) (heven : IsEven P) :
    state.value ≠ 0 ↔ 4 • P ≠ 0 := by
  obtain ⟨X, Y, Z, T, h, -, -, -, -, heg, hfh⟩ := h
  obtain ⟨hf0, hh0, -, -⟩ := batch_double h ed25519_a
  have hd : ed25519.d = edwardsD := rfl
  rw [hd] at hf0 hh0
  have hsum := x_sq_add_y_sq_ne_zero ed25519_a sqrtAMinusD_sq sqrtAMinusD_ne_zero FieldElement51.sqrtM1_sq not_isSquare_sqrtM1
    isSquare_sqrtAMinusD heven
  have hvalue : state.value = P.x * P.y * (2 * (P.x ^ 2 + P.y ^ 2) * Z ^ 4 *
      ((Z ^ 2 + T ^ 2 * edwardsD) * (Z ^ 2 - T ^ 2 * edwardsD))) := by
    rw [BatchCompressState.value, heg.val_eq, hfh.val_eq, h.x, h.y]
    ring
  have hrest := mul_ne_zero (mul_ne_zero (mul_ne_zero two_ne_zero_fp hsum) (pow_ne_zero 4 h.ne)) (mul_ne_zero hf0 hh0)
  rw [hvalue, Ne, Ne, four_nsmul_eq_zero_iff two_ne_zero_fp, ← mul_eq_zero]
  exact not_congr (or_iff_left hrest |>.symm.trans mul_eq_zero.symm).symm

/-- The states, and what the batch is to invert. -/
theorem states_returns {Ps : List ed25519.Point} {points : List RistrettoPoint} (h : List.Forall₂ Of Ps points) :
    Returns (points.mapM BatchCompressState.ofPoint)
      (List.Forall₂ (fun P (s : BatchCompressState) => s.Of P ∧ (s.value ≠ 0 ↔ 4 • P ≠ 0)) Ps) :=
  Returns.mapM_forall₂ (fun _ _ hp => (BatchCompressState.ofPoint_returns hp.point).mono
    (fun _ hs => ⟨hs, BatchCompressState.value_ne_zero_iff hs hp.even⟩)) h

theorem efghs_returns {Ps : List ed25519.Point} {states : List BatchCompressState}
    (h : List.Forall₂ (fun P (s : BatchCompressState) => s.Of P ∧ (s.value ≠ 0 ↔ 4 • P ≠ 0)) Ps states) :
    Returns (states.mapM BatchCompressState.efgh) (List.Forall₂ (Rep (2 ^ 54)) (states.map BatchCompressState.value)) := by
  refine (Returns.mapM states (R := fun s x => Rep (2 ^ 54) s.value x) (fun s hs => ?_)).mono
    (fun _ hall => List.forall₂_map_left_iff.2 hall)
  obtain ⟨P, -, hP, -⟩ := forall₂_mem_right h hs
  exact BatchCompressState.efgh_returns hP

/-- **A batch without the identity** is the encodings of the doubles, -/
theorem doubleAndCompressBatch_returns {Ps : List ed25519.Point} {points : List RistrettoPoint} (h : List.Forall₂ Of Ps points)
    (hne : ∀ P ∈ Ps, 4 • P ≠ 0) : Returns (doubleAndCompressBatch points)
      (List.Forall₂ (fun P b => ∃ Q, 4 • (P + P - Q) = 0 ∧ Received b Q) Ps) := by
  refine (states_returns h).bind (fun states hstates => ?_)
  refine (efghs_returns hstates).bind (fun efghs hefghs => ?_)
  have hvalues : ∀ e ∈ states.map BatchCompressState.value, e ≠ 0 := by
    intro e he
    obtain ⟨s, hs, rfl⟩ := List.mem_map.1 he
    obtain ⟨P, hmem, -, hiff⟩ := forall₂_mem_right hstates hs
    exact hiff.2 (hne P hmem)
  refine (batchInvert_returns hefghs hvalues).bind (fun invs hinvs => ?_)
  rw [List.map_map, List.forall₂_map_left_iff] at hinvs
  have hzip := forall₂_zip_right ((List.forall₂_and_left _ _).2 ⟨hne, hstates⟩) hinvs
  refine Returns.mapM_forall₂ (fun P z hz => ?_) hzip
  obtain ⟨⟨hP, hstate, hiff⟩, hinv⟩ := hz
  exact BatchCompressState.finish_returns hstate (hiff.2 hP) hinv

/-- and one with the identity fails. -/
theorem doubleAndCompressBatch_none {Ps : List ed25519.Point} {points : List RistrettoPoint} (h : List.Forall₂ Of Ps points)
    {P : ed25519.Point} (hP : P ∈ Ps) (h4 : 4 • P = 0) : doubleAndCompressBatch points = none := by
  obtain ⟨states, heq, hstates⟩ := states_returns h
  obtain ⟨efghs, heq', hefghs⟩ := efghs_returns hstates
  have hzero : (0 : Fp) ∈ states.map BatchCompressState.value := by
    obtain ⟨s, hs, -, hiff⟩ := forall₂_mem_left hstates hP
    exact List.mem_map.2 ⟨s, hs, not_not.1 (fun hv => hiff.1 hv h4)⟩
  rw [doubleAndCompressBatch, heq]
  dsimp only [Option.bind_eq_bind, Option.bind_some]
  rw [heq']
  dsimp only [Option.bind_some]
  rw [FieldElement51.batchInvert_none hefghs hzero]
  rfl

end RistrettoPoint

end Curve25519
end Dpid
