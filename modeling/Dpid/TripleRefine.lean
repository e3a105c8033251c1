import Dpid.Interpolation
import Dpid.Vandermonde
/-!
# TripleRefine — refining multiplication triples (`progs/triple_refinement.py`)

The first `d + 1` dirty triples fix two polynomials of degree `d`; the next `d` triples serve to multiply their values
at `d` more points, so that `2d + 1` values of the product are known and it can be evaluated anew.  A share stands for
the value it opens to.
-/
namespace Dpid
namespace TripleRefine

open Polynomial CoeffList Ntl

/-! ## The program -/

section

variable {F : Type} [Field F]

/-- `batch_beaver`: the products of `a` and `b` by the triples of `x`, `y` and `z`. -/
def batchBeaver (a b x y z : List F) : Except Exn (List F) :=
  if a.length = b.length ∧ b.length = x.length ∧ x.length = y.length ∧ y.length = z.length then
    let f := List.zipWith (· - ·) a x
    let g := List.zipWith (· - ·) b y
    .ok ((x.zip (y.zip (z.zip (f.zip g)))).map
      (fun (p, q, pq, d, e) => d * e + d * q + e * p + pq))
  else .error .assertionError

/-- `list(range(lo, hi))`, as points of the field. -/
def points (F : Type) [Field F] (lo hi : Int) : List F :=
  (List.range (hi - lo).toNat).map (fun (i : Nat) => ((lo + (i : Int) : Int) : F))

/-- `assert cond`. -/
def require (cond : Prop) [Decidable cond] : Except Exn Unit := if cond then .ok () else .error .assertionError

/-- `l[0]`. -/
def first (l : List (List F)) : Except Exn (List F) :=
  match l with
  | []     => .error .indexError
  | a :: _ => .ok a

def refineTriples [DecidableEq F] (I : MatInv F) (n t : Nat) (aDirty bDirty cDirty : List F) :
    Except Exn (List F × List F × List F) := do
  require (aDirty.length = bDirty.length ∧ bDirty.length = cDirty.length)
  let m := aDirty.length
  let d : Int := ((m : Int) - 1) / 2
  require ((m : Int) ≥ (n : Int) - t ∧ m ≤ n)
  let a := aDirty.take (d + 1).toNat
  let b := bDirty.take (d + 1).toNat
  let aCoeffs ← first (← vandermondeBatchInterpolate I (points F 0 (d + 1)) [a])
  let bCoeffs ← first (← vandermondeBatchInterpolate I (points F 0 (d + 1)) [b])
  require (aCoeffs.length = bCoeffs.length ∧ (bCoeffs.length : Int) = d + 1)
  let aRest ← first (← vandermondeBatchEvaluate (points F (d + 1) (2 * d + 1)) [aCoeffs])
  let bRest ← first (← vandermondeBatchEvaluate (points F (d + 1) (2 * d + 1)) [bCoeffs])
  require (aRest.length = bRest.length ∧ (bRest.length : Int) = d)
  let x := (aDirty.drop (d + 1).toNat).take d.toNat
  let y := (bDirty.drop (d + 1).toNat).take d.toNat
  let z := (cDirty.drop (d + 1).toNat).take d.toNat
  require (x.length = y.length ∧ y.length = z.length)
  let cRest ← batchBeaver aRest bRest x y z
  require ((cRest.length : Int) = d)
  let c := cDirty.take (d + 1).toNat
  let cCoeffs ← first (← vandermondeBatchInterpolate I (points F 0 (2 * d + 1)) [c ++ cRest])
  require ((cCoeffs.length : Int) = 2 * d + 1)
  let k : Int := d + 1 - t
  let p ← first (← vandermondeBatchEvaluate (points F (n + 1) (n + 1 + k)) [aCoeffs])
  let q ← first (← vandermondeBatchEvaluate (points F (n + 1) (n + 1 + k)) [bCoeffs])
  let pq ← first (← vandermondeBatchEvaluate (points F (n + 1) (n + 1 + k)) [cCoeffs])
  require (p.length = q.length ∧ q.length = pq.length ∧ (pq.length : Int) = k)
  return (p, q, pq)

/-! ## Multiplying by a triple -/

/-- **A triple's correction is the product**: `(a - p)(b - q) + (a - p)q + (b - q)p + pq = ab`. -/
theorem batchBeaver_eq {a b x y : List F} (hab : a.length = b.length) (hbx : b.length = x.length)
    (hxy : x.length = y.length) :
    batchBeaver a b x y (List.zipWith (· * ·) x y) = .ok (List.zipWith (· * ·) a b) := by
  have hlen : a.length = b.length ∧ b.length = x.length ∧ x.length = y.length ∧
      y.length = (List.zipWith (· * ·) x y).length := by
    refine ⟨hab, hbx, hxy, ?_⟩
    rw [List.length_zipWith]
    omega
  rw [batchBeaver, if_pos hlen]
  refine congrArg Except.ok (List.ext_getElem (by simp; omega) (fun i h₁ h₂ => ?_))
  simp only [List.getElem_map, List.getElem_zip, List.getElem_zipWith]
  ring

/-! ## The points -/

def natPoints (F : Type) [Field F] (lo len : Nat) : List F := (List.range len).map (fun i => ((lo + i : Nat) : F))

theorem length_natPoints (lo len : Nat) : (natPoints F lo len).length = len := by
  rw [natPoints, List.length_map, List.length_range]

theorem points_eq (lo len : Nat) {a b : Int} (ha : a = lo) (hb : b = lo + len) : points F a b = natPoints F lo len := by
  have hlen : (b - a).toNat = len := by omega
  rw [points, natPoints, hlen, ha]
  refine List.map_congr_left (fun i _ => ?_)
  push_cast
  ring

theorem natPoints_append (lo k l : Nat) : natPoints F lo (k + l) = natPoints F lo k ++ natPoints F (lo + k) l := by
  rw [natPoints, List.range_add, List.map_append, List.map_map, ← natPoints]
  refine congrArg _ (List.map_congr_left (fun i _ => ?_))
  rw [Function.comp_apply, Nat.add_assoc]

end

theorem nodup_natPoints {p : ℕ} [Fact p.Prime] {len : Nat} (h : len ≤ p) : (natPoints (ZMod p) 0 len).Nodup := by
  refine List.Nodup.map_on (fun i hi j hj hij => ?_) List.nodup_range
  have hi' := List.mem_range.1 hi
  have hj' := List.mem_range.1 hj
  rw [Nat.zero_add, Nat.zero_add, ZMod.natCast_eq_natCast_iff, Nat.ModEq, Nat.mod_eq_of_lt (by omega),
    Nat.mod_eq_of_lt (by omega)] at hij
  exact hij

/-! ## The refined triples -/

section

variable {F : Type} [Field F]

/-- Interpolating by itself: coefficients with these values. -/
theorem exists_interpolate [DecidableEq F] (I : MatInv F) {lo len : Nat} {data : List F}
    (hnd : (natPoints F lo len).Nodup) (hlen : data.length = len) :
    ∃ coeffs, vandermondeBatchInterpolate I (natPoints F lo len) [data] = .ok [coeffs] ∧ coeffs.length = len ∧
      (natPoints F lo len).map (fun x => (listPoly coeffs).eval x) = data := by
  have hfit : data.length = (natPoints F lo len).length := by rw [length_natPoints, hlen]
  obtain ⟨coeffs, hrun, hl, hv⟩ := vandermondeBatchInterpolate_singleton I hnd hfit
  exact ⟨coeffs, hrun, hl.trans (length_natPoints lo len), hv⟩

/-- The values of a polynomial at consecutive points. -/
noncomputable def values (P : F[X]) (lo len : Nat) : List F := (natPoints F lo len).map (fun x => P.eval x)

theorem length_values (P : F[X]) (lo len : Nat) : (values P lo len).length = len := by
  rw [values, List.length_map, length_natPoints]

theorem values_append (P : F[X]) (lo k l : Nat) : values P lo k ++ values P (lo + k) l = values P lo (k + l) := by
  rw [values, values, values, ← List.map_append, ← natPoints_append]

theorem zipWith_values (P Q : F[X]) (lo len : Nat) :
    List.zipWith (· * ·) (values P lo len) (values Q lo len) = values (P * Q) lo len := by
  rw [values, values, values, List.zipWith_map]
  simp only [eval_mul]
  rw [List.zipWith_self]

theorem evaluate_eq (coeffs : List F) (lo len : Nat) :
    vandermondeBatchEvaluate (natPoints F lo len) [coeffs] = .ok [values (listPoly coeffs) lo len] :=
  vandermondeBatchEvaluate_singleton _ _

theorem degree_listPoly_mul_lt {a b : List F} {d : Nat} (ha : a.length = d + 1) (hb : b.length = d + 1) :
    (listPoly a * listPoly b).degree < (2 * d + 1 : Nat) := by
  have hdeg : ∀ l : List F, l.length = d + 1 → (listPoly l).degree ≤ (d : Nat) := by
    intro l hl
    rw [degree_le_iff_coeff_zero]
    intro i hi
    rw [coeff_listPoly, List.getD_eq_default l 0 (by rw [Nat.cast_lt] at hi; omega)]
  calc (listPoly a * listPoly b).degree
      ≤ (d : WithBot ℕ) + (d : WithBot ℕ) := (degree_mul_le _ _).trans (add_le_add (hdeg a ha) (hdeg b hb))
    _ < (2 * d + 1 : Nat) := by
      rw [← Nat.cast_add, Nat.cast_lt]
      omega

theorem ok_bind {α β : Type} (a : α) (f : α → Except Exn β) : (Except.ok a >>= f) = f a := rfl

theorem first_cons {F : Type} (a : List F) (l : List (List F)) : first (a :: l) = .ok a := rfl

theorem require_ok {cond : Prop} [Decidable cond] (h : cond) : require cond = .ok () := if_pos h

/-- **The product at `2d + 1` points**: the first `d + 1` triples fix two polynomials and the next `d` multiply their
values, so that what is interpolated is the product. -/
theorem exists_product [DecidableEq F] (I : MatInv F) {d : Nat} {a b : List F} (hab : a.length = b.length)
    (hlen : 2 * d + 1 ≤ a.length) (hnd : (natPoints F 0 (2 * d + 1)).Nodup) :
    ∃ aCoeffs bCoeffs cCoeffs : List F,
      vandermondeBatchInterpolate I (natPoints F 0 (d + 1)) [a.take (d + 1)] = .ok [aCoeffs] ∧
      vandermondeBatchInterpolate I (natPoints F 0 (d + 1)) [b.take (d + 1)] = .ok [bCoeffs] ∧
      aCoeffs.length = d + 1 ∧ bCoeffs.length = d + 1 ∧ cCoeffs.length = 2 * d + 1 ∧
      batchBeaver (values (listPoly aCoeffs) (d + 1) d) (values (listPoly bCoeffs) (d + 1) d)
        ((a.drop (d + 1)).take d) ((b.drop (d + 1)).take d) (((List.zipWith (· * ·) a b).drop (d + 1)).take d) =
          .ok (values (listPoly aCoeffs * listPoly bCoeffs) (d + 1) d) ∧
      vandermondeBatchInterpolate I (natPoints F 0 (2 * d + 1)) [(List.zipWith (· * ·) a b).take (d + 1) ++
        values (listPoly aCoeffs * listPoly bCoeffs) (d + 1) d] = .ok [cCoeffs] ∧
      listPoly cCoeffs = listPoly aCoeffs * listPoly bCoeffs := by
  have hnd' : (natPoints F 0 (d + 1)).Nodup := by
    rw [show 2 * d + 1 = d + 1 + d by omega, natPoints_append] at hnd
    exact (List.nodup_append.1 hnd).1
  have haTake : (a.take (d + 1)).length = d + 1 := by
    rw [List.length_take]
    omega
  have hbTake : (b.take (d + 1)).length = d + 1 := by
    rw [List.length_take]
    omega
  obtain ⟨aCoeffs, haRun, haLen, haVal⟩ := exists_interpolate I hnd' haTake
  obtain ⟨bCoeffs, hbRun, hbLen, hbVal⟩ := exists_interpolate I hnd' hbTake
  have hfirst : (List.zipWith (· * ·) a b).take (d + 1) = values (listPoly aCoeffs * listPoly bCoeffs) 0 (d + 1) := by
    rw [List.take_zipWith, ← haVal, ← hbVal, ← values, ← values, zipWith_values]
  have hrest : batchBeaver (values (listPoly aCoeffs) (d + 1) d) (values (listPoly bCoeffs) (d + 1) d)
      ((a.drop (d + 1)).take d) ((b.drop (d + 1)).take d) (((List.zipWith (· * ·) a b).drop (d + 1)).take d) =
        .ok (values (listPoly aCoeffs * listPoly bCoeffs) (d + 1) d) := by
    rw [List.drop_zipWith, List.take_zipWith, batchBeaver_eq, zipWith_values]
    · rw [length_values, length_values]
    · rw [length_values, List.length_take, List.length_drop]
      omega
    · rw [List.length_take, List.length_take, List.length_drop, List.length_drop]
      omega
  have hall : values (listPoly aCoeffs * listPoly bCoeffs) 0 (d + 1) ++ values (listPoly aCoeffs * listPoly bCoeffs) (d + 1) d =
      values (listPoly aCoeffs * listPoly bCoeffs) 0 (2 * d + 1) := by
    have happ := values_append (listPoly aCoeffs * listPoly bCoeffs) 0 (d + 1) d
    rwa [Nat.zero_add, show d + 1 + d = 2 * d + 1 by omega] at happ
  obtain ⟨cCoeffs, hcRun, hcLen, hcVal⟩ := exists_interpolate I hnd
    (length_values (listPoly aCoeffs * listPoly bCoeffs) 0 (2 * d + 1))
  have hC : listPoly cCoeffs = listPoly aCoeffs * listPoly bCoeffs := by
    refine Interpolation.eq_of_map_eval hnd ?_ ?_ hcVal
    · rw [length_natPoints, ← hcLen]
      exact degree_listPoly_lt cCoeffs
    · rw [length_natPoints]
      exact degree_listPoly_mul_lt haLen hbLen
  refine ⟨aCoeffs, bCoeffs, cCoeffs, haRun, hbRun, haLen, hbLen, hcLen, hrest, ?_, hC⟩
  rw [hfirst, hall, hcRun]

/-- **Refining by `d + 1` triples, with `d` more to multiply**: the product polynomial is the one evaluated anew. -/
theorem refineTriples_eq [DecidableEq F] (I : MatInv F) {n t d : Nat} {a b : List F} (hab : a.length = b.length)
    (hd : (a.length - 1) / 2 = d) (hpos : 1 ≤ a.length) (hlo : n - t ≤ a.length) (hhi : a.length ≤ n) (ht : t ≤ d)
    (hnd : (natPoints F 0 (2 * d + 1)).Nodup) :
    ∃ P Q : F[X], refineTriples I n t a b (List.zipWith (· * ·) a b) =
      .ok (values P (n + 1) (d + 1 - t), values Q (n + 1) (d + 1 - t), values (P * Q) (n + 1) (d + 1 - t)) := by
  obtain ⟨aCoeffs, bCoeffs, cCoeffs, haRun, hbRun, haLen, hbLen, hcLen, hrest, hcRun, hC⟩ :=
    exists_product I hab (by omega) hnd
  refine ⟨listPoly aCoeffs, listPoly bCoeffs, ?_⟩
  have hlen : a.length = b.length ∧ b.length = (List.zipWith (· * ·) a b).length := by
    rw [List.length_zipWith]
    omega
  have hdInt : ((a.length : Int) - 1) / 2 = (d : Int) := by omega
  have hsize : (a.length : Int) ≥ (n : Int) - t ∧ a.length ≤ n := by omega
  have hsucc : ((d : Int) + 1).toNat = d + 1 := by omega
  have hpoints : points F 0 ((d : Int) + 1) = natPoints F 0 (d + 1) := points_eq 0 (d + 1) rfl (by omega)
  have hpointsRest : points F ((d : Int) + 1) (2 * d + 1) = natPoints F (d + 1) d :=
    points_eq (d + 1) d (by omega) (by omega)
  have hpointsAll : points F 0 (2 * (d : Int) + 1) = natPoints F 0 (2 * d + 1) := points_eq 0 (2 * d + 1) rfl (by omega)
  have hpointsNew : points F ((n : Int) + 1) (n + 1 + (d + 1 - t)) = natPoints F (n + 1) (d + 1 - t) :=
    points_eq (n + 1) (d + 1 - t) (by omega) (by omega)
  have hxyz : ((a.drop (d + 1)).take d).length = ((b.drop (d + 1)).take d).length ∧
      ((b.drop (d + 1)).take d).length = (((List.zipWith (· * ·) a b).drop (d + 1)).take d).length := by
    simp only [List.length_take, List.length_drop, List.length_zipWith]
    omega
  rw [refineTriples, require_ok hlen, ok_bind]
  simp only [hdInt, require_ok hsize, hsucc, Int.toNat_natCast, hpoints, hpointsRest, hpointsAll, hpointsNew, haRun, hbRun,
    evaluate_eq, ok_bind, first_cons]
  have hcoeffs : aCoeffs.length = bCoeffs.length ∧ (bCoeffs.length : Int) = d + 1 := by omega
  have hpq : (d + 1 - t : Nat) = ((d : Int) + 1 - t) := by omega
  rw [require_ok hcoeffs, ok_bind, require_ok (by simp only [length_values, and_self]), ok_bind, require_ok hxyz, ok_bind,
    hrest, ok_bind, require_ok (by rw [length_values]), ok_bind, hcRun, ok_bind, first_cons, ok_bind,
    require_ok (by omega), ok_bind, require_ok (by simp only [length_values, hpq, and_self]), ok_bind, hC]
  rfl

end

/-- **Refining triples keeps the product relation**: no assertion fails, and each of the `k` triples returned is a
multiplication. -/
theorem refineTriples_products {p : ℕ} [Fact p.Prime] (I : MatInv (ZMod p)) {n t m : Nat} (hn : 3 * t + 1 ≤ n)
    (hlo : n - t ≤ m) (hhi : m ≤ n) (hp : n + 1 + m < p) {a b c : List (ZMod p)} (ha : a.length = m) (hb : b.length = m)
    (hc : c = List.zipWith (· * ·) a b) :
    1 ≤ (m - 1) / 2 + 1 - t ∧ ∃ P Q PQ, refineTriples I n t a b c = .ok (P, Q, PQ) ∧ PQ = List.zipWith (· * ·) P Q ∧
      P.length = (m - 1) / 2 + 1 - t ∧ Q.length = (m - 1) / 2 + 1 - t ∧ PQ.length = (m - 1) / 2 + 1 - t := by
  have ht : t ≤ (m - 1) / 2 := by omega
  have hnd : (natPoints (ZMod p) 0 (2 * ((m - 1) / 2) + 1)).Nodup := nodup_natPoints (by omega)
  subst ha
  obtain ⟨P, Q, hrun⟩ := refineTriples_eq I hb.symm rfl (by omega) hlo hhi ht hnd
  rw [← hc] at hrun
  refine ⟨by omega, _, _, _, hrun, (zipWith_values P Q (n + 1) _).symm, ?_, ?_, ?_⟩
  · exact length_values _ _ _
  · exact length_values _ _ _
  · exact length_values _ _ _

/-- Four parties, one of them corrupt, and three triples. -/
theorem refineTriples_products_four : have : Fact (Nat.Prime 11) := ⟨by norm_num⟩
    1 ≤ (3 - 1) / 2 + 1 - 1 ∧ ∃ P Q PQ : List (ZMod 11),
      refineTriples (MatInv.cofactor (ZMod 11)) 4 1 [1, 2, 3] [4, 5, 6] [4, 10, 7] = .ok (P, Q, PQ) ∧
      PQ = List.zipWith (· * ·) P Q ∧ P.length = (3 - 1) / 2 + 1 - 1 ∧ Q.length = (3 - 1) / 2 + 1 - 1 ∧
      PQ.length = (3 - 1) / 2 + 1 - 1 := by
  have : Fact (Nat.Prime 11) := ⟨by norm_num⟩
  exact refineTriples_products _ (by decide) (by decide) (by decide) (by decide) rfl rfl rfl

end TripleRefine
end Dpid
