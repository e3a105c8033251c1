import Dpid.Bytes
import Dpid.Fft
import Mathlib.LinearAlgebra.Matrix.NonsingularInverse
import Mathlib.LinearAlgebra.Vandermonde
/-!
# Vandermonde — interpolating and evaluating many polynomials at once (`ntl/hbmpc_ntl_helpers.pyx`)

`vandermonde_batch_interpolate` multiplies the values by the inverse of the Vandermonde matrix of the points,
`vandermonde_batch_evaluate` the coefficients by the matrix itself.  Inverting a matrix is the library's.
-/
namespace Dpid
namespace Ntl

open CoeffList

/-! ## The program -/

/-- `inv(det, X, A)` of the library, with what it documents: the determinant, and the inverse when that is not zero. -/
structure MatInv (F : Type) [Field F] where
  inv : {n : Nat} → Matrix (Fin n) (Fin n) F → F × Matrix (Fin n) (Fin n) F
  det_eq : ∀ {n : Nat} (A : Matrix (Fin n) (Fin n) F), (inv A).1 = A.det
  inv_mul : ∀ {n : Nat} (A : Matrix (Fin n) (Fin n) F), A.det ≠ 0 → (inv A).2 * A = 1

/-- Inverting by cofactors. -/
def MatInv.cofactor (F : Type) [Field F] : MatInv F where
  inv A := (A.det, A.det⁻¹ • A.adjugate)
  det_eq _ := rfl
  inv_mul A h := by rw [Matrix.smul_mul, Matrix.adjugate_mul, smul_smul, inv_mul_cancel₀ h, one_smul]

section

variable {F : Type} [Field F]

/-- The matrix `vandermonde_inverse` builds. -/
def vandermonde (x : List F) : Matrix (Fin x.length) (Fin x.length) F := Matrix.vandermonde (fun i => x.get i)

/-- The rows of a matrix. -/
def rows {m n : Nat} (A : Matrix (Fin m) (Fin n) F) : List (List F) := List.ofFn fun i => List.ofFn fun j => A i j

/-- `vandermonde_inverse`: the inverse, or nothing when the determinant is zero. -/
def vandermondeInverse [DecidableEq F] (I : MatInv F) (x : List F) : Option (List (List F)) :=
  let r := I.inv (vandermonde x)
  if r.1 = 0 then none else some (rows r.2)

/-- `max([len(d) for d in data_list])`. -/
def maxLength {α : Type} (dataList : List (List α)) : Except Exn Nat :=
  match (dataList.map List.length).max? with
  | none   => .error (.valueError "max() arg is an empty sequence")
  | some k => .ok k

/-- A column of `k` entries, filled up with zeros. -/
def column (k : Nat) (data : List F) : List F := data ++ List.replicate (k - data.length) 0

def vandermondeBatchInterpolate [DecidableEq F] (I : MatInv F) (x : List F) (dataList : List (List F)) :
    Except Exn (List (List F)) :=
  match vandermondeInverse I x with
  | none   => .error .interpolationError
  | some r => do
    let k ← maxLength dataList
    -- the library stops on matrices that do not fit
    if k ≠ x.length then .error .runtimeError
    else return dataList.map (fun data => mulVec r (column k data))

def vandermondeBatchEvaluate (x : List F) (polynomials : List (List F)) : Except Exn (List (List F)) := do
  let d ← maxLength polynomials
  return polynomials.map (fun poly => mulVec (setVmMatrix x d) (column d poly))

/-! ## Evaluating -/

theorem column_length (data : List F) : column data.length data = data := by
  rw [column, Nat.sub_self, List.replicate_zero, List.append_nil]

theorem maxLength_singleton {α : Type} (data : List α) : maxLength [data] = .ok data.length := rfl

theorem mulVec_setVmMatrix (x poly : List F) :
    mulVec (setVmMatrix x poly.length) poly = x.map (fun a => (listPoly poly).eval a) := by
  rw [mulVec, setVmMatrix, List.map_map]
  refine List.map_congr_left (fun a _ => ?_)
  rw [Function.comp_apply, powers_eq, sum_zipWith_range _ rfl, eval_listPoly le_rfl]
  exact Finset.sum_congr rfl (fun j _ => mul_comm _ _)

/-- **Evaluating one polynomial**: its values at the points. -/
theorem vandermondeBatchEvaluate_singleton (x poly : List F) :
    vandermondeBatchEvaluate x [poly] = .ok [x.map (fun a => (listPoly poly).eval a)] := by
  have h : vandermondeBatchEvaluate x [poly] = .ok [mulVec (setVmMatrix x poly.length) (column poly.length poly)] := rfl
  rw [h, column_length, mulVec_setVmMatrix]

/-! ## Interpolating -/

theorem mulVec_rows {m n : Nat} (A : Matrix (Fin m) (Fin n) F) (v : Fin n → F) :
    mulVec (rows A) (List.ofFn v) = List.ofFn (A.mulVec v) := by
  rw [mulVec, rows, List.map_ofFn]
  congr 1
  funext i
  rw [Function.comp_apply, Matrix.mulVec, dotProduct, ← List.sum_ofFn]
  congr 1
  refine List.ext_getElem (by simp) (fun j h₁ h₂ => ?_)
  simp

theorem eval_ofFn {n : Nat} (w : Fin n → F) (a : F) : (listPoly (List.ofFn w)).eval a = ∑ j, w j * a ^ (j : Nat) := by
  have hlen : (List.ofFn w).length ≤ n := by rw [List.length_ofFn]
  rw [eval_listPoly hlen, Finset.sum_range]
  refine Finset.sum_congr rfl (fun j _ => ?_)
  rw [List.getD_eq_getElem _ _ (by simp), List.getElem_ofFn]

/-- **Interpolating one list of values at distinct points**: as many coefficients, and the values come back. -/
theorem vandermondeBatchInterpolate_singleton [DecidableEq F] (I : MatInv F) {x data : List F} (hx : x.Nodup)
    (hlen : data.length = x.length) :
    ∃ coeffs, vandermondeBatchInterpolate I x [data] = .ok [coeffs] ∧ coeffs.length = x.length ∧
      x.map (fun a => (listPoly coeffs).eval a) = data := by
  have hdet : (vandermonde x).det ≠ 0 := by
    rw [vandermonde, Matrix.det_vandermonde_ne_zero_iff]
    exact List.nodup_iff_injective_get.1 hx
  have hinv : vandermonde x * (I.inv (vandermonde x)).2 = 1 := mul_eq_one_comm.1 (I.inv_mul _ hdet)
  obtain ⟨v, rfl⟩ : ∃ v : Fin x.length → F, data = List.ofFn v :=
    ⟨fun i => data.get (i.cast hlen.symm), List.ext_getElem (by simp [hlen]) (by simp)⟩
  have hrun : vandermondeBatchInterpolate I x [List.ofFn v] =
      .ok [mulVec (rows (I.inv (vandermonde x)).2) (List.ofFn v)] := by
    have hsome : vandermondeInverse I x = some (rows (I.inv (vandermonde x)).2) := by
      rw [vandermondeInverse, if_neg]
      rwa [I.det_eq]
    have hfit : ¬ (List.ofFn v).length ≠ x.length := by simp
    rw [vandermondeBatchInterpolate, hsome]
    simp only [maxLength_singleton, bind, Except.bind, if_neg hfit, List.map_cons, List.map_nil, column_length]
    rfl
  rw [mulVec_rows] at hrun
  refine ⟨_, hrun, List.length_ofFn, ?_⟩
  refine List.ext_getElem (by simp) (fun i h₁ h₂ => ?_)
  have hi : i < x.length := by simpa using h₂
  have hval := congrFun (congrArg (fun A => A.mulVec v) hinv) ⟨i, hi⟩
  rw [← Matrix.mulVec_mulVec, Matrix.one_mulVec] at hval
  rw [List.getElem_map, List.getElem_ofFn, ← hval, eval_ofFn]
  refine Finset.sum_congr rfl (fun j _ => ?_)
  rw [mul_comm]
  rfl

end

end Ntl
end Dpid
