import Mathlib.LinearAlgebra.Lagrange
import Mathlib.Data.List.GetD
import Mathlib.Tactic.LinearCombination
/-!
# Interpolation — the polynomial through given values at a list of distinct points

`rootsPoly` vanishes at the points and `interpPoly` takes the values; divided by `rootsPoly` it is a power series whose
coefficients are sums over the inverse points (`coeff_seriesPoly_mul_rootsPoly`).
-/
namespace Interpolation

open Polynomial

section

variable {F : Type} [Field F]

noncomputable def rootsPoly (xs : List F) : F[X] := (xs.map fun x => X - C x).prod

def node (xs : List F) (i : Nat) : F := xs.getD i 0

theorem node_injOn {xs : List F} (h : xs.Nodup) : Set.InjOn (node xs) (Finset.range xs.length) := by
  intro i hi j hj hij
  have hi' : i < xs.length := by simpa using hi
  have hj' : j < xs.length := by simpa using hj
  simp only [node, List.getD_eq_getElem _ _ hi', List.getD_eq_getElem _ _ hj'] at hij
  exact (h.getElem_inj_iff).1 hij

theorem rootsPoly_eq_nodal (xs : List F) : rootsPoly xs = Lagrange.nodal (Finset.range xs.length) (node xs) := by
  rw [rootsPoly, Lagrange.nodal]
  induction xs with
  | nil          => simp
  | cons x xs ih =>
    rw [List.map_cons, List.prod_cons, List.length_cons, Finset.prod_range_succ', ih, mul_comm]
    rfl

theorem rootsPoly_monic (xs : List F) : (rootsPoly xs).Monic := by
  rw [rootsPoly_eq_nodal]
  exact Lagrange.nodal_monic

theorem natDegree_rootsPoly (xs : List F) : (rootsPoly xs).natDegree = xs.length := by
  rw [rootsPoly_eq_nodal, Lagrange.natDegree_nodal, Finset.card_range]

theorem degree_rootsPoly (xs : List F) : (rootsPoly xs).degree = xs.length := by
  rw [rootsPoly_eq_nodal, Lagrange.degree_nodal, Finset.card_range]

theorem eval_rootsPoly {xs : List F} {x : F} : (rootsPoly xs).eval x = 0 ↔ x ∈ xs := by
  rw [rootsPoly, eval_list_prod, List.prod_eq_zero_iff]
  simp [sub_eq_zero]

/-- Distinct points are simple roots. -/
theorem eval_derivative_ne_zero {xs : List F} (h : xs.Nodup) {i : Nat} (hi : i < xs.length) :
    (derivative (rootsPoly xs)).eval (node xs i) ≠ 0 := by
  have hw := Lagrange.nodalWeight_ne_zero (node_injOn h) (Finset.mem_range.2 hi)
  rw [Lagrange.nodalWeight_eq_eval_derivative_nodal (Finset.mem_range.2 hi), ← rootsPoly_eq_nodal] at hw
  exact fun h0 => hw (by rw [h0, inv_zero])

/-- The polynomial of least degree with these values at these points. -/
noncomputable def interpPoly (xs ys : List F) : F[X] :=
  Lagrange.interpolate (Finset.range xs.length) (node xs) (node ys)

theorem degree_interpPoly_lt {xs : List F} (h : xs.Nodup) (ys : List F) : (interpPoly xs ys).degree < xs.length := by
  have hd := Lagrange.degree_interpolate_lt (node ys) (node_injOn h)
  rwa [Finset.card_range] at hd

theorem eval_interpPoly {xs : List F} (h : xs.Nodup) (ys : List F) {i : Nat} (hi : i < xs.length) :
    (interpPoly xs ys).eval (node xs i) = node ys i :=
  Lagrange.eval_interpolate_at_node (node ys) (node_injOn h) (Finset.mem_range.2 hi)

/-- **No other polynomial of so low a degree has these values.** -/
theorem eq_interpPoly {xs : List F} (h : xs.Nodup) {ys : List F} {P : F[X]} (hP : P.degree < xs.length)
    (hv : ∀ i < xs.length, P.eval (node xs i) = node ys i) : P = interpPoly xs ys :=
  Lagrange.eq_interpolate_of_eval_eq (node ys) (node_injOn h) (by rwa [Finset.card_range])
    (fun i hi => hv i (Finset.mem_range.1 hi))

/-- Two polynomials of low degree with the same values at distinct points are one. -/
theorem eq_of_map_eval {xs : List F} (h : xs.Nodup) {P Q : F[X]} (hP : P.degree < xs.length) (hQ : Q.degree < xs.length)
    (hv : xs.map (fun x => P.eval x) = xs.map (fun x => Q.eval x)) : P = Q := by
  classical
  have hcard : xs.toFinset.card = xs.length := List.toFinset_card_of_nodup h
  refine eq_of_degrees_lt_of_eval_finset_eq xs.toFinset (by rwa [hcard]) (by rwa [hcard]) (fun x hx => ?_)
  exact List.map_inj_left.1 hv x (List.mem_toFinset.1 hx)

/-! ## The series of the quotient -/

/-- A value over the derivative at its point. -/
noncomputable def residue (xs ys : List F) (i : Nat) : F :=
  node ys i * ((derivative (rootsPoly xs)).eval (node xs i))⁻¹

/-- The first coefficients of the series of `interpPoly` over `rootsPoly`. -/
noncomputable def seriesPoly (xs ys : List F) : F[X] :=
  ∑ i ∈ Finset.range xs.length,
    monomial i (-∑ l ∈ Finset.range xs.length, residue xs ys l * (node xs l)⁻¹ ^ (i + 1))

theorem coeff_seriesPoly (xs ys : List F) (i : Nat) : (seriesPoly xs ys).coeff i =
    if i < xs.length then -∑ l ∈ Finset.range xs.length, residue xs ys l * (node xs l)⁻¹ ^ (i + 1) else 0 := by
  rw [seriesPoly, finsetSum_coeff]
  simp only [coeff_monomial, Finset.sum_ite_eq', Finset.mem_range]

/-- The series of `1 / (X - v)`, cut at `k`. -/
theorem geom_mul_sub {v : F} (hv : v ≠ 0) : ∀ k : Nat,
    (∑ i ∈ Finset.range k, monomial i (-v⁻¹ ^ (i + 1))) * (X - C v) = 1 - C (v⁻¹ ^ k) * X ^ k
  | 0     => by simp
  | k + 1 => by
    have hvk : v⁻¹ ^ (k + 1) * v = v⁻¹ ^ k := by
      rw [pow_succ, mul_assoc, inv_mul_cancel₀ hv, mul_one]
    rw [Finset.sum_range_succ, add_mul, geom_mul_sub hv k, ← C_mul_X_pow_eq_monomial, C_neg, mul_sub]
    have hC : C (v⁻¹ ^ (k + 1)) * C v = C (v⁻¹ ^ k) := by rw [← C_mul, hvk]
    linear_combination X ^ k * hC

theorem interpPoly_eq_sum (xs ys : List F) :
    interpPoly xs ys = ∑ l ∈ Finset.range xs.length,
      C (residue xs ys l) * Lagrange.nodal ((Finset.range xs.length).erase l) (node xs) := by
  rw [interpPoly, Lagrange.interpolate_eq_nodalWeight_mul_nodal_div_X_sub_C]
  refine Finset.sum_congr rfl (fun l hl => ?_)
  rw [residue, Lagrange.nodalWeight_eq_eval_derivative_nodal hl, ← rootsPoly_eq_nodal,
    Lagrange.nodal_erase_eq_nodal_div hl, ← rootsPoly_eq_nodal, C_mul]
  ring

theorem seriesPoly_eq_sum (xs ys : List F) :
    seriesPoly xs ys = ∑ l ∈ Finset.range xs.length,
      C (residue xs ys l) * ∑ i ∈ Finset.range xs.length, monomial i (-(node xs l)⁻¹ ^ (i + 1)) := by
  simp only [seriesPoly, Finset.mul_sum, C_mul_monomial]
  rw [Finset.sum_comm]
  refine Finset.sum_congr rfl (fun i _ => ?_)
  rw [← map_sum, ← Finset.sum_neg_distrib]
  exact congrArg _ (Finset.sum_congr rfl (fun l _ => by ring))

/-- **The cut series times the polynomial of the points agrees with the interpolating polynomial** below the cut. -/
theorem coeff_seriesPoly_mul_rootsPoly {xs : List F} (h0 : ∀ x ∈ xs, x ≠ 0) (ys : List F) {i : Nat} (hi : i < xs.length) :
    (seriesPoly xs ys * rootsPoly xs).coeff i = (interpPoly xs ys).coeff i := by
  have hterm : ∀ l ∈ Finset.range xs.length,
      C (residue xs ys l) * (∑ i ∈ Finset.range xs.length, monomial i (-(node xs l)⁻¹ ^ (i + 1))) * rootsPoly xs
        = C (residue xs ys l) * Lagrange.nodal ((Finset.range xs.length).erase l) (node xs) - X ^ xs.length *
          (C (residue xs ys l) * C ((node xs l)⁻¹ ^ xs.length) * Lagrange.nodal ((Finset.range xs.length).erase l) (node xs)) :=
    fun l hl => by
      have hne : node xs l ≠ 0 := by
        have hl' := Finset.mem_range.1 hl
        rw [node, List.getD_eq_getElem _ _ hl']
        exact h0 _ (List.getElem_mem hl')
      rw [rootsPoly_eq_nodal, Lagrange.nodal_eq_mul_nodal_erase hl]
      linear_combination C (residue xs ys l) * Lagrange.nodal ((Finset.range xs.length).erase l) (node xs)
        * geom_mul_sub hne xs.length
  rw [seriesPoly_eq_sum, Finset.sum_mul, Finset.sum_congr rfl hterm, Finset.sum_sub_distrib, ← interpPoly_eq_sum,
    ← Finset.mul_sum, coeff_sub, coeff_X_pow_mul', if_neg (by omega), sub_zero]

end

end Interpolation
