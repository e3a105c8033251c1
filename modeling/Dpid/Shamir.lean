import Mathlib
/-!
# Shamir — shares of a secret and what any `k` of them determine

A secret is `P 0` of a polynomial `P` of degree below `k`, the share of `i` is `P` at the node `v i`.  The shares may act
on an element `h` of a module, so that `k` of the `P (v i) • h` give `P 0 • h` without giving `P 0`.
-/
namespace Shamir

open Polynomial

variable {F ι : Type} [Field F] [DecidableEq ι]

/-- The weight of the share of `j` among those of `S`. -/
def weight (S : Finset ι) (v : ι → F) (j : ι) : F := (∏ i ∈ S.erase j, (0 - v i)) / ∏ i ∈ S.erase j, (v j - v i)

theorem weight_eq (S : Finset ι) (v : ι → F) (j : ι) : weight S v j = (Lagrange.basis S v j).eval 0 := by
  unfold weight Lagrange.basis Lagrange.basisDivisor
  rw [eval_prod, ← Finset.prod_div_distrib]
  refine Finset.prod_congr rfl (fun i _ => ?_)
  rw [eval_mul, eval_C, eval_sub, eval_X, eval_C, div_eq_inv_mul]

theorem sum_weight {S : Finset ι} {v : ι → F} (hv : Set.InjOn v S) {P : F[X]} (hP : P.degree < S.card) :
    ∑ j ∈ S, weight S v j * P.eval (v j) = P.eval 0 := by
  conv_rhs => rw [Lagrange.eq_interpolate hv hP]
  rw [Lagrange.interpolate_apply, eval_finsetSum]
  refine Finset.sum_congr rfl (fun j _ => ?_)
  rw [eval_mul, eval_C, weight_eq, mul_comm]

/-- **Shares that act on an element** combine to the secret acting on it. -/
theorem sum_weight_smul {G : Type} [AddCommGroup G] [Module F G] {S : Finset ι} {v : ι → F} (hv : Set.InjOn v S) {P : F[X]}
    (hP : P.degree < S.card) (h : G) : ∑ j ∈ S, weight S v j • (P.eval (v j) • h) = P.eval 0 • h := by
  rw [← sum_weight hv hP, Finset.sum_smul]
  exact Finset.sum_congr rfl (fun j _ => smul_smul _ _ _)

/-! ## Coefficients -/

/-- The polynomial with the coefficients `a`, the constant one first. -/
noncomputable def poly : List F → F[X]
  | []     => 0
  | c :: a => C c + X * poly a

@[simp] theorem eval_poly_nil (x : F) : (poly ([] : List F)).eval x = 0 := eval_zero

@[simp] theorem eval_poly_cons (c : F) (a : List F) (x : F) : (poly (c :: a)).eval x = c + x * (poly a).eval x := by
  rw [poly, eval_add, eval_C, eval_mul, eval_X]

theorem degree_poly_lt (a : List F) : (poly a).degree < a.length := by
  induction a with
  | nil => simp [poly]
  | cons c a ih =>
    rw [degree_lt_iff_coeff_zero] at ih ⊢
    intro m hm
    cases m with
    | zero   => simp at hm
    | succ m =>
      rw [poly, coeff_add, coeff_C_succ, zero_add, coeff_X_mul]
      exact ih m (by simpa using hm)

end Shamir
