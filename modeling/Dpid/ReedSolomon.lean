import Mathlib.LinearAlgebra.Lagrange
/-!
# ReedSolomon — evaluation codes recover a word from any of its large enough parts

Over a field `F` with points `v 0, v 1, …`, a word of `k` symbols is the polynomial of degree below `k` with these
values at the first `k` points, and its code symbols are that polynomial's values at all points.  Any `k` code symbols
determine it (`recover_codeSymbol`), the first `k` are the word (`codeSymbol_of_lt`), and a constant word has constant
symbols (`codeSymbol_const`).
-/
namespace ReedSolomon

open Polynomial Finset

variable {F : Type*} [Field F] (v : ℕ → F)

/-- The word `d 0, …, d (k - 1)` as a polynomial. -/
noncomputable def wordPoly (k : ℕ) (d : ℕ → F) : F[X] := Lagrange.interpolate (range k) v d

/-- The code symbol at position `i`. -/
noncomputable def codeSymbol (k : ℕ) (d : ℕ → F) (i : ℕ) : F := (wordPoly v k d).eval (v i)

/-- The word's symbol `j`, from the code symbols `r` at the positions `s`. -/
noncomputable def recover (s : Finset ℕ) (r : ℕ → F) (j : ℕ) : F := (Lagrange.interpolate s v r).eval (v j)

variable {v}

theorem codeSymbol_of_lt {k : ℕ} (hv : Set.InjOn v (range k)) (d : ℕ → F) {j : ℕ} (hj : j < k) :
    codeSymbol v k d j = d j :=
  Lagrange.eval_interpolate_at_node d hv (mem_range.2 hj)

theorem codeSymbol_const {k : ℕ} (hk : 1 ≤ k) (hv : Set.InjOn v (range k)) {d : ℕ → F} {a : F} (hd : ∀ j < k, d j = a)
    (i : ℕ) : codeSymbol v k d i = a := by
  have hcard : #(range k) = k := card_range k
  have hC : C a = wordPoly v k d := by
    refine Lagrange.eq_interpolate_of_eval_eq _ hv ?_ (fun j hj => ?_)
    · rw [hcard]
      exact lt_of_le_of_lt degree_C_le (by exact_mod_cast hk)
    · rw [eval_C, hd j (mem_range.1 hj)]
  rw [codeSymbol, ← hC, eval_C]

/-- **Any `k` code symbols give the word back.** -/
theorem recover_codeSymbol {n k : ℕ} (hv : Set.InjOn v (range n)) (hkn : k ≤ n) (d r : ℕ → F) {s : Finset ℕ}
    (hs : s ⊆ range n) (hcard : #s = k) (hr : ∀ i ∈ s, r i = codeSymbol v k d i) {j : ℕ} (hj : j < k) :
    recover v s r j = d j := by
  have hvk : Set.InjOn v (range k) := hv.mono (by simpa using hkn)
  have hdeg : (wordPoly v k d).degree < #s := by
    rw [hcard]
    have := Lagrange.degree_interpolate_lt d hvk
    rwa [card_range] at this
  have hp : wordPoly v k d = Lagrange.interpolate s v r :=
    Lagrange.eq_interpolate_of_eval_eq r (hv.mono (by exact_mod_cast hs)) hdeg (fun i hi => (hr i hi).symm)
  rw [recover, ← hp]
  exact codeSymbol_of_lt hvk d hj

end ReedSolomon
