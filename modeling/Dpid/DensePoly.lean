import Mathlib.Algebra.Polynomial.Degree.Lemmas
import Mathlib.Algebra.Polynomial.Eval.Degree
import Mathlib.Data.List.DropRight
import Mathlib.Data.List.GetD
import Mathlib.Tactic.Ring
/-!
# DensePoly — polynomials as lists of coefficients

A list of coefficients stands for a polynomial (`listPoly`), trailing zeros and all; `DensePoly` is the list without them,
one for each polynomial (`DensePoly.toPoly_injective`).
-/
open Polynomial

namespace CoeffList

section

variable {F : Type} [CommRing F]

/-- The polynomial with these coefficients, the constant one first. -/
noncomputable def listPoly (l : List F) : F[X] := ∑ i ∈ Finset.range l.length, monomial i (l.getD i 0)

@[simp] theorem coeff_listPoly (l : List F) (i : Nat) : (listPoly l).coeff i = l.getD i 0 := by
  rw [listPoly, finsetSum_coeff]
  simp only [coeff_monomial, Finset.sum_ite_eq', Finset.mem_range]
  split
  · rfl
  · rename_i h
    exact (List.getD_eq_default l 0 (Nat.le_of_not_lt h)).symm

theorem degree_listPoly_lt (l : List F) : (listPoly l).degree < l.length := by
  rw [degree_lt_iff_coeff_zero]
  intro i hi
  rw [coeff_listPoly, List.getD_eq_default l 0 hi]

theorem eval_listPoly {l : List F} {n : Nat} (h : l.length ≤ n) (x : F) :
    (listPoly l).eval x = ∑ i ∈ Finset.range n, l.getD i 0 * x ^ i := by
  rcases Nat.eq_zero_or_pos n with rfl | hn
  · have hl : l = [] := List.length_eq_zero_iff.1 (Nat.le_zero.1 h)
    simp [hl, listPoly]
  have hd : (listPoly l).natDegree < n := by
    rcases eq_or_ne (listPoly l) 0 with h0 | h0
    · simpa [h0] using hn
    · have hlt := (degree_listPoly_lt l).trans_le (Nat.cast_le.2 h)
      rwa [degree_eq_natDegree h0, Nat.cast_lt] at hlt
  rw [eval_eq_sum_range' hd]
  exact Finset.sum_congr rfl (fun i _ => by rw [coeff_listPoly])

theorem getD_map_range (f : Nat → F) {n i : Nat} (h : i < n) : ((List.range n).map f).getD i 0 = f i := by
  simp [List.getD_eq_getElem?_getD, h]

theorem getD_set (l : List F) {i : Nat} (hi : i < l.length) (x : F) (j : Nat) :
    (l.set i x).getD j 0 = if i = j then x else l.getD j 0 := by
  rw [List.getD_eq_getElem?_getD, List.getElem?_set]
  split
  · rfl
  · rw [List.getD_eq_getElem?_getD]

theorem take_eq_map_range {l : List F} {f : Nat → F} {k : Nat} (hk : k ≤ l.length)
    (h : ∀ i < k, l.getD i 0 = f i) : l.take k = (List.range k).map f := by
  refine List.ext_getElem (by simp [hk]) (fun i h₁ h₂ => ?_)
  have hi : i < l.length := by simp at h₁; omega
  have := h i (by simpa using h₂)
  simpa [List.getD_eq_getElem?_getD, hi] using this

theorem sum_zipWith_range (g : Nat → F) {a : List F} {n : Nat} (ha : a.length = n) :
    (List.zipWith (· * ·) ((List.range n).map g) a).sum = ∑ i ∈ Finset.range n, g i * a.getD i 0 := by
  have hz : List.zipWith (· * ·) ((List.range n).map g) a = (List.range n).map fun i => g i * a.getD i 0 := by
    refine List.ext_getElem (by simp [ha]) (fun i h₁ h₂ => ?_)
    have hi : i < a.length := by simp [ha] at h₁; omega
    simp [List.getD_eq_getElem?_getD, hi]
  rw [hz]
  rfl

theorem sum_range_even_odd (f : Nat → F) : ∀ n : Nat,
    ∑ i ∈ Finset.range (2 * n), f i = ∑ i ∈ Finset.range n, f (2 * i) + ∑ i ∈ Finset.range n, f (2 * i + 1)
  | 0     => by simp
  | n + 1 => by
    rw [Nat.mul_succ, Finset.sum_range_succ, Finset.sum_range_succ, sum_range_even_odd f n, Finset.sum_range_succ,
      Finset.sum_range_succ]
    ring

/-- **A polynomial at `x` from its even and its odd coefficients at the square of `x`.** -/
theorem eval_listPoly_even_odd {a : List F} {h : Nat} (ha : a.length ≤ 2 * h) (x : F) :
    (listPoly a).eval x = (listPoly ((List.range h).map fun k => a.getD (2 * k) 0)).eval (x * x)
      + x * (listPoly ((List.range h).map fun k => a.getD (2 * k + 1) 0)).eval (x * x) := by
  rw [eval_listPoly ha, sum_range_even_odd, eval_listPoly (n := h) (by simp), eval_listPoly (n := h) (by simp),
    Finset.mul_sum]
  congr 1
  · refine Finset.sum_congr rfl (fun i hi => ?_)
    rw [getD_map_range _ (Finset.mem_range.1 hi), pow_mul, pow_two]
  · refine Finset.sum_congr rfl (fun i hi => ?_)
    rw [getD_map_range _ (Finset.mem_range.1 hi), pow_succ, pow_mul, pow_two]
    ring

/-- A polynomial is read back from enough of its coefficients. -/
theorem listPoly_map_coeff {P : F[X]} {n : Nat} (h : P.degree < n) :
    listPoly ((List.range n).map P.coeff) = P := by
  ext i
  rw [coeff_listPoly]
  rcases Nat.lt_or_ge i n with hi | hi
  · simp [List.getD_eq_getElem?_getD, hi]
  · rw [List.getD_eq_default _ _ (by simpa using hi), (degree_lt_iff_coeff_zero P n).1 h i hi]

theorem listPoly_inj {l l' : List F} (hl : l.length = l'.length) (h : listPoly l = listPoly l') : l = l' := by
  refine List.ext_getElem hl (fun i hi hi' => ?_)
  have hc := congrArg (fun P => P.coeff i) h
  simpa [coeff_listPoly, List.getD_eq_getElem?_getD, hi, hi'] using hc

theorem listPoly_pad {l : List F} {n : Nat} (h : l.length ≤ n) :
    listPoly ((List.range n).map fun i => l.getD i 0) = listPoly l := by
  ext i
  rw [coeff_listPoly, coeff_listPoly]
  rcases Nat.lt_or_ge i n with hi | hi
  · rw [getD_map_range _ hi]
  · rw [List.getD_eq_default _ _ (by simpa using hi), List.getD_eq_default _ _ (by omega)]

theorem eval_listPoly_set {l : List F} {z : Nat} (hz : z < l.length) (h0 : l.getD z 0 = 0) (v x : F) :
    (listPoly (l.set z v)).eval x = (listPoly l).eval x + v * x ^ z := by
  rw [eval_listPoly (n := l.length) (by simp), eval_listPoly (Nat.le_refl _), ← sub_eq_iff_eq_add',
    ← Finset.sum_sub_distrib, Finset.sum_eq_single z]
  · rw [getD_set l hz, if_pos rfl, h0, zero_mul, sub_zero]
  · intro j _ hj
    rw [getD_set l hz, if_neg hj.symm, sub_self]
  · intro hn
    exact absurd (Finset.mem_range.2 hz) hn

theorem eval_foldl_set (x : F) : ∀ {pairs : List (Nat × F)} {l : List F}, (pairs.map Prod.fst).Nodup →
    (∀ zv ∈ pairs, zv.1 < l.length ∧ l.getD zv.1 0 = 0) →
    (listPoly (pairs.foldl (fun N zv => N.set zv.1 zv.2) l)).eval x =
      (listPoly l).eval x + (pairs.map fun zv => zv.2 * x ^ zv.1).sum
  | [], l, _, _           => by simp
  | zv :: pairs, l, hnd, h => by
    rw [List.map_cons, List.nodup_cons] at hnd
    obtain ⟨hz, h0⟩ := h zv List.mem_cons_self
    rw [List.foldl_cons, eval_foldl_set x hnd.2, eval_listPoly_set hz h0, List.map_cons, List.sum_cons, add_assoc]
    intro zv' hm
    obtain ⟨hz', h0'⟩ := h zv' (List.mem_cons_of_mem _ hm)
    have hne : zv.1 ≠ zv'.1 := fun he => hnd.1 (he ▸ List.mem_map_of_mem hm)
    exact ⟨by simpa using hz', by rw [getD_set l hz, if_neg hne, h0']⟩

omit [CommRing F] in
theorem length_foldl_set : ∀ (pairs : List (Nat × F)) (l : List F),
    (pairs.foldl (fun N zv => N.set zv.1 zv.2) l).length = l.length
  | [], _           => rfl
  | zv :: pairs, l => by rw [List.foldl_cons, length_foldl_set pairs, List.length_set]

end

theorem getD_rdropWhile {F : Type} [Zero F] [DecidableEq F] (l : List F) (i : Nat) :
    (l.rdropWhile (fun a => decide (a = 0))).getD i 0 = l.getD i 0 := by
  induction l using List.reverseRecOn with
  | nil => simp
  | append_singleton l a ih =>
    rw [List.rdropWhile_concat]
    split
    · rename_i ha
      have h0 : a = 0 := by simpa using ha
      rw [ih, h0]
      rcases Nat.lt_or_ge i l.length with hi | hi
      · rw [List.getD_append _ _ _ _ hi]
      · rw [List.getD_append_right _ _ _ _ hi, List.getD_eq_default _ _ hi]
        rcases Nat.eq_zero_or_pos (i - l.length) with hz | hz
        · rw [hz, List.getD_cons_zero]
        · rw [List.getD_eq_default _ _ (by simp only [List.length_singleton]; omega)]
    · rfl

end CoeffList

open CoeffList

/-! ## Lists without trailing zeros -/

/-- The coefficients of a polynomial; the last one is not zero. -/
structure DensePoly (F : Type) [Zero F] where
  coeffs : List F
  normal : coeffs.getLast? ≠ some 0

namespace DensePoly

section

variable {F : Type} [CommRing F]

def coeff (p : DensePoly F) (i : Nat) : F := p.coeffs.getD i 0

/-- The degree; `-1` of the zero polynomial. -/
def deg (p : DensePoly F) : Int := (p.coeffs.length : Int) - 1

def isZero (p : DensePoly F) : Bool := p.coeffs.isEmpty

def zero : DensePoly F := ⟨[], by simp⟩

/-- The first coefficients of a list up to the last that is not zero. -/
def ofList [DecidableEq F] (l : List F) : DensePoly F :=
  ⟨l.rdropWhile (fun a => decide (a = 0)), fun h => by
    rcases List.eq_nil_or_concat (l.rdropWhile (fun a => decide (a = 0))) with h0 | ⟨l', a, ha⟩
    · simp [h0] at h
    · have hne : l.rdropWhile (fun a => decide (a = 0)) ≠ [] := by simp [ha]
      have hlast := List.rdropWhile_last_not (fun a => decide (a = 0)) l hne
      rw [List.getLast?_eq_some_getLast hne] at h
      exact hlast (by simpa using h)⟩

noncomputable def toPoly (p : DensePoly F) : F[X] := listPoly p.coeffs

@[simp] theorem coeff_toPoly (p : DensePoly F) (i : Nat) : p.toPoly.coeff i = p.coeff i := coeff_listPoly _ i

@[simp] theorem toPoly_zero : (zero : DensePoly F).toPoly = 0 := by
  ext i
  simp [coeff, zero]

/-- The last coefficient is the leading one. -/
theorem coeff_length_ne_zero (p : DensePoly F) (h : p.coeffs ≠ []) : p.coeff (p.coeffs.length - 1) ≠ 0 := by
  have hl : 0 < p.coeffs.length := List.length_pos_iff.2 h
  intro h0
  refine p.normal ?_
  rw [coeff, List.getD_eq_getElem?_getD, List.getElem?_eq_getElem (by omega), Option.getD_some] at h0
  rw [List.getLast?_eq_getElem?, List.getElem?_eq_getElem (by omega), h0]

theorem length_le_iff (p : DensePoly F) (n : Nat) : p.coeffs.length ≤ n ↔ p.toPoly.degree < n := by
  constructor
  · intro h
    exact (degree_listPoly_lt _).trans_le (Nat.cast_le.2 h)
  · intro h
    by_contra hn
    have hne : p.coeffs ≠ [] := by
      rintro h0
      simp [h0] at hn
    refine p.coeff_length_ne_zero hne ?_
    rw [← coeff_toPoly]
    exact (degree_lt_iff_coeff_zero _ n).1 h _ (by omega)

theorem deg_lt_iff (p : DensePoly F) (n : Nat) : p.deg < n ↔ p.toPoly.degree < n := by
  rw [← length_le_iff, deg]
  omega

theorem toPoly_injective : Function.Injective (toPoly : DensePoly F → F[X]) := by
  intro p q h
  have hl : p.coeffs.length = q.coeffs.length :=
    Nat.le_antisymm ((length_le_iff p _).2 (h ▸ (length_le_iff q _).1 (Nat.le_refl _)))
      ((length_le_iff q _).2 (h ▸ (length_le_iff p _).1 (Nat.le_refl _)))
  have hc := listPoly_inj hl h
  cases p
  cases q
  cases hc
  rfl

theorem isZero_iff (p : DensePoly F) : p.isZero = true ↔ p.toPoly = 0 := by
  rw [isZero, List.isEmpty_iff, ← List.length_eq_zero_iff, ← Nat.le_zero, length_le_iff]
  simp [← degree_eq_bot, Nat.WithBot.lt_zero_iff]

theorem natDegree_toPoly {p : DensePoly F} (h : p.toPoly ≠ 0) : p.coeffs.length = p.toPoly.natDegree + 1 := by
  have h1 := (length_le_iff p (p.toPoly.natDegree + 1)).2 (by
    rw [degree_eq_natDegree h, Nat.cast_lt]
    omega)
  have h2 := (length_le_iff p p.coeffs.length).1 (Nat.le_refl _)
  rw [degree_eq_natDegree h, Nat.cast_lt] at h2
  omega

theorem length_lt_of_degree_lt {p q : DensePoly F} (h : p.toPoly.degree < q.toPoly.degree) :
    p.coeffs.length < q.coeffs.length := by
  have hq : q.toPoly ≠ 0 := fun h0 => by simp [h0] at h
  have hlq := natDegree_toPoly hq
  rcases eq_or_ne p.toPoly 0 with h0 | h0
  · have hlp := (isZero_iff p).2 h0
    rw [isZero, List.isEmpty_iff] at hlp
    rw [hlp, hlq]
    exact Nat.succ_pos _
  · have hlp := natDegree_toPoly h0
    have := natDegree_lt_natDegree h0 h
    omega

@[simp] theorem toPoly_ofList [DecidableEq F] (l : List F) : (ofList l).toPoly = listPoly l := by
  ext i
  rw [coeff_toPoly, coeff_listPoly, coeff, ofList, getD_rdropWhile]

/-- The list of a polynomial. -/
noncomputable def ofPoly [DecidableEq F] (P : F[X]) : DensePoly F :=
  ofList ((List.range (P.natDegree + 1)).map P.coeff)

@[simp] theorem toPoly_ofPoly [DecidableEq F] (P : F[X]) : (ofPoly P).toPoly = P := by
  rw [ofPoly, toPoly_ofList, listPoly_map_coeff]
  exact lt_of_le_of_lt degree_le_natDegree (Nat.cast_lt.2 (Nat.lt_succ_self _))

end

end DensePoly
