import Dpid.Interpolation
import Mathlib.Algebra.Polynomial.FieldDivision
import Mathlib.Algebra.Polynomial.RingDivision
/-!
# PartialEuclid — the Euclidean algorithm stopped at a degree, and what it finds

The algorithm runs on the polynomial of `n` points and the one through `n` values.  Stopped below the degree `T` it has
`g = u g0 + v g1` with `v` of degree at most `n - T` (`Stopped`).  A polynomial that takes most of the values is then `g`
over `v` (`Stopped.eq_mul`), and the roots of `v` are the places where it does not (`Stopped.root_iff`).
-/
namespace PartialEuclid

open Polynomial Interpolation

section

variable {F : Type} [Field F] {g0 g1 : F[X]}

/-! ## The algorithm -/

/-- Two remainders in a row, with their cofactors. -/
structure Rows (g0 g1 r0 r1 s0 s1 t0 t1 : F[X]) : Prop where
  bezout0 : r0 = s0 * g0 + t0 * g1
  bezout1 : r1 = s1 * g0 + t1 * g1
  det : IsUnit (s0 * t1 - s1 * t0)
  r_lt : r1.degree < r0.degree
  t_lt : t0.degree < t1.degree
  deg : t1.natDegree + r0.natDegree = g0.natDegree

theorem Rows.start (h : g1.degree < g0.degree) : Rows g0 g1 g0 g1 1 0 0 1 where
  bezout0 := by ring
  bezout1 := by ring
  det := by simp
  r_lt := h
  t_lt := by simp
  deg := by simp

variable {r0 r1 r2 q s0 s1 t0 t1 : F[X]}

/-- The degree the quotient adds to the cofactor is the one it takes from the remainder. -/
theorem Rows.natDegree_next (h : Rows g0 g1 r0 r1 s0 s1 t0 t1) (hq : r0 = q * r1 + r2) (hlt : r2.degree < r1.degree) :
    t1.degree < (t0 - q * t1).degree ∧ (t0 - q * t1).natDegree + r1.natDegree = g0.natDegree := by
  have hr1 : r1 ≠ 0 := fun h0 => by simp [h0] at hlt
  have ht1 : t1 ≠ 0 := fun h0 => by simpa [h0] using h.t_lt
  have hq0 : q ≠ 0 := fun h0 => by
    rw [h0, zero_mul, zero_add] at hq
    exact absurd (hq ▸ h.r_lt) (not_lt_of_gt hlt)
  have hr0 : r0.natDegree = q.natDegree + r1.natDegree := by
    rw [← natDegree_mul hq0 hr1, hq]
    refine natDegree_add_eq_left_of_degree_lt (hlt.trans_le ?_)
    rw [degree_mul]
    exact le_add_of_nonneg_left (zero_le_degree_iff.2 hq0)
  have hqpos : 0 < q.natDegree := by
    have := natDegree_lt_natDegree hr1 h.r_lt
    omega
  have hsmall : t0.degree < (q * t1).degree := by
    refine h.t_lt.trans_le ?_
    rw [degree_mul]
    exact le_add_of_nonneg_left (zero_le_degree_iff.2 hq0)
  have hdeg : (t0 - q * t1).degree = (q * t1).degree := degree_sub_eq_right_of_degree_lt hsmall
  have hnat : (t0 - q * t1).natDegree = q.natDegree + t1.natDegree := by
    rw [natDegree_eq_of_degree_eq hdeg, natDegree_mul hq0 ht1]
  constructor
  · rw [hdeg, degree_eq_natDegree ht1, degree_eq_natDegree (mul_ne_zero hq0 ht1), natDegree_mul hq0 ht1, Nat.cast_lt]
    omega
  · have := h.deg
    omega

/-- **One division.** -/
theorem Rows.step (h : Rows g0 g1 r0 r1 s0 s1 t0 t1) (hq : r0 = q * r1 + r2) (hlt : r2.degree < r1.degree) :
    Rows g0 g1 r1 r2 s1 (s0 - q * s1) t1 (t0 - q * t1) where
  bezout0 := h.bezout1
  bezout1 := by
    have h2 : r2 = r0 - q * r1 := by rw [hq]; ring
    rw [h2, h.bezout0]
    nth_rewrite 1 [h.bezout1]
    ring
  det := by
    have hd : s1 * (t0 - q * t1) - (s0 - q * s1) * t1 = -(s0 * t1 - s1 * t0) := by ring
    rw [hd]
    exact h.det.neg
  r_lt := hlt
  t_lt := (h.natDegree_next hq hlt).1
  deg := (h.natDegree_next hq hlt).2

/-- What the algorithm has when it stops below `T`. -/
structure Stopped (g0 g1 : F[X]) (T : Nat) (g u v : F[X]) : Prop where
  bezout : g = u * g0 + v * g1
  deg_lt : g.degree < T
  v_ne : v ≠ 0
  deg_v : v.natDegree + T ≤ g0.natDegree
  coprime : IsCoprime u v

/-- **It stops** at the first remainder below `T`. -/
theorem Rows.stopped {T : Nat} (h : Rows g0 g1 r0 r1 s0 s1 t0 t1) (h0 : (T : WithBot ℕ) ≤ r0.degree)
    (h1 : r1.degree < T) : Stopped g0 g1 T r1 s1 t1 where
  bezout := h.bezout1
  deg_lt := h1
  v_ne := fun h0 => by simpa [h0] using h.t_lt
  deg_v := by
    have := le_natDegree_of_coe_le_degree h0
    have := h.deg
    omega
  coprime := by
    obtain ⟨e, he⟩ := h.det.exists_left_inv
    exact ⟨-(e * t0), e * s0, by rw [← he]; ring⟩

end

/-! ## Places where a polynomial has other values -/

section

variable {F : Type} [Field F] [DecidableEq F]

/-- The places where `f` does not take the value. -/
def errors (xs ys : List F) (f : F[X]) : Finset Nat :=
  (Finset.range xs.length).filter (fun i => f.eval (node xs i) ≠ node ys i)

omit [DecidableEq F] in
/-- A polynomial that vanishes at some of the points is a multiple of the one that vanishes just there. -/
theorem nodal_dvd {xs : List F} (h : xs.Nodup) {s : Finset Nat} (hs : s ⊆ Finset.range xs.length) {P : F[X]}
    (hP : ∀ i ∈ s, P.eval (node xs i) = 0) : Lagrange.nodal s (node xs) ∣ P := by
  refine Finset.prod_dvd_of_coprime (fun i hi j hj hij => ?_) (fun i hi => dvd_iff_isRoot.2 (hP i hi))
  refine isCoprime_X_sub_C_of_isUnit_sub (sub_ne_zero.2 (fun he => hij ?_)).isUnit
  exact node_injOn h (hs hi) (hs hj) he

/-- **Two polynomials below the degree `k`** that err in few places are one. -/
theorem eq_of_errors_card {xs ys : List F} (h : xs.Nodup) {k : Nat} {f f' : F[X]} (hf : f.degree < k)
    (hf' : f'.degree < k) (hc : (errors xs ys f).card + (errors xs ys f').card + k ≤ xs.length) : f = f' := by
  have hcard : k ≤ (Finset.range xs.length \ (errors xs ys f ∪ errors xs ys f')).card := by
    have h1 := Finset.le_card_sdiff (errors xs ys f ∪ errors xs ys f') (Finset.range xs.length)
    have h2 := Finset.card_union_le (errors xs ys f) (errors xs ys f')
    rw [Finset.card_range] at h1
    omega
  have hinj : Set.InjOn (node xs) (Finset.range xs.length \ (errors xs ys f ∪ errors xs ys f') : Finset Nat) :=
    (node_injOn h).mono (fun i hi => (Finset.mem_sdiff.1 hi).1)
  have hle : (k : WithBot ℕ) ≤ ((Finset.range xs.length \ (errors xs ys f ∪ errors xs ys f')).card : Nat) :=
    Nat.cast_le.2 hcard
  refine eq_of_degrees_lt_of_eval_index_eq _ hinj (hf.trans_le hle) (hf'.trans_le hle) (fun i hi => ?_)
  obtain ⟨hir, hin⟩ := Finset.mem_sdiff.1 hi
  have hi1 : f.eval (node xs i) = node ys i := by
    by_contra hne
    exact hin (Finset.mem_union_left _ (Finset.mem_filter.2 ⟨hir, hne⟩))
  have hi2 : f'.eval (node xs i) = node ys i := by
    by_contra hne
    exact hin (Finset.mem_union_right _ (Finset.mem_filter.2 ⟨hir, hne⟩))
  rw [hi1, hi2]

variable {xs ys : List F} {T : Nat} {g u v f : F[X]}

omit [DecidableEq F] in
theorem Stopped.eval_eq (hs : Stopped (rootsPoly xs) (interpPoly xs ys) T g u v) (h : xs.Nodup) {i : Nat}
    (hi : i < xs.length) : g.eval (node xs i) = v.eval (node xs i) * node ys i := by
  have hroot : (rootsPoly xs).eval (node xs i) = 0 := by
    rw [eval_rootsPoly, node, List.getD_eq_getElem _ _ hi]
    exact List.getElem_mem hi
  rw [hs.bezout, eval_add, eval_mul, eval_mul, hroot, eval_interpPoly h ys hi, mul_zero, zero_add]

/-- **A polynomial that errs in few places** is `g` over `v`. -/
theorem Stopped.eq_mul (hs : Stopped (rootsPoly xs) (interpPoly xs ys) T g u v) (h : xs.Nodup) {d : Nat}
    (hf : f.degree < d) (hd : (errors xs ys f).card + d ≤ T) (hT : (errors xs ys f).card + T ≤ xs.length) :
    g = v * f := by
  have hsub : errors xs ys f ⊆ Finset.range xs.length := Finset.filter_subset _ _
  -- `g - v f` vanishes at the places without error, so with the polynomial of the errors at all of them
  have hdvd : rootsPoly xs ∣ Lagrange.nodal (errors xs ys f) (node xs) * (g - v * f) := by
    rw [rootsPoly_eq_nodal]
    refine nodal_dvd h (Finset.Subset.refl _) (fun i hi => ?_)
    rw [eval_mul]
    by_cases he : i ∈ errors xs ys f
    · rw [Lagrange.eval_nodal_at_node he, zero_mul]
    · have hv : f.eval (node xs i) = node ys i := by
        by_contra hne
        exact he (Finset.mem_filter.2 ⟨hi, hne⟩)
      rw [eval_sub, eval_mul, hv, hs.eval_eq h (Finset.mem_range.1 hi), sub_self, mul_zero]
  have hdeg : (Lagrange.nodal (errors xs ys f) (node xs) * (g - v * f)).degree < (rootsPoly xs).degree := by
    have hv := hs.deg_v
    rw [natDegree_rootsPoly] at hv
    have hg : (g - v * f).degree < ((xs.length - (errors xs ys f).card : Nat) : WithBot ℕ) := by
      refine lt_of_le_of_lt (degree_sub_le _ _) (max_lt (hs.deg_lt.trans_le (Nat.cast_le.2 (by omega))) ?_)
      rcases eq_or_ne f 0 with h0 | h0
      · rw [h0, mul_zero, degree_zero]
        exact WithBot.bot_lt_coe _
      · rw [degree_eq_natDegree h0, Nat.cast_lt] at hf
        rw [degree_eq_natDegree (mul_ne_zero hs.v_ne h0), natDegree_mul hs.v_ne h0, Nat.cast_lt]
        omega
    rcases eq_or_ne (g - v * f) 0 with h0 | h0
    · rw [h0, mul_zero, degree_zero, degree_rootsPoly]
      exact WithBot.bot_lt_coe _
    · rw [degree_eq_natDegree h0, Nat.cast_lt] at hg
      rw [degree_mul, Lagrange.degree_nodal, degree_eq_natDegree h0, degree_rootsPoly, ← Nat.cast_add, Nat.cast_lt]
      omega
  have hzero := eq_zero_of_dvd_of_degree_lt hdvd hdeg
  exact sub_eq_zero.1 ((mul_eq_zero.1 hzero).resolve_left Lagrange.nodal_ne_zero)

/-- **The roots of `v` are the errors** of the polynomial it leads to. -/
theorem Stopped.root_iff (hs : Stopped (rootsPoly xs) (interpPoly xs ys) T g u v) (h : xs.Nodup) (hg : g = v * f) {i : Nat}
    (hi : i < xs.length) : v.eval (node xs i) = 0 ↔ f.eval (node xs i) ≠ node ys i := by
  have he := hs.eval_eq h hi
  rw [hg, eval_mul] at he
  constructor
  · intro hv hf
    -- `u g0 = v (f - g1)` has a double root there and `g0` a simple one, so `u` has it too
    have hroot : (rootsPoly xs).eval (node xs i) = 0 := by
      rw [eval_rootsPoly, node, List.getD_eq_getElem _ _ hi]
      exact List.getElem_mem hi
    have hid : u * rootsPoly xs = v * (f - interpPoly xs ys) := by
      rw [mul_sub, ← hg, hs.bezout]
      ring
    have hder := congrArg (fun P => (derivative P).eval (node xs i)) hid
    simp only [derivative_mul, eval_add, eval_mul, eval_sub, hroot, hv, hf, eval_interpPoly h ys hi, mul_zero, zero_mul,
      sub_self, add_zero, zero_add] at hder
    have hu : u.eval (node xs i) = 0 := (mul_eq_zero.1 hder).resolve_right (eval_derivative_ne_zero h hi)
    obtain ⟨a, b, hab⟩ := hs.coprime
    have h1 := congrArg (fun P => P.eval (node xs i)) hab
    simp [hu, hv] at h1
  · intro hf
    by_contra hv
    exact hf (mul_left_cancel₀ hv he)

theorem Stopped.card_errors_le (hs : Stopped (rootsPoly xs) (interpPoly xs ys) T g u v) (h : xs.Nodup) (hg : g = v * f) :
    (errors xs ys f).card ≤ v.natDegree := by
  have hdvd : Lagrange.nodal (errors xs ys f) (node xs) ∣ v := nodal_dvd h (Finset.filter_subset _ _) (fun i hi => by
    obtain ⟨hir, hne⟩ := Finset.mem_filter.1 hi
    exact (hs.root_iff h hg (Finset.mem_range.1 hir)).2 hne)
  have hd := natDegree_le_of_dvd hdvd hs.v_ne
  rwa [Lagrange.natDegree_nodal] at hd

end

end PartialEuclid
