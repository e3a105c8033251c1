import Dpid.FntDecode
import Dpid.PartialEuclid
/-!
# Gao — decoding with errors (`ntl/rsdecode_impl.h`, `ntl/hbmpc_ntl_helpers.pyx`)

The Euclidean algorithm on the polynomial of the points and the one through the values stops below degree `(n + k) / 2`;
the remainder over its cofactor is the answer, if the division leaves nothing and the degree is below `k`.
-/
namespace Dpid
namespace Ntl

open Polynomial CoeffList Interpolation PartialEuclid

section

variable {F : Type} [CommRing F] [DecidableEq F]

/-! ## `partial_gcd` -/

/-- The loop; it divides no more often than `r1` has coefficients. -/
def partialGcdLoop (N : ZZpX F) (threshold : Nat) : Nat → (r0 r1 s0 s1 t0 t1 : DensePoly F) →
    Option (DensePoly F × DensePoly F × DensePoly F)
  | 0, _, _, _, _, _, _                => none
  | turns + 1, r0, r1, s0, s1, t0, t1 => do
    let (q, r2) ← N.divRem r0 r1
    let s2 := N.sub s0 (N.mul q s1)
    let t2 := N.sub t0 (N.mul q t1)
    if r2.deg < threshold then some (r2, s2, t2)
    else partialGcdLoop N threshold turns r1 r2 s1 s2 t1 t2

/-- `partial_gcd`: `r`, `u` and `v`. -/
def partialGcd (N : ZZpX F) (p0 p1 : DensePoly F) (threshold : Nat) :
    Option (DensePoly F × DensePoly F × DensePoly F) :=
  let s0 := DensePoly.ofList [1]
  let t1 := DensePoly.ofList [1]
  if p0.deg < threshold then some (p0, s0, DensePoly.zero)
  else if p1.deg < threshold then some (p1, DensePoly.zero, t1)
  else partialGcdLoop N threshold p1.coeffs.length p0 p1 s0 DensePoly.zero DensePoly.zero t1

/-! ## `gao_interpolate` -/

/-- Steps 2 and 3: `none` where the program stops, `some none` for `false`, else `res_vec` and `err_vec`. -/
def gaoDecode (N : ZZpX F) (g0 g1 : DensePoly F) (k n : Nat) : Option (Option (List F × List F)) := do
  let (g, _, v) ← partialGcd N g0 g1 ((n + k) / 2)
  let (f1, r) ← N.divRem g v
  if ¬r.isZero ∨ f1.deg ≥ k then some none
  else some (some ((List.range k).map f1.coeff, (List.range (v.deg + 1).toNat).map v.coeff))

def gaoInterpolate (N : ZZpX F) (xs ys : List F) (k n : Nat) : Option (Option (List F × List F)) := do
  let g0 := N.buildFromRoots xs
  let g1 ← N.interpolate xs ys
  gaoDecode N g0 g1 k n

end

def gaoInterpolateFft {p : Nat} (N : ZZpX (ZMod p)) (c : FftCache) (xs : List (ZMod p)) (zs : List Nat) (ys : List (ZMod p))
    (omega : ZMod p) (k n order : Nat) : Option (Option (List (ZMod p) × List (ZMod p)) × FftCache) := do
  let g0 := N.buildFromRoots xs
  let (g1, c) ← fntDecode N c zs ys omega order
  let res ← gaoDecode N g0 g1 k n
  some (res, c)

/-! ## The Python function -/

/-- The items at the places where there is a value. -/
def keepAt (y : List (Option Nat)) (l : List Nat) : List Nat :=
  (l.zip y).filterMap fun item => item.2.map fun _ => item.1

/-- `gao_interpolate` of the module; a missing value is a point left out. -/
def pyGaoInterpolate (c : FftCache) (x : List Nat) (y : List (Option Nat)) (k modulus : Nat) (z : Option (List Nat))
    (omega order : Option Nat) (useOmegaPowers : Bool) (N : ZZpX (ZMod modulus)) :
    Option (Option (List Nat × List Nat) × FftCache) := do
  if x.length ≠ y.length ∨ modulus ≤ 1 then none
  if (z.getD []).length > y.length then none
  let xVec : List (ZMod modulus) := (keepAt y x).map Nat.cast
  let yVec : List (ZMod modulus) := (y.filterMap id).map Nat.cast
  let n := xVec.length
  let (success, c) ←
    if useOmegaPowers then do
      let zVec ← z.map (keepAt y)
      let omega ← omega
      let order ← order
      if zVec.length ≠ n then none
      else gaoInterpolateFft N c xVec zVec yVec (omega : ZMod modulus) k n order
    else (gaoInterpolate N xVec yVec k n).map fun success => (success, c)
  some (success.map fun res => (res.1.map ZMod.val, res.2.map ZMod.val), c)

/-! ## What `partial_gcd` finds -/

section

variable {F : Type} [Field F] [DecidableEq F] {N : ZZpX F} {G0 G1 : F[X]} {T : Nat}

omit [DecidableEq F] in
/-- **The loop ends**, and with the first remainder below the threshold. -/
theorem partialGcdLoop_stopped (hN : N.Lawful) : ∀ (turns : Nat) {r0 r1 s0 s1 t0 t1 : DensePoly F},
    r1.coeffs.length ≤ turns → (T : WithBot ℕ) ≤ r1.toPoly.degree →
    Rows G0 G1 r0.toPoly r1.toPoly s0.toPoly s1.toPoly t0.toPoly t1.toPoly →
    ∃ g u v, partialGcdLoop N T turns r0 r1 s0 s1 t0 t1 = some (g, u, v) ∧ Stopped G0 G1 T g.toPoly u.toPoly v.toPoly
  | 0, r0, r1, s0, s1, t0, t1, hl, hT, _           => by
    have hz := (DensePoly.length_le_iff r1 0).1 hl
    exact absurd (hT.trans_lt hz) (by simp)
  | turns + 1, r0, r1, s0, s1, t0, t1, hl, hT, hrows => by
    have hr1 : r1.toPoly ≠ 0 := fun h0 => by simp [h0] at hT
    obtain ⟨q, r2, hd, hq, hlt⟩ := hN.divRem r0 r1 hr1
    have hnext := hrows.step hq hlt
    have hs : s0.toPoly - q.toPoly * s1.toPoly = (N.sub s0 (N.mul q s1)).toPoly := by rw [hN.sub, hN.mul]
    have ht : t0.toPoly - q.toPoly * t1.toPoly = (N.sub t0 (N.mul q t1)).toPoly := by rw [hN.sub, hN.mul]
    rw [hs, ht] at hnext
    rw [partialGcdLoop, hd, Option.bind_eq_bind, Option.bind_some]
    dsimp only
    split
    · rename_i hdeg
      exact ⟨_, _, _, rfl, hnext.stopped hT ((DensePoly.deg_lt_iff r2 T).1 hdeg)⟩
    · rename_i hdeg
      have hshort := DensePoly.length_lt_of_degree_lt hlt
      exact partialGcdLoop_stopped hN turns (by omega) (not_lt.1 (fun h => hdeg ((DensePoly.deg_lt_iff r2 T).2 h))) hnext

/-- **`partial_gcd` runs the algorithm to the threshold.** -/
theorem partialGcd_stopped (hN : N.Lawful) {g0 g1 : DensePoly F} (h0 : (T : WithBot ℕ) ≤ g0.toPoly.degree)
    (hlt : g1.toPoly.degree < g0.toPoly.degree) :
    ∃ g u v, partialGcd N g0 g1 T = some (g, u, v) ∧ Stopped g0.toPoly g1.toPoly T g.toPoly u.toPoly v.toPoly := by
  have hone : (DensePoly.ofList [1] : DensePoly F).toPoly = 1 := by
    rw [DensePoly.toPoly_ofList, listPoly]
    simp
  have hrows : Rows g0.toPoly g1.toPoly g0.toPoly g1.toPoly (DensePoly.ofList [1] : DensePoly F).toPoly
      (DensePoly.zero : DensePoly F).toPoly (DensePoly.zero : DensePoly F).toPoly
      (DensePoly.ofList [1] : DensePoly F).toPoly := by
    rw [hone, DensePoly.toPoly_zero]
    exact Rows.start hlt
  rw [partialGcd, if_neg (fun h => absurd h0 (not_le_of_gt ((DensePoly.deg_lt_iff g0 T).1 h)))]
  split
  · rename_i hdeg
    exact ⟨_, _, _, rfl, hrows.stopped h0 ((DensePoly.deg_lt_iff g1 T).1 hdeg)⟩
  · rename_i hdeg
    exact partialGcdLoop_stopped hN _ (Nat.le_refl _) (not_lt.1 (fun h => hdeg ((DensePoly.deg_lt_iff g1 T).2 h))) hrows

/-! ## What the division decides -/

/-- What steps 2 and 3 do: they find `g`, `u` and `v`, and answer with the polynomial below `k` that `v` takes to `g`. -/
theorem gaoDecode_spec (hN : N.Lawful) {g0 g1 : DensePoly F} {xs ys : List F} (hnd : xs.Nodup)
    (hg0 : g0.toPoly = rootsPoly xs) (hg1 : g1.toPoly = interpPoly xs ys) {k : Nat} (hk : k ≤ xs.length) :
    ∃ g u v : F[X], Stopped (rootsPoly xs) (interpPoly xs ys) ((xs.length + k) / 2) g u v ∧
      (∀ f : F[X], f.degree < k → g = v * f → gaoDecode N g0 g1 k xs.length =
        some (some ((List.range k).map f.coeff, (List.range (v.natDegree + 1)).map v.coeff))) ∧
      (∀ res err, gaoDecode N g0 g1 k xs.length = some (some (res, err)) →
        (listPoly res).degree < k ∧ g = v * listPoly res) := by
  have hT : (((xs.length + k) / 2 : Nat) : WithBot ℕ) ≤ g0.toPoly.degree := by
    rw [hg0, degree_rootsPoly, Nat.cast_le]
    omega
  have hlt : g1.toPoly.degree < g0.toPoly.degree := by
    rw [hg0, hg1, degree_rootsPoly]
    exact degree_interpPoly_lt hnd ys
  obtain ⟨g, u, v, hrun, hs⟩ := partialGcd_stopped hN hT hlt
  rw [hg0, hg1] at hs
  obtain ⟨f1, r, hd, hq, hr⟩ := hN.divRem g v hs.v_ne
  have hlen : (v.deg + 1).toNat = v.toPoly.natDegree + 1 := by
    rw [DensePoly.deg, DensePoly.natDegree_toPoly hs.v_ne]
    omega
  have hv : v.coeff = v.toPoly.coeff := funext (fun i => (DensePoly.coeff_toPoly v i).symm)
  have hf1 : f1.coeff = f1.toPoly.coeff := funext (fun i => (DensePoly.coeff_toPoly f1 i).symm)
  have hdec : gaoDecode N g0 g1 k xs.length = if ¬r.isZero ∨ f1.deg ≥ k then some none
      else some (some ((List.range k).map f1.toPoly.coeff, (List.range (v.toPoly.natDegree + 1)).map v.toPoly.coeff)) := by
    simp only [gaoDecode, hrun, hd, Option.bind_eq_bind, Option.bind_some, hlen, hv, hf1]
  refine ⟨g.toPoly, u.toPoly, v.toPoly, hs, fun f hf hgf => ?_, fun res err hres => ?_⟩
  · -- the remainder is a multiple of `v` of lower degree
    have hmul : r.toPoly = v.toPoly * (f - f1.toPoly) := by
      rw [mul_sub, ← hgf, hq]
      ring
    have hr0 : r.toPoly = 0 := by
      rw [hmul]
      rw [hmul] at hr
      exact eq_zero_of_dvd_of_degree_lt (dvd_mul_right _ _) hr
    have hff : f1.toPoly = f := by
      rw [hr0] at hmul
      exact (sub_eq_zero.1 ((mul_eq_zero.1 hmul.symm).resolve_left hs.v_ne)).symm
    have hz : r.isZero = true := (DensePoly.isZero_iff r).2 hr0
    have hdeg : f1.deg < k := (DensePoly.deg_lt_iff f1 k).2 (hff.symm ▸ hf)
    rw [hdec, if_neg (by simp [hz, hdeg]), hff]
  · rw [hdec] at hres
    split at hres
    · cases hres
    · rename_i hcond
      push Not at hcond
      have hr0 : r.toPoly = 0 := (DensePoly.isZero_iff r).1 hcond.1
      have hdeg : f1.toPoly.degree < k := (DensePoly.deg_lt_iff f1 k).1 hcond.2
      cases hres
      rw [listPoly_map_coeff hdeg]
      exact ⟨hdeg, by rw [hq, hr0, add_zero, mul_comm]⟩

theorem errors_card_le {xs ys : List F} {f : F[X]} {e : Nat} (he : e ≤ xs.length)
    (h : xs.length - e ≤ ((Finset.range xs.length).filter fun i => f.eval (xs.getD i 0) = ys.getD i 0).card) :
    (errors xs ys f).card ≤ e := by
  have hsum := Finset.card_filter_add_card_filter_not (s := Finset.range xs.length)
    (fun i => f.eval (xs.getD i 0) = ys.getD i 0)
  rw [Finset.card_range] at hsum
  have herr : (errors xs ys f).card =
      ((Finset.range xs.length).filter fun i => ¬f.eval (xs.getD i 0) = ys.getD i 0).card := rfl
  omega

omit [DecidableEq F] in
theorem exists_interpolant (hN : N.Lawful) {xs ys : List F} (hnd : xs.Nodup) (hys : ys.length = xs.length) :
    ∃ g1 : DensePoly F, N.interpolate xs ys = some g1 ∧ g1.toPoly = interpPoly xs ys := by
  obtain ⟨g1, hi, hd, hv⟩ := hN.interpolate xs ys hnd hys
  exact ⟨g1, hi, eq_interpPoly hnd hd hv⟩

end

/-! ## The decoder -/

section

variable {p : Nat} [Fact p.Prime] {N : ZZpX (ZMod p)} {xs ys : List (ZMod p)} {k : Nat}

/-- **Both decoders give one answer** where the points are powers of the root. -/
theorem gaoInterpolateFft_eq (hN : N.Lawful) (hnd : xs.Nodup) (hys : ys.length = xs.length) {c : FftCache} (hc : c.Ok)
    {s : Nat} {omega : ZMod p} (h : IsPrimitiveRoot omega (2 ^ s)) {zs : List Nat} (hxs : xs = zs.map (omega ^ ·))
    (hlt : ∀ z ∈ zs, z < 2 ^ s) :
    (gaoInterpolateFft N c xs zs ys omega k xs.length (2 ^ s)).map Prod.fst = gaoInterpolate N xs ys k xs.length := by
  have hzs : zs.Nodup := List.Nodup.of_map _ (hxs ▸ hnd)
  obtain ⟨g1, hi, hg1⟩ := exists_interpolant hN hnd hys
  have hlen : ys.length = zs.length := by rw [hys, hxs, List.length_map]
  obtain ⟨g1', c', hg1', -, hf⟩ := fntDecode_eq hN hc h hzs hlt hlen
  have hsame : g1' = g1 := DensePoly.toPoly_injective (by rw [hg1, hg1', hxs, points])
  rw [gaoInterpolateFft, gaoInterpolate, hi, hf, hsame]
  simp only [Option.bind_eq_bind, Option.bind_some]
  cases gaoDecode N (N.buildFromRoots xs) g1 k xs.length with
  | none   => rfl
  | some _ => rfl

/-- A polynomial that errs in at most half the redundancy is returned, with one whose roots are the errors. -/
theorem gaoInterpolate_of_errors (hN : N.Lawful) (hnd : xs.Nodup) (hys : ys.length = xs.length) (hk : k ≤ xs.length)
    {f : (ZMod p)[X]} (hf : f.degree < k) (herr : (errors xs ys f).card ≤ (xs.length - k) / 2) :
    ∃ err : List (ZMod p),
      gaoInterpolate N xs ys k xs.length = some (some ((List.range k).map f.coeff, err)) ∧
      ∀ i < xs.length, (listPoly err).eval (xs.getD i 0) = 0 ↔ f.eval (xs.getD i 0) ≠ ys.getD i 0 := by
  obtain ⟨g1, hi, hg1⟩ := exists_interpolant hN hnd hys
  obtain ⟨g, u, v, hs, hgive, -⟩ := gaoDecode_spec hN hnd (hN.buildFromRoots xs) hg1 hk
  have hmul : g = v * f := hs.eq_mul hnd hf (by omega) (by omega)
  have hv : listPoly ((List.range (v.natDegree + 1)).map v.coeff) = v :=
    listPoly_map_coeff (lt_of_le_of_lt degree_le_natDegree (Nat.cast_lt.2 (Nat.lt_succ_self _)))
  refine ⟨(List.range (v.natDegree + 1)).map v.coeff, ?_, fun i hi => ?_⟩
  · rw [gaoInterpolate, hi, Option.bind_eq_bind, Option.bind_some, hgive f hf hmul]
  · rw [hv]
    exact hs.root_iff hnd hmul hi

theorem length_keepAt : ∀ {x : List Nat} {y : List (Option Nat)}, x.length = y.length →
    (y.filterMap id).length = (keepAt y x).length
  | [], [], _              => rfl
  | a :: x, none :: y, h   => by simpa [keepAt] using length_keepAt (Nat.succ.inj h)
  | a :: x, some b :: y, h => by simpa [keepAt] using length_keepAt (Nat.succ.inj h)

/-- **Missing values are points left out**: the others decode as if they were all. -/
theorem pyGaoInterpolate_decodes {c : FftCache} {x : List Nat} {y : List (Option Nat)} (hN : N.Lawful)
    (hl : x.length = y.length) (hx : xs = (keepAt y x).map Nat.cast) (hy : ys = (y.filterMap id).map Nat.cast)
    (hnd : xs.Nodup) (hk : k ≤ xs.length) {f : (ZMod p)[X]} (hf : f.degree < k)
    (herr : (errors xs ys f).card ≤ (xs.length - k) / 2) :
    ∃ err : List (ZMod p),
      pyGaoInterpolate c x y k p none none none false N =
        some (some ((List.range k).map (fun i => (f.coeff i).val), err.map ZMod.val), c) ∧
      ∀ i < xs.length, (listPoly err).eval (xs.getD i 0) = 0 ↔ f.eval (xs.getD i 0) ≠ ys.getD i 0 := by
  have hp : 1 < p := (Fact.out : p.Prime).one_lt
  have hys : ys.length = xs.length := by rw [hx, hy, List.length_map, List.length_map, length_keepAt hl]
  obtain ⟨err, hres, hroots⟩ := gaoInterpolate_of_errors hN hnd hys hk hf herr
  refine ⟨err, ?_, hroots⟩
  rw [pyGaoInterpolate, if_neg (by omega), if_neg (by simp), ← hx, ← hy]
  simp only [hres, Bool.false_eq_true, if_false, Option.map_some, Option.bind_eq_bind, Option.bind_some, List.map_map]
  rfl

/-- **Up to half the redundancy is corrected**: the polynomial that takes all but that many values is returned, with a
polynomial whose roots among the points are the errors; over powers of a root the other decoder returns the same. -/
theorem gaoInterpolate_decodes (hN : N.Lawful) (hnd : xs.Nodup) (hys : ys.length = xs.length) (hk1 : 1 ≤ k)
    (hk : k ≤ xs.length) {f : (ZMod p)[X]} (hf : f.degree < k)
    (hagree : xs.length - (xs.length - k) / 2 ≤
      ((Finset.range xs.length).filter fun i => f.eval (xs.getD i 0) = ys.getD i 0).card) :
    ∃ err : List (ZMod p),
      gaoInterpolate N xs ys k xs.length = some (some ((List.range k).map f.coeff, err)) ∧
      (∀ i < xs.length, (listPoly err).eval (xs.getD i 0) = 0 ↔ f.eval (xs.getD i 0) ≠ ys.getD i 0) ∧
      ∀ calls c, runCalls calls = some c → ∀ (s : Nat) (omega : ZMod p) (zs : List Nat), IsPrimitiveRoot omega (2 ^ s) →
        xs = zs.map (omega ^ ·) → (∀ z ∈ zs, z < 2 ^ s) →
        (gaoInterpolateFft N c xs zs ys omega k xs.length (2 ^ s)).map Prod.fst =
          some (some ((List.range k).map f.coeff, err)) := by
  have herr := errors_card_le (by omega) hagree
  obtain ⟨err, hres, hroots⟩ := gaoInterpolate_of_errors hN hnd hys hk hf herr
  refine ⟨err, hres, hroots, fun calls c hc s omega zs h hxs hlt => ?_⟩
  rw [gaoInterpolateFft_eq hN hnd hys (runCalls_ok hc) h hxs hlt, hres]

theorem degree_linear_17 : (C 1 * X + C 1 : (ZMod 17)[X]).degree < (2 : Nat) :=
  lt_of_le_of_lt degree_linear_le (by decide)

/-- One of four values of `X + 1` is wrong. -/
theorem gaoInterpolate_decodes_17 : ∃ err : List (ZMod 17),
    gaoInterpolate (ZZpX.exact (ZMod 17)) [16, 1, 13, 4] [0, 2, 3, 5] 2 4 =
      some (some ((List.range 2).map (C 1 * X + C 1 : (ZMod 17)[X]).coeff, err)) ∧
    (∀ i < 4, (listPoly err).eval (([16, 1, 13, 4] : List (ZMod 17)).getD i 0) = 0 ↔
      (C 1 * X + C 1 : (ZMod 17)[X]).eval (([16, 1, 13, 4] : List (ZMod 17)).getD i 0) ≠
        ([0, 2, 3, 5] : List (ZMod 17)).getD i 0) ∧
    (gaoInterpolateFft (ZZpX.exact (ZMod 17)) {} [16, 1, 13, 4] [2, 0, 3, 1] [0, 2, 3, 5] ((4 : Nat) : ZMod 17) 2 4
      (2 ^ 2)).map Prod.fst = some (some ((List.range 2).map (C 1 * X + C 1 : (ZMod 17)[X]).coeff, err)) := by
  have heval : ∀ a : ZMod 17, (C 1 * X + C 1 : (ZMod 17)[X]).eval a = 1 * a + 1 := fun a => by simp
  have hnd : ([16, 1, 13, 4] : List (ZMod 17)).Nodup := by decide
  have hys : ([0, 2, 3, 5] : List (ZMod 17)).length = ([16, 1, 13, 4] : List (ZMod 17)).length := rfl
  obtain ⟨err, hres, hroots, hfft⟩ := gaoInterpolate_decodes (ZZpX.exact_lawful (ZMod 17)) hnd hys (by decide) (by decide)
    degree_linear_17 (by simp only [heval]; decide)
  exact ⟨err, hres, hroots, hfft [] {} rfl 2 ((4 : Nat) : ZMod 17) [2, 0, 3, 1] isPrimitiveRoot_17 (by decide) (by decide)⟩

/-- **What a success means**: the returned polynomial is below the degree `k`, disagrees with at most half the redundancy
of the values and is the only such polynomial, for all values just if `n - k` is even or no polynomial below `k - 1`
disagrees with `(n - k + 1) / 2` of them. -/
theorem gaoInterpolate_success_iff (hN : N.Lawful) (hnd : xs.Nodup) (hys : ys.length = xs.length) (hk1 : 1 ≤ k)
    (hk : k ≤ xs.length) :
    (∀ res err, gaoInterpolate N xs ys k xs.length = some (some (res, err)) →
      (listPoly res).degree < k ∧ (errors xs ys (listPoly res)).card ≤ (xs.length - k) / 2 ∧
      ∀ f : (ZMod p)[X], f.degree < k → (errors xs ys f).card ≤ (xs.length - k) / 2 → f = listPoly res) ↔
    ((xs.length - k) % 2 = 0 ∨
      ∀ f : (ZMod p)[X], f.degree < (k - 1 : Nat) → (errors xs ys f).card ≠ (xs.length - k + 1) / 2) := by
  obtain ⟨g1, hi, hg1⟩ := exists_interpolant hN hnd hys
  obtain ⟨g, u, v, hs, hgive, htake⟩ := gaoDecode_spec hN hnd (hN.buildFromRoots xs) hg1 hk
  have hrun : gaoInterpolate N xs ys k xs.length = gaoDecode N (N.buildFromRoots xs) g1 k xs.length := by
    rw [gaoInterpolate, hi, Option.bind_eq_bind, Option.bind_some]
  rw [hrun]
  have hv := hs.deg_v
  rw [natDegree_rootsPoly] at hv
  constructor
  · intro hall
    by_contra hcond
    push Not at hcond
    obtain ⟨hodd, f, hf, hcard⟩ := hcond
    -- the stop is one degree too low to tell this polynomial from one within the radius
    have hfk : f.degree < k := hf.trans_le (Nat.cast_le.2 (by omega))
    have hmul : g = v * f := hs.eq_mul hnd hf (by omega) (by omega)
    have hbad := (hall _ _ (hgive f hfk hmul)).2.1
    rw [listPoly_map_coeff hfk] at hbad
    omega
  · intro hcond res err hres
    obtain ⟨hdeg, hmul⟩ := htake res err hres
    have hle := hs.card_errors_le hnd hmul
    have hcard : (errors xs ys (listPoly res)).card ≤ (xs.length - k) / 2 := by
      by_contra hmore
      rcases hcond with heven | hnone
      · omega
      · -- all of `v` is spent on errors, which leaves the quotient a degree below `k - 1`
        refine hnone (listPoly res) ?_ (by omega)
        rcases eq_or_ne (listPoly res) 0 with h0 | h0
        · rw [h0, degree_zero]
          exact WithBot.bot_lt_coe _
        · have hgd := hs.deg_lt
          rw [hmul, degree_eq_natDegree (mul_ne_zero hs.v_ne h0), natDegree_mul hs.v_ne h0, Nat.cast_lt] at hgd
          rw [degree_eq_natDegree h0, Nat.cast_lt]
          omega
    refine ⟨hdeg, hcard, fun f hf hfc => ?_⟩
    have hboth : (errors xs ys f).card + (errors xs ys (listPoly res)).card + k ≤ xs.length := by omega
    exact eq_of_errors_card hnd hf hdeg hboth

/-- With one value to spare the stop is too low by a half: zero is returned where it disagrees with one of two values. -/
theorem gaoInterpolate_beyond_half : ∃ res err, (ZZpX.exact (ZMod 17)).Lawful ∧
    gaoInterpolate (ZZpX.exact (ZMod 17)) [0, 1] [0, 1] 1 2 = some (some (res, err)) ∧
    ¬(errors [0, 1] [0, 1] (listPoly res)).card ≤ (2 - 1) / 2 := by
  have hN := ZZpX.exact_lawful (ZMod 17)
  have hnd : ([0, 1] : List (ZMod 17)).Nodup := by decide
  have hys : ([0, 1] : List (ZMod 17)).length = ([0, 1] : List (ZMod 17)).length := rfl
  obtain ⟨g1, hi, hg1⟩ := exists_interpolant hN hnd hys
  obtain ⟨g, u, v, hs, hgive, -⟩ := gaoDecode_spec hN hnd (hN.buildFromRoots [0, 1]) hg1 (k := 1) (by decide)
  have hcard : (errors [0, 1] [0, 1] (0 : (ZMod 17)[X])).card = 1 := by
    simp only [errors, eval_zero, node]
    decide
  have hzero : (0 : (ZMod 17)[X]).degree < (0 : Nat) := by simp
  have hmul : g = v * 0 := hs.eq_mul hnd hzero (by rw [hcard]; decide) (by rw [hcard]; decide)
  refine ⟨(List.range 1).map (0 : (ZMod 17)[X]).coeff, (List.range (v.natDegree + 1)).map v.coeff, hN, ?_, ?_⟩
  · rw [gaoInterpolate, hi, Option.bind_eq_bind, Option.bind_some]
    exact hgive 0 (by simp) hmul
  · rw [listPoly_map_coeff (by simp), hcard]
    decide

theorem gaoInterpolate_success_iff_17 :
    (∀ res err, gaoInterpolate (ZZpX.exact (ZMod 17)) [0, 1, 2, 3] [5, 6, 9, 8] 2 4 = some (some (res, err)) →
      (listPoly res).degree < (2 : Nat) ∧ (errors [0, 1, 2, 3] [5, 6, 9, 8] (listPoly res)).card ≤ (4 - 2) / 2 ∧
      ∀ f : (ZMod 17)[X], f.degree < (2 : Nat) → (errors [0, 1, 2, 3] [5, 6, 9, 8] f).card ≤ (4 - 2) / 2 →
        f = listPoly res) ↔
    ((4 - 2) % 2 = 0 ∨
      ∀ f : (ZMod 17)[X], f.degree < (2 - 1 : Nat) → (errors [0, 1, 2, 3] [5, 6, 9, 8] f).card ≠ (4 - 2 + 1) / 2) :=
  gaoInterpolate_success_iff (ZZpX.exact_lawful (ZMod 17)) (by decide) rfl (by decide) (by decide)

end

end Ntl
end Dpid
