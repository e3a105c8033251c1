import Dpid.Fft
import Dpid.Interpolation
/-!
# FntDecode — interpolation at powers of a root of unity (`ntl/rsdecode_impl.h`, `ntl/hbmpc_ntl_helpers.pyx`)

The polynomial of the points is differentiated and evaluated by `fft`; a second transform, over the inverse root, gives
the series whose product with it is the interpolating polynomial.
-/
namespace Dpid
namespace Ntl

open Polynomial CoeffList Interpolation

/-! ## The polynomials of the library -/

/-- The operations on `ZZ_pX`; `none` where the library stops the program. -/
structure ZZpX (F : Type) [CommRing F] where
  buildFromRoots : List F → DensePoly F
  interpolate : List F → List F → Option (DensePoly F)
  divRem : DensePoly F → DensePoly F → Option (DensePoly F × DensePoly F)
  mul : DensePoly F → DensePoly F → DensePoly F
  sub : DensePoly F → DensePoly F → DensePoly F
  mulTrunc : DensePoly F → DensePoly F → Nat → DensePoly F

/-- What the library documents of them over a field. -/
structure ZZpX.Lawful {F : Type} [Field F] (N : ZZpX F) : Prop where
  buildFromRoots : ∀ xs, (N.buildFromRoots xs).toPoly = (xs.map fun x => X - C x).prod
  interpolate : ∀ xs ys, xs.Nodup → ys.length = xs.length → ∃ P, N.interpolate xs ys = some P ∧
    P.toPoly.degree < xs.length ∧ ∀ i < xs.length, P.toPoly.eval (xs.getD i 0) = ys.getD i 0
  divRem : ∀ a b, b.toPoly ≠ 0 → ∃ q r, N.divRem a b = some (q, r) ∧
    a.toPoly = q.toPoly * b.toPoly + r.toPoly ∧ r.toPoly.degree < b.toPoly.degree
  mul : ∀ a b, (N.mul a b).toPoly = a.toPoly * b.toPoly
  sub : ∀ a b, (N.sub a b).toPoly = a.toPoly - b.toPoly
  mulTrunc : ∀ a b n i, (N.mulTrunc a b n).toPoly.coeff i = if i < n then (a.toPoly * b.toPoly).coeff i else 0

/-- Polynomials with these operations. -/
noncomputable def ZZpX.exact (F : Type) [Field F] [DecidableEq F] : ZZpX F where
  buildFromRoots xs := DensePoly.ofPoly (rootsPoly xs)
  interpolate xs ys :=
    if xs.Nodup ∧ ys.length = xs.length then some (DensePoly.ofPoly (interpPoly xs ys)) else none
  divRem a b :=
    if b.isZero then none else some (DensePoly.ofPoly (a.toPoly / b.toPoly), DensePoly.ofPoly (a.toPoly % b.toPoly))
  mul a b := DensePoly.ofPoly (a.toPoly * b.toPoly)
  sub a b := DensePoly.ofPoly (a.toPoly - b.toPoly)
  mulTrunc a b n := DensePoly.ofList ((List.range n).map (a.toPoly * b.toPoly).coeff)

theorem ZZpX.exact_lawful (F : Type) [Field F] [DecidableEq F] : (ZZpX.exact F).Lawful where
  buildFromRoots xs := DensePoly.toPoly_ofPoly _
  interpolate xs ys hnd hl := by
    refine ⟨_, if_pos ⟨hnd, hl⟩, ?_, fun i hi => ?_⟩
    · rw [DensePoly.toPoly_ofPoly]
      exact degree_interpPoly_lt hnd ys
    · rw [DensePoly.toPoly_ofPoly]
      exact eval_interpPoly hnd ys hi
  divRem a b hb := by
    have hz : ¬b.isZero = true := fun h => hb ((DensePoly.isZero_iff b).1 h)
    refine ⟨_, _, if_neg hz, ?_, ?_⟩
    · rw [DensePoly.toPoly_ofPoly, DensePoly.toPoly_ofPoly, mul_comm, EuclideanDomain.div_add_mod]
    · rw [DensePoly.toPoly_ofPoly]
      exact EuclideanDomain.mod_lt _ hb
  mul a b := DensePoly.toPoly_ofPoly _
  sub a b := DensePoly.toPoly_ofPoly _
  mulTrunc a b n i := by
    rw [exact, DensePoly.toPoly_ofList, coeff_listPoly]
    split
    · rename_i hi
      exact getD_map_range _ hi
    · rename_i hi
      exact List.getD_eq_default _ _ (by simpa using hi)

section

variable {p : Nat}

/-! ## The two steps -/

/-- `inv`; it stops the program on what has no inverse. -/
def inv (x : ZMod p) : Option (ZMod p) := if x * x⁻¹ = 1 then some x⁻¹ else none

/-- `inv(Ad_evals[i], Ad_evals_all[zs[i]])`; there is nothing at an exponent past the end. -/
def invAt (all : List (ZMod p)) : List Nat → Option (List (ZMod p))
  | []      => some []
  | z :: zs => do
    let x ← all[z]?
    let y ← inv x
    let ys ← invAt all zs
    some (y :: ys)

def points (omega : ZMod p) (zs : List Nat) : List (ZMod p) := zs.map (omega ^ ·)

@[simp] theorem length_points (omega : ZMod p) (zs : List Nat) : (points omega zs).length = zs.length := List.length_map _

/-- `fnt_decode_step1`: `A` and `Ad_evals`. -/
def fntDecodeStep1 (N : ZZpX (ZMod p)) (c : FftCache) (zs : List Nat) (omega : ZMod p) (n : Nat) :
    Option ((DensePoly (ZMod p) × List (ZMod p)) × FftCache) := do
  let xs := points omega zs
  let A := N.buildFromRoots xs
  let AdCoeffs := (List.range A.deg.toNat).map fun i => ((i + 1 : Nat) : ZMod p) * A.coeff (i + 1)
  let (AdEvalsAll, c) ← fft c AdCoeffs omega n none
  let AdEvals ← invAt AdEvalsAll zs
  some ((A, AdEvals), c)

/-- `swap(N_coeffs[zs[i]], nis[i])` over the points. -/
def scatter {F : Type} [Zero F] (n : Nat) (zs : List Nat) (nis : List F) : List F :=
  (zs.zip nis).foldl (fun N zv => N.set zv.1 zv.2) (List.replicate n 0)

/-- `fnt_decode_step2`: the coefficients. -/
def fntDecodeStep2 (N : ZZpX (ZMod p)) (c : FftCache) (A : DensePoly (ZMod p)) (AdEvals : List (ZMod p)) (zs : List Nat)
    (ys : List (ZMod p)) (omega : ZMod p) (n : Nat) : Option (List (ZMod p) × FftCache) := do
  let k := zs.length
  let nis := List.zipWith (· * ·) ys AdEvals
  let NCoeffs := scatter n zs nis
  let omegaInv ← inv omega
  let (NRevEvals, c) ← fft c NCoeffs omegaInv n (some (if k < n then k + 1 else n))
  let Q := DensePoly.ofList ((List.range k).map fun i => -NRevEvals.getD ((i + 1) % n) 0)
  let P := N.mulTrunc Q A k
  some ((List.range k).map P.coeff, c)

def fntDecode (N : ZZpX (ZMod p)) (c : FftCache) (zs : List Nat) (ys : List (ZMod p)) (omega : ZMod p) (n : Nat) :
    Option (DensePoly (ZMod p) × FftCache) := do
  let ((A, AdEvals), c) ← fntDecodeStep1 N c zs omega n
  let (PCoeffs, c) ← fntDecodeStep2 N c A AdEvals zs ys omega n
  some (DensePoly.ofList PCoeffs, c)

end

/-- `fft_interpolate` of the module; a value for each point, the ones after them are not read. -/
def fftInterpolate (c : FftCache) (zs ys : List Nat) (omega modulus n : Nat) (N : ZZpX (ZMod modulus)) :
    Option (List Nat × FftCache) := do
  if modulus ≤ 1 ∨ ys.length < zs.length then none
  let yVec : List (ZMod modulus) := (ys.take zs.length).map Nat.cast
  let ((A, AdEvals), c) ← fntDecodeStep1 N c zs (omega : ZMod modulus) n
  let (PCoeffs, c) ← fntDecodeStep2 N c A AdEvals zs yVec (omega : ZMod modulus) n
  some (PCoeffs.map ZMod.val, c)

/-! ## The values at the exponents -/

section

variable {F : Type} [CommRing F]

/-- **The list with the values at the exponents** is the polynomial with these terms. -/
theorem eval_scatter {n : Nat} {zs : List Nat} (hnd : zs.Nodup) (hlt : ∀ z ∈ zs, z < n) {nis : List F}
    (hl : nis.length = zs.length) (x : F) :
    (listPoly (scatter n zs nis)).eval x = ∑ l ∈ Finset.range zs.length, nis.getD l 0 * x ^ zs.getD l 0 := by
  have hzip : (zs.zip nis).map Prod.fst = zs := List.map_fst_zip hl.ge
  have hzero : listPoly (List.replicate n (0 : F)) = 0 := by
    ext i
    rw [coeff_listPoly, coeff_zero, List.getD_eq_getElem?_getD, List.getElem?_replicate]
    split <;> rfl
  have hterms : (zs.zip nis).map (fun zv => zv.2 * x ^ zv.1) =
      (List.range zs.length).map fun l => nis.getD l 0 * x ^ zs.getD l 0 := by
    refine List.ext_getElem (by simp [hl]) (fun i h₁ h₂ => ?_)
    have hi : i < zs.length := by simpa using h₂
    simp [List.getD_eq_getElem?_getD, hi, hl.symm ▸ hi]
  rw [scatter, eval_foldl_set x (by rwa [hzip]), hzero, eval_zero, zero_add, hterms]
  · rfl
  · intro zv hm
    have hz := hlt zv.1 (List.of_mem_zip hm).1
    exact ⟨by simpa using hz, by simp [List.getD_eq_getElem?_getD, hz]⟩

end

/-! ## What the first step computes -/

section

variable {p : Nat} [Fact p.Prime] {s : Nat} {omega : ZMod p} {zs : List Nat}

theorem length_le_of_nodup {n : Nat} (hnd : zs.Nodup) (hlt : ∀ z ∈ zs, z < n) : zs.length ≤ n := by
  have hsub : zs ⊆ List.range n := fun z hz => List.mem_range.2 (hlt z hz)
  simpa using (hnd.subperm hsub).length_le

omit [Fact p.Prime] in
theorem nodup_points (h : IsPrimitiveRoot omega (2 ^ s)) (hnd : zs.Nodup) (hlt : ∀ z ∈ zs, z < 2 ^ s) :
    (points omega zs).Nodup :=
  (List.nodup_map_iff_inj_on hnd).2 (fun x hx y hy hxy => h.pow_inj (hlt x hx) (hlt y hy) hxy)

theorem node_points (omega : ZMod p) {zs : List Nat} {i : Nat} (hi : i < zs.length) :
    node (points omega zs) i = omega ^ zs.getD i 0 := by
  simp [node, points, List.getD_eq_getElem?_getD, hi]

theorem points_ne_zero (h : IsPrimitiveRoot omega (2 ^ s)) : ∀ x ∈ points omega zs, x ≠ 0 := fun x hx => by
  obtain ⟨z, -, rfl⟩ := List.mem_map.1 hx
  exact pow_ne_zero _ (h.ne_zero (by positivity))

theorem inv_eq {x : ZMod p} (h : x ≠ 0) : inv x = some x⁻¹ := by
  rw [inv, if_pos (mul_inv_cancel₀ h)]

theorem invAt_eq {all : List (ZMod p)} {f : Nat → ZMod p} : ∀ {zs : List Nat},
    (∀ z ∈ zs, all[z]? = some (f z) ∧ f z ≠ 0) → invAt all zs = some (zs.map fun z => (f z)⁻¹)
  | [], _      => rfl
  | z :: zs, h => by
    obtain ⟨hz, hne⟩ := h z List.mem_cons_self
    rw [invAt, hz, Option.bind_eq_bind, Option.bind_some, inv_eq hne, Option.bind_eq_bind, Option.bind_some,
      invAt_eq (fun z hz => h z (List.mem_cons_of_mem _ hz))]
    rfl

theorem listPoly_derivative {A : DensePoly (ZMod p)} {xs : List (ZMod p)} (hA : A.toPoly = rootsPoly xs) :
    listPoly ((List.range xs.length).map fun i => ((i + 1 : Nat) : ZMod p) * A.coeff (i + 1)) =
      derivative (rootsPoly xs) := by
  ext i
  rw [coeff_listPoly, coeff_derivative, ← hA]
  rcases Nat.lt_or_ge i xs.length with hi | hi
  · rw [getD_map_range _ hi, DensePoly.coeff_toPoly]
    push_cast
    ring
  · have hd : (rootsPoly xs).natDegree < i + 1 := by rw [natDegree_rootsPoly]; omega
    rw [List.getD_eq_default _ _ (by simpa using hi), hA, coeff_eq_zero_of_natDegree_lt hd, zero_mul]

theorem deg_eq_length {A : DensePoly (ZMod p)} {xs : List (ZMod p)} (hA : A.toPoly = rootsPoly xs) :
    A.deg.toNat = xs.length := by
  have hne : A.toPoly ≠ 0 := hA ▸ (rootsPoly_monic xs).ne_zero
  have hl := DensePoly.natDegree_toPoly hne
  rw [hA, natDegree_rootsPoly] at hl
  rw [DensePoly.deg]
  omega

noncomputable def derivInv (omega : ZMod p) (zs : List Nat) (z : Nat) : ZMod p :=
  ((derivative (rootsPoly (points omega zs))).eval (omega ^ z))⁻¹

/-- **The first step**: the polynomial of the points, and one over its derivative at each of them. -/
theorem fntDecodeStep1_eq {N : ZZpX (ZMod p)} (hN : N.Lawful) {c : FftCache} (hc : c.Ok)
    (h : IsPrimitiveRoot omega (2 ^ s)) (hnd : zs.Nodup) (hlt : ∀ z ∈ zs, z < 2 ^ s) :
    ∃ A c', A.toPoly = rootsPoly (points omega zs) ∧ c'.Ok ∧
      fntDecodeStep1 N c zs omega (2 ^ s) = some ((A, zs.map (derivInv omega zs)), c') := by
  have hp : 1 < p := (Fact.out : p.Prime).one_lt
  have hA := hN.buildFromRoots (points omega zs)
  have hxs := nodup_points h hnd hlt
  have hk : (points omega zs).length ≤ 2 ^ s := by simpa using length_le_of_nodup hnd hlt
  have hlen : ((List.range (points omega zs).length).map fun i =>
      ((i + 1 : Nat) : ZMod p) * (N.buildFromRoots (points omega zs)).coeff (i + 1)).length ≤ 2 ^ s := by simpa using hk
  have hf := fft_eq hp hc (neg_one_of_primitive h) hlen (k := none) (by simp)
  rw [listPoly_derivative hA] at hf
  have hinv : invAt ((List.range (2 ^ s)).map fun i => (derivative (rootsPoly (points omega zs))).eval (omega ^ i)) zs
      = some (zs.map (derivInv omega zs)) := by
    refine invAt_eq (fun z hz => ⟨by simp [hlt z hz], ?_⟩)
    obtain ⟨i, hi, rfl⟩ := List.mem_iff_getElem.1 hz
    have hne := eval_derivative_ne_zero hxs (i := i) (by simpa using hi)
    rwa [node_points omega hi, List.getD_eq_getElem _ _ hi] at hne
  refine ⟨_, (vanMatrix c omega (2 ^ s)).2, hA, vanMatrix_ok hp hc omega (2 ^ s), ?_⟩
  rw [fntDecodeStep1]
  simp only [deg_eq_length hA, hf, Option.getD_none, Option.bind_eq_bind, Option.bind_some, hinv]

/-! ## What the second step computes -/

/-- **The transform over the inverse root** gives the sums over the inverse points. -/
theorem eval_residues (hnd : zs.Nodup) (hlt : ∀ z ∈ zs, z < 2 ^ s)
    {ys : List (ZMod p)} (hys : ys.length = zs.length) (j : Nat) :
    (listPoly (scatter (2 ^ s) zs (List.zipWith (· * ·) ys (zs.map (derivInv omega zs))))).eval (omega⁻¹ ^ j) =
    ∑ l ∈ Finset.range zs.length, residue (points omega zs) ys l * (node (points omega zs) l)⁻¹ ^ j := by
  rw [eval_scatter hnd hlt (by simp [hys])]
  refine Finset.sum_congr rfl (fun l hl => ?_)
  have hl' : l < zs.length := Finset.mem_range.1 hl
  have hnode := node_points omega hl'
  have hpow : (omega⁻¹ ^ j) ^ zs.getD l 0 = (omega ^ zs.getD l 0)⁻¹ ^ j := by
    rw [← pow_mul, ← inv_pow, ← pow_mul, mul_comm]
  rw [residue, hnode, hpow]
  congr 1
  simp [node, derivInv, List.getD_eq_getElem?_getD, hl', hys]

theorem node_pow_mod (h : IsPrimitiveRoot omega (2 ^ s)) {l : Nat} (hl : l < zs.length) (j : Nat) :
    (node (points omega zs) l)⁻¹ ^ (j % 2 ^ s) = (node (points omega zs) l)⁻¹ ^ j := by
  have hone : (node (points omega zs) l)⁻¹ ^ 2 ^ s = 1 := by
    rw [node_points omega hl, inv_pow, ← pow_mul, mul_comm, pow_mul, h.pow_eq_one, one_pow, inv_one]
  exact (pow_eq_pow_mod j hone).symm

/-- The index the coefficient `i` is read at is below the number of outputs asked for. -/
theorem index_lt {k n i : Nat} (hk : k ≤ n) (hi : i < k) : (i + 1) % n < if k < n then k + 1 else n := by
  split
  · rw [Nat.mod_eq_of_lt (by omega)]
    omega
  · exact Nat.mod_lt _ (by omega)

/-- **The second step**: the coefficients of the interpolating polynomial. -/
theorem fntDecodeStep2_eq {N : ZZpX (ZMod p)} (hN : N.Lawful) {c : FftCache} (hc : c.Ok)
    (h : IsPrimitiveRoot omega (2 ^ s)) (hnd : zs.Nodup) (hlt : ∀ z ∈ zs, z < 2 ^ s) {A : DensePoly (ZMod p)}
    (hA : A.toPoly = rootsPoly (points omega zs)) {ys : List (ZMod p)} (hys : ys.length = zs.length) :
    ∃ c', c'.Ok ∧ fntDecodeStep2 N c A (zs.map (derivInv omega zs)) zs ys omega (2 ^ s) =
      some ((List.range zs.length).map (interpPoly (points omega zs) ys).coeff, c') := by
  have hp : 1 < p := (Fact.out : p.Prime).one_lt
  have hk : zs.length ≤ 2 ^ s := length_le_of_nodup hnd hlt
  have hw0 : omega ≠ 0 := h.ne_zero (by positivity)
  have hlen : (scatter (2 ^ s) zs (List.zipWith (· * ·) ys (zs.map (derivInv omega zs)))).length ≤ 2 ^ s := by
    rw [scatter, length_foldl_set, List.length_replicate]
  have hf := fft_eq hp hc (neg_one_of_primitive h.inv) hlen
    (k := some (if zs.length < 2 ^ s then zs.length + 1 else 2 ^ s)) (by rw [Option.getD_some]; split <;> omega)
  simp only [eval_residues hnd hlt hys, Option.getD_some] at hf
  have hQ : listPoly ((List.range zs.length).map fun i =>
      -((List.range (if zs.length < 2 ^ s then zs.length + 1 else 2 ^ s)).map fun j =>
        ∑ l ∈ Finset.range zs.length, residue (points omega zs) ys l * (node (points omega zs) l)⁻¹ ^ j).getD
          ((i + 1) % 2 ^ s) 0) = seriesPoly (points omega zs) ys := by
    ext i
    rw [coeff_listPoly, coeff_seriesPoly, length_points]
    rcases Nat.lt_or_ge i zs.length with hi | hi
    · rw [if_pos hi, getD_map_range _ hi, getD_map_range _ (index_lt hk hi)]
      exact congrArg _ (Finset.sum_congr rfl (fun l hl => by rw [node_pow_mod h (Finset.mem_range.1 hl)]))
    · rw [List.getD_eq_default _ _ (by simpa using hi), if_neg (by omega)]
  refine ⟨_, vanMatrix_ok hp hc omega⁻¹ (2 ^ s), ?_⟩
  rw [fntDecodeStep2]
  simp only [inv_eq hw0, hf, Option.bind_eq_bind, Option.bind_some, Option.some.injEq, Prod.mk.injEq, and_true]
  refine List.map_congr_left (fun i hi => ?_)
  have hi' : i < (points omega zs).length := by simpa using hi
  rw [← DensePoly.coeff_toPoly, hN.mulTrunc, if_pos (List.mem_range.1 hi), DensePoly.toPoly_ofList, hQ, hA,
    coeff_seriesPoly_mul_rootsPoly (points_ne_zero h) ys hi']

/-! ## The two together -/

/-- **`fnt_decode` interpolates.** -/
theorem fntDecode_eq {N : ZZpX (ZMod p)} (hN : N.Lawful) {c : FftCache} (hc : c.Ok) (h : IsPrimitiveRoot omega (2 ^ s))
    (hnd : zs.Nodup) (hlt : ∀ z ∈ zs, z < 2 ^ s) {ys : List (ZMod p)} (hys : ys.length = zs.length) :
    ∃ P c', P.toPoly = interpPoly (points omega zs) ys ∧ c'.Ok ∧
      fntDecode N c zs ys omega (2 ^ s) = some (P, c') := by
  obtain ⟨A, c₁, hA, hc₁, h₁⟩ := fntDecodeStep1_eq hN hc h hnd hlt
  obtain ⟨c₂, hc₂, h₂⟩ := fntDecodeStep2_eq hN hc₁ h hnd hlt hA hys
  have hd := degree_interpPoly_lt (nodup_points h hnd hlt) ys
  rw [length_points] at hd
  refine ⟨_, c₂, ?_, hc₂, by rw [fntDecode, h₁, Option.bind_eq_bind, Option.bind_some]; simp only [h₂]; rfl⟩
  rw [DensePoly.toPoly_ofList, listPoly_map_coeff hd]

/-- **`fft_interpolate` returns the coefficients of the one polynomial through the values**, and `fnt_decode` that
polynomial. -/
theorem fftInterpolate_eq {calls : List FftCall} {c : FftCache} (hcalls : runCalls calls = some c) {p : Nat} [Fact p.Prime]
    {N : ZZpX (ZMod p)} (hN : N.Lawful) {s omega : Nat} (h : IsPrimitiveRoot (omega : ZMod p) (2 ^ s)) {zs ys : List Nat}
    (hnd : zs.Nodup) (hlt : ∀ z ∈ zs, z < 2 ^ s) (hys : ys.length = zs.length) :
    ∃ P : (ZMod p)[X],
      (∀ Q : (ZMod p)[X], Q.degree < zs.length ∧
        (∀ i < zs.length, Q.eval ((omega : ZMod p) ^ zs.getD i 0) = (ys.getD i 0 : ZMod p)) ↔ Q = P) ∧
      (fftInterpolate c zs ys omega p (2 ^ s) N).map Prod.fst =
        some ((List.range zs.length).map fun i => (P.coeff i).val) ∧
      (fntDecode N c zs (ys.map Nat.cast) (omega : ZMod p) (2 ^ s)).map (fun out => out.1.toPoly) = some P := by
  have hp : ¬(p ≤ 1 ∨ ys.length < zs.length) := by
    have := (Fact.out : p.Prime).one_lt
    omega
  have hc := runCalls_ok hcalls
  have hys' : (ys.map (Nat.cast : Nat → ZMod p)).length = zs.length := by simpa using hys
  obtain ⟨A, c₁, hA, hc₁, h₁⟩ := fntDecodeStep1_eq hN hc h hnd hlt
  obtain ⟨c₂, -, h₂⟩ := fntDecodeStep2_eq hN hc₁ h hnd hlt hA hys'
  obtain ⟨P, c₃, hP, -, h₃⟩ := fntDecode_eq hN hc h hnd hlt hys'
  have hxs := nodup_points h hnd hlt
  have hnode : ∀ i < zs.length, node (points (omega : ZMod p) zs) i = (omega : ZMod p) ^ zs.getD i 0 ∧
      node (ys.map (Nat.cast : Nat → ZMod p)) i = (ys.getD i 0 : ZMod p) := fun i hi => by
    exact ⟨node_points _ hi, by simp [node, List.getD_eq_getElem?_getD, hi, hys]⟩
  refine ⟨interpPoly (points (omega : ZMod p) zs) (ys.map Nat.cast), fun Q => ⟨fun hQ => ?_, fun hQ => ?_⟩, ?_, ?_⟩
  · refine eq_interpPoly hxs (by simpa using hQ.1) (fun i hi => ?_)
    have hi' : i < zs.length := by simpa using hi
    rw [(hnode i hi').1, (hnode i hi').2, hQ.2 i hi']
  · have hd := degree_interpPoly_lt hxs (ys.map (Nat.cast : Nat → ZMod p))
    refine hQ ▸ ⟨by simpa using hd, fun i hi => ?_⟩
    rw [← (hnode i hi).1, ← (hnode i hi).2, eval_interpPoly hxs _ (by simpa using hi)]
  · have htake : ys.take zs.length = ys := by rw [← hys, List.take_length]
    rw [fftInterpolate, if_neg hp]
    simp only [Option.bind_eq_bind, htake, h₁, Option.bind_some, h₂]
    simp
  · rw [h₃, Option.map_some, hP]

instance prime_17 : Fact (Nat.Prime 17) := ⟨by norm_num⟩

theorem isPrimitiveRoot_17 : IsPrimitiveRoot ((4 : Nat) : ZMod 17) (2 ^ 2) := by
  have h : orderOf ((4 : Nat) : ZMod 17) = 2 ^ 2 := orderOf_eq_prime_pow (by decide) (by decide)
  exact h ▸ IsPrimitiveRoot.orderOf _

/-- Unsorted exponents, as many as the order has, after a call under another modulus. -/
theorem fftInterpolate_eq_17 : ∃ c, runCalls [⟨97, [1, 1, 4], 28, 32, some 9⟩] = some c ∧
    ∃ P : (ZMod 17)[X],
      (∀ Q : (ZMod 17)[X], Q.degree < ([2, 0, 3, 1] : List Nat).length ∧ (∀ i < ([2, 0, 3, 1] : List Nat).length,
        Q.eval (((4 : Nat) : ZMod 17) ^ ([2, 0, 3, 1] : List Nat).getD i 0) =
          ((([5, 6, 7, 20] : List Nat).getD i 0 : Nat) : ZMod 17)) ↔ Q = P) ∧
      (fftInterpolate c [2, 0, 3, 1] [5, 6, 7, 20] 4 17 (2 ^ 2) (ZZpX.exact (ZMod 17))).map Prod.fst =
        some ((List.range 4).map fun i => (P.coeff i).val) ∧
      (fntDecode (ZZpX.exact (ZMod 17)) c [2, 0, 3, 1] (([5, 6, 7, 20] : List Nat).map Nat.cast) ((4 : Nat) : ZMod 17)
        (2 ^ 2)).map (fun out => out.1.toPoly) = some P := by
  have hruns : ∀ call ∈ ([⟨97, [1, 1, 4], 28, 32, some 9⟩] : List FftCall), 1 < call.modulus ∧ 1 ≤ call.n := by simp
  obtain ⟨c, hc⟩ := runCalls_returns hruns
  exact ⟨c, hc, fftInterpolate_eq hc (ZZpX.exact_lawful (ZMod 17)) isPrimitiveRoot_17 (by decide) (by decide) (by decide)⟩

end

end Ntl
end Dpid
