import Dpid.DensePoly
import Mathlib.Data.List.Iterate
import Mathlib.Data.ZMod.Basic
import Mathlib.FieldTheory.Finite.Basic
import Mathlib.RingTheory.RootsOfUnity.PrimitiveRoots
import Mathlib.Tactic.NormNum.Prime
/-!
# Fft — the transform over powers of a root of unity (`ntl/rsdecode_impl.h`, `ntl/hbmpc_ntl_helpers.pyx`)

`_fft` halves the list until one of 16 is left, which it multiplies by the Vandermonde matrix of the root at that size;
only the outputs below `m` are set on the way up.  The matrices are kept from call to call, for one modulus at a time.
-/
namespace Dpid
namespace Ntl

open Polynomial CoeffList

/-! ## The Vandermonde matrix -/

section

variable {F : Type} [CommRing F]

/-- `1, x, x^2, …`, `d` of them. -/
def powers (x : F) (d : Nat) : List F := List.iterate (· * x) 1 d

def setVmMatrix (xs : List F) (d : Nat) : List (List F) := xs.map (fun x => powers x d)

/-- `_set_fft_vandermonde_matrix`: the matrix it puts into the map. -/
def fftVandermonde (omega : F) (n : Nat) : List (List F) := setVmMatrix (powers omega n) n

/-- `mul(a, M, a)`. -/
def mulVec (M : List (List F)) (a : List F) : List F := M.map (fun row => (List.zipWith (· * ·) row a).sum)

/-! ## `_fft` -/

def evens (a : List F) (h : Nat) : List F := (List.range h).map fun k => a.getD (2 * k) 0

def odds (a : List F) (h : Nat) : List F := (List.range h).map fun k => a.getD (2 * k + 1) 0

/-- One turn of the loop over the two halves; `(a, w)` runs through it. -/
def fftTurn (a0 a1 : List F) (omega : F) (n m : Nat) (aw : List F × F) (k : Nat) : List F × F :=
  let t2 := aw.2 * a1.getD k 0
  let a := if k < m then aw.1.set k (a0.getD k 0 + t2) else aw.1
  let a := if k + n / 2 < m then a.set (k + n / 2) (a0.getD k 0 - t2) else a
  (a, aw.2 * omega)

/-- The matrix `_fft` stops at: there is one and it is for size `n`. -/
def matrixAt (van : Option (List (List F))) (threshold n : Nat) : Option (List (List F)) :=
  if threshold = n then van else none

/-- `_fft`; `m` as it is once `-1` is replaced.  Size `0` never ends. -/
def fftRec (van : Option (List (List F))) (threshold m n : Nat) (omega : F) (a : List F) : Option (List F) :=
  if n = 1 then some a
  else
    match matrixAt van threshold n with
    | some M => some (mulVec M a)
    | none   =>
      if n = 0 then none
      else do
        let a0 ← fftRec van threshold m (n / 2) (omega * omega) (evens a (n / 2))
        let a1 ← fftRec van threshold m (n / 2) (omega * omega) (odds a (n / 2))
        some ((List.range (n / 2)).foldl (fftTurn a0 a1 omega n m) (a, 1)).1
termination_by n
decreasing_by all_goals omega

/-! ## The cached matrices -/

/-- `_fft_van_modulus`, `_fft_van_matrices`: for a size and a root, as numbers, the matrix, as numbers. -/
structure FftCache where
  modulus : Nat := 0
  matrices : List ((Nat × Nat) × List (List Nat)) := []

/-- The map is cleared when the modulus is another. -/
def FftCache.forModulus (c : FftCache) (p : Nat) : FftCache := if p ≠ c.modulus then ⟨p, []⟩ else c

/-- The matrix is made unless the map has it. -/
def FftCache.ensure {p : Nat} (c : FftCache) (omega : ZMod p) (n : Nat) : FftCache :=
  match c.matrices.lookup (n, omega.val) with
  | some _ => c
  | none   =>
    { c with matrices := ((n, omega.val), (fftVandermonde omega n).map (fun row => row.map ZMod.val)) :: c.matrices }

def getFftVandermondeMatrix {p : Nat} (c : FftCache) (omega : ZMod p) (n : Nat) : List (List (ZMod p)) × FftCache :=
  let c := (c.forModulus p).ensure omega n
  (((c.matrices.lookup (n, omega.val)).getD []).map (fun row => row.map Nat.cast), c)

/-! ## `fft` -/

def setLength (a : List F) (n : Nat) : List F := a.take n ++ List.replicate (n - a.length) 0

def fftVanThreshold : Nat := 16

def vanMatrix {p : Nat} (c : FftCache) (omega : ZMod p) (n : Nat) : Option (List (List (ZMod p))) × FftCache :=
  if n ≥ fftVanThreshold then
    let (M, c) := getFftVandermondeMatrix c (omega ^ (n / fftVanThreshold)) fftVanThreshold
    (some M, c)
  else (none, c)

/-- `fft`; `k = none` is the default `-1`. -/
def fft {p : Nat} (c : FftCache) (coeffs : List (ZMod p)) (omega : ZMod p) (n : Nat) (k : Option Nat) :
    Option (List (ZMod p) × FftCache) := do
  let a := (List.range n).map fun i => coeffs.getD i 0
  let (van, c) := vanMatrix c omega n
  let a ← fftRec van fftVanThreshold (k.getD n) n omega a
  match k with
  | some k => some (setLength a k, c)
  | none   => some (a, c)

end

/-! ## What the matrix does -/

section

variable {F : Type} [CommRing F]

theorem powers_eq (x : F) (d : Nat) : powers x d = (List.range d).map (x ^ ·) := by
  have hx : ∀ i, (· * x)^[i] (1 : F) = x ^ i := fun i => by
    induction i with
    | zero      => simp
    | succ i ih => rw [Function.iterate_succ_apply', ih, pow_succ]
  rw [powers, ← List.range_map_iterate]
  exact List.map_congr_left (fun i _ => hx i)

theorem fftVandermonde_eq (omega : F) (n : Nat) :
    fftVandermonde omega n = (List.range n).map fun i => (List.range n).map ((omega ^ i) ^ ·) := by
  rw [fftVandermonde, setVmMatrix, powers_eq, List.map_map]
  exact List.map_congr_left (fun i _ => powers_eq _ n)

/-- **The matrix of a root evaluates at its powers.** -/
theorem mulVec_fftVandermonde (omega : F) {a : List F} {n : Nat} (ha : a.length = n) :
    mulVec (fftVandermonde omega n) a = (List.range n).map fun i => (listPoly a).eval (omega ^ i) := by
  rw [mulVec, fftVandermonde_eq, List.map_map]
  refine List.map_congr_left (fun i _ => ?_)
  rw [Function.comp, sum_zipWith_range _ ha, eval_listPoly ha.le]
  exact Finset.sum_congr rfl (fun j _ => mul_comm _ _)

/-! ## What the loop does -/

/-- After `j` turns the outputs below `m` of the first `j` pairs are set. -/
structure Joined (a0 a1 : List F) (omega : F) (h m j : Nat) (aw : List F × F) : Prop where
  w : aw.2 = omega ^ j
  length : aw.1.length = 2 * h
  low : ∀ i < j, i < m → aw.1.getD i 0 = a0.getD i 0 + omega ^ i * a1.getD i 0
  high : ∀ i < j, i + h < m → aw.1.getD (i + h) 0 = a0.getD i 0 - omega ^ i * a1.getD i 0

theorem Joined.turn {a0 a1 : List F} {omega : F} {h m j : Nat} {aw : List F × F} (hj : Joined a0 a1 omega h m j aw)
    (hlt : j < h) : Joined a0 a1 omega h m (j + 1) (fftTurn a0 a1 omega (2 * h) m aw j) := by
  have hh : 2 * h / 2 = h := by omega
  have hl := hj.length
  have hlow : ∀ x : F, (aw.1.set j x).length = 2 * h := fun x => by rw [List.length_set, hl]
  refine ⟨by rw [fftTurn, hj.w, pow_succ], ?_, fun i hi him => ?_, fun i hi him => ?_⟩
  · simp only [fftTurn]
    split <;> split <;> simp [hl]
  · have hne : j + h ≠ i := by omega
    simp only [fftTurn, hh, hj.w]
    have hset : ∀ l : List F, l.length = 2 * h → ∀ x : F,
        (if j + h < m then l.set (j + h) x else l).getD i 0 = l.getD i 0 := fun l hl x => by
      split
      · rw [getD_set l (by omega), if_neg hne]
      · rfl
    rcases Nat.lt_or_ge i j with hij | hij
    · rw [hset _ (by split <;> simp [hl])]
      split
      · rw [getD_set aw.1 (by omega), if_neg (by omega), hj.low i hij him]
      · exact hj.low i hij him
    · have hji : j = i := by omega
      subst hji
      rw [if_pos him, hset _ (hlow _), getD_set aw.1 (by omega), if_pos rfl]
  · simp only [fftTurn, hh, hj.w]
    have hset : ∀ x : F, (if j < m then aw.1.set j x else aw.1).getD (i + h) 0 = aw.1.getD (i + h) 0 := fun x => by
      split
      · rw [getD_set aw.1 (by omega), if_neg (by omega)]
      · rfl
    have hlen : ∀ x : F, (if j < m then aw.1.set j x else aw.1).length = 2 * h := fun x => by split <;> simp [hl]
    rcases Nat.lt_or_ge i j with hij | hij
    · split
      · rw [getD_set _ (by rw [hlen]; omega), if_neg (by omega), hset, hj.high i hij him]
      · rw [hset, hj.high i hij him]
    · have hji : j = i := by omega
      subst hji
      rw [if_pos him, getD_set _ (by rw [hlen]; omega), if_pos rfl]

/-- **All turns**: every output below `m` is set. -/
theorem joined_foldl (a0 a1 : List F) (omega : F) {a : List F} {h : Nat} (m : Nat) (ha : a.length = 2 * h) :
    ∀ {j : Nat}, j ≤ h → Joined a0 a1 omega h m j ((List.range j).foldl (fftTurn a0 a1 omega (2 * h) m) (a, 1))
  | 0, _     => ⟨by simp, ha, by simp, by simp⟩
  | j + 1, hj => by
    rw [List.range_succ, List.foldl_append]
    exact (joined_foldl a0 a1 omega m ha (Nat.le_of_succ_le hj)).turn hj

/-! ## What the recursion does -/

/-- A matrix `_fft` finds on its way down from size `2 ^ s` is the one of the root it has there. -/
def MatrixFits (van : Option (List (List F))) (threshold : Nat) (omega : F) (s : Nat) : Prop :=
  ∀ t e M, s = t + e → matrixAt van threshold (2 ^ t) = some M → M = fftVandermonde (omega ^ 2 ^ e) (2 ^ t)

theorem MatrixFits.half {van : Option (List (List F))} {threshold : Nat} {omega : F} {s : Nat}
    (h : MatrixFits van threshold omega (s + 1)) : MatrixFits van threshold (omega * omega) s := by
  intro t e M hs hM
  rw [h t (e + 1) M (by omega) hM, ← pow_two, ← pow_mul, pow_succ', mul_comm]

/-- **`_fft` evaluates at the powers of the root below `m`**, whatever it leaves in the other slots. -/
theorem fftRec_eval (van : Option (List (List F))) (threshold m : Nat) : ∀ {s : Nat} {omega : F} {a : List F},
    a.length = 2 ^ s → (∀ t, s = t + 1 → omega ^ 2 ^ t = -1) → MatrixFits van threshold omega s →
    ∃ b, fftRec van threshold m (2 ^ s) omega a = some b ∧ b.length = 2 ^ s ∧
      ∀ i < 2 ^ s, i < m → b.getD i 0 = (listPoly a).eval (omega ^ i)
  | 0, omega, a, ha, _, _         => by
    refine ⟨a, by rw [fftRec]; simp, ha, fun i hi _ => ?_⟩
    have hi0 : i = 0 := by simpa using hi
    rw [eval_listPoly ha.le, hi0]
    simp
  | s + 1, omega, a, ha, hw, hvan => by
    have hne : (2 : Nat) ^ (s + 1) ≠ 1 := by simp
    have hn : (2 : Nat) ^ (s + 1) = 2 * 2 ^ s := by rw [pow_succ, mul_comm]
    have hpos : 0 < (2 : Nat) ^ s := by positivity
    have hhalf : (2 : Nat) ^ (s + 1) / 2 = 2 ^ s := by omega
    rw [fftRec, if_neg hne]
    cases hM : matrixAt van threshold (2 ^ (s + 1)) with
    | some M =>
      have hMe := hvan (s + 1) 0 M rfl hM
      rw [pow_zero, pow_one] at hMe
      refine ⟨_, rfl, by simp [hMe, mulVec_fftVandermonde omega ha], fun i hi _ => ?_⟩
      rw [hMe, mulVec_fftVandermonde omega ha, getD_map_range _ hi]
    | none   =>
      have hsq : ∀ t, s = t + 1 → (omega * omega) ^ 2 ^ t = -1 := fun t ht => by
        rw [← pow_two, ← pow_mul, ← pow_succ', ← hw (t + 1) (by omega)]
      obtain ⟨a0, h0, -, hv0⟩ := fftRec_eval van threshold m (a := evens a (2 ^ s)) (by simp [evens]) hsq hvan.half
      obtain ⟨a1, h1, -, hv1⟩ := fftRec_eval van threshold m (a := odds a (2 ^ s)) (by simp [odds]) hsq hvan.half
      have hj := joined_foldl a0 a1 omega m (ha.trans hn) (Nat.le_refl (2 ^ s))
      rw [← hn] at hj
      refine ⟨_, by rw [if_neg (by omega), hhalf, h0, h1]; rfl, hj.length.trans hn.symm, fun i hi him => ?_⟩
      have heval : ∀ x, (listPoly a).eval x =
          (listPoly (evens a (2 ^ s))).eval (x * x) + x * (listPoly (odds a (2 ^ s))).eval (x * x) :=
        eval_listPoly_even_odd (ha.trans hn).le
      rcases Nat.lt_or_ge i (2 ^ s) with hlt | hge
      · rw [hj.low i hlt him, hv0 i hlt him, hv1 i hlt him, heval, ← mul_pow]
      · obtain ⟨k, rfl⟩ : ∃ k, i = k + 2 ^ s := ⟨i - 2 ^ s, by omega⟩
        have hk : k < 2 ^ s := by omega
        have hneg : omega ^ (k + 2 ^ s) = -omega ^ k := by rw [pow_add, hw s rfl, mul_neg_one]
        rw [hj.high k hk him, hv0 k hk (by omega), hv1 k hk (by omega), heval, hneg, neg_mul_neg, ← mul_pow]
        ring

end

/-! ## What the map holds -/

/-- Every matrix is the one of its root under the modulus the map is for. -/
structure FftCache.Ok (c : FftCache) : Prop where
  modulus : c.matrices ≠ [] → 1 < c.modulus
  entry : ∀ n w M, ((n, w), M) ∈ c.matrices →
    M = (fftVandermonde (w : ZMod c.modulus) n).map fun row => row.map ZMod.val

theorem FftCache.ok_empty : FftCache.Ok {} := ⟨by simp, by simp⟩

theorem FftCache.Ok.forModulus {c : FftCache} (h : c.Ok) (p : Nat) :
    (c.forModulus p).Ok ∧ (c.forModulus p).modulus = p := by
  rw [FftCache.forModulus]
  split
  · exact ⟨⟨by simp, by simp⟩, rfl⟩
  · rename_i hp
    exact ⟨h, (not_not.1 hp).symm⟩

theorem mem_of_lookup {α β : Type} [BEq α] [LawfulBEq α] {k : α} {v : β} : ∀ {l : List (α × β)},
    l.lookup k = some v → (k, v) ∈ l
  | (k', v') :: l, h => by
    rw [List.lookup_cons] at h
    split at h
    · rename_i hk
      cases eq_of_beq hk
      cases h
      exact List.mem_cons_self
    · exact List.mem_cons_of_mem _ (mem_of_lookup h)

/-- **The matrix taken from the map is the root's own**, whatever was put into the map before. -/
theorem getFftVandermondeMatrix_eq {p : Nat} (hp : 1 < p) {c : FftCache} (h : c.Ok) (omega : ZMod p) (n : Nat) :
    (getFftVandermondeMatrix c omega n).1 = fftVandermonde omega n ∧ (getFftVandermondeMatrix c omega n).2.Ok := by
  obtain ⟨hok, hmod⟩ := h.forModulus p
  have hne : NeZero p := ⟨by omega⟩
  have hself : ((omega.val : Nat) : ZMod p) = omega := ZMod.natCast_zmod_val omega
  have hround : ∀ M : List (List (ZMod p)), (M.map fun row => row.map ZMod.val).map (fun row => row.map Nat.cast) = M :=
    fun M => by
      simp [Function.comp_def]
  generalize hc : c.forModulus p = d at hok hmod
  subst hmod
  cases hl : d.matrices.lookup (n, omega.val) with
  | some M =>
    have he : d.ensure omega n = d := by rw [FftCache.ensure, hl]
    have hM := hok.entry n omega.val M (mem_of_lookup hl)
    rw [getFftVandermondeMatrix, hc, he]
    refine ⟨?_, hok⟩
    simp only [hl, Option.getD_some, hM, hself, hround]
  | none   =>
    have he : d.ensure omega n = { d with matrices :=
        ((n, omega.val), (fftVandermonde omega n).map (fun row => row.map ZMod.val)) :: d.matrices } := by
      rw [FftCache.ensure, hl]
    rw [getFftVandermondeMatrix, hc, he]
    refine ⟨?_, fun _ => hp, fun n' w' M' hM' => ?_⟩
    · simp only [List.lookup_cons_self, Option.getD_some, hround]
    · rcases List.mem_cons.1 hM' with heq | hmem
      · cases heq
        simp only [hself]
      · exact hok.entry n' w' M' hmem

/-! ## What `fft` returns -/

theorem vanMatrix_ok {p : Nat} (hp : 1 < p) {c : FftCache} (h : c.Ok) (omega : ZMod p) (n : Nat) :
    (vanMatrix c omega n).2.Ok := by
  rw [vanMatrix]
  split
  · exact (getFftVandermondeMatrix_eq hp h _ _).2
  · exact h

/-- Where `_fft` gets to size 16, the matrix is the one of the root it has there. -/
theorem vanMatrix_fits {p : Nat} (hp : 1 < p) {c : FftCache} (h : c.Ok) (omega : ZMod p) (s : Nat) :
    MatrixFits (vanMatrix c omega (2 ^ s)).1 fftVanThreshold omega s := by
  intro t e M hs hM
  rw [vanMatrix] at hM
  split at hM
  · rw [matrixAt] at hM
    split at hM
    · rename_i hge ht
      change some (getFftVandermondeMatrix c _ _).1 = some M at hM
      rw [(getFftVandermondeMatrix_eq hp h _ _).1] at hM
      cases hM
      have hdiv : 2 ^ s / fftVanThreshold = 2 ^ e := by
        rw [ht, hs, pow_add, Nat.mul_div_cancel_left _ (by positivity)]
      rw [hdiv, ht]
    · cases hM
  · simp [matrixAt] at hM

theorem fft_ok {p : Nat} (hp : 1 < p) {c c' : FftCache} (h : c.Ok) {coeffs out : List (ZMod p)} {omega : ZMod p} {n : Nat}
    {k : Option Nat} (hf : fft c coeffs omega n k = some (out, c')) : c'.Ok := by
  have hv := vanMatrix_ok hp h omega n
  simp only [fft, Option.bind_eq_bind, Option.bind_eq_some_iff] at hf
  obtain ⟨a, -, ha⟩ := hf
  cases k with
  | none   => cases ha; exact hv
  | some k => cases ha; exact hv

/-- **`fft` evaluates at the powers of the root**: all of them, or the first `k`. -/
theorem fft_eq {p : Nat} (hp : 1 < p) {c : FftCache} (h : c.Ok) {s : Nat} {omega : ZMod p}
    (hw : ∀ t, s = t + 1 → omega ^ 2 ^ t = -1) {coeffs : List (ZMod p)} (hlen : coeffs.length ≤ 2 ^ s) {k : Option Nat}
    (hk : k.getD (2 ^ s) ≤ 2 ^ s) :
    fft c coeffs omega (2 ^ s) k = some
      ((List.range (k.getD (2 ^ s))).map fun i => (listPoly coeffs).eval (omega ^ i), (vanMatrix c omega (2 ^ s)).2) := by
  obtain ⟨b, hb, hbl, hbv⟩ := fftRec_eval _ fftVanThreshold (k.getD (2 ^ s))
    (a := (List.range (2 ^ s)).map fun i => coeffs.getD i 0) (by simp) hw (vanMatrix_fits hp h omega s)
  simp only [listPoly_pad hlen] at hbv
  have ht := take_eq_map_range (k := k.getD (2 ^ s)) (by omega) (fun i hi => hbv i (by omega) hi)
  simp only [fft, Option.bind_eq_bind, hb, Option.bind_some]
  cases k with
  | none   =>
    rw [← ht, Option.getD_none, ← hbl, List.take_length]
  | some k =>
    have hkl : k - b.length = 0 := by simp at hk; omega
    rw [← ht, Option.getD_some]
    simp [setLength, hkl]

theorem neg_one_of_primitive {p : Nat} [Fact p.Prime] {s : Nat} {omega : ZMod p} (h : IsPrimitiveRoot omega (2 ^ s)) :
    ∀ t, s = t + 1 → omega ^ 2 ^ t = -1 := by
  intro t ht
  have h2 : IsPrimitiveRoot (omega ^ 2 ^ t) 2 :=
    h.pow (by positivity) (by rw [ht, pow_succ])
  exact h2.eq_neg_one_of_two_right

/-! ## The Python functions -/

/-- What `fft` and `partial_fft` of the module share; `ZZ_p_init` wants a modulus above `1`. -/
def fftOfInts (c : FftCache) (coeffs : List Nat) (omega modulus n : Nat) (k : Option Nat) :
    Option (List Nat × FftCache) :=
  if 1 < modulus then
    (fft c (coeffs.map Nat.cast : List (ZMod modulus)) (omega : ZMod modulus) n k).map
      (fun out => (out.1.map ZMod.val, out.2))
  else none

/-- `fft` of the module. -/
def pyFft (c : FftCache) (coeffs : List Nat) (omega modulus n : Nat) : Option (List Nat × FftCache) :=
  fftOfInts c coeffs omega modulus n none

def partialFft (c : FftCache) (coeffs : List Nat) (omega modulus n k : Nat) : Option (List Nat × FftCache) :=
  fftOfInts c coeffs omega modulus n (some k)

def fftEach {p : Nat} (omega : ZMod p) (n k : Nat) :
    FftCache → List (List (ZMod p)) → Option (List (List (ZMod p)) × FftCache)
  | c, []              => some ([], c)
  | c, coeffs :: batch => do
    let (out, c) ← fft c coeffs omega n (some k)
    let (outs, c) ← fftEach omega n k c batch
    some (out :: outs, c)

/-- `fft_batch_evaluate`: of each polynomial as many coefficients as the first one has. -/
def fftBatchEvaluate (c : FftCache) (coeffs : List (List Nat)) (omega modulus n k : Nat) :
    Option (List (List Nat) × FftCache) :=
  match coeffs with
  | []        => none
  | coeffs0 :: _ =>
    let d := coeffs0.length
    if 1 < modulus ∧ ∀ row ∈ coeffs, d ≤ row.length then
      (fftEach (omega : ZMod modulus) n k c (coeffs.map fun row => (row.take d).map Nat.cast)).map
        (fun out => (out.1.map fun row => row.map ZMod.val, out.2))
    else none

/-! ## Runs -/

/-- A call of `fft`; nothing else touches the map. -/
structure FftCall where
  modulus : Nat
  coeffs : List (ZMod modulus)
  omega : ZMod modulus
  n : Nat
  k : Option Nat

/-- `ZZ_p::init` wants a modulus above `1`. -/
def FftCall.run (c : FftCache) (call : FftCall) : Option FftCache :=
  if 1 < call.modulus then (fft c call.coeffs call.omega call.n call.k).map Prod.snd else none

/-- The map after these calls; it is empty before the first. -/
def runCalls (calls : List FftCall) : Option FftCache := calls.foldlM FftCall.run {}

theorem FftCall.run_ok {c c' : FftCache} (h : c.Ok) {call : FftCall} (hr : call.run c = some c') : c'.Ok := by
  rw [FftCall.run] at hr
  split at hr
  · rename_i hp
    obtain ⟨⟨out, c₁⟩, hf, heq⟩ := Option.map_eq_some_iff.1 hr
    cases heq
    exact fft_ok hp h hf
  · cases hr

theorem foldlM_run_ok : ∀ {calls : List FftCall} {c c' : FftCache}, c.Ok → calls.foldlM FftCall.run c = some c' → c'.Ok
  | [], _, _, h, hr             => by cases hr; exact h
  | call :: calls, c, c', h, hr => by
    rw [List.foldlM_cons, Option.bind_eq_bind, Option.bind_eq_some_iff] at hr
    obtain ⟨c₁, h₁, hr⟩ := hr
    exact foldlM_run_ok (FftCall.run_ok h h₁) hr

/-- **Whatever calls came before**, the map is in order. -/
theorem runCalls_ok {calls : List FftCall} {c : FftCache} (h : runCalls calls = some c) : c.Ok :=
  foldlM_run_ok FftCache.ok_empty h

theorem fftRec_returns {F : Type} [CommRing F] (van : Option (List (List F))) (threshold m : Nat) {n : Nat} (hn : 1 ≤ n) :
    ∀ (omega : F) (a : List F), ∃ b, fftRec van threshold m n omega a = some b := by
  induction n using Nat.strong_induction_on with
  | _ n ih =>
    intro omega a
    rw [fftRec]
    split
    · exact ⟨_, rfl⟩
    · split
      · exact ⟨_, rfl⟩
      · obtain ⟨a0, h0⟩ := ih (n / 2) (by omega) (by omega) (omega * omega) (evens a (n / 2))
        obtain ⟨a1, h1⟩ := ih (n / 2) (by omega) (by omega) (omega * omega) (odds a (n / 2))
        rw [if_neg (by omega), h0, h1]
        exact ⟨_, rfl⟩

theorem FftCall.run_returns {call : FftCall} (hp : 1 < call.modulus) (hn : 1 ≤ call.n) (c : FftCache) :
    ∃ c', call.run c = some c' := by
  obtain ⟨b, hb⟩ := fftRec_returns (vanMatrix c call.omega call.n).1 fftVanThreshold (call.k.getD call.n) hn call.omega
    ((List.range call.n).map fun i => call.coeffs.getD i 0)
  rw [FftCall.run, if_pos hp]
  simp only [fft, Option.bind_eq_bind, hb, Option.bind_some]
  cases call.k with
  | none   => exact ⟨_, rfl⟩
  | some k => exact ⟨_, rfl⟩

/-- **Every run of calls of sizes from `1` on ends.** -/
theorem runCalls_returns {calls : List FftCall} (h : ∀ call ∈ calls, 1 < call.modulus ∧ 1 ≤ call.n) :
    ∃ c, runCalls calls = some c := by
  have hfold : ∀ {calls : List FftCall} (c : FftCache), (∀ call ∈ calls, 1 < call.modulus ∧ 1 ≤ call.n) →
      ∃ c', calls.foldlM FftCall.run c = some c' := by
    intro calls
    induction calls with
    | nil             => exact fun c _ => ⟨c, rfl⟩
    | cons call calls ih =>
      intro c h
      obtain ⟨c₁, h₁⟩ := FftCall.run_returns (h call List.mem_cons_self).1 (h call List.mem_cons_self).2 c
      rw [List.foldlM_cons, h₁]
      exact ih c₁ (fun call hc => h call (List.mem_cons_of_mem _ hc))
  exact hfold {} h

/-- **After any calls `fft` evaluates the polynomial at the powers of the root.** -/
theorem fft_evaluates {calls : List FftCall} {c : FftCache} (hc : runCalls calls = some c) {p : Nat} [Fact p.Prime]
    {s : Nat} {omega : ZMod p} (h : IsPrimitiveRoot omega (2 ^ s)) {coeffs : List (ZMod p)}
    (hlen : coeffs.length ≤ 2 ^ s) :
    (∀ k, 1 ≤ k → k ≤ 2 ^ s → (fft c coeffs omega (2 ^ s) (some k)).map Prod.fst = some
      ((List.range k).map fun i => (listPoly coeffs).eval (omega ^ i))) ∧
    (fft c coeffs omega (2 ^ s) none).map Prod.fst = some
      ((List.range (2 ^ s)).map fun i => (listPoly coeffs).eval (omega ^ i)) := by
  have hp : 1 < p := (Fact.out : p.Prime).one_lt
  have hw := neg_one_of_primitive h
  constructor
  · intro k _ hk
    rw [fft_eq hp (runCalls_ok hc) hw hlen (by simpa using hk)]
    rfl
  · rw [fft_eq hp (runCalls_ok hc) hw hlen (by simp)]
    rfl

theorem isPrimitiveRoot_97 : IsPrimitiveRoot (28 : ZMod 97) (2 ^ 5) := by
  have h : orderOf (28 : ZMod 97) = 2 ^ 5 :=
    orderOf_eq_prime_pow (by decide) (by decide)
  exact h ▸ IsPrimitiveRoot.orderOf _

/-- After calls under two moduli, one of them with a matrix of another root. -/
theorem fft_evaluates_97 : ∃ c,
    runCalls [⟨17, [1, 2], 3, 16, none⟩, ⟨97, [5], 8, 16, some 3⟩, ⟨97, [1, 1, 4], 28, 32, some 9⟩] = some c ∧
    (fft c [3, 0, 96] (28 : ZMod 97) (2 ^ 5) (some 20)).map Prod.fst = some
      ((List.range 20).map fun i => (listPoly [3, 0, 96]).eval ((28 : ZMod 97) ^ i)) := by
  have h97 : Fact (Nat.Prime 97) := ⟨by norm_num⟩
  have hruns : ∀ call ∈ ([⟨17, [1, 2], 3, 16, none⟩, ⟨97, [5], 8, 16, some 3⟩, ⟨97, [1, 1, 4], 28, 32, some 9⟩] :
      List FftCall), 1 < call.modulus ∧ 1 ≤ call.n := by simp
  obtain ⟨c, hc⟩ := runCalls_returns hruns
  exact ⟨c, hc, (fft_evaluates hc isPrimitiveRoot_97 (by decide)).1 20 (by decide) (by decide)⟩

/-! ## What the Python functions return -/

theorem fftOfInts_eq {calls : List FftCall} {c : FftCache} (hc : runCalls calls = some c) {p : Nat} [Fact p.Prime]
    {s omega : Nat} (h : IsPrimitiveRoot (omega : ZMod p) (2 ^ s)) {coeffs : List Nat} (hlen : coeffs.length ≤ 2 ^ s)
    {k : Option Nat} (hk : k.getD (2 ^ s) ≤ 2 ^ s) :
    (fftOfInts c coeffs omega p (2 ^ s) k).map Prod.fst = some ((List.range (k.getD (2 ^ s))).map fun i =>
      ((listPoly (coeffs.map (Nat.cast : Nat → ZMod p))).eval ((omega : ZMod p) ^ i)).val) := by
  have hp : 1 < p := (Fact.out : p.Prime).one_lt
  rw [fftOfInts, if_pos hp, fft_eq hp (runCalls_ok hc) (neg_one_of_primitive h) (by simpa using hlen) hk]
  simp

/-- **`fft` and `partial_fft` evaluate at all powers, and at the first `k`.** -/
theorem pyFft_evaluates {calls : List FftCall} {c : FftCache} (hc : runCalls calls = some c) {p : Nat} [Fact p.Prime]
    {s omega : Nat} (h : IsPrimitiveRoot (omega : ZMod p) (2 ^ s)) {coeffs : List Nat} (hlen : coeffs.length ≤ 2 ^ s)
    {k : Nat} (hk : k ≤ 2 ^ s) :
    (pyFft c coeffs omega p (2 ^ s)).map Prod.fst = some ((List.range (2 ^ s)).map fun i =>
      ((listPoly (coeffs.map (Nat.cast : Nat → ZMod p))).eval ((omega : ZMod p) ^ i)).val) ∧
    (partialFft c coeffs omega p (2 ^ s) k).map Prod.fst = some ((List.range k).map fun i =>
      ((listPoly (coeffs.map (Nat.cast : Nat → ZMod p))).eval ((omega : ZMod p) ^ i)).val) :=
  ⟨fftOfInts_eq hc h hlen (k := none) (Nat.le_refl _), fftOfInts_eq hc h hlen (k := some k) hk⟩

theorem fftEach_eq {p : Nat} (hp : 1 < p) {s : Nat} {omega : ZMod p} (hw : ∀ t, s = t + 1 → omega ^ 2 ^ t = -1) {k : Nat}
    (hk : k ≤ 2 ^ s) : ∀ (batch : List (List (ZMod p))) {c : FftCache}, c.Ok → (∀ coeffs ∈ batch, coeffs.length ≤ 2 ^ s) →
    ∃ c', c'.Ok ∧ fftEach omega (2 ^ s) k c batch = some
      (batch.map fun coeffs => (List.range k).map fun i => (listPoly coeffs).eval (omega ^ i), c')
  | [], c, h, _              => ⟨c, h, rfl⟩
  | coeffs :: batch, c, h, hb => by
    have hf := fft_eq hp h hw (hb coeffs List.mem_cons_self) (k := some k) hk
    obtain ⟨c', hc', he⟩ := fftEach_eq hp hw hk batch (vanMatrix_ok hp h omega (2 ^ s))
      (fun l hl => hb l (List.mem_cons_of_mem _ hl))
    refine ⟨c', hc', ?_⟩
    rw [fftEach, hf]
    simp only [Option.bind_eq_bind, Option.bind_some, he]
    rfl

/-- **A batch is evaluated polynomial by polynomial.** -/
theorem fftBatchEvaluate_evaluates {calls : List FftCall} {c : FftCache} (hc : runCalls calls = some c) {p : Nat}
    [Fact p.Prime] {s omega : Nat} (h : IsPrimitiveRoot (omega : ZMod p) (2 ^ s)) {batch : List (List Nat)} {d k : Nat}
    (hne : batch ≠ []) (hlen : ∀ row ∈ batch, row.length = d) (hd : d ≤ 2 ^ s) (hk : k ≤ 2 ^ s) :
    (fftBatchEvaluate c batch omega p (2 ^ s) k).map Prod.fst = some
      (batch.map fun row => (List.range k).map fun i =>
        ((listPoly (row.map (Nat.cast : Nat → ZMod p))).eval ((omega : ZMod p) ^ i)).val) := by
  have hp : 1 < p := (Fact.out : p.Prime).one_lt
  obtain ⟨coeffs0, rest, rfl⟩ := List.exists_cons_of_ne_nil hne
  have hd0 := hlen coeffs0 List.mem_cons_self
  have htake : ((coeffs0 :: rest).map fun row => (row.take coeffs0.length).map (Nat.cast : Nat → ZMod p))
      = (coeffs0 :: rest).map fun row => row.map (Nat.cast : Nat → ZMod p) :=
    List.map_congr_left (fun row hr => by rw [hd0, ← hlen row hr, List.take_length])
  obtain ⟨c', -, he⟩ := fftEach_eq hp (neg_one_of_primitive h) hk
    ((coeffs0 :: rest).map fun row => row.map (Nat.cast : Nat → ZMod p)) (runCalls_ok hc) (fun l hl => by
      obtain ⟨row, hr, rfl⟩ := List.mem_map.1 hl
      rw [List.length_map, hlen row hr]
      exact hd)
  rw [fftBatchEvaluate, if_pos ⟨hp, fun row hr => by rw [hd0, hlen row hr]⟩, htake, he]
  simp

end Ntl
end Dpid
