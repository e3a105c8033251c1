import Dpid.Places
import Dpid.Recoding
import Dpid.Window
/-!
# ScalarMul — multiples of points (`backend/serial/scalar_mul`)

The multiple of one point by its digits of four bits, in constant time; the sum of many multiples by Straus's method, in
constant time and not; and `aA + bB` by two non-adjacent forms.  All go through the digits from the highest down, with the
doublings shared.
-/
namespace Dpid
namespace Curve25519

open Checked Buckets Places
open Scalar (toRadix16 nonAdjacentForm)

/-! ## The functions -/

/-- Four doublings, and the last of them extended. -/
def sixteenfold (t : CompletedPoint) : Option EdwardsPoint := do
  let t ← (← t.toProjective).double
  let t ← (← t.toProjective).double
  let t ← (← t.toProjective).double
  let t ← (← t.toProjective).double
  t.toExtended

/-- `variable_base::mul`. -/
def variableBaseMul (point : EdwardsPoint) (scalar : Scalar) : Option EdwardsPoint := do
  let table : List ProjectiveNielsPoint ← lookupTable 8 point
  let digits ← toRadix16 scalar
  let tmp1 ← EdwardsPoint.identity.addProjectiveNiels (← select 8 table (← digits[63]?))
  let tmp1 ← forRev (fun i tmp1 => do
    let tmp3 ← sixteenfold tmp1
    tmp3.addProjectiveNiels (← select 8 table (← digits[i]?))) 63 tmp1
  tmp1.toExtended

/-- `Straus::multiscalar_mul`, in constant time. -/
def strausMul (scalars : List Scalar) (points : List EdwardsPoint) : Option EdwardsPoint := do
  let tables : List (List ProjectiveNielsPoint) ← points.mapM (lookupTable 8)
  let digits ← scalars.mapM toRadix16
  forRev (fun j Q => do
    let Q ← Q.mulByPow2 4
    (digits.zip tables).foldlM (fun Q st => do
      let R ← select 8 st.2 (← st.1[j]?)
      (← Q.addProjectiveNiels R).toExtended) Q) 64 EdwardsPoint.identity

/-- What a digit of a non-adjacent form adds to `t`. -/
def addNafDigit {T : Type} [Entry T] (size : Nat) (table : List T) (digit : Int) (t : CompletedPoint) :
    Option CompletedPoint :=
  if digit > 0 then do Entry.addTo (← t.toExtended) (← nafSelect size table digit.toNat)
  else if digit < 0 then do Entry.subFrom (← t.toExtended) (← nafSelect size table (-digit).toNat)
  else some t

/-- One place of many non-adjacent forms. -/
def addNafColumn {T : Type} [Entry T] (size : Nat) (terms : List (List Int × List T)) (j : Nat) (t : CompletedPoint) :
    Option CompletedPoint := terms.foldlM (fun t nt => do addNafDigit size nt.2 (← nt.1[j]?) t) t

/-- `Straus::optional_multiscalar_mul`: `none` inside where a point is missing. -/
def strausVartimeMul (scalars : List Scalar) (points : List (Option EdwardsPoint)) : Option (Option EdwardsPoint) := do
  let nafs ← scalars.mapM (nonAdjacentForm · 5)
  match points.mapM id with
  | none        => return none
  | some points => do
    let tables : List (List ProjectiveNielsPoint) ← points.mapM (nafLookupTable 8)
    let r ← forRev (fun i r => do
      let t ← addNafColumn 8 (nafs.zip tables) i (← r.double)
      t.toProjective) 256 ProjectivePoint.identity
    return some (← r.toExtended)

/-- `VartimePrecomputedStraus::new`. -/
def precomputedStraus (points : List EdwardsPoint) : Option (List (List AffineNielsPoint)) := points.mapM (nafLookupTable 64)

/-- `VartimePrecomputedStraus::optional_mixed_multiscalar_mul`. -/
def mixedMul (staticTables : List (List AffineNielsPoint)) (staticScalars dynamicScalars : List Scalar)
    (dynamicPoints : List (Option EdwardsPoint)) : Option (Option EdwardsPoint) := do
  let staticNafs ← staticScalars.mapM (nonAdjacentForm · 5)
  let dynamicNafs ← dynamicScalars.mapM (nonAdjacentForm · 5)
  match dynamicPoints.mapM id with
  | none        => return none
  | some points => do
    let dynamicTables : List (List ProjectiveNielsPoint) ← points.mapM (nafLookupTable 8)
    guard (staticTables.length = staticNafs.length)
    guard (dynamicTables.length = dynamicNafs.length)
    let S ← forRev (fun j S => do
      let R ← addNafColumn 8 (dynamicNafs.zip dynamicTables) j (← S.double)
      let R ← addNafColumn 64 (staticNafs.zip staticTables) j R
      R.toProjective) 256 ProjectivePoint.identity
    return some (← S.toExtended)

/-- The highest index below `n` at which one of the two digits is not zero, or `0`. -/
def startIndex (aNaf bNaf : List Int) : Nat → Nat
  | 0     => 0
  | i + 1 => if aNaf.getD i 0 ≠ 0 ∨ bNaf.getD i 0 ≠ 0 then i else startIndex aNaf bNaf i

/-- `vartime_double_base::mul`, for the table of the odd multiples of the base point. -/
def vartimeDoubleBaseMul (tableB : List AffineNielsPoint) (a : Scalar) (A : EdwardsPoint) (b : Scalar) :
    Option EdwardsPoint := do
  let aNaf ← nonAdjacentForm a 5
  let bNaf ← nonAdjacentForm b 8
  let tableA : List ProjectiveNielsPoint ← nafLookupTable 8 A
  let r ← forRev (fun i r => do
    let t ← r.double
    let t ← addNafDigit 8 tableA (← aNaf[i]?) t
    let t ← addNafDigit 64 tableB (← bNaf[i]?) t
    t.toProjective) (startIndex aNaf bNaf 256 + 1) ProjectivePoint.identity
  r.toExtended

/-! ## One point -/

variable {P Q : ed25519.Point}

theorem sixteenfold_returns {t : CompletedPoint} (ht : t.Of P) : Returns (sixteenfold t) (EdwardsPoint.Of (2 ^ 4 • P)) := by
  have hmul : 2 ^ 4 • P = 2 • 2 • 2 • 2 • P := by
    rw [← mul_nsmul', ← mul_nsmul', ← mul_nsmul']
    rfl
  rw [hmul]
  refine (CompletedPoint.toProjective_returns ht).bind (fun _ h => (ProjectivePoint.double_returns h).bind (fun t ht => ?_))
  rw [← two_nsmul] at ht
  refine (CompletedPoint.toProjective_returns ht).bind (fun _ h => (ProjectivePoint.double_returns h).bind (fun t ht => ?_))
  rw [← two_nsmul] at ht
  refine (CompletedPoint.toProjective_returns ht).bind (fun _ h => (ProjectivePoint.double_returns h).bind (fun t ht => ?_))
  rw [← two_nsmul] at ht
  refine (CompletedPoint.toProjective_returns ht).bind (fun _ h => (ProjectivePoint.double_returns h).bind (fun t ht => ?_))
  rw [← two_nsmul] at ht
  exact CompletedPoint.toExtended_returns ht

/-- The digit at a place. -/
theorem getElem?_eq_getD {l : List Int} {i : Nat} (h : i < l.length) : l[i]? = some (l.getD i 0) := by
  rw [List.getElem?_eq_getElem h, List.getD_eq_getElem?_getD, List.getElem?_eq_getElem h, Option.getD_some]

/-- A term of a sum by digits of four bits, and what stands for it: the digits and the table. -/
def Radix16Term (k : Term ed25519.Point) (x : List Int × List ProjectiveNielsPoint) : Prop :=
  k.1 = x.1 ∧ (∃ n, Scalar.Radix 4 64 n k.1) ∧ Multiples 8 k.2 x.2

/-- What the table of a term and a digit of four bits give. -/
theorem select_digit_returns {k : Term ed25519.Point} {x : List Int × List ProjectiveNielsPoint} (h : Radix16Term k x)
    {j : Nat} (hj : j < 64) :
    Returns x.1[j]? (fun d => Returns (select 8 x.2 d) (ProjectiveNielsPoint.Of (k.1.getD j 0 • k.2))) := by
  obtain ⟨hd, ⟨n, hr⟩, ht⟩ := h
  have hlt : j < k.1.length := by
    rw [hr.length]
    exact hj
  have hbound := hr.bounded (k.1.getD j 0) (List.mem_of_getElem? (getElem?_eq_getD hlt))
  exact ⟨k.1.getD j 0, hd ▸ getElem?_eq_getD hlt, select_returns (by decide) ht (by omega) (by omega)⟩

/-- **The multiple of a point by any scalar below `2 ^ 255`.** -/
theorem variableBaseMul_returns {point : EdwardsPoint} {scalar : Scalar} (hp : point.Of P) (hs : scalar.val < 2 ^ 255) :
    Returns (variableBaseMul point scalar) (EdwardsPoint.Of (scalar.val • P)) := by
  refine (lookupTable_returns hp (by decide)).bind (fun table htable => ?_)
  refine (Scalar.toRadix16_returns hs).bind (fun digits hd => ?_)
  have hterm : Radix16Term (digits, P) (digits, table) := ⟨rfl, ⟨_, hd⟩, htable⟩
  have hlen : ∀ t ∈ [(digits, P)], t.1.length = 64 := List.forall_mem_singleton.2 hd.length
  have hhorner : ∀ i < 64,
      (2 ^ 4 : Nat) • placesFrom 4 [(digits, P)] (i + 1) + digits.getD i 0 • P = placesFrom 4 [(digits, P)] i := by
    intro i hi
    have h := placesFrom_horner 4 (j := i) [(digits, P)] (fun t ht => (hlen t ht).symm ▸ hi)
    rwa [placeSum, List.map_singleton, List.sum_singleton] at h
  have hdone : placesFrom 4 [(digits, P)] 0 = scalar.val • P := by
    rw [placesFrom_zero, List.map_singleton, List.sum_singleton, hd.value, natCast_zsmul]
  rw [← hdone]
  refine (select_digit_returns hterm (by decide : 63 < 64)).bind (fun d hdig => hdig.bind (fun q hq => ?_))
  refine (EdwardsPoint.addProjectiveNiels_returns EdwardsPoint.identity_of hq).bind (fun t ht => ?_)
  have hstart := hhorner 63 (by decide)
  rw [placesFrom_length 4 hlen, nsmul_zero] at hstart
  rw [hstart] at ht
  refine (Returns.forRev (I := fun i t => t.Of (placesFrom 4 [(digits, P)] i)) (fun i t hi ht => ?_) ht).bind
    (fun t ht => CompletedPoint.toExtended_returns ht)
  refine (sixteenfold_returns ht).bind (fun tmp3 h3 => ?_)
  refine (select_digit_returns hterm (Nat.lt_succ_of_lt hi)).bind (fun d hdig => hdig.bind (fun q hq => ?_))
  rw [← hhorner i (Nat.lt_succ_of_lt hi)]
  exact EdwardsPoint.addProjectiveNiels_returns h3 hq

/-! ## Many points, in constant time -/

/-- `s₁ P₁ + ... + sₙ Pₙ`. -/
def dot (scalars : List Scalar) (Ps : List ed25519.Point) : ed25519.Point := ((scalars.zip Ps).map fun sp => sp.1.val • sp.2).sum

/-- Two lists in step, each zipped with the same. -/
theorem forall₂_zip {τ : Type} {A : List Int → Prop} {B : ed25519.Point → τ → Prop} : ∀ {ds : List (List Int)}
    {Ps : List ed25519.Point} {ts : List τ}, (∀ d ∈ ds, A d) → List.Forall₂ B Ps ts →
      List.Forall₂ (fun (k : Term ed25519.Point) x => k.1 = x.1 ∧ A k.1 ∧ B k.2 x.2) (ds.zip Ps) (ds.zip ts)
  | [], _, _, _, _                                     => by
    rw [List.zip_nil_left, List.zip_nil_left]
    exact List.Forall₂.nil
  | _ :: _, _, _, _, List.Forall₂.nil                  => List.Forall₂.nil
  | d :: _, P :: Ps, t :: ts, hA, List.Forall₂.cons h hrest =>
    List.Forall₂.cons ⟨rfl, hA d List.mem_cons_self, h⟩ (forall₂_zip (fun e he => hA e (List.mem_cons_of_mem d he)) hrest)

/-- The digits of the scalars give the sum of the multiples. -/
theorem placesFrom_zip {w : Nat} : ∀ {scalars : List Scalar} {ds : List (List Int)} {Ps : List ed25519.Point},
    List.Forall₂ (fun s d => digitsVal w d = (Scalar.val s : Int)) scalars ds → placesFrom w (ds.zip Ps) 0 = dot scalars Ps
  | [], [], Ps, _                                    => by
    rw [dot, List.zip_nil_left, List.zip_nil_left]
    rfl
  | _ :: _, _ :: _, [], _                            => by
    rw [dot, List.zip_nil_right, List.zip_nil_right]
    rfl
  | s :: scalars, d :: ds, P :: Ps, List.Forall₂.cons h hrest => by
    have ih : placesFrom w (ds.zip Ps) 0 = dot scalars Ps := placesFrom_zip hrest
    rw [placesFrom_zero, dot] at ih ⊢
    rw [List.zip_cons_cons, List.zip_cons_cons, List.map_cons, List.map_cons, List.sum_cons, List.sum_cons, ih, h, natCast_zsmul]

/-- **Straus's method**: the sum of the multiples, for scalars below `2 ^ 255`. -/
theorem strausMul_returns {scalars : List Scalar} {points : List EdwardsPoint} {Ps : List ed25519.Point}
    (hs : ∀ s ∈ scalars, Scalar.val s < 2 ^ 255) (hp : List.Forall₂ (fun P p => EdwardsPoint.Of P p) Ps points) :
    Returns (strausMul scalars points) (EdwardsPoint.Of (dot scalars Ps)) := by
  have htable : ∀ (P : ed25519.Point) (p : EdwardsPoint), p.Of P →
      Returns (lookupTable 8 p : Option (List ProjectiveNielsPoint)) (Multiples 8 P) := fun P p h => lookupTable_returns h (by decide)
  refine (Returns.mapM_forall₂ htable hp).bind (fun tables htables => ?_)
  refine (Returns.mapM scalars (fun s h => Scalar.toRadix16_returns (hs s h))).bind (fun digits hd => ?_)
  have hradix : ∀ d ∈ digits, ∃ n, Scalar.Radix 4 64 n d := fun d hmem => by
    obtain ⟨s, -, h⟩ := forall₂_mem_right hd hmem
    exact ⟨_, h⟩
  have hterms : List.Forall₂ Radix16Term (digits.zip Ps) (digits.zip tables) := forall₂_zip hradix htables
  have hlen : ∀ t ∈ digits.zip Ps, t.1.length = 64 := fun t ht => by
    obtain ⟨n, h⟩ := hradix t.1 (List.of_mem_zip ht).1
    exact h.length
  have hdone : placesFrom 4 (digits.zip Ps) 0 = dot scalars Ps := placesFrom_zip (hd.imp (fun _ _ h => h.value))
  rw [← hdone]
  refine Returns.forRev (I := fun j (Q : EdwardsPoint) => Q.Of (placesFrom 4 (digits.zip Ps) j)) (fun j Q hj hQ => ?_) ?_
  · refine (EdwardsPoint.mulByPow2_returns hQ (by decide)).bind (fun Q' hQ' => ?_)
    rw [← placesFrom_horner 4 (digits.zip Ps) (fun t ht => (hlen t ht).symm ▸ hj)]
    refine foldlM_sum (fun _ _ _ _ hterm hs => ?_) hterms hQ'
    refine (select_digit_returns hterm hj).bind (fun d hdig => hdig.bind (fun R hR => ?_))
    exact (EdwardsPoint.addProjectiveNiels_returns hs hR).bind (fun t ht => CompletedPoint.toExtended_returns ht)
  · rw [placesFrom_length 4 hlen]
    exact EdwardsPoint.identity_of

/-! ## Many points, by non-adjacent forms -/

section

variable {T : Type} [Entry T] [LawfulEntry T] {w size : Nat}

/-- **A digit of a non-adjacent form** adds, subtracts or leaves alone. -/
theorem addNafDigit_returns (hw : (2 : Int) ^ (w - 1) ≤ 2 * size) {table : List T} (h : OddMultiples size Q table) {d : Int}
    (hd : Scalar.NafDigit w d) {t : CompletedPoint} (ht : t.Of P) :
    Returns (addNafDigit size table d t) (CompletedPoint.Of (P + d • Q)) := by
  have hodd : d ≠ 0 → d % 2 = 1 ∧ -(2 * size : Int) < d ∧ d < 2 * size := fun h0 => by
    obtain ⟨h2, hlo, hhi⟩ := hd.resolve_left h0
    exact ⟨h2, by omega, by omega⟩
  unfold addNafDigit
  by_cases hpos : d > 0
  · obtain ⟨h2, hlo, hhi⟩ := hodd (by omega)
    rw [if_pos hpos]
    refine (CompletedPoint.toExtended_returns ht).bind (fun p hp => ?_)
    refine (nafSelect_returns h (x := d.toNat) (by omega) (by omega)).bind (fun q hq => ?_)
    have hmul : d • Q = d.toNat • Q := by rw [← natCast_zsmul, Int.toNat_of_nonneg (by omega)]
    rw [hmul]
    exact LawfulEntry.addTo_returns hp hq
  · rw [if_neg hpos]
    by_cases hneg : d < 0
    · obtain ⟨h2, hlo, hhi⟩ := hodd (by omega)
      rw [if_pos hneg]
      refine (CompletedPoint.toExtended_returns ht).bind (fun p hp => ?_)
      refine (nafSelect_returns h (x := (-d).toNat) (by omega) (by omega)).bind (fun q hq => ?_)
      have hmul : P + d • Q = P - (-d).toNat • Q := by
        rw [← natCast_zsmul, Int.toNat_of_nonneg (by omega), neg_zsmul, sub_neg_eq_add]
      rw [hmul]
      exact LawfulEntry.subFrom_returns hp hq
    · have h0 : d = 0 := by omega
      rw [if_neg hneg, h0, zero_zsmul, add_zero]
      exact Returns.ret ht

/-- A term of a sum by non-adjacent forms, and what stands for it: the digits and the table. -/
def NafTerm (w size : Nat) (k : Term ed25519.Point) (x : List Int × List T) : Prop :=
  k.1 = x.1 ∧ (∃ n, Scalar.Naf w n k.1) ∧ OddMultiples size k.2 x.2

theorem nafTerm_returns (hw : (2 : Int) ^ (w - 1) ≤ 2 * size) {k : Term ed25519.Point} {x : List Int × List T}
    (h : NafTerm w size k x) {j : Nat} (hj : j < 256) {t : CompletedPoint} (ht : t.Of P) :
    Returns x.1[j]? (fun d => Returns (addNafDigit size x.2 d t) (CompletedPoint.Of (P + k.1.getD j 0 • k.2))) := by
  obtain ⟨hd, ⟨n, hn⟩, htable⟩ := h
  have hlt : j < k.1.length := by
    rw [hn.length]
    exact hj
  exact ⟨k.1.getD j 0, hd ▸ getElem?_eq_getD hlt, addNafDigit_returns hw htable (hn.digit j) ht⟩

theorem addNafColumn_returns (hw : (2 : Int) ^ (w - 1) ≤ 2 * size) {ks : List (Term ed25519.Point)}
    {xs : List (List Int × List T)} (h : List.Forall₂ (NafTerm w size) ks xs) {j : Nat} (hj : j < 256) {t : CompletedPoint}
    (ht : t.Of P) : Returns (addNafColumn size xs j t) (CompletedPoint.Of (P + placeSum ks j)) := by
  refine foldlM_sum (fun _ _ _ _ hterm hs => ?_) h ht
  exact (nafTerm_returns hw hterm hj hs).bind (fun _ hdig => hdig)

end

theorem projective_double_returns {r : ProjectivePoint} (hr : r.Of P) : Returns r.double (CompletedPoint.Of (2 ^ 1 • P)) := by
  rw [pow_one, two_nsmul]
  exact ProjectivePoint.double_returns hr

theorem mapM_id_map_some {α : Type} : ∀ l : List α, (l.map some).mapM id = some l
  | []     => rfl
  | x :: l => by
    rw [List.map_cons, List.mapM_cons, mapM_id_map_some l]
    rfl

theorem mapM_id_none {α : Type} : ∀ {l : List (Option α)}, none ∈ l → l.mapM id = none
  | x :: l, h => by
    rw [List.mapM_cons]
    cases x with
    | none   => rfl
    | some x =>
      rw [mapM_id_none ((List.mem_cons.1 h).resolve_left (Option.some_ne_none x).symm)]
      rfl

theorem naf_of_mem {w : Nat} {scalars : List Scalar} {nafs : List (List Int)}
    (h : List.Forall₂ (fun s naf => Scalar.Naf w (Scalar.val s) naf) scalars nafs) : ∀ d ∈ nafs, ∃ n, Scalar.Naf w n d := by
  intro d hmem
  obtain ⟨s, -, hd⟩ := forall₂_mem_right h hmem
  exact ⟨_, hd⟩

theorem naf_length {w : Nat} {scalars : List Scalar} {nafs : List (List Int)} {Ps : List ed25519.Point}
    (h : List.Forall₂ (fun s naf => Scalar.Naf w (Scalar.val s) naf) scalars nafs) : ∀ t ∈ nafs.zip Ps, t.1.length = 256 := by
  intro t ht
  obtain ⟨n, hn⟩ := naf_of_mem h t.1 (List.of_mem_zip ht).1
  exact hn.length

/-- **Straus's method by non-adjacent forms**: the sum of the multiples. -/
theorem strausVartimeMul_returns {scalars : List Scalar} {points : List EdwardsPoint} {Ps : List ed25519.Point}
    (hs : ∀ s ∈ scalars, Scalar.val s < 2 ^ 255) (hp : List.Forall₂ (fun P p => EdwardsPoint.Of P p) Ps points) :
    Returns (strausVartimeMul scalars (points.map some)) (fun r => ∃ q, r = some q ∧ q.Of (dot scalars Ps)) := by
  have htable : ∀ (P : ed25519.Point) (p : EdwardsPoint), p.Of P →
      Returns (nafLookupTable 8 p : Option (List ProjectiveNielsPoint)) (OddMultiples 8 P) := fun P p h =>
    nafLookupTable_returns h (by decide)
  refine (Returns.mapM scalars (fun s h => Scalar.nonAdjacentForm_returns (hs s h) (by decide) (by decide))).bind
    (fun nafs hn => ?_)
  rw [mapM_id_map_some]
  refine (Returns.mapM_forall₂ htable hp).bind (fun tables htables => ?_)
  have hterms : List.Forall₂ (NafTerm 5 8) (nafs.zip Ps) (nafs.zip tables) := forall₂_zip (naf_of_mem hn) htables
  have hdone : placesFrom 1 (nafs.zip Ps) 0 = dot scalars Ps := placesFrom_zip (hn.imp (fun _ _ h => h.value))
  rw [← hdone]
  refine (Returns.forRev (I := fun j (r : ProjectivePoint) => r.Of (placesFrom 1 (nafs.zip Ps) j)) (fun j r hj hr => ?_)
    ?_).bind (fun r hr => (ProjectivePoint.toExtended_returns hr).bind (fun q hq => Returns.ret ⟨q, rfl, hq⟩))
  · refine (projective_double_returns hr).bind (fun t ht => ?_)
    rw [← placesFrom_horner 1 (nafs.zip Ps) (fun t ht => (naf_length hn t ht).symm ▸ hj)]
    exact (addNafColumn_returns (by decide) hterms hj ht).bind (fun t ht => CompletedPoint.toProjective_returns ht)
  · rw [placesFrom_length 1 (naf_length hn)]
    exact ProjectivePoint.identity_of

theorem strausVartimeMul_none {scalars : List Scalar} {points : List (Option EdwardsPoint)}
    (hs : ∀ s ∈ scalars, Scalar.val s < 2 ^ 255) (hp : none ∈ points) :
    Returns (strausVartimeMul scalars points) (· = none) := by
  refine (Returns.mapM scalars (fun s h => Scalar.nonAdjacentForm_returns (hs s h) (by decide) (by decide))).bind
    (fun nafs hn => ?_)
  rw [mapM_id_none hp]
  exact Returns.ret rfl

/-- **The mixed sum**: some of the points known before, their tables made then. -/
theorem mixedMul_returns {staticTables : List (List AffineNielsPoint)} {staticScalars dynamicScalars : List Scalar}
    {dynamicPoints : List EdwardsPoint} {Ps Qs : List ed25519.Point} (hstatic : List.Forall₂ (OddMultiples 64) Ps staticTables)
    (hdynamic : List.Forall₂ (fun P p => EdwardsPoint.Of P p) Qs dynamicPoints)
    (hs : ∀ s ∈ staticScalars, Scalar.val s < 2 ^ 255) (hd : ∀ s ∈ dynamicScalars, Scalar.val s < 2 ^ 255)
    (hslen : Ps.length = staticScalars.length) (hdlen : Qs.length = dynamicScalars.length) :
    Returns (mixedMul staticTables staticScalars dynamicScalars (dynamicPoints.map some))
      (fun r => ∃ q, r = some q ∧ q.Of (dot staticScalars Ps + dot dynamicScalars Qs)) := by
  have htable : ∀ (P : ed25519.Point) (p : EdwardsPoint), p.Of P →
      Returns (nafLookupTable 8 p : Option (List ProjectiveNielsPoint)) (OddMultiples 8 P) := fun P p h =>
    nafLookupTable_returns h (by decide)
  refine (Returns.mapM staticScalars (fun s h => Scalar.nonAdjacentForm_returns (hs s h) (by decide) (by decide))).bind
    (fun snafs hsn => ?_)
  refine (Returns.mapM dynamicScalars (fun s h => Scalar.nonAdjacentForm_returns (hd s h) (by decide) (by decide))).bind
    (fun dnafs hdn => ?_)
  rw [mapM_id_map_some]
  refine (Returns.mapM_forall₂ htable hdynamic).bind (fun dtables hdtables => ?_)
  refine guard_bind (hstatic.length_eq.symm.trans (hslen.trans hsn.length_eq)) ?_
  refine guard_bind (hdtables.length_eq.symm.trans (hdlen.trans hdn.length_eq)) ?_
  have hsterms : List.Forall₂ (NafTerm 5 64) (snafs.zip Ps) (snafs.zip staticTables) := forall₂_zip (naf_of_mem hsn) hstatic
  have hdterms : List.Forall₂ (NafTerm 5 8) (dnafs.zip Qs) (dnafs.zip dtables) := forall₂_zip (naf_of_mem hdn) hdtables
  have hsdone : placesFrom 1 (snafs.zip Ps) 0 = dot staticScalars Ps := placesFrom_zip (hsn.imp (fun _ _ h => h.value))
  have hddone : placesFrom 1 (dnafs.zip Qs) 0 = dot dynamicScalars Qs := placesFrom_zip (hdn.imp (fun _ _ h => h.value))
  rw [← hsdone, ← hddone]
  refine (Returns.forRev
    (I := fun j (S : ProjectivePoint) => S.Of (placesFrom 1 (snafs.zip Ps) j + placesFrom 1 (dnafs.zip Qs) j))
    (fun j S hj hS => ?_) ?_).bind
      (fun S hS => (ProjectivePoint.toExtended_returns hS).bind (fun q hq => Returns.ret ⟨q, rfl, hq⟩))
  · refine (projective_double_returns hS).bind (fun R hR => ?_)
    rw [← placesFrom_horner 1 (snafs.zip Ps) (fun t ht => (naf_length hsn t ht).symm ▸ hj),
      ← placesFrom_horner 1 (dnafs.zip Qs) (fun t ht => (naf_length hdn t ht).symm ▸ hj), add_add_add_comm, ← nsmul_add,
      add_comm (placeSum (snafs.zip Ps) j), ← add_assoc]
    refine (addNafColumn_returns (by decide) hdterms hj hR).bind (fun R hR => ?_)
    refine (addNafColumn_returns (by decide) hsterms hj hR).bind (fun R hR => ?_)
    exact CompletedPoint.toProjective_returns hR
  · rw [placesFrom_length 1 (naf_length hsn), placesFrom_length 1 (naf_length hdn), add_zero]
    exact ProjectivePoint.identity_of

/-! ## Two points -/

/-- Above the start there is no digit. -/
theorem startIndex_above (aNaf bNaf : List Int) : ∀ {n i : Nat}, startIndex aNaf bNaf n < i → i < n →
    aNaf.getD i 0 = 0 ∧ bNaf.getD i 0 = 0
  | n + 1, i, hlo, hhi => by
    rw [startIndex] at hlo
    split at hlo
    · omega
    · rename_i hzero
      obtain ⟨ha, hb⟩ := not_or.1 hzero
      by_cases hi : i = n
      · rw [hi]
        exact ⟨not_not.1 ha, not_not.1 hb⟩
      · exact startIndex_above aNaf bNaf hlo (by omega)

theorem startIndex_lt (aNaf bNaf : List Int) : ∀ {n : Nat}, 0 < n → startIndex aNaf bNaf n < n
  | n + 1, _ => by
    rw [startIndex]
    split
    · exact Nat.lt_succ_self n
    · cases n with
      | zero   => exact Nat.zero_lt_one
      | succ n => exact Nat.lt_succ_of_lt (startIndex_lt aNaf bNaf (Nat.succ_pos n))

theorem drop_eq_zero {l : List Int} {n : Nat} (h : ∀ i, n ≤ i → i < l.length → l.getD i 0 = 0) : ∀ d ∈ l.drop n, d = 0 := by
  intro d hd
  obtain ⟨k, hk, rfl⟩ := List.mem_iff_getElem.1 hd
  rw [List.length_drop] at hk
  have hget := h (n + k) (Nat.le_add_right n k) (by omega)
  rwa [List.getD_eq_getElem?_getD, List.getElem?_eq_getElem (by omega), Option.getD_some, ← List.getElem_drop] at hget

/-- **`aA + bB`**, for a table of the odd multiples of `B`. -/
theorem vartimeDoubleBaseMul_returns {tableB : List AffineNielsPoint} {a b : Scalar} {A : EdwardsPoint}
    (hB : OddMultiples 64 Q tableB) (ha : a.val < 2 ^ 255) (hA : A.Of P) (hb : b.val < 2 ^ 255) :
    Returns (vartimeDoubleBaseMul tableB a A b) (EdwardsPoint.Of (a.val • P + b.val • Q)) := by
  refine (Scalar.nonAdjacentForm_returns ha (by decide) (by decide)).bind (fun aNaf han => ?_)
  refine (Scalar.nonAdjacentForm_returns hb (by decide) (by decide)).bind (fun bNaf hbn => ?_)
  refine (nafLookupTable_returns hA (by decide)).bind (fun tableA htable => ?_)
  have htermA : NafTerm 5 8 (aNaf, P) (aNaf, tableA) := ⟨rfl, ⟨_, han⟩, htable⟩
  have htermB : NafTerm 8 64 (bNaf, Q) (bNaf, tableB) := ⟨rfl, ⟨_, hbn⟩, hB⟩
  have hlt : startIndex aNaf bNaf 256 < 256 := startIndex_lt aNaf bNaf (by decide)
  have hlen : ∀ t ∈ [(aNaf, P), (bNaf, Q)], t.1.length = 256 := by
    exact List.forall_mem_cons.2 ⟨han.length, List.forall_mem_singleton.2 hbn.length⟩
  have hdone : placesFrom 1 [(aNaf, P), (bNaf, Q)] 0 = a.val • P + b.val • Q := by
    rw [placesFrom_zero, List.map_cons, List.map_singleton, List.sum_cons, List.sum_singleton, han.value, hbn.value,
      natCast_zsmul, natCast_zsmul]
  have hstart : placesFrom 1 [(aNaf, P), (bNaf, Q)] (startIndex aNaf bNaf 256 + 1) = 0 := by
    refine placesFrom_eq_zero 1 (List.forall_mem_cons.2 ⟨?_, List.forall_mem_singleton.2 ?_⟩)
    · exact drop_eq_zero (fun i hlo hhi => (startIndex_above aNaf bNaf hlo (han.length ▸ hhi)).1)
    · exact drop_eq_zero (fun i hlo hhi => (startIndex_above aNaf bNaf hlo (hbn.length ▸ hhi)).2)
  rw [← hdone]
  refine (Returns.forRev (I := fun j (r : ProjectivePoint) => r.Of (placesFrom 1 [(aNaf, P), (bNaf, Q)] j))
    (fun j r hj hr => ?_) ?_).bind (fun r hr => ProjectivePoint.toExtended_returns hr)
  · have hj256 : j < 256 := by omega
    have h := placesFrom_horner 1 (j := j) [(aNaf, P), (bNaf, Q)] (fun t ht => (hlen t ht).symm ▸ hj256)
    rw [placeSum, List.map_cons, List.map_singleton, List.sum_cons, List.sum_singleton, ← add_assoc] at h
    rw [← h]
    refine (projective_double_returns hr).bind (fun t ht => ?_)
    refine (nafTerm_returns (by decide) htermA hj256 ht).bind (fun d hdig => hdig.bind (fun t ht => ?_))
    refine (nafTerm_returns (by decide) htermB hj256 ht).bind (fun d hdig => hdig.bind (fun t ht => ?_))
    exact CompletedPoint.toProjective_returns ht
  · rw [hstart]
    exact ProjectivePoint.identity_of

end Curve25519
end Dpid
