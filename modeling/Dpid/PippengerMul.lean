import Dpid.Pippenger
import Dpid.ScalarMul
/-!
# PippengerMul — sums of many multiples by buckets (`scalar_mul/pippenger.rs`)

A column of digits puts every point into the bucket of its digit, and two running sums weigh the buckets.  Below 190 points
`optional_multiscalar_mul` takes Straus's method, else this one; both give the same sum.
-/
namespace Dpid
namespace Curve25519

open Checked Buckets Places
open Scalar (toRadix2w toRadix2wSizeHint)

/-! ## The functions -/

/-- The loop over `scalars_points`: one point into its bucket. -/
def addToBucket (digitIndex : Nat) (buckets : List EdwardsPoint) (sp : List Int × ProjectiveNielsPoint) :
    Option (List EdwardsPoint) := do
  let digit ← sp.1[digitIndex]?
  if digit > 0 then
    let b := (digit - 1).toNat
    return buckets.set b (← (← (← buckets[b]?).addProjectiveNiels sp.2).toExtended)
  else if digit < 0 then
    let b := (-digit - 1).toNat
    return buckets.set b (← (← (← buckets[b]?).subProjectiveNiels sp.2).toExtended)
  else return buckets

/-- One bucket more for `buckets_intermediate_sum` and `buckets_sum`. -/
def addBucket (s : EdwardsPoint × EdwardsPoint) (x : EdwardsPoint) : Option (EdwardsPoint × EdwardsPoint) := do
  let intermediate ← s.1.plus x
  return (intermediate, ← s.2.plus intermediate)

/-- `buckets_sum`, from the last bucket to the first. -/
def bucketsSum (buckets : List EdwardsPoint) : Option EdwardsPoint :=
  match buckets.reverse with
  | []           => none
  | last :: rest => do return (← rest.foldlM addBucket (last, last)).2

/-- The column at `digit_index`. -/
def column (scalarsPoints : List (List Int × ProjectiveNielsPoint)) (bucketsCount digitIndex : Nat) : Option EdwardsPoint := do
  let buckets ← scalarsPoints.foldlM (addToBucket digitIndex) (List.replicate bucketsCount EdwardsPoint.identity)
  bucketsSum buckets

/-- The digits and the points, or `none` inside at the first point that is missing. -/
def collectPairs (w : Nat) : List (Scalar × Option EdwardsPoint) → Option (Option (List (List Int × ProjectiveNielsPoint)))
  | []           => return some []
  | (s, p) :: sp => do
    let digits ← toRadix2w s w
    match p with
    | none   => return none
    | some p => do
      let t ← p.toProjectiveNiels
      return (← collectPairs w sp).map ((digits, t) :: ·)

/-- `Pippenger::optional_multiscalar_mul`. -/
def pippengerMul (scalars : List Scalar) (points : List (Option EdwardsPoint)) : Option (Option EdwardsPoint) := do
  let w := Pairing.digitWidth scalars.length
  let digitsCount ← toRadix2wSizeHint w
  let bucketsCount := 2 ^ w / 2
  match ← collectPairs w (scalars.zip points) with
  | none               => return none
  | some scalarsPoints => do
    guard (0 < digitsCount)
    let hiColumn ← column scalarsPoints bucketsCount (digitsCount - 1)
    let total ← forRev (fun i total => do
      let p ← column scalarsPoints bucketsCount i
      (← total.mulByPow2 w).plus p) (digitsCount - 1) hiColumn
    return some total

/-- `EdwardsPoint::multiscalar_mul`. -/
def multiscalarMul (scalars : List Scalar) (points : List EdwardsPoint) : Option EdwardsPoint := do
  guard (scalars.length = points.length)
  strausMul scalars points

/-- `EdwardsPoint::optional_multiscalar_mul`. -/
def optionalMultiscalarMul (scalars : List Scalar) (points : List (Option EdwardsPoint)) : Option (Option EdwardsPoint) := do
  guard (scalars.length = points.length)
  if scalars.length < 190 then strausVartimeMul scalars points else pippengerMul scalars points

theorem multiscalarMul_eq {scalars : List Scalar} {points : List EdwardsPoint} (hlen : scalars.length = points.length) :
    multiscalarMul scalars points = strausMul scalars points := by
  have hguard : (guard (scalars.length = points.length) : Option Unit) = some () := if_pos hlen
  rw [multiscalarMul, hguard]
  rfl

/-- Lists of two lengths are a panic. -/
theorem multiscalarMul_panics {scalars : List Scalar} {points : List EdwardsPoint} (hlen : scalars.length ≠ points.length) :
    multiscalarMul scalars points = none := by
  have hguard : (guard (scalars.length = points.length) : Option Unit) = none := if_neg hlen
  rw [multiscalarMul, hguard]
  rfl

theorem optionalMultiscalarMul_eq {scalars : List Scalar} {points : List (Option EdwardsPoint)}
    (hlen : scalars.length = points.length) : optionalMultiscalarMul scalars points =
      if scalars.length < 190 then strausVartimeMul scalars points else pippengerMul scalars points := by
  have hguard : (guard (scalars.length = points.length) : Option Unit) = some () := if_pos hlen
  rw [optionalMultiscalarMul, hguard]
  rfl

theorem optionalMultiscalarMul_panics {scalars : List Scalar} {points : List (Option EdwardsPoint)}
    (hlen : scalars.length ≠ points.length) : optionalMultiscalarMul scalars points = none := by
  have hguard : (guard (scalars.length = points.length) : Option Unit) = none := if_neg hlen
  rw [optionalMultiscalarMul, hguard]
  rfl

/-! ## Buckets -/

variable {P V : ed25519.Point}

/-- So many buckets, the weighted sum of which is a point. -/
def BucketsOf (n : Nat) (V : ed25519.Point) (buckets : List EdwardsPoint) : Prop :=
  ∃ Bs : List ed25519.Point, Bs.length = n ∧ weightedSum Bs = V ∧ List.Forall₂ (fun B b => EdwardsPoint.Of B b) Bs buckets

theorem forall₂_set {α β : Type} {R : α → β → Prop} {x : α} {y : β} (h : R x y) : ∀ {b : Nat} {l : List α} {l' : List β},
    List.Forall₂ R l l' → List.Forall₂ R (l.set b x) (l'.set b y)
  | _, [], [], List.Forall₂.nil                    => List.Forall₂.nil
  | 0, _ :: _, _ :: _, List.Forall₂.cons _ hrest   => List.Forall₂.cons h hrest
  | _ + 1, _ :: _, _ :: _, List.Forall₂.cons hz hrest => List.Forall₂.cons hz (forall₂_set h hrest)

theorem forall₂_getElem? {α β : Type} {R : α → β → Prop} : ∀ {b : Nat} {l : List α} {l' : List β}, List.Forall₂ R l l' →
    b < l.length → ∃ x y, l[b]? = some x ∧ l'[b]? = some y ∧ R x y
  | 0, _ :: _, _ :: _, List.Forall₂.cons h _, _          => ⟨_, _, rfl, rfl, h⟩
  | b + 1, _ :: _, _ :: _, List.Forall₂.cons _ hrest, hb => by
    obtain ⟨x, y, hx, hy, h⟩ := forall₂_getElem? (b := b) hrest (Nat.lt_of_succ_lt_succ hb)
    exact ⟨x, y, hx, hy, h⟩

/-- A bucket is changed by a point. -/
theorem bucketsOf_set {n b : Nat} {buckets : List EdwardsPoint} (h : BucketsOf n V buckets) (hb : b < n)
    {f : EdwardsPoint → Option CompletedPoint} {D : ed25519.Point}
    (hf : ∀ B p, EdwardsPoint.Of B p → Returns (f p) (CompletedPoint.Of (B + D))) :
    Returns (do return buckets.set b (← (← f (← buckets[b]?)).toExtended)) (BucketsOf n (V + (b + 1) • D)) := by
  obtain ⟨Bs, hlen, hsum, hall⟩ := h
  obtain ⟨B, p, hB, hp, hof⟩ := forall₂_getElem? (b := b) hall (hlen.symm ▸ hb)
  rw [hp, Option.bind_eq_bind, Option.bind_some]
  refine (hf B p hof).bind (fun c hc => (CompletedPoint.toExtended_returns hc).bind (fun q hq => Returns.ret ?_))
  exact ⟨Bs.set b (B + D), by rw [List.length_set, hlen], by rw [weightedSum_set_add hB, hsum], forall₂_set hq hall⟩

/-- A term of a sum by digits of `w` bits, and what stands for it: the digits and the point. -/
def DigitsTerm (w hint : Nat) (k : Term ed25519.Point) (x : List Int × ProjectiveNielsPoint) : Prop :=
  k.1 = x.1 ∧ (∃ n, Scalar.Radix w hint n k.1) ∧ x.2.Of k.2

theorem addToBucket_returns {w hint j : Nat} {k : Term ed25519.Point} {x : List Int × ProjectiveNielsPoint}
    (h : DigitsTerm w hint k x) (hj : j < 64) {buckets : List EdwardsPoint} (hb : BucketsOf (2 ^ (w - 1)) V buckets) :
    Returns (addToBucket j buckets x) (BucketsOf (2 ^ (w - 1)) (V + k.1.getD j 0 • k.2)) := by
  obtain ⟨hd, ⟨n, hr⟩, ht⟩ := h
  have hlt : j < k.1.length := by
    rw [hr.length]
    exact hj
  obtain ⟨hlo, hhi⟩ := hr.bounded (k.1.getD j 0) (List.mem_of_getElem? (getElem?_eq_getD hlt))
  have hpow : ((2 ^ (w - 1) : Nat) : Int) = 2 ^ (w - 1) := by
    push_cast
    rfl
  unfold addToBucket
  rw [← hd, getElem?_eq_getD hlt, Option.bind_eq_bind, Option.bind_some]
  generalize k.1.getD j 0 = d at hlo hhi
  by_cases hpos : d > 0
  · have hmul : d • k.2 = ((d - 1).toNat + 1) • k.2 := by
      rw [← natCast_zsmul]
      congr 1
      omega
    rw [if_pos hpos, hmul]
    exact bucketsOf_set hb (by omega) (fun B p hp => EdwardsPoint.addProjectiveNiels_returns hp ht)
  · rw [if_neg hpos]
    by_cases hneg : d < 0
    · have hmul : d • k.2 = ((-d - 1).toNat + 1) • -k.2 := by
        rw [← natCast_zsmul, smul_neg, ← neg_smul]
        congr 1
        omega
      rw [if_pos hneg, hmul]
      refine bucketsOf_set hb (by omega) (fun B p hp => ?_)
      rw [← sub_eq_add_neg]
      exact EdwardsPoint.subProjectiveNiels_returns hp ht
    · have hzero : d = 0 := by omega
      rw [if_neg hneg, hzero, zero_zsmul, add_zero]
      exact Returns.ret hb

/-- The two sums stand for points. -/
def SumsOf (A : ed25519.Point × ed25519.Point) (a : EdwardsPoint × EdwardsPoint) : Prop := a.1.Of A.1 ∧ a.2.Of A.2

theorem addBucket_returns {A : ed25519.Point × ed25519.Point} {a : EdwardsPoint × EdwardsPoint} (h : SumsOf A a)
    {x : EdwardsPoint} (hx : x.Of P) : Returns (addBucket a x) (SumsOf (runningStep A P)) := by
  refine (EdwardsPoint.plus_returns h.1 hx).bind (fun c hc => ?_)
  exact (EdwardsPoint.plus_returns h.2 hc).bind (fun d hd => Returns.ret ⟨hc, hd⟩)

/-- **The running sums.** -/
theorem bucketsSum_returns {n : Nat} (hn : 0 < n) {buckets : List EdwardsPoint} (h : BucketsOf n V buckets) :
    Returns (bucketsSum buckets) (EdwardsPoint.Of V) := by
  obtain ⟨Bs, hlen, hsum, hall⟩ := h
  have hrev : List.Forall₂ (fun B b => EdwardsPoint.Of B b) Bs.reverse buckets.reverse := List.rel_reverse hall
  have hrun := foldl_runningSums Bs
  rw [← hsum]
  unfold bucketsSum
  cases hBs : Bs.reverse with
  | nil                =>
    rw [List.reverse_eq_nil_iff.1 hBs] at hlen
    exact absurd hlen hn.ne
  | cons lastB restB =>
    rw [hBs] at hrev hrun
    cases hb : buckets.reverse with
    | nil               =>
      rw [hb] at hrev
      cases hrev
    | cons last rest =>
      rw [hb] at hrev
      obtain ⟨hlast, hrest⟩ := List.forall₂_cons.1 hrev
      rw [List.foldl_cons, runningStep, zero_add, zero_add] at hrun
      have hsums : Returns (rest.foldlM addBucket (last, last)) (SumsOf (restB.foldl runningStep (lastB, lastB))) := by
        refine Returns.foldlM_forall₂ (fun A a B b hB hA => ?_) hrest ⟨hlast, hlast⟩
        exact addBucket_returns hA hB
      rw [hrun] at hsums
      exact hsums.bind (fun s hs => Returns.ret hs.2)

/-! ## Columns -/

theorem column_returns {w hint j : Nat} (hw : 1 ≤ w) {ks : List (Term ed25519.Point)}
    {xs : List (List Int × ProjectiveNielsPoint)} (h : List.Forall₂ (DigitsTerm w hint) ks xs) (hj : j < 64) :
    Returns (column xs (2 ^ w / 2) j) (EdwardsPoint.Of (placeSum ks j)) := by
  have hcount : 2 ^ w / 2 = 2 ^ (w - 1) := by
    rw [Pairing.two_pow_pred hw, Nat.mul_div_cancel_left _ (by decide)]
  have hempty : BucketsOf (2 ^ (w - 1)) 0 (List.replicate (2 ^ (w - 1)) EdwardsPoint.identity) :=
    ⟨List.replicate (2 ^ (w - 1)) 0, List.length_replicate, weightedSum_replicate _,
      List.forall₂_iff_get.2 ⟨by rw [List.length_replicate, List.length_replicate], fun i h₁ h₂ => by
        simpa using EdwardsPoint.identity_of⟩⟩
  have hfill : Returns (xs.foldlM (addToBucket j) (List.replicate (2 ^ (w - 1)) EdwardsPoint.identity))
      (BucketsOf (2 ^ (w - 1)) (0 + placeSum ks j)) := by
    refine foldlM_sum (fun V buckets k x hterm hb => ?_) h hempty
    exact addToBucket_returns hterm hj hb
  unfold column
  rw [hcount, ← zero_add (placeSum ks j)]
  exact hfill.bind (fun buckets hb => bucketsSum_returns (Nat.two_pow_pos _) hb)

/-! ## The sum -/

theorem collectPairs_returns {w hint : Nat} (hrec : ∀ s : Scalar, s.val < 2 ^ 255 →
    Returns (toRadix2w s w) (Scalar.Radix w hint s.val)) : ∀ {scalars : List Scalar} {points : List EdwardsPoint}
    {Ps : List ed25519.Point}, (∀ s ∈ scalars, Scalar.val s < 2 ^ 255) →
      List.Forall₂ (fun P p => EdwardsPoint.Of P p) Ps points →
      Returns (collectPairs w (scalars.zip (points.map some))) (fun r => ∃ ks xs, r = some xs ∧
        List.Forall₂ (DigitsTerm w hint) ks xs ∧ (∀ k ∈ ks, ∃ n, Scalar.Radix w hint n k.1) ∧
        placesFrom w ks 0 = dot scalars Ps)
  | [], points, Ps, _, _                                             => by
    rw [List.zip_nil_left]
    refine Returns.ret ⟨[], [], rfl, List.Forall₂.nil, fun k hk => absurd hk List.not_mem_nil, ?_⟩
    rw [dot, List.zip_nil_left]
    rfl
  | _ :: _, [], [], _, List.Forall₂.nil                              =>
    Returns.ret ⟨[], [], rfl, List.Forall₂.nil, fun k hk => absurd hk List.not_mem_nil, rfl⟩
  | s :: scalars, p :: points, P :: Ps, hs, List.Forall₂.cons hp hrest => by
    have ih := collectPairs_returns hrec (fun s' hs' => hs s' (List.mem_cons_of_mem s hs')) hrest
    rw [List.map_cons, List.zip_cons_cons, collectPairs]
    refine (hrec s (hs s List.mem_cons_self)).bind (fun digits hd => ?_)
    refine (EdwardsPoint.toProjectiveNiels_returns hp).bind (fun t ht => ih.bind (fun r hr => ?_))
    obtain ⟨ks, xs, rfl, hterms, hradix, hdot⟩ := hr
    refine Returns.ret ⟨(digits, P) :: ks, (digits, t) :: xs, rfl, List.Forall₂.cons ⟨rfl, ⟨_, hd⟩, ht⟩ hterms, ?_, ?_⟩
    · exact List.forall_mem_cons.2 ⟨⟨_, hd⟩, hradix⟩
    · rw [placesFrom_zero] at hdot ⊢
      rw [List.map_cons, List.sum_cons, hdot, dot, dot, List.zip_cons_cons, List.map_cons, List.sum_cons, hd.value,
        natCast_zsmul]

/-- The recoding to the width that is chosen. -/
theorem toRadix2w_digitWidth (size : Nat) : ∃ hint, toRadix2wSizeHint (Pairing.digitWidth size) = some hint ∧ 0 < hint ∧
    hint ≤ 64 ∧ ∀ s : Scalar, s.val < 2 ^ 255 →
      Returns (toRadix2w s (Pairing.digitWidth size)) (Scalar.Radix (Pairing.digitWidth size) hint s.val) := by
  have hrec : ∀ w hint, 4 ≤ w → w ≤ 8 → toRadix2wSizeHint w = some hint →
      ∀ s : Scalar, s.val < 2 ^ 255 → Returns (toRadix2w s w) (Scalar.Radix w hint s.val) := by
    intro w hint hw h₈ hh s hs
    obtain ⟨hint', hh', -, hr⟩ := Scalar.toRadix2w_returns hs hw h₈
    rw [Option.some.inj (hh.symm.trans hh')]
    exact hr
  rcases Pairing.digitWidth_cases size with h | h | h <;> rw [h]
  · exact ⟨43, rfl, by decide, by decide, hrec 6 43 (by decide) (by decide) rfl⟩
  · exact ⟨37, rfl, by decide, by decide, hrec 7 37 (by decide) (by decide) rfl⟩
  · exact ⟨33, rfl, by decide, by decide, hrec 8 33 (by decide) (by decide) rfl⟩

/-- **Pippenger's method**: the sum of the multiples. -/
theorem pippengerMul_returns {scalars : List Scalar} {points : List EdwardsPoint} {Ps : List ed25519.Point}
    (hs : ∀ s ∈ scalars, Scalar.val s < 2 ^ 255) (hp : List.Forall₂ (fun P p => EdwardsPoint.Of P p) Ps points) :
    Returns (pippengerMul scalars (points.map some)) (fun r => ∃ q, r = some q ∧ q.Of (dot scalars Ps)) := by
  obtain ⟨hint, hhint, hpos, hle, hrec⟩ := toRadix2w_digitWidth scalars.length
  have hw : 1 ≤ Pairing.digitWidth scalars.length := by
    rcases Pairing.digitWidth_cases scalars.length with h | h | h <;> omega
  unfold pippengerMul
  generalize Pairing.digitWidth scalars.length = w at hhint hrec hw
  dsimp only
  rw [hhint, Option.bind_eq_bind, Option.bind_some]
  refine (collectPairs_returns hrec hs hp).bind (fun r hr => ?_)
  obtain ⟨ks, xs, rfl, hterms, hradix, hdot⟩ := hr
  have hlen : ∀ {j : Nat}, j < 64 → ∀ k ∈ ks, j < k.1.length := fun hj k hk => by
    obtain ⟨n, h⟩ := hradix k hk
    rwa [h.length]
  have habove : placesFrom w ks hint = 0 := by
    refine placesFrom_eq_zero w (fun k hk => ?_)
    obtain ⟨n, h⟩ := hradix k hk
    exact drop_eq_zero (fun i hlo _ => h.above i hlo)
  refine guard_bind hpos ((column_returns hw hterms (by omega)).bind (fun hi hhi => ?_))
  have hstart := placesFrom_horner w (j := hint - 1) ks (hlen (by omega))
  rw [Nat.sub_add_cancel hpos, habove, nsmul_zero, zero_add] at hstart
  rw [hstart] at hhi
  rw [← hdot]
  refine (Returns.forRev (I := fun i (total : EdwardsPoint) => total.Of (placesFrom w ks i)) (fun i total hi htotal => ?_)
    hhi).bind (fun total htotal => Returns.ret ⟨total, rfl, htotal⟩)
  refine (column_returns hw hterms (by omega)).bind (fun p hp => ?_)
  rw [← placesFrom_horner w ks (hlen (by omega : i < 64))]
  exact (EdwardsPoint.mulByPow2_returns htotal hw).bind (fun q hq => EdwardsPoint.plus_returns hq hp)

theorem collectPairs_none {w hint : Nat} (hrec : ∀ s : Scalar, s.val < 2 ^ 255 →
    Returns (toRadix2w s w) (Scalar.Radix w hint s.val)) : ∀ {scalars : List Scalar} {points : List (Option EdwardsPoint)},
    (∀ s ∈ scalars, Scalar.val s < 2 ^ 255) → (∀ p, some p ∈ points → ∃ P, EdwardsPoint.Of P p) →
      scalars.length = points.length → none ∈ points → Returns (collectPairs w (scalars.zip points)) (· = none)
  | [], _, _, _, hlen, h                              => by
    rw [List.eq_nil_of_length_eq_zero hlen.symm] at h
    exact absurd h List.not_mem_nil
  | s :: scalars, none :: points, hs, _, _, _         => by
    rw [List.zip_cons_cons, collectPairs]
    exact (hrec s (hs s List.mem_cons_self)).bind (fun digits hd => Returns.ret rfl)
  | s :: scalars, some p :: points, hs, hof, hlen, h  => by
    have hmem : none ∈ points := (List.mem_cons.1 h).resolve_left (Option.some_ne_none p).symm
    have ih := collectPairs_none hrec (fun s' hs' => hs s' (List.mem_cons_of_mem s hs'))
      (fun q hq => hof q (List.mem_cons_of_mem _ hq)) (Nat.succ.inj hlen) hmem
    obtain ⟨P, hp⟩ := hof p List.mem_cons_self
    rw [List.zip_cons_cons, collectPairs]
    refine (hrec s (hs s List.mem_cons_self)).bind (fun digits hd => ?_)
    refine (EdwardsPoint.toProjectiveNiels_returns hp).bind (fun t ht => ih.bind (fun r hr => ?_))
    rw [hr]
    exact Returns.ret rfl

theorem pippengerMul_none {scalars : List Scalar} {points : List (Option EdwardsPoint)}
    (hs : ∀ s ∈ scalars, Scalar.val s < 2 ^ 255) (hof : ∀ p, some p ∈ points → ∃ P, EdwardsPoint.Of P p)
    (hlen : scalars.length = points.length) (h : none ∈ points) : Returns (pippengerMul scalars points) (· = none) := by
  obtain ⟨hint, hhint, -, -, hrec⟩ := toRadix2w_digitWidth scalars.length
  unfold pippengerMul
  generalize Pairing.digitWidth scalars.length = w at hhint hrec
  dsimp only
  rw [hhint, Option.bind_eq_bind, Option.bind_some]
  refine (collectPairs_none hrec hs hof hlen h).bind (fun r hr => ?_)
  rw [hr]
  exact Returns.ret rfl

/-- **Either algorithm** gives the sum, and the number of the scalars decides which one is taken. -/
theorem optionalMultiscalarMul_returns {scalars : List Scalar} {points : List EdwardsPoint} {Ps : List ed25519.Point}
    (hs : ∀ s ∈ scalars, Scalar.val s < 2 ^ 255) (hp : List.Forall₂ (fun P p => EdwardsPoint.Of P p) Ps points)
    (hlen : scalars.length = points.length) :
    Returns (optionalMultiscalarMul scalars (points.map some)) (fun r => ∃ q, r = some q ∧ q.Of (dot scalars Ps)) := by
  rw [optionalMultiscalarMul_eq (by rwa [List.length_map])]
  split
  · exact strausVartimeMul_returns hs hp
  · exact pippengerMul_returns hs hp

end Curve25519
end Dpid
