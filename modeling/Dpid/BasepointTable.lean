import Dpid.ScalarMul
/-!
# BasepointTable — multiples of a point that is fixed (`impl_basepoint_table!`)

Thirty-two tables hold the multiples of every other power of the radix.  The digits at the odd places go first; after one
multiplication by the radix come those at the even places, from the same tables.
-/
namespace Dpid
namespace Curve25519

open Checked Buckets Places
open Scalar (toRadix16 toRadix2w)

/-! ## The functions -/

/-- The loop of `create`: a table for `P`, and so on with `P` times the radix squared. -/
def tablesFrom (radix : Nat) : Nat → EdwardsPoint → Option (List (List AffineNielsPoint))
  | 0, _     => return []
  | n + 1, P => do
    let table ← lookupTable (2 ^ (radix - 1)) P
    return table :: (← tablesFrom radix n (← P.mulByPow2 (radix + radix)))

def create (radix : Nat) (basepoint : EdwardsPoint) : Option (List (List AffineNielsPoint)) := tablesFrom radix 32 basepoint

def basepoint (radix : Nat) (tables : List (List AffineNielsPoint)) : Option EdwardsPoint := do
  let q ← select (2 ^ (radix - 1)) (← tables[0]?) 1
  (← EdwardsPoint.identity.addAffineNiels q).toExtended

/-- What the digit at the place `i` adds. -/
def addPlace (radix : Nat) (tables : List (List AffineNielsPoint)) (a : List Int) (P : EdwardsPoint) (i : Nat) :
    Option EdwardsPoint := do
  let q ← select (2 ^ (radix - 1)) (← tables[i / 2]?) (← a[i]?)
  (← P.addAffineNiels q).toExtended

/-- The two loops of `basepoint_mul`, for the digits. -/
def oddThenEven (radix additions : Nat) (tables : List (List AffineNielsPoint)) (a : List Int) : Option EdwardsPoint := do
  let P ← ((List.range additions).filter (fun i => i % 2 = 1)).foldlM (addPlace radix tables a) EdwardsPoint.identity
  let P ← P.mulByPow2 radix
  ((List.range additions).filter (fun i => i % 2 = 0)).foldlM (addPlace radix tables a) P

def basepointMul (radix additions : Nat) (tables : List (List AffineNielsPoint)) (scalar : Scalar) : Option EdwardsPoint := do
  oddThenEven radix additions tables (← toRadix2w scalar radix)

/-- `EdwardsBasepointTableRadix16`, and so on to `EdwardsBasepointTableRadix256`. -/
def basepointMulRadix16 := basepointMul 4 64

def basepointMulRadix32 := basepointMul 5 52

def basepointMulRadix64 := basepointMul 6 43

def basepointMulRadix128 := basepointMul 7 37

def basepointMulRadix256 := basepointMul 8 33

/-- `EdwardsBasepointTable::basepoint_mul`. -/
def basepointMulLegacy (tables : List (List AffineNielsPoint)) (scalar : Scalar) : Option EdwardsPoint := do
  oddThenEven 4 64 tables (← toRadix16 scalar)

/-! ## The tables -/

variable {B P : ed25519.Point} {radix : Nat} {tables : List (List AffineNielsPoint)}

/-- The multiples of every other power of the radix. -/
def Tables (radix n : Nat) (B : ed25519.Point) (tables : List (List AffineNielsPoint)) : Prop :=
  tables.length = n ∧ ∀ (i : Nat) (t : List AffineNielsPoint), tables[i]? = some t →
    Multiples (2 ^ (radix - 1)) ((2 ^ (radix + radix)) ^ i • B) t

theorem tablesFrom_returns (hr : 1 ≤ radix) : ∀ {n : Nat} {B : ed25519.Point} {p : EdwardsPoint}, p.Of B →
    Returns (tablesFrom radix n p) (Tables radix n B)
  | 0, _, _, _      => Returns.ret ⟨rfl, fun _ _ h => absurd h (Option.some_ne_none _).symm⟩
  | n + 1, B, p, hp => by
    refine (lookupTable_returns hp (Nat.two_pow_pos _)).bind (fun table htable => ?_)
    refine (EdwardsPoint.mulByPow2_returns hp (by omega)).bind (fun q hq => ?_)
    refine (tablesFrom_returns hr hq).bind (fun rest hrest => Returns.ret ⟨?_, fun i t hi => ?_⟩)
    · rw [List.length_cons, hrest.1]
    · cases i with
      | zero   =>
        cases hi
        rwa [pow_zero, one_nsmul]
      | succ i =>
        have h := hrest.2 i t hi
        rwa [← mul_nsmul', mul_comm, ← pow_succ'] at h

theorem create_returns (hr : 1 ≤ radix) {p : EdwardsPoint} (hp : p.Of B) : Returns (create radix p) (Tables radix 32 B) :=
  tablesFrom_returns hr hp

theorem tables_get (h : Tables radix 32 B tables) {i : Nat} (hi : i < 32) :
    Returns tables[i]? (Multiples (2 ^ (radix - 1)) ((2 ^ (radix + radix)) ^ i • B)) := by
  have hlt : i < tables.length := by
    rw [h.1]
    exact hi
  exact ⟨tables[i], List.getElem?_eq_getElem hlt, h.2 i _ (List.getElem?_eq_getElem hlt)⟩

theorem two_pow_pred_le (h₈ : radix ≤ 8) : 2 ^ (radix - 1) ≤ 128 := Nat.pow_le_pow_right (by decide) (Nat.sub_le_sub_right h₈ 1)

theorem basepoint_returns (h₈ : radix ≤ 8) (h : Tables radix 32 B tables) :
    Returns (basepoint radix tables) (EdwardsPoint.Of B) := by
  refine (tables_get h (by decide)).bind (fun t ht => ?_)
  rw [pow_zero, one_nsmul] at ht
  have hpos : (0 : Int) < (2 ^ (radix - 1) : Nat) := by exact_mod_cast Nat.two_pow_pos _
  refine (select_returns (two_pow_pred_le h₈) ht (x := 1) ⟨by omega, by omega⟩ (by decide)).bind (fun q hq => ?_)
  refine (EdwardsPoint.addAffineNiels_returns EdwardsPoint.identity_of hq).bind (fun c hc => ?_)
  rw [zero_add, one_zsmul] at hc
  exact CompletedPoint.toExtended_returns hc

/-! ## The product -/

/-- The multiple that the digit at the place `i` takes from its table. -/
def placeTerm (radix : Nat) (a : List Int) (B : ed25519.Point) (i : Nat) : ed25519.Point :=
  a.getD i 0 • (2 ^ (radix + radix)) ^ (i / 2) • B

theorem addPlace_returns {hint n : Nat} {a : List Int} (h₈ : radix ≤ 8) (h : Tables radix 32 B tables)
    (ha : Scalar.Radix radix hint n a) {i : Nat} (hi : i < 64) {p : EdwardsPoint} (hp : p.Of P) :
    Returns (addPlace radix tables a p i) (EdwardsPoint.Of (P + placeTerm radix a B i)) := by
  have hlt : i < a.length := by
    rw [ha.length]
    exact hi
  have hmem := List.mem_of_getElem? (getElem?_eq_getD hlt)
  have hbound := ha.bounded _ hmem
  unfold addPlace
  refine (tables_get h (Nat.div_lt_of_lt_mul hi)).bind (fun t ht => ?_)
  rw [getElem?_eq_getD hlt, Option.bind_eq_bind, Option.bind_some]
  refine (select_returns (two_pow_pred_le h₈) ht (by push_cast; exact hbound) (ha.lt_word _ hmem)).bind (fun q hq => ?_)
  exact (EdwardsPoint.addAffineNiels_returns hp hq).bind (fun c hc => CompletedPoint.toExtended_returns hc)

theorem placeTerm_even (a : List Int) (B : ed25519.Point) {i : Nat} (hi : i % 2 = 0) :
    placeTerm radix a B i = (2 ^ (radix * i) * a.getD i 0) • B := by
  have hpow : (2 ^ (radix + radix)) ^ (i / 2) = 2 ^ (radix * i) := by
    rw [← pow_mul, ← mul_two, mul_assoc, Nat.mul_div_cancel' (Nat.dvd_of_mod_eq_zero hi)]
  rw [placeTerm, hpow, ← natCast_zsmul, ← mul_zsmul', Nat.cast_pow, Nat.cast_ofNat]

theorem placeTerm_odd (a : List Int) (B : ed25519.Point) {i : Nat} (hi : i % 2 = 1) :
    2 ^ radix • placeTerm radix a B i = (2 ^ (radix * i) * a.getD i 0) • B := by
  have hpow : (2 ^ (radix + radix)) ^ (i / 2) * 2 ^ radix = 2 ^ (radix * i) := by
    have hsplit : radix * i = (radix + radix) * (i / 2) + radix := by
      rw [← mul_two, mul_assoc, ← Nat.mul_succ, Nat.succ_eq_add_one]
      congr 1
      omega
    rw [← pow_mul, ← pow_add, ← hsplit]
  rw [placeTerm, smul_comm, ← mul_nsmul', mul_comm, hpow, ← natCast_zsmul, ← mul_zsmul', Nat.cast_pow, Nat.cast_ofNat]

/-- The odd places multiplied by the radix, and the even places. -/
theorem odd_add_even (radix : Nat) (a : List Int) (B : ed25519.Point) : ∀ l : List Nat,
    2 ^ radix • ((l.filter (fun i => i % 2 = 1)).map (placeTerm radix a B)).sum +
        ((l.filter (fun i => i % 2 = 0)).map (placeTerm radix a B)).sum =
      (l.map fun i => (2 ^ (radix * i) * a.getD i 0) • B).sum
  | []     => by simp
  | i :: l => by
    have ih := odd_add_even radix a B l
    rw [List.map_cons, List.sum_cons, ← ih]
    rcases Nat.mod_two_eq_zero_or_one i with hi | hi
    · rw [List.filter_cons_of_neg (by simpa using hi), List.filter_cons_of_pos (by simpa using hi), List.map_cons,
        List.sum_cons, placeTerm_even a B hi, add_left_comm]
    · rw [List.filter_cons_of_pos (by simpa using hi), List.filter_cons_of_neg (by simpa using hi), List.map_cons,
        List.sum_cons, nsmul_add, placeTerm_odd a B hi, add_assoc]

theorem sum_places {hint n additions : Nat} {a : List Int} (ha : Scalar.Radix radix hint n a) (h₁ : hint ≤ additions)
    (B : ed25519.Point) : ((List.range additions).map fun i => (2 ^ (radix * i) * a.getD i 0) • B).sum = n • B := by
  have hsum : ((List.range additions).map fun i => (2 ^ (radix * i) * a.getD i 0) • B).sum =
      ∑ i ∈ Finset.range additions, (2 ^ (radix * i) * a.getD i 0) • B := rfl
  have hval : digitsVal radix a = ∑ i ∈ Finset.range additions, 2 ^ (radix * i) * a.getD i 0 := by
    rw [digitsVal_eq_sum radix (Nat.le_max_left a.length additions)]
    refine (Finset.sum_subset (Finset.range_subset_range.2 (Nat.le_max_right _ _)) (fun i _ hi => ?_)).symm
    rw [ha.above i (h₁.trans (Nat.le_of_not_lt (fun hlt => hi (Finset.mem_range.2 hlt)))), mul_zero]
  rw [hsum, ← Finset.sum_smul, ← hval, ha.value, natCast_zsmul]

/-- **The product by a table.** -/
theorem oddThenEven_returns {hint n additions : Nat} {a : List Int} (h₁ : 1 ≤ radix) (h₈ : radix ≤ 8)
    (h : Tables radix 32 B tables) (ha : Scalar.Radix radix hint n a) (hhint : hint ≤ additions) (h64 : additions ≤ 64) :
    Returns (oddThenEven radix additions tables a) (EdwardsPoint.Of (n • B)) := by
  have hloop : ∀ {l : List Nat} {P : ed25519.Point} {p : EdwardsPoint}, (∀ i ∈ l, i < 64) → p.Of P →
      Returns (l.foldlM (addPlace radix tables a) p) (EdwardsPoint.Of (P + (l.map (placeTerm radix a B)).sum)) := by
    intro l P p hl hp
    refine foldlM_sum (R := fun k i => k = i ∧ i < 64) (fun P p k i hk hp => ?_) (List.forall₂_same.2 fun i hi => ⟨rfl, hl i hi⟩) hp
    rw [hk.1]
    exact addPlace_returns h₈ h ha hk.2 hp
  have hrange : ∀ {c : Nat → Bool}, ∀ i ∈ (List.range additions).filter c, i < 64 := fun i hi =>
    Nat.lt_of_lt_of_le (List.mem_range.1 (List.mem_filter.1 hi).1) h64
  rw [← sum_places ha hhint B, ← odd_add_even radix a B]
  refine (hloop hrange EdwardsPoint.identity_of).bind (fun P hP => ?_)
  rw [zero_add] at hP
  exact (EdwardsPoint.mulByPow2_returns hP h₁).bind (fun Q hQ => hloop hrange hQ)

theorem basepointMul_returns {additions : Nat} {scalar : Scalar} (h₄ : 4 ≤ radix) (h₈ : radix ≤ 8)
    (h : Tables radix 32 B tables) (hadd : Scalar.toRadix2wSizeHint radix = some additions) (hs : scalar.val < 2 ^ 255) :
    Returns (basepointMul radix additions tables scalar) (EdwardsPoint.Of (scalar.val • B)) := by
  obtain ⟨hint, hhint, hle, hrec⟩ := Scalar.toRadix2w_returns hs h₄ h₈
  cases hhint.symm.trans hadd
  exact hrec.bind (fun a ha => oddThenEven_returns (by omega) h₈ h ha (Nat.le_refl _) hle)

theorem basepointMulLegacy_returns {scalar : Scalar} (h : Tables 4 32 B tables) (hs : scalar.val < 2 ^ 255) :
    Returns (basepointMulLegacy tables scalar) (EdwardsPoint.Of (scalar.val • B)) :=
  (Scalar.toRadix16_returns hs).bind (fun _ ha =>
    oddThenEven_returns (by decide) (by decide) h ha (Nat.le_refl 64) (Nat.le_refl 64))

end Curve25519
end Dpid
