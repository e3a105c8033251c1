import Dpid.CurveModels
import Dpid.Scalar
/-!
# EdwardsPoint — points and their wire form (`edwards.rs`)

The group operations go through the models of `CurveModels`.  A point is sent as `y` and the sign of `x`; what is received
is accepted where `y` is that of a point, whether `y` was reduced or not and whatever the sign of `x = 0`.
-/
namespace Dpid
namespace Curve25519

open Checked Edwards LittleEndian
open FieldElement51 (Rep zero one mul sub add negate square invert toBytes fromBytes isNegative ctEq sqrtRatioI
  conditionalNegate NonNegative sqrtM1)

/-! ## The functions -/

/-- `CompressedEdwardsY`. -/
abbrev CompressedEdwardsY := Bytes32

namespace EdwardsPoint

def identity : EdwardsPoint := ⟨zero, one, one, zero⟩

def toProjectiveNiels (p : EdwardsPoint) : Option ProjectiveNielsPoint := do
  return ⟨← add p.Y p.X, ← sub p.Y p.X, p.Z, ← mul p.T EDWARDS_D2⟩

def toProjective (p : EdwardsPoint) : ProjectivePoint := ⟨p.X, p.Y, p.Z⟩

def toAffineNiels (p : EdwardsPoint) : Option AffineNielsPoint := do
  let recip ← invert p.Z
  let x ← mul p.X recip
  let y ← mul p.Y recip
  let xy2d ← mul (← mul x y) EDWARDS_D2
  return ⟨← add y x, ← sub y x, xy2d⟩

/-- `s[31] ^= sign << 7`. -/
def withSign (s : Bytes32) (sign : Bool) : Bytes32 :=
  s.set 31 (getElem s 31 last_lt ^^^ (if sign then (1 : UInt8) else 0) <<< 7) last_lt

def compress (p : EdwardsPoint) : Option CompressedEdwardsY := do
  let recip ← invert p.Z
  let x ← mul p.X recip
  let y ← mul p.Y recip
  let s ← toBytes y
  return withSign s (← isNegative x)

/-- `none` inside where no point has the coordinate `y`. -/
def decompress (bytes : CompressedEdwardsY) : Option (Option EdwardsPoint) := do
  let Y := fromBytes bytes
  let Z := one
  let YY ← square Y
  let u ← sub YY Z
  let v ← add (← mul YY EDWARDS_D) Z
  let (isValidYCoord, X) ← sqrtRatioI u v
  if isValidYCoord = true then do
    let X ← conditionalNegate X (getElem bytes 31 last_lt >>> 7 == 1)
    let T ← mul X Y
    return some ⟨X, Y, Z, T⟩
  else return none

def double (p : EdwardsPoint) : Option EdwardsPoint := do
  let r ← p.toProjective.double
  r.toExtended

def plus (p q : EdwardsPoint) : Option EdwardsPoint := do
  let n ← q.toProjectiveNiels
  let r ← p.addProjectiveNiels n
  r.toExtended

def minus (p q : EdwardsPoint) : Option EdwardsPoint := do
  let n ← q.toProjectiveNiels
  let r ← p.subProjectiveNiels n
  r.toExtended

def neg (p : EdwardsPoint) : Option EdwardsPoint := do
  return ⟨← negate p.X, p.Y, p.Z, ← negate p.T⟩

/-- `Sum`. -/
def sum (l : List EdwardsPoint) : Option EdwardsPoint := l.foldlM plus identity

/-- The rounds of `mul_by_pow_2` but the last. -/
def doublings : Nat → ProjectivePoint → Option ProjectivePoint
  | 0, s     => some s
  | k + 1, s => do
    let r ← s.double
    let s ← r.toProjective
    doublings k s

def mulByPow2 (p : EdwardsPoint) (k : Nat) : Option EdwardsPoint := do
  guard (k > 0)
  let s ← doublings (k - 1) p.toProjective
  let r ← s.double
  r.toExtended

def mulByCofactor (p : EdwardsPoint) : Option EdwardsPoint := mulByPow2 p 3

/-- `ct_eq` of two points. -/
def equal (p q : EdwardsPoint) : Option Bool := do
  let x ← ctEq (← mul p.X q.Z) (← mul q.X p.Z)
  let y ← ctEq (← mul p.Y q.Z) (← mul q.Y p.Z)
  return x && y

def isIdentity (p : EdwardsPoint) : Option Bool := equal p identity

def isSmallOrder (p : EdwardsPoint) : Option Bool := do
  let q ← mulByCofactor p
  isIdentity q

end EdwardsPoint

/-! ## The group -/

namespace EdwardsPoint

open FieldElement51 (mul_returns sub_returns square_returns negate_returns invert_returns)

variable {P Q : ed25519.Point} {p q : EdwardsPoint}

theorem identity_of : identity.Of 0 := ⟨0, 1, 1, 0, Extended.zero, zero_of, one_of, one_of, zero_of⟩

theorem toProjectiveNiels_returns (hp : p.Of P) : Returns p.toProjectiveNiels (ProjectiveNielsPoint.Of P) := by
  obtain ⟨X, Y, Z, T, h, hX, hY, hZ, hT⟩ := hp
  refine (sum_returns hY hX).bind (fun a ha => ?_)
  refine (sub_returns (rep54 hY) (rep54 hX)).bind (fun b hb => ?_)
  refine (mul_returns (rep54 hT) (rep54 EDWARDS_D2_rep)).bind (fun c hc => ?_)
  exact Returns.ret ⟨_, _, _, _, h.projectiveNiels, rep54' ha, rep54 hb, rep54 hZ, rep54 hc⟩

theorem toProjective_of (hp : p.Of P) : p.toProjective.Of P := by
  obtain ⟨X, Y, Z, T, h, hX, hY, hZ, hT⟩ := hp
  exact ⟨X, Y, Z, h.toProjective, hX, hY, hZ⟩

theorem toAffineNiels_returns (hp : p.Of P) : Returns p.toAffineNiels (AffineNielsPoint.Of P) := by
  obtain ⟨X, Y, Z, T, h, hX, hY, hZ, hT⟩ := hp
  refine (invert_returns (rep54 hZ)).bind (fun recip hrecip => ?_)
  refine (mul_returns (rep54 hX) hrecip).bind (fun x hx => ?_)
  refine (mul_returns (rep54 hY) hrecip).bind (fun y hy => ?_)
  refine (mul_returns (rep54 hx) (rep54 hy)).bind (fun xy hxy => ?_)
  refine (mul_returns (rep54 hxy) (rep54 EDWARDS_D2_rep)).bind (fun c hc => ?_)
  refine (sum_returns hy hx).bind (fun a ha => ?_)
  refine (sub_returns (rep54 hy) (rep54 hx)).bind (fun b hb => ?_)
  exact Returns.ret ⟨_, _, _, h.affineNiels, rep54' ha, rep54 hb, rep54 hc⟩

theorem double_returns (hp : p.Of P) : Returns p.double (Of (P + P)) :=
  (ProjectivePoint.double_returns (toProjective_of hp)).bind (fun _ h => CompletedPoint.toExtended_returns h)

theorem plus_returns (hp : p.Of P) (hq : q.Of Q) : Returns (p.plus q) (Of (P + Q)) :=
  (toProjectiveNiels_returns hq).bind (fun _ hn =>
    (addProjectiveNiels_returns hp hn).bind (fun _ h => CompletedPoint.toExtended_returns h))

theorem minus_returns (hp : p.Of P) (hq : q.Of Q) : Returns (p.minus q) (Of (P - Q)) :=
  (toProjectiveNiels_returns hq).bind (fun _ hn =>
    (subProjectiveNiels_returns hp hn).bind (fun _ h => CompletedPoint.toExtended_returns h))

theorem neg_returns (hp : p.Of P) : Returns p.neg (Of (-P)) := by
  obtain ⟨X, Y, Z, T, h, hX, hY, hZ, hT⟩ := hp
  refine (negate_returns (rep54 hX)).bind (fun x hx => ?_)
  refine (negate_returns (rep54 hT)).bind (fun t ht => ?_)
  exact Returns.ret ⟨_, _, _, _, h.neg, hx, hY, hZ, ht⟩

theorem two_pow_succ_nsmul (k : Nat) (P : ed25519.Point) : 2 ^ k • (P + P) = 2 ^ (k + 1) • P := by
  rw [← two_nsmul, ← mul_nsmul', ← pow_succ]

theorem doublings_returns : ∀ {k : Nat} {P : ed25519.Point} {s : ProjectivePoint}, s.Of P →
    Returns (doublings k s) (ProjectivePoint.Of (2 ^ k • P))
  | 0, P, s, hs     => by
    rw [pow_zero, one_nsmul]
    exact Returns.ret hs
  | k + 1, P, s, hs => by
    rw [← two_pow_succ_nsmul]
    exact (ProjectivePoint.double_returns hs).bind (fun _ hr =>
      (CompletedPoint.toProjective_returns hr).bind (fun _ hs' => doublings_returns hs'))

theorem mulByPow2_returns (hp : p.Of P) {k : Nat} (hk : 0 < k) : Returns (p.mulByPow2 k) (Of (2 ^ k • P)) := by
  obtain ⟨j, rfl⟩ := Nat.exists_eq_add_one_of_ne_zero hk.ne'
  refine guard_bind hk ((doublings_returns (toProjective_of hp)).bind (fun s hs => ?_))
  have hpow : 2 ^ j • P + 2 ^ j • P = 2 ^ (j + 1) • P := by rw [← two_nsmul, ← mul_nsmul, ← pow_succ]
  rw [← hpow]
  exact (ProjectivePoint.double_returns hs).bind (fun _ hr => CompletedPoint.toExtended_returns hr)

theorem rep64 {e : Fp} {x : FieldElement51} (h : Rep (2 ^ 52) e x) : Rep (2 ^ 64) e x := h.mono (by decide)

/-- **Points are compared without an inversion.** -/
theorem equal_returns (hp : p.Of P) (hq : q.Of Q) : Returns (p.equal q) (fun b => b = true ↔ P = Q) := by
  obtain ⟨X, Y, Z, T, h, hX, hY, hZ, _⟩ := hp
  obtain ⟨X', Y', Z', T', h', hX', hY', hZ', _⟩ := hq
  refine (mul_returns (rep54 hX) (rep54 hZ')).bind (fun x hx => ?_)
  refine (mul_returns (rep54 hX') (rep54 hZ)).bind (fun x' hx' => ?_)
  refine (FieldElement51.ctEq_returns (rep64 hx) (rep64 hx')).bind (fun bx hbx => ?_)
  refine (mul_returns (rep54 hY) (rep54 hZ')).bind (fun y hy => ?_)
  refine (mul_returns (rep54 hY') (rep54 hZ)).bind (fun y' hy' => ?_)
  refine (FieldElement51.ctEq_returns (rep64 hy) (rep64 hy')).bind (fun b hby => Returns.ret ?_)
  rw [hbx, hby, Bool.and_eq_true, decide_eq_true_eq, decide_eq_true_eq]
  exact (h.toProjective.eq_iff h'.toProjective).symm

/-- **Small order**: eight times the point is zero. -/
theorem isSmallOrder_returns (hp : p.Of P) : Returns p.isSmallOrder (fun b => b = true ↔ 8 • P = 0) :=
  (mulByPow2_returns hp (by decide)).bind (fun _ hq => equal_returns hq identity_of)

/-! ## The wire form -/

/-- The number on the wire: `y`, and the sign of `x` above it. -/
def wireVal (P : ed25519.Point) : Nat := P.y.val + 2 ^ 255 * (P.x.val % 2)

theorem xor_sign (b : UInt8) (hb : b.toNat < 128) (sign : Bool) :
    (b ^^^ (if sign then (1 : UInt8) else 0) <<< 7).toNat = b.toNat + 128 * (if sign then 1 else 0) := by
  have hsmall : ∀ n < 128, n ^^^ 128 = n + 128 := by decide
  cases sign with
  | false =>
    rw [UInt8.toNat_xor]
    exact Nat.xor_zero b.toNat
  | true  =>
    rw [UInt8.toNat_xor]
    exact hsmall b.toNat hb

theorem leVal_withSign {s : Bytes32} (hs : leVal s.toList < 2 ^ 255) (sign : Bool) :
    leVal (withSign s sign).toList = leVal s.toList + 2 ^ 255 * (if sign then 1 else 0) := by
  have hlen : (31 : Nat) < s.toList.length := by
    rw [Vector.length_toList]
    decide
  have htop := Scalar.toNat_top s
  have hset := leVal_set hlen (s[31] ^^^ (if sign then (1 : UInt8) else 0) <<< 7)
  have hpow : 256 ^ 31 = 2 ^ 248 := by decide
  rw [Vector.getElem_toList, xor_sign _ (by omega), hpow] at hset
  rw [withSign, Vector.toList_set]
  generalize (if sign = true then 1 else 0 : Nat) = c at *
  omega

/-- **Compression**: the canonical `y` and the sign of `x`. -/
theorem compress_returns (hp : p.Of P) : Returns p.compress (fun s => leVal s.toList = wireVal P) := by
  obtain ⟨X, Y, Z, T, h, hX, hY, hZ, hT⟩ := hp
  have hx : X * Z⁻¹ = P.x := by rw [h.x, mul_inv_cancel_right₀ h.ne]
  have hy : Y * Z⁻¹ = P.y := by rw [h.y, mul_inv_cancel_right₀ h.ne]
  refine (invert_returns (rep54 hZ)).bind (fun recip hrecip => ?_)
  refine (mul_returns (rep54 hX) hrecip).bind (fun x hrx => ?_)
  refine (mul_returns (rep54 hY) hrecip).bind (fun y hry => ?_)
  rw [hx] at hrx
  rw [hy] at hry
  refine (FieldElement51.toBytes_returns (rep64 hry)).bind (fun s hs => ?_)
  refine (FieldElement51.isNegative_returns (rep64 hrx)).bind (fun sign hsign => Returns.ret ?_)
  have hlt : leVal s.toList < 2 ^ 255 := by
    rw [hs]
    exact Nat.lt_trans (ZMod.val_lt P.y) (by decide)
  rw [leVal_withSign hlt, hs, hsign, wireVal]
  by_cases hodd : P.x.val % 2 = 1
  · rw [decide_eq_true hodd, if_pos rfl, hodd]
  · rw [decide_eq_false hodd, if_neg Bool.false_ne_true, Nat.mod_two_ne_one.1 hodd]

/-! ## Decompression -/

theorem edwardsD_mul_sq_add_one_ne_zero (y : Fp) : y ^ 2 * edwardsD + 1 ≠ 0 := by
  intro h0
  have hy : y ≠ 0 := by
    rintro rfl
    rw [zero_pow two_ne_zero, zero_mul, zero_add] at h0
    exact one_ne_zero h0
  refine not_isSquare_edwardsD ⟨sqrtM1 / y, ?_⟩
  rw [← sq, div_pow, FieldElement51.sqrtM1_sq, eq_div_iff (pow_ne_zero 2 hy)]
  linear_combination h0

/-- The curve's equation, solved for `x²`. -/
theorem onCurve_iff (x y : Fp) :
    OnCurve ed25519.a ed25519.d (x, y) ↔ (y ^ 2 * edwardsD + 1) * x ^ 2 = y ^ 2 - 1 := by
  have hd : ed25519.d = edwardsD := rfl
  rw [OnCurve, ed25519_a, hd]
  constructor
  · intro h
    linear_combination -h
  · intro h
    linear_combination -h

theorem x_sq (P : ed25519.Point) : (P.y ^ 2 * edwardsD + 1) * P.x ^ 2 = P.y ^ 2 - 1 := (onCurve_iff P.x P.y).1 P.equation

/-- **Two points of one `y`** are equal or opposite. -/
theorem eq_or_eq_neg_of_y (h : P.y = Q.y) : P = Q ∨ P = -Q := by
  have hsq : P.x ^ 2 = Q.x ^ 2 := by
    have hP := x_sq P
    rw [h, ← x_sq Q] at hP
    exact mul_left_cancel₀ (edwardsD_mul_sq_add_one_ne_zero Q.y) hP
  rcases sq_eq_sq_iff_eq_or_eq_neg.1 hsq with hx | hx
  · exact Or.inl (Curve.Point.ext hx h)
  · exact Or.inr (Curve.Point.ext hx h)

/-- The sign of an element that is not zero is not that of its opposite. -/
theorem val_neg_mod_two {x : Fp} (hx : x ≠ 0) : (-x).val % 2 ≠ x.val % 2 := by
  have hlt := ZMod.val_lt x
  have hp : p25519 % 2 = 1 := by decide
  rw [ZMod.neg_val, if_neg hx]
  omega

/-- **The wire form determines the point.** -/
theorem wireVal_injective (h : wireVal P = wireVal Q) : P = Q := by
  have hP := Nat.lt_trans (ZMod.val_lt P.y) (by decide : p25519 < 2 ^ 255)
  have hQ := Nat.lt_trans (ZMod.val_lt Q.y) (by decide : p25519 < 2 ^ 255)
  unfold wireVal at h
  have hy : P.y = Q.y := ZMod.val_injective _ (by omega)
  have hsign : P.x.val % 2 = Q.x.val % 2 := by omega
  rcases eq_or_eq_neg_of_y hy with heq | hneg
  · exact heq
  · by_cases hx : Q.x = 0
    · rw [hneg]
      refine Curve.Point.ext ?_ rfl
      rw [Curve.Point.neg_x, hx, neg_zero]
    · rw [hneg, Curve.Point.neg_x] at hsign
      exact absurd hsign (val_neg_mod_two hx)

/-- What bytes are taken for: `y` from the low bits, and the sign of `x` where it has one. -/
structure Received (bytes : Bytes32) (P : ed25519.Point) : Prop where
  y : P.y = (leVal bytes.toList % 2 ^ 255 : Nat)
  sign : P.x = 0 ∨ P.x.val % 2 = leVal bytes.toList / 2 ^ 255

/-- **Decompression** finds the point that the bytes stand for, and refuses where there is none. -/
theorem decompress_returns (bytes : Bytes32) : Returns (decompress bytes) (fun r =>
    match r with
    | none   => ∀ P : ed25519.Point, P.y ≠ (leVal bytes.toList % 2 ^ 255 : Nat)
    | some p => ∃ P, p.Of P ∧ Received bytes P) := by
  have hY : Rep (2 ^ 52) ((leVal bytes.toList % 2 ^ 255 : Nat) : Fp) (fromBytes bytes) :=
    (FieldElement51.fromBytes_rep bytes).mono (by decide)
  generalize hy : ((leVal bytes.toList % 2 ^ 255 : Nat) : Fp) = y at hY
  refine (square_returns (rep54 hY)).bind (fun YY hYY => ?_)
  refine (sub_returns (rep54 hYY) (rep54 one_of)).bind (fun u hu => ?_)
  refine (mul_returns (rep54 hYY) (rep54 EDWARDS_D_rep)).bind (fun yd hyd => ?_)
  refine (sum_returns hyd one_of).bind (fun v hv => ?_)
  refine (FieldElement51.sqrtRatioI_returns (rep54 hu) (rep54' hv)).bind (fun z hz => ?_)
  obtain ⟨square, X⟩ := z
  obtain ⟨r, hr, hsign, hroot⟩ := hz
  have hvne := edwardsD_mul_sq_add_one_ne_zero y
  cases square with
  | false =>
    refine Returns.ret (fun P hP => ?_)
    have hx := x_sq P
    rw [hP] at hx
    have hsquare : IsSquare ((y ^ 2 - 1) / (y ^ 2 * edwardsD + 1)) := by
      rw [← hx, mul_div_cancel_left₀ _ hvne]
      exact ⟨P.x, sq P.x⟩
    exact absurd (hroot.square_iff.2 (Or.inr ⟨hvne, hsquare⟩)) Bool.false_ne_true
  | true  =>
    have hval := hroot.value hvne
    rw [if_pos rfl] at hval
    -- the sign bit chooses between the two roots
    generalize hbit : (bytes[31] >>> 7 == 1) = bit
    refine (FieldElement51.conditionalNegate_returns hr bit).bind (fun x hx => ?_)
    have hx' : ∃ r', Rep (2 ^ 52) r' x ∧ r' ^ 2 = r ^ 2 ∧ (r' = 0 ∨ r'.val % 2 = if bit then 1 else 0) := by
      cases bit with
      | false => exact ⟨r, hx.2 rfl, rfl, Or.inr hsign⟩
      | true  =>
        refine ⟨-r, hx.1 rfl, neg_sq r, ?_⟩
        by_cases h0 : r = 0
        · exact Or.inl (by rw [h0, neg_zero])
        · have hne := val_neg_mod_two h0
          rw [NonNegative] at hsign
          exact Or.inr (by rw [if_pos rfl]; omega)
    obtain ⟨r', hr', hsq, hsign'⟩ := hx'
    have hcurve : OnCurve ed25519.a ed25519.d (r', y) := (onCurve_iff r' y).2 (by rw [hsq, hval])
    refine (mul_returns (rep54 hr') (rep54 hY)).bind (fun t ht => Returns.ret ⟨⟨r', y, hcurve⟩, ?_, hy.symm, ?_⟩)
    · refine ⟨r', y, 1, r' * y, ⟨⟨one_ne_zero, ?_, ?_⟩, ?_⟩, hr', hY, one_of, ht⟩
      · exact (mul_one r').symm
      · exact (mul_one y).symm
      · exact (mul_one (r' * y)).symm
    · have hbits : (if bit = true then 1 else 0) = leVal bytes.toList / 2 ^ 255 := by
        have htop := Scalar.toNat_top bytes
        have hlt := Scalar52.leVal_lt_256 bytes
        have hshift : (bytes[31] >>> 7).toNat = bytes[31].toNat / 128 := by
          rw [UInt8.toNat_shiftRight]
          exact Nat.shiftRight_eq_div_pow bytes[31].toNat 7
        have hone : (1 : UInt8).toNat = 1 := rfl
        have hiff : bit = true ↔ leVal bytes.toList / 2 ^ 248 / 128 = 1 := by
          rw [← hbit, beq_iff_eq, ← UInt8.toNat_inj, hshift, hone, htop]
        cases bit with
        | false =>
          have hne : ¬ leVal bytes.toList / 2 ^ 248 / 128 = 1 := fun h => Bool.false_ne_true (hiff.2 h)
          rw [if_neg Bool.false_ne_true]
          omega
        | true  =>
          have heq := hiff.1 rfl
          rw [if_pos rfl]
          omega
      rw [← hbits]
      exact hsign'

/-- **What was compressed is received**, and nothing else is. -/
theorem received_iff {bytes : Bytes32} (h : leVal bytes.toList = wireVal P) : Received bytes Q ↔ Q = P := by
  have hlt := Nat.lt_trans (ZMod.val_lt P.y) (by decide : p25519 < 2 ^ 255)
  have hlow : leVal bytes.toList % 2 ^ 255 = P.y.val := by
    rw [h, wireVal, Nat.add_mul_mod_self_left, Nat.mod_eq_of_lt hlt]
  have hhigh : leVal bytes.toList / 2 ^ 255 = P.x.val % 2 := by
    rw [h, wireVal, Nat.add_mul_div_left _ _ (Nat.two_pow_pos 255), Nat.div_eq_of_lt hlt, Nat.zero_add]
  constructor
  · rintro ⟨hy, hsign⟩
    rw [hlow, ZMod.natCast_zmod_val] at hy
    rw [hhigh] at hsign
    rcases eq_or_eq_neg_of_y hy with heq | hneg
    · exact heq
    · by_cases hx : P.x = 0
      · rw [hneg]
        refine Curve.Point.ext ?_ rfl
        rw [Curve.Point.neg_x, hx, neg_zero]
      · rw [hneg, Curve.Point.neg_x] at hsign
        rcases hsign with h0 | hs
        · exact absurd (neg_eq_zero.1 h0) hx
        · exact absurd hs (val_neg_mod_two hx)
  · rintro rfl
    refine ⟨?_, Or.inr hhigh.symm⟩
    rw [hlow, ZMod.natCast_zmod_val]

end EdwardsPoint
end Curve25519
end Dpid
