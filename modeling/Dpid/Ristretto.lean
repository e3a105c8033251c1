import Dpid.Decaf
import Dpid.EdwardsPoint
/-!
# Ristretto — a group of prime order from the curve (`ristretto.rs`)

A Ristretto point is kept as an even point of the curve and stands for its coset of the points of order four.  Equality,
`compress` and `decompress` are those of the cosets: every coset has one encoding, and nothing else is accepted.
-/
namespace Dpid
namespace Curve25519

open Checked Edwards LittleEndian
open FieldElement51 (Rep zero one mul sub add negate square toBytes fromBytes isNegative isZero ctEq invsqrt
  conditionalNegate NonNegative sqrtM1 SQRT_M1)

/-! ## The functions -/

/-- `1 / sqrt(a - d)`. -/
def INVSQRT_A_MINUS_D : FieldElement51 := ⟨278908739862762, 821645201101625, 8113234426968, 1777959178193151, 2118520810568447⟩

abbrev CompressedRistretto := Bytes32

structure RistrettoPoint where
  edwards : EdwardsPoint
deriving DecidableEq

namespace RistrettoPoint

def identity : RistrettoPoint := ⟨EdwardsPoint.identity⟩

def compress (p : RistrettoPoint) : Option CompressedRistretto := do
  let ⟨X, Y, Z, T⟩ := p.edwards
  let u1 ← mul (← add Z Y) (← sub Z Y)
  let u2 ← mul X Y
  -- whether it is a square is ignored
  let (_, invsqrt) ← invsqrt (← mul u1 (← square u2))
  let i1 ← mul invsqrt u1
  let i2 ← mul invsqrt u2
  let zInv ← mul i1 (← mul i2 T)
  let iX ← mul X SQRT_M1
  let iY ← mul Y SQRT_M1
  let enchantedDenominator ← mul i1 INVSQRT_A_MINUS_D
  let rotate ← isNegative (← mul T zInv)
  let X := if rotate then iY else X
  let Y := if rotate then iX else Y
  let denInv := if rotate then enchantedDenominator else i2
  let Y ← conditionalNegate Y (← isNegative (← mul X zInv))
  let s ← mul denInv (← sub Z Y)
  let s ← conditionalNegate s (← isNegative s)
  toBytes s

/-- `CompressedRistretto::decompress`: `none` inside where the bytes are no canonical encoding of a point. -/
def decompress (bytes : CompressedRistretto) : Option (Option RistrettoPoint) := do
  let s := fromBytes bytes
  let sBytesCheck ← toBytes s
  let sIsNegative ← isNegative s
  if sBytesCheck ≠ bytes ∨ sIsNegative = true then return none
  else do
    let ss ← square s
    let u1 ← sub one ss
    let u2 ← add one ss
    let u2Sqr ← square u2
    let v ← sub (← mul (← negate EDWARDS_D) (← square u1)) u2Sqr
    let (ok, I) ← invsqrt (← mul v u2Sqr)
    let Dx ← mul I u2
    let Dy ← mul I (← mul Dx v)
    let x ← mul (← add s s) Dx
    let x ← conditionalNegate x (← isNegative x)
    let y ← mul u1 Dy
    let t ← mul x y
    if ok = false ∨ (← isNegative t) = true ∨ (← isZero y) = true then return none
    else return some ⟨⟨x, y, one, t⟩⟩

/-- `ct_eq`. -/
def equal (p q : RistrettoPoint) : Option Bool := do
  let X1Y2 ← mul p.edwards.X q.edwards.Y
  let Y1X2 ← mul p.edwards.Y q.edwards.X
  let X1X2 ← mul p.edwards.X q.edwards.X
  let Y1Y2 ← mul p.edwards.Y q.edwards.Y
  return (← ctEq X1Y2 Y1X2) || (← ctEq X1X2 Y1Y2)

def plus (p q : RistrettoPoint) : Option RistrettoPoint := do return ⟨← p.edwards.plus q.edwards⟩

def minus (p q : RistrettoPoint) : Option RistrettoPoint := do return ⟨← p.edwards.minus q.edwards⟩

def neg (p : RistrettoPoint) : Option RistrettoPoint := do return ⟨← p.edwards.neg⟩

/-- `Sum`. -/
def sum (l : List RistrettoPoint) : Option RistrettoPoint := l.foldlM plus identity

end RistrettoPoint

/-! ## The constants -/

/-- A negative element is odd below the modulus. -/
def Negative (e : Fp) : Prop := e.val % 2 = 1

instance (e : Fp) : Decidable (Negative e) := inferInstanceAs (Decidable (_ = _))

theorem isSign_negative : IsSign Negative where
  zero h := by
    rw [Negative, ZMod.val_zero] at h
    exact absurd h (by decide)
  flip hx := by
    have hne := EdwardsPoint.val_neg_mod_two hx
    unfold Negative
    omega

def invsqrtAMinusD : Fp := (INVSQRT_A_MINUS_D.val : Nat)

theorem INVSQRT_A_MINUS_D_rep : Rep (2 ^ 52) invsqrtAMinusD INVSQRT_A_MINUS_D := ⟨by decide, rfl⟩

/-- `m² (a - d) = 1`. -/
theorem invsqrtAMinusD_sq : invsqrtAMinusD ^ 2 * -(1 + edwardsD) = 1 := by
  have h : INVSQRT_A_MINUS_D.val ^ 2 * (1 + EDWARDS_D.val) + 1 =
      p25519 * ((INVSQRT_A_MINUS_D.val ^ 2 * (1 + EDWARDS_D.val) + 1) / p25519) := by decide
  have hcast : ((INVSQRT_A_MINUS_D.val ^ 2 * (1 + EDWARDS_D.val) + 1 : Nat) : Fp) = 0 := by
    rw [h, Nat.cast_mul, ZMod.natCast_self, zero_mul]
  rw [Nat.cast_add, Nat.cast_mul, Nat.cast_pow, Nat.cast_add, Nat.cast_one] at hcast
  unfold invsqrtAMinusD edwardsD
  linear_combination -hcast

theorem invsqrtAMinusD_ne_zero : invsqrtAMinusD ≠ 0 := by
  intro h0
  have h := invsqrtAMinusD_sq
  rw [h0, zero_pow two_ne_zero, zero_mul] at h
  exact zero_ne_one h

/-- A root of `a - d`. -/
def sqrtAMinusD : Fp := invsqrtAMinusD⁻¹

theorem sqrtAMinusD_sq : sqrtAMinusD ^ 2 = -(1 + ed25519.d) := by
  have hd : ed25519.d = edwardsD := rfl
  rw [sqrtAMinusD, hd, inv_pow, inv_eq_iff_eq_inv, eq_comm, inv_eq_iff_eq_inv, eq_comm]
  exact inv_eq_of_mul_eq_one_right invsqrtAMinusD_sq

theorem sqrtAMinusD_ne_zero : sqrtAMinusD ≠ 0 := inv_ne_zero invsqrtAMinusD_ne_zero

theorem invsqrtAMinusD_mul : invsqrtAMinusD ^ 2 * sqrtAMinusD ^ 2 = 1 := by
  rw [sqrtAMinusD, ← mul_pow, mul_inv_cancel₀ invsqrtAMinusD_ne_zero, one_pow]

/-! ## What they stand for -/

namespace RistrettoPoint

open EdwardsPoint (rep64)
open FieldElement51 (mul_returns sub_returns square_returns negate_returns isNegative_returns isZero_returns ctEq_returns
  toBytes_returns fromBytes_rep conditionalNegate_returns toBytes_injective)

variable {P Q : ed25519.Point} {p q : RistrettoPoint}

/-- **An even point** of the curve. -/
structure Of (P : ed25519.Point) (p : RistrettoPoint) : Prop where
  point : p.edwards.Of P
  even : IsEven P

theorem isEven_add_ed25519 (hP : IsEven P) (hQ : IsEven Q) : IsEven (P + Q) :=
  isEven_add ed25519_a sqrtAMinusD_sq sqrtAMinusD_ne_zero hP hQ

theorem identity_of : identity.Of 0 := ⟨EdwardsPoint.identity_of, isEven_zero⟩

theorem plus_returns (hp : p.Of P) (hq : q.Of Q) : Returns (p.plus q) (Of (P + Q)) :=
  (EdwardsPoint.plus_returns hp.point hq.point).bind (fun _ h => Returns.ret ⟨h, isEven_add_ed25519 hp.even hq.even⟩)

theorem minus_returns (hp : p.Of P) (hq : q.Of Q) : Returns (p.minus q) (Of (P - Q)) := by
  refine (EdwardsPoint.minus_returns hp.point hq.point).bind (fun _ h => Returns.ret ⟨h, ?_⟩)
  rw [sub_eq_add_neg]
  exact isEven_add_ed25519 hp.even (isEven_neg hq.even)

theorem neg_returns (hp : p.Of P) : Returns p.neg (Of (-P)) :=
  (EdwardsPoint.neg_returns hp.point).bind (fun _ h => Returns.ret ⟨h, isEven_neg hp.even⟩)

/-! ## Equality -/

/-- **Equality is that of the cosets.** -/
theorem equal_returns (hp : p.edwards.Of P) (hq : q.edwards.Of Q) : Returns (p.equal q) (fun b => b = true ↔ 4 • (P - Q) = 0) := by
  obtain ⟨X, Y, Z, T, h, hX, hY, hZ, hT⟩ := hp
  obtain ⟨X', Y', Z', T', h', hX', hY', hZ', hT'⟩ := hq
  refine (mul_returns (rep54 hX) (rep54 hY')).bind (fun a ha => ?_)
  refine (mul_returns (rep54 hY) (rep54 hX')).bind (fun b hb => ?_)
  refine (mul_returns (rep54 hX) (rep54 hX')).bind (fun c hc => ?_)
  refine (mul_returns (rep54 hY) (rep54 hY')).bind (fun d hd => ?_)
  refine (ctEq_returns (rep64 ha) (rep64 hb)).bind (fun s hs => ?_)
  refine (ctEq_returns (rep64 hc) (rep64 hd)).bind (fun t ht => Returns.ret ?_)
  have hZZ : Z * Z' ≠ 0 := mul_ne_zero h.ne h'.ne
  have hst : X * Y' = Y * X' ↔ P.x * Q.y = P.y * Q.x := by
    rw [h.x, h.y, h'.x, h'.y, mul_mul_mul_comm P.x, mul_mul_mul_comm P.y, mul_left_inj' hZZ]
  have hcr : X * X' = Y * Y' ↔ P.x * Q.x = P.y * Q.y := by
    rw [h.x, h.y, h'.x, h'.y, mul_mul_mul_comm P.x, mul_mul_mul_comm P.y, mul_left_inj' hZZ]
  rw [hs, ht, Bool.or_eq_true, decide_eq_true_eq, decide_eq_true_eq, coset_iff ed25519_a two_ne_zero_fp, hst, hcr]

/-! ## Compression -/

/-- What the bytes stand for. -/
def Received (bytes : CompressedRistretto) (P : ed25519.Point) : Prop :=
  ∃ s : Fp, leVal bytes.toList = s.val ∧ Encodes Negative s P

/-- The sign taken off. -/
theorem abs_returns {e : Fp} {x : FieldElement51} (hx : Rep (2 ^ 52) e x) : Returns (isNegative x) (fun b =>
    Returns (conditionalNegate x b) (fun z => ∃ f, Rep (2 ^ 52) f z ∧ f ^ 2 = e ^ 2 ∧ ¬ Negative f)) := by
  refine (isNegative_returns (rep64 hx)).mono (fun b hb => (conditionalNegate_returns hx b).mono (fun z hz => ?_))
  cases b with
  | false => exact ⟨e, hz.2 rfl, rfl, of_decide_eq_false hb.symm⟩
  | true  => exact ⟨-e, hz.1 rfl, neg_sq e, isSign_negative.not_neg_neg (of_decide_eq_true hb.symm)⟩

/-- The root for `compress`: zero for zero, else an inverse root. -/
theorem invsqrt_returns {e : Fp} {x : FieldElement51} (hx : Rep (2 ^ 54) e x) :
    Returns (invsqrt x) (fun z => ∃ I, Rep (2 ^ 52) I z.2 ∧ (z.1 = true ↔ e ≠ 0 ∧ IsSquare e) ∧ (e = 0 → I = 0) ∧
      (e ≠ 0 → IsSquare e → I ^ 2 * e = 1)) := by
  refine (FieldElement51.sqrtRatioI_returns (rep54 one_of) hx).mono (fun z hz => ?_)
  obtain ⟨r, hr, -, hroot⟩ := hz
  have hiff : z.1 = true ↔ e ≠ 0 ∧ IsSquare e := by
    rw [hroot.square_iff, or_iff_right one_ne_zero, one_div]
    exact and_congr_right (fun _ => isSquare_inv)
  refine ⟨r, hr, hiff, fun h => hroot.zero (Or.inr h), fun hne hsq => ?_⟩
  have hval := hroot.value hne
  rw [if_pos (hiff.2 ⟨hne, hsq⟩)] at hval
  rw [mul_comm, hval]

/-- The end of `compress`: `Y` takes the sign that makes `X / Z` positive, and `s` is the root that is not negative. -/
theorem compress_tail_returns {ex ey ez ed ei : Fp} {X Y Z denInv zInv : FieldElement51} (hX : Rep (2 ^ 52) ex X)
    (hY : Rep (2 ^ 52) ey Y) (hZ : Rep (2 ^ 52) ez Z) (hd : Rep (2 ^ 52) ed denInv) (hi : Rep (2 ^ 52) ei zInv) {y : Fp}
    (hneg : Negative (ex * ei) → y = -ey) (hpos : ¬ Negative (ex * ei) → y = ey) :
    Returns (do
      let Y ← conditionalNegate Y (← isNegative (← mul X zInv))
      let s ← mul denInv (← sub Z Y)
      let s ← conditionalNegate s (← isNegative s)
      toBytes s) (fun b => ∃ s : Fp, leVal b.toList = s.val ∧ ¬ Negative s ∧ s ^ 2 = (ed * (ez - y)) ^ 2) := by
  refine (mul_returns (rep54 hX) (rep54 hi)).bind (fun xz hxz => ?_)
  refine (isNegative_returns (rep64 hxz)).bind (fun b hb => ?_)
  refine (conditionalNegate_returns hY b).bind (fun Y' hY' => ?_)
  have hy : Rep (2 ^ 52) y Y' := by
    cases b with
    | false =>
      rw [hpos (of_decide_eq_false hb.symm)]
      exact hY'.2 rfl
    | true  =>
      rw [hneg (of_decide_eq_true hb.symm)]
      exact hY'.1 rfl
  refine (sub_returns (rep54 hZ) (rep54 hy)).bind (fun zy hzy => ?_)
  refine (mul_returns (rep54 hd) (rep54 hzy)).bind (fun s hs => ?_)
  refine (abs_returns hs).bind (fun c hc => hc.bind (fun t ht => ?_))
  obtain ⟨f, hf, hsq, hnn⟩ := ht
  exact (toBytes_returns (rep64 hf)).mono (fun b hb => ⟨f, hb, hnn, hsq⟩)

/-- **One of the two forms** of a point: with coordinates `f`, `g` up to `Z`, the end of `compress` sends the normal point of
the coset. -/
theorem compress_form_returns {ex ey ez ed ei f g : Fp} {X Y Z denInv zInv : FieldElement51} (hX : Rep (2 ^ 52) ex X)
    (hY : Rep (2 ^ 52) ey Y) (hZ : Rep (2 ^ 52) ez Z) (hd : Rep (2 ^ 52) ed denInv) (hi : Rep (2 ^ 52) ei zInv) (hez : ez ≠ 0)
    (hden : ed ^ 2 * ((ez + ey) * (ez - ey)) = 1) (hcoset : 4 • (P - Q) = 0) (hnormal : Normal Negative Q)
    (hf : ex * ei = f) (hg : ey = g * ez) (hneg : Negative f → Q.y = -g) (hpos : ¬ Negative f → Q.y = g) :
    Returns (do
      let Y ← conditionalNegate Y (← isNegative (← mul X zInv))
      let s ← mul denInv (← sub Z Y)
      let s ← conditionalNegate s (← isNegative s)
      toBytes s) (fun b => ∃ Q, 4 • (P - Q) = 0 ∧ Received b Q) := by
  have hsign : Negative (ex * ei) → Q.y * ez = -ey := by
    intro hn
    rw [hf] at hn
    rw [hneg hn, hg, neg_mul]
  have hplain : ¬ Negative (ex * ei) → Q.y * ez = ey := by
    intro hn
    rw [hf] at hn
    rw [hpos hn, hg]
  have hsq : (Q.y * ez) ^ 2 = ey ^ 2 := by
    by_cases hn : Negative (ex * ei)
    · rw [hsign hn, neg_sq]
    · rw [hplain hn]
  have hden' : ed ^ 2 * ((ez + Q.y * ez) * (ez - Q.y * ez)) = 1 := by
    linear_combination hden - ed ^ 2 * hsq
  refine (compress_tail_returns hX hY hZ hd hi hsign hplain).mono (fun b hb => ?_)
  obtain ⟨s, hs, hnn, hroot⟩ := hb
  exact ⟨Q, hcoset, s, hs, hnn, hnormal, ratio_of_denominator hez hden' rfl hroot⟩

/-- **The encoding of a coset.** -/
theorem compress_returns (hp : p.Of P) : Returns p.compress (fun b => ∃ Q, 4 • (P - Q) = 0 ∧ Received b Q) := by
  obtain ⟨⟨X, Y, Z, T, h, hX, hY, hZ, hT⟩, heven⟩ := hp
  refine (sum_returns hZ hY).bind (fun zy hzy => ?_)
  refine (sub_returns (rep54 hZ) (rep54 hY)).bind (fun zy' hzy' => ?_)
  refine (mul_returns (rep54' hzy) (rep54 hzy')).bind (fun u1 hu1 => ?_)
  refine (mul_returns (rep54 hX) (rep54 hY)).bind (fun u2 hu2 => ?_)
  refine (square_returns (rep54 hu2)).bind (fun u2s hu2s => ?_)
  refine (mul_returns (rep54 hu1) (rep54 hu2s)).bind (fun w hw => ?_)
  refine (invsqrt_returns (rep54 hw)).bind (fun z hz => ?_)
  obtain ⟨square, inv⟩ := z
  obtain ⟨I, hI, -, hzero, hroot⟩ := hz
  dsimp only at hI
  refine (mul_returns (rep54 hI) (rep54 hu1)).bind (fun i1 hi1 => ?_)
  refine (mul_returns (rep54 hI) (rep54 hu2)).bind (fun i2 hi2 => ?_)
  refine (mul_returns (rep54 hi2) (rep54 hT)).bind (fun i2t hi2t => ?_)
  refine (mul_returns (rep54 hi1) (rep54 hi2t)).bind (fun zInv hzInv => ?_)
  refine (mul_returns (rep54 hX) (rep54 FieldElement51.SQRT_M1_rep)).bind (fun iX hiX => ?_)
  refine (mul_returns (rep54 hY) (rep54 FieldElement51.SQRT_M1_rep)).bind (fun iY hiY => ?_)
  refine (mul_returns (rep54 hi1) (rep54 INVSQRT_A_MINUS_D_rep)).bind (fun ench hench => ?_)
  refine (mul_returns (rep54 hT) (rep54 hzInv)).bind (fun tz htz => ?_)
  refine (isNegative_returns (rep64 htz)).bind (fun rotate hrotate => ?_)
  generalize hu : (Z + Y) * (Z - Y) = u at *
  have hXY : X * Y = P.x * P.y * Z ^ 2 := by
    rw [h.x, h.y]
    ring
  by_cases hxy : P.x * P.y = 0
  · -- the coset of the identity: the root is zero, and so is everything after it
    have hI0 : I = 0 := hzero (by rw [hXY, hxy]; ring)
    have hfalse : rotate = false := by
      rw [hrotate, hI0]
      exact decide_eq_false (by simp)
    subst hfalse
    rw [hI0, zero_mul] at hi2
    have hnot : ¬ Negative (X * (I * u * (I * (X * Y) * T))) := by
      rw [hI0]
      simpa using isSign_negative.zero
    refine (compress_tail_returns hX hY hZ hi2 hzInv (fun hn => absurd hn hnot) (fun _ => rfl)).mono (fun b hb => ?_)
    obtain ⟨s, hs, -, hsq⟩ := hb
    rw [zero_mul, zero_pow two_ne_zero] at hsq
    have hs0 : s = 0 := pow_eq_zero_iff two_ne_zero |>.1 hsq
    subst hs0
    refine ⟨0, ?_, 0, hs, encodes_zero isSign_negative⟩
    rw [sub_zero, four_nsmul_eq_zero_iff two_ne_zero_fp]
    exact mul_eq_zero.1 hxy
  · have hy0 : 1 - P.y ^ 2 ≠ 0 := by
      intro h0
      have hnorm := norm_eq ed25519_a P
      rw [h0, zero_mul, ← sqrtAMinusD_sq, ← mul_pow, ← mul_pow] at hnorm
      exact pow_ne_zero 2 (mul_ne_zero sqrtAMinusD_ne_zero hxy) hnorm.symm
    have hu' : u = (1 - P.y ^ 2) * Z ^ 2 := by
      rw [← hu, h.y]
      ring
    have hw0 : u * (X * Y) ^ 2 ≠ 0 := by
      rw [hu', hXY]
      exact mul_ne_zero (mul_ne_zero hy0 (pow_ne_zero 2 h.ne)) (pow_ne_zero 2 (mul_ne_zero hxy (pow_ne_zero 2 h.ne)))
    have hwsq : IsSquare (u * (X * Y) ^ 2) := by
      obtain ⟨r, hr⟩ := (isEven_iff ed25519_a sqrtAMinusD_sq sqrtAMinusD_ne_zero).1 heven
      exact ⟨r * Z * (X * Y), by rw [hu', hr]; ring⟩
    have hI2 := hroot hw0 hwsq
    rw [← hu] at hI2
    have hz := encode_z_inv h hI2
    have hcross := encode_crossed h hI2 ed25519_a sqrtAMinusD_sq invsqrtAMinusD_mul FieldElement51.sqrtM1_sq
    have hstraight := encode_straight hI2
    rw [hu] at hz hcross hstraight
    generalize hzi : I * u * (I * (X * Y) * T) = zi at *
    have hTz : T * zi = P.x * P.y := by
      rw [h.t]
      linear_combination P.x * P.y * hz
    rw [hTz] at hrotate
    cases rotate with
    | false =>
      have ht : ¬ Negative (P.x * P.y) := of_decide_eq_false hrotate.symm
      obtain ⟨Q, hcoset, hnormal, hneg, hpos⟩ := exists_normal_straight ed25519_a isSign_negative two_ne_zero_fp hxy ht
      have hXz : X * zi = P.x := by
        rw [h.x]
        linear_combination P.x * hz
      have hden : (I * (X * Y)) ^ 2 * ((Z + Y) * (Z - Y)) = 1 := by rwa [hu]
      exact compress_form_returns hX hY hZ hi2 hzInv h.ne hden hcoset hnormal hXz h.y hneg hpos
    | true  =>
      have ht : Negative (P.x * P.y) := of_decide_eq_true hrotate.symm
      obtain ⟨Q, hcoset, hnormal, hneg, hpos⟩ := exists_normal_crossed ed25519_a isSign_negative two_ne_zero_fp
        FieldElement51.sqrtM1_sq hxy ht
      have hXz : Y * sqrtM1 * zi = sqrtM1 * P.y := by
        rw [h.y]
        linear_combination P.y * sqrtM1 * hz
      have hden : (I * u * invsqrtAMinusD) ^ 2 * ((Z + X * sqrtM1) * (Z - X * sqrtM1)) = 1 := by
        linear_combination hcross
      have hXi : X * sqrtM1 = sqrtM1 * P.x * Z := by
        rw [h.x]
        ring
      exact compress_form_returns hiY hiX hZ hench hzInv h.ne hden hcoset hnormal hXz hXi hneg hpos

/-! ## Decompression -/

/-- **Decompression** accepts the encodings, and nothing else. -/
theorem decompress_returns (bytes : CompressedRistretto) : Returns (decompress bytes) (fun r =>
    match r with
    | none   => ∀ P, ¬ Received bytes P
    | some p => ∃ P, p.Of P ∧ Received bytes P) := by
  have hs : Rep (2 ^ 52) ((leVal bytes.toList % 2 ^ 255 : Nat) : Fp) (fromBytes bytes) := (fromBytes_rep bytes).mono (by decide)
  have hread : ∀ e : Fp, leVal bytes.toList = e.val → e = ((leVal bytes.toList % 2 ^ 255 : Nat) : Fp) := by
    intro e he
    have hlt := Nat.lt_trans (ZMod.val_lt e) (by decide : p25519 < 2 ^ 255)
    rw [he, Nat.mod_eq_of_lt hlt, ZMod.natCast_zmod_val]
  generalize ((leVal bytes.toList % 2 ^ 255 : Nat) : Fp) = s at hs hread
  refine (toBytes_returns (rep64 hs)).bind (fun check hcheck => ?_)
  refine (isNegative_returns (rep64 hs)).bind (fun sneg hsneg => ?_)
  by_cases hbad : check ≠ bytes ∨ sneg = true
  · rw [if_pos hbad]
    refine Returns.ret (fun P hP => ?_)
    obtain ⟨e, he, henc⟩ := hP
    obtain rfl := hread e he
    rcases hbad with hne | hneg
    · exact hne (toBytes_injective (hcheck.trans he.symm))
    · rw [hneg] at hsneg
      exact henc.nonneg (of_decide_eq_true hsneg.symm)
  · rw [if_neg hbad]
    obtain ⟨hcanonical, hnonneg⟩ := not_or.1 hbad
    rw [not_not.1 hcanonical] at hcheck
    rw [Bool.not_eq_true] at hnonneg
    rw [hnonneg] at hsneg
    have hsnn : ¬ Negative s := of_decide_eq_false hsneg.symm
    refine (square_returns (rep54 hs)).bind (fun ss hss => ?_)
    refine (sub_returns (rep54 one_of) (rep54 hss)).bind (fun u1 hu1 => ?_)
    refine (sum_returns one_of hss).bind (fun u2 hu2 => ?_)
    refine (square_returns (rep54' hu2)).bind (fun u2s hu2s => ?_)
    refine (negate_returns (rep54 EDWARDS_D_rep)).bind (fun nd hnd => ?_)
    refine (square_returns (rep54 hu1)).bind (fun u1s hu1s => ?_)
    refine (mul_returns (rep54 hnd) (rep54 hu1s)).bind (fun du hdu => ?_)
    refine (sub_returns (rep54 hdu) (rep54 hu2s)).bind (fun v hv => ?_)
    refine (mul_returns (rep54 hv) (rep54 hu2s)).bind (fun w hw => ?_)
    refine (invsqrt_returns (rep54 hw)).bind (fun z hz => ?_)
    obtain ⟨ok, inv⟩ := z
    obtain ⟨I, hI, hok, -, hroot⟩ := hz
    dsimp only at hI hok
    refine (mul_returns (rep54 hI) (rep54' hu2)).bind (fun Dx hDx => ?_)
    refine (mul_returns (rep54 hDx) (rep54 hv)).bind (fun Dxv hDxv => ?_)
    refine (mul_returns (rep54 hI) (rep54 hDxv)).bind (fun Dy hDy => ?_)
    refine (sum_returns hs hs).bind (fun s2 hs2 => ?_)
    refine (mul_returns (rep54' hs2) (rep54 hDx)).bind (fun x0 hx0 => ?_)
    refine (abs_returns hx0).bind (fun xneg hxneg => hxneg.bind (fun x hx => ?_))
    obtain ⟨ex, hex, hxsq, hxnn⟩ := hx
    refine (mul_returns (rep54 hu1) (rep54 hDy)).bind (fun y hy => ?_)
    refine (mul_returns (rep54 hex) (rep54 hy)).bind (fun t ht => ?_)
    refine (isNegative_returns (rep64 ht)).bind (fun tneg htneg => ?_)
    refine (isZero_returns (rep64 hy)).bind (fun yzero hyzero => ?_)
    have hden : -edwardsD * (1 - s ^ 2) ^ 2 - (1 + s ^ 2) ^ 2 = decodeDenominator ed25519.d s := rfl
    rw [hden] at hok hroot hy htneg hyzero ht
    generalize hey : (1 - s ^ 2) * (I * (I * (1 + s ^ 2) * decodeDenominator ed25519.d s)) = ey at *
    by_cases hfail : ok = false ∨ tneg = true ∨ yzero = true
    · rw [if_pos hfail]
      refine Returns.ret (fun P hP => ?_)
      obtain ⟨e, he, henc⟩ := hP
      obtain rfl := hread e he
      obtain ⟨hv0, hvsq⟩ := henc.denominator two_ne_zero_fp ed25519_a sqrtAMinusD_sq sqrtAMinusD_ne_zero
      have hu2 := henc.one_add_sq_ne_zero two_ne_zero_fp
      have hw0 := mul_ne_zero hv0 (pow_ne_zero 2 hu2)
      have hwsq := hvsq.mul ⟨1 + e ^ 2, sq (1 + e ^ 2)⟩
      have hone := hroot hw0 hwsq
      have hyeq : ey = P.y := by
        have hcode := decode_y hone
        rw [hey] at hcode
        refine mul_right_cancel₀ hu2 ?_
        rw [hcode]
        linear_combination -henc.ratio
      have hxeq : ex = P.x := by
        refine isSign_negative.eq_of_sq hxnn henc.normal.x (mul_right_cancel₀ hv0 ?_)
        rw [decode_x_sq hone hxsq]
        exact (henc.x_sq two_ne_zero_fp ed25519_a).symm
      rcases hfail with hfail | hfail | hfail
      · rw [hok.2 ⟨hw0, hwsq⟩] at hfail
        exact Bool.false_ne_true hfail.symm
      · rw [hfail, hxeq, hyeq] at htneg
        exact henc.normal.t (of_decide_eq_true htneg.symm)
      · rw [hfail, hyeq] at hyzero
        exact henc.normal.y (of_decide_eq_true hyzero.symm)
    · rw [if_neg hfail]
      obtain ⟨hok', hrest⟩ := not_or.1 hfail
      obtain ⟨htneg', hyzero'⟩ := not_or.1 hrest
      rw [Bool.not_eq_true] at htneg' hyzero'
      rw [htneg'] at htneg
      rw [hyzero'] at hyzero
      obtain ⟨hw0, hwsq⟩ := hok.1 (Bool.of_not_eq_false hok')
      have hone := hroot hw0 hwsq
      have hon : OnCurve ed25519.a ed25519.d (ex, ey) := decode_onCurve hone hxsq hey.symm
      have hratio : s ^ 2 * (1 + ey) = 1 - ey := by
        have hcode := decode_y hone
        rw [hey] at hcode
        linear_combination hcode
      have henc : Encodes Negative s (⟨ex, ey, hon⟩ : ed25519.Point) :=
        ⟨hsnn, ⟨hxnn, of_decide_eq_false htneg.symm, of_decide_eq_false hyzero.symm⟩, hratio⟩
      refine Returns.ret ⟨⟨ex, ey, hon⟩, ⟨?_, henc.isEven ed25519_a sqrtAMinusD_sq sqrtAMinusD_ne_zero⟩, s, hcheck, henc⟩
      refine ⟨ex, ey, 1, ex * ey, ⟨⟨one_ne_zero, ?_, ?_⟩, ?_⟩, hex, hy, one_of, ht⟩
      · exact (mul_one ex).symm
      · exact (mul_one ey).symm
      · exact (mul_one (ex * ey)).symm

/-- **What is received determines the coset**, and the coset what is received. -/
theorem received_coset {b c : CompressedRistretto} (hP : Received b P) (hQ : Received c Q) : 4 • (P - Q) = 0 ↔ b = c := by
  obtain ⟨s, hs, hsP⟩ := hP
  obtain ⟨t, ht, htQ⟩ := hQ
  rw [hsP.coset_iff two_ne_zero_fp ed25519_a sqrtAMinusD_sq sqrtAMinusD_ne_zero isSign_negative htQ]
  constructor
  · rintro rfl
    exact toBytes_injective (hs.trans ht.symm)
  · rintro rfl
    exact ZMod.val_injective _ (hs.symm.trans ht)

end RistrettoPoint

end Curve25519
end Dpid
