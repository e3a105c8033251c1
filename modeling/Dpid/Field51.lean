import Dpid.Checked
import Dpid.P25519
import Mathlib.Tactic.LinearCombination
import Mathlib.Tactic.Ring
/-!
# Field51 — the field of the curve25519 crate (`backend/serial/u64/field.rs`)

An element of the integers modulo `2 ^ 255 - 19` is five limbs to the base `2 ^ 51`, each below `2 ^ 54` between two
reductions.  The products are sums of 128 bits.  `none` is a panic: a sum that overflows, or a `debug_assert!`.
-/
namespace Dpid
namespace Curve25519

open Checked

/-! ## The functions -/

/-- `FieldElement51`, the lowest limb first. -/
@[ext]
structure FieldElement51 where
  l0 : Nat
  l1 : Nat
  l2 : Nat
  l3 : Nat
  l4 : Nat
deriving DecidableEq, Repr

namespace FieldElement51

/-- The lowest 51 bits. -/
def low51 (n : Nat) : Nat := n &&& (2 ^ 51 - 1)

/-- `n as u64`. -/
def asU64 (n : Nat) : Nat := n % 2 ^ 64

def zero : FieldElement51 := ⟨0, 0, 0, 0, 0⟩

def one : FieldElement51 := ⟨1, 0, 0, 0, 0⟩

def reduce (limbs : FieldElement51) : Option FieldElement51 := do
  let c0 := limbs.l0 >>> 51
  let c1 := limbs.l1 >>> 51
  let c2 := limbs.l2 >>> 51
  let c3 := limbs.l3 >>> 51
  let c4 := limbs.l4 >>> 51
  let c4 ← u64 (c4 * 19)
  let l0 ← u64 (low51 limbs.l0 + c4)
  let l1 ← u64 (low51 limbs.l1 + c0)
  let l2 ← u64 (low51 limbs.l2 + c1)
  let l3 ← u64 (low51 limbs.l3 + c2)
  let l4 ← u64 (low51 limbs.l4 + c3)
  return ⟨l0, l1, l2, l3, l4⟩

def add (x y : FieldElement51) : Option FieldElement51 := do
  let l0 ← u64 (x.l0 + y.l0)
  let l1 ← u64 (x.l1 + y.l1)
  let l2 ← u64 (x.l2 + y.l2)
  let l3 ← u64 (x.l3 + y.l3)
  let l4 ← u64 (x.l4 + y.l4)
  return ⟨l0, l1, l2, l3, l4⟩

/-- `(x + m) - y`. -/
def subLimb (x m y : Nat) : Option Nat := do
  let s ← u64 (x + m)
  Checked.sub s y

/-- The limbs are those of `16 * p25519` above the difference. -/
def sub (x y : FieldElement51) : Option FieldElement51 := do
  let l0 ← subLimb x.l0 36028797018963664 y.l0
  let l1 ← subLimb x.l1 36028797018963952 y.l1
  let l2 ← subLimb x.l2 36028797018963952 y.l2
  let l3 ← subLimb x.l3 36028797018963952 y.l3
  let l4 ← subLimb x.l4 36028797018963952 y.l4
  reduce ⟨l0, l1, l2, l3, l4⟩

def negate (x : FieldElement51) : Option FieldElement51 := do
  let l0 ← Checked.sub 36028797018963664 x.l0
  let l1 ← Checked.sub 36028797018963952 x.l1
  let l2 ← Checked.sub 36028797018963952 x.l2
  let l3 ← Checked.sub 36028797018963952 x.l3
  let l4 ← Checked.sub 36028797018963952 x.l4
  reduce ⟨l0, l1, l2, l3, l4⟩

/-- The limbs are below `n`. -/
def Bounded (n : Nat) (x : FieldElement51) : Prop := x.l0 < n ∧ x.l1 < n ∧ x.l2 < n ∧ x.l3 < n ∧ x.l4 < n

instance (n : Nat) (x : FieldElement51) : Decidable (Bounded n x) := inferInstanceAs (Decidable (_ ∧ _))

/-- The coefficients of a product carried into five limbs, and the last carry into the first of them. -/
def carry (c0 c1 c2 c3 c4 : Nat) : Option FieldElement51 := do
  let c1 ← u128 (c1 + asU64 (c0 >>> 51))
  let c2 ← u128 (c2 + asU64 (c1 >>> 51))
  let c3 ← u128 (c3 + asU64 (c2 >>> 51))
  let c4 ← u128 (c4 + asU64 (c3 >>> 51))
  let t ← u64 (asU64 (c4 >>> 51) * 19)
  let out0 ← u64 (low51 (asU64 c0) + t)
  let out1 ← u64 (low51 (asU64 c1) + out0 >>> 51)
  return ⟨low51 out0, out1, low51 (asU64 c2), low51 (asU64 c3), low51 (asU64 c4)⟩

def mul (a b : FieldElement51) : Option FieldElement51 := do
  let b1_19 ← u64 (b.l1 * 19)
  let b2_19 ← u64 (b.l2 * 19)
  let b3_19 ← u64 (b.l3 * 19)
  let b4_19 ← u64 (b.l4 * 19)
  let c0 ← u128 (a.l0 * b.l0 + a.l4 * b1_19 + a.l3 * b2_19 + a.l2 * b3_19 + a.l1 * b4_19)
  let c1 ← u128 (a.l1 * b.l0 + a.l0 * b.l1 + a.l4 * b2_19 + a.l3 * b3_19 + a.l2 * b4_19)
  let c2 ← u128 (a.l2 * b.l0 + a.l1 * b.l1 + a.l0 * b.l2 + a.l4 * b3_19 + a.l3 * b4_19)
  let c3 ← u128 (a.l3 * b.l0 + a.l2 * b.l1 + a.l1 * b.l2 + a.l0 * b.l3 + a.l4 * b4_19)
  let c4 ← u128 (a.l4 * b.l0 + a.l3 * b.l1 + a.l2 * b.l2 + a.l1 * b.l3 + a.l0 * b.l4)
  guard (Bounded (2 ^ 54) a ∧ Bounded (2 ^ 54) b)
  carry c0 c1 c2 c3 c4

/-- One round of the loop of `pow2k`. -/
def pow2kRound (a : FieldElement51) : Option FieldElement51 := do
  let a3_19 ← u64 (19 * a.l3)
  let a4_19 ← u64 (19 * a.l4)
  let c0 ← u128 (a.l0 * a.l0 + 2 * (a.l1 * a4_19 + a.l2 * a3_19))
  let c1 ← u128 (a.l3 * a3_19 + 2 * (a.l0 * a.l1 + a.l2 * a4_19))
  let c2 ← u128 (a.l1 * a.l1 + 2 * (a.l0 * a.l2 + a.l4 * a3_19))
  let c3 ← u128 (a.l4 * a4_19 + 2 * (a.l0 * a.l3 + a.l1 * a.l2))
  let c4 ← u128 (a.l2 * a.l2 + 2 * (a.l0 * a.l4 + a.l1 * a.l3))
  guard (Bounded (2 ^ 54) a)
  carry c0 c1 c2 c3 c4

/-- Its rounds until `k` is `0`, at least one. -/
def pow2kLoop : Nat → FieldElement51 → Option FieldElement51
  | 0, a     => pow2kRound a
  | k + 1, a => pow2kRound a >>= pow2kLoop k

def pow2k (x : FieldElement51) (k : Nat) : Option FieldElement51 := do
  guard (0 < k)
  pow2kLoop (k - 1) x

def square (x : FieldElement51) : Option FieldElement51 := pow2k x 1

def square2 (x : FieldElement51) : Option FieldElement51 := do
  let square ← pow2k x 1
  let l0 ← u64 (square.l0 * 2)
  let l1 ← u64 (square.l1 * 2)
  let l2 ← u64 (square.l2 * 2)
  let l3 ← u64 (square.l3 * 2)
  let l4 ← u64 (square.l4 * 2)
  return ⟨l0, l1, l2, l3, l4⟩

/-! ## What the limbs stand for -/

def val (x : FieldElement51) : Nat := x.l0 + 2 ^ 51 * x.l1 + 2 ^ 102 * x.l2 + 2 ^ 153 * x.l3 + 2 ^ 204 * x.l4

/-- The limbs `x` stand for the element `e`, and are below `n`. -/
structure Rep (n : Nat) (e : Fp) (x : FieldElement51) : Prop where
  bounded : Bounded n x
  val_eq : (x.val : Fp) = e

theorem low51_eq (n : Nat) : low51 n = n % 2 ^ 51 := Nat.and_two_pow_sub_one_eq_mod n 51

theorem low51_asU64 (n : Nat) : low51 (asU64 n) = n % 2 ^ 51 := by
  rw [low51_eq, asU64]
  exact Nat.mod_mod_of_dvd n (by decide)

theorem shiftRight_51 (n : Nat) : n >>> 51 = n / 2 ^ 51 := Nat.shiftRight_eq_div_pow n 51

/-- The base to the fifth power, in the field. -/
theorem two_pow_255 : (2 : Fp) ^ 255 = 19 := by
  have hp : 2 ^ 255 = p25519 + 19 := by decide
  have h : ((2 ^ 255 : Nat) : Fp) = ((p25519 + 19 : Nat) : Fp) := congrArg Nat.cast hp
  rw [Nat.cast_add p25519, ZMod.natCast_self, zero_add] at h
  exact_mod_cast h

@[simp] theorem bounded_mk {n a b c d e : Nat} :
    Bounded n ⟨a, b, c, d, e⟩ ↔ a < n ∧ b < n ∧ c < n ∧ d < n ∧ e < n := Iff.rfl

theorem Bounded.mono {m n : Nat} {x : FieldElement51} (h : Bounded m x) (hmn : m ≤ n) : Bounded n x := by
  unfold Bounded at *
  omega

theorem Rep.mono {m n : Nat} {e : Fp} {x : FieldElement51} (h : Rep m e x) (hmn : m ≤ n) : Rep n e x :=
  ⟨h.bounded.mono hmn, h.val_eq⟩

/-- Numbers that agree up to a multiple of the modulus are one element. -/
theorem cast_eq_of_add_mul {a b k : Nat} (h : a + p25519 * k = b) : (a : Fp) = (b : Fp) := by
  rw [← h, Nat.cast_add, Nat.cast_mul, ZMod.natCast_self, zero_mul, add_zero]

/-! ## Reduction -/

/-- **A weak reduction** keeps the element and brings the limbs little above `2 ^ 51`. -/
theorem reduce_returns {x : FieldElement51} (h : Bounded (2 ^ 64) x) :
    Returns (reduce x) (Rep (2 ^ 51 + 2 ^ 18) x.val) := by
  obtain ⟨h0, h1, h2, h3, h4⟩ := h
  unfold reduce
  simp only [low51_eq, shiftRight_51]
  refine u64_bind (by omega) ?_
  refine u64_bind (by omega) ?_
  refine u64_bind (by omega) ?_
  refine u64_bind (by omega) ?_
  refine u64_bind (by omega) ?_
  refine u64_bind (by omega) ?_
  refine Returns.ret ⟨?_, ?_⟩
  · rw [bounded_mk]
    omega
  · refine cast_eq_of_add_mul (k := x.l4 / 2 ^ 51) ?_
    simp only [val, p25519]
    omega

/-! ## Sums and differences -/

variable {e f : Fp} {x y : FieldElement51}

theorem add_returns {m n : Nat} (hx : Rep m e x) (hy : Rep n f y) (hmn : m + n ≤ 2 ^ 64) :
    Returns (add x y) (Rep (m + n) (e + f)) := by
  obtain ⟨⟨x0, x1, x2, x3, x4⟩, rfl⟩ := hx
  obtain ⟨⟨y0, y1, y2, y3, y4⟩, rfl⟩ := hy
  unfold add
  refine u64_bind (by omega) ?_
  refine u64_bind (by omega) ?_
  refine u64_bind (by omega) ?_
  refine u64_bind (by omega) ?_
  refine u64_bind (by omega) ?_
  refine Returns.ret ⟨?_, ?_⟩
  · rw [bounded_mk]
    omega
  · rw [← Nat.cast_add]
    congr 1
    simp only [val]
    omega

theorem subLimb_bind {α : Type} {x m y : Nat} {f : Nat → Option α} {Q : α → Prop} (hx : x + m < 2 ^ 64) (hy : y ≤ m)
    (hf : Returns (f (x + m - y)) Q) : Returns (subLimb x m y >>= f) Q := by
  have hs : subLimb x m y = some (x + m - y) := by
    unfold subLimb u64 word
    rw [if_pos hx]
    exact if_pos (by omega)
  rw [hs]
  exact hf

/-- The limbs in front of the difference are a multiple of the modulus. -/
theorem cast_sub_of_add {a b c : Nat} (h : c + b = a + 16 * p25519) : (c : Fp) = (a : Fp) - (b : Fp) := by
  have hcast : ((c + b : Nat) : Fp) = ((a + 16 * p25519 : Nat) : Fp) := congrArg Nat.cast h
  rw [Nat.cast_add, Nat.cast_add, Nat.cast_mul, ZMod.natCast_self, mul_zero, add_zero] at hcast
  rw [← hcast, add_sub_cancel_right]

theorem sub_returns (hx : Rep (2 ^ 54) e x) (hy : Rep (2 ^ 54) f y) : Returns (sub x y) (Rep (2 ^ 52) (e - f)) := by
  obtain ⟨⟨x0, x1, x2, x3, x4⟩, rfl⟩ := hx
  obtain ⟨⟨y0, y1, y2, y3, y4⟩, rfl⟩ := hy
  unfold sub
  refine subLimb_bind (by omega) (by omega) ?_
  refine subLimb_bind (by omega) (by omega) ?_
  refine subLimb_bind (by omega) (by omega) ?_
  refine subLimb_bind (by omega) (by omega) ?_
  refine subLimb_bind (by omega) (by omega) ?_
  refine (reduce_returns ?_).mono (fun z hz => ⟨hz.bounded.mono (by decide), ?_⟩)
  · rw [bounded_mk]
    omega
  · rw [hz.val_eq]
    refine cast_sub_of_add ?_
    simp only [val, p25519]
    omega

theorem negate_returns (hx : Rep (2 ^ 54) e x) : Returns (negate x) (Rep (2 ^ 52) (-e)) := by
  obtain ⟨⟨x0, x1, x2, x3, x4⟩, rfl⟩ := hx
  unfold negate
  refine sub_bind (by omega) ?_
  refine sub_bind (by omega) ?_
  refine sub_bind (by omega) ?_
  refine sub_bind (by omega) ?_
  refine sub_bind (by omega) ?_
  refine (reduce_returns ?_).mono (fun z hz => ⟨hz.bounded.mono (by decide), ?_⟩)
  · rw [bounded_mk]
    omega
  · rw [hz.val_eq, ← zero_sub, ← Nat.cast_zero]
    refine cast_sub_of_add ?_
    simp only [val, p25519]
    omega

/-! ## Products -/

/-- **The carries keep the element**, and none is cut off, for the coefficients that products of limbs below `2 ^ 54`
have. -/
theorem carry_returns {c0 c1 c2 c3 c4 : Nat} (h0 : c0 < 77 * 2 ^ 108) (h1 : c1 < 77 * 2 ^ 108) (h2 : c2 < 77 * 2 ^ 108)
    (h3 : c3 < 77 * 2 ^ 108) (h4 : c4 < 5 * 2 ^ 108) :
    Returns (carry c0 c1 c2 c3 c4)
      (Rep (2 ^ 52) (c0 + 2 ^ 51 * c1 + 2 ^ 102 * c2 + 2 ^ 153 * c3 + 2 ^ 204 * c4 : Nat)) := by
  have hfit : ∀ {c : Nat}, c < 77 * 2 ^ 108 + 2 ^ 64 → asU64 (c >>> 51) = c / 2 ^ 51 := by
    intro c hc
    rw [shiftRight_51]
    exact Nat.mod_eq_of_lt (by omega)
  unfold carry
  rw [hfit (by omega)]
  refine u128_bind (by omega) ?_
  rw [hfit (by omega)]
  refine u128_bind (by omega) ?_
  rw [hfit (by omega)]
  refine u128_bind (by omega) ?_
  rw [hfit (by omega)]
  refine u128_bind (by omega) ?_
  rw [hfit (by omega)]
  simp only [low51_asU64]
  simp only [low51_eq, shiftRight_51]
  refine u64_bind (by omega) ?_
  refine u64_bind (by omega) ?_
  refine u64_bind (by omega) ?_
  refine Returns.ret ⟨?_, ?_⟩
  · rw [bounded_mk]
    omega
  · refine cast_eq_of_add_mul (k := (c4 + (c3 + (c2 + (c1 + c0 / 2 ^ 51) / 2 ^ 51) / 2 ^ 51) / 2 ^ 51) / 2 ^ 51) ?_
    simp only [val, p25519]
    omega

theorem mul_lt_two_pow {m n : Nat} (hm : m < 2 ^ 54) (hn : n < 2 ^ 54) : m * n < 2 ^ 108 := by
  calc m * n < 2 ^ 54 * 2 ^ 54 := Nat.mul_lt_mul'' hm hn
    _ = 2 ^ 108 := (Nat.pow_add 2 54 54).symm

/-- A product by nineteen times a limb. -/
theorem mul_19 (m n : Nat) : m * (n * 19) = 19 * (m * n) := by ring

/-- **The product of two elements** whose limbs are below `2 ^ 54`: no sum overflows. -/
theorem mul_returns (hx : Rep (2 ^ 54) e x) (hy : Rep (2 ^ 54) f y) : Returns (mul x y) (Rep (2 ^ 52) (e * f)) := by
  have hxb := hx.bounded
  have hyb := hy.bounded
  obtain ⟨⟨x0, x1, x2, x3, x4⟩, rfl⟩ := hx
  obtain ⟨⟨y0, y1, y2, y3, y4⟩, rfl⟩ := hy
  unfold mul
  refine u64_bind (by omega) ?_
  refine u64_bind (by omega) ?_
  refine u64_bind (by omega) ?_
  refine u64_bind (by omega) ?_
  simp only [mul_19]
  have b00 := mul_lt_two_pow x0 y0
  have b01 := mul_lt_two_pow x0 y1
  have b02 := mul_lt_two_pow x0 y2
  have b03 := mul_lt_two_pow x0 y3
  have b04 := mul_lt_two_pow x0 y4
  have b10 := mul_lt_two_pow x1 y0
  have b11 := mul_lt_two_pow x1 y1
  have b12 := mul_lt_two_pow x1 y2
  have b13 := mul_lt_two_pow x1 y3
  have b14 := mul_lt_two_pow x1 y4
  have b20 := mul_lt_two_pow x2 y0
  have b21 := mul_lt_two_pow x2 y1
  have b22 := mul_lt_two_pow x2 y2
  have b23 := mul_lt_two_pow x2 y3
  have b24 := mul_lt_two_pow x2 y4
  have b30 := mul_lt_two_pow x3 y0
  have b31 := mul_lt_two_pow x3 y1
  have b32 := mul_lt_two_pow x3 y2
  have b33 := mul_lt_two_pow x3 y3
  have b34 := mul_lt_two_pow x3 y4
  have b40 := mul_lt_two_pow x4 y0
  have b41 := mul_lt_two_pow x4 y1
  have b42 := mul_lt_two_pow x4 y2
  have b43 := mul_lt_two_pow x4 y3
  have b44 := mul_lt_two_pow x4 y4
  refine u128_bind (by omega) ?_
  refine u128_bind (by omega) ?_
  refine u128_bind (by omega) ?_
  refine u128_bind (by omega) ?_
  refine u128_bind (by omega) ?_
  refine guard_bind ⟨hxb, hyb⟩ ?_
  refine (carry_returns (by omega) (by omega) (by omega) (by omega) (by omega)).mono (fun z hz => ⟨hz.bounded, ?_⟩)
  rw [hz.val_eq]
  simp only [val]
  push_cast
  linear_combination (-((x.l4 : Fp) * y.l1 + x.l3 * y.l2 + x.l2 * y.l3 + x.l1 * y.l4) -
    2 ^ 51 * ((x.l4 : Fp) * y.l2 + x.l3 * y.l3 + x.l2 * y.l4) - 2 ^ 102 * ((x.l4 : Fp) * y.l3 + x.l3 * y.l4) -
    2 ^ 153 * ((x.l4 : Fp) * y.l4)) * two_pow_255

/-- A limb times nineteen times a limb. -/
theorem mul_19' (m n : Nat) : m * (19 * n) = 19 * (m * n) := by ring

theorem pow2kRound_returns (hx : Rep (2 ^ 54) e x) : Returns (pow2kRound x) (Rep (2 ^ 52) (e ^ 2)) := by
  have hxb := hx.bounded
  obtain ⟨⟨x0, x1, x2, x3, x4⟩, rfl⟩ := hx
  unfold pow2kRound
  refine u64_bind (by omega) ?_
  refine u64_bind (by omega) ?_
  simp only [mul_19']
  have b00 := mul_lt_two_pow x0 x0
  have b01 := mul_lt_two_pow x0 x1
  have b02 := mul_lt_two_pow x0 x2
  have b03 := mul_lt_two_pow x0 x3
  have b04 := mul_lt_two_pow x0 x4
  have b11 := mul_lt_two_pow x1 x1
  have b12 := mul_lt_two_pow x1 x2
  have b13 := mul_lt_two_pow x1 x3
  have b14 := mul_lt_two_pow x1 x4
  have b22 := mul_lt_two_pow x2 x2
  have b23 := mul_lt_two_pow x2 x3
  have b24 := mul_lt_two_pow x2 x4
  have b33 := mul_lt_two_pow x3 x3
  have b43 := mul_lt_two_pow x4 x3
  have b44 := mul_lt_two_pow x4 x4
  refine u128_bind (by omega) ?_
  refine u128_bind (by omega) ?_
  refine u128_bind (by omega) ?_
  refine u128_bind (by omega) ?_
  refine u128_bind (by omega) ?_
  refine guard_bind hxb ?_
  refine (carry_returns (by omega) (by omega) (by omega) (by omega) (by omega)).mono (fun z hz => ⟨hz.bounded, ?_⟩)
  rw [hz.val_eq]
  simp only [val]
  push_cast
  linear_combination (-(2 * (x.l1 : Fp) * x.l4 + 2 * x.l2 * x.l3) - 2 ^ 51 * (2 * (x.l2 : Fp) * x.l4 + x.l3 * x.l3) -
    2 ^ 102 * (2 * (x.l4 : Fp) * x.l3) - 2 ^ 153 * ((x.l4 : Fp) * x.l4)) * two_pow_255

theorem pow2kLoop_returns : ∀ (k : Nat) {x : FieldElement51} {e : Fp}, Rep (2 ^ 54) e x →
    Returns (pow2kLoop k x) (Rep (2 ^ 52) (e ^ 2 ^ (k + 1)))
  | 0, _, _, hx     => pow2kRound_returns hx
  | k + 1, _, e, hx => by
    refine (pow2kRound_returns hx).bind (fun z hz => ?_)
    have hrest := pow2kLoop_returns k (hz.mono (by decide))
    rwa [← pow_mul, ← pow_succ' 2 (k + 1)] at hrest

/-- **Repeated squaring**, at least once. -/
theorem pow2k_returns {k : Nat} (hk : 0 < k) (hx : Rep (2 ^ 54) e x) : Returns (pow2k x k) (Rep (2 ^ 52) (e ^ 2 ^ k)) := by
  have hloop := pow2kLoop_returns (k - 1) hx
  rw [Nat.sub_add_cancel hk] at hloop
  exact guard_bind hk hloop

theorem square_returns (hx : Rep (2 ^ 54) e x) : Returns (square x) (Rep (2 ^ 52) (e ^ 2)) :=
  pow2k_returns Nat.one_pos hx

theorem square2_returns (hx : Rep (2 ^ 54) e x) : Returns (square2 x) (Rep (2 ^ 53) (2 * e ^ 2)) := by
  refine (square_returns hx).bind (fun z hz => ?_)
  obtain ⟨⟨z0, z1, z2, z3, z4⟩, hz⟩ := hz
  refine u64_bind (by omega) ?_
  refine u64_bind (by omega) ?_
  refine u64_bind (by omega) ?_
  refine u64_bind (by omega) ?_
  refine u64_bind (by omega) ?_
  refine Returns.ret ⟨?_, ?_⟩
  · rw [bounded_mk]
    omega
  · rw [← hz]
    simp only [val]
    push_cast
    ring

theorem zero_rep : Rep 1 0 zero := ⟨by decide, Nat.cast_zero⟩

theorem one_rep : Rep 2 1 one := ⟨by decide, Nat.cast_one⟩

end FieldElement51
end Curve25519
end Dpid
