import Dpid.Checked
import Dpid.P25519
import Mathlib.Tactic.LinearCombination
import Mathlib.Tactic.Ring
import Mathlib.Tactic.Zify
/-!
# Scalar52 — scalars in limbs (`backend/serial/u64/scalar.rs`)

A scalar is five limbs to the base `2 ^ 52`.  Products are taken out of their nine coefficients by Montgomery's
reduction, which divides by `2 ^ 260` modulo the group order.  `none` is a sum that overflows.
-/
namespace Dpid
namespace Curve25519

open Checked

/-! ## The functions -/

/-- `Scalar52`, the lowest limb first. -/
@[ext]
structure Scalar52 where
  s0 : Nat
  s1 : Nat
  s2 : Nat
  s3 : Nat
  s4 : Nat
deriving DecidableEq, Repr

/-- `[u128; 9]`: the coefficients of a product. -/
structure Limbs9 where
  z0 : Nat
  z1 : Nat
  z2 : Nat
  z3 : Nat
  z4 : Nat
  z5 : Nat
  z6 : Nat
  z7 : Nat
  z8 : Nat

namespace Scalar52

/-- The lowest 52 bits. -/
def low52 (n : Nat) : Nat := n &&& (2 ^ 52 - 1)

/-- `a.wrapping_sub(b)` of two `u64`. -/
def wrappingSub (a b : Nat) : Nat := (a + 2 ^ 64 - b) % 2 ^ 64

/-- `a.wrapping_mul(b)` of two `u64`. -/
def wrappingMul (a b : Nat) : Nat := a * b % 2 ^ 64

def zero : Scalar52 := ⟨0, 0, 0, 0, 0⟩

/-- The group order. -/
def L : Scalar52 := ⟨0x0002631a5cf5d3ed, 0x000dea2f79cd6581, 0x000000000014def9, 0, 0x0000100000000000⟩

/-- `L * LFACTOR = -1` modulo `2 ^ 52`. -/
def LFACTOR : Nat := 0x51da312547e1b

/-- `2 ^ 260`, reduced. -/
def R : Scalar52 :=
  ⟨0x000f48bd6721e6ed, 0x0003bab5ac67e45a, 0x000fffffeb35e51b, 0x000fffffffffffff, 0x00000fffffffffff⟩

/-- Its square. -/
def RR : Scalar52 :=
  ⟨0x0009d265e952d13b, 0x000d63c715bea69f, 0x0005be65cb687604, 0x0003dceec73d217f, 0x000009411b7c309a⟩

/-- `a[i].wrapping_sub(b[i] + (borrow >> 63))`. -/
def borrowLimb (a b borrow : Nat) : Option Nat := do
  let t ← u64 (b + borrow >>> 63)
  return wrappingSub a t

/-- `(carry >> 52) + difference[i] + (L[i] & underflow_mask)`. -/
def carryLimb (carry difference l mask : Nat) : Option Nat := u64 (carry >>> 52 + difference + (l &&& mask))

def sub (a b : Scalar52) : Option Scalar52 := do
  let b0 ← borrowLimb a.s0 b.s0 0
  let b1 ← borrowLimb a.s1 b.s1 b0
  let b2 ← borrowLimb a.s2 b.s2 b1
  let b3 ← borrowLimb a.s3 b.s3 b2
  let b4 ← borrowLimb a.s4 b.s4 b3
  let underflowMask := wrappingSub (b4 >>> 63 ^^^ 1) 1
  let c0 ← carryLimb 0 (low52 b0) L.s0 underflowMask
  let c1 ← carryLimb c0 (low52 b1) L.s1 underflowMask
  let c2 ← carryLimb c1 (low52 b2) L.s2 underflowMask
  let c3 ← carryLimb c2 (low52 b3) L.s3 underflowMask
  let c4 ← carryLimb c3 (low52 b4) L.s4 underflowMask
  return ⟨low52 c0, low52 c1, low52 c2, low52 c3, low52 c4⟩

def add (a b : Scalar52) : Option Scalar52 := do
  let c0 ← u64 (a.s0 + b.s0 + 0 >>> 52)
  let c1 ← u64 (a.s1 + b.s1 + c0 >>> 52)
  let c2 ← u64 (a.s2 + b.s2 + c1 >>> 52)
  let c3 ← u64 (a.s3 + b.s3 + c2 >>> 52)
  let c4 ← u64 (a.s4 + b.s4 + c3 >>> 52)
  sub ⟨low52 c0, low52 c1, low52 c2, low52 c3, low52 c4⟩ L

def mulInternal (a b : Scalar52) : Option Limbs9 := do
  let z0 ← u128 (a.s0 * b.s0)
  let z1 ← u128 (a.s0 * b.s1 + a.s1 * b.s0)
  let z2 ← u128 (a.s0 * b.s2 + a.s1 * b.s1 + a.s2 * b.s0)
  let z3 ← u128 (a.s0 * b.s3 + a.s1 * b.s2 + a.s2 * b.s1 + a.s3 * b.s0)
  let z4 ← u128 (a.s0 * b.s4 + a.s1 * b.s3 + a.s2 * b.s2 + a.s3 * b.s1 + a.s4 * b.s0)
  let z5 ← u128 (a.s1 * b.s4 + a.s2 * b.s3 + a.s3 * b.s2 + a.s4 * b.s1)
  let z6 ← u128 (a.s2 * b.s4 + a.s3 * b.s3 + a.s4 * b.s2)
  let z7 ← u128 (a.s3 * b.s4 + a.s4 * b.s3)
  let z8 ← u128 (a.s4 * b.s4)
  return ⟨z0, z1, z2, z3, z4, z5, z6, z7, z8⟩

def squareInternal (a : Scalar52) : Option Limbs9 := do
  let aa0 ← u64 (a.s0 * 2)
  let aa1 ← u64 (a.s1 * 2)
  let aa2 ← u64 (a.s2 * 2)
  let aa3 ← u64 (a.s3 * 2)
  let z0 ← u128 (a.s0 * a.s0)
  let z1 ← u128 (aa0 * a.s1)
  let z2 ← u128 (aa0 * a.s2 + a.s1 * a.s1)
  let z3 ← u128 (aa0 * a.s3 + aa1 * a.s2)
  let z4 ← u128 (aa0 * a.s4 + aa1 * a.s3 + a.s2 * a.s2)
  let z5 ← u128 (aa1 * a.s4 + aa2 * a.s3)
  let z6 ← u128 (aa2 * a.s4 + a.s3 * a.s3)
  let z7 ← u128 (aa3 * a.s4)
  let z8 ← u128 (a.s4 * a.s4)
  return ⟨z0, z1, z2, z3, z4, z5, z6, z7, z8⟩

/-- The multiple of the order that makes the lowest limb zero: the carry, and the multiplier. -/
def part1 (sum : Nat) : Option (Nat × Nat) := do
  let p := low52 (wrappingMul (sum % 2 ^ 64) LFACTOR)
  let t ← u128 (sum + p * L.s0)
  return (t >>> 52, p)

def part2 (sum : Nat) : Nat × Nat := (sum >>> 52, low52 (sum % 2 ^ 64))

def montgomeryReduce (limbs : Limbs9) : Option Scalar52 := do
  let (carry, n0) ← part1 limbs.z0
  let (carry, n1) ← part1 (← u128 (carry + limbs.z1 + n0 * L.s1))
  let (carry, n2) ← part1 (← u128 (carry + limbs.z2 + n0 * L.s2 + n1 * L.s1))
  let (carry, n3) ← part1 (← u128 (carry + limbs.z3 + n1 * L.s2 + n2 * L.s1))
  let (carry, n4) ← part1 (← u128 (carry + limbs.z4 + n0 * L.s4 + n2 * L.s2 + n3 * L.s1))
  let (carry, r0) := part2 (← u128 (carry + limbs.z5 + n1 * L.s4 + n3 * L.s2 + n4 * L.s1))
  let (carry, r1) := part2 (← u128 (carry + limbs.z6 + n2 * L.s4 + n4 * L.s2))
  let (carry, r2) := part2 (← u128 (carry + limbs.z7 + n3 * L.s4))
  let (carry, r3) := part2 (← u128 (carry + limbs.z8 + n4 * L.s4))
  sub ⟨r0, r1, r2, r3, carry % 2 ^ 64⟩ L

def montgomeryMul (a b : Scalar52) : Option Scalar52 := do
  montgomeryReduce (← mulInternal a b)

def montgomerySquare (a : Scalar52) : Option Scalar52 := do
  montgomeryReduce (← squareInternal a)

def mul (a b : Scalar52) : Option Scalar52 := do
  let ab ← montgomeryReduce (← mulInternal a b)
  montgomeryReduce (← mulInternal ab RR)

def square (a : Scalar52) : Option Scalar52 := do
  let aa ← montgomeryReduce (← squareInternal a)
  montgomeryReduce (← mulInternal aa RR)

def toMontgomery (a : Scalar52) : Option Scalar52 := montgomeryMul a RR

def fromMontgomery (a : Scalar52) : Option Scalar52 :=
  montgomeryReduce ⟨a.s0, a.s1, a.s2, a.s3, a.s4, 0, 0, 0, 0⟩

/-! ## What the limbs stand for -/

def val (x : Scalar52) : Nat := x.s0 + 2 ^ 52 * x.s1 + 2 ^ 104 * x.s2 + 2 ^ 156 * x.s3 + 2 ^ 208 * x.s4

/-- Every limb fits its base. -/
def Bounded (x : Scalar52) : Prop := x.s0 < 2 ^ 52 ∧ x.s1 < 2 ^ 52 ∧ x.s2 < 2 ^ 52 ∧ x.s3 < 2 ^ 52 ∧ x.s4 < 2 ^ 52

instance (x : Scalar52) : Decidable (Bounded x) := inferInstanceAs (Decidable (_ ∧ _))

/-- The limbs `x` stand for the scalar `e`, by a number below `n`. -/
structure Rep (n : Nat) (e : Fl) (x : Scalar52) : Prop where
  bounded : Bounded x
  lt : x.val < n
  val_eq : (x.val : Fl) = e

theorem Rep.mono {m n : Nat} {e : Fl} {x : Scalar52} (h : Rep m e x) (hmn : m ≤ n) : Rep n e x :=
  ⟨h.bounded, Nat.lt_of_lt_of_le h.lt hmn, h.val_eq⟩

/-- A reduced scalar is the canonical number. -/
theorem Rep.val_reduced {e : Fl} {x : Scalar52} (h : Rep groupOrder e x) : x.val = e.val := by
  rw [← h.val_eq, ZMod.val_natCast, Nat.mod_eq_of_lt h.lt]

theorem low52_eq (n : Nat) : low52 n = n % 2 ^ 52 := Nat.and_two_pow_sub_one_eq_mod n 52

theorem val_lt {x : Scalar52} (h : Bounded x) : x.val < (2 ^ 52) ^ 5 := by
  unfold Bounded at h
  unfold val
  omega

theorem L_val : L.val = groupOrder := by decide

/-! ## Differences and sums -/

/-- A borrow, and the limb that is left. -/
theorem borrowLimb_returns {a b borrow : Nat} (ha : a < 2 ^ 52) (hb : b < 2 ^ 52) (hbor : borrow < 2 ^ 64) :
    Returns (borrowLimb a b borrow)
      (fun r => r < 2 ^ 64 ∧ low52 r + b + borrow / 2 ^ 63 = a + 2 ^ 52 * (r / 2 ^ 63)) := by
  unfold borrowLimb
  rw [Nat.shiftRight_eq_div_pow]
  refine u64_bind (by omega) (Returns.ret ?_)
  rw [low52_eq, wrappingSub]
  omega

/-- A carry, and the limb that is left. -/
theorem carryLimb_returns {c d l m l' : Nat} (hc : c / 2 ^ 52 ≤ 1) (hd : d < 2 ^ 52) (hl : l &&& m = l')
    (hl' : l' < 2 ^ 52) :
    Returns (carryLimb c d l m) (fun r => r / 2 ^ 52 ≤ 1 ∧ low52 r + 2 ^ 52 * (r / 2 ^ 52) = c / 2 ^ 52 + d + l') := by
  unfold carryLimb
  rw [hl, Nat.shiftRight_eq_div_pow, u64, word, if_pos (by omega)]
  refine ⟨_, rfl, ?_⟩
  beta_reduce
  rw [low52_eq]
  omega

theorem low52_lt (n : Nat) : low52 n < 2 ^ 52 := by
  rw [low52_eq]
  exact Nat.mod_lt _ (by decide)

/-- The limbs of an addition, whose last carry is cut off. -/
theorem carries_val {d l r : Scalar52} {k0 k1 k2 k3 k4 : Nat} (h0 : r.s0 + 2 ^ 52 * k0 = d.s0 + l.s0)
    (h1 : r.s1 + 2 ^ 52 * k1 = k0 + d.s1 + l.s1) (h2 : r.s2 + 2 ^ 52 * k2 = k1 + d.s2 + l.s2)
    (h3 : r.s3 + 2 ^ 52 * k3 = k2 + d.s3 + l.s3) (h4 : r.s4 + 2 ^ 52 * k4 = k3 + d.s4 + l.s4) :
    r.val + (2 ^ 52) ^ 5 * k4 = d.val + l.val := by
  unfold val
  omega

/-- The limbs of a subtraction. -/
theorem borrows_val {a b d : Scalar52} {k0 k1 k2 k3 k4 : Nat} (h0 : d.s0 + b.s0 = a.s0 + 2 ^ 52 * k0)
    (h1 : d.s1 + b.s1 + k0 = a.s1 + 2 ^ 52 * k1) (h2 : d.s2 + b.s2 + k1 = a.s2 + 2 ^ 52 * k2)
    (h3 : d.s3 + b.s3 + k2 = a.s3 + 2 ^ 52 * k3) (h4 : d.s4 + b.s4 + k3 = a.s4 + 2 ^ 52 * k4) :
    d.val + b.val = a.val + (2 ^ 52) ^ 5 * k4 := by
  unfold val
  omega

/-- What the mask leaves of the order: nothing, or all. -/
theorem and_underflowMask {borrow k : Nat} (hk : borrow / 2 ^ 63 = k) (h : k ≤ 1) {l : Nat} (hl : l < 2 ^ 64) :
    l &&& wrappingSub (borrow >>> 63 ^^^ 1) 1 = l * k := by
  rw [Nat.shiftRight_eq_div_pow, hk]
  obtain rfl | rfl : k = 0 ∨ k = 1 := by omega
  · exact Nat.and_zero l
  · rw [Nat.mul_one]
    exact (Nat.and_two_pow_sub_one_eq_mod l 64).trans (Nat.mod_eq_of_lt hl)

/-- **The difference, or the difference and the order where it would be negative.** -/
theorem sub_returns {a b : Scalar52} (ha : Bounded a) (hb : Bounded b) (h : b.val ≤ a.val + groupOrder) :
    Returns (sub a b) (fun z => Bounded z ∧ (b.val ≤ a.val → z.val + b.val = a.val) ∧
      (a.val < b.val → z.val + b.val = a.val + groupOrder)) := by
  have hva := val_lt ha
  have hvb := val_lt hb
  obtain ⟨a0, a1, a2, a3, a4⟩ := ha
  obtain ⟨b0, b1, b2, b3, b4⟩ := hb
  refine (borrowLimb_returns a0 b0 (by decide)).bind (fun r0 h0 => ?_)
  refine (borrowLimb_returns a1 b1 h0.1).bind (fun r1 h1 => ?_)
  refine (borrowLimb_returns a2 b2 h1.1).bind (fun r2 h2 => ?_)
  refine (borrowLimb_returns a3 b3 h2.1).bind (fun r3 h3 => ?_)
  refine (borrowLimb_returns a4 b4 h3.1).bind (fun r4 h4 => ?_)
  have hk : r4 / 2 ^ 63 ≤ 1 := by omega
  have hd := borrows_val (d := ⟨low52 r0, low52 r1, low52 r2, low52 r3, low52 r4⟩) h0.2 h1.2 h2.2 h3.2 h4.2
  have hmask := fun {l : Nat} => and_underflowMask (l := l) (rfl : r4 / 2 ^ 63 = _) hk
  generalize r4 / 2 ^ 63 = k at hk hd hmask
  have hbound : ∀ {l : Nat}, l < 2 ^ 52 → l * k < 2 ^ 52 := by
    intro l hl
    calc l * k ≤ l * 1 := Nat.mul_le_mul_left l hk
      _ < 2 ^ 52 := by rwa [Nat.mul_one]
  refine (carryLimb_returns (by decide) (low52_lt r0) (hmask (by decide)) (hbound (by decide))).bind (fun c0 e0 => ?_)
  refine (carryLimb_returns e0.1 (low52_lt r1) (hmask (by decide)) (hbound (by decide))).bind (fun c1 e1 => ?_)
  refine (carryLimb_returns e1.1 (low52_lt r2) (hmask (by decide)) (hbound (by decide))).bind (fun c2 e2 => ?_)
  refine (carryLimb_returns e2.1 (low52_lt r3) (hmask (by decide)) (hbound (by decide))).bind (fun c3 e3 => ?_)
  refine (carryLimb_returns e3.1 (low52_lt r4) (hmask (by decide)) (hbound (by decide))).bind (fun c4 e4 => ?_)
  have hbz : Bounded ⟨low52 c0, low52 c1, low52 c2, low52 c3, low52 c4⟩ :=
    ⟨low52_lt c0, low52_lt c1, low52_lt c2, low52_lt c3, low52_lt c4⟩
  have hz := carries_val (d := ⟨low52 r0, low52 r1, low52 r2, low52 r3, low52 r4⟩)
    (l := ⟨L.s0 * k, L.s1 * k, L.s2 * k, L.s3 * k, L.s4 * k⟩) (r := ⟨low52 c0, low52 c1, low52 c2, low52 c3, low52 c4⟩)
    (by simpa using e0.2) e1.2 e2.2 e3.2 e4.2
  have hl : val ⟨L.s0 * k, L.s1 * k, L.s2 * k, L.s3 * k, L.s4 * k⟩ = groupOrder * k := by
    rw [← L_val]
    unfold val
    ring
  rw [hl] at hz
  have hvz := val_lt hbz
  have hvd : val ⟨low52 r0, low52 r1, low52 r2, low52 r3, low52 r4⟩ < (2 ^ 52) ^ 5 :=
    val_lt ⟨low52_lt r0, low52_lt r1, low52_lt r2, low52_lt r3, low52_lt r4⟩
  refine Returns.ret ⟨hbz, ?_⟩
  generalize val ⟨low52 c0, _, _, _, _⟩ = z at *
  generalize val ⟨low52 r0, _, _, _, _⟩ = d at *
  have hlk := e4.1
  generalize c4 / 2 ^ 52 = c at hz hlk
  generalize a.val = va at *
  generalize b.val = vb at *
  clear e0 e1 e2 e3 e4 h0 h1 h2 h3 h4 hmask hbound a0 a1 a2 a3 a4 b0 b1 b2 b3 b4 hbz hl
  unfold groupOrder at *
  obtain rfl | rfl : k = 0 ∨ k = 1 := by omega
  · omega
  · omega

/-- The sum of two numbers below the order and a multiple, brought down by one multiple of the order. -/
theorem add_returns {a b : Scalar52} (ha : Bounded a) (hb : Bounded b) (h : a.val + b.val < (2 ^ 52) ^ 5) :
    Returns (add a b) (fun z => Bounded z ∧ (groupOrder ≤ a.val + b.val → z.val + groupOrder = a.val + b.val) ∧
      (a.val + b.val < groupOrder → z.val = a.val + b.val)) := by
  obtain ⟨a0, a1, a2, a3, a4⟩ := ha
  obtain ⟨b0, b1, b2, b3, b4⟩ := hb
  unfold add
  simp only [Nat.shiftRight_eq_div_pow]
  refine u64_bind (by omega) ?_
  refine u64_bind (by omega) ?_
  refine u64_bind (by omega) ?_
  refine u64_bind (by omega) ?_
  refine u64_bind (by omega) ?_
  generalize hc0 : a.s0 + b.s0 + 0 / 2 ^ 52 = c0
  generalize hc1 : a.s1 + b.s1 + c0 / 2 ^ 52 = c1
  generalize hc2 : a.s2 + b.s2 + c1 / 2 ^ 52 = c2
  generalize hc3 : a.s3 + b.s3 + c2 / 2 ^ 52 = c3
  generalize hc4 : a.s4 + b.s4 + c3 / 2 ^ 52 = c4
  have hsum : val ⟨low52 c0, low52 c1, low52 c2, low52 c3, low52 c4⟩ = a.val + b.val := by
    have hlow : ∀ n, low52 n + 2 ^ 52 * (n / 2 ^ 52) = n := fun n => by
      rw [low52_eq]
      exact Nat.mod_add_div n (2 ^ 52)
    have hcut := carries_val (d := a) (l := b) (r := ⟨low52 c0, low52 c1, low52 c2, low52 c3, low52 c4⟩)
      ((hlow c0).trans hc0.symm) (by rw [hlow c1, ← hc1, Nat.add_comm, Nat.add_assoc])
      (by rw [hlow c2, ← hc2, Nat.add_comm, Nat.add_assoc]) (by rw [hlow c3, ← hc3, Nat.add_comm, Nat.add_assoc])
      (by rw [hlow c4, ← hc4, Nat.add_comm, Nat.add_assoc])
    generalize val ⟨low52 c0, _, _, _, _⟩ = z at *
    omega
  refine (sub_returns ⟨low52_lt c0, low52_lt c1, low52_lt c2, low52_lt c3, low52_lt c4⟩ (by decide) ?_).mono ?_
  · rw [L_val]
    exact Nat.le_add_left _ _
  · rw [hsum, L_val]
    exact fun z hz => ⟨hz.1, hz.2.1, fun hlt => Nat.add_right_cancel (hz.2.2 hlt)⟩

/-! ## Products -/

/-- The number that the coefficients of a product stand for. -/
def wide (z : Limbs9) : Nat :=
  z.z0 + 2 ^ 52 * (z.z1 + 2 ^ 52 * (z.z2 + 2 ^ 52 * (z.z3 + 2 ^ 52 * (z.z4 + 2 ^ 52 * (z.z5 + 2 ^ 52 * (z.z6 +
    2 ^ 52 * (z.z7 + 2 ^ 52 * z.z8)))))))

/-- The coefficients are below `n`. -/
def BoundedWide (n : Nat) (z : Limbs9) : Prop :=
  z.z0 < n ∧ z.z1 < n ∧ z.z2 < n ∧ z.z3 < n ∧ z.z4 < n ∧ z.z5 < n ∧ z.z6 < n ∧ z.z7 < n ∧ z.z8 < n

theorem mul_lt {m n : Nat} (hm : m < 2 ^ 52) (hn : n < 2 ^ 52) : m * n < 2 ^ 104 := by
  calc m * n < 2 ^ 52 * 2 ^ 52 := Nat.mul_lt_mul'' hm hn
    _ = 2 ^ 104 := (Nat.pow_add 2 52 52).symm

theorem mulInternal_returns {a b : Scalar52} (ha : Bounded a) (hb : Bounded b) :
    Returns (mulInternal a b) (fun z => BoundedWide (2 ^ 107) z ∧ wide z = a.val * b.val) := by
  obtain ⟨a0, a1, a2, a3, a4⟩ := ha
  obtain ⟨b0, b1, b2, b3, b4⟩ := hb
  have b00 := mul_lt a0 b0
  have b01 := mul_lt a0 b1
  have b02 := mul_lt a0 b2
  have b03 := mul_lt a0 b3
  have b04 := mul_lt a0 b4
  have b10 := mul_lt a1 b0
  have b11 := mul_lt a1 b1
  have b12 := mul_lt a1 b2
  have b13 := mul_lt a1 b3
  have b14 := mul_lt a1 b4
  have b20 := mul_lt a2 b0
  have b21 := mul_lt a2 b1
  have b22 := mul_lt a2 b2
  have b23 := mul_lt a2 b3
  have b24 := mul_lt a2 b4
  have b30 := mul_lt a3 b0
  have b31 := mul_lt a3 b1
  have b32 := mul_lt a3 b2
  have b33 := mul_lt a3 b3
  have b34 := mul_lt a3 b4
  have b40 := mul_lt a4 b0
  have b41 := mul_lt a4 b1
  have b42 := mul_lt a4 b2
  have b43 := mul_lt a4 b3
  have b44 := mul_lt a4 b4
  clear a0 a1 a2 a3 a4 b0 b1 b2 b3 b4
  unfold mulInternal
  refine u128_bind (by omega) ?_
  refine u128_bind (by omega) ?_
  refine u128_bind (by omega) ?_
  refine u128_bind (by omega) ?_
  refine u128_bind (by omega) ?_
  refine u128_bind (by omega) ?_
  refine u128_bind (by omega) ?_
  refine u128_bind (by omega) ?_
  refine u128_bind (by omega) ?_
  refine Returns.ret ⟨?_, ?_⟩
  · simp only [BoundedWide]
    omega
  · unfold wide val
    ring

/-- **The square** takes the products that come twice once. -/
theorem squareInternal_eq {a : Scalar52} (ha : Bounded a) : squareInternal a = mulInternal a a := by
  obtain ⟨a0, a1, a2, a3, a4⟩ := ha
  have hdouble : ∀ {m : Nat}, m < 2 ^ 52 → u64 (m * 2) = some (m * 2) := fun hm => if_pos (by omega)
  unfold squareInternal mulInternal
  rw [hdouble a0, hdouble a1, hdouble a2, hdouble a3]
  have h1 : a.s0 * 2 * a.s1 = a.s0 * a.s1 + a.s1 * a.s0 := by ring
  have h2 : a.s0 * 2 * a.s2 + a.s1 * a.s1 = a.s0 * a.s2 + a.s1 * a.s1 + a.s2 * a.s0 := by ring
  have h3 : a.s0 * 2 * a.s3 + a.s1 * 2 * a.s2 = a.s0 * a.s3 + a.s1 * a.s2 + a.s2 * a.s1 + a.s3 * a.s0 := by ring
  have h4 : a.s0 * 2 * a.s4 + a.s1 * 2 * a.s3 + a.s2 * a.s2 =
      a.s0 * a.s4 + a.s1 * a.s3 + a.s2 * a.s2 + a.s3 * a.s1 + a.s4 * a.s0 := by ring
  have h5 : a.s1 * 2 * a.s4 + a.s2 * 2 * a.s3 = a.s1 * a.s4 + a.s2 * a.s3 + a.s3 * a.s2 + a.s4 * a.s1 := by ring
  have h6 : a.s2 * 2 * a.s4 + a.s3 * a.s3 = a.s2 * a.s4 + a.s3 * a.s3 + a.s4 * a.s2 := by ring
  have h7 : a.s3 * 2 * a.s4 = a.s3 * a.s4 + a.s4 * a.s3 := by ring
  dsimp only [Option.bind_eq_bind, Option.bind_some]
  rw [h1, h2, h3, h4, h5, h6, h7]

/-! ## Montgomery's reduction -/

/-- The Montgomery modulus, in the scalars. -/
def montR : Fl := ((2 ^ 52 : Nat) : Fl) ^ 5

theorem montR_ne_zero : montR ≠ 0 := by
  refine pow_ne_zero 5 ?_
  rw [Ne, ZMod.natCast_eq_zero_iff]
  decide

/-- **The multiplier makes the lowest limb zero.** -/
theorem part1_returns {sum : Nat} (h : sum < 2 ^ 127) :
    Returns (part1 sum) (fun t => t.2 < 2 ^ 52 ∧ t.1 * 2 ^ 52 = sum + t.2 * L.s0) := by
  have hp : low52 (wrappingMul (sum % 2 ^ 64) LFACTOR) = sum * LFACTOR % 2 ^ 52 := by
    rw [low52_eq, wrappingMul, Nat.mod_mod_of_dvd _ (by decide)]
    exact Nat.ModEq.mul_right LFACTOR (Nat.mod_mod_of_dvd sum (by decide))
  have hlt : low52 (wrappingMul (sum % 2 ^ 64) LFACTOR) < 2 ^ 52 := low52_lt _
  have hdvd : 2 ^ 52 ∣ sum + low52 (wrappingMul (sum % 2 ^ 64) LFACTOR) * L.s0 := by
    have hone : ∃ q, LFACTOR * L.s0 + 1 = 2 ^ 52 * q := ⟨(LFACTOR * L.s0 + 1) / 2 ^ 52, by decide⟩
    obtain ⟨q, hq⟩ := hone
    have hmod : sum + low52 (wrappingMul (sum % 2 ^ 64) LFACTOR) * L.s0 ≡ sum + sum * LFACTOR * L.s0 [MOD 2 ^ 52] := by
      rw [hp]
      exact (Nat.ModEq.mul_right L.s0 (Nat.mod_modEq _ _)).add_left sum
    have hmul : sum + sum * LFACTOR * L.s0 = 2 ^ 52 * (sum * q) := by
      calc sum + sum * LFACTOR * L.s0 = sum * (LFACTOR * L.s0 + 1) := by ring
        _ = 2 ^ 52 * (sum * q) := by rw [hq, Nat.mul_left_comm]
    exact (hmod.dvd_iff (dvd_refl _)).2 ⟨_, hmul⟩
  unfold part1
  generalize low52 (wrappingMul (sum % 2 ^ 64) LFACTOR) = p at *
  have hprod := mul_lt hlt (by decide : L.s0 < 2 ^ 52)
  refine u128_bind (by omega) (Returns.ret ⟨hlt, ?_⟩)
  rw [Nat.shiftRight_eq_div_pow]
  exact Nat.div_mul_cancel hdvd

/-- The limbs of `limbs + n * L`, of which the lowest five are zero. -/
theorem montgomery_val {z : Limbs9} {n : Scalar52} {c1 c2 c3 c4 c5 c6 c7 c8 r0 r1 r2 r3 r4 : Nat}
    (h1 : c1 * 2 ^ 52 = z.z0 + n.s0 * L.s0) (h2 : c2 * 2 ^ 52 = c1 + z.z1 + n.s0 * L.s1 + n.s1 * L.s0)
    (h3 : c3 * 2 ^ 52 = c2 + z.z2 + n.s0 * L.s2 + n.s1 * L.s1 + n.s2 * L.s0)
    (h4 : c4 * 2 ^ 52 = c3 + z.z3 + n.s1 * L.s2 + n.s2 * L.s1 + n.s3 * L.s0)
    (h5 : c5 * 2 ^ 52 = c4 + z.z4 + n.s0 * L.s4 + n.s2 * L.s2 + n.s3 * L.s1 + n.s4 * L.s0)
    (h6 : c6 * 2 ^ 52 + r0 = c5 + z.z5 + n.s1 * L.s4 + n.s3 * L.s2 + n.s4 * L.s1)
    (h7 : c7 * 2 ^ 52 + r1 = c6 + z.z6 + n.s2 * L.s4 + n.s4 * L.s2)
    (h8 : c8 * 2 ^ 52 + r2 = c7 + z.z7 + n.s3 * L.s4) (h9 : r4 * 2 ^ 52 + r3 = c8 + z.z8 + n.s4 * L.s4) :
    val ⟨r0, r1, r2, r3, r4⟩ * (2 ^ 52) ^ 5 = wide z + n.val * groupOrder := by
  have l3 : L.s3 = 0 := rfl
  rw [← L_val]
  unfold val wide
  dsimp only
  rw [l3]
  zify at *
  linear_combination h1 + 2 ^ 52 * h2 + (2 ^ 52) ^ 2 * h3 + (2 ^ 52) ^ 3 * h4 + (2 ^ 52) ^ 4 * h5 + (2 ^ 52) ^ 5 * h6 +
    (2 ^ 52) ^ 6 * h7 + (2 ^ 52) ^ 7 * h8 + (2 ^ 52) ^ 8 * h9

/-- **One subtraction reduces** a number below twice the order. -/
theorem sub_L_returns {x : Scalar52} (hx : Bounded x) (h : x.val < 2 * groupOrder) :
    Returns (sub x L) (Rep groupOrder x.val) := by
  refine (sub_returns hx (by decide) (by rw [L_val]; exact Nat.le_add_left _ _)).mono (fun z hz => ?_)
  obtain ⟨hb, hge, hlt⟩ := hz
  rw [L_val] at hge hlt
  by_cases hcmp : groupOrder ≤ x.val
  · have hval := hge hcmp
    refine ⟨hb, by omega, ?_⟩
    rw [← hval, Nat.cast_add, ZMod.natCast_self, add_zero]
  · have hval := Nat.add_right_cancel (hlt (Nat.lt_of_not_le hcmp))
    exact ⟨hb, by omega, by rw [hval]⟩

theorem cast_div_montR {r z n : Nat} (h : r * (2 ^ 52) ^ 5 = z + n * groupOrder) : (r : Fl) = z / montR := by
  have hcast := congrArg (Nat.cast (R := Fl)) h
  rw [Nat.cast_add, Nat.cast_mul n, ZMod.natCast_self, mul_zero, add_zero, Nat.cast_mul] at hcast
  rw [Nat.cast_pow (2 ^ 52)] at hcast
  exact eq_div_of_mul_eq montR_ne_zero hcast

/-- **A product divided by the Montgomery modulus**, reduced, for a product that is not too large. -/
theorem montgomeryReduce_returns {z : Limbs9} (hz : BoundedWide (2 ^ 107) z) (hlt : wide z < groupOrder * (2 ^ 52) ^ 5) :
    Returns (montgomeryReduce z) (Rep groupOrder ((wide z : Nat) / montR)) := by
  obtain ⟨z0, z1, z2, z3, z4, z5, z6, z7, z8⟩ := hz
  have hl : ∀ {n l : Nat}, n < 2 ^ 52 → l < 2 ^ 52 → n * l < 2 ^ 104 := fun hn hl => mul_lt hn hl
  have l0 : L.s0 < 2 ^ 52 := by decide
  have l1 : L.s1 < 2 ^ 52 := by decide
  have l2 : L.s2 < 2 ^ 52 := by decide
  have l4 : L.s4 < 2 ^ 52 := by decide
  unfold montgomeryReduce
  refine (part1_returns (by omega)).bind (fun t1 h1 => ?_)
  obtain ⟨c1, n0⟩ := t1
  obtain ⟨b0, h1⟩ := h1
  dsimp only at b0 h1 ⊢
  have p00 := hl b0 l0
  have p01 := hl b0 l1
  have p02 := hl b0 l2
  have p04 := hl b0 l4
  refine u128_bind (by omega) ((part1_returns (by omega)).bind (fun t2 h2 => ?_))
  obtain ⟨c2, n1⟩ := t2
  obtain ⟨b1, h2⟩ := h2
  dsimp only at b1 h2 ⊢
  have p10 := hl b1 l0
  have p11 := hl b1 l1
  have p12 := hl b1 l2
  have p14 := hl b1 l4
  refine u128_bind (by omega) ((part1_returns (by omega)).bind (fun t3 h3 => ?_))
  obtain ⟨c3, n2⟩ := t3
  obtain ⟨b2, h3⟩ := h3
  dsimp only at b2 h3 ⊢
  have p20 := hl b2 l0
  have p21 := hl b2 l1
  have p22 := hl b2 l2
  have p24 := hl b2 l4
  refine u128_bind (by omega) ((part1_returns (by omega)).bind (fun t4 h4 => ?_))
  obtain ⟨c4, n3⟩ := t4
  obtain ⟨b3, h4⟩ := h4
  dsimp only at b3 h4 ⊢
  have p30 := hl b3 l0
  have p31 := hl b3 l1
  have p32 := hl b3 l2
  have p34 := hl b3 l4
  refine u128_bind (by omega) ((part1_returns (by omega)).bind (fun t5 h5 => ?_))
  obtain ⟨c5, n4⟩ := t5
  obtain ⟨b4, h5⟩ := h5
  dsimp only at b4 h5 ⊢
  have p40 := hl b4 l0
  have p41 := hl b4 l1
  have p42 := hl b4 l2
  have p44 := hl b4 l4
  unfold part2
  simp only [Nat.shiftRight_eq_div_pow]
  generalize hs5 : c5 + z.z5 + n1 * L.s4 + n3 * L.s2 + n4 * L.s1 = s5
  have b5 : s5 < 2 ^ 109 := by omega
  refine u128_bind (by omega) ?_
  generalize hs6 : s5 / 2 ^ 52 + z.z6 + n2 * L.s4 + n4 * L.s2 = s6
  have b6 : s6 < 2 ^ 109 := by omega
  refine u128_bind (by omega) ?_
  generalize hs7 : s6 / 2 ^ 52 + z.z7 + n3 * L.s4 = s7
  have b7 : s7 < 2 ^ 109 := by omega
  refine u128_bind (by omega) ?_
  generalize hs8 : s7 / 2 ^ 52 + z.z8 + n4 * L.s4 = s8
  have b8 : s8 < 2 ^ 109 := by omega
  refine u128_bind (by omega) ?_
  have hmod : ∀ s, low52 (s % 2 ^ 64) = s % 2 ^ 52 := fun s => by
    rw [low52_eq]
    exact Nat.mod_mod_of_dvd s (by decide)
  have htop : s8 / 2 ^ 52 % 2 ^ 64 = s8 / 2 ^ 52 := Nat.mod_eq_of_lt (by omega)
  rw [hmod, hmod, hmod, hmod, htop]
  have hn : val ⟨n0, n1, n2, n3, n4⟩ < (2 ^ 52) ^ 5 := val_lt ⟨b0, b1, b2, b3, b4⟩
  have hval := montgomery_val (n := ⟨n0, n1, n2, n3, n4⟩) h1 h2 h3 h4 h5 ((Nat.div_add_mod' s5 _).trans hs5.symm)
    ((Nat.div_add_mod' s6 _).trans hs6.symm) ((Nat.div_add_mod' s7 _).trans hs7.symm)
    ((Nat.div_add_mod' s8 _).trans hs8.symm)
  have hbelow : val ⟨s5 % 2 ^ 52, s6 % 2 ^ 52, s7 % 2 ^ 52, s8 % 2 ^ 52, s8 / 2 ^ 52⟩ < 2 * groupOrder := by
    have hmul : val ⟨n0, n1, n2, n3, n4⟩ * groupOrder ≤ (2 ^ 52) ^ 5 * groupOrder := Nat.mul_le_mul_right _ hn.le
    refine Nat.lt_of_mul_lt_mul_right (a := (2 ^ 52) ^ 5) ?_
    rw [hval]
    omega
  rw [← cast_div_montR hval]
  refine sub_L_returns ?_ hbelow
  have hlow : ∀ s, s % 2 ^ 52 < 2 ^ 52 := fun s => Nat.mod_lt s (by decide)
  refine ⟨hlow s5, hlow s6, hlow s7, hlow s8, ?_⟩
  simp only [val, groupOrder] at hbelow ⊢
  omega

variable {e f : Fl} {x y : Scalar52} {m n : Nat}

/-- **The Montgomery product.** -/
theorem montgomeryMul_returns (hx : Rep m e x) (hy : Rep n f y) (hmn : m * n ≤ groupOrder * (2 ^ 52) ^ 5) :
    Returns (montgomeryMul x y) (Rep groupOrder (e * f / montR)) := by
  refine (mulInternal_returns hx.bounded hy.bounded).bind (fun z hz => ?_)
  have hlt : wide z < groupOrder * (2 ^ 52) ^ 5 := by
    rw [hz.2]
    exact Nat.lt_of_lt_of_le (Nat.mul_lt_mul'' hx.lt hy.lt) hmn
  have h := montgomeryReduce_returns hz.1 hlt
  rwa [hz.2, Nat.cast_mul, hx.val_eq, hy.val_eq] at h

theorem R_rep : Rep groupOrder montR R := by
  refine ⟨by decide, by decide, ?_⟩
  have h : R.val = (2 ^ 52) ^ 5 % groupOrder := by decide
  rw [h, ZMod.natCast_mod, Nat.cast_pow (2 ^ 52), montR]

theorem RR_rep : Rep groupOrder (montR * montR) RR := by
  refine ⟨by decide, by decide, ?_⟩
  have h : RR.val = (2 ^ 52) ^ 5 * (2 ^ 52) ^ 5 % groupOrder := by decide
  rw [h, ZMod.natCast_mod, Nat.cast_mul, Nat.cast_pow (2 ^ 52), montR]

/-- The order times itself, or times a number of five limbs, is not too large for a Montgomery product. -/
theorem mul_groupOrder_le (h : m ≤ (2 ^ 52) ^ 5) : m * groupOrder ≤ groupOrder * (2 ^ 52) ^ 5 := by
  rw [Nat.mul_comm]
  exact Nat.mul_le_mul_left groupOrder h

/-- **The product of any two numbers of 256 bits**, reduced. -/
theorem mul_returns (hx : Rep (2 ^ 256) e x) (hy : Rep (2 ^ 256) f y) : Returns (mul x y) (Rep groupOrder (e * f)) := by
  have hprod : 2 ^ 256 * 2 ^ 256 ≤ groupOrder * (2 ^ 52) ^ 5 := by decide
  have hxy := montgomeryMul_returns hx hy hprod
  unfold montgomeryMul at hxy
  have hcancel : e * f / montR * (montR * montR) / montR = e * f := by
    have := montR_ne_zero
    field_simp
  unfold mul
  rw [← bind_assoc]
  refine hxy.bind (fun ab hab => ?_)
  rw [← hcancel]
  exact montgomeryMul_returns hab RR_rep (mul_groupOrder_le (by decide))

theorem montgomerySquare_eq (hx : Bounded x) : montgomerySquare x = montgomeryMul x x := by
  unfold montgomerySquare montgomeryMul
  rw [squareInternal_eq hx]

theorem square_eq (hx : Bounded x) : square x = mul x x := by
  unfold square mul
  rw [squareInternal_eq hx]

theorem toMontgomery_returns (hx : Rep (2 ^ 256) e x) : Returns (toMontgomery x) (Rep groupOrder (e * montR)) := by
  have hcancel : e * (montR * montR) / montR = e * montR := by
    have := montR_ne_zero
    field_simp
  rw [← hcancel]
  exact montgomeryMul_returns hx RR_rep (mul_groupOrder_le (by decide))

theorem fromMontgomery_returns (hx : Rep groupOrder e x) : Returns (fromMontgomery x) (Rep groupOrder (e / montR)) := by
  have hwide : wide ⟨x.s0, x.s1, x.s2, x.s3, x.s4, 0, 0, 0, 0⟩ = x.val := by
    unfold wide val
    ring
  have hb := hx.bounded
  obtain ⟨h0, h1, h2, h3, h4⟩ := hb
  have h := montgomeryReduce_returns (z := ⟨x.s0, x.s1, x.s2, x.s3, x.s4, 0, 0, 0, 0⟩)
    (by simp only [BoundedWide]; omega)
    (by rw [hwide]; exact Nat.lt_of_lt_of_le hx.lt (Nat.le_mul_of_pos_right _ (by decide)))
  rwa [hwide, hx.val_eq] at h

/-- A sum of reduced scalars is reduced. -/
theorem add_returns_reduced (hx : Rep groupOrder e x) (hy : Rep groupOrder f y) :
    Returns (add x y) (Rep groupOrder (e + f)) := by
  have hlx := hx.lt
  have hly := hy.lt
  have hsum : x.val + y.val < (2 ^ 52) ^ 5 := by
    have h2 : groupOrder + groupOrder < (2 ^ 52) ^ 5 := by decide
    omega
  refine (add_returns hx.bounded hy.bounded hsum).mono (fun z hz => ⟨hz.1, ?_, ?_⟩)
  · by_cases h : groupOrder ≤ x.val + y.val
    · have := hz.2.1 h
      omega
    · have := hz.2.2 (Nat.lt_of_not_le h)
      omega
  · rw [← hx.val_eq, ← hy.val_eq, ← Nat.cast_add]
    by_cases h : groupOrder ≤ x.val + y.val
    · rw [← hz.2.1 h, Nat.cast_add, ZMod.natCast_self, add_zero]
    · rw [hz.2.2 (Nat.lt_of_not_le h)]

/-- A difference of reduced scalars is reduced. -/
theorem sub_returns_reduced (hx : Rep groupOrder e x) (hy : Rep groupOrder f y) :
    Returns (sub x y) (Rep groupOrder (e - f)) := by
  have hlx := hx.lt
  have hly := hy.lt
  have hback : ∀ {z : Scalar52}, (z.val + y.val : Nat) = x.val ∨ z.val + y.val = x.val + groupOrder →
      (z.val : Fl) = e - f := by
    intro z hz
    rw [← hx.val_eq, ← hy.val_eq, eq_sub_iff_add_eq, ← Nat.cast_add]
    rcases hz with hz | hz
    · rw [hz]
    · rw [hz, Nat.cast_add, ZMod.natCast_self, add_zero]
  refine (sub_returns hx.bounded hy.bounded (by omega)).mono (fun z hz => ⟨hz.1, ?_, ?_⟩)
  · by_cases h : y.val ≤ x.val
    · have := hz.2.1 h
      omega
    · have := hz.2.2 (Nat.lt_of_not_le h)
      omega
  · by_cases h : y.val ≤ x.val
    · exact hback (Or.inl (hz.2.1 h))
    · exact hback (Or.inr (hz.2.2 (Nat.lt_of_not_le h)))

end Scalar52
end Curve25519
end Dpid
