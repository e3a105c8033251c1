import Dpid.Field51
import Dpid.LittleEndian
/-!
# Field51Bytes — the wire form of a field element (`backend/serial/u64/field.rs`, `field.rs`)

`from_bytes` takes the low 255 bits of 32 bytes, whether they are below the modulus or not; `to_bytes` gives the bytes of
the number below it.  Equality, the sign and the test for zero are read off these.
-/
namespace Dpid
namespace Curve25519

open Checked LittleEndian

/-- `[u8; 32]`. -/
abbrev Bytes32 := Vector UInt8 32

theorem first_lt : 0 < 32 := by decide

theorem last_lt : 31 < 32 := by decide

namespace FieldElement51

/-! ## The functions -/

def fromBytes (bytes : Bytes32) : FieldElement51 :=
  let load i := load8 (bytes.toList.drop i)
  ⟨low51 (load 0), low51 (load 6 >>> 3), low51 (load 12 >>> 6), low51 (load 19 >>> 1), low51 (load 24 >>> 12)⟩

/-- The carry out of `h + 19`. -/
def quotient (limbs : FieldElement51) : Option Nat := do
  let q ← u64 (limbs.l0 + 19)
  let q ← u64 (limbs.l1 + q >>> 51)
  let q ← u64 (limbs.l2 + q >>> 51)
  let q ← u64 (limbs.l3 + q >>> 51)
  let q ← u64 (limbs.l4 + q >>> 51)
  return q >>> 51

/-- The limbs of `h + 19 * q` without the bits from `2 ^ 255` on. -/
def canonical (limbs : FieldElement51) : Option FieldElement51 := do
  let q ← quotient limbs
  let q ← u64 (19 * q)
  let l0 ← u64 (limbs.l0 + q)
  let l1 ← u64 (limbs.l1 + l0 >>> 51)
  let l2 ← u64 (limbs.l2 + l1 >>> 51)
  let l3 ← u64 (limbs.l3 + l2 >>> 51)
  let l4 ← u64 (limbs.l4 + l3 >>> 51)
  return ⟨low51 l0, low51 l1, low51 l2, low51 l3, low51 l4⟩

/-- `n as u8`. -/
def asU8 (n : Nat) : UInt8 := UInt8.ofNat n

/-- The bits of the limbs, arranged. -/
def arrange (limbs : FieldElement51) : Bytes32 :=
  let l0 := limbs.l0
  let l1 := limbs.l1
  let l2 := limbs.l2
  let l3 := limbs.l3
  let l4 := limbs.l4
  #v[asU8 l0, asU8 (l0 >>> 8), asU8 (l0 >>> 16), asU8 (l0 >>> 24), asU8 (l0 >>> 32), asU8 (l0 >>> 40),
    asU8 (l0 >>> 48 ||| asU64 (l1 <<< 3)),
    asU8 (l1 >>> 5), asU8 (l1 >>> 13), asU8 (l1 >>> 21), asU8 (l1 >>> 29), asU8 (l1 >>> 37),
    asU8 (l1 >>> 45 ||| asU64 (l2 <<< 6)),
    asU8 (l2 >>> 2), asU8 (l2 >>> 10), asU8 (l2 >>> 18), asU8 (l2 >>> 26), asU8 (l2 >>> 34), asU8 (l2 >>> 42),
    asU8 (l2 >>> 50 ||| asU64 (l3 <<< 1)),
    asU8 (l3 >>> 7), asU8 (l3 >>> 15), asU8 (l3 >>> 23), asU8 (l3 >>> 31), asU8 (l3 >>> 39),
    asU8 (l3 >>> 47 ||| asU64 (l4 <<< 4)),
    asU8 (l4 >>> 4), asU8 (l4 >>> 12), asU8 (l4 >>> 20), asU8 (l4 >>> 28), asU8 (l4 >>> 36), asU8 (l4 >>> 44)]

def toBytes (x : FieldElement51) : Option Bytes32 := do
  let limbs ← reduce x
  let limbs ← canonical limbs
  let s := arrange limbs
  guard (s[31] &&& 128 = 0)
  return s

def ctEq (x y : FieldElement51) : Option Bool := do
  let s ← toBytes x
  let t ← toBytes y
  return s == t

/-- The low bit of the canonical number. -/
def isNegative (x : FieldElement51) : Option Bool := do
  let bytes ← toBytes x
  return bytes[0] &&& 1 == 1

def isZero (x : FieldElement51) : Option Bool := do
  let bytes ← toBytes x
  return bytes == Vector.replicate 32 0

/-! ## Reading -/

/-- **The low 255 bits.** -/
theorem fromBytes_val (bytes : Bytes32) : (fromBytes bytes).val = leVal bytes.toList % 2 ^ 255 := by
  unfold fromBytes val
  simp only [load8_drop, low51_eq, Nat.shiftRight_eq_div_pow]
  generalize leVal bytes.toList = n
  omega

theorem fromBytes_bounded (bytes : Bytes32) : Bounded (2 ^ 51) (fromBytes bytes) := by
  unfold fromBytes
  rw [bounded_mk]
  simp only [low51_eq]
  omega

/-! ## The canonical number -/

theorem quotient_returns {x : FieldElement51} (h : Bounded (2 ^ 51 + 2 ^ 18) x) :
    Returns (quotient x) (· = (x.val + 19) / 2 ^ 255) := by
  obtain ⟨h0, h1, h2, h3, h4⟩ := h
  unfold quotient
  simp only [shiftRight_51]
  refine u64_bind (by omega) ?_
  refine u64_bind (by omega) ?_
  refine u64_bind (by omega) ?_
  refine u64_bind (by omega) ?_
  refine u64_bind (by omega) ?_
  refine Returns.ret ?_
  simp only [val]
  omega

theorem canonical_returns {x : FieldElement51} (h : Bounded (2 ^ 51 + 2 ^ 18) x) :
    Returns (canonical x) (fun z => Bounded (2 ^ 51) z ∧ z.val = x.val % p25519) := by
  refine (quotient_returns h).bind (fun q hq => ?_)
  obtain ⟨h0, h1, h2, h3, h4⟩ := h
  have hmod : x.val % p25519 + p25519 * q = x.val ∧ q ≤ 1 := by
    simp only [val, p25519] at hq ⊢
    omega
  simp only [low51_eq, shiftRight_51]
  refine u64_bind (by omega) ?_
  refine u64_bind (by omega) ?_
  refine u64_bind (by omega) ?_
  refine u64_bind (by omega) ?_
  refine u64_bind (by omega) ?_
  refine u64_bind (by omega) ?_
  refine Returns.ret ⟨?_, ?_⟩
  · rw [bounded_mk]
    omega
  · -- the bits left out are `2 ^ 255 * q`
    simp only [val, p25519] at hmod hq ⊢
    omega

/-! ## Writing -/

/-- The byte that two limbs share. -/
theorem shared_byte {a b s : Nat} (ha : a < 2 ^ s) (hb : b < 2 ^ 52) (hs : s ≤ 8) :
    (asU8 (a ||| asU64 (b <<< s))).toNat = a + 2 ^ s * (b % 2 ^ (8 - s)) := by
  have hfit : asU64 (b <<< s) = b <<< s := by
    rw [asU64, Nat.shiftLeft_eq]
    refine Nat.mod_eq_of_lt ?_
    calc b * 2 ^ s < 2 ^ 52 * 2 ^ 8 := Nat.mul_lt_mul_of_lt_of_le hb (Nat.pow_le_pow_right (by decide) hs) (by decide)
      _ ≤ 2 ^ 64 := by decide
  have hpow : 2 ^ 8 = 2 ^ s * 2 ^ (8 - s) := by rw [← Nat.pow_add, Nat.add_sub_cancel' hs]
  rw [asU8, UInt8.toNat_ofNat', hfit, or_shiftLeft ha, hpow, Nat.mod_mul, Nat.mul_comm b,
    Nat.add_mul_mod_self_left, Nat.mod_eq_of_lt ha, Nat.add_mul_div_left _ _ (Nat.two_pow_pos s), Nat.div_eq_of_lt ha,
    Nat.zero_add]

theorem asU8_toNat (n : Nat) : (asU8 n).toNat = n % 256 := UInt8.toNat_ofNat'

theorem arrange_val {x : FieldElement51} (h : Bounded (2 ^ 51) x) : leVal (arrange x).toList = x.val := by
  obtain ⟨h0, h1, h2, h3, h4⟩ := h
  have e0 : x.l0 = x.l0 % 256 + 256 * (x.l0 / 2 ^ 8 % 256) + 256 ^ 2 * (x.l0 / 2 ^ 16 % 256) +
      256 ^ 3 * (x.l0 / 2 ^ 24 % 256) + 256 ^ 4 * (x.l0 / 2 ^ 32 % 256) + 256 ^ 5 * (x.l0 / 2 ^ 40 % 256) +
      256 ^ 6 * (x.l0 / 2 ^ 48) := by omega
  have e1 : x.l1 = x.l1 % 2 ^ 5 + 2 ^ 5 * (x.l1 / 2 ^ 5 % 256 + 256 * (x.l1 / 2 ^ 13 % 256) +
      256 ^ 2 * (x.l1 / 2 ^ 21 % 256) + 256 ^ 3 * (x.l1 / 2 ^ 29 % 256) + 256 ^ 4 * (x.l1 / 2 ^ 37 % 256) +
      256 ^ 5 * (x.l1 / 2 ^ 45)) := by omega
  have e2 : x.l2 = x.l2 % 2 ^ 2 + 2 ^ 2 * (x.l2 / 2 ^ 2 % 256 + 256 * (x.l2 / 2 ^ 10 % 256) +
      256 ^ 2 * (x.l2 / 2 ^ 18 % 256) + 256 ^ 3 * (x.l2 / 2 ^ 26 % 256) + 256 ^ 4 * (x.l2 / 2 ^ 34 % 256) +
      256 ^ 5 * (x.l2 / 2 ^ 42 % 256) + 256 ^ 6 * (x.l2 / 2 ^ 50)) := by omega
  have e3 : x.l3 = x.l3 % 2 ^ 7 + 2 ^ 7 * (x.l3 / 2 ^ 7 % 256 + 256 * (x.l3 / 2 ^ 15 % 256) +
      256 ^ 2 * (x.l3 / 2 ^ 23 % 256) + 256 ^ 3 * (x.l3 / 2 ^ 31 % 256) + 256 ^ 4 * (x.l3 / 2 ^ 39 % 256) +
      256 ^ 5 * (x.l3 / 2 ^ 47)) := by omega
  have e4 : x.l4 = x.l4 % 2 ^ 4 + 2 ^ 4 * (x.l4 / 2 ^ 4 % 256 + 256 * (x.l4 / 2 ^ 12 % 256) +
      256 ^ 2 * (x.l4 / 2 ^ 20 % 256) + 256 ^ 3 * (x.l4 / 2 ^ 28 % 256) + 256 ^ 4 * (x.l4 / 2 ^ 36 % 256) +
      256 ^ 5 * (x.l4 / 2 ^ 44 % 256)) := by omega
  have s6 := shared_byte (a := x.l0 / 2 ^ 48) (s := 3) (by omega) (Nat.lt_trans h1 (by decide)) (by decide)
  have s12 := shared_byte (a := x.l1 / 2 ^ 45) (s := 6) (by omega) (Nat.lt_trans h2 (by decide)) (by decide)
  have s19 := shared_byte (a := x.l2 / 2 ^ 50) (s := 1) (by omega) (Nat.lt_trans h3 (by decide)) (by decide)
  have s25 := shared_byte (a := x.l3 / 2 ^ 47) (s := 4) (by omega) (Nat.lt_trans h4 (by decide)) (by decide)
  simp only [arrange, Vector.toList_mk, leVal, Nat.shiftRight_eq_div_pow, s6, s12, s19, s25, asU8_toNat, val]
  clear s6 s12 s19 s25
  conv_rhs => rw [e0, e1, e2, e3, e4]
  clear e0 e1 e2 e3 e4
  ring

theorem and_128 {b : UInt8} (h : b.toNat < 128) : b &&& 128 = 0 := by
  have hand : ∀ n < 128, n &&& 128 = 0 := by decide
  rw [← UInt8.toNat_inj, UInt8.toNat_and]
  exact hand b.toNat h

variable {e f : Fp} {x y : FieldElement51}

/-- **The wire form is canonical**: the bytes of the number below the modulus. -/
theorem toBytes_returns (hx : Rep (2 ^ 64) e x) : Returns (toBytes x) (fun s => leVal s.toList = e.val) := by
  refine (reduce_returns hx.bounded).bind (fun y hy => ?_)
  refine (canonical_returns hy.bounded).bind (fun z hz => ?_)
  obtain ⟨hbound, hval⟩ := hz
  refine guard_bind (and_128 ?_) (Returns.ret ?_)
  · have htop : (arrange z)[31] = asU8 (z.l4 >>> 44) := rfl
    rw [htop, asU8_toNat, Nat.shiftRight_eq_div_pow]
    have h4 := hbound.2.2.2.2
    omega
  · rw [arrange_val hbound, hval, ← ZMod.val_natCast, hy.val_eq, hx.val_eq]

theorem fromBytes_rep (bytes : Bytes32) : Rep (2 ^ 51) (leVal bytes.toList % 2 ^ 255 : Nat) (fromBytes bytes) :=
  ⟨fromBytes_bounded bytes, congrArg Nat.cast (fromBytes_val bytes)⟩

/-- Every element has limbs. -/
theorem exists_rep (e : Fp) : ∃ x, Rep (2 ^ 51) e x := by
  have hlt : e.val < 2 ^ 255 := Nat.lt_trans (ZMod.val_lt e) (by decide)
  have hbytes : leVal (leBytes 32 e.val) = e.val := by
    rw [leVal_leBytes, Nat.mod_eq_of_lt (Nat.lt_trans hlt (by decide))]
  have hrep := fromBytes_rep ⟨(leBytes 32 e.val).toArray, length_leBytes 32 e.val⟩
  have hlist : (Vector.mk (leBytes 32 e.val).toArray (length_leBytes 32 e.val)).toList = leBytes 32 e.val := rfl
  rw [hlist, hbytes, Nat.mod_eq_of_lt hlt, ZMod.natCast_zmod_val] at hrep
  exact ⟨_, hrep⟩

theorem toBytes_injective {s t : Bytes32} (h : leVal s.toList = leVal t.toList) : s = t := by
  refine Vector.toList_inj.1 (leVal_injective ?_ h)
  rw [Vector.length_toList, Vector.length_toList]

/-- **Reading what was written** gives the element back, whatever limbs it had. -/
theorem fromBytes_toBytes (hx : Rep (2 ^ 64) e x) : Returns (toBytes x) (fun s => Rep (2 ^ 51) e (fromBytes s)) := by
  refine (toBytes_returns hx).mono (fun s hs => ?_)
  have hlt : e.val < 2 ^ 255 := Nat.lt_trans (ZMod.val_lt e) (by decide)
  have hrep := fromBytes_rep s
  rwa [hs, Nat.mod_eq_of_lt hlt, ZMod.natCast_zmod_val] at hrep

/-- **Equality of wire forms is equality in the field.** -/
theorem ctEq_returns (hx : Rep (2 ^ 64) e x) (hy : Rep (2 ^ 64) f y) : Returns (ctEq x y) (· = decide (e = f)) := by
  refine (toBytes_returns hx).bind (fun s hs => ?_)
  refine (toBytes_returns hy).bind (fun t ht => Returns.ret ?_)
  have hiff : s = t ↔ e = f := by
    constructor
    · rintro rfl
      exact ZMod.val_injective _ (hs.symm.trans ht)
    · rintro rfl
      exact toBytes_injective (hs.trans ht.symm)
  rw [Bool.eq_iff_iff, beq_iff_eq, decide_eq_true_eq]
  exact hiff

/-- The sign is the parity of the canonical number. -/
theorem isNegative_returns (hx : Rep (2 ^ 64) e x) : Returns (isNegative x) (· = decide (e.val % 2 = 1)) := by
  refine (toBytes_returns hx).bind (fun s hs => Returns.ret ?_)
  have hhead : s.toList = s[0] :: s.toList.tail := by
    obtain ⟨⟨l⟩, hl⟩ := s
    cases l with
    | nil      => simp at hl
    | cons b l => rfl
  rw [hhead, leVal] at hs
  have hbit : (s[0] &&& 1).toNat = e.val % 2 := by
    rw [UInt8.toNat_and, ← hs]
    have hone : (1 : UInt8).toNat = 1 := rfl
    rw [hone, Nat.and_one_is_mod]
    omega
  rw [Bool.eq_iff_iff, beq_iff_eq, decide_eq_true_eq, ← UInt8.toNat_inj, hbit]
  rfl

theorem isZero_returns (hx : Rep (2 ^ 64) e x) : Returns (isZero x) (· = decide (e = 0)) := by
  refine (toBytes_returns hx).bind (fun s hs => Returns.ret ?_)
  have hzero : leVal (Vector.replicate 32 (0 : UInt8)).toList = (0 : Fp).val := by rw [ZMod.val_zero]; decide
  have hiff : s = Vector.replicate 32 0 ↔ e = 0 := by
    constructor
    · rintro rfl
      exact ZMod.val_injective _ (hs.symm.trans hzero)
    · rintro rfl
      exact toBytes_injective (hs.trans hzero.symm)
  rw [Bool.eq_iff_iff, beq_iff_eq, decide_eq_true_eq]
  exact hiff

end FieldElement51
end Curve25519
end Dpid
