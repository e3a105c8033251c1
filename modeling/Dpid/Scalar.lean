import Dpid.BatchInversion
import Dpid.Field51Bytes
import Dpid.Pippenger
import Dpid.Scalar52
import Mathlib.FieldTheory.Finite.Basic
/-!
# Scalar — scalars as bytes (`scalar.rs`)

A scalar is 32 bytes, little endian, below `2 ^ 255` but not always below the group order.  Every operation unpacks its
arguments into limbs, works modulo the order and packs the canonical number.
-/
namespace Dpid
namespace Curve25519

open Checked LittleEndian BatchInversion
open FieldElement51 (asU64 asU8)

/-! ## Packing (`backend/serial/u64/scalar.rs`) -/

namespace Scalar52

/-- `words[i]`: eight bytes, or-ed together. -/
def word (bytes : List UInt8) (i : Nat) : Nat := load8 (bytes.drop (8 * i))

/-- `((words[i] >> t) | (words[i + 1] << (64 - t))) & mask`. -/
def limbAcross (bytes : List UInt8) (i t : Nat) : Nat :=
  low52 (word bytes i >>> t ||| asU64 (word bytes (i + 1) <<< (64 - t)))

def fromBytes (bytes : Bytes32) : Scalar52 :=
  let words := bytes.toList
  ⟨low52 (word words 0), limbAcross words 0 52, limbAcross words 1 40, limbAcross words 2 28,
    word words 3 >>> 16 &&& (2 ^ 48 - 1)⟩

def fromBytesWide (bytes : Vector UInt8 64) : Option Scalar52 := do
  let words := bytes.toList
  let lo := ⟨low52 (word words 0), limbAcross words 0 52, limbAcross words 1 40, limbAcross words 2 28,
    limbAcross words 3 16⟩
  let hi := ⟨low52 (word words 4 >>> 4), limbAcross words 4 56, limbAcross words 5 44, limbAcross words 6 32,
    word words 7 >>> 20⟩
  let lo ← montgomeryMul lo R
  let hi ← montgomeryMul hi RR
  add hi lo

def toBytes (x : Scalar52) : Bytes32 :=
  #v[asU8 (x.s0 >>> 0), asU8 (x.s0 >>> 8), asU8 (x.s0 >>> 16), asU8 (x.s0 >>> 24), asU8 (x.s0 >>> 32), asU8 (x.s0 >>> 40),
    asU8 (x.s0 >>> 48 ||| asU64 (x.s1 <<< 4)),
    asU8 (x.s1 >>> 4), asU8 (x.s1 >>> 12), asU8 (x.s1 >>> 20), asU8 (x.s1 >>> 28), asU8 (x.s1 >>> 36), asU8 (x.s1 >>> 44),
    asU8 (x.s2 >>> 0), asU8 (x.s2 >>> 8), asU8 (x.s2 >>> 16), asU8 (x.s2 >>> 24), asU8 (x.s2 >>> 32), asU8 (x.s2 >>> 40),
    asU8 (x.s2 >>> 48 ||| asU64 (x.s3 <<< 4)),
    asU8 (x.s3 >>> 4), asU8 (x.s3 >>> 12), asU8 (x.s3 >>> 20), asU8 (x.s3 >>> 28), asU8 (x.s3 >>> 36), asU8 (x.s3 >>> 44),
    asU8 (x.s4 >>> 0), asU8 (x.s4 >>> 8), asU8 (x.s4 >>> 16), asU8 (x.s4 >>> 24), asU8 (x.s4 >>> 32), asU8 (x.s4 >>> 40)]

end Scalar52

/-! ## The functions -/

/-- `Scalar`. -/
@[ext]
structure Scalar where
  bytes : Bytes32
deriving DecidableEq

namespace Scalar

open Scalar52 (mulInternal montgomeryReduce montgomeryMul montgomerySquare)

def unpack (s : Scalar) : Scalar52 := Scalar52.fromBytes s.bytes

/-- `UnpackedScalar::pack`. -/
def pack (x : Scalar52) : Scalar := ⟨x.toBytes⟩

def zero : Scalar := ⟨Vector.replicate 32 0⟩

def one : Scalar := ⟨(Vector.replicate 32 0).set 0 1 first_lt⟩

def reduce (s : Scalar) : Option Scalar := do
  let xR ← mulInternal s.unpack Scalar52.R
  let xModL ← montgomeryReduce xR
  return pack xModL

def isCanonical (s : Scalar) : Option Bool := do
  let r ← reduce s
  return s == r

def fromBytesModOrder (bytes : Bytes32) : Option Scalar := do
  let s ← reduce ⟨bytes⟩
  guard (getElem s.bytes 31 last_lt >>> 7 = 0)
  return s

def fromBytesModOrderWide (input : Vector UInt8 64) : Option Scalar := do
  let x ← Scalar52.fromBytesWide input
  return pack x

def fromBits (bytes : Bytes32) : Scalar := ⟨bytes.set 31 (getElem bytes 31 last_lt &&& 127) last_lt⟩

/-- `none` inside where the bytes are not canonical. -/
def fromCanonicalBytes (bytes : Bytes32) : Option (Option Scalar) :=
  if getElem bytes 31 last_lt >>> 7 ≠ 0 then some none
  else do
    let candidate := fromBits bytes
    let canonical ← isCanonical candidate
    return if canonical then some candidate else none

def mul (s t : Scalar) : Option Scalar := do
  let x ← Scalar52.mul s.unpack t.unpack
  return pack x

def add (s t : Scalar) : Option Scalar := do
  let sum ← Scalar52.add s.unpack t.unpack
  let sumR ← mulInternal sum Scalar52.R
  let sumModL ← montgomeryReduce sumR
  return pack sumModL

def sub (s t : Scalar) : Option Scalar := do
  let selfR ← mulInternal s.unpack Scalar52.R
  let selfModL ← montgomeryReduce selfR
  let rhsR ← mulInternal t.unpack Scalar52.R
  let rhsModL ← montgomeryReduce rhsR
  let x ← Scalar52.sub selfModL rhsModL
  return pack x

def neg (s : Scalar) : Option Scalar := do
  let selfR ← mulInternal s.unpack Scalar52.R
  let selfModL ← montgomeryReduce selfR
  let x ← Scalar52.sub Scalar52.zero selfModL
  return pack x

/-- `for _ in 0..squarings { *y = y.montgomery_square(); }` -/
def squarings : Nat → Scalar52 → Option Scalar52
  | 0, y     => some y
  | k + 1, y => montgomerySquare y >>= squarings k

def squareMultiply (y : Scalar52) (k : Nat) (x : Scalar52) : Option Scalar52 := do
  montgomeryMul (← squarings k y) x

def montgomeryInvert (x : Scalar52) : Option Scalar52 := do
  let x10 ← montgomerySquare x
  let x100 ← montgomerySquare x10
  let x11 ← montgomeryMul x10 x
  let x101 ← montgomeryMul x10 x11
  let x111 ← montgomeryMul x10 x101
  let x1001 ← montgomeryMul x10 x111
  let x1011 ← montgomeryMul x10 x1001
  let x1111 ← montgomeryMul x100 x1011
  let y ← montgomeryMul x1111 x
  let y ← squareMultiply y (123 + 3) x101
  let y ← squareMultiply y (2 + 2) x11
  let y ← squareMultiply y (1 + 4) x1111
  let y ← squareMultiply y (1 + 4) x1111
  let y ← squareMultiply y 4 x1001
  let y ← squareMultiply y 2 x11
  let y ← squareMultiply y (1 + 4) x1111
  let y ← squareMultiply y (1 + 3) x101
  let y ← squareMultiply y (3 + 3) x101
  let y ← squareMultiply y 3 x111
  let y ← squareMultiply y (1 + 4) x1111
  let y ← squareMultiply y (2 + 3) x111
  let y ← squareMultiply y (2 + 2) x11
  let y ← squareMultiply y (1 + 4) x1011
  let y ← squareMultiply y (2 + 4) x1011
  let y ← squareMultiply y (6 + 4) x1001
  let y ← squareMultiply y (2 + 2) x11
  let y ← squareMultiply y (3 + 2) x11
  let y ← squareMultiply y (3 + 2) x11
  let y ← squareMultiply y (1 + 4) x1001
  let y ← squareMultiply y (1 + 3) x111
  let y ← squareMultiply y (2 + 4) x1111
  let y ← squareMultiply y (1 + 4) x1011
  let y ← squareMultiply y 3 x101
  let y ← squareMultiply y (2 + 4) x1111
  let y ← squareMultiply y 3 x101
  squareMultiply y (1 + 2) x11

def invert (s : Scalar) : Option Scalar := do
  let x ← Scalar52.toMontgomery s.unpack
  let y ← montgomeryInvert x
  let z ← Scalar52.fromMontgomery y
  return pack z

/-- The first loop of `batch_invert`: the inputs in Montgomery form, each with the product before it, and the product. -/
def prefixProducts : Scalar52 → List Scalar → Option (List (Scalar × Scalar52) × Scalar52)
  | acc, []              => some ([], acc)
  | acc, input :: inputs => do
    let tmp ← Scalar52.toMontgomery input.unpack
    let acc' ← montgomeryMul acc tmp
    let (pairs, last) ← prefixProducts acc' inputs
    return ((pack tmp, acc) :: pairs, last)

/-- The second loop, backwards: the inverses, the last first. -/
def invertBackwards : Scalar52 → List (Scalar × Scalar52) → Option (List Scalar)
  | _, []                          => some []
  | acc, (input, scratch) :: pairs => do
    let tmp ← montgomeryMul acc input.unpack
    let inverse ← montgomeryMul acc scratch
    let rest ← invertBackwards tmp pairs
    return pack inverse :: rest

/-- The product of the inverses, and the inverses. -/
def batchInvert (inputs : List Scalar) : Option (Scalar × List Scalar) := do
  let acc ← Scalar52.toMontgomery one.unpack
  let (pairs, acc) ← prefixProducts acc inputs
  guard (pack acc ≠ zero)
  let acc ← montgomeryInvert acc
  let acc ← Scalar52.fromMontgomery acc
  let inverses ← invertBackwards acc pairs.reverse
  return (pack acc, inverses.reverse)

/-- `Product`. -/
def product (l : List Scalar) : Option Scalar := l.foldlM mul one

/-- `Sum`. -/
def sum (l : List Scalar) : Option Scalar := l.foldlM add zero

end Scalar

/-! ## Limbs and bytes -/

namespace Scalar52

theorem word_eq (bytes : List UInt8) (i : Nat) : word bytes i = leVal bytes / 2 ^ (64 * i) % 2 ^ 64 := by
  have hpow : 256 ^ (8 * i) = 2 ^ (64 * i) := by
    rw [Nat.pow_mul, Nat.pow_mul 2]
  rw [word, load8_drop, hpow]

/-- **A limb that two words share.** -/
theorem limbAcross_eq (bytes : List UInt8) {i t : Nat} (ht : t ≤ 64) :
    limbAcross bytes i t = leVal bytes / 2 ^ (64 * i) / 2 ^ t % 2 ^ 52 := by
  have hnext : leVal bytes / 2 ^ (64 * (i + 1)) = leVal bytes / 2 ^ (64 * i) / 2 ^ 64 := by
    rw [Nat.div_div_eq_div_mul, ← Nat.pow_add, Nat.mul_succ]
  rw [limbAcross, low52_eq, asU64, word_eq, word_eq, hnext, Nat.shiftRight_eq_div_pow, Nat.shiftLeft_eq]
  exact Pairing.or_mod ht (by decide)

/-- The five limbs of a number. -/
def ofNat (n : Nat) : Scalar52 :=
  ⟨n % 2 ^ 52, n / 2 ^ 52 % 2 ^ 52, n / 2 ^ 104 % 2 ^ 52, n / 2 ^ 156 % 2 ^ 52, n / 2 ^ 208 % 2 ^ 52⟩

theorem ofNat_bounded (n : Nat) : Bounded (ofNat n) := by
  have h : ∀ m, m % 2 ^ 52 < 2 ^ 52 := fun m => Nat.mod_lt m (by decide)
  exact ⟨h _, h _, h _, h _, h _⟩

theorem ofNat_val (n : Nat) : (ofNat n).val = n % (2 ^ 52) ^ 5 := by
  unfold ofNat val
  dsimp only
  omega

theorem ofNat_rep {n b : Nat} (h : n < b) (hb : b ≤ (2 ^ 52) ^ 5) : Rep b (n : Fl) (ofNat n) := by
  have hval : (ofNat n).val = n := by rw [ofNat_val, Nat.mod_eq_of_lt (Nat.lt_of_lt_of_le h hb)]
  exact ⟨ofNat_bounded n, by rwa [hval], by rw [hval]⟩

theorem leVal_lt_256 (bytes : Bytes32) : leVal bytes.toList < 2 ^ 256 := by
  have h := leVal_lt bytes.toList
  rw [Vector.length_toList] at h
  exact h

theorem fromBytes_eq (bytes : Bytes32) : fromBytes bytes = ofNat (leVal bytes.toList) := by
  have hlt := leVal_lt_256 bytes
  unfold fromBytes ofNat
  dsimp only
  rw [limbAcross_eq _ (by decide), limbAcross_eq _ (by decide), limbAcross_eq _ (by decide), word_eq, word_eq, low52_eq,
    Nat.shiftRight_eq_div_pow, Nat.and_two_pow_sub_one_eq_mod]
  generalize leVal bytes.toList = n at *
  simp only [Nat.div_div_eq_div_mul, ← Nat.pow_add]
  congr 1 <;> omega

/-- A word from the fifth on. -/
theorem word_add_four (bytes : List UInt8) (i : Nat) :
    word bytes (4 + i) = leVal bytes / 2 ^ 256 / 2 ^ (64 * i) % 2 ^ 64 := by
  rw [word_eq, Nat.div_div_eq_div_mul, ← Nat.pow_add, Nat.mul_add]

theorem limbAcross_add_four (bytes : List UInt8) {i t : Nat} (ht : t ≤ 64) :
    limbAcross bytes (4 + i) t = leVal bytes / 2 ^ 256 / 2 ^ (64 * i) / 2 ^ t % 2 ^ 52 := by
  rw [limbAcross_eq bytes ht, Nat.div_div_eq_div_mul _ (2 ^ 256), ← Nat.pow_add, Nat.mul_add]

/-- **512 bits are reduced**: the low 260 and the high 252 by one Montgomery product each. -/
theorem fromBytesWide_returns (bytes : Vector UInt8 64) :
    Returns (fromBytesWide bytes) (Rep groupOrder (leVal bytes.toList : Nat)) := by
  have hlt : leVal bytes.toList / 2 ^ 256 < 2 ^ 256 := by
    have h := leVal_lt bytes.toList
    rw [Vector.length_toList] at h
    exact Nat.div_lt_of_lt_mul h
  have hlo : (⟨low52 (word bytes.toList 0), limbAcross bytes.toList 0 52, limbAcross bytes.toList 1 40,
      limbAcross bytes.toList 2 28, limbAcross bytes.toList 3 16⟩ : Scalar52) = ofNat (leVal bytes.toList) := by
    rw [limbAcross_eq _ (by decide), limbAcross_eq _ (by decide), limbAcross_eq _ (by decide), limbAcross_eq _ (by decide),
      word_eq, low52_eq]
    unfold ofNat
    generalize leVal bytes.toList = n
    simp only [Nat.div_div_eq_div_mul, ← Nat.pow_add]
    congr 1
    omega
  have hhi : (⟨low52 (word bytes.toList 4 >>> 4), limbAcross bytes.toList 4 56, limbAcross bytes.toList 5 44,
      limbAcross bytes.toList 6 32, word bytes.toList 7 >>> 20⟩ : Scalar52) =
        ofNat (leVal bytes.toList / 2 ^ 256 / 2 ^ 4) := by
    rw [word_add_four bytes.toList 0, limbAcross_add_four bytes.toList (i := 0) (by decide),
      limbAcross_add_four bytes.toList (i := 1) (by decide), limbAcross_add_four bytes.toList (i := 2) (by decide),
      word_add_four bytes.toList 3, low52_eq, Nat.shiftRight_eq_div_pow, Nat.shiftRight_eq_div_pow]
    unfold ofNat
    generalize leVal bytes.toList / 2 ^ 256 = n at *
    simp only [Nat.div_div_eq_div_mul, ← Nat.pow_add]
    congr 1 <;> omega
  have hlow : Rep ((2 ^ 52) ^ 5) (leVal bytes.toList % (2 ^ 52) ^ 5 : Nat) (ofNat (leVal bytes.toList)) :=
    ⟨ofNat_bounded _, val_lt (ofNat_bounded _), by rw [ofNat_val]⟩
  have hhigh := ofNat_rep (Nat.lt_of_le_of_lt (Nat.div_le_self _ (2 ^ 4)) hlt) (by decide)
  have hpow : 2 ^ 256 * 2 ^ 4 = (2 ^ 52) ^ 5 := by decide
  rw [Nat.div_div_eq_div_mul, hpow] at hhigh hhi
  unfold fromBytesWide
  dsimp only
  rw [hlo, hhi]
  refine (montgomeryMul_returns hlow R_rep (mul_groupOrder_le (Nat.le_refl _))).bind (fun lo hlo => ?_)
  refine (montgomeryMul_returns hhigh RR_rep (mul_groupOrder_le (by decide))).bind (fun hi hhi => ?_)
  rw [mul_div_cancel_right₀ _ montR_ne_zero] at hlo
  rw [← mul_assoc, mul_div_cancel_right₀ _ montR_ne_zero] at hhi
  have hsum : ((leVal bytes.toList / (2 ^ 52) ^ 5 : Nat) : Fl) * montR + (leVal bytes.toList % (2 ^ 52) ^ 5 : Nat) =
      (leVal bytes.toList : Nat) := by
    have hR : montR = (((2 ^ 52) ^ 5 : Nat) : Fl) := (Nat.cast_pow (2 ^ 52) 5).symm
    rw [hR, ← Nat.cast_mul, ← Nat.cast_add, Nat.div_add_mod']
  rw [← hsum]
  exact add_returns_reduced hhi hlo

theorem toBytes_val {x : Scalar52} (hx : Bounded x) (hlt : x.val < 2 ^ 256) : leVal x.toBytes.toList = x.val := by
  obtain ⟨h0, h1, h2, h3, h4⟩ := hx
  have h4 : x.s4 < 2 ^ 48 := by
    unfold val at hlt
    omega
  have hlimb : ∀ {n : Nat}, n < 2 ^ 52 → n = n % 256 + 256 * (n / 2 ^ 8 % 256) + 256 ^ 2 * (n / 2 ^ 16 % 256) +
      256 ^ 3 * (n / 2 ^ 24 % 256) + 256 ^ 4 * (n / 2 ^ 32 % 256) + 256 ^ 5 * (n / 2 ^ 40 % 256) +
      256 ^ 6 * (n / 2 ^ 48) := by
    intro n hn
    omega
  have hshared : ∀ {n : Nat}, n < 2 ^ 52 → n = n % 2 ^ 4 + 2 ^ 4 * (n / 2 ^ 4 % 256 + 256 * (n / 2 ^ 12 % 256) +
      256 ^ 2 * (n / 2 ^ 20 % 256) + 256 ^ 3 * (n / 2 ^ 28 % 256) + 256 ^ 4 * (n / 2 ^ 36 % 256) +
      256 ^ 5 * (n / 2 ^ 44 % 256)) := by
    intro n hn
    omega
  have e0 := hlimb h0
  have e1 := hshared h1
  have e2 := hlimb h2
  have e3 := hshared h3
  have e4 : x.s4 = x.s4 % 256 + 256 * (x.s4 / 2 ^ 8 % 256) + 256 ^ 2 * (x.s4 / 2 ^ 16 % 256) +
      256 ^ 3 * (x.s4 / 2 ^ 24 % 256) + 256 ^ 4 * (x.s4 / 2 ^ 32 % 256) + 256 ^ 5 * (x.s4 / 2 ^ 40 % 256) := by omega
  have s6 := FieldElement51.shared_byte (a := x.s0 / 2 ^ 48) (s := 4) (by omega) h1 (by decide)
  have s19 := FieldElement51.shared_byte (a := x.s2 / 2 ^ 48) (s := 4) (by omega) h3 (by decide)
  have hzero : ∀ n, n / 2 ^ 0 = n := fun n => Nat.div_one n
  simp only [toBytes, Vector.toList_mk, leVal, Nat.shiftRight_eq_div_pow, s6, s19, FieldElement51.asU8_toNat, val, hzero]
  clear s6 s19 hzero hlimb hshared
  conv_rhs => rw [e0, e1, e2, e3, e4]
  clear e0 e1 e2 e3 e4
  ring

end Scalar52

/-! ## What the bytes stand for -/

namespace Scalar

open Scalar52 (Rep montR montR_ne_zero)

/-- The number of the bytes. -/
def val (s : Scalar) : Nat := leVal s.bytes.toList

/-- The bytes are those of the canonical number of `e`. -/
def Canonical (e : Fl) (s : Scalar) : Prop := s.val = e.val

theorem val_injective {s t : Scalar} (h : s.val = t.val) : s = t := Scalar.ext (FieldElement51.toBytes_injective h)

/-- **A scalar has one canonical form.** -/
theorem Canonical.eq_iff {e f : Fl} {s t : Scalar} (hs : Canonical e s) (ht : Canonical f t) : s = t ↔ e = f := by
  constructor
  · rintro rfl
    exact ZMod.val_injective _ (hs.symm.trans ht)
  · rintro rfl
    exact val_injective (hs.trans ht.symm)

theorem Canonical.cast {e : Fl} {s : Scalar} (h : Canonical e s) : (s.val : Fl) = e := by
  rw [h, ZMod.natCast_zmod_val]

theorem Canonical.lt {e : Fl} {s : Scalar} (h : Canonical e s) : s.val < groupOrder := by
  rw [h]
  exact ZMod.val_lt e

theorem unpack_rep (s : Scalar) : Rep (2 ^ 256) (s.val : Fl) s.unpack := by
  unfold unpack
  rw [Scalar52.fromBytes_eq]
  exact Scalar52.ofNat_rep (Scalar52.leVal_lt_256 s.bytes) (by decide)

/-- A canonical scalar is unpacked to reduced limbs. -/
theorem Canonical.unpack_rep {e : Fl} {s : Scalar} (h : Canonical e s) : Rep groupOrder e s.unpack := by
  unfold unpack
  rw [Scalar52.fromBytes_eq, ← h.cast]
  exact Scalar52.ofNat_rep h.lt (by decide)

theorem pack_canonical {e : Fl} {x : Scalar52} (hx : Rep groupOrder e x) : Canonical e (pack x) := by
  have hlt : x.val < 2 ^ 256 := Nat.lt_trans hx.lt (by decide)
  exact (Scalar52.toBytes_val hx.bounded hlt).trans hx.val_reduced

theorem zero_canonical : Canonical 0 zero := by
  rw [Canonical, ZMod.val_zero]
  decide

theorem one_canonical : Canonical 1 one := by
  have h : (1 : Fl).val = 1 := ZMod.val_one groupOrder
  rw [Canonical, h]
  decide

/-! ## Operations -/

variable {e f : Fl} {x y : Scalar52} {n : Nat}

/-- The Montgomery product with `R` reduces. -/
theorem reduceLimbs_returns (hx : Rep n e x) (hn : n ≤ (2 ^ 52) ^ 5) :
    Returns (Scalar52.montgomeryMul x Scalar52.R) (Rep groupOrder e) := by
  have h := Scalar52.montgomeryMul_returns hx Scalar52.R_rep (Scalar52.mul_groupOrder_le hn)
  rwa [mul_div_cancel_right₀ _ montR_ne_zero] at h

/-- **Reduction** of any 32 bytes. -/
theorem reduce_returns (s : Scalar) : Returns (reduce s) (Canonical s.val) := by
  unfold reduce
  rw [← bind_assoc]
  exact (reduceLimbs_returns (unpack_rep s) (by decide)).bind (fun _ hx => Returns.ret (pack_canonical hx))

/-- **The test for the canonical form.** -/
theorem isCanonical_returns (s : Scalar) : Returns (isCanonical s) (· = decide (s.val < groupOrder)) := by
  refine (reduce_returns s).bind (fun r hr => Returns.ret ?_)
  have hiff : s = r ↔ s.val < groupOrder := by
    constructor
    · intro h
      rw [h]
      exact hr.lt
    · intro h
      refine val_injective ?_
      rw [hr, ZMod.val_natCast, Nat.mod_eq_of_lt h]
  rw [Bool.eq_iff_iff, beq_iff_eq, decide_eq_true_eq]
  exact hiff

theorem fromBytesModOrderWide_returns (input : Vector UInt8 64) :
    Returns (fromBytesModOrderWide input) (Canonical (leVal input.toList : Nat)) :=
  (Scalar52.fromBytesWide_returns input).bind (fun _ hx => Returns.ret (pack_canonical hx))

/-! ## The top bit -/

theorem toNat_top (bytes : Bytes32) : (getElem bytes 31 last_lt).toNat = leVal bytes.toList / 2 ^ 248 := by
  have h : (31 : Nat) < bytes.toList.length := by
    rw [Vector.length_toList]
    decide
  have hlt := Scalar52.leVal_lt_256 bytes
  have hget := toNat_getElem h
  rw [Vector.getElem_toList] at hget
  rw [hget]
  have hpow : 256 ^ 31 = 2 ^ 248 := by decide
  rw [hpow]
  omega

theorem shiftRight_7_eq_zero (b : UInt8) : b >>> 7 = 0 ↔ b.toNat < 128 := by
  rw [← UInt8.toNat_inj, UInt8.toNat_shiftRight]
  have h : b.toNat >>> (UInt8.toNat 7 % 8) = b.toNat / 128 := Nat.shiftRight_eq_div_pow b.toNat 7
  rw [h]
  have hz : (0 : UInt8).toNat = 0 := rfl
  rw [hz, Nat.div_eq_zero_iff]
  omega

/-- **The low 255 bits.** -/
theorem fromBits_val (bytes : Bytes32) : (fromBits bytes).val = leVal bytes.toList % 2 ^ 255 := by
  have hlen : (31 : Nat) < bytes.toList.length := by
    rw [Vector.length_toList]
    decide
  have htop := toNat_top bytes
  have hset := leVal_set hlen (bytes[31] &&& 127)
  rw [Vector.getElem_toList] at hset
  have hand : (bytes[31] &&& 127).toNat = bytes[31].toNat % 2 ^ 7 := by
    rw [UInt8.toNat_and]
    exact Nat.and_two_pow_sub_one_eq_mod bytes[31].toNat 7
  have hpow : 256 ^ 31 = 2 ^ 248 := by decide
  rw [hand, htop, hpow] at hset
  have hlt := Scalar52.leVal_lt_256 bytes
  have hval : (fromBits bytes).val = leVal (bytes.toList.set 31 (bytes[31] &&& 127)) := by
    rw [val, fromBits, Vector.toList_set]
  rw [hval]
  omega

theorem fromBytesModOrder_returns (bytes : Bytes32) :
    Returns (fromBytesModOrder bytes) (Canonical (leVal bytes.toList : Nat)) := by
  refine (reduce_returns ⟨bytes⟩).bind (fun s hs => guard_bind ?_ (Returns.ret hs))
  have hlt := hs.lt
  rw [shiftRight_7_eq_zero, toNat_top]
  unfold val groupOrder at hlt
  omega

/-- **Only canonical bytes are accepted**, and all of them. -/
theorem fromCanonicalBytes_returns (bytes : Bytes32) :
    Returns (fromCanonicalBytes bytes) (· = if leVal bytes.toList < groupOrder then some ⟨bytes⟩ else none) := by
  unfold fromCanonicalBytes
  by_cases htop : bytes[31] >>> 7 ≠ 0
  · have hge : ¬ leVal bytes.toList < groupOrder := by
      rw [Ne, shiftRight_7_eq_zero, toNat_top] at htop
      unfold groupOrder
      omega
    rw [if_pos htop, if_neg hge]
    exact ⟨none, rfl, rfl⟩
  · have hbits : fromBits bytes = ⟨bytes⟩ := by
      refine val_injective ?_
      rw [not_not, shiftRight_7_eq_zero, toNat_top] at htop
      rw [fromBits_val, val]
      exact Nat.mod_eq_of_lt (by omega)
    rw [if_neg htop]
    refine (isCanonical_returns (fromBits bytes)).bind (fun b hb => Returns.ret ?_)
    rw [hb, hbits, val]
    by_cases hlt : leVal bytes.toList < groupOrder
    · rw [if_pos hlt, decide_eq_true hlt, if_pos rfl]
    · rw [if_neg hlt, decide_eq_false hlt, if_neg Bool.false_ne_true]

/-! ## The ring -/

theorem mul_returns (s t : Scalar) : Returns (mul s t) (Canonical (s.val * t.val)) :=
  (Scalar52.mul_returns (unpack_rep s) (unpack_rep t)).bind (fun _ hx => Returns.ret (pack_canonical hx))

/-- The sum of two scalars that need not be reduced, brought below the order by a Montgomery product. -/
theorem add_returns (s t : Scalar) : Returns (add s t) (Canonical (s.val + t.val)) := by
  have hs := unpack_rep s
  have ht := unpack_rep t
  have hls := hs.lt
  have hlt := ht.lt
  have hfit : s.unpack.val + t.unpack.val < (2 ^ 52) ^ 5 := by
    have h2 : 2 ^ 256 + 2 ^ 256 < (2 ^ 52) ^ 5 := by decide
    omega
  refine (Scalar52.add_returns hs.bounded ht.bounded hfit).bind (fun x hx => ?_)
  have hrep : Rep ((2 ^ 52) ^ 5) ((s.val : Fl) + t.val) x := by
    refine ⟨hx.1, Scalar52.val_lt hx.1, ?_⟩
    rw [← hs.val_eq, ← ht.val_eq, ← Nat.cast_add]
    by_cases h : groupOrder ≤ s.unpack.val + t.unpack.val
    · rw [← hx.2.1 h, Nat.cast_add x.val, ZMod.natCast_self, add_zero]
    · rw [hx.2.2 (Nat.lt_of_not_le h)]
  rw [← bind_assoc]
  exact (reduceLimbs_returns hrep (Nat.le_refl _)).bind (fun _ hx => Returns.ret (pack_canonical hx))

theorem sub_returns (s t : Scalar) : Returns (sub s t) (Canonical (s.val - t.val)) := by
  unfold sub
  rw [← bind_assoc]
  refine (reduceLimbs_returns (unpack_rep s) (by decide)).bind (fun x hx => ?_)
  rw [← bind_assoc]
  refine (reduceLimbs_returns (unpack_rep t) (by decide)).bind (fun y hy => ?_)
  exact (Scalar52.sub_returns_reduced hx hy).bind (fun _ hz => Returns.ret (pack_canonical hz))

theorem neg_returns (s : Scalar) : Returns (neg s) (Canonical (-s.val)) := by
  have hzero : Rep groupOrder 0 Scalar52.zero := ⟨by decide, by decide, Nat.cast_zero⟩
  unfold neg
  rw [← bind_assoc, ← zero_sub]
  refine (reduceLimbs_returns (unpack_rep s) (by decide)).bind (fun x hx => ?_)
  exact (Scalar52.sub_returns_reduced hzero hx).bind (fun _ hz => Returns.ret (pack_canonical hz))

/-! ## Inverses -/

/-- The limbs stand for `e` in Montgomery form. -/
def MontRep (e : Fl) (x : Scalar52) : Prop := Rep groupOrder (e * montR) x

theorem montgomeryMul_montRep (hx : MontRep e x) (hy : MontRep f y) :
    Returns (Scalar52.montgomeryMul x y) (MontRep (e * f)) := by
  have h := Scalar52.montgomeryMul_returns hx hy (Scalar52.mul_groupOrder_le (by decide))
  rwa [← mul_assoc, mul_div_cancel_right₀ _ montR_ne_zero, mul_right_comm] at h

theorem mul_pow_returns {i j : Nat} (hx : MontRep (e ^ i) x) (hy : MontRep (e ^ j) y) :
    Returns (Scalar52.montgomeryMul x y) (MontRep (e ^ (i + j))) := by
  rw [pow_add]
  exact montgomeryMul_montRep hx hy

theorem square_pow_returns {i : Nat} (hx : MontRep (e ^ i) x) :
    Returns (Scalar52.montgomerySquare x) (MontRep (e ^ (2 * i))) := by
  rw [Scalar52.montgomerySquare_eq hx.bounded, Nat.two_mul]
  exact mul_pow_returns hx hx

theorem squarings_returns {i : Nat} : ∀ {k : Nat} {y : Scalar52}, MontRep (e ^ i) y →
    Returns (squarings k y) (MontRep (e ^ (2 ^ k * i)))
  | 0, y, hy     => by
    rw [Nat.pow_zero, Nat.one_mul]
    exact Returns.ret hy
  | k + 1, y, hy => by
    refine (square_pow_returns hy).bind (fun z hz => ?_)
    rw [Nat.pow_succ, Nat.mul_assoc]
    exact squarings_returns hz

theorem squareMultiply_returns {i j k : Nat} (hy : MontRep (e ^ i) y) (hx : MontRep (e ^ j) x) :
    Returns (squareMultiply y k x) (MontRep (e ^ (2 ^ k * i + j))) :=
  (squarings_returns hy).bind (fun _ hz => mul_pow_returns hz hx)

theorem inv_eq_pow (e : Fl) : e ^ (groupOrder - 2) = e⁻¹ := by
  by_cases h : e = 0
  · rw [h, inv_zero]
    exact zero_pow (by decide)
  · have hone : e ^ (groupOrder - 2) * e = 1 := by
      rw [← pow_succ]
      exact ZMod.pow_card_sub_one_eq_one h
    exact eq_inv_of_mul_eq_one_left hone

/-- **The chain**: from the top bits of the exponent down, some squarings and one product at a time. -/
theorem montgomeryInvert_returns (hx : MontRep e x) : Returns (montgomeryInvert x) (MontRep e⁻¹) := by
  have h1 : MontRep (e ^ 1) x := by rwa [pow_one]
  rw [← inv_eq_pow]
  refine (square_pow_returns h1).bind (fun x10 h10 => ?_)
  refine (square_pow_returns h10).bind (fun x100 h100 => ?_)
  refine (mul_pow_returns h10 h1).bind (fun x11 h11 => ?_)
  refine (mul_pow_returns h10 h11).bind (fun x101 h101 => ?_)
  refine (mul_pow_returns h10 h101).bind (fun x111 h111 => ?_)
  refine (mul_pow_returns h10 h111).bind (fun x1001 h1001 => ?_)
  refine (mul_pow_returns h10 h1001).bind (fun x1011 h1011 => ?_)
  refine (mul_pow_returns h100 h1011).bind (fun x1111 h1111 => ?_)
  refine (mul_pow_returns h1111 h1).bind (fun y hy => ?_)
  refine (squareMultiply_returns hy h101).bind (fun y hy => ?_)
  refine (squareMultiply_returns hy h11).bind (fun y hy => ?_)
  refine (squareMultiply_returns hy h1111).bind (fun y hy => ?_)
  refine (squareMultiply_returns hy h1111).bind (fun y hy => ?_)
  refine (squareMultiply_returns hy h1001).bind (fun y hy => ?_)
  refine (squareMultiply_returns hy h11).bind (fun y hy => ?_)
  refine (squareMultiply_returns hy h1111).bind (fun y hy => ?_)
  refine (squareMultiply_returns hy h101).bind (fun y hy => ?_)
  refine (squareMultiply_returns hy h101).bind (fun y hy => ?_)
  refine (squareMultiply_returns hy h111).bind (fun y hy => ?_)
  refine (squareMultiply_returns hy h1111).bind (fun y hy => ?_)
  refine (squareMultiply_returns hy h111).bind (fun y hy => ?_)
  refine (squareMultiply_returns hy h11).bind (fun y hy => ?_)
  refine (squareMultiply_returns hy h1011).bind (fun y hy => ?_)
  refine (squareMultiply_returns hy h1011).bind (fun y hy => ?_)
  refine (squareMultiply_returns hy h1001).bind (fun y hy => ?_)
  refine (squareMultiply_returns hy h11).bind (fun y hy => ?_)
  refine (squareMultiply_returns hy h11).bind (fun y hy => ?_)
  refine (squareMultiply_returns hy h11).bind (fun y hy => ?_)
  refine (squareMultiply_returns hy h1001).bind (fun y hy => ?_)
  refine (squareMultiply_returns hy h111).bind (fun y hy => ?_)
  refine (squareMultiply_returns hy h1111).bind (fun y hy => ?_)
  refine (squareMultiply_returns hy h1011).bind (fun y hy => ?_)
  refine (squareMultiply_returns hy h101).bind (fun y hy => ?_)
  refine (squareMultiply_returns hy h1111).bind (fun y hy => ?_)
  refine (squareMultiply_returns hy h101).bind (fun y hy => ?_)
  refine (squareMultiply_returns hy h11).mono (fun z hz => ?_)
  have hchain : ∀ n, n = groupOrder - 2 → MontRep (e ^ n) z → MontRep (e ^ (groupOrder - 2)) z := by
    rintro n rfl h
    exact h
  exact hchain _ (by decide) hz

theorem invert_returns (s : Scalar) : Returns (invert s) (Canonical (s.val : Fl)⁻¹) := by
  refine (Scalar52.toMontgomery_returns (unpack_rep s)).bind (fun x hx => ?_)
  refine (montgomeryInvert_returns hx).bind (fun y hy => ?_)
  refine (Scalar52.fromMontgomery_returns hy).bind (fun z hz => Returns.ret (pack_canonical ?_))
  rwa [mul_div_cancel_right₀ _ montR_ne_zero] at hz

/-- An input in Montgomery form, packed, and the product before it. -/
def RepPair (p : Fl × Fl) (q : Scalar × Scalar52) : Prop := Canonical (p.1 * montR) q.1 ∧ MontRep p.2 q.2

theorem prefixProducts_returns {inputs : List Scalar} {acc : Scalar52} {a : Fl} (ha : MontRep a acc) :
    Returns (prefixProducts acc inputs) (fun z =>
      List.Forall₂ RepPair ((inputs.map fun s => (s.val : Fl)).zip (products a (inputs.map fun s => (s.val : Fl)))) z.1 ∧
        MontRep (a * (inputs.map fun s => (s.val : Fl)).prod) z.2) := by
  induction inputs generalizing acc a with
  | nil             =>
    rw [List.map_nil, List.prod_nil, mul_one]
    exact Returns.ret ⟨List.Forall₂.nil, ha⟩
  | cons s inputs ih =>
    refine (Scalar52.toMontgomery_returns (unpack_rep s)).bind (fun tmp ht => ?_)
    refine (montgomeryMul_montRep ha ht).bind (fun acc' ha' => ?_)
    refine (ih ha').bind (fun z hz => Returns.ret ⟨?_, ?_⟩)
    · exact List.Forall₂.cons ⟨pack_canonical ht, ha⟩ hz.1
    · rw [List.map_cons, List.prod_cons, ← mul_assoc]
      exact hz.2

/-- Backwards the product is in ordinary form and its factors in Montgomery form, so that the products are in ordinary
form. -/
theorem invertBackwards_returns : ∀ {ps : List (Fl × Fl)} {pairs : List (Scalar × Scalar52)} {c : Fl} {acc : Scalar52},
    List.Forall₂ RepPair ps pairs → Downward c ps → Rep groupOrder c⁻¹ acc →
      Returns (invertBackwards acc pairs) (List.Forall₂ Canonical (ps.map (fun p => p.1⁻¹)))
  | [], [], _, _, _, _, _                                                     => Returns.ret List.Forall₂.nil
  | (e, s) :: ps, (_, _) :: _, c, _, List.Forall₂.cons hp hps, hdown, hacc => by
    have hle := Scalar52.mul_groupOrder_le (m := groupOrder) (by decide)
    have htmp := Scalar52.montgomeryMul_returns hacc hp.1.unpack_rep hle
    have hinv := Scalar52.montgomeryMul_returns hacc hp.2 hle
    rw [← mul_assoc, mul_div_cancel_right₀ _ montR_ne_zero, hdown.inv_mul_element] at htmp
    rw [← mul_assoc, mul_div_cancel_right₀ _ montR_ne_zero, hdown.inv_mul_product] at hinv
    refine htmp.bind (fun tmp ht => ?_)
    refine hinv.bind (fun inverse hi => ?_)
    refine (invertBackwards_returns hps hdown.2.2.2 ht).bind (fun rest hrest => Returns.ret ?_)
    exact List.Forall₂.cons (pack_canonical hi) hrest

/-- **A batch of scalars is inverted**, and so is its product. -/
theorem batchInvert_returns {inputs : List Scalar} (h : ∀ s ∈ inputs, (s.val : Fl) ≠ 0) :
    Returns (batchInvert inputs) (fun z => Canonical ((inputs.map fun s => (s.val : Fl)).prod)⁻¹ z.1 ∧
      List.Forall₂ Canonical (inputs.map fun s => (s.val : Fl)⁻¹) z.2) := by
  have hone := Scalar52.toMontgomery_returns (unpack_rep one)
  rw [one_canonical.cast] at hone
  refine hone.bind (fun acc hacc => ?_)
  refine (prefixProducts_returns hacc).bind (fun z hz => ?_)
  obtain ⟨pairs, acc⟩ := z
  obtain ⟨hpairs, hacc⟩ := hz
  have hes : ∀ e ∈ inputs.map (fun s => (s.val : Fl)), e ≠ 0 := by
    intro e he
    obtain ⟨s, hs, rfl⟩ := List.mem_map.1 he
    exact h s hs
  have hdown : Downward (inputs.map fun s => (s.val : Fl)).prod
      (((inputs.map fun s => (s.val : Fl)).zip (products 1 (inputs.map fun s => (s.val : Fl)))).reverse ++ []) :=
    downward_products one_ne_zero hes (one_mul _).symm trivial
  rw [one_mul] at hacc
  rw [List.append_nil] at hdown
  have hprod : (inputs.map fun s => (s.val : Fl)).prod ≠ 0 := List.prod_ne_zero (fun h0 => hes 0 h0 rfl)
  have hguard : pack acc ≠ zero := by
    rw [Ne, (pack_canonical hacc).eq_iff zero_canonical]
    exact mul_ne_zero hprod montR_ne_zero
  refine guard_bind hguard ((montgomeryInvert_returns hacc).bind (fun inv hinv => ?_))
  refine (Scalar52.fromMontgomery_returns hinv).bind (fun acc hacc => ?_)
  rw [mul_div_cancel_right₀ _ montR_ne_zero] at hacc
  refine (invertBackwards_returns (List.forall₂_reverse_iff.2 hpairs) hdown hacc).bind (fun l hl => ?_)
  refine Returns.ret ⟨pack_canonical hacc, ?_⟩
  have hmap : (inputs.map fun s => (s.val : Fl)⁻¹) = (inputs.map fun s => (s.val : Fl)).map (·⁻¹) := by
    rw [List.map_map]
    rfl
  rw [hmap, map_inv_zip_products]
  exact List.forall₂_reverse_iff.2 hl

end Scalar
end Curve25519
end Dpid
