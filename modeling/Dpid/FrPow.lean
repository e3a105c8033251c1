import Dpid.FrRepr
import Mathlib.FieldTheory.Finite.Basic
/-!
# FrPow — the three ways to a power of a scalar (`pairing/src/lib.rs`: `PyFr`)

`pow` takes six limbs, `pow_assign` a scalar, and `**` any integer, which it reduces below `frModulus - 1` first.  The
crate's `Fr::pow` takes the limbs of the exponent.
-/
namespace Dpid
namespace Pairing

/-! ## The functions -/

/-- `Fr::pow` of the crate. -/
structure FrLib where
  pow : FrField → List UInt64 → FrField

/-- It raises to the number the limbs stand for. -/
def FrLib.Lawful (C : FrLib) : Prop := ∀ x l, C.pow x l = x ^ limbsVal l

/-- What `self.fr` is after `pow`: the result of the crate's function is dropped. -/
def PyFr.pow (C : FrLib) (fr : FrField) (s1 s2 s3 s4 s5 s6 : UInt64) : FrField :=
  let _ := C.pow fr [s1, s2, s3, s4, s5, s6]
  fr

/-- What it is after `pow_assign`. -/
def PyFr.powAssign (C : FrLib) (fr other : FrField) : FrField := C.pow fr (intoRepr other)

/-- The number that `bigint_to_pyfrexp` names `bls12_381_r`. -/
def expModulus : Int :=
  Nat.ofDigits (2 ^ 32) [0, 4294967295, 4294859774, 1404937218, 161601541, 859428872, 698187080, 1944954707]

/-- `to_u64().unwrap()`. -/
def toU64 (n : Int) : Option UInt64 := if 0 ≤ n ∧ n < 2 ^ 64 then some (UInt64.ofNat n.toNat) else none

/-- `bigint_to_pyfrexp`; `none` is a panic. -/
def bigintToPyfrexp (bint : Int) : Option FrField := do
  -- the % in rust is the remainder
  let uint := bint.tmod expModulus
  let uint := if uint < 0 then uint + expModulus else uint
  let s1 ← toU64 (uint.tmod (2 ^ 64))
  let s2 ← toU64 ((uint / 2 ^ 64).tmod (2 ^ 64))
  let s3 ← toU64 ((uint / 2 ^ 128).tmod (2 ^ 64))
  let s4 ← toU64 (uint / 2 ^ 192)
  fromRepr [s1, s2, s3, s4]

/-- `lhs ** rhs`. -/
def PyFr.dunderPow (C : FrLib) (lhs : FrField) (rhs : Int) : Option FrField := do
  let exp ← bigintToPyfrexp rhs
  return PyFr.powAssign C lhs exp

/-- The limb `i` of an exponent. -/
def limb (e i : Nat) : UInt64 := UInt64.ofNat (e / 2 ^ (64 * i))

/-! ## The exponent of `**` -/

theorem expModulus_eq : expModulus = (frModulus - 1 : Nat) := by decide

theorem toU64_natCast {n : Nat} (h : n < 2 ^ 64) : toU64 n = some (UInt64.ofNat n) := by
  rw [toU64, if_pos ⟨by omega, by omega⟩, Int.toNat_natCast]

theorem uint64_ofNat_mod (n : Nat) : UInt64.ofNat (n % 2 ^ 64) = UInt64.ofNat n := by
  rw [← UInt64.toNat_inj, UInt64.toNat_ofNat', UInt64.toNat_ofNat', Nat.mod_mod]

/-- **The exponent is reduced below `frModulus - 1`**, and the conversions cannot fail. -/
theorem bigintToPyfrexp_natCast (e : Nat) : bigintToPyfrexp e = some ((e % (frModulus - 1) : Nat) : FrField) := by
  have hlt : e % (frModulus - 1) < frModulus := Nat.lt_of_lt_of_le (Nat.mod_lt e (by decide)) (Nat.sub_le _ _)
  have huint : Int.tmod e expModulus = (e % (frModulus - 1) : Nat) := by
    rw [expModulus_eq, Int.ofNat_tmod]
  generalize e % (frModulus - 1) = u at hlt huint
  have hmod : ∀ n : Nat, toU64 (Int.tmod n (2 ^ 64)) = some (UInt64.ofNat n) := by
    intro n
    have hcast : Int.tmod n (2 ^ 64) = (n % 2 ^ 64 : Nat) := by
      rw [Int.ofNat_tmod]
      rfl
    rw [hcast, toU64_natCast (Nat.mod_lt n (by decide)), uint64_ofNat_mod]
  have hdiv : ∀ k : Nat, (u : Int) / 2 ^ k = (u / 2 ^ k : Nat) := by
    intro k
    push_cast
    rfl
  have htop : u / 2 ^ 192 < 2 ^ 64 := by
    refine Nat.div_lt_of_lt_mul (Nat.lt_trans hlt ?_)
    decide
  have hlimbs : [UInt64.ofNat u, UInt64.ofNat (u / 2 ^ 64), UInt64.ofNat (u / 2 ^ 128), UInt64.ofNat (u / 2 ^ 192)] =
      limbs 4 u := by
    simp only [limbs, Nat.div_div_eq_div_mul, ← Nat.pow_add]
  unfold bigintToPyfrexp
  simp only [huint, if_neg (Int.not_lt.2 (Int.natCast_nonneg u)), hdiv, hmod, toU64_natCast htop, Option.bind_eq_bind,
    Option.bind_some, hlimbs]
  rw [fromRepr, limbsVal_limbs_of_lt (Nat.lt_trans hlt frModulus_lt_limbs), if_pos hlt]

/-! ## The powers -/

variable {C : FrLib}

/-- **`pow_assign` raises to the representative** of its argument. -/
theorem powAssign_eq (hC : C.Lawful) (x : FrField) {e : Nat} (he : e < frModulus) :
    PyFr.powAssign C x (e : FrField) = x ^ e := by
  rw [PyFr.powAssign, hC, limbsVal_intoRepr, ZMod.val_natCast, Nat.mod_eq_of_lt he]

theorem dunderPow_eq (hC : C.Lawful) (x : FrField) (e : Nat) : PyFr.dunderPow C x e = some (x ^ (e % (frModulus - 1))) := by
  have hlt : e % (frModulus - 1) < frModulus := Nat.lt_of_lt_of_le (Nat.mod_lt e (by decide)) (Nat.sub_le _ _)
  rw [PyFr.dunderPow, bigintToPyfrexp_natCast, ← powAssign_eq hC x hlt]
  rfl

/-- **`**` is the power but for a zero base** and a multiple of `frModulus - 1`, zero apart. -/
theorem dunderPow_iff (hC : C.Lawful) (x : FrField) (e : Nat) :
    PyFr.dunderPow C x e = some (x ^ e) ↔ (x = 0 → frModulus - 1 ∣ e → e = 0) := by
  have hprime := frModulus_fact
  rw [dunderPow_eq hC, Option.some_inj]
  by_cases hx : x = 0
  · subst hx
    rw [zero_pow_eq, zero_pow_eq, Nat.dvd_iff_mod_eq_zero]
    split_ifs <;> simp_all
  · have hone : x ^ (frModulus - 1) = 1 := ZMod.pow_card_sub_one_eq_one hx
    exact ⟨fun _ h => absurd h hx, fun _ => (pow_eq_pow_mod e hone).symm⟩

/-- **`pow` leaves its object**, which is the power only by chance. -/
theorem pow_iff (x : FrField) (e : Nat) (s1 s2 s3 s4 s5 s6 : UInt64) :
    PyFr.pow C x s1 s2 s3 s4 s5 s6 = x ^ e ↔ x = 0 ∧ 1 ≤ e ∨ x ≠ 0 ∧ e ≡ 1 [MOD orderOf x] := by
  have hprime := frModulus_fact
  have hself : PyFr.pow C x s1 s2 s3 s4 s5 s6 = x := rfl
  rw [hself]
  by_cases hx : x = 0
  · subst hx
    rw [zero_pow_eq]
    split_ifs with he
    · simp [he]
    · simp [Nat.one_le_iff_ne_zero.2 he]
  · have hpow : x ^ e = x ↔ e ≡ 1 [MOD orderOf x] := by
      have hunit : Units.mk0 x hx ^ e = Units.mk0 x hx ^ 1 ↔ e ≡ 1 [MOD orderOf x] := by
        rw [pow_eq_pow_iff_modEq, ← orderOf_units, Units.val_mk0]
      rw [← hunit, ← Units.val_inj, Units.val_pow_eq_pow_val, Units.val_pow_eq_pow_val, Units.val_mk0, pow_one]
    rw [eq_comm, hpow]
    simp [hx]

/-- **When all three are the power.** -/
theorem pows_iff (hC : C.Lawful) (x : FrField) (e : Nat) :
    (e < 2 ^ 384 → PyFr.pow C x (limb e 0) (limb e 1) (limb e 2) (limb e 3) (limb e 4) (limb e 5) = x ^ e) ∧
        (e < frModulus → PyFr.powAssign C x (e : FrField) = x ^ e) ∧ PyFr.dunderPow C x e = some (x ^ e) ↔
      (e < 2 ^ 384 → x = 0 ∧ 1 ≤ e ∨ x ≠ 0 ∧ e ≡ 1 [MOD orderOf x]) ∧ (x = 0 → frModulus - 1 ∣ e → e = 0) := by
  rw [pow_iff, dunderPow_iff hC]
  constructor
  · rintro ⟨hpow, -, hdunder⟩
    exact ⟨hpow, hdunder⟩
  · rintro ⟨hpow, hdunder⟩
    exact ⟨hpow, powAssign_eq hC x, hdunder⟩

/-- A crate that raises as documented. -/
def powLib : FrLib := ⟨fun x l => x ^ limbsVal l⟩

theorem powLib_lawful : powLib.Lawful := fun _ _ => rfl

theorem two_ne_zero_fr : (2 : FrField) ≠ 0 := by decide

theorem pows_iff_one : (1 < 2 ^ 384 → PyFr.pow powLib 2 (limb 1 0) (limb 1 1) (limb 1 2) (limb 1 3) (limb 1 4) (limb 1 5) =
      2 ^ 1) ∧
    (1 < frModulus → PyFr.powAssign powLib 2 (1 : Nat) = 2 ^ 1) ∧ PyFr.dunderPow powLib 2 (1 : Nat) = some (2 ^ 1) :=
  (pows_iff powLib_lawful 2 1).2 ⟨fun _ => .inr ⟨two_ne_zero_fr, rfl⟩, fun h => absurd h two_ne_zero_fr⟩

/-- `pow` with the limbs of 2 leaves 2, and `0 ** (frModulus - 1)` is 1. -/
theorem pows_differ : PyFr.pow powLib 2 (limb 2 0) (limb 2 1) (limb 2 2) (limb 2 3) (limb 2 4) (limb 2 5) ≠ 2 ^ 2 ∧
    PyFr.dunderPow powLib 0 (frModulus - 1 : Nat) ≠ some (0 ^ (frModulus - 1)) := by
  constructor
  · have hself : PyFr.pow powLib 2 (limb 2 0) (limb 2 1) (limb 2 2) (limb 2 3) (limb 2 4) (limb 2 5) = 2 := rfl
    rw [hself]
    decide
  · rw [dunderPow_eq powLib_lawful, Nat.mod_self, pow_zero, zero_pow (by decide)]
    decide

end Pairing
end Dpid
