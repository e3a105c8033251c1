import Dpid.Edwards
import Dpid.FrRepr
import Mathlib.NumberTheory.LegendreSymbol.Basic
/-!
# Jubjub — the curve of the library and its generator

`Jubjub` is a twisted Edwards curve with `a = -1` and a complete addition law.  Over the scalar field of the pairing minus
one is a square and the `d` of the curve through the generator is none, which makes its law complete.
-/
namespace Dpid
namespace Jubjub

open Pairing Primality

/-- The curve of the library. -/
structure JubjubCurve (F : Type*) [Field F] extends Edwards.Curve F where
  a_eq : a = -1

def generatorY : Nat := 6846412461894745224441235558443359243034138132682534265960483512729196124138

/-- The coordinates of `GP`, in any field. -/
def generator (F : Type*) [Field F] : F × F := ((5 : Nat), (generatorY : F))

/-! ## The curve over the scalar field -/

section

attribute [local instance] frModulus_fact

theorem natCast_frModulus {m n : Nat} (h : m % frModulus = n % frModulus) : (m : FrField) = (n : FrField) :=
  (ZMod.natCast_eq_natCast_iff' m n frModulus).2 h

theorem natCast_pred : ((frModulus - 1 : Nat) : FrField) = -1 := by
  rw [Nat.cast_sub frModulus_prime.one_le, ZMod.natCast_self, Nat.cast_one, zero_sub]

theorem two_ne_zero_fr : (2 : FrField) ≠ 0 := by exact_mod_cast natCast_ne_zero (n := 2) (by decide) (by decide)

theorem five_ne_zero_fr : (5 : FrField) ≠ 0 := by exact_mod_cast natCast_ne_zero (n := 5) (by decide) (by decide)

theorem isSquare_neg_one_fr : IsSquare (-1 : FrField) := by
  refine ⟨(0x8d51ccce760304d0ec030002760300000001000000000000 : Nat), ?_⟩
  rw [← Nat.cast_mul, ← natCast_pred]
  exact natCast_frModulus (by decide)

/-- The coefficient `d` of the curve through the generator. -/
def curveD : Nat := 19257038036680949359750312669786877991949435402254120286184196891950884077233

theorem powMod_curveD : powMod frModulus 255 curveD (frModulus / 2) 1 % frModulus = frModulus - 1 := by decide +kernel

theorem curveD_pow : (curveD : FrField) ^ (frModulus / 2) = -1 := by
  have h := powMod_mod frModulus 255 curveD (frModulus / 2) 1 (by decide)
  rw [Nat.one_mul, powMod_curveD] at h
  rw [← Nat.cast_pow, ← natCast_pred]
  exact natCast_frModulus (h.symm.trans (by decide))

/-- By Euler's criterion. -/
theorem not_isSquare_curveD : ¬ IsSquare (curveD : FrField) := by
  intro hsq
  have hpow := curveD_pow
  have hne : (curveD : FrField) ≠ 0 := by
    intro h0
    rw [h0, zero_pow (by decide)] at hpow
    exact one_ne_zero (neg_eq_zero.1 hpow.symm)
  rw [(ZMod.euler_criterion frModulus hne).1 hsq] at hpow
  exact two_ne_zero_fr (by linear_combination hpow)

/-- **The curve is complete.** -/
def jubjub : JubjubCurve FrField where
  a := -1
  d := (curveD : FrField)
  complete := Edwards.Curve.denominator_ne_zero two_ne_zero_fr isSquare_neg_one_fr not_isSquare_curveD
  a_eq := rfl

theorem generator_onCurve : Edwards.OnCurve jubjub.a jubjub.d (generator FrField) := by
  have ha : jubjub.a = -1 := rfl
  have hd : jubjub.d = (curveD : FrField) := rfl
  have h : ((generatorY * generatorY : Nat) : FrField) = ((26 + curveD * 25 * (generatorY * generatorY) : Nat) : FrField) :=
    natCast_frModulus (by decide)
  push_cast at h
  rw [Edwards.OnCurve, ha, hd, generator]
  linear_combination h

/-- The generator of the library's curve. -/
def jubjubGenerator : jubjub.Point := ⟨_, _, generator_onCurve⟩

end

end Jubjub
end Dpid
