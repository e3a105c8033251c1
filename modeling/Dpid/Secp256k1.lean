import Dpid.Curve
import Dpid.Primality
import Mathlib.AlgebraicGeometry.EllipticCurve.Affine.Point
import Mathlib.GroupTheory.OrderOfElement
/-!
# Secp256k1 — the curve of `ecdsa.SECP256k1`

`y² = x³ + 7` over the field of `p` elements, with the generator and the group order the library gives.  The field and
the order are primes by one chain of Lucas tests (`prime_p`, `prime_order`); the generator has that order because
`order - 1` times it, computed on coordinates, is its negative (`zsmul_generator_eq_zero`).  `secp256k1` is the curve as
the library shows it, and it is lawful.
-/
namespace Dpid
namespace Secp256k1

open WeierstrassCurve.Affine Primality

def p : ℕ := 0xFFFFFFFFFFFFFFFFFFFFFFFFFFFFFFFFFFFFFFFFFFFFFFFFFFFFFFFEFFFFFC2F

def order : ℕ := 0xFFFFFFFFFFFFFFFFFFFFFFFFFFFFFFFEBAAEDCE6AF48A03BBFD25E8CD0364141

def gx : ℕ := 0x79BE667EF9DCBBAC55A06295CE870B07029BFCDB2DCE28D959F2815B16F81798

def gy : ℕ := 0x483ADA7726A3C4655DA4FBFC0E1108A8FD17B448A68554199C47D08FFB10D4B8

/-! ## The two primes -/

def lucasSteps : List Step :=
  [⟨2, 1, []⟩, ⟨3, 2, [2]⟩, ⟨7, 3, [2, 3]⟩, ⟨5, 2, [2, 2]⟩, ⟨13441, 11, [2, 2, 2, 2, 2, 2, 2, 3, 5, 7]⟩,
   ⟨29, 2, [2, 2, 7]⟩, ⟨31, 3, [2, 3, 5]⟩, ⟨11, 2, [2, 5]⟩, ⟨13, 2, [2, 2, 3]⟩, ⟨7723, 3, [2, 3, 3, 3, 11, 13]⟩,
   ⟨17, 3, [2, 2, 2, 2]⟩, ⟨443, 2, [2, 13, 17]⟩, ⟨887, 5, [2, 443]⟩, ⟨5323, 5, [2, 3, 887]⟩, ⟨131, 2, [2, 5, 13]⟩,
   ⟨2621, 2, [2, 2, 5, 131]⟩, ⟨24809, 6, [2, 2, 2, 7, 443]⟩, ⟨97, 5, [2, 2, 2, 2, 2, 3]⟩, ⟨971, 6, [2, 5, 97]⟩,
   ⟨1373, 2, [2, 2, 7, 7, 7]⟩, ⟨13331831, 13, [2, 5, 971, 1373]⟩,
   ⟨173378833005251801, 6, [2, 2, 2, 5, 5, 2621, 24809, 13331831]⟩,
   ⟨22149492674086928081353, 5, [2, 2, 2, 3, 5323, 173378833005251801]⟩,
   ⟨132896956044521568488119, 6, [2, 3, 22149492674086928081353]⟩, ⟨271, 6, [2, 3, 3, 3, 5]⟩, ⟨1627, 3, [2, 3, 271]⟩,
   ⟨41, 6, [2, 2, 2, 5]⟩, ⟨83, 2, [2, 41]⟩, ⟨2657, 3, [2, 2, 2, 2, 2, 83]⟩, ⟨67, 2, [2, 3, 11]⟩,
   ⟨4423, 3, [2, 3, 11, 67]⟩, ⟨103, 5, [2, 3, 17]⟩, ⟨41201, 3, [2, 2, 2, 2, 5, 5, 103]⟩, ⟨101, 2, [2, 2, 5, 5]⟩,
   ⟨239, 7, [2, 7, 17]⟩, ⟨96557, 2, [2, 2, 101, 239]⟩, ⟨19, 2, [2, 3, 3]⟩, ⟨419, 2, [2, 11, 19]⟩,
   ⟨20113, 10, [2, 2, 2, 2, 3, 419]⟩, ⟨1206781, 10, [2, 2, 3, 5, 20113]⟩, ⟨7240687, 3, [2, 3, 1206781]⟩,
   ⟨53, 2, [2, 2, 13]⟩, ⟨107590001, 3, [2, 2, 2, 2, 5, 5, 5, 5, 7, 29, 53]⟩, ⟨255515944373312847190720520512484175977,
   3, [2, 2, 2, 7, 7, 11, 1627, 2657, 4423, 41201, 96557, 7240687, 107590001]⟩,
   ⟨205115282021455665897114700593932402728804164701536103180137503955397371, 10, [2, 3, 5, 29, 29, 31, 7723,
   132896956044521568488119, 255515944373312847190720520512484175977]⟩,
   ⟨115792089237316195423570985008687907853269984665640564039457584007908834671663, 3, [2, 3, 7, 13441,
   205115282021455665897114700593932402728804164701536103180137503955397371]⟩, ⟨37, 2, [2, 2, 3, 3]⟩,
   ⟨149, 2, [2, 2, 37]⟩, ⟨631, 3, [2, 3, 3, 5, 7]⟩, ⟨23, 5, [2, 11]⟩, ⟨16699, 3, [2, 3, 11, 11, 23]⟩,
   ⟨2861, 2, [2, 2, 5, 11, 13]⟩, ⟨85831, 3, [2, 3, 5, 2861]⟩, ⟨2011, 3, [2, 3, 5, 67]⟩,
   ⟨4681609, 23, [2, 2, 2, 3, 97, 2011]⟩, ⟨107361793816595537, 3, [2, 2, 2, 2, 16699, 85831, 4681609]⟩,
   ⟨59, 2, [2, 29]⟩, ⟨4051, 10, [2, 3, 3, 3, 3, 5, 5]⟩, ⟨113, 3, [2, 2, 2, 2, 7]⟩, ⟨120233, 3, [2, 2, 2, 7, 19, 113]⟩,
   ⟨199, 3, [2, 3, 3, 11]⟩, ⟨797, 2, [2, 2, 199]⟩, ⟨9349, 2, [2, 2, 3, 19, 41]⟩, ⟨44706919, 6, [2, 3, 797, 9349]⟩,
   ⟨174723607534414371449, 3, [2, 2, 2, 17, 59, 4051, 120233, 44706919]⟩, ⟨109, 6, [2, 2, 3, 3, 3]⟩,
   ⟨73, 5, [2, 2, 2, 3, 3]⟩, ⟨293, 2, [2, 2, 73]⟩, ⟨2731, 3, [2, 3, 5, 7, 13]⟩, ⟨305873, 3, [2, 2, 2, 2, 7, 2731]⟩,
   ⟨1409, 3, [2, 2, 2, 2, 2, 2, 2, 11]⟩, ⟨28181, 2, [2, 2, 5, 1409]⟩, ⟨545358713, 5, [2, 2, 2, 41, 59, 28181]⟩,
   ⟨461, 2, [2, 2, 5, 23]⟩, ⟨1871, 14, [2, 5, 11, 17]⟩, ⟨1627771, 3, [2, 3, 5, 29, 1871]⟩,
   ⟨297159362677, 2, [2, 2, 3, 3, 11, 461, 1627771]⟩,
   ⟨29047611873442575647497758179, 2, [2, 293, 305873, 545358713, 297159362677]⟩,
   ⟨341948486974166000522343609283189, 2, [2, 2, 3, 3, 3, 109, 29047611873442575647497758179]⟩,
   ⟨115792089237316195423570985008687907852837564279074904382605163141518161494337, 7, [2, 2, 2, 2, 2, 2, 3, 149, 631,
   107361793816595537, 174723607534414371449, 341948486974166000522343609283189]⟩]

set_option maxRecDepth 4000 in
theorem lucasSteps_pass : chain [] lucasSteps = true := by decide +kernel

theorem prime_of_mem {n : ℕ} (h : n ∈ lucasSteps.map Step.p) : n.Prime := by
  obtain ⟨s, hs, rfl⟩ := List.mem_map.1 h
  exact prime_of_chain lucasSteps (fun _ hq => absurd hq List.not_mem_nil) lucasSteps_pass s hs

theorem prime_p : p.Prime := prime_of_mem (by decide +kernel)

theorem prime_order : order.Prime := prime_of_mem (by decide +kernel)

instance : Fact p.Prime := ⟨prime_p⟩

/-! ## The curve -/

/-- `y² = x³ + 7`. -/
def curve : WeierstrassCurve.Affine (ZMod p) := ⟨0, 0, 0, 0, 7⟩

theorem natCast_ne_zero {n : ℕ} (h : n % p ≠ 0) : (n : ZMod p) ≠ 0 := fun hz =>
  h (Nat.mod_eq_zero_of_dvd ((ZMod.natCast_eq_zero_iff n p).1 hz))

theorem nonsingular_iff {x y : ZMod p} : curve.Nonsingular x y ↔ y ^ 2 = x ^ 3 + 7 := by
  have hΔ : curve.Δ ≠ 0 := by
    have hval : curve.Δ = -((432 * 49 : ℕ) : ZMod p) := by
      simp only [curve, WeierstrassCurve.Δ, WeierstrassCurve.b₂, WeierstrassCurve.b₄, WeierstrassCurve.b₆,
        WeierstrassCurve.b₈]
      push_cast
      ring
    rw [hval]
    exact neg_ne_zero.2 (natCast_ne_zero (by decide +kernel))
  rw [← equation_iff_nonsingular_of_Δ_ne_zero hΔ, equation_iff]
  simp [curve]

theorem negY_eq (x y : ZMod p) : curve.negY x y = -y := by simp [negY, curve]

theorem addX_eq (x₁ x₂ l : ZMod p) : curve.addX x₁ x₂ l = l ^ 2 - x₁ - x₂ := by simp [addX, curve]

theorem addY_eq (x₁ x₂ y₁ l : ZMod p) : curve.addY x₁ x₂ y₁ l = l * (x₁ - (l ^ 2 - x₁ - x₂)) - y₁ := by
  rw [addY, negY_eq, negAddY, addX_eq]
  ring

theorem slope_self {x y : ZMod p} (hy : y ≠ curve.negY x y) : curve.slope x x y y = 3 * x ^ 2 / (2 * y) := by
  rw [slope_of_Y_ne rfl hy, negY_eq, sub_neg_eq_add, ← two_mul]
  simp [curve]

/-! ## Multiples of the generator

A triple stands for the point `(X / Z², Y / Z³)`, and for none where `Z` is zero; so no inverse is taken. -/

structure Triple where
  X : ℤ
  Y : ℤ
  Z : ℤ

def Triple.double (t : Triple) : Triple :=
  let d := 4 * t.X * (t.Y * t.Y % p) % p
  let e := 3 * (t.X * t.X) % p
  let x := (e * e - 2 * d) % p
  ⟨x, (e * (d - x) - 8 * ((t.Y * t.Y % p) * (t.Y * t.Y % p))) % p, 2 * t.Y * t.Z % p⟩

/-- Adding the generator. -/
def Triple.addGenerator (t : Triple) : Triple :=
  let zz := t.Z * t.Z % p
  let h := (gx * zz - t.X) % p
  let r := (gy * (zz * t.Z % p) - t.Y) % p
  let hh := h * h % p
  let x := (r * r - h * hh - 2 * (t.X * hh)) % p
  ⟨x, (r * (t.X * hh - x) - t.Y * (h * hh)) % p, t.Z * h % p⟩

/-- `k` times the generator by doubling and adding, for `1 ≤ k < 2 ^ n`. -/
def multiple : ℕ → ℕ → Triple
  | 0, _     => ⟨0, 0, 0⟩
  | n + 1, k =>
    if k = 1 then ⟨gx, gy, 1⟩
    else if k % 2 = 1 then (multiple n (k / 2)).double.addGenerator
    else (multiple n (k / 2)).double

/-- The triple stands for the point. -/
def Stands (t : Triple) (P : curve.Point) : Prop := (t.Z : ZMod p) ≠ 0 →
  ∃ h, P = .some ((t.X : ZMod p) / (t.Z : ZMod p) ^ 2) ((t.Y : ZMod p) / (t.Z : ZMod p) ^ 3) h

theorem exists_some_of_eq {x y x' y' : ZMod p} (h : curve.Nonsingular x y) (hx : x = x') (hy : y = y') :
    ∃ h', (Point.some x y h : curve.Point) = .some x' y' h' := by
  subst hx hy
  exact ⟨h, rfl⟩

theorem two_ne_zero' : (2 : ZMod p) ≠ 0 := natCast_ne_zero (n := 2) (by decide +kernel)

theorem Stands.double {t : Triple} {P : curve.Point} (h : Stands t P) : Stands t.double (P + P) := by
  intro hz
  have hz2 : (2 : ZMod p) * t.Y * t.Z ≠ 0 := by simpa [Triple.double, ZMod.intCast_mod] using hz
  have hY : (t.Y : ZMod p) ≠ 0 := right_ne_zero_of_mul (left_ne_zero_of_mul hz2)
  have hZ : (t.Z : ZMod p) ≠ 0 := right_ne_zero_of_mul hz2
  obtain ⟨hn, rfl⟩ := h hZ
  have h2 := two_ne_zero'
  have hy : (t.Y : ZMod p) / (t.Z : ZMod p) ^ 3 ≠
      curve.negY ((t.X : ZMod p) / (t.Z : ZMod p) ^ 2) ((t.Y : ZMod p) / (t.Z : ZMod p) ^ 3) := by
    rw [negY_eq, ne_eq, eq_neg_iff_add_eq_zero, ← two_mul]
    exact mul_ne_zero h2 (div_ne_zero hY (pow_ne_zero 3 hZ))
  rw [Point.add_self_of_Y_ne hy]
  refine exists_some_of_eq _ ?_ ?_
  · rw [slope_self hy, addX_eq, Triple.double]
    push_cast [ZMod.intCast_mod]
    field_simp
    ring
  · rw [slope_self hy, addY_eq, Triple.double]
    push_cast [ZMod.intCast_mod]
    field_simp
    ring

theorem nonsingular_generator : curve.Nonsingular (gx : ZMod p) (gy : ZMod p) := by
  have hmod : gy ^ 2 % p = (gx ^ 3 + 7) % p := by decide +kernel
  have hcast := (ZMod.natCast_eq_natCast_iff' (gy ^ 2) (gx ^ 3 + 7) p).2 hmod
  push_cast at hcast
  exact nonsingular_iff.2 hcast

def generator : curve.Point := .some (gx : ZMod p) (gy : ZMod p) nonsingular_generator

/-- The line through `(X / Z², Y / Z³)` and `(a, b)`, with `h = a Z² - X`. -/
theorem line_slope {X Y Z a b h : ZMod p} (hZ : Z ≠ 0) (hX : X = a * Z ^ 2 - h) (hh : h ≠ 0) :
    (Y / Z ^ 3 - b) / (X / Z ^ 2 - a) = (b * Z ^ 3 - Y) / (Z * h) := by
  have hd : X / Z ^ 2 - a = -h / Z ^ 2 := by
    rw [hX]
    field_simp
    ring
  rw [hd]
  field_simp
  ring

theorem Stands.addGenerator {t : Triple} {P : curve.Point} (h : Stands t P) : Stands t.addGenerator (P + generator) := by
  intro hz
  have hz2 : (t.Z : ZMod p) * ((gx : ZMod p) * (t.Z * t.Z) - t.X) ≠ 0 := by
    simpa [Triple.addGenerator, ZMod.intCast_mod] using hz
  have hZ : (t.Z : ZMod p) ≠ 0 := left_ne_zero_of_mul hz2
  have hh : (gx : ZMod p) * (t.Z * t.Z) - t.X ≠ 0 := right_ne_zero_of_mul hz2
  obtain ⟨hn, rfl⟩ := h hZ
  have hx : (t.X : ZMod p) / (t.Z : ZMod p) ^ 2 ≠ gx := by
    intro he
    rw [div_eq_iff (pow_ne_zero 2 hZ), pow_two] at he
    exact hh (by rw [he, sub_self])
  rw [generator, Point.add_of_X_ne hx]
  have hX : (t.X : ZMod p) = gx * (t.Z : ZMod p) ^ 2 - (gx * (t.Z * t.Z) - t.X) := by ring
  have hslope := line_slope (b := gy) (Y := t.Y) hZ hX hh
  refine exists_some_of_eq _ ?_ ?_
  · rw [slope_of_X_ne hx, hslope, addX_eq, Triple.addGenerator]
    push_cast [ZMod.intCast_mod]
    generalize (gx : ZMod p) * (t.Z * t.Z) - t.X = d at hX hh
    rw [hX]
    field_simp
    ring
  · rw [slope_of_X_ne hx, hslope, addY_eq, Triple.addGenerator]
    push_cast [ZMod.intCast_mod]
    generalize (gx : ZMod p) * (t.Z * t.Z) - t.X = d at hX hh
    rw [hX]
    field_simp
    ring

theorem stands_multiple : ∀ (n k : ℕ), 1 ≤ k → k < 2 ^ n → Stands (multiple n k) (k • generator)
  | 0, k, h1, hk     => by rw [pow_zero] at hk; omega
  | n + 1, k, h1, hk => by
    rw [Nat.pow_succ] at hk
    rw [multiple]
    split
    · rename_i hone
      subst hone
      rw [one_nsmul]
      exact fun _ => exists_some_of_eq _ (by simp) (by simp)
    · have ih := (stands_multiple n (k / 2) (by omega) (by omega)).double
      rw [← two_nsmul, ← mul_nsmul'] at ih
      split
      · rename_i hodd
        have hk2 : k = 2 * (k / 2) + 1 := by omega
        conv => arg 2; rw [hk2, succ_nsmul]
        exact ih.addGenerator
      · rename_i heven
        have hk2 : 2 * (k / 2) = k := by omega
        rwa [hk2] at ih

/-- `order - 1` times the generator has the generator's `x` and the opposite `y`. -/
theorem multiple_order : (multiple 256 (order - 1)).Z % p ≠ 0 ∧
    (multiple 256 (order - 1)).X % p = gx * (multiple 256 (order - 1)).Z ^ 2 % p ∧
    (multiple 256 (order - 1)).Y % p = -gy * (multiple 256 (order - 1)).Z ^ 3 % p := by
  decide +kernel

theorem order_nsmul_generator : order • generator = 0 := by
  have hst := stands_multiple 256 (order - 1) (by decide +kernel) (by decide +kernel)
  obtain ⟨hz, hx, hy⟩ := multiple_order
  generalize multiple 256 (order - 1) = t at hst hz hx hy
  have hZ : (t.Z : ZMod p) ≠ 0 := fun h => hz (Int.emod_eq_zero_of_dvd ((ZMod.intCast_zmod_eq_zero_iff_dvd _ p).1 h))
  have hX := (ZMod.intCast_eq_intCast_iff' t.X (gx * t.Z ^ 2) p).2 hx
  have hY := (ZMod.intCast_eq_intCast_iff' t.Y (-gy * t.Z ^ 3) p).2 hy
  push_cast at hX hY
  obtain ⟨hn, hP⟩ := hst hZ
  have hneg : (order - 1) • generator = -generator := by
    have hx' : (t.X : ZMod p) / (t.Z : ZMod p) ^ 2 = gx := by rw [hX, mul_div_cancel_right₀ _ (pow_ne_zero 2 hZ)]
    have hy' : (t.Y : ZMod p) / (t.Z : ZMod p) ^ 3 = -gy := by rw [hY, mul_div_cancel_right₀ _ (pow_ne_zero 3 hZ)]
    obtain ⟨hn', he⟩ := exists_some_of_eq hn hx' hy'
    obtain ⟨hn'', he'⟩ := exists_some_of_eq ((nonsingular_neg ..).2 nonsingular_generator) rfl (negY_eq (gx : ZMod p) gy)
    rw [hP, he, generator, Point.neg_some, he']
  have hord : order = order - 1 + 1 := by decide +kernel
  rw [hord, succ_nsmul, hneg, neg_add_cancel]

/-- **The generator has the order the library gives.** -/
theorem zsmul_generator_eq_zero (k : ℤ) : k • generator = 0 ↔ (order : ℤ) ∣ k := by
  have : Fact order.Prime := ⟨prime_order⟩
  have hord : addOrderOf generator = order := addOrderOf_eq_prime order_nsmul_generator (Point.some_ne_zero _)
  rw [← hord]
  exact addOrderOf_dvd_iff_zsmul_eq_zero.symm

/-! ## The library's view -/

instance (x y : ZMod p) : Decidable (curve.Nonsingular x y) := decidable_of_iff _ nonsingular_iff.symm

def xy : curve.Point → Option (Int × Int)
  | .zero       => none
  | .some x y _ => some ((x.val : Int), (y.val : Int))

/-- The point with these coordinates, if they are on the curve. -/
def ofXY (c : Int × Int) : Option curve.Point :=
  if h : curve.Nonsingular (c.1 : ZMod p) (c.2 : ZMod p) then some (.some _ _ h) else none

/-- The slope through two different `x` congruent modulo `p` has no inverse to divide by. -/
def pointAdd (c d : Int × Int) : Except Exn curve.Point :=
  match ofXY c, ofXY d with
  | some P, some Q =>
    if c.1 ≠ d.1 ∧ (c.1 - d.1) % p = 0 then .error (.valueError "base is not invertible for the given modulus")
    else .ok (P + Q)
  | _, _           => .error .assertionError

theorem intCast_val (x : ZMod p) : (((x.val : Int)) : ZMod p) = x := by
  rw [Int.cast_natCast, ZMod.natCast_val, ZMod.cast_id]

theorem ofXY_xy {P : curve.Point} {c : Int × Int} (h : xy P = some c) : ofXY c = some P := by
  cases P with
  | zero => cases h
  | some x y hn =>
    cases h
    have hn' : curve.Nonsingular ((x.val : Int) : ZMod p) ((y.val : Int) : ZMod p) := by rwa [intCast_val, intCast_val]
    rw [ofXY, dif_pos hn']
    simp only [intCast_val]

theorem val_eq_of_emod {x y : ZMod p} (h : ((x.val : Int) - y.val) % p = 0) : x = y := by
  have hsub := (ZMod.intCast_zmod_eq_zero_iff_dvd _ p).2 (Int.dvd_of_emod_eq_zero h)
  rwa [Int.cast_sub, intCast_val, intCast_val, sub_eq_zero] at hsub

end Secp256k1

open Secp256k1 in
/-- secp256k1, as `ecdsa` computes it. -/
def secp256k1 : Curve where
  Pt := curve.Point
  group := inferInstance
  p := Secp256k1.p
  order := Secp256k1.order
  generator := Secp256k1.generator
  xy := Secp256k1.xy
  containsPoint c := (c.2 * c.2 - (c.1 * c.1 * c.1 + 7)) % Secp256k1.p == 0
  pointAdd := Secp256k1.pointAdd

open Secp256k1 in
theorem secp256k1_lawful : secp256k1.Lawful where
  xy_eq_none P := by
    cases P with
    | zero        => exact ⟨fun _ => rfl, fun _ => rfl⟩
    | some x y hn =>
      exact ⟨fun h => absurd h (Option.some_ne_none _), fun h => absurd h (WeierstrassCurve.Affine.Point.some_ne_zero hn)⟩
  xy_inj P Q c hP hQ := Option.some.inj ((ofXY_xy hP).symm.trans (ofXY_xy hQ))
  xy_reduced P x y h := by
    cases P with
    | zero          => cases h
    | some x' y' hn =>
      cases h
      exact ⟨Int.natCast_nonneg _, Int.ofNat_lt.2 (ZMod.val_lt y')⟩
  xy_neg P x y h := by
    cases P with
    | zero          => cases h
    | some x' y' hn =>
      cases h
      have hval : ((-y').val : Int) = -(y'.val : Int) % Secp256k1.p := by
        rw [← ZMod.val_intCast, Int.cast_neg, intCast_val]
      obtain ⟨hn', he⟩ := exists_some_of_eq ((WeierstrassCurve.Affine.nonsingular_neg ..).2 hn) rfl (negY_eq x' y')
      show Secp256k1.xy (-(.some x' y' hn)) = _
      rw [WeierstrassCurve.Affine.Point.neg_some, he, Secp256k1.xy, hval]
      rfl
  containsPoint_xy P c h := by
    cases P with
    | zero          => cases h
    | some x' y' hn =>
      cases h
      have heq := Secp256k1.nonsingular_iff.1 hn
      have hcast : (((y'.val : Int) * y'.val - ((x'.val : Int) * x'.val * x'.val + 7) : Int) : ZMod Secp256k1.p) = 0 := by
        push_cast
        rw [ZMod.natCast_val, ZMod.natCast_val, ZMod.cast_id, ZMod.cast_id, ← pow_two, heq]
        ring
      simpa [secp256k1] using Int.emod_eq_zero_of_dvd ((ZMod.intCast_zmod_eq_zero_iff_dvd _ _).1 hcast)
  pointAdd_xy P Q c d hP hQ := by
    show Secp256k1.pointAdd c d = _
    rw [Secp256k1.pointAdd, ofXY_xy hP, ofXY_xy hQ]
    have hne : ¬ (c.1 ≠ d.1 ∧ (c.1 - d.1) % Secp256k1.p = 0) := by
      rintro ⟨hne, hmod⟩
      cases P with
      | zero        => cases hP
      | some x y hn =>
        cases Q with
        | zero          => cases hQ
        | some x' y' hn' =>
          cases hP
          cases hQ
          exact hne (by rw [val_eq_of_emod hmod])
    simp only [if_neg hne]
    rfl

end Dpid
