import Dpid.PippengerMul
import Dpid.RistrettoBatch
import Dpid.RistrettoHash
import Mathlib.GroupTheory.QuotientGroup.Defs
/-!
# RistrettoGroup — what a Ristretto point stands for

The even points of the curve, taken up to the points of order four, are a group.  A Ristretto point stands for an element
of it (`Stands`), the operations are those of the group, and every element has one encoding.
-/
namespace Dpid
namespace Curve25519

open Checked Edwards LittleEndian
open FieldElement51 (Rep)

/-! ## The functions -/

namespace RistrettoPoint

/-- `&RistrettoPoint * &Scalar`. -/
def mul (p : RistrettoPoint) (scalar : Scalar) : Option RistrettoPoint := do return ⟨← variableBaseMul p.edwards scalar⟩

/-- `RistrettoPoint::vartime_multiscalar_mul`. -/
def vartimeMultiscalarMul (scalars : List Scalar) (points : List RistrettoPoint) : Option RistrettoPoint := do
  let r ← optionalMultiscalarMul scalars (points.map fun p => some p.edwards)
  -- `unwrap`
  let q ← r
  return ⟨q⟩

end RistrettoPoint

/-! ## The group -/

/-- The even points. -/
def evenPoints : AddSubgroup ed25519.Point where
  carrier := { P | IsEven P }
  add_mem' := RistrettoPoint.isEven_add_ed25519
  zero_mem' := isEven_zero
  neg_mem' := isEven_neg

/-- Those of order four. -/
def fourTorsion : AddSubgroup evenPoints := (nsmulAddMonoidHom 4).ker

instance fourTorsion_normal : fourTorsion.Normal := fourTorsion.normal_of_isAddCommutative

/-- **The group**: a coset of the points of order four is an element. -/
abbrev RistrettoGroup := evenPoints ⧸ fourTorsion

/-- The coset. -/
def coset : evenPoints →+ RistrettoGroup := QuotientAddGroup.mk' fourTorsion

theorem coset_eq_iff {P Q : evenPoints} : coset P = coset Q ↔ 4 • ((P : ed25519.Point) - Q) = 0 := by
  have hsub : (4 • (P - Q) : evenPoints) = 0 ↔ 4 • ((P : ed25519.Point) - Q) = 0 := by
    rw [← AddSubgroup.coe_sub, ← AddSubgroup.coe_nsmul, ZeroMemClass.coe_eq_zero]
  rw [← sub_eq_zero, ← map_sub, coset, QuotientAddGroup.mk'_apply, QuotientAddGroup.eq_zero_iff, ← hsub]
  exact AddMonoidHom.mem_ker

theorem coset_surjective : Function.Surjective coset := QuotientAddGroup.mk'_surjective fourTorsion

namespace RistrettoPoint

variable {g h : RistrettoGroup} {p q : RistrettoPoint}

/-- **The point stands for the element.** -/
def Stands (g : RistrettoGroup) (p : RistrettoPoint) : Prop := ∃ P : evenPoints, p.Of P ∧ coset P = g

/-- **The bytes are the encoding of the element.** -/
def Encoding (g : RistrettoGroup) (bytes : CompressedRistretto) : Prop := ∃ P : evenPoints, Received bytes P ∧ coset P = g

theorem Of.stands {P : ed25519.Point} (h : p.Of P) : p.Stands (coset ⟨P, h.even⟩) := ⟨⟨P, h.even⟩, h, rfl⟩

theorem identity_stands : identity.Stands 0 := ⟨0, identity_of, map_zero coset⟩

theorem plus_stands (hp : p.Stands g) (hq : q.Stands h) : Returns (p.plus q) (Stands (g + h)) := by
  obtain ⟨P, hP, rfl⟩ := hp
  obtain ⟨Q, hQ, rfl⟩ := hq
  exact (plus_returns hP hQ).mono (fun _ hr => ⟨P + Q, hr, map_add coset P Q⟩)

theorem minus_stands (hp : p.Stands g) (hq : q.Stands h) : Returns (p.minus q) (Stands (g - h)) := by
  obtain ⟨P, hP, rfl⟩ := hp
  obtain ⟨Q, hQ, rfl⟩ := hq
  exact (minus_returns hP hQ).mono (fun _ hr => ⟨P - Q, hr, map_sub coset P Q⟩)

theorem neg_stands (hp : p.Stands g) : Returns p.neg (Stands (-g)) := by
  obtain ⟨P, hP, rfl⟩ := hp
  exact (neg_returns hP).mono (fun _ hr => ⟨-P, hr, map_neg coset P⟩)

theorem mul_stands {scalar : Scalar} (hp : p.Stands g) (hs : scalar.val < 2 ^ 255) :
    Returns (p.mul scalar) (Stands (scalar.val • g)) := by
  obtain ⟨P, hP, rfl⟩ := hp
  refine (variableBaseMul_returns hP.point hs).bind (fun r hr => Returns.ret ?_)
  exact ⟨scalar.val • P, ⟨hr, (scalar.val • P).2⟩, map_nsmul coset _ P⟩

theorem fromUniformBytes_stands (bytes : Vector UInt8 64) : Returns (fromUniformBytes bytes) (fun p => ∃ g, p.Stands g) :=
  (fromUniformBytes_returns bytes).mono (fun _ ⟨_, hP⟩ => ⟨_, hP.stands⟩)

/-! ## Encodings -/

theorem equal_stands (hp : p.Stands g) (hq : q.Stands h) : Returns (p.equal q) (fun b => b = true ↔ g = h) := by
  obtain ⟨P, hP, rfl⟩ := hp
  obtain ⟨Q, hQ, rfl⟩ := hq
  rw [coset_eq_iff]
  exact equal_returns hP.point hQ.point

theorem Encoding.eq_iff {b c : CompressedRistretto} (hg : Encoding g b) (hh : Encoding h c) : g = h ↔ b = c := by
  obtain ⟨P, hP, rfl⟩ := hg
  obtain ⟨Q, hQ, rfl⟩ := hh
  rw [coset_eq_iff]
  exact received_coset hP hQ

theorem received_even {bytes : CompressedRistretto} {P : ed25519.Point} (h : Received bytes P) : IsEven P := by
  obtain ⟨s, -, henc⟩ := h
  exact henc.isEven ed25519_a sqrtAMinusD_sq sqrtAMinusD_ne_zero

/-- A coset that differs from the point's by nothing. -/
theorem encoding_of_received {P : evenPoints} {Q : ed25519.Point} {bytes : CompressedRistretto}
    (hcoset : 4 • ((P : ed25519.Point) - Q) = 0) (hQ : Received bytes Q) : Encoding (coset P) bytes := by
  have heven : Q ∈ evenPoints := received_even hQ
  have heq : coset P = coset ⟨Q, heven⟩ := coset_eq_iff.2 hcoset
  rw [heq]
  exact ⟨⟨Q, heven⟩, hQ, rfl⟩

theorem compress_stands (hp : p.Stands g) : Returns p.compress (Encoding g) := by
  obtain ⟨P, hP, rfl⟩ := hp
  refine (compress_returns hP).mono (fun b hb => ?_)
  obtain ⟨Q, hcoset, hQ⟩ := hb
  exact encoding_of_received hcoset hQ

theorem decompress_stands (bytes : CompressedRistretto) : Returns (decompress bytes) (fun r =>
    match r with
    | none   => ∀ g, ¬ Encoding g bytes
    | some p => ∃ g, p.Stands g ∧ Encoding g bytes) := by
  refine (decompress_returns bytes).mono (fun r hr => ?_)
  match r with
  | none   =>
    rintro g ⟨P, hP, -⟩
    exact hr P hP
  | some p =>
    obtain ⟨P, hP, hrec⟩ := hr
    exact ⟨_, hP.stands, ⟨P, hP.even⟩, hrec, rfl⟩

/-! ## Every element -/

theorem exists_of (P : evenPoints) : ∃ p : RistrettoPoint, p.Of P := by
  obtain ⟨x, hx⟩ := FieldElement51.exists_rep (P : ed25519.Point).x
  obtain ⟨y, hy⟩ := FieldElement51.exists_rep (P : ed25519.Point).y
  obtain ⟨t, ht⟩ := FieldElement51.exists_rep ((P : ed25519.Point).x * (P : ed25519.Point).y)
  refine ⟨⟨⟨x, y, FieldElement51.one, t⟩⟩, ⟨_, _, 1, _, ⟨⟨one_ne_zero, ?_, ?_⟩, ?_⟩, hx.mono (by decide), hy.mono (by decide),
    one_of, ht.mono (by decide)⟩, P.2⟩
  · exact (mul_one _).symm
  · exact (mul_one _).symm
  · exact (mul_one _).symm

theorem exists_stands (g : RistrettoGroup) : ∃ p : RistrettoPoint, p.Stands g := by
  obtain ⟨P, rfl⟩ := coset_surjective g
  obtain ⟨p, hp⟩ := exists_of P
  exact ⟨p, P, hp, rfl⟩

theorem exists_encoding (g : RistrettoGroup) : ∃ b, Encoding g b := by
  obtain ⟨p, hp⟩ := exists_stands g
  obtain ⟨b, -, hb⟩ := compress_stands hp
  exact ⟨b, hb⟩

/-! ## Sums and batches -/

theorem exists_points {gs : List RistrettoGroup} {points : List RistrettoPoint}
    (h : List.Forall₂ (fun g p => Stands g p) gs points) :
    ∃ Ps : List evenPoints, List.Forall₂ (fun P p => Of P p) (Ps.map Subtype.val) points ∧ Ps.map coset = gs := by
  induction h with
  | nil => exact ⟨[], List.Forall₂.nil, rfl⟩
  | cons hp _ ih =>
    obtain ⟨P, hP, rfl⟩ := hp
    obtain ⟨Ps, hall, rfl⟩ := ih
    exact ⟨P :: Ps, List.Forall₂.cons hP hall, rfl⟩

/-- `dot`, in any group. -/
def combination {A : Type} [AddCommMonoid A] (scalars : List Scalar) (xs : List A) : A :=
  ((scalars.zip xs).map fun sx => sx.1.val • sx.2).sum

theorem map_combination {A B : Type} [AddCommMonoid A] [AddCommMonoid B] (f : A →+ B) : ∀ (scalars : List Scalar) (xs : List A),
    f (combination scalars xs) = combination scalars (xs.map f)
  | [], xs               => by simp [combination]
  | _ :: _, []           => by simp [combination]
  | s :: scalars, x :: l => by
    have ih := map_combination f scalars l
    simp only [combination, List.zip_cons_cons, List.map_cons, List.sum_cons, map_add, map_nsmul] at ih ⊢
    rw [ih]

theorem vartimeMultiscalarMul_stands {scalars : List Scalar} {points : List RistrettoPoint} {gs : List RistrettoGroup}
    (hs : ∀ s ∈ scalars, Scalar.val s < 2 ^ 255) (hp : List.Forall₂ (fun g p => Stands g p) gs points)
    (hlen : scalars.length = points.length) :
    Returns (vartimeMultiscalarMul scalars points) (Stands (combination scalars gs)) := by
  obtain ⟨Ps, hall, rfl⟩ := exists_points hp
  have hedwards : List.Forall₂ (fun P p => EdwardsPoint.Of P p) (Ps.map Subtype.val) (points.map RistrettoPoint.edwards) := by
    rw [List.forall₂_map_right_iff]
    exact hall.imp (fun _ _ h => h.point)
  have hsum : dot scalars (Ps.map Subtype.val) = (combination scalars Ps : evenPoints) := by
    exact (map_combination evenPoints.subtype scalars Ps).symm
  have hmul := optionalMultiscalarMul_returns hs hedwards (by rwa [List.length_map])
  rw [List.map_map, hsum] at hmul
  refine hmul.bind (fun r hr => ?_)
  obtain ⟨q, rfl, hq⟩ := hr
  exact Returns.ret ⟨combination scalars Ps, ⟨hq, (combination scalars Ps).2⟩, map_combination coset scalars Ps⟩

theorem identity_iff {P : evenPoints} : coset P = 0 ↔ 4 • (P : ed25519.Point) = 0 := by
  rw [← map_zero coset, coset_eq_iff, ZeroMemClass.coe_zero, sub_zero]

theorem doubleAndCompressBatch_stands {gs : List RistrettoGroup} {points : List RistrettoPoint}
    (h : List.Forall₂ (fun g p => Stands g p) gs points) (hne : (0 : RistrettoGroup) ∉ gs) :
    Returns (doubleAndCompressBatch points) (List.Forall₂ (fun g b => Encoding (g + g) b) gs) := by
  obtain ⟨Ps, hall, rfl⟩ := exists_points h
  have hne4 : ∀ P ∈ Ps.map Subtype.val, 4 • P ≠ 0 := by
    intro P hP h4
    obtain ⟨Q, hQ, rfl⟩ := List.mem_map.1 hP
    exact hne (List.mem_map.2 ⟨Q, hQ, identity_iff.2 h4⟩)
  refine (doubleAndCompressBatch_returns hall hne4).mono (fun bs hbs => ?_)
  rw [List.forall₂_map_left_iff] at hbs ⊢
  refine hbs.imp (fun P b hb => ?_)
  obtain ⟨Q, hcoset, hQ⟩ := hb
  rw [← map_add]
  exact encoding_of_received hcoset hQ

theorem doubleAndCompressBatch_stands_none {gs : List RistrettoGroup} {points : List RistrettoPoint}
    (h : List.Forall₂ (fun g p => Stands g p) gs points) (h0 : (0 : RistrettoGroup) ∈ gs) : doubleAndCompressBatch points = none := by
  obtain ⟨Ps, hall, rfl⟩ := exists_points h
  obtain ⟨P, hP, hzero⟩ := List.mem_map.1 h0
  exact doubleAndCompressBatch_none hall (List.mem_map.2 ⟨P, hP, rfl⟩) (identity_iff.1 hzero)

/-! ## The basepoint -/

/-- `RISTRETTO_BASEPOINT_COMPRESSED`. -/
def ristrettoBasepointCompressed : CompressedRistretto := #v[
    0xe2, 0xf2, 0xae, 0x0a, 0x6a, 0xbc, 0x4e, 0x71, 0xa8, 0x84, 0xa9, 0x61, 0xc5, 0x00, 0x51, 0x5f,
    0x58, 0xe3, 0x0b, 0x6a, 0xa5, 0x82, 0xdd, 0x8d, 0xb6, 0xa6, 0x59, 0x45, 0xe0, 0x8d, 0x2d, 0x76]

/-- What its bytes are read as. -/
def basepoint : RistrettoPoint where
  edwards :=
    { X := ⟨426475514619346, 2063872706840040, 14628272888959, 107677749330612, 288339085807592⟩
      Y := ⟨1934594822876571, 2049809580636559, 1991994783322914, 1758681962032007, 380046701118659⟩
      Z := ⟨1, 0, 0, 0, 0⟩
      T := ⟨410445769351754, 2235400917701188, 1495825632738689, 1351628537510093, 430502003771208⟩ }

theorem basepoint_stands : ∃ g, basepoint.Stands g ∧ Encoding g ristrettoBasepointCompressed := by
  have hread : decompress ristrettoBasepointCompressed = some (some basepoint) := by decide +kernel
  obtain ⟨r, hr, hof⟩ := decompress_stands ristrettoBasepointCompressed
  obtain rfl := Option.some.inj (hread.symm.trans hr)
  exact hof

end RistrettoPoint

end Curve25519
end Dpid
