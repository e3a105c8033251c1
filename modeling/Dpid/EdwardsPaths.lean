import Dpid.BasepointTable
import Dpid.PippengerMul
/-!
# EdwardsPaths — the ways to the same bytes (`curve25519-dalek`: `edwards.rs`, `backend/serial/scalar_mul`)

What a point is kept as is not unique, its bytes are.  So two ways to a multiple agree where their points have the same
bytes: the tables of a basepoint, the methods for many points and the plain multiplication do.
-/
namespace Dpid
namespace Curve25519

open Checked Places

variable {P Q : ed25519.Point} {p q : EdwardsPoint}

/-! ## The basepoint -/

/-- `ED25519_BASEPOINT_COMPRESSED`. -/
def ed25519BasepointCompressed : Bytes32 := (Vector.replicate 32 0x66).set 0 0x58 first_lt

/-- `ED25519_BASEPOINT_POINT`. -/
def ed25519BasepointPoint : EdwardsPoint where
  X := ⟨1738742601995546, 1146398526822698, 2070867633025821, 562264141797630, 587772402128613⟩
  Y := ⟨1801439850948184, 1351079888211148, 450359962737049, 900719925474099, 1801439850948198⟩
  Z := ⟨1, 0, 0, 0, 0⟩
  T := ⟨1841354044333475, 16398895984059, 755974180946558, 900171276175154, 1821297809914039⟩

/-- **The constant is a point of the curve**: it is what its bytes are read as. -/
theorem ed25519BasepointPoint_of : ∃ B, ed25519BasepointPoint.Of B := by
  have hread : EdwardsPoint.decompress ed25519BasepointCompressed = some (some ed25519BasepointPoint) := by decide +kernel
  obtain ⟨r, hr, hof⟩ := EdwardsPoint.decompress_returns ed25519BasepointCompressed
  obtain rfl := Option.some.inj (hread.symm.trans hr)
  obtain ⟨B, hB, -⟩ := hof
  exact ⟨B, hB⟩

/-- A scalar of 255 bits. -/
def longScalar : Scalar := ⟨Vector.replicate 32 0x5b⟩

/-! ## Bytes -/

namespace EdwardsPoint

theorem compress_same (hp : p.Of P) (hq : q.Of P) : p.compress = q.compress := by
  obtain ⟨b, hb, hbval⟩ := compress_returns hp
  obtain ⟨c, hc, hcval⟩ := compress_returns hq
  rw [hb, hc, FieldElement51.toBytes_injective (hbval.trans hcval.symm)]

/-- Two ways to a point. -/
theorem bind_compress_same {m n : Option EdwardsPoint} (hm : Returns m (Of P)) (hn : Returns n (Of P)) :
    ∃ b, m.bind compress = some b ∧ n.bind compress = some b := by
  obtain ⟨p, rfl, hp⟩ := hm
  obtain ⟨q, rfl, hq⟩ := hn
  obtain ⟨b, hb, -⟩ := compress_returns hp
  exact ⟨b, hb, (compress_same hq hp).trans hb⟩

theorem decompress_of_wireVal {b : Bytes32} (hb : LittleEndian.leVal b.toList = wireVal P) :
    Returns (decompress b) (fun r => ∃ q, r = some q ∧ q.Of P) := by
  refine (decompress_returns b).mono (fun r hr => ?_)
  match r with
  | none   => exact absurd ((received_iff hb).2 rfl).y (hr P)
  | some q =>
    obtain ⟨P', hq, hrec⟩ := hr
    obtain rfl := (received_iff hb).1 hrec
    exact ⟨q, rfl, hq⟩

/-- **The bytes tell the points apart, and are read back**: two points are equal exactly where their bytes are, and from
its bytes comes a point that is equal and has these bytes. -/
theorem compress_faithful (hp : p.Of P) (hq : q.Of Q) : ∃ b c p', p.compress = some b ∧ q.compress = some c ∧
    p.equal q = some (decide (b = c)) ∧ decompress b = some (some p') ∧ p'.equal p = some true ∧ p'.compress = some b := by
  obtain ⟨b, hb, hbval⟩ := compress_returns hp
  obtain ⟨c, hc, hcval⟩ := compress_returns hq
  obtain ⟨e, he, heq⟩ := equal_returns hp hq
  obtain ⟨r, hr, p', rfl, hp'⟩ := decompress_of_wireVal hbval
  obtain ⟨e', he', heq'⟩ := equal_returns hp' hp
  have hbc : P = Q ↔ b = c := by
    constructor
    · rintro rfl
      exact FieldElement51.toBytes_injective (hbval.trans hcval.symm)
    · rintro rfl
      exact wireVal_injective (hbval.symm.trans hcval)
  refine ⟨b, c, p', hb, hc, ?_, hr, ?_, (compress_same hp' hp).trans hb⟩
  · rw [he, Bool.eq_iff_iff.2 ((heq.trans hbc).trans decide_eq_true_iff.symm)]
  · rw [he', heq'.2 rfl]

/-- Two points that are not equal. -/
theorem compress_faithful_basepoint : ∃ b c p', ed25519BasepointPoint.compress = some b ∧ identity.compress = some c ∧
    ed25519BasepointPoint.equal identity = some (decide (b = c)) ∧ decompress b = some (some p') ∧
      p'.equal ed25519BasepointPoint = some true ∧ p'.compress = some b := by
  obtain ⟨_, hB⟩ := ed25519BasepointPoint_of
  exact compress_faithful hB identity_of

end EdwardsPoint

/-! ## Tables of a basepoint -/

open EdwardsPoint (compress bind_compress_same)

/-- **Every radix gives the multiple** that the ladder gives, over tables just made. -/
theorem basepointMul_eq_variableBaseMul (hp : p.Of P) {scalar : Scalar} (hs : scalar.val < 2 ^ 255) {radix : Nat}
    (h₄ : 4 ≤ radix) (h₈ : radix ≤ 8) :
    ∃ b, (do
      let tables ← create radix p
      let additions ← Scalar.toRadix2wSizeHint radix
      basepointMul radix additions tables scalar).bind compress = some b ∧
        (variableBaseMul p scalar).bind compress = some b := by
  obtain ⟨tables, ht, htables⟩ := create_returns (Nat.le_trans (by decide) h₄) hp
  obtain ⟨additions, hadd, -, -⟩ := Scalar.toRadix2w_returns hs h₄ h₈
  have hmul := basepointMul_returns h₄ h₈ htables hadd hs
  rw [ht, hadd]
  exact bind_compress_same hmul (variableBaseMul_returns hp hs)

theorem basepointMul_eq_variableBaseMul_eight :
    ∃ b, (do
      let tables ← create 8 ed25519BasepointPoint
      let additions ← Scalar.toRadix2wSizeHint 8
      basepointMul 8 additions tables longScalar).bind compress = some b ∧
        (variableBaseMul ed25519BasepointPoint longScalar).bind compress = some b := by
  obtain ⟨_, hB⟩ := ed25519BasepointPoint_of
  exact basepointMul_eq_variableBaseMul hB (by decide) (by decide) (by decide)

/-! ## Many points -/

variable {scalars : List Scalar} {points : List EdwardsPoint} {Ps : List ed25519.Point}

/-- **The method does not show**: for any number of points, the one by windows or by buckets gives the sum that the
constant-time one gives; and where the lengths differ, all panic. -/
theorem optionalMultiscalarMul_eq_multiscalarMul (hs : ∀ s ∈ scalars, Scalar.val s < 2 ^ 255)
    (hp : List.Forall₂ (fun P p => EdwardsPoint.Of P p) Ps points) :
    (scalars.length = points.length →
      ∃ b, (optionalMultiscalarMul scalars (points.map some)).bind (fun r => r.bind compress) = some b ∧
        (multiscalarMul scalars points).bind compress = some b) ∧
    (scalars.length ≠ points.length →
      optionalMultiscalarMul scalars (points.map some) = none ∧ multiscalarMul scalars points = none) := by
  constructor
  · intro hlen
    obtain ⟨r, hr, q, rfl, hq⟩ := optionalMultiscalarMul_returns hs hp hlen
    rw [hr, multiscalarMul_eq hlen]
    exact bind_compress_same (Returns.ret hq) (strausMul_returns hs hp)
  · intro hlen
    exact ⟨optionalMultiscalarMul_panics (by rwa [List.length_map]), multiscalarMul_panics hlen⟩

theorem optionalMultiscalarMul_eq_multiscalarMul_two :
    (∃ b, (optionalMultiscalarMul [longScalar, Scalar.one] ([ed25519BasepointPoint, ed25519BasepointPoint].map some)).bind
        (fun r => r.bind compress) = some b ∧
      (multiscalarMul [longScalar, Scalar.one] [ed25519BasepointPoint, ed25519BasepointPoint]).bind compress = some b) ∧
    optionalMultiscalarMul [longScalar] ([ed25519BasepointPoint, ed25519BasepointPoint].map some) = none ∧
      multiscalarMul [longScalar] [ed25519BasepointPoint, ed25519BasepointPoint] = none := by
  obtain ⟨_, hB⟩ := ed25519BasepointPoint_of
  have hpoints := List.Forall₂.cons hB (List.Forall₂.cons hB List.Forall₂.nil)
  exact ⟨(optionalMultiscalarMul_eq_multiscalarMul (by decide) hpoints).1 rfl,
    (optionalMultiscalarMul_eq_multiscalarMul (by decide) hpoints).2 (by decide)⟩

/-- **A missing point is no panic**, whichever method is taken. -/
theorem optionalMultiscalarMul_missing {points : List (Option EdwardsPoint)} (hs : ∀ s ∈ scalars, Scalar.val s < 2 ^ 255)
    (hof : ∀ p, some p ∈ points → ∃ P, EdwardsPoint.Of P p) (hlen : scalars.length = points.length) (h : none ∈ points) :
    optionalMultiscalarMul scalars points = some none := by
  rw [optionalMultiscalarMul_eq hlen]
  split
  · obtain ⟨r, hr, rfl⟩ := strausVartimeMul_none hs h
    exact hr
  · obtain ⟨r, hr, rfl⟩ := pippengerMul_none hs hof hlen h
    exact hr

theorem optionalMultiscalarMul_missing_two :
    optionalMultiscalarMul [longScalar, Scalar.one] [some ed25519BasepointPoint, none] = some none := by
  refine optionalMultiscalarMul_missing (by decide) (fun p hp => ?_) rfl (by decide)
  obtain rfl : p = ed25519BasepointPoint := by simpa using hp
  exact ed25519BasepointPoint_of

/-! ## Points known before -/

theorem precomputedStraus_returns (hp : List.Forall₂ (fun P p => EdwardsPoint.Of P p) Ps points) :
    Returns (precomputedStraus points) (List.Forall₂ (OddMultiples 64) Ps) := by
  have htable : ∀ (P : ed25519.Point) (p : EdwardsPoint), p.Of P →
      Returns (nafLookupTable 64 p : Option (List AffineNielsPoint)) (OddMultiples 64 P) := fun P p h =>
    nafLookupTable_returns h (by decide)
  exact Returns.mapM_forall₂ htable hp

theorem dot_append {scalars' : List Scalar} {Qs : List ed25519.Point} (hlen : scalars.length = Ps.length) :
    dot (scalars ++ scalars') (Ps ++ Qs) = dot scalars Ps + dot scalars' Qs := by
  rw [dot, List.zip_append hlen, List.map_append, List.sum_append]
  rfl

/-- **Precomputed tables do not show**: the sum is that of all points at once. -/
theorem mixedMul_eq_multiscalarMul {staticScalars dynamicScalars : List Scalar} {staticPoints dynamicPoints : List EdwardsPoint}
    {Ps Qs : List ed25519.Point} (hstatic : List.Forall₂ (fun P p => EdwardsPoint.Of P p) Ps staticPoints)
    (hdynamic : List.Forall₂ (fun P p => EdwardsPoint.Of P p) Qs dynamicPoints)
    (hs : ∀ s ∈ staticScalars, Scalar.val s < 2 ^ 255) (hd : ∀ s ∈ dynamicScalars, Scalar.val s < 2 ^ 255)
    (hslen : staticScalars.length = staticPoints.length) (hdlen : dynamicScalars.length = dynamicPoints.length) :
    ∃ b, (do
      let tables ← precomputedStraus staticPoints
      mixedMul tables staticScalars dynamicScalars (dynamicPoints.map some)).bind (fun r => r.bind compress) = some b ∧
        (multiscalarMul (staticScalars ++ dynamicScalars) (staticPoints ++ dynamicPoints)).bind compress = some b := by
  have hPs : Ps.length = staticScalars.length := hstatic.length_eq.trans hslen.symm
  obtain ⟨tables, ht, htables⟩ := precomputedStraus_returns hstatic
  obtain ⟨r, hr, q, rfl, hq⟩ := mixedMul_returns htables hdynamic hs hd hPs (hdynamic.length_eq.trans hdlen.symm)
  have hall : ∀ s ∈ staticScalars ++ dynamicScalars, Scalar.val s < 2 ^ 255 := by
    intro s hmem
    rcases List.mem_append.1 hmem with hmem | hmem
    · exact hs s hmem
    · exact hd s hmem
  have hstraus := strausMul_returns hall (List.rel_append hstatic hdynamic)
  rw [dot_append hPs.symm] at hstraus
  have hlen : (staticScalars ++ dynamicScalars).length = (staticPoints ++ dynamicPoints).length := by
    rw [List.length_append, List.length_append, hslen, hdlen]
  rw [ht, multiscalarMul_eq hlen]
  dsimp only [Option.bind_eq_bind, Option.bind_some]
  rw [hr]
  exact bind_compress_same (Returns.ret hq) hstraus

theorem mixedMul_eq_multiscalarMul_two :
    ∃ b, (do
      let tables ← precomputedStraus [ed25519BasepointPoint]
      mixedMul tables [longScalar] [Scalar.one] ([ed25519BasepointPoint].map some)).bind (fun r => r.bind compress) = some b ∧
        (multiscalarMul ([longScalar] ++ [Scalar.one]) ([ed25519BasepointPoint] ++ [ed25519BasepointPoint])).bind compress =
          some b := by
  obtain ⟨_, hB⟩ := ed25519BasepointPoint_of
  have hpoints := List.Forall₂.cons hB List.Forall₂.nil
  exact mixedMul_eq_multiscalarMul hpoints hpoints (by decide) (by decide) rfl rfl

/-- **Two points, one of them known before**: the double multiplication gives the sum of the two products. -/
theorem vartimeDoubleBaseMul_eq_plus {a b : Scalar} (hp : p.Of P) (hq : q.Of Q) (ha : a.val < 2 ^ 255) (hb : b.val < 2 ^ 255) :
    ∃ c, (do
      let tableB ← nafLookupTable 64 q
      vartimeDoubleBaseMul tableB a p b).bind compress = some c ∧
      (do
        let x ← variableBaseMul p a
        let y ← variableBaseMul q b
        x.plus y).bind compress = some c := by
  obtain ⟨tableB, ht, htable⟩ : Returns (nafLookupTable 64 q : Option (List AffineNielsPoint)) (OddMultiples 64 Q) :=
    nafLookupTable_returns hq (by decide)
  have hmul := vartimeDoubleBaseMul_returns htable ha hp hb
  obtain ⟨x, hx, hxP⟩ := variableBaseMul_returns hp ha
  obtain ⟨y, hy, hyQ⟩ := variableBaseMul_returns hq hb
  rw [ht, hx, hy]
  exact bind_compress_same hmul (EdwardsPoint.plus_returns hxP hyQ)

theorem vartimeDoubleBaseMul_eq_plus_basepoint :
    ∃ c, (do
      let tableB ← nafLookupTable 64 ed25519BasepointPoint
      vartimeDoubleBaseMul tableB longScalar ed25519BasepointPoint Scalar.one).bind compress = some c ∧
      (do
        let x ← variableBaseMul ed25519BasepointPoint longScalar
        let y ← variableBaseMul ed25519BasepointPoint Scalar.one
        x.plus y).bind compress = some c := by
  obtain ⟨_, hB⟩ := ed25519BasepointPoint_of
  exact vartimeDoubleBaseMul_eq_plus hB hB (by decide) (by decide)

end Curve25519
end Dpid
