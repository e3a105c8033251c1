import Dpid.PpTable
import Dpid.Sha256
import Mathlib.Tactic.FieldSimp
import Mathlib.Tactic.LinearCombination
import Mathlib.Tactic.Ring
/-!
# BatchNorm — normalizing a list of points at once (`pairing/src/lib.rs`, `pairing/src/bls12_381/ec.rs`)

A point of `G1` has Jacobian coordinates over the base field; `z = 0` is the point at infinity.  The batch inverts the
product of the `z` that are neither zero nor one, and takes their inverses out of it from the last to the first.
-/
namespace Dpid
namespace Pairing

/-! ## Points -/

/-- `G1`: the point `(x / z^2, y / z^3)`. -/
structure G1 (K : Type) where
  x : K
  y : K
  z : K

structure G1Affine (K : Type) where
  x : K
  y : K
  infinity : Bool

section

variable {K : Type} [Field K] [DecidableEq K]

/-- `inverse()` of the field. -/
def inverse (x : K) : Option K := if x = 0 then none else some x⁻¹

def G1.isZero (p : G1 K) : Bool := decide (p.z = 0)

def G1.isNormalized (p : G1 K) : Bool := p.isZero || decide (p.z = 1)

/-- `PartialEq`. -/
def G1.eq (p q : G1 K) : Bool :=
  if p.isZero then q.isZero
  else if q.isZero then false
  else
    let z1 := p.z * p.z
    let z2 := q.z * q.z
    let tmp1 := p.x * z2
    let tmp2 := q.x * z1
    if tmp1 ≠ tmp2 then false
    else
      let z1 := z1 * p.z
      let z2 := z2 * q.z
      let z2 := z2 * p.y
      let z1 := z1 * q.y
      decide (z1 = z2)

def G1Affine.zero : G1Affine K := ⟨0, 1, true⟩

/-- `into_affine`; `none` is a panic. -/
def G1.intoAffine (p : G1 K) : Option (G1Affine K) :=
  if p.isZero then some G1Affine.zero
  else if p.z = 1 then some ⟨p.x, p.y, false⟩
  else do
    let zinv ← inverse p.z
    let zinvPowered := zinv * zinv
    let x := p.x * zinvPowered
    let zinvPowered := zinvPowered * zinv
    let y := p.y * zinvPowered
    return ⟨x, y, false⟩

/-! ## The three passes -/

/-- The first pass: `tmp` and `prod`. -/
def firstPass (v : List (G1 K)) : K × List K :=
  v.foldl (fun s g => if g.isNormalized then s else (s.1 * g.z, s.2 ++ [s.1 * g.z])) (1, [])

/-- The second pass, over the points from the last to the first and the products `ss`: the `z` become inverses. -/
def secondPass : List (G1 K) → List K → K → List (G1 K)
  | [], _, _        => []
  | g :: v, ss, tmp =>
    if g.isNormalized then g :: secondPass v ss tmp
    else match ss with
      -- the shorter one ends the zip
      | []      => g :: v
      | s :: ss =>
        let newtmp := tmp * g.z
        { g with z := tmp * s } :: secondPass v ss newtmp

/-- The third pass, at a point with `1 / z` in the place of `z`. -/
def thirdPass (g : G1 K) : G1 K :=
  if g.isNormalized then g
  else
    let z := g.z * g.z
    let x := g.x * z
    let z := z * g.z
    let y := g.y * z
    ⟨x, y, 1⟩

def pyg1BatchNormalization (v : List (G1 K)) : Option (List (G1 K)) := do
  let (tmp, prod) := firstPass v
  let tmp ← inverse tmp
  let v := (secondPass v.reverse (prod.reverse.drop 1 ++ [1]) tmp).reverse
  return v.map thirdPass

/-! ## The texts -/

/-- `hex::encode`. -/
def hexEncode (b : Bytes) : List Char := b.flatMap (fun x => [hexDigit (x.toNat / 16), hexDigit (x.toNat % 16)])

variable (fqRepr : K → List UInt64)

/-- The bytes `hasher.input` takes for a point: `FqRepr::from` of its affine `x`, each limb big-endian. -/
def hashInput (point : G1 K) : Option Bytes := do
  let p ← point.intoAffine
  return (fqRepr p.x).flatMap (fun num => Sha256.bigEndian 8 num.toNat)

def hashg1s (a : List (G1 K)) : Option (List Char) := do
  let inputs ← a.mapM (hashInput fqRepr)
  return hexEncode (Sha256.digest inputs.flatten)

def hashg1sbn (a : List (G1 K)) : Option (List Char) := do
  let a ← pyg1BatchNormalization a
  let inputs ← a.mapM (hashInput fqRepr)
  return hexEncode (Sha256.digest inputs.flatten)

/-! ## What the passes leave -/

/-- The point with its coordinates divided out. -/
def G1.normalize (g : G1 K) : G1 K := if g.isNormalized then g else ⟨g.x * g.z⁻¹ ^ 2, g.y * g.z⁻¹ ^ 3, 1⟩

/-- The point between the second pass and the third. -/
def G1.inverted (g : G1 K) : G1 K := if g.isNormalized then g else { g with z := g.z⁻¹ }

theorem isNormalized_iff (g : G1 K) : g.isNormalized = true ↔ g.z = 0 ∨ g.z = 1 := by
  simp [G1.isNormalized, G1.isZero]

theorem not_isNormalized {g : G1 K} (h : g.isNormalized = false) : g.z ≠ 0 ∧ g.z ≠ 1 := by
  have h' := mt (isNormalized_iff g).2 (by rw [h]; decide)
  rwa [not_or] at h'

theorem firstPass_concat (v : List (G1 K)) (g : G1 K) : firstPass (v ++ [g]) =
    if g.isNormalized then firstPass v else ((firstPass v).1 * g.z, (firstPass v).2 ++ [(firstPass v).1 * g.z]) := by
  rw [firstPass, List.foldl_append]
  rfl

theorem firstPass_ne_zero (v : List (G1 K)) : (firstPass v).1 ≠ 0 := by
  induction v using List.reverseRecOn with
  | nil                     => exact one_ne_zero
  | append_singleton v g ih =>
    rw [firstPass_concat]
    cases hg : g.isNormalized with
    | true  => exact ih
    | false => exact mul_ne_zero ih (not_isNormalized hg).1

/-- The products with the one below them, the last first. -/
def shifted (v : List (G1 K)) : List K := (firstPass v).2.reverse ++ [1]

theorem shifted_eq (v : List (G1 K)) : shifted v = (firstPass v).1 :: (shifted v).tail := by
  induction v using List.reverseRecOn with
  | nil                     => rfl
  | append_singleton v g ih =>
    rw [shifted, firstPass_concat]
    cases hg : g.isNormalized with
    | true  => exact ih
    | false => simp

theorem secondPass_skip {g : G1 K} (h : g.isNormalized = true) (v : List (G1 K)) (ss : List K) (tmp : K) :
    secondPass (g :: v) ss tmp = g :: secondPass v ss tmp := by
  cases ss <;> simp [secondPass, h]

theorem secondPass_invert {g : G1 K} (h : g.isNormalized = false) (v : List (G1 K)) (s : K) (ss : List K) (tmp : K) :
    secondPass (g :: v) (s :: ss) tmp = { g with z := tmp * s } :: secondPass v ss (tmp * g.z) := by
  simp [secondPass, h]

/-- **The second pass inverts**: each `z` from the product up to it and the one before. -/
theorem secondPass_eq (v : List (G1 K)) :
    secondPass v.reverse (shifted v).tail (firstPass v).1⁻¹ = (v.map G1.inverted).reverse := by
  induction v using List.reverseRecOn with
  | nil                     => rfl
  | append_singleton v g ih =>
    rw [List.reverse_append, List.reverse_singleton, List.singleton_append, List.map_append, List.reverse_append,
      List.map_singleton, List.reverse_singleton, List.singleton_append]
    cases hg : g.isNormalized with
    | true =>
      have hsame : firstPass (v ++ [g]) = firstPass v := by rw [firstPass_concat, hg]; rfl
      rw [secondPass_skip hg, shifted, hsame, ← shifted, ih, G1.inverted, if_pos hg]
    | false =>
      have hz := (not_isNormalized hg).1
      have hp := firstPass_ne_zero v
      have hnext : firstPass (v ++ [g]) = ((firstPass v).1 * g.z, (firstPass v).2 ++ [(firstPass v).1 * g.z]) := by
        rw [firstPass_concat, hg]
        rfl
      have htail : (shifted (v ++ [g])).tail = (firstPass v).1 :: (shifted v).tail := by
        rw [← shifted_eq, shifted, hnext, List.reverse_append]
        rfl
      have hinv : ((firstPass v).1 * g.z)⁻¹ * (firstPass v).1 = g.z⁻¹ := by field_simp
      have hrest : ((firstPass v).1 * g.z)⁻¹ * g.z = (firstPass v).1⁻¹ := by field_simp
      rw [htail, hnext, secondPass_invert hg, hinv, hrest, ih, G1.inverted, hg]
      rfl

/-- Where every point is normalized it changes nothing. -/
theorem secondPass_normalized : ∀ {v : List (G1 K)}, (∀ g ∈ v, g.isNormalized = true) → ∀ (ss : List K) (tmp : K),
    secondPass v ss tmp = v
  | [], _, _, _        => rfl
  | g :: v, h, ss, tmp => by
    rw [secondPass_skip (h g List.mem_cons_self),
      secondPass_normalized (fun g' hg' => h g' (List.mem_cons_of_mem g hg'))]

theorem firstPass_eq_nil : ∀ {v : List (G1 K)}, (firstPass v).2 = [] → ∀ g ∈ v, g.isNormalized = true := by
  intro v
  induction v using List.reverseRecOn with
  | nil                     => exact fun _ g hg => absurd hg List.not_mem_nil
  | append_singleton v g ih =>
    intro h g' hg'
    rw [firstPass_concat] at h
    cases hg : g.isNormalized with
    | true  =>
      rw [hg, if_pos rfl] at h
      rcases List.mem_append.1 hg' with hg' | hg'
      · exact ih h g' hg'
      · rw [List.mem_singleton.1 hg', hg]
    | false =>
      rw [hg] at h
      exact absurd h (by simp)

theorem thirdPass_inverted (g : G1 K) : thirdPass g.inverted = g.normalize := by
  cases hg : g.isNormalized with
  | true  => rw [G1.inverted, if_pos hg, thirdPass, if_pos hg, G1.normalize, if_pos hg]
  | false =>
    obtain ⟨h₀, h₁⟩ := not_isNormalized hg
    have hinv : ({ g with z := g.z⁻¹ } : G1 K).isNormalized = false := by
      rw [Bool.eq_false_iff, Ne, isNormalized_iff]
      simp [h₀, h₁]
    rw [G1.inverted, hg, if_neg (by decide), thirdPass, hinv, if_neg (by decide), G1.normalize, hg, if_neg (by decide),
      pow_two, pow_succ, pow_two]

/-- **The batch normalizes every point**, whichever of them are skipped. -/
theorem pyg1BatchNormalization_eq (v : List (G1 K)) : pyg1BatchNormalization v = some (v.map G1.normalize) := by
  have hpass : (secondPass v.reverse ((firstPass v).2.reverse.drop 1 ++ [1]) (firstPass v).1⁻¹).reverse =
      v.map G1.inverted := by
    by_cases hnil : (firstPass v).2 = []
    · have hall := firstPass_eq_nil hnil
      have hid : v.map G1.inverted = v := by
        conv_rhs => rw [← List.map_id v]
        exact List.map_congr_left (fun g hg => by rw [G1.inverted, if_pos (hall g hg)]; rfl)
      rw [secondPass_normalized (fun g hg => hall g (List.mem_reverse.1 hg)), List.reverse_reverse, hid]
    · have htail : (firstPass v).2.reverse.drop 1 ++ [1] = (shifted v).tail := by
        rw [shifted, List.drop_one, List.tail_append_of_ne_nil (by simpa using hnil)]
      rw [htail, secondPass_eq, List.reverse_reverse]
  unfold pyg1BatchNormalization
  simp only [inverse, if_neg (firstPass_ne_zero v), Option.bind_eq_bind, Option.bind_some, hpass, Option.pure_def,
    List.map_map]
  exact congrArg some (List.map_congr_left (fun g _ => thirdPass_inverted g))

/-! ## The same points -/

theorem eq_of_ne_zero {p q : G1 K} (hp : p.z ≠ 0) (hq : q.z ≠ 0) (hx : p.x * q.z ^ 2 = q.x * p.z ^ 2)
    (hy : p.y * q.z ^ 3 = q.y * p.z ^ 3) : p.eq q = true := by
  have hx' : p.x * (q.z * q.z) = q.x * (p.z * p.z) := by rw [← pow_two, ← pow_two, hx]
  have hy' : p.z * p.z * p.z * q.y = q.z * q.z * q.z * p.y := by linear_combination -hy
  simp [G1.eq, G1.isZero, hp, hq, hx', hy']

theorem eq_normalize (g : G1 K) : g.eq g.normalize = true := by
  unfold G1.normalize
  cases hg : g.isNormalized with
  | true  =>
    rw [if_pos rfl]
    by_cases hz : g.z = 0
    · simp [G1.eq, G1.isZero, hz]
    · exact eq_of_ne_zero hz hz rfl rfl
  | false =>
    obtain ⟨h₀, -⟩ := not_isNormalized hg
    rw [if_neg (by decide)]
    refine eq_of_ne_zero h₀ one_ne_zero ?_ ?_ <;> field_simp

theorem normalize_z {g : G1 K} (hz : g.z ≠ 0) : g.normalize.z = 1 := by
  unfold G1.normalize
  split_ifs with hg
  · exact ((isNormalized_iff g).1 hg).resolve_left hz
  · rfl

/-- Its affine coordinates are those of the point it stands for. -/
theorem intoAffine_normalize (g : G1 K) : g.normalize.intoAffine = g.intoAffine := by
  unfold G1.normalize
  cases hg : g.isNormalized with
  | true  => rw [if_pos rfl]
  | false =>
    obtain ⟨h₀, h₁⟩ := not_isNormalized hg
    simp [G1.intoAffine, G1.isZero, inverse, h₀, h₁, pow_succ, mul_assoc]

theorem exists_intoAffine (g : G1 K) : ∃ p, g.intoAffine = some p := by
  unfold G1.intoAffine
  split_ifs with hzero hone
  · exact ⟨_, rfl⟩
  · exact ⟨_, rfl⟩
  · have hz : g.z ≠ 0 := by simpa [G1.isZero] using hzero
    rw [inverse, if_neg hz]
    exact ⟨_, rfl⟩

theorem exists_hashg1s (fqRepr : K → List UInt64) (v : List (G1 K)) : ∃ text, hashg1s fqRepr v = some text := by
  have hinput : ∀ g : G1 K, ∃ b, hashInput fqRepr g = some b := by
    intro g
    obtain ⟨p, hp⟩ := exists_intoAffine g
    rw [hashInput, hp]
    exact ⟨_, rfl⟩
  choose input hinput using hinput
  rw [hashg1s, mapM_eq_map (fun g _ => hinput g)]
  exact ⟨_, rfl⟩

/-- **Normalizing a list leaves every point, gives the finite ones `z = 1`, and does not change the hash.** -/
theorem batchNormalization_spec (fqRepr : K → List UInt64) (v : List (G1 K)) :
    (∃ v', pyg1BatchNormalization v = some v' ∧
      List.Forall₂ (fun g g' => g.eq g' = true ∧ (g.isZero = false → g'.z = 1)) v v') ∧
        ∃ text, hashg1sbn fqRepr v = some text ∧ hashg1s fqRepr v = some text := by
  constructor
  · refine ⟨v.map G1.normalize, pyg1BatchNormalization_eq v, ?_⟩
    refine List.forall₂_map_right_iff.2 (List.forall₂_same.2 (fun g _ => ⟨eq_normalize g, fun hg => ?_⟩))
    exact normalize_z (by simpa [G1.isZero] using hg)
  · have hinput : ∀ g : G1 K, hashInput fqRepr g.normalize = hashInput fqRepr g := by
      intro g
      rw [hashInput, hashInput, intoAffine_normalize]
    have hsame : hashg1sbn fqRepr v = hashg1s fqRepr v := by
      rw [hashg1sbn, pyg1BatchNormalization_eq, hashg1s]
      simp only [Option.bind_eq_bind, Option.bind_some, List.mapM_map, Function.comp_def, hinput]
    obtain ⟨text, htext⟩ := exists_hashg1s fqRepr v
    exact ⟨text, hsame.trans htext, htext⟩

end

end Pairing
end Dpid
