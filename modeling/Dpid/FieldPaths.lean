import Dpid.FieldElement
import Dpid.Recoding
/-!
# FieldPaths — batches, roots and digits (`curve25519-dalek`: `field.rs`, `scalar.rs`)

One inversion serves a whole batch and gives what each of its elements gives alone; the accepted bytes of a scalar are the
canonical ones; and the two ways to write a scalar in digits write the same number.
-/
namespace Dpid
namespace Curve25519

open Checked LittleEndian

/-! ## A batch of field elements -/

namespace FieldElement51

theorem toBytes_same {e : Fp} {x y : FieldElement51} (hx : Rep (2 ^ 54) e x) (hy : Rep (2 ^ 54) e y) : toBytes x = toBytes y := by
  obtain ⟨s, hs, hsval⟩ := toBytes_returns (hx.mono (by decide))
  obtain ⟨t, ht, htval⟩ := toBytes_returns (hy.mono (by decide))
  rw [hs, ht, toBytes_injective (hsval.trans htval.symm)]

theorem forall₂_toBytes {es : List Fp} {xs ys : List FieldElement51} (hx : List.Forall₂ (Rep (2 ^ 54)) es xs)
    (hy : List.Forall₂ (Rep (2 ^ 54)) es ys) : ∃ bs, xs.mapM toBytes = some bs ∧ ys.mapM toBytes = some bs := by
  induction hx generalizing ys with
  | nil =>
    cases hy with
    | nil => exact ⟨[], rfl, rfl⟩
  | cons hx _ ih =>
    cases hy with
    | cons hy hys =>
      obtain ⟨b, hb, -⟩ := toBytes_returns (hx.mono (by decide))
      obtain ⟨bs, hbs, hbs'⟩ := ih hys
      refine ⟨b :: bs, ?_, ?_⟩
      · rw [List.mapM_cons, hb, hbs]
        rfl
      · rw [List.mapM_cons, ← toBytes_same hx hy, hb, hbs']
        rfl

theorem exists_reps {inputs : List FieldElement51} (h : ∀ x ∈ inputs, Bounded (2 ^ 54) x) :
    List.Forall₂ (Rep (2 ^ 54)) (inputs.map fun x => (x.val : Fp)) inputs := by
  rw [List.forall₂_map_left_iff, List.forall₂_same]
  exact fun x hx => ⟨h x hx, rfl⟩

/-- **A batch is inverted as its elements are**, with the same bytes, unless one of them is zero: then the assertion fails. -/
theorem batchInvert_eq_mapM {inputs : List FieldElement51} (h : ∀ x ∈ inputs, Bounded (2 ^ 54) x) :
    if ∃ x ∈ inputs, isZero x = some true then batchInvert inputs = none
    else ∃ bs, (batchInvert inputs).bind (fun xs => xs.mapM toBytes) = some bs ∧
      (inputs.mapM invert).bind (fun xs => xs.mapM toBytes) = some bs := by
  have hreps := exists_reps h
  have hzero : ∀ x ∈ inputs, isZero x = some true ↔ (x.val : Fp) = 0 := by
    intro x hx
    obtain ⟨b, hb, rfl⟩ := isZero_returns (e := (x.val : Fp)) ⟨(h x hx).mono (by decide), rfl⟩
    rw [hb, Option.some.injEq, decide_eq_true_iff]
  split
  · rename_i hex
    obtain ⟨x, hx, hxz⟩ := hex
    exact batchInvert_none hreps (List.mem_map.2 ⟨x, hx, (hzero x hx).1 hxz⟩)
  · rename_i hex
    have hne : ∀ e ∈ inputs.map (fun x => (x.val : Fp)), e ≠ 0 := by
      rintro e he rfl
      obtain ⟨x, hx, hxz⟩ := List.mem_map.1 he
      exact hex ⟨x, hx, (hzero x hx).2 hxz⟩
    obtain ⟨xs, hxs, hall⟩ := batchInvert_returns hreps hne
    obtain ⟨ys, hys, hall'⟩ := Returns.mapM_forall₂ (fun _ _ hx => invert_returns hx) hreps
    rw [hxs, hys]
    exact forall₂_toBytes hall (List.forall₂_map_left_iff.2 hall')

theorem batchInvert_eq_mapM_two :
    let inputs : List FieldElement51 := [⟨2, 0, 0, 0, 0⟩, ⟨3, 1, 4, 1, 2 ^ 53⟩]
    ∃ bs, (batchInvert inputs).bind (fun xs => xs.mapM toBytes) = some bs ∧
      (inputs.mapM invert).bind (fun xs => xs.mapM toBytes) = some bs := by
  intro inputs
  have hbounded : ∀ x ∈ inputs, Bounded (2 ^ 54) x := by
    unfold Bounded
    decide
  have hne : ¬∃ x ∈ inputs, isZero x = some true := by decide +kernel
  have h := batchInvert_eq_mapM hbounded
  rwa [if_neg hne] at h

/-- **The root of a ratio**: the flag says whether there is one, the root is nonnegative, and it is a root of `u / v`, or of
`i * u / v` where that has none. -/
theorem sqrtRatioI_spec {u v : FieldElement51} (hu : Bounded (2 ^ 54) u) (hv : Bounded (2 ^ 54) v) : ∃ isSquare r,
    sqrtRatioI u v = some (isSquare, r) ∧ isNegative r = some false ∧
      (isSquare = true ↔ (u.val : Fp) = 0 ∨ (v.val : Fp) ≠ 0 ∧ IsSquare ((u.val : Fp) / v.val)) ∧
      ((v.val : Fp) ≠ 0 → v.val * (r.val : Fp) ^ 2 = if isSquare then (u.val : Fp) else sqrtM1 * u.val) ∧
      ((u.val : Fp) = 0 ∨ (v.val : Fp) = 0 → isZero r = some true) := by
  obtain ⟨⟨isSquare, r⟩, hroot, e, hr, hnonneg, hspec⟩ := sqrtRatioI_returns ⟨hu, rfl⟩ ⟨hv, rfl⟩
  obtain ⟨negative, hnegative, rfl⟩ := isNegative_returns (hr.mono (by decide))
  obtain ⟨zero, hzero, rfl⟩ := isZero_returns (hr.mono (by decide))
  have heven : ¬ e.val % 2 = 1 := by
    rw [NonNegative] at hnonneg
    omega
  refine ⟨isSquare, r, hroot, ?_, hspec.square_iff, fun hne => ?_, fun h0 => ?_⟩
  · rw [hnegative, decide_eq_false heven]
  · rw [hr.val_eq]
    exact hspec.value hne
  · rw [hzero, decide_eq_true (hspec.zero h0)]

theorem sqrtRatioI_spec_two :
    let u : FieldElement51 := ⟨2, 0, 0, 0, 0⟩
    let v : FieldElement51 := ⟨3, 1, 4, 1, 2 ^ 53⟩
    ∃ isSquare r, sqrtRatioI u v = some (isSquare, r) ∧ isNegative r = some false ∧
      (isSquare = true ↔ (u.val : Fp) = 0 ∨ (v.val : Fp) ≠ 0 ∧ IsSquare ((u.val : Fp) / v.val)) ∧
      ((v.val : Fp) ≠ 0 → v.val * (r.val : Fp) ^ 2 = if isSquare then (u.val : Fp) else sqrtM1 * u.val) ∧
      ((u.val : Fp) = 0 ∨ (v.val : Fp) = 0 → isZero r = some true) := by
  intro u v
  have hu : Bounded (2 ^ 54) u := by
    unfold Bounded
    decide
  have hv : Bounded (2 ^ 54) v := by
    unfold Bounded
    decide
  exact sqrtRatioI_spec hu hv

end FieldElement51

/-! ## Scalars -/

namespace Scalar

/-- **The canonical bytes are those below the order**: these and no others are accepted, and reduction takes any bytes to the
canonical ones of their value modulo the order. -/
theorem fromCanonicalBytes_iff (bytes : Bytes32) :
    (∃ r, fromCanonicalBytes bytes = some r ∧ ∀ s, r = some s ↔ leVal bytes.toList < groupOrder ∧ s.bytes = bytes) ∧
    ∃ s, fromBytesModOrder bytes = some s ∧ s.val = leVal bytes.toList % groupOrder ∧
      fromCanonicalBytes s.bytes = some (some s) := by
  constructor
  · obtain ⟨r, hr, rfl⟩ := fromCanonicalBytes_returns bytes
    refine ⟨_, hr, fun s => ?_⟩
    split
    · rename_i hlt
      rw [Option.some_inj]
      constructor
      · rintro rfl
        exact ⟨hlt, rfl⟩
      · rintro ⟨-, rfl⟩
        rfl
    · rename_i hge
      exact iff_of_false (Option.some_ne_none s).symm (fun h => hge h.1)
  · obtain ⟨s, hs, hval⟩ := fromBytesModOrder_returns bytes
    rw [Canonical, ZMod.val_natCast] at hval
    obtain ⟨r, hr, rfl⟩ := fromCanonicalBytes_returns s.bytes
    have hlt : leVal s.bytes.toList < groupOrder := hval.trans_lt (Nat.mod_lt _ (by decide))
    rw [if_pos hlt] at hr
    exact ⟨s, hs, hval, hr⟩

theorem batchInvert_none {inputs : List Scalar} (h : ∃ s ∈ inputs, (s.val : Fl) = 0) : batchInvert inputs = none := by
  obtain ⟨s, hs, hs0⟩ := h
  obtain ⟨acc, hacc, hone⟩ : Returns (Scalar52.toMontgomery one.unpack) (MontRep 1) := by
    have hone := Scalar52.toMontgomery_returns (unpack_rep one)
    rwa [one_canonical.cast] at hone
  have hproducts : Returns (prefixProducts acc inputs) _ := prefixProducts_returns hone
  obtain ⟨⟨pairs, last⟩, hprod, -, hlast⟩ := hproducts
  have hzero : (inputs.map fun s => (s.val : Fl)).prod = 0 := List.prod_eq_zero (List.mem_map.2 ⟨s, hs, hs0⟩)
  rw [hzero, mul_zero, MontRep, zero_mul] at hlast
  have hpack : pack last = zero := ((pack_canonical hlast).eq_iff zero_canonical).2 rfl
  have hguard : (guard (pack last ≠ zero) : Option Unit) = none := if_neg (not_not.2 hpack)
  rw [batchInvert, hacc]
  dsimp only [Option.bind_eq_bind, Option.bind_some]
  rw [hprod]
  dsimp only [Option.bind_some]
  rw [hguard]
  rfl

theorem product_returns : ∀ {es : List Fl} {l : List Scalar}, List.Forall₂ Canonical es l →
    Returns (product l) (Canonical es.prod) := by
  intro es l h
  rw [List.prod_eq_foldl]
  refine Returns.foldlM_forall₂ (fun e s f t ht hs => ?_) h one_canonical
  have hmul := mul_returns s t
  rwa [hs.cast, ht.cast] at hmul

theorem canonical_rightUnique : Relator.RightUnique Canonical := fun _ _ _ hs ht => (hs.eq_iff ht).2 rfl

/-- **A batch of scalars is inverted as its scalars are**, the product of the inverses beside them; it fails only where one
of them is zero modulo the order. -/
theorem batchInvert_eq_product (inputs : List Scalar) :
    if ∃ s ∈ inputs, s.val % groupOrder = 0 then batchInvert inputs = none
    else ∃ inverses p, inputs.mapM invert = some inverses ∧ product inverses = some p ∧
      batchInvert inputs = some (p, inverses) := by
  have hcast : ∀ s : Scalar, s.val % groupOrder = 0 ↔ (s.val : Fl) = 0 := fun s =>
    Nat.dvd_iff_mod_eq_zero.symm.trans (ZMod.natCast_eq_zero_iff s.val groupOrder).symm
  split
  · rename_i hex
    obtain ⟨s, hs, h0⟩ := hex
    exact batchInvert_none ⟨s, hs, (hcast s).1 h0⟩
  · rename_i hex
    have hne : ∀ s ∈ inputs, (s.val : Fl) ≠ 0 := fun s hs h0 => hex ⟨s, hs, (hcast s).2 h0⟩
    obtain ⟨⟨t, ss⟩, hbatch, ht, hss⟩ := batchInvert_returns hne
    obtain ⟨ts, hts, hall⟩ := Returns.mapM inputs (fun s _ => invert_returns s)
    have hall' : List.Forall₂ Canonical (inputs.map fun s => (s.val : Fl)⁻¹) ts := List.forall₂_map_left_iff.2 hall
    obtain ⟨t', ht', hprod⟩ := product_returns hall'
    have hmap : (inputs.map fun s => (s.val : Fl)⁻¹) = (inputs.map fun s => (s.val : Fl)).map (·⁻¹) := by
      rw [List.map_map]
      rfl
    rw [hmap, ← List.prod_inv] at hprod
    dsimp only at ht hss
    refine ⟨ts, t', hts, ht', ?_⟩
    rw [hbatch, List.right_unique_forall₂' canonical_rightUnique hss hall', (ht.eq_iff hprod).2 rfl]

/-- **Both recodings write the scalar**: the nonadjacent form of any width and the digits of any radix have one value. -/
theorem recodings_agree {s : Scalar} (hs : s.val < 2 ^ 255) {w v : Nat} (hw : 2 ≤ w) (hw₈ : w ≤ 8) (hv : 4 ≤ v) (hv₈ : v ≤ 8) :
    ∃ naf digits, nonAdjacentForm s w = some naf ∧ toRadix2w s v = some digits ∧ naf.length = 256 ∧ digits.length = 64 ∧
      Buckets.digitsVal 1 naf = Buckets.digitsVal v digits ∧ (∀ i, NafDigit w (naf.getD i 0)) ∧
      (∀ i j, i < j → j < i + w → naf.getD i 0 ≠ 0 → naf.getD j 0 = 0) ∧
      ∀ d ∈ digits, -2 ^ (v - 1) ≤ d ∧ d ≤ 2 ^ (v - 1) := by
  obtain ⟨naf, hnaf, h⟩ := nonAdjacentForm_returns hs hw hw₈
  obtain ⟨hint, -, -, digits, hdigits, h'⟩ := toRadix2w_returns hs hv hv₈
  exact ⟨naf, digits, hnaf, hdigits, h.length, h'.length, h.value.trans h'.value.symm, h.digit, h.spaced, h'.bounded⟩

theorem recodings_agree_five :
    let s : Scalar := ⟨Vector.replicate 32 0x5b⟩
    ∃ naf digits, nonAdjacentForm s 5 = some naf ∧ toRadix2w s 8 = some digits ∧
      naf.length = 256 ∧ digits.length = 64 ∧ Buckets.digitsVal 1 naf = Buckets.digitsVal 8 digits ∧
      (∀ i, NafDigit 5 (naf.getD i 0)) ∧ (∀ i j, i < j → j < i + 5 → naf.getD i 0 ≠ 0 → naf.getD j 0 = 0) ∧
      ∀ d ∈ digits, -2 ^ (8 - 1) ≤ d ∧ d ≤ 2 ^ (8 - 1) := by
  intro s
  have hs : s.val < 2 ^ 255 := by decide
  exact recodings_agree hs (by decide) (by decide) (by decide) (by decide)

end Scalar
end Curve25519
end Dpid
