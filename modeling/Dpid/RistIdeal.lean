import Dpid.PpRist
import Dpid.RistRefine
/-!
# RistIdeal — the bindings over the group itself

`ideal` is the library whose scalars are the integers modulo the group order and whose points are the elements of the group,
each shown by its only encoding.  The vendored functions are in lock step with it, so the replies of a process are those of
the group.
-/
namespace Dpid
namespace Pairing
namespace Rist

open Checked LittleEndian
open Curve25519 (Bytes32 CompressedRistretto Scalar RistrettoPoint RistrettoGroup groupOrder Fl)
open Curve25519.Scalar52 (montR)
open Curve25519.RistrettoPoint (Stands Encoding)

/-! ## The library -/

/-- The 32 bytes of a number. -/
def bytes32 (n : Nat) : Bytes32 := ⟨(leBytes 32 n).toArray, length_leBytes 32 n⟩

/-- The encoding of an element. -/
noncomputable def encoding (g : RistrettoGroup) : CompressedRistretto := (RistrettoPoint.exists_encoding g).choose

theorem encoding_spec (g : RistrettoGroup) : Encoding g (encoding g) := (RistrettoPoint.exists_encoding g).choose_spec

theorem encoding_injective : Function.Injective encoding := fun g h hgh => ((encoding_spec g).eq_iff (encoding_spec h)).2 hgh

theorem eq_encoding {g : RistrettoGroup} {b : CompressedRistretto} (h : Encoding g b) : b = encoding g :=
  (h.eq_iff (encoding_spec g)).1 rfl

open Classical in
/-- The element that the bytes are the encoding of. -/
noncomputable def decoded (b : CompressedRistretto) : Option RistrettoGroup :=
  if h : ∃ g, encoding g = b then some h.choose else none

theorem decoded_encoding (g : RistrettoGroup) : decoded (encoding g) = some g := by
  have h : ∃ g', encoding g' = encoding g := ⟨g, rfl⟩
  rw [decoded, dif_pos h, encoding_injective h.choose_spec]

theorem encoding_of_decoded {b : CompressedRistretto} {g : RistrettoGroup} (h : decoded b = some g) : encoding g = b := by
  unfold decoded at h
  split at h
  · rename_i hex
    rw [← Option.some.inj h]
    exact hex.choose_spec
  · cases h

/-- The element that the bytes are hashed to. -/
noncomputable def hashed (bytes : Vector UInt8 64) : RistrettoGroup :=
  (RistrettoPoint.fromUniformBytes_stands bytes).choose_spec.2.choose

open Classical in
noncomputable def ideal : RistLib Fl RistrettoGroup where
  zero := 0
  one := 1
  ofU64 n := (n : Fl)
  toBytes z := bytes32 z.val
  fromBytesModOrder b := some (leVal b.toList : Nat)
  fromBytesModOrderWide b := some (leVal b.toList : Nat)
  zrEqual z w := decide (z = w)
  zrNeg z := some (-z)
  invert z := some z⁻¹
  toMontgomery z := some (z * montR)
  fromMontgomery z := some (z / montR)
  add z w := some (z + w)
  sub z w := some (z - w)
  zrMul z w := some (z * w)
  identity := 0
  fromUniformBytes b := some (hashed b)
  equal g h := some (decide (g = h))
  neg g := some (-g)
  plus g h := some (g + h)
  minus g h := some (g - h)
  mul g z := some (z.val • g)
  vartimeMultiscalarMul zs gs :=
    if zs.length = gs.length then some ((zs.zip gs).map fun zg => zg.1.val • zg.2).sum else none
  compress g := some (encoding g)
  decompress b := some (decoded b)
  doubleAndCompressBatch gs := if 0 ∈ gs then none else some (gs.map fun g => encoding (g + g))

/-! ## Scalars -/

/-- **The scalar is the canonical one.** -/
def IsZr (s : Scalar) (z : Fl) : Prop := Scalar.Canonical z s

/-- **The point stands for the element.** -/
def IsG (p : RistrettoPoint) (g : RistrettoGroup) : Prop := p.Stands g

theorem IsZr.bytes {s : Scalar} {z : Fl} (h : IsZr s z) : s.bytes = bytes32 z.val := by
  refine Curve25519.FieldElement51.toBytes_injective ?_
  have hlt : z.val < 256 ^ 32 := Nat.lt_trans (ZMod.val_lt z) (by decide)
  have hval : leVal (bytes32 z.val).toList = z.val := (leVal_leBytes 32 z.val).trans (Nat.mod_eq_of_lt hlt)
  rw [hval]
  exact h

theorem isZr_ofU64 {n : Nat} (h : n < 2 ^ 64) : IsZr (scalarOfU64 n) n := by
  have hval : leVal (leBytes 8 n ++ List.replicate 24 0) = n := by
    have hzero : leVal (List.replicate 24 0) = 0 := by decide
    rw [leVal_append, hzero, leVal_leBytes, Nat.mul_zero, Nat.add_zero, Nat.mod_eq_of_lt (Nat.lt_of_lt_of_le h (by decide))]
  have hmod : ((n : Nat) : Fl).val = n := by
    rw [ZMod.val_natCast, Nat.mod_eq_of_lt (Nat.lt_trans h (by decide))]
  rw [IsZr, Scalar.Canonical, hmod]
  exact hval

theorem toMontgomery_rel {s : Scalar} {z : Fl} (h : IsZr s z) : Returns (scalarToMontgomery s) (IsZr · (z * montR)) := by
  have hx := Curve25519.Scalar52.toMontgomery_returns (Scalar.unpack_rep s)
  rw [h.cast] at hx
  exact hx.bind (fun _ hy => Returns.ret (Scalar.pack_canonical hy))

theorem fromMontgomery_rel {s : Scalar} {z : Fl} (h : IsZr s z) : Returns (scalarFromMontgomery s) (IsZr · (z / montR)) :=
  (Curve25519.Scalar52.fromMontgomery_returns (Scalar.Canonical.unpack_rep h)).bind
    (fun _ hy => Returns.ret (Scalar.pack_canonical hy))

theorem IsZr.lt {s : Scalar} {z : Fl} (h : IsZr s z) : s.val < 2 ^ 255 := Nat.lt_trans (Scalar.Canonical.lt h) (by decide)

/-- A scalar operation, on the canonical representatives. -/
theorem rel_of_canonical {m : Option Scalar} {e f : Fl} (h : Returns m (Scalar.Canonical e)) (he : e = f) :
    Option.Rel IsZr m (some f) := Lockstep.of_returns (h.mono (fun _ hs => he ▸ hs))

/-! ## The simulation -/

theorem combination_eq {zs : List Scalar} {ws : List Fl} (h : List.Forall₂ IsZr zs ws) (gs : List RistrettoGroup) :
    RistrettoPoint.combination zs gs = ((ws.zip gs).map fun zg => zg.1.val • zg.2).sum := by
  induction h generalizing gs with
  | nil => rfl
  | cons hz _ ih =>
    cases gs with
    | nil       => rfl
    | cons g gs =>
      have hval := hz
      rw [IsZr, Scalar.Canonical] at hval
      have hrest := ih gs
      unfold RistrettoPoint.combination at hrest ⊢
      rw [List.zip_cons_cons, List.map_cons, List.sum_cons, List.zip_cons_cons, List.map_cons, List.sum_cons, hrest, hval]

theorem zrEqual_eq {s t : Scalar} {z w : Fl} (hz : IsZr s z) (hw : IsZr t w) : (s == t) = decide (z = w) := by
  rw [Bool.eq_iff_iff, beq_iff_eq, decide_eq_true_iff]
  exact Scalar.Canonical.eq_iff hz hw

theorem hashed_stands (bytes : Vector UInt8 64) : Returns (RistrettoPoint.fromUniformBytes bytes) (IsG · (hashed bytes)) := by
  have h := (RistrettoPoint.fromUniformBytes_stands bytes).choose_spec
  exact ⟨_, h.1, h.2.choose_spec⟩

section

variable {p q : RistrettoPoint} {g h : RistrettoGroup}

open Classical in
theorem equal_eq (hp : IsG p g) (hq : IsG q h) : p.equal q = some (decide (g = h)) := by
  obtain ⟨b, hb, hiff⟩ := RistrettoPoint.equal_stands hp hq
  rw [hb]
  exact congrArg some (Bool.eq_iff_iff.2 (hiff.trans decide_eq_true_iff.symm))

theorem mul_rel {s : Scalar} {z : Fl} (hp : IsG p g) (hz : IsZr s z) : Option.Rel IsG (p.mul s) (some (z.val • g)) := by
  have hval := hz
  rw [IsZr, Scalar.Canonical] at hval
  rw [← hval]
  exact Lockstep.of_returns (RistrettoPoint.mul_stands hp hz.lt)

theorem compress_eq (hp : IsG p g) : p.compress = some (encoding g) := by
  obtain ⟨b, hb, henc⟩ := RistrettoPoint.compress_stands hp
  rw [hb, eq_encoding henc]

end

theorem flip_isG {ps : List RistrettoPoint} {gs : List RistrettoGroup} (h : List.Forall₂ IsG ps gs) :
    List.Forall₂ (fun g p => Stands g p) gs ps := h.flip

theorem vartimeMultiscalarMul_rel {zs : List Scalar} {ws : List Fl} {ps : List RistrettoPoint} {gs : List RistrettoGroup}
    (hz : List.Forall₂ IsZr zs ws) (hg : List.Forall₂ IsG ps gs) :
    Option.Rel IsG (dalek.vartimeMultiscalarMul zs ps) (ideal.vartimeMultiscalarMul ws gs) := by
  have hlt : ∀ s ∈ zs, Scalar.val s < 2 ^ 255 := by
    intro s hs
    obtain ⟨w, -, h⟩ := forall₂_mem_left hz hs
    exact h.lt
  dsimp only [dalek, ideal]
  rw [← hz.length_eq, ← hg.length_eq, ← combination_eq hz]
  by_cases hlen : zs.length = ps.length
  · rw [if_pos hlen]
    exact Lockstep.of_returns (RistrettoPoint.vartimeMultiscalarMul_stands hlt (flip_isG hg) hlen)
  · rw [if_neg hlen]
    have hpanics : Curve25519.optionalMultiscalarMul zs (ps.map fun p => some p.edwards) = none :=
      Curve25519.optionalMultiscalarMul_panics (by rwa [List.length_map])
    have hnone : RistrettoPoint.vartimeMultiscalarMul zs ps = none := by
      rw [RistrettoPoint.vartimeMultiscalarMul, hpanics]
      rfl
    rw [hnone]
    exact Option.Rel.none

open Classical in
theorem doubleAndCompressBatch_eq {ps : List RistrettoPoint} {gs : List RistrettoGroup} (h : List.Forall₂ IsG ps gs) :
    dalek.doubleAndCompressBatch ps = ideal.doubleAndCompressBatch gs := by
  dsimp only [dalek, ideal]
  by_cases h0 : 0 ∈ gs
  · rw [if_pos h0]
    exact RistrettoPoint.doubleAndCompressBatch_stands_none (flip_isG h) h0
  · rw [if_neg h0]
    obtain ⟨bs, hbs, hall⟩ := RistrettoPoint.doubleAndCompressBatch_stands (flip_isG h) h0
    have heq : List.Forall₂ (· = ·) (gs.map fun g => encoding (g + g)) bs :=
      List.forall₂_map_left_iff.2 (hall.imp (fun _ _ hb => (eq_encoding hb).symm))
    rw [List.forall₂_eq_eq_eq] at heq
    rw [hbs, heq]

theorem decompress_rel (b : Bytes32) : Option.Rel (Option.Rel IsG) (dalek.decompress b) (ideal.decompress b) := by
  refine Lockstep.of_returns ((RistrettoPoint.decompress_stands b).mono (fun r hr => ?_))
  match r with
  | none   =>
    have hnone : decoded b = none := by
      rw [decoded, dif_neg]
      rintro ⟨g, rfl⟩
      exact hr g (encoding_spec g)
    rw [hnone]
    exact Option.Rel.none
  | some p =>
    obtain ⟨g, hp, hg⟩ := hr
    rw [eq_encoding hg, decoded_encoding]
    exact Option.Rel.some hp

/-- **The vendored functions are those of the group.** -/
theorem dalek_sim : Sim dalek ideal IsZr IsG where
  zero := Scalar.zero_canonical
  one := Scalar.one_canonical
  ofU64 _ hn := isZr_ofU64 hn
  toBytes h := h.bytes
  fromBytesModOrder b := rel_of_canonical (Scalar.fromBytesModOrder_returns b) rfl
  fromBytesModOrderWide b := rel_of_canonical (Scalar.fromBytesModOrderWide_returns b) rfl
  zrEqual hz hw := zrEqual_eq hz hw
  zrNeg h := rel_of_canonical (Scalar.neg_returns _) (by rw [h.cast])
  invert h := rel_of_canonical (Scalar.invert_returns _) (by rw [h.cast])
  toMontgomery h := Lockstep.of_returns (toMontgomery_rel h)
  fromMontgomery h := Lockstep.of_returns (fromMontgomery_rel h)
  add h h' := rel_of_canonical (Scalar.add_returns _ _) (by rw [h.cast, h'.cast])
  sub h h' := rel_of_canonical (Scalar.sub_returns _ _) (by rw [h.cast, h'.cast])
  zrMul h h' := rel_of_canonical (Scalar.mul_returns _ _) (by rw [h.cast, h'.cast])
  identity := RistrettoPoint.identity_stands
  fromUniformBytes b := Lockstep.of_returns (hashed_stands b)
  equal h h' := equal_eq h h'
  neg h := Lockstep.of_returns (RistrettoPoint.neg_stands h)
  plus h h' := Lockstep.of_returns (RistrettoPoint.plus_stands h h')
  minus h h' := Lockstep.of_returns (RistrettoPoint.minus_stands h h')
  mul h hz := mul_rel h hz
  vartimeMultiscalarMul hz hg := vartimeMultiscalarMul_rel hz hg
  compress h := compress_eq h
  decompress := decompress_rel
  doubleAndCompressBatch h := doubleAndCompressBatch_eq h

end Rist
end Pairing
end Dpid
