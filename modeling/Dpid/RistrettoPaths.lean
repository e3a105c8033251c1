import Dpid.RistrettoGroup
/-!
# RistrettoPaths — the ways to the same encoding (`curve25519-dalek`: `ristretto.rs`)

The encodings of a batch are those of its points doubled one by one, and the sum of many products is the one that additions
give.  What bytes are hashed to is encoded and read back.
-/
namespace Dpid
namespace Curve25519
namespace RistrettoPoint

open Checked

variable {g : RistrettoGroup} {p q : RistrettoPoint}

theorem compress_same (hp : p.Stands g) (hq : q.Stands g) : p.compress = q.compress := by
  obtain ⟨b, hb, hbe⟩ := compress_stands hp
  obtain ⟨c, hc, hce⟩ := compress_stands hq
  rw [hb, hc, (hbe.eq_iff hce).1 rfl]

theorem bind_compress_same {m n : Option RistrettoPoint} (hm : Returns m (Stands g)) (hn : Returns n (Stands g)) :
    ∃ b, m.bind compress = some b ∧ n.bind compress = some b := by
  obtain ⟨p, rfl, hp⟩ := hm
  obtain ⟨q, rfl, hq⟩ := hn
  obtain ⟨b, hb, -⟩ := compress_stands hp
  exact ⟨b, hb, (compress_same hq hp).trans hb⟩

theorem equal_identity (hp : p.Stands g) : p.equal identity = some true ↔ g = 0 := by
  obtain ⟨b, hb, hiff⟩ := equal_stands hp identity_stands
  rw [hb, Option.some.injEq]
  exact hiff

/-! ## A batch -/

theorem plus_compress_returns (hp : p.Stands g) : Returns ((p.plus p).bind compress) (Encoding (g + g)) := by
  obtain ⟨q, hq, hstands⟩ := plus_stands hp hp
  rw [hq]
  exact compress_stands hstands

theorem mapM_double {gs : List RistrettoGroup} {points : List RistrettoPoint}
    (h : List.Forall₂ (fun g p => Stands g p) gs points) :
    Returns (points.mapM fun p => (p.plus p).bind compress) (List.Forall₂ (fun g b => Encoding (g + g) b) gs) :=
  Returns.mapM_forall₂ (fun _ _ hp => plus_compress_returns hp) h

theorem encoding_rightUnique : Relator.RightUnique (fun (g : RistrettoGroup) b => Encoding (g + g) b) :=
  fun _ _ _ hb hc => (hb.eq_iff hc).1 rfl

/-- **The batch gives what its points give**, doubled and encoded one by one, unless the identity is among them: then the
one inversion for all of them fails. -/
theorem doubleAndCompressBatch_eq_mapM {points : List RistrettoPoint} (h : ∀ p ∈ points, ∃ g, Stands g p) :
    if ∃ p ∈ points, p.equal identity = some true then doubleAndCompressBatch points = none
    else ∃ bs, doubleAndCompressBatch points = some bs ∧ points.mapM (fun p => (p.plus p).bind compress) = some bs := by
  obtain ⟨gs, hall⟩ : ∃ gs, List.Forall₂ (fun g p => Stands g p) gs points := by
    choose! f hf using h
    exact ⟨points.map f, List.forall₂_map_left_iff.2 (List.forall₂_same.2 hf)⟩
  have hiff : (∃ p ∈ points, p.equal identity = some true) ↔ (0 : RistrettoGroup) ∈ gs := by
    constructor
    · rintro ⟨p, hp, heq⟩
      obtain ⟨g, hg, hstands⟩ := forall₂_mem_right hall hp
      rwa [(equal_identity hstands).1 heq] at hg
    · intro h0
      obtain ⟨p, hp, hstands⟩ := forall₂_mem_left hall h0
      exact ⟨p, hp, (equal_identity hstands).2 rfl⟩
  by_cases h0 : (0 : RistrettoGroup) ∈ gs
  · rw [if_pos (hiff.2 h0)]
    exact doubleAndCompressBatch_stands_none hall h0
  · rw [if_neg (fun hc => h0 (hiff.1 hc))]
    obtain ⟨bs, hbs, hb⟩ := doubleAndCompressBatch_stands hall h0
    obtain ⟨cs, hcs, hc⟩ := mapM_double hall
    rw [← List.right_unique_forall₂' encoding_rightUnique hb hc] at hcs
    exact ⟨bs, hbs, hcs⟩

/-- The basepoint, and its double. -/
theorem doubleAndCompressBatch_eq_mapM_basepoint :
    let points := [basepoint, (basepoint.plus basepoint).getD identity]
    ∃ bs, doubleAndCompressBatch points = some bs ∧ points.mapM (fun p => (p.plus p).bind compress) = some bs := by
  intro points
  obtain ⟨g, hg, -⟩ := basepoint_stands
  obtain ⟨q, hq, hstands⟩ := plus_stands hg hg
  have hall : ∀ p ∈ points, ∃ g, Stands g p := by
    intro p hp
    rcases List.mem_cons.1 hp with rfl | hp
    · exact ⟨g, hg⟩
    · obtain rfl := List.mem_singleton.1 hp
      rw [hq]
      exact ⟨g + g, hstands⟩
  have hne : ¬∃ p ∈ points, p.equal identity = some true := by decide +kernel
  have h := doubleAndCompressBatch_eq_mapM hall
  rwa [if_neg hne] at h

/-! ## Many products -/

theorem sum_stands {gs : List RistrettoGroup} {points : List RistrettoPoint}
    (h : List.Forall₂ (fun g p => Stands g p) gs points) : Returns (sum points) (Stands gs.sum) := by
  have hstep : ∀ (x : RistrettoGroup) (s : RistrettoPoint) (k : RistrettoGroup) (q : RistrettoPoint), q.Stands k →
      s.Stands x → Returns (s.plus q) (Stands (x + k)) := fun x s k q hq hs => plus_stands hs hq
  have hfold := Returns.foldlM_forall₂ (F := fun x k => x + k) (S := fun x s => Stands x s) hstep h identity_stands
  rwa [← List.sum_eq_foldl] at hfold

theorem mapM_mul : ∀ {scalars : List Scalar} {gs : List RistrettoGroup} {points : List RistrettoPoint},
    (∀ s ∈ scalars, Scalar.val s < 2 ^ 255) → List.Forall₂ (fun g p => Stands g p) gs points →
      Returns ((scalars.zip points).mapM fun sp => mul sp.2 sp.1)
        (List.Forall₂ (fun g p => Stands g p) ((scalars.zip gs).map fun sg => sg.1.val • sg.2)) := by
  intro scalars gs points hs h
  have hzip : List.Forall₂ (fun (k : RistrettoGroup) (sp : Scalar × RistrettoPoint) => Returns (mul sp.2 sp.1) (Stands k))
      ((scalars.zip gs).map fun sg => sg.1.val • sg.2) (scalars.zip points) := by
    induction h generalizing scalars with
    | nil =>
      rw [List.zip_nil_right, List.zip_nil_right]
      exact List.Forall₂.nil
    | cons hg _ ih =>
      cases scalars with
      | nil            => exact List.Forall₂.nil
      | cons s scalars =>
        rw [List.zip_cons_cons, List.zip_cons_cons, List.map_cons]
        exact List.Forall₂.cons (mul_stands hg (hs s List.mem_cons_self))
          (ih (fun t ht => hs t (List.mem_cons_of_mem s ht)))
  exact Returns.mapM_forall₂ (fun _ _ h => h) hzip

/-- **The sum of many products** is the one that multiplications and additions give. -/
theorem vartimeMultiscalarMul_eq_sum {scalars : List Scalar} {points : List RistrettoPoint}
    {gs : List RistrettoGroup} (hs : ∀ s ∈ scalars, Scalar.val s < 2 ^ 255)
    (hp : List.Forall₂ (fun g p => Stands g p) gs points) (hlen : scalars.length = points.length) :
    ∃ b, (vartimeMultiscalarMul scalars points).bind compress = some b ∧
      (do
        let products ← (scalars.zip points).mapM fun sp : Scalar × RistrettoPoint => mul sp.2 sp.1
        sum products).bind compress = some b := by
  refine bind_compress_same (vartimeMultiscalarMul_stands hs hp hlen) ?_
  exact (mapM_mul hs hp).bind (fun products hproducts => sum_stands hproducts)

theorem vartimeMultiscalarMul_eq_sum_two :
    let scalars : List Scalar := [⟨Vector.replicate 32 0x5b⟩, Scalar.one]
    ∃ b, (vartimeMultiscalarMul scalars [basepoint, basepoint]).bind compress = some b ∧
      (do
        let products ← (scalars.zip [basepoint, basepoint]).mapM fun sp : Scalar × RistrettoPoint => mul sp.2 sp.1
        sum products).bind compress = some b := by
  intro scalars
  have hs : ∀ s ∈ scalars, Scalar.val s < 2 ^ 255 := by decide
  obtain ⟨g, hg, -⟩ := basepoint_stands
  exact vartimeMultiscalarMul_eq_sum hs (List.Forall₂.cons hg (List.Forall₂.cons hg List.Forall₂.nil)) rfl

/-! ## Hashes -/

/-- **Any bytes are hashed to a point with an encoding**, which is read back as an equal point. -/
theorem fromUniformBytes_compress (bytes : Vector UInt8 64) : ∃ p b q, fromUniformBytes bytes = some p ∧
    p.compress = some b ∧ decompress b = some (some q) ∧ q.equal p = some true ∧ q.compress = some b := by
  obtain ⟨p, hp, g, hg⟩ := fromUniformBytes_stands bytes
  obtain ⟨b, hb, henc⟩ := compress_stands hg
  obtain ⟨r, hr, hrel⟩ := decompress_stands b
  match r with
  | none   => exact absurd henc (hrel g)
  | some q =>
    obtain ⟨g', hq, henc'⟩ := hrel
    obtain rfl := (henc'.eq_iff henc).2 rfl
    obtain ⟨e, he, hiff⟩ := equal_stands hq hg
    refine ⟨p, b, q, hp, hb, hr, ?_, (compress_same hq hg).trans hb⟩
    rw [he, hiff.2 rfl]

end RistrettoPoint
end Curve25519
end Dpid
