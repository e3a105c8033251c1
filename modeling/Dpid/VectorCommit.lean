import Dpid.Secp256k1
import Mathlib.Data.Int.ModEq
/-!
# VectorCommit — `commit`, `generate_proof` and `verify` (`dpid/core/vc.py`)

A commitment is the coordinates of `Σ m[i] g_i` with `g_i = (i + 1) G`, a proof those of `C - v g_i`.  Coordinates are
integers: the code writes them as decimal strings and reads them back.

The proof is computed from the commitment and the value alone, and adding `v g_i` back gives the commitment for every
`v`.  So `verify` accepts every value at every position (`opening_eq_true`).
-/
namespace Dpid

/-- `len(g_points)`. -/
def gCount : Nat := 160

/-- `g_points[index]`. -/
def gPoint (E : Curve) (index : Int) : Except Exn E.Pt :=
  (pyIndex gCount index).map (fun k => (k + 1) • E.generator)

/-- `jacobi_to_affine`: there is no arithmetic on the `None`s of `INFINITY`. -/
def jacobiToAffine (E : Curve) (P : E.Pt) : Except Exn (Int × Int) :=
  match E.xy P with
  | none   => .error .typeError
  | some c => .ok c

/-- The loop of `commit`: `P` is the running sum, `None` before the first term. -/
def commitLoop (E : Curve) : Nat → Option E.Pt → List Int → Except Exn (Option E.Pt)
  | _, P, []           => .ok P
  | i, P, mi :: m => do
    let g ← gPoint E i
    commitLoop E (i + 1) (some (match P with | none => mi • g | some P => P + mi • g)) m

def commit (E : Curve) (m : List Int) : Except Exn (Int × Int) := do
  match ← commitLoop E 0 none m with
  | none   => throw .attributeError
  | some P => jacobiToAffine E P

def generateProof (E : Curve) (C : Int × Int) (mi index : Int) : Except Exn (Int × Int) := do
  let point ← E.point (C.1, C.2 % E.p)
  let g ← gPoint E index
  match E.xy (mi • g) with
  | none          => throw .typeError
  | some (xi, yi) =>
    let negate ← E.point (xi, -yi % E.p)
    let P' ← E.pointAdd point negate
    jacobiToAffine E P'

def verify (E : Curve) (C proof : Int × Int) (mi index : Int) : Except Exn Bool := do
  let g ← gPoint E index
  match E.xy (mi • g) with
  | none          => throw .typeError
  | some (xi, yi) =>
    let add ← E.point (xi, yi % E.p)
    let point ← E.point (proof.1, proof.2 % E.p)
    let P ← E.pointAdd point add
    return E.xy P == some C

/-! ## What the calls compute -/

section Spec

variable {E : Curve}

/-- `g_i`. -/
def gAt (E : Curve) (i : Nat) : E.Pt := (i + 1) • E.generator

/-- `m[0] g_i + m[1] g_{i+1} + …`. -/
def commitSum (E : Curve) : Nat → List Int → E.Pt
  | _, []      => 0
  | i, mi :: m => mi • gAt E i + commitSum E (i + 1) m

theorem gPoint_natCast {i : Nat} (hi : i < gCount) : gPoint E i = .ok (gAt E i) := by
  rw [gPoint, pyIndex_natCast hi]
  rfl

theorem commitLoop_some : ∀ (m : List Int) (i : Nat) (P : E.Pt), i + m.length ≤ gCount →
    commitLoop E i (some P) m = .ok (some (P + commitSum E i m))
  | [], i, P, _       => by rw [commitLoop, commitSum, add_zero]
  | mi :: m, i, P, hl => by
    rw [List.length_cons] at hl
    rw [commitLoop, gPoint_natCast (by omega)]
    show commitLoop E (i + 1) (some (P + mi • gAt E i)) m = _
    rw [commitLoop_some m (i + 1) _ (by omega), commitSum, add_assoc]

/-- **The commitment is the coordinates of the sum.** -/
theorem commit_eq {m : List Int} (hm : m ≠ []) (hl : m.length ≤ gCount) :
    commit E m = jacobiToAffine E (commitSum E 0 m) := by
  cases m with
  | nil       => exact absurd rfl hm
  | cons mi m =>
    rw [List.length_cons] at hl
    have hloop : commitLoop E 0 none (mi :: m) = .ok (some (commitSum E 0 (mi :: m))) := by
      rw [commitLoop, gPoint_natCast (i := 0) (by decide)]
      show commitLoop E 1 (some (mi • gAt E 0)) m = _
      rw [commitLoop_some m 1 _ (by omega), commitSum]
    rw [commit, hloop]
    rfl

theorem jacobiToAffine_eq {P : E.Pt} {c : Int × Int} (h : E.xy P = some c) : jacobiToAffine E P = .ok c := by
  rw [jacobiToAffine, h]

/-- **The proof for a value is the commitment less the value's term.** -/
theorem generateProof_eq (hE : E.Lawful) {C : E.Pt} {c : Int × Int} (hC : E.xy C = some c) {mi : Int} {i : Nat}
    (hi : i < gCount) (hne : mi • gAt E i ≠ 0) :
    generateProof E c mi i = jacobiToAffine E (C - mi • gAt E i) := by
  obtain ⟨⟨xi, yi⟩, hx⟩ := hE.exists_xy hne
  obtain ⟨x, y⟩ := c
  rw [generateProof, hE.emod_y hC, hE.point_xy hC, gPoint_natCast hi]
  simp only [bind, Except.bind, hx, hE.point_xy (hE.xy_neg _ _ _ hx), hE.pointAdd_xy _ _ _ _ hC (hE.xy_neg _ _ _ hx),
    sub_eq_add_neg]

/-- **`verify` accepts exactly when proof and value's term add up to the commitment.** -/
theorem verify_iff (hE : E.Lawful) {C D : E.Pt} {c d : Int × Int} (hC : E.xy C = some c) (hD : E.xy D = some d) {mi : Int}
    {i : Nat} (hi : i < gCount) (hne : mi • gAt E i ≠ 0) :
    verify E c d mi i = .ok true ↔ D + mi • gAt E i = C := by
  obtain ⟨⟨xi, yi⟩, hx⟩ := hE.exists_xy hne
  obtain ⟨x, y⟩ := d
  rw [verify, gPoint_natCast hi]
  simp only [bind, Except.bind, hx, hE.emod_y hx, hE.emod_y hD, hE.point_xy hx, hE.point_xy hD,
    hE.pointAdd_xy _ _ _ _ hD hx, pure, Except.pure, Except.ok.injEq, beq_iff_eq]
  exact ⟨fun h => hE.xy_inj _ _ _ h hC, fun h => h ▸ hC⟩

/-- **A generated proof verifies, whatever the value.** -/
theorem verify_generateProof (hE : E.Lawful) {C : E.Pt} {c : Int × Int} (hC : E.xy C = some c) {mi : Int} {i : Nat}
    (hi : i < gCount) (hne : mi • gAt E i ≠ 0) (hsub : C - mi • gAt E i ≠ 0) :
    ∃ proof, generateProof E c mi i = .ok proof ∧ verify E c proof mi i = .ok true := by
  obtain ⟨d, hd⟩ := hE.exists_xy hsub
  exact ⟨d, by rw [generateProof_eq hE hC hi hne, jacobiToAffine_eq hd], (verify_iff hE hC hd hi hne).2 (sub_add_cancel _ _)⟩

/-- Whatever `generate_proof` returns verifies. -/
theorem verify_of_generateProof (hE : E.Lawful) {C : E.Pt} {c proof : Int × Int} (hC : E.xy C = some c) {mi : Int} {i : Nat}
    (h : generateProof E c mi i = .ok proof) : verify E c proof mi i = .ok true := by
  obtain ⟨x, y⟩ := c
  have hi : i < gCount := by
    rw [generateProof, hE.emod_y hC, hE.point_xy hC] at h
    by_contra hi
    have herr : gPoint E (i : Int) = .error .indexError := by
      rw [gPoint, pyIndex, if_neg (by omega), if_neg (by omega)]
      rfl
    simp [herr, bind, Except.bind] at h
  by_cases hne : mi • gAt E i = 0
  · rw [generateProof, hE.emod_y hC, hE.point_xy hC, gPoint_natCast hi] at h
    simp [bind, Except.bind, (hE.xy_eq_none _).2 hne, throw, throwThe, MonadExceptOf.throw] at h
  · rw [generateProof_eq hE hC hi hne, jacobiToAffine] at h
    cases hd : E.xy (C - mi • gAt E i) with
    | none => rw [hd] at h; cases h
    | some d =>
      rw [hd] at h
      cases h
      exact (verify_iff hE hC hd hi hne).2 (sub_add_cancel _ _)

end Spec

/-! ## Opening a position -/

/-- `verify(C[0], C[1], p[0], p[1], v, i)` with `C = commit(m)` and `p = generate_proof(C[0], C[1], v, i)`. -/
def opening (E : Curve) (m : List Int) (v : Int) (i : Nat) : Except Exn Bool := do
  let C ← commit E m
  let proof ← generateProof E C v i
  verify E C proof v i

/-- No point formed in opening position `i` to `v` is the point at infinity. -/
structure NoInfinity (E : Curve) (m : List Int) (v : Int) (i : Nat) : Prop where
  commitment : commitSum E 0 m ≠ 0
  term : v • gAt E i ≠ 0
  proof : commitSum E 0 m - v • gAt E i ≠ 0

/-- **Every value opens every position.** -/
theorem opening_eq_true {E : Curve} (hE : E.Lawful) {m : List Int} (hl : m.length ≤ gCount) {i : Nat} (hi : i < m.length)
    {v : Int} (hinf : NoInfinity E m v i) : opening E m v i = .ok true := by
  obtain ⟨c, hc⟩ := hE.exists_xy hinf.commitment
  obtain ⟨proof, hp, hv⟩ := verify_generateProof hE hc (Nat.lt_of_lt_of_le hi hl) hinf.term hinf.proof
  have hm : m ≠ [] := by rintro rfl; simp at hi
  rw [opening, commit_eq hm hl, jacobiToAffine_eq hc]
  simp only [bind, Except.bind, hp, hv]

/-- **A position opens to the genuine value only, exactly when the value tried is the genuine one.** -/
theorem opening_binding_iff {E : Curve} (hE : E.Lawful) {m : List Int} (hl : m.length ≤ gCount) {i : Nat}
    (hi : i < m.length) {v : Int} (hinf : NoInfinity E m v i) :
    (opening E m v i = .ok true ↔ v ≡ m[i] [ZMOD E.order]) ↔ v ≡ m[i] [ZMOD E.order] := by
  rw [opening_eq_true hE hl hi hinf]
  simp

/-- The scalar of the generator in a commitment. -/
def commitScalar : Nat → List Int → Int
  | _, []      => 0
  | i, mi :: m => mi * (i + 1) + commitScalar (i + 1) m

theorem zsmul_gAt (E : Curve) (v : Int) (i : Nat) : v • gAt E i = (v * (i + 1)) • E.generator := by
  rw [gAt, ← natCast_zsmul, smul_smul]
  push_cast
  rfl

theorem commitSum_eq_zsmul (E : Curve) : ∀ (m : List Int) (i : Nat),
    commitSum E i m = commitScalar i m • E.generator
  | [], _      => by rw [commitSum, commitScalar, zero_smul]
  | mi :: m, i => by rw [commitSum, commitScalar, add_smul, zsmul_gAt, commitSum_eq_zsmul E m]

/-- On secp256k1 no point is at infinity whose scalar the order does not divide. -/
theorem noInfinity_secp256k1 {m : List Int} {v : Int} {i : Nat}
    (hm : ¬ (secp256k1.order : Int) ∣ commitScalar 0 m) (hv : ¬ (secp256k1.order : Int) ∣ v * (i + 1))
    (hs : ¬ (secp256k1.order : Int) ∣ commitScalar 0 m - v * (i + 1)) : NoInfinity secp256k1 m v i where
  commitment := by
    rw [commitSum_eq_zsmul]
    exact fun h => hm ((Secp256k1.zsmul_generator_eq_zero _).1 h)
  term := by
    rw [zsmul_gAt]
    exact fun h => hv ((Secp256k1.zsmul_generator_eq_zero _).1 h)
  proof := by
    rw [commitSum_eq_zsmul, zsmul_gAt, ← sub_smul]
    exact fun h => hs ((Secp256k1.zsmul_generator_eq_zero _).1 h)

theorem opening_binding_iff_two :
    (opening secp256k1 [1, 1] 1 0 = .ok true ↔ 1 ≡ [1, 1][0] [ZMOD secp256k1.order]) ↔
      1 ≡ [1, 1][0] [ZMOD secp256k1.order] :=
  opening_binding_iff secp256k1_lawful (by decide) (by decide)
    (noInfinity_secp256k1 (by decide +kernel) (by decide +kernel) (by decide +kernel))

/-- The commitment of `[1]` opens to 2. -/
theorem opening_binding_counterexample : ¬ ∀ (m : List Int) (i : Nat) (hi : i < m.length) (v : Int), m.length ≤ gCount →
    NoInfinity secp256k1 m v i → (opening secp256k1 m v i = .ok true ↔ v ≡ m[i] [ZMOD secp256k1.order]) := by
  intro h
  have hinf : NoInfinity secp256k1 [1] 2 0 :=
    noInfinity_secp256k1 (by decide +kernel) (by decide +kernel) (by decide +kernel)
  have h2 := (h [1] 0 (by decide) 2 (by decide) hinf).1 (opening_eq_true secp256k1_lawful (by decide) (by decide) hinf)
  exact absurd h2 (by decide +kernel)

end Dpid
