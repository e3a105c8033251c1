import Dpid.Sha256
import Dpid.Shamir
import Mathlib
/-!
# ThreshSig — threshold signatures, `crypto/threshsig/boldyreva.py`

The pairing library is a parameter: groups of one prime order with the scalars `F`, written additively, so that
`h ** x` is `x • h`.  A share of the signature of `h` is `P (i + 1) • h` for the dealer's polynomial `P`, the signature
is `P 0 • h`, and `verify_share` and `verify_signature` accept nothing else.
-/
namespace Dpid

/-- An element as deserialized: of `G1`, or of one of the other groups. -/
inductive GroupElement (G1 : Type) where
  | g1 (x : G1)
  | other
deriving DecidableEq

/-- What the code uses of the pairing library. -/
structure PairingGroup (F G1 G2 GT : Type) [Field F] [AddCommGroup G1] [Module F G1] [AddCommGroup G2] [Module F G2]
    [AddCommGroup GT] [Module F GT] where
  g2 : G2
  pair : G1 →ₗ[F] G2 →ₗ[F] GT
  nondegenerate : ∀ x, pair x g2 = 0 → x = 0
  hash : Bytes → G1
  serialize : G1 → Bytes
  deserialize : Bytes → Option (GroupElement G1)
  deserialize_serialize : ∀ x, deserialize (serialize x) = some (.g1 x)

structure TBLSPublicKey (G2 : Type) where
  l : Nat
  k : Nat
  VK : G2
  VKs : List G2
deriving DecidableEq

structure TBLSPrivateKey (F G2 : Type) extends TBLSPublicKey G2 where
  SK : F
  i : Nat
deriving DecidableEq

section Scheme

variable {F G1 G2 GT : Type} [Field F] [AddCommGroup G1] [Module F G1] [AddCommGroup G2] [Module F G2]
  [AddCommGroup GT] [Module F GT]

/-- What the bilinear pairings rest on. -/
instance pairing_smulComm (F GT : Type) [Field F] [AddCommGroup GT] [Module F GT] : SMulCommClass F F GT :=
  smulCommClass_self F GT

/-- `y` and `xx` after each coefficient. -/
def polynomEval (x : F) (coefficients : List F) : F :=
  (coefficients.foldl (fun (acc : F × F) coeff => (acc.1 + coeff * acc.2, acc.2 * x)) (0, 1)).1

namespace TBLSPublicKey

def hashMessage (G : PairingGroup F G1 G2 GT) (m : Text) : G1 := G.hash m.encode

def lagrange (PK : TBLSPublicKey G2) (S : Finset Nat) (j : Nat) : Except Exn F :=
  if S.card = PK.k ∧ S ⊆ Finset.range PK.l ∧ j ∈ S then
    .ok ((∏ jj ∈ S.erase j, ((0 - jj - 1 : Int) : F)) / ∏ jj ∈ S.erase j, ((j - jj : Int) : F))
  else .error .assertionError

/-- `pair(sig, g2)`, of an element of another group an error of the library's. -/
def pairSig (G : PairingGroup F G1 G2 GT) : GroupElement G1 → Except Exn GT
  | .g1 x  => .ok (G.pair x G.g2)
  | .other => .error .typeError

def verifyShare [DecidableEq GT] (PK : TBLSPublicKey G2) (G : PairingGroup F G1 G2 GT) (sig : GroupElement G1) (i : Nat)
    (h : G1) : Except Exn Unit := do
  if PK.l ≤ i then throw .assertionError
  match PK.VKs[i]? with
  | none   => throw .indexError
  | some B =>
    let e ← pairSig G sig
    if e ≠ G.pair h B then throw .assertionError

def verifySignature [DecidableEq GT] (PK : TBLSPublicKey G2) (G : PairingGroup F G1 G2 GT) (sig h : G1) :
    Except Exn Unit :=
  if G.pair sig G.g2 ≠ G.pair h PK.VK then .error .assertionError else .ok ()

/-- `sig ** x`, in the product an error of the library's for an element of another group. -/
def power (x : F) : GroupElement G1 → Except Exn G1
  | .g1 y  => .ok (x • y)
  | .other => .error .typeError

def combineShares (PK : TBLSPublicKey G2) (sigs : List (Nat × GroupElement G1)) : Except Exn G1 := do
  let S := (sigs.map Prod.fst).toFinset
  if ¬ S ⊆ Finset.range PK.l then throw .assertionError
  let terms ← sigs.mapM (fun e => do
    let x : F ← PK.lagrange S e.1
    power x e.2)
  return terms.sum

end TBLSPublicKey

def TBLSPrivateKey.sign (key : TBLSPrivateKey F G2) (h : G1) : G1 := key.SK • h

/-- `dealer` with the random coefficients `a`. -/
def dealer [DecidableEq F] (G : PairingGroup F G1 G2 GT) (players k : Nat) (a : List F) :
    Except Exn (TBLSPublicKey G2 × List (TBLSPrivateKey F G2)) := do
  if a.length ≠ k then throw .assertionError
  match a.head? with
  | none        => throw .indexError
  | some secret =>
    let SKs := (List.range players).map (fun i => polynomEval ((i + 1 : Nat) : F) a)
    if polynomEval 0 a ≠ secret then throw .assertionError
    let PK : TBLSPublicKey G2 := ⟨players, k, secret • G.g2, SKs.map (fun x => x • G.g2)⟩
    let rhs ← (List.range k).mapM (fun j => do
      let x ← PK.lagrange (Finset.range k) j
      return x * polynomEval ((j + 1 : Nat) : F) a)
    if polynomEval 0 a ≠ rhs.sum then throw .assertionError
    return (PK, SKs.zipIdx.map (fun e => ⟨PK, e.1, e.2⟩))

/-! ## The secrets -/

open Shamir Polynomial

theorem polynomEval_eq (x : F) (a : List F) : polynomEval x a = (poly a).eval x := by
  have hfold : ∀ (a : List F) (y xx : F), (a.foldl (fun (acc : F × F) coeff => (acc.1 + coeff * acc.2, acc.2 * x))
      (y, xx)).1 = y + xx * (poly a).eval x := by
    intro a
    induction a with
    | nil => simp
    | cons c a ih =>
      intro y xx
      rw [List.foldl_cons, ih, eval_poly_cons]
      ring
  rw [polynomEval, hfold, zero_add, one_mul]

/-- The node of party `i`. -/
def shareNode (i : Nat) : F := (i : F) + 1

theorem getElem?_shares (a : List F) {players i : Nat} (hi : i < players) :
    ((List.range players).map (fun i => polynomEval ((i + 1 : Nat) : F) a))[i]? =
      some ((poly a).eval (shareNode i)) := by
  rw [List.getElem?_map, List.getElem?_range hi, Option.map_some, polynomEval_eq, shareNode, Nat.cast_succ]

structure Dealt (G : PairingGroup F G1 G2 GT) (P : F[X]) (PK : TBLSPublicKey G2) : Prop where
  degree : P.degree < PK.k
  VK : PK.VK = P.eval 0 • G.g2
  VKs : ∀ i < PK.l, PK.VKs[i]? = some (P.eval (shareNode i) • G.g2)

/-- **What `dealer` returns.** -/
theorem dealer_spec [DecidableEq F] {G : PairingGroup F G1 G2 GT} {players k : Nat} {a : List F} {PK : TBLSPublicKey G2}
    {SKs : List (TBLSPrivateKey F G2)} (h : dealer G players k a = .ok (PK, SKs)) :
    Dealt G (poly a) PK ∧ ∀ i < PK.l, SKs[i]? = some ⟨PK, (poly a).eval (shareNode i), i⟩ := by
  simp only [dealer, bind, Except.bind, throw, throwThe, MonadExceptOf.throw, pure, Except.pure] at h
  split at h
  · cases h
  · rename_i hlen
    split at h
    · cases h
    · rename_i secret hsecret
      split at h
      · cases h
      · rename_i hzero
        split at h
        · cases h
        · split at h
          · cases h
          · simp only [Except.ok.injEq, Prod.mk.injEq] at h
            obtain ⟨rfl, rfl⟩ := h
            simp only [ne_eq, not_not] at hlen hzero
            refine ⟨⟨?_, ?_, fun i hi => ?_⟩, fun i hi => ?_⟩
            · rw [← hlen]
              exact degree_poly_lt a
            · rw [← hzero, polynomEval_eq]
            · rw [List.getElem?_map, getElem?_shares a hi, Option.map_some]
            · rw [List.getElem?_map, List.getElem?_zipIdx, getElem?_shares a hi, Option.map_some, Option.map_some,
                Nat.zero_add]

theorem dealer_keys [DecidableEq F] {G : PairingGroup F G1 G2 GT} {players k N : Nat} {a : List F} {PK : TBLSPublicKey G2}
    {SKs : List (TBLSPrivateKey F G2)} {SK : Fin N → TBLSPrivateKey F G2} (h : dealer G players k a = .ok (PK, SKs))
    (hl : PK.l = N) (hSK : ∀ p : Fin N, SKs[p.val]? = some (SK p)) :
    Dealt G (poly a) PK ∧ ∀ p, (SK p).SK = (poly a).eval (shareNode p) := by
  obtain ⟨hd, hkeys⟩ := dealer_spec h
  refine ⟨hd, fun p => ?_⟩
  have hkey := (hSK p).symm.trans (hkeys p (by rw [hl]; exact p.isLt))
  rw [Option.some.inj hkey]

/-! ## Signatures -/

section Keys

variable {G : PairingGroup F G1 G2 GT} {P : F[X]} {PK : TBLSPublicKey G2}

/-- Bilinearity moves the secret across, and nothing else pairs to the same. -/
theorem pair_eq_iff (G : PairingGroup F G1 G2 GT) (x : F) (y h : G1) :
    G.pair y G.g2 = G.pair h (x • G.g2) ↔ y = x • h := by
  rw [map_smul, ← LinearMap.smul_apply, ← map_smul]
  constructor
  · intro heq
    rw [← sub_eq_zero, ← LinearMap.sub_apply, ← map_sub] at heq
    exact sub_eq_zero.1 (G.nondegenerate _ heq)
  · rintro rfl
    rfl

/-- **Just one share of a party verifies.** -/
theorem Dealt.verifyShare_iff [DecidableEq GT] (hd : Dealt G P PK) {i : Nat} (hi : i < PK.l) (sig : GroupElement G1)
    (h : G1) : PK.verifyShare G sig i h = .ok () ↔ sig = .g1 (P.eval (shareNode i) • h) := by
  cases sig with
  | g1 x =>
    have hverify : PK.verifyShare G (.g1 x) i h = if G.pair x G.g2 ≠ G.pair h (P.eval (shareNode i) • G.g2) then
        .error .assertionError else .ok () := by
      simp only [TBLSPublicKey.verifyShare, hd.VKs i hi, if_neg (Nat.not_le.2 hi)]
      rfl
    rw [hverify, ite_eq_right_iff, GroupElement.g1.injEq, ← pair_eq_iff G]
    simp
  | other =>
    simp [TBLSPublicKey.verifyShare, hd.VKs i hi, Nat.not_le.2 hi, TBLSPublicKey.pairSig, bind, Except.bind]

/-- **The signature verifies.** -/
theorem Dealt.verifySignature_eq [DecidableEq GT] (hd : Dealt G P PK) (h : G1) :
    PK.verifySignature G (P.eval 0 • h) h = .ok () := by
  rw [TBLSPublicKey.verifySignature, hd.VK, if_neg (not_not.2 ((pair_eq_iff G _ _ _).2 rfl))]

omit [AddCommGroup G2] [Module F G2] in
theorem lagrange_eq {S : Finset Nat} {j : Nat} (hS : S.card = PK.k) (hsub : S ⊆ Finset.range PK.l) (hj : j ∈ S) :
    PK.lagrange S j = .ok (weight S (shareNode (F := F)) j) := by
  have hnum : ∀ jj : Nat, ((0 - jj - 1 : Int) : F) = 0 - shareNode jj := by
    intro jj
    rw [shareNode]
    push_cast
    ring
  have hden : ∀ jj : Nat, ((j - jj : Int) : F) = shareNode j - shareNode jj := by
    intro jj
    rw [shareNode, shareNode]
    push_cast
    ring
  rw [TBLSPublicKey.lagrange, if_pos ⟨hS, hsub, hj⟩, weight]
  simp only [hnum, hden]

theorem shareNode_injOn {l : Nat} (hl : Set.InjOn (Nat.cast : Nat → F) (Set.Iic l)) {S : Finset Nat}
    (hS : S ⊆ Finset.range l) : Set.InjOn (shareNode (F := F)) S := by
  intro i hi j hj hij
  have hi := Finset.mem_range.1 (hS hi)
  have hj := Finset.mem_range.1 (hS hj)
  exact hl (Set.mem_Iic.2 (by omega)) (Set.mem_Iic.2 (by omega)) (add_right_cancel hij)

/-- **Any `k` shares combine to the signature.** -/
theorem Dealt.combineShares_eq (hd : Dealt G P PK) (hl : Set.InjOn (Nat.cast : Nat → F) (Set.Iic PK.l)) {h : G1}
    {sigs : List (Nat × GroupElement G1)} (hlen : sigs.length = PK.k) (hnodup : (sigs.map Prod.fst).Nodup)
    (hsigs : ∀ e ∈ sigs, e.1 < PK.l ∧ e.2 = .g1 (P.eval (shareNode e.1) • h)) :
    TBLSPublicKey.combineShares (F := F) PK sigs = .ok (P.eval 0 • h) := by
  have hcard : (sigs.map Prod.fst).toFinset.card = PK.k := by
    rw [List.toFinset_card_of_nodup hnodup, List.length_map, hlen]
  have hsub : (sigs.map Prod.fst).toFinset ⊆ Finset.range PK.l := by
    intro i hi
    obtain ⟨e, he, rfl⟩ := List.mem_map.1 (List.mem_toFinset.1 hi)
    exact Finset.mem_range.2 (hsigs e he).1
  have hterms : sigs.mapM (fun e => (do
      let x : F ← PK.lagrange (sigs.map Prod.fst).toFinset e.1
      TBLSPublicKey.power x e.2 : Except Exn G1)) =
        .ok ((sigs.map Prod.fst).map (fun j => weight (sigs.map Prod.fst).toFinset (shareNode (F := F)) j •
          (P.eval (shareNode j) • h))) := by
    rw [mapM_eq_ok, List.map_map]
    refine List.forall₂_map_right_iff.2 (List.forall₂_same.2 (fun e he => ?_))
    have hmem : e.1 ∈ (sigs.map Prod.fst).toFinset := List.mem_toFinset.2 (List.mem_map_of_mem he)
    rw [lagrange_eq hcard hsub hmem, (hsigs e he).2]
    rfl
  have hsum := sum_weight_smul (shareNode_injOn hl hsub) (hcard.symm ▸ hd.degree) h
  rw [List.sum_toFinset _ hnodup] at hsum
  simp only [TBLSPublicKey.combineShares, hsub, not_true_eq_false, if_false, bind, Except.bind, pure, Except.pure]
    at hterms ⊢
  rw [hterms]
  simp only [hsum]

end Keys

/-! ## Reconstruction -/

omit [AddCommGroup G2] [Module F G2] in
/-- What `dealer` checks last: the weights of `range(k)` give back the secret. -/
theorem exists_reconstruction (PK : TBLSPublicKey G2) (hl : Set.InjOn (Nat.cast : Nat → F) (Set.Iic PK.l)) (hk : PK.k ≤ PK.l)
    {a : List F} (ha : a.length = PK.k) : ∃ rhs, (List.range PK.k).mapM (fun j => (do
      let x ← PK.lagrange (Finset.range PK.k) j
      return x * polynomEval ((j + 1 : Nat) : F) a : Except Exn F)) = .ok rhs ∧ rhs.sum = polynomEval 0 a := by
  have hcard : (Finset.range PK.k).card = PK.k := Finset.card_range _
  have hsub : Finset.range PK.k ⊆ Finset.range PK.l := Finset.range_subset_range.2 hk
  refine ⟨(List.range PK.k).map (fun j => weight (Finset.range PK.k) (shareNode (F := F)) j *
    (poly a).eval (shareNode j)), ?_, ?_⟩
  · rw [mapM_eq_ok]
    refine List.forall₂_map_right_iff.2 (List.forall₂_same.2 (fun j hj => ?_))
    rw [lagrange_eq hcard hsub (Finset.mem_range.2 (List.mem_range.1 hj)), polynomEval_eq, shareNode, Nat.cast_succ]
    rfl
  · have hdegree : (poly a).degree < (Finset.range PK.k).card := by
      rw [hcard, ← ha]
      exact degree_poly_lt a
    rw [polynomEval_eq, ← sum_weight (shareNode_injOn hl hsub) hdegree]
    rfl

/-- **`dealer` deals**: its checks pass. -/
theorem dealer_ok [DecidableEq F] (G : PairingGroup F G1 G2 GT) {players : Nat} {a : List F} (ha : a ≠ [])
    (hk : a.length ≤ players) (hl : Set.InjOn (Nat.cast : Nat → F) (Set.Iic players)) :
    ∃ PK SKs, dealer G players a.length a = .ok (PK, SKs) ∧ PK.l = players ∧ PK.k = a.length := by
  cases a with
  | nil => exact absurd rfl ha
  | cons secret a =>
    have hzero : polynomEval 0 (secret :: a) = secret := by
      rw [polynomEval_eq, eval_poly_cons, zero_mul, add_zero]
    let SKs := (List.range players).map (fun i => polynomEval ((i + 1 : Nat) : F) (secret :: a))
    let PK : TBLSPublicKey G2 := ⟨players, (secret :: a).length, secret • G.g2, SKs.map (fun x => x • G.g2)⟩
    obtain ⟨rhs, hrhs, hsum⟩ := exists_reconstruction PK hl hk (rfl : (secret :: a).length = PK.k)
    refine ⟨PK, SKs.zipIdx.map (fun e => ⟨PK, e.1, e.2⟩), ?_, rfl, rfl⟩
    simp only [dealer, bind, Except.bind, pure, Except.pure, ne_eq, not_true_eq_false, if_false, List.head?_cons] at hrhs ⊢
    rw [hrhs]
    simp only [hzero, hsum, not_true_eq_false, if_false]
    rfl

/-- The shares of the parties `S` for the hash `h` verify, and combine in any order to `sig`. -/
def SharesCombine [DecidableEq GT] (G : PairingGroup F G1 G2 GT) (PK : TBLSPublicKey G2) (SKs : List (TBLSPrivateKey F G2))
    (h sig : G1) (S : Finset Nat) : Prop :=
  (∀ i ∈ S, ∃ SK, SKs[i]? = some SK ∧ PK.verifyShare G (.g1 (SK.sign h)) i h = .ok ()) ∧
  ∀ sigs : List (Nat × GroupElement G1), (sigs.map Prod.fst).Nodup → (sigs.map Prod.fst).toFinset = S →
    (∀ e ∈ sigs, ∃ SK, SKs[e.1]? = some SK ∧ e.2 = .g1 (SK.sign h)) →
      TBLSPublicKey.combineShares (F := F) PK sigs = .ok sig

/-- **Threshold signatures reconstruct**: the shares of any `k` parties verify and combine to one value, the signature
under the secret, and it verifies. -/
theorem boldyreva_reconstructs [DecidableEq F] [DecidableEq GT] (G : PairingGroup F G1 G2 GT) {order : Nat} [CharP F order]
    {l : Nat} {a : List F} (ha : a ≠ []) (hk : a.length ≤ l) (hl : l < order) :
    ∃ PK SKs, dealer G l a.length a = .ok (PK, SKs) ∧ ∀ h : G1,
      (∀ S ⊆ Finset.range l, S.card = a.length → SharesCombine G PK SKs h (a.head ha • h) S) ∧
      PK.verifySignature G (a.head ha • h) h = .ok () := by
  have hcast : Set.InjOn (Nat.cast : Nat → F) (Set.Iic l) := (CharP.natCast_injOn_Iio F order).mono
    (fun i hi => Set.mem_Iio.2 (Nat.lt_of_le_of_lt (Set.mem_Iic.1 hi) hl))
  obtain ⟨PK, SKs, hdealer, hPKl, hPKk⟩ := dealer_ok G ha hk hcast
  obtain ⟨hd, hSKs⟩ := dealer_spec hdealer
  have hsecret : (poly a).eval 0 = a.head ha := by
    cases a with
    | nil           => exact absurd rfl ha
    | cons secret a => rw [eval_poly_cons, zero_mul, add_zero, List.head_cons]
  refine ⟨PK, SKs, hdealer, fun h => ⟨fun S hS hcard => ⟨fun i hi => ?_, fun sigs hnodup hkeys hsigs => ?_⟩, ?_⟩⟩
  · have hi' : i < PK.l := hPKl ▸ Finset.mem_range.1 (hS hi)
    exact ⟨_, hSKs i hi', (hd.verifyShare_iff hi' _ h).2 rfl⟩
  · rw [← hsecret]
    refine hd.combineShares_eq (hPKl ▸ hcast) ?_ hnodup (fun e he => ?_)
    · rw [hPKk, ← hcard, ← hkeys, List.toFinset_card_of_nodup hnodup, List.length_map]
    · have hlt : e.1 < PK.l := by
        rw [hPKl, ← Finset.mem_range]
        exact hS (hkeys ▸ List.mem_toFinset.2 (List.mem_map_of_mem he))
      obtain ⟨SK, hSK, hsig⟩ := hsigs e he
      cases hSK.symm.trans (hSKs e.1 hlt)
      exact ⟨hlt, hsig⟩
  · rw [← hsecret]
    exact hd.verifySignature_eq h

end Scheme

/-! ## Order 13 -/

instance prime13 : Fact (Nat.Prime 13) := ⟨by norm_num⟩

/-- A pairing group of order 13. -/
def group13 : PairingGroup (ZMod 13) (ZMod 13) (ZMod 13) (ZMod 13) where
  g2 := 1
  pair := LinearMap.mul (ZMod 13) (ZMod 13)
  nondegenerate := by
    intro x h
    simpa using h
  hash b := (bytesToNat b : ZMod 13)
  serialize x := [UInt8.ofNat x.val]
  deserialize b :=
    match b with
    | [x] => if x.toNat < 13 then some (.g1 (x.toNat : ZMod 13)) else none
    | _   => none
  deserialize_serialize := by decide

theorem boldyreva_reconstructs_four : ∃ PK SKs, dealer group13 4 2 [3, 5] = .ok (PK, SKs) ∧ ∀ h : ZMod 13,
    (∀ S ⊆ Finset.range 4, S.card = 2 → SharesCombine group13 PK SKs h ((3 : ZMod 13) • h) S) ∧
    PK.verifySignature group13 ((3 : ZMod 13) • h) h = .ok () :=
  boldyreva_reconstructs group13 (a := [3, 5]) (by decide) (by decide) (by decide)

end Dpid
