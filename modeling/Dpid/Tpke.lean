import Dpid.Secp256k1
import Dpid.ThreshSig
/-!
# Tpke — threshold encryption, `crypto/threshenc/tpke.py`

The pairing library is a parameter, as in `ThreshSig`, here with one group on both sides: `g2 = g1`.  A message is masked
with the hash of `r VK`; a decryption share of `U = r g1` is `P (i + 1) • U` for the dealer's polynomial `P`, so any `k`
of them combine to `P 0 • U = r VK`.
-/
namespace Dpid

/-- The most entries a list can have. -/
def sysMaxsize : Nat := 2 ^ 63 - 1

/-- What the code uses of the pairing library. -/
structure SymmetricGroup (F G GT : Type) [Field F] [AddCommGroup G] [Module F G] [AddCommGroup GT] [Module F GT] where
  g1 : G
  pair : G →ₗ[F] G →ₗ[F] GT
  hash : Bytes → G
  serialize : G → Bytes

structure TPKEPublicKey (G : Type) where
  l : Nat
  k : Nat
  VK : G
  VKs : List G
deriving DecidableEq

structure TPKEPrivateKey (F G : Type) extends TPKEPublicKey G where
  SK : F
  i : Nat
deriving DecidableEq

namespace Tpke

section Scheme

variable {F G GT : Type} [Field F] [AddCommGroup G] [Module F G] [AddCommGroup GT] [Module F GT]

def g2 (E : SymmetricGroup F G GT) : G := E.g1

def xor (x y : Bytes) : Except Exn Bytes :=
  if x.length = 32 ∧ y.length = 32 then .ok (List.zipWith (· ^^^ ·) x y) else .error .assertionError

def hashG (H : Hash) (E : SymmetricGroup F G GT) (g : G) : Bytes := H (E.serialize g)

def hashH (E : SymmetricGroup F G GT) (g : G) (x : Bytes) : Except Exn G :=
  if x.length = 32 then .ok (E.hash (E.serialize g ++ x)) else .error .assertionError

/-- `lagrange`, the same as that of `TBLSPublicKey`. -/
def lagrange (PK : TPKEPublicKey G) (S : Finset Nat) (j : Nat) : Except Exn F :=
  TBLSPublicKey.lagrange ⟨PK.l, PK.k, PK.VK, PK.VKs⟩ S j

/-- `encrypt` with the random `r`. -/
def encrypt (H : Hash) (E : SymmetricGroup F G GT) (PK : TPKEPublicKey G) (r : F) (m : Bytes) :
    Except Exn (G × Bytes × G) := do
  if m.length ≠ 32 then throw .assertionError
  let U := r • E.g1
  let V ← xor m (hashG H E (r • PK.VK))
  let W ← hashH E U V
  return (U, V, r • W)

def verifyCiphertext [DecidableEq GT] (E : SymmetricGroup F G GT) (U : G) (V : Bytes) (W : G) : Except Exn Unit := do
  let h ← hashH E U V
  if E.pair E.g1 W ≠ E.pair U h then throw .assertionError

def verifyShare [DecidableEq GT] (E : SymmetricGroup F G GT) (PK : TPKEPublicKey G) (i : Nat) (Ui U : G) :
    Except Exn Unit := do
  if PK.l ≤ i then throw .assertionError
  match PK.VKs[i]? with
  | none    => throw .indexError
  | some Yi => if E.pair Ui (g2 E) ≠ E.pair U Yi then throw .assertionError

def combineShares [DecidableEq GT] (H : Hash) (E : SymmetricGroup F G GT) (PK : TPKEPublicKey G) (U : G) (V : Bytes)
    (shares : List (Nat × G)) : Except Exn Bytes := do
  let S := (shares.map Prod.fst).toFinset
  if ¬ S ⊆ Finset.range PK.l then throw .assertionError
  let _ ← shares.mapM (fun e => verifyShare E PK e.1 e.2 U)
  let terms ← shares.mapM (fun e => do
    let x : F ← lagrange PK S e.1
    return x • e.2)
  xor (hashG H E terms.sum) V

def decryptShare [DecidableEq GT] (E : SymmetricGroup F G GT) (key : TPKEPrivateKey F G) (U : G) (V : Bytes) (W : G) :
    Except Exn G := do
  verifyCiphertext E U V W
  return key.SK • U

/-- `dealer` with the random `secret` and the further coefficients `draws 0, draws 1, …`. -/
def dealer [DecidableEq F] (E : SymmetricGroup F G GT) (players k : Nat) (secret : F) (draws : Nat → F) :
    Except Exn (TPKEPublicKey G × List (TPKEPrivateKey F G)) := do
  let a := secret :: (List.range (k - 1)).map draws
  if a.length ≠ k then throw .assertionError
  if sysMaxsize < players then throw .memoryError
  let SKs := (List.range players).map (fun i => polynomEval ((i + 1 : Nat) : F) a)
  if polynomEval 0 a ≠ secret then throw .assertionError
  let PK : TPKEPublicKey G := ⟨players, k, secret • g2 E, SKs.map (fun x => x • g2 E)⟩
  let rhs ← (List.range k).mapM (fun j => do
    let x ← lagrange PK (Finset.range k) j
    return x * polynomEval ((j + 1 : Nat) : F) a)
  if polynomEval 0 a ≠ rhs.sum then throw .assertionError
  return (PK, SKs.zipIdx.map (fun e => ⟨PK, e.1, e.2⟩))

/-! ## Masks -/

theorem zipWith_xor_cancel : ∀ x y : Bytes, x.length = y.length →
    List.zipWith (· ^^^ ·) y (List.zipWith (· ^^^ ·) x y) = x
  | [], [], _         => rfl
  | a :: x, b :: y, h => by
    have hab : b ^^^ (a ^^^ b) = a := by rw [UInt8.xor_comm a b, ← UInt8.xor_assoc, UInt8.xor_self, UInt8.zero_xor]
    rw [List.zipWith_cons_cons, List.zipWith_cons_cons, hab, zipWith_xor_cancel x y (Nat.succ.inj h)]

/-- **A mask put on comes off.** -/
theorem xor_xor {x y : Bytes} (hx : x.length = 32) (hy : y.length = 32) :
    ∃ V, xor x y = .ok V ∧ V.length = 32 ∧ xor y V = .ok x := by
  have hV : (List.zipWith (· ^^^ ·) x y).length = 32 := by rw [List.length_zipWith, hx, hy]; rfl
  refine ⟨_, if_pos ⟨hx, hy⟩, hV, ?_⟩
  rw [xor, if_pos ⟨hy, hV⟩, zipWith_xor_cancel x y (hx.trans hy.symm)]

/-! ## Keys -/

open Shamir Polynomial

structure Dealt (E : SymmetricGroup F G GT) (P : F[X]) (PK : TPKEPublicKey G) (SKs : List (TPKEPrivateKey F G)) :
    Prop where
  small : PK.l ≤ sysMaxsize
  degree : P.degree < PK.k
  VK : PK.VK = P.eval 0 • E.g1
  VKs : ∀ i < PK.l, PK.VKs[i]? = some (P.eval (shareNode i) • E.g1)
  SKs : ∀ i < PK.l, SKs[i]? = some ⟨PK, P.eval (shareNode i), i⟩

/-- **What `dealer` returns.** -/
theorem dealer_spec [DecidableEq F] {E : SymmetricGroup F G GT} {players k : Nat} {secret : F} {draws : Nat → F}
    {PK : TPKEPublicKey G} {SKs : List (TPKEPrivateKey F G)} (h : dealer E players k secret draws = .ok (PK, SKs)) :
    Dealt E (poly (secret :: (List.range (k - 1)).map draws)) PK SKs ∧ PK.l = players ∧ PK.k = k := by
  generalize ha : secret :: (List.range (k - 1)).map draws = a
  simp only [dealer, ha, bind, Except.bind, throw, throwThe, MonadExceptOf.throw, pure, Except.pure] at h
  split at h
  · cases h
  · rename_i hlen
    split at h
    · cases h
    · rename_i hsmall
      split at h
      · cases h
      · rename_i hzero
        split at h
        · cases h
        · split at h
          · cases h
          · simp only [Except.ok.injEq, Prod.mk.injEq] at h
            obtain ⟨rfl, rfl⟩ := h
            simp only [ne_eq, not_not] at hlen hzero
            refine ⟨⟨Nat.le_of_not_lt hsmall, ?_, ?_, fun i hi => ?_, fun i hi => ?_⟩, rfl, rfl⟩
            · rw [← hlen]
              exact degree_poly_lt a
            · rw [← polynomEval_eq, hzero]
              rfl
            · rw [List.getElem?_map, getElem?_shares a hi, Option.map_some]
              rfl
            · rw [List.getElem?_map, List.getElem?_zipIdx, getElem?_shares a hi, Option.map_some, Option.map_some,
                Nat.zero_add]

/-- **`dealer` deals**: its checks pass. -/
theorem dealer_ok [DecidableEq F] (E : SymmetricGroup F G GT) {players k : Nat} (secret : F) (draws : Nat → F)
    (hk : 0 < k) (hkp : k ≤ players) (hsmall : players ≤ sysMaxsize)
    (hl : Set.InjOn (Nat.cast : Nat → F) (Set.Iic players)) :
    ∃ PK SKs, dealer E players k secret draws = .ok (PK, SKs) := by
  generalize ha : secret :: (List.range (k - 1)).map draws = a
  have hlen : a.length = k := by rw [← ha, List.length_cons, List.length_map, List.length_range]; omega
  have hzero : polynomEval 0 a = secret := by rw [← ha, polynomEval_eq, eval_poly_cons, zero_mul, add_zero]
  let SKs := (List.range players).map (fun i => polynomEval ((i + 1 : Nat) : F) a)
  let PK : TPKEPublicKey G := ⟨players, k, secret • g2 E, SKs.map (fun x => x • g2 E)⟩
  obtain ⟨rhs, hrhs, hsum⟩ := exists_reconstruction ⟨players, k, PK.VK, PK.VKs⟩ hl hkp hlen
  refine ⟨PK, SKs.zipIdx.map (fun e => ⟨PK, e.1, e.2⟩), ?_⟩
  simp only [dealer, lagrange, ha, bind, Except.bind, pure, Except.pure, hlen, ne_eq, not_true_eq_false, if_false,
    if_neg (Nat.not_lt.2 hsmall), hzero] at hrhs ⊢
  rw [hrhs]
  simp only [hsum, hzero, not_true_eq_false, if_false]
  rfl

/-! ## Ciphertexts -/

section Keys

variable {H : Hash} {E : SymmetricGroup F G GT} {P : F[X]} {PK : TPKEPublicKey G} {SKs : List (TPKEPrivateKey F G)}

theorem pair_smul_comm (E : SymmetricGroup F G GT) (x : F) (u v : G) : E.pair (x • u) v = E.pair u (x • v) := by
  rw [map_smul, LinearMap.smul_apply, map_smul]

/-- **What is encrypted verifies**, and the mask is the hash of `r VK`. -/
theorem exists_encrypt [DecidableEq GT] (H : Hash) (E : SymmetricGroup F G GT) (PK : TPKEPublicKey G) (r : F) {m : Bytes}
    (hm : m.length = 32) : ∃ V W, encrypt H E PK r m = .ok (r • E.g1, V, W) ∧ xor (hashG H E (r • PK.VK)) V = .ok m ∧
      verifyCiphertext E (r • E.g1) V W = .ok () := by
  obtain ⟨V, hV, hlen, hback⟩ := xor_xor hm (H.length_digest (E.serialize (r • PK.VK)))
  have hhash : hashH E (r • E.g1) V = .ok (E.hash (E.serialize (r • E.g1) ++ V)) := if_pos hlen
  have hV' : xor m (hashG H E (r • PK.VK)) = .ok V := hV
  refine ⟨V, r • E.hash (E.serialize (r • E.g1) ++ V), ?_, hback, ?_⟩
  · rw [encrypt, if_neg (not_not.2 hm)]
    simp only [hV', hhash, bind, Except.bind, pure, Except.pure]
  · rw [verifyCiphertext, hhash]
    simp only [bind, Except.bind]
    rw [if_neg (not_not.2 (pair_smul_comm E r E.g1 _).symm)]
    rfl

theorem Dealt.verifyShare [DecidableEq GT] (hd : Dealt E P PK SKs) {i : Nat} (hi : i < PK.l) (U : G) :
    verifyShare E PK i (P.eval (shareNode i) • U) U = .ok () := by
  simp only [Tpke.verifyShare, hd.VKs i hi, if_neg (Nat.not_le.2 hi), bind, Except.bind, pure, Except.pure]
  have hpair : E.pair (P.eval (shareNode i) • U) (g2 E) = E.pair U (P.eval (shareNode i) • E.g1) := pair_smul_comm E _ U E.g1
  rw [if_neg (not_not.2 hpair)]

/-- **Any `k` shares combine to the secret's**, and the mask comes off. -/
theorem Dealt.combineShares_eq [DecidableEq GT] (hd : Dealt E P PK SKs)
    (hl : Set.InjOn (Nat.cast : Nat → F) (Set.Iic PK.l)) {U : G} {V : Bytes} {shares : List (Nat × G)}
    (hlen : shares.length = PK.k) (hnodup : (shares.map Prod.fst).Nodup)
    (hshares : ∀ e ∈ shares, e.1 < PK.l ∧ e.2 = P.eval (shareNode e.1) • U) :
    combineShares H E PK U V shares = xor (hashG H E (P.eval 0 • U)) V := by
  have hcard : (shares.map Prod.fst).toFinset.card = PK.k := by
    rw [List.toFinset_card_of_nodup hnodup, List.length_map, hlen]
  have hsub : (shares.map Prod.fst).toFinset ⊆ Finset.range PK.l := by
    intro i hi
    obtain ⟨e, he, rfl⟩ := List.mem_map.1 (List.mem_toFinset.1 hi)
    exact Finset.mem_range.2 (hshares e he).1
  have hverify : shares.mapM (fun e => Tpke.verifyShare E PK e.1 e.2 U) = .ok (shares.map (fun _ => ())) := by
    rw [mapM_eq_ok]
    refine List.forall₂_map_right_iff.2 (List.forall₂_same.2 (fun e he => ?_))
    rw [(hshares e he).2]
    exact hd.verifyShare (hshares e he).1 U
  have hterms : shares.mapM (fun e => (do
      let x : F ← lagrange PK (shares.map Prod.fst).toFinset e.1
      return x • e.2 : Except Exn G)) =
        .ok ((shares.map Prod.fst).map (fun j => weight (shares.map Prod.fst).toFinset (shareNode (F := F)) j •
          (P.eval (shareNode j) • U))) := by
    rw [mapM_eq_ok, List.map_map]
    refine List.forall₂_map_right_iff.2 (List.forall₂_same.2 (fun e he => ?_))
    have hmem : e.1 ∈ (shares.map Prod.fst).toFinset := List.mem_toFinset.2 (List.mem_map_of_mem he)
    rw [lagrange, lagrange_eq hcard hsub hmem, (hshares e he).2]
    rfl
  have hsum := sum_weight_smul (shareNode_injOn hl hsub) (hcard.symm ▸ hd.degree) U
  rw [List.sum_toFinset _ hnodup] at hsum
  simp only [combineShares, hsub, not_true_eq_false, if_false, bind, Except.bind, pure, Except.pure] at hverify hterms ⊢
  rw [hverify, hterms]
  simp only [hsum]

end Keys

/-- The shares of the parties `S` of a ciphertext verify, and combine in any order to `m`. -/
def SharesDecrypt [DecidableEq GT] (H : Hash) (E : SymmetricGroup F G GT) (PK : TPKEPublicKey G)
    (SKs : List (TPKEPrivateKey F G)) (U : G) (V : Bytes) (W : G) (m : Bytes) (S : Finset Nat) : Prop :=
  (∀ i ∈ S, ∃ SK Ui, SKs[i]? = some SK ∧ decryptShare E SK U V W = .ok Ui ∧ verifyShare E PK i Ui U = .ok ()) ∧
  ∀ shares : List (Nat × G), (shares.map Prod.fst).Nodup → (shares.map Prod.fst).toFinset = S →
    (∀ e ∈ shares, ∃ SK, SKs[e.1]? = some SK ∧ decryptShare E SK U V W = .ok e.2) →
      combineShares H E PK U V shares = .ok m

/-- **Threshold decryption inverts encryption**: for every dealing, message and randomness the ciphertext verifies, so
does every share of it, and the shares of any `k` parties combine to the message.  The order of the groups exceeds the
length of a list. -/
theorem tpke_round_trip [DecidableEq F] [DecidableEq GT] {H : Hash} {E : SymmetricGroup F G GT} {order : Nat} [CharP F order]
    (horder : sysMaxsize < order) {players k : Nat} {secret : F} {draws : Nat → F} {PK : TPKEPublicKey G}
    {SKs : List (TPKEPrivateKey F G)} (hdeal : dealer E players k secret draws = .ok (PK, SKs)) {m : Bytes}
    (hm : m.length = 32) (r : F) :
    ∃ U V W, encrypt H E PK r m = .ok (U, V, W) ∧ verifyCiphertext E U V W = .ok () ∧
      ∀ S ⊆ Finset.range players, S.card = k → SharesDecrypt H E PK SKs U V W m S := by
  obtain ⟨hd, rfl, rfl⟩ := dealer_spec hdeal
  have hcast : Set.InjOn (Nat.cast : Nat → F) (Set.Iic PK.l) := (CharP.natCast_injOn_Iio F order).mono
    (fun i hi => Set.mem_Iio.2 (Nat.lt_of_le_of_lt ((Set.mem_Iic.1 hi).trans hd.small) horder))
  obtain ⟨V, W, henc, hback, hverify⟩ := exists_encrypt H E PK r hm
  have hdecrypt : ∀ SK : TPKEPrivateKey F G, decryptShare E SK (r • E.g1) V W = .ok (SK.SK • (r • E.g1)) := by
    intro SK
    rw [decryptShare, hverify]
    rfl
  refine ⟨r • E.g1, V, W, henc, hverify, fun S hS hcard => ⟨fun i hi => ?_, fun shares hnodup hkeys hshares => ?_⟩⟩
  · have hi' : i < PK.l := Finset.mem_range.1 (hS hi)
    exact ⟨_, _, hd.SKs i hi', hdecrypt _, hd.verifyShare hi' _⟩
  · have hlen : shares.length = PK.k := by
      rw [← hcard, ← hkeys, List.toFinset_card_of_nodup hnodup, List.length_map]
    rw [hd.combineShares_eq hcast hlen hnodup (fun e he => ?_), smul_comm, ← hd.VK, hback]
    have hlt : e.1 < PK.l := Finset.mem_range.1 (hS (hkeys ▸ List.mem_toFinset.2 (List.mem_map_of_mem he)))
    obtain ⟨SK, hSK, hshare⟩ := hshares e he
    cases hSK.symm.trans (hd.SKs e.1 hlt)
    exact ⟨hlt, Except.ok.inj (hshare.symm.trans (hdecrypt _))⟩

end Scheme

/-! ## A prime order beyond every list -/

instance primeOrder : Fact Secp256k1.order.Prime := ⟨Secp256k1.prime_order⟩

/-- A symmetric pairing group of that order. -/
def groupOfOrder : SymmetricGroup (ZMod Secp256k1.order) (ZMod Secp256k1.order) (ZMod Secp256k1.order) where
  g1 := 1
  pair := LinearMap.mul _ _
  hash b := (bytesToNat b : ZMod Secp256k1.order)
  serialize x := (List.range 32).map (fun i => UInt8.ofNat (x.val / 256 ^ (31 - i)))

theorem tpke_round_trip_four : ∃ PK SKs, dealer groupOfOrder 4 2 3 (fun _ => 5) = .ok (PK, SKs) ∧
    ∃ U V W, encrypt sha256 groupOfOrder PK 7 (List.replicate 32 1) = .ok (U, V, W) ∧
      verifyCiphertext groupOfOrder U V W = .ok () ∧
      ∀ S ⊆ Finset.range 4, S.card = 2 → SharesDecrypt sha256 groupOfOrder PK SKs U V W (List.replicate 32 1) S := by
  have horder : sysMaxsize < Secp256k1.order := by decide +kernel
  obtain ⟨PK, SKs, hdeal⟩ := dealer_ok groupOfOrder (k := 2) 3 (fun _ => 5) (by decide) (by decide) (by decide)
    ((CharP.natCast_injOn_Iio (ZMod Secp256k1.order) Secp256k1.order).mono
      (fun i hi => Set.mem_Iio.2 (Nat.lt_of_le_of_lt (Set.mem_Iic.1 hi) (by decide +kernel : 4 < Secp256k1.order))))
  exact ⟨PK, SKs, hdeal, tpke_round_trip horder hdeal (by decide) 7⟩

end Tpke
end Dpid
