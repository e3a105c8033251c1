import Dpid.SharedPoint
import Dpid.TreeFold
import Mathlib.Algebra.BigOperators.Group.List.Basic
/-!
# MimcPkc — encryption under a shared key (`progs/mimc.py`, `progs/jubjub.py`, `progs/mimc_jubjub_pkc.py`)

A message block is masked with the MiMC cipher of its index under the first coordinate of a point; `mimc_decrypt` finds
that point as shares from the bits of the private key and ciphers under masked cubings.  Shares stand for what they open
to; the arithmetic of local points is the library's.
-/
namespace Dpid
namespace Jubjub

open TreeFold

variable {F : Type*} [Field F]

/-! ## The cipher -/

/-- `ceil(log(p, 3))`. -/
def ROUND : Nat := 161

def mimcPlain (x k : F) : F := (List.range ROUND).foldl (fun inp ctr => (inp + (k + (ctr : Nat))) ^ 3) x + k

/-- What `get_cubes` returns. -/
structure Cubes (F : Type*) where
  r1 : F
  r2 : F
  r3 : F

/-- Correct preprocessing: a random element with its square and its cube. -/
def Cubes.Ok (c : Cubes F) : Prop := c.r2 = c.r1 ^ 2 ∧ c.r3 = c.r1 ^ 3

/-- `cubing_share(x)`. -/
def cubingShare (c : Cubes F) (x : F) : F :=
  let y := x - c.r1
  (3 : Nat) * y * c.r2 + (3 : Nat) * y ^ 2 * c.r1 + y ^ 3 + c.r3

/-- `mimc_mpc(x, k)`, with the cubes of its rounds. -/
def mimcMpc (cubes : Nat → Cubes F) (x k : F) : F :=
  (List.range ROUND).foldl (fun inp ctr => cubingShare (cubes ctr) (k + ((ctr : Nat) + inp))) x + k

/-- **Masked cubing is cubing.** -/
theorem cubingShare_eq {c : Cubes F} (h : c.Ok) (x : F) : cubingShare c x = x ^ 3 := by
  rw [cubingShare, h.1, h.2]
  ring

/-- **The two ciphers agree**, round by round. -/
theorem mimcMpc_eq {cubes : Nat → Cubes F} (h : ∀ ctr, (cubes ctr).Ok) (x k : F) : mimcMpc cubes x k = mimcPlain x k := by
  have hround : ∀ (inp : F) (ctr : Nat), cubingShare (cubes ctr) (k + (ctr + inp)) = (inp + (k + ctr)) ^ 3 := by
    intro inp ctr
    rw [cubingShare_eq (h ctr)]
    ring
  rw [mimcMpc, mimcPlain]
  simp only [hround]

/-! ## Multiplying by shared bits -/

/-- The arithmetic of local points, with what the library documents of it: doubling and integer multiples, `Ideal` for
the multiple by zero. -/
structure LocalArith (J : JubjubCurve F) where
  double : F × F → F × F
  mul : Int → F × F → LocalPoint F
  double_eq : ∀ P : J.Point, double P.coords = (P + P).coords
  mul_eq : ∀ (n : Int) (P : J.Point), mul n P.coords = if n = 0 then .ideal else .point (n • P).x (n • P).y

/-- A multiple of a local point, `Ideal` staying what it is. -/
def LocalArith.smul {J : JubjubCurve F} (L : LocalArith J) (n : Int) : LocalPoint F → LocalPoint F
  | .point x y => L.mul n (x, y)
  | .ideal     => .ideal

variable [DecidableEq F] {J : JubjubCurve F}

/-- The terms of `share_mul`. -/
def terms (L : LocalArith J) : List F → F × F → List (SharedPoint F)
  | [], _        => []
  | b :: bs, p2i => .point (p2i.1 * b) ((p2i.2 - 1) * b + 1) :: terms L bs (L.double p2i)

/-- The tree sum of `share_mul`, for at most `fuel` tests of its condition. -/
def sumTerms (J : JubjubCurve F) : Nat → List (SharedPoint F) → Option (Except Exn (SharedPoint F))
  | 0, _          => none
  | fuel + 1, ts =>
    if 1 < ts.length then
      let leftTerms := evens ts
      let rightTerms := odds ts
      match (leftTerms.zip rightTerms).mapM (fun t => SharedPoint.add J t.1 t.2) with
      | .error e => some (.error e)
      | .ok sums =>
        sumTerms J fuel (sums ++ if rightTerms.length < leftTerms.length then leftTerms.getLast?.toList else [])
    else match ts with
      | []     => some (.error .indexError)
      | t :: _ => some (.ok t)

/-- `share_mul(bs, p)`. -/
def shareMul (L : LocalArith J) (fuel : Nat) (bs : List F) : LocalPoint F → Option (Except Exn (SharedPoint F))
  | .ideal     => some (.ok .ideal)
  | .point x y => sumTerms J fuel (terms L bs (x, y))

/-- `GP`. -/
def GP (F : Type*) [Field F] : LocalPoint F := .point (generator F).1 (generator F).2

/-- `key_generation`, with the bits of the preprocessing. -/
def keyGeneration (L : LocalArith J) (fuel : Nat) (bits : List F) : Option (Except Exn (List F × LocalPoint F)) :=
  (shareMul L fuel bits (GP F)).map (fun r => r.map (fun pubKeyShare => (bits, pubKeyShare.opened)))

def mimcEncrypt (L : LocalArith J) (pubKey : LocalPoint F) (ms : List F) (a : Int) :
    Except Exn (List F × LocalPoint F) :=
  let a_ := L.smul a (GP F)
  match L.smul a pubKey with
  | .ideal     => .error .attributeError
  | .point k _ => .ok (ms.zipIdx.map (fun (m, idx) => mimcPlain ((idx : Nat) : F) k + m), a_)

/-- `mimc_decrypt`, with the cubes of each block. -/
def mimcDecrypt (L : LocalArith J) (fuel : Nat) (cubes : Nat → Nat → Cubes F) (privKey : List F)
    (ciphertext : List F × LocalPoint F) : Option (Except Exn (List F)) :=
  match shareMul L fuel privKey ciphertext.2 with
  | none                       => none
  | some (.error e)            => some (.error e)
  | some (.ok .ideal)          => some (.error .attributeError)
  | some (.ok (.point xs _))   =>
    some (.ok (ciphertext.1.zipIdx.map (fun (c, i) => c - mimcMpc (cubes i) ((i : Nat) : F) xs)))

/-! ## The tree sum -/

theorem mapM_add_ofPoint (J : JubjubCurve F) : ∀ ps qs : List J.Point,
    ((ps.map SharedPoint.ofPoint).zip (qs.map SharedPoint.ofPoint)).mapM (fun t => SharedPoint.add J t.1 t.2) =
      .ok ((List.zipWith (· + ·) ps qs).map SharedPoint.ofPoint)
  | [], _           => rfl
  | _ :: _, []      => rfl
  | p :: ps, q :: qs => by
    rw [List.map_cons, List.map_cons, List.zip_cons_cons, List.mapM_cons, mapM_add_ofPoint J ps qs,
      SharedPoint.add_ofPoint]
    rfl

/-- One round of the tree sum joins neighbours. -/
theorem sumTerms_succ {ps : List J.Point} (h : 1 < ps.length) (fuel : Nat) :
    sumTerms J (fuel + 1) (ps.map SharedPoint.ofPoint) = sumTerms J fuel ((pairUp (· + ·) ps).map SharedPoint.ofPoint) := by
  have hlen : 1 < (ps.map (SharedPoint.ofPoint (J := J))).length := by rwa [List.length_map]
  have hsums := mapM_add_ofPoint J (evens ps) (odds ps)
  rw [← evens_map, ← odds_map] at hsums
  rw [sumTerms.eq_def]
  simp only [if_pos hlen, hsums]
  rw [← unpaired, unpaired_map, ← List.map_append, zipWith_append_unpaired]

/-- **The tree sum of points is their sum**, within as many tests as there are terms. -/
theorem sumTerms_ofPoint {fuel : Nat} (p : J.Point) (ps : List J.Point) (hfuel : ps.length < fuel) :
    sumTerms J fuel ((p :: ps).map SharedPoint.ofPoint) = some (.ok (SharedPoint.ofPoint (p :: ps).sum)) := by
  induction fuel generalizing p ps with
  | zero => exact absurd hfuel (Nat.not_lt_zero _)
  | succ fuel ih =>
    cases ps with
    | nil => simp [sumTerms]
    | cons q ps =>
      have hlt : 1 < (p :: q :: ps).length := by simp
      have hround : (pairUp (· + ·) ps).length < fuel := by
        rw [length_pairUp]
        rw [List.length_cons] at hfuel
        omega
      have hsum : ((p + q) :: pairUp (· + ·) ps).sum = (p :: q :: ps).sum := by
        rw [List.sum_eq_foldl, List.sum_eq_foldl, List.foldl_cons, List.foldl_cons, List.foldl_cons,
          foldl_pairUp add_assoc, add_assoc]
      rw [sumTerms_succ hlt, pairUp, ih (p + q) _ hround, hsum]

/-! ## The bits -/

/-- The number bits spell, the lowest first. -/
def bitsNat : List F → Nat
  | []      => 0
  | b :: bs => (if b = 1 then 1 else 0) + 2 * bitsNat bs

/-- The terms as points: the doublings where the bit is one, the neutral element where it is zero. -/
def selected : List F → J.Point → List J.Point
  | [], _      => []
  | b :: bs, P => (if b = 1 then P else 0) :: selected bs (P + P)

theorem terms_eq (L : LocalArith J) : ∀ {bs : List F}, (∀ b ∈ bs, b = 0 ∨ b = 1) → ∀ P : J.Point,
    terms L bs P.coords = (selected bs P).map SharedPoint.ofPoint
  | [], _, _      => rfl
  | b :: bs, h, P => by
    rw [terms, selected, L.double_eq, terms_eq L (fun c hc => h c (List.mem_cons_of_mem b hc)), List.map_cons]
    refine congrArg (· :: _) ?_
    have hx : P.coords.1 = P.x := rfl
    have hy : P.coords.2 = P.y := rfl
    rw [hx, hy]
    rcases h b List.mem_cons_self with rfl | rfl
    · rw [if_neg zero_ne_one, mul_zero, mul_zero, zero_add, SharedPoint.ofPoint_zero]
    · rw [if_pos rfl, mul_one, mul_one, sub_add_cancel, SharedPoint.ofPoint]

/-- **The selected doublings add up to the multiple by the number the bits spell.** -/
theorem sum_selected : ∀ (bs : List F) (P : J.Point), (selected bs P).sum = bitsNat bs • P
  | [], P      => by rw [selected, bitsNat, List.sum_nil, zero_nsmul]
  | b :: bs, P => by
    rw [selected, bitsNat, List.sum_cons, sum_selected bs (P + P)]
    split <;> module

/-- **`share_mul` is scalar multiplication** by the number the bits spell. -/
theorem shareMul_eq (L : LocalArith J) {fuel : Nat} {bs : List F} (hne : bs ≠ []) (hbits : ∀ b ∈ bs, b = 0 ∨ b = 1)
    (hfuel : bs.length ≤ fuel) (P : J.Point) :
    shareMul L fuel bs (.point P.x P.y) = some (.ok (SharedPoint.ofPoint (bitsNat bs • P))) := by
  have hterms : shareMul L fuel bs (.point P.x P.y) = sumTerms J fuel (terms L bs P.coords) := rfl
  rw [hterms, terms_eq L hbits, ← sum_selected]
  cases bs with
  | nil => exact absurd rfl hne
  | cons b bs =>
    have hlen : ∀ (bs : List F) (P : J.Point), (selected bs P).length = bs.length := by
      intro bs
      induction bs with
      | nil => exact fun _ => rfl
      | cons b bs ih => exact fun P => by rw [selected, List.length_cons, ih, List.length_cons]
    refine sumTerms_ofPoint _ _ ?_
    rw [hlen]
    exact hfuel

/-! ## The round trip -/

omit [DecidableEq F] in
theorem smul_point (L : LocalArith J) {n : Int} (hn : n ≠ 0) (P : J.Point) :
    L.smul n (.point P.x P.y) = .point (n • P).x (n • P).y := (L.mul_eq n P).trans (if_neg hn)

omit [DecidableEq F] in
/-- Subtracting block by block what was added. -/
theorem unmask (mask mask' : Nat → F) (h : ∀ i, mask' i = mask i) (ms : List F) :
    ((ms.zipIdx.map (fun (m, idx) => mask idx + m)).zipIdx.map (fun (c, i) => c - mask' i)) = ms := by
  refine List.ext_getElem (by simp) (fun i h₁ h₂ => ?_)
  simp [h]

/-- **Decrypting undoes encrypting**: both sides find the point `a · x · GP`, one from the bits of `x` and one from the
scalar `a`, and cipher the same indices under its first coordinate. -/
theorem mimcDecrypt_mimcEncrypt (L : LocalArith J) {G : J.Point} (hG : G.coords = generator F) {bits : List F}
    (hne : bits ≠ []) (hbits : ∀ b ∈ bits, b = 0 ∨ b = 1) {fuel : Nat} (hfuel : bits.length ≤ fuel) {a : Int}
    (ha : L.smul a (GP F) ≠ .ideal) (ms : List F) {cubes : Nat → Nat → Cubes F} (hcubes : ∀ i ctr, (cubes i ctr).Ok) :
    ∃ pubKey ciphertext, keyGeneration L fuel bits = some (.ok (bits, pubKey)) ∧
      mimcEncrypt L pubKey ms a = .ok ciphertext ∧ mimcDecrypt L fuel cubes bits ciphertext = some (.ok ms) := by
  have hGP : GP F = .point G.x G.y := by rw [GP, ← hG]; rfl
  have ha0 : a ≠ 0 := by
    rintro rfl
    rw [hGP] at ha
    exact ha (L.mul_eq 0 G)
  have hkey : keyGeneration L fuel bits =
      some (.ok (bits, .point (bitsNat bits • G).x (bitsNat bits • G).y)) := by
    rw [keyGeneration, hGP, shareMul_eq L hne hbits hfuel]
    rfl
  have hencrypt : mimcEncrypt L (.point (bitsNat bits • G).x (bitsNat bits • G).y) ms a =
      .ok (ms.zipIdx.map (fun (m, idx) => mimcPlain ((idx : Nat) : F) (a • bitsNat bits • G).x + m),
        .point (a • G).x (a • G).y) := by
    rw [mimcEncrypt, smul_point L ha0, hGP, smul_point L ha0]
  have hshare : shareMul L fuel bits (.point (a • G).x (a • G).y) =
      some (.ok (SharedPoint.ofPoint (a • bitsNat bits • G))) := by
    rw [shareMul_eq L hne hbits hfuel, smul_comm]
  refine ⟨_, _, hkey, hencrypt, ?_⟩
  rw [mimcDecrypt, hshare]
  simp only [SharedPoint.ofPoint]
  rw [unmask _ _ (fun i => mimcMpc_eq (hcubes i) _ _) ms]

/-- The arithmetic of the group, on coordinates. -/
def LocalArith.affine (J : JubjubCurve F) : LocalArith J where
  double P := Edwards.add J.a J.d P P
  mul n P :=
    if h : Edwards.OnCurve J.a J.d (P.1, P.2) then
      let Q : J.Point := n • ⟨P.1, P.2, h⟩
      if n = 0 then .ideal else .point Q.x Q.y
    else .ideal
  double_eq _ := rfl
  mul_eq n P := by
    have h : Edwards.OnCurve J.a J.d (P.coords.1, P.coords.2) := P.equation
    rw [dif_pos h]
    rfl

section

attribute [local instance] Pairing.frModulus_fact

/-- The key 5 in three bits, three blocks and the scalar three, on the library's curve. -/
theorem mimcDecrypt_mimcEncrypt_five : ∃ pubKey ciphertext,
    keyGeneration (LocalArith.affine jubjub) 3 [1, 0, 1] = some (.ok ([1, 0, 1], pubKey)) ∧
      mimcEncrypt (LocalArith.affine jubjub) pubKey [7, 8, 0] 3 = .ok ciphertext ∧
      mimcDecrypt (LocalArith.affine jubjub) 3 (fun _ _ => ⟨2, 4, 8⟩) [1, 0, 1] ciphertext = some (.ok [7, 8, 0]) := by
  have hbits : ∀ b ∈ [(1 : Pairing.FrField), 0, 1], b = 0 ∨ b = 1 := by
    simp only [List.mem_cons, List.not_mem_nil, or_false]
    rintro b (rfl | rfl | rfl)
    · exact .inr rfl
    · exact .inl rfl
    · exact .inr rfl
  have hscalar : (LocalArith.affine jubjub).smul 3 (GP Pairing.FrField) ≠ .ideal := by
    have h := smul_point (LocalArith.affine jubjub) (show (3 : Int) ≠ 0 by decide) jubjubGenerator
    intro hideal
    cases h.symm.trans hideal
  refine mimcDecrypt_mimcEncrypt (LocalArith.affine jubjub) (G := jubjubGenerator) rfl (List.cons_ne_nil _ _) hbits le_rfl
    hscalar [7, 8, 0] (fun _ _ => ⟨?_, ?_⟩)
  · norm_num
  · norm_num

end

end Jubjub
end Dpid
