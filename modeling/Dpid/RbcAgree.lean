import Dpid.RbcInv
/-!
# RbcAgree — agreement and the verdict of `decode_output`

Where no two of the strings hashed in a run collide, every stripe stored for the root of a codeword is that codeword's
(`PartyOk.pinned`), so any `K` of them decode alike whichever they are (`PartyOk.decode_eq`) and the re-encoding check
gives one verdict (`PartyOk.verdict`).  With the quorums of `Dpid/RbcInv.lean`, all good parties decide on one root and
return one byte string (`reliablebroadcast_agreement`, `reliablebroadcast_verdict`).
-/
namespace Dpid
namespace Rbc

variable {H : Hash} {z : Zfec} {N f : Nat} {leader : Fin N} {input : Text} {byz : Finset (Fin N)}
  {loc : Fin N → RbcState N} {s : RbcState N}

/-! ## One codeword behind a root -/

/-- **A stripe stored for a codeword's root is that codeword's.** -/
theorem PartyOk.pinned (h : PartyOk H z f leader input byz loc s) {X : Set Bytes} (hX : Set.InjOn H X)
    (hs : ∀ x ∈ s.hashed, x ∈ X) {S : List Bytes} (hlen : S.length = N) (hT : ∀ x ∈ merkleTreeHashed H S, x ∈ X)
    {i : Fin N} {b : Bytes} (hb : s.stripes (rootOf H S) i = some b) : S[(i : Nat)]? = some b := by
  obtain ⟨branch, hv, hx⟩ := h.stripe_verified _ i b hb
  have hi : (i : Nat) < S.length := hlen ▸ i.isLt
  subst hlen
  have hleaf := leaf_of_merkleVerify hX hT hi (fun x hx' => hs x (hx x hx')) hv
  rw [hleaf, List.getD_eq_getElem?_getD, List.getElem?_eq_getElem hi]
  rfl

/-- **What a party decodes from the stripes stored for a codeword's root does not depend on which they are.** -/
theorem PartyOk.decode_eq (h : PartyOk H z f leader input byz loc s) (hz : z.IsMds (N - 2 * f) N) {X : Set Bytes}
    (hX : Set.InjOn H X) (hs : ∀ x ∈ s.hashed, x ∈ X) {m : Text} {S : List Bytes}
    (hS : encode z (N - 2 * f) N m = .ok S) (hT : ∀ x ∈ merkleTreeHashed H S, x ∈ X)
    (hcnt : N - 2 * f ≤ s.echoCounter (rootOf H S)) :
    decode z (N - 2 * f) N (List.ofFn (s.stripes (rootOf H S))) =
      unpad (N - 2 * f) (blocks (N - 2 * f) (pad (N - 2 * f) m.encode)).flatten := by
  refine decode_of_encode hz hS _ List.length_ofFn (fun i b hi => ?_) ?_
  · rw [List.getElem?_ofFn] at hi
    split at hi
    · rename_i hlt
      exact h.pinned hX hs (encode_length hz hS) hT (i := ⟨i, hlt⟩) (Option.some.inj hi)
    · cases hi
  · rw [countP_ofFn_isSome, ← h.echo_count]
    exact hcnt

/-- **The verdict on the root of a codeword that survives the round trip is its message.** -/
theorem PartyOk.verdict (h : PartyOk H z f leader input byz loc s) (hz : z.IsMds (N - 2 * f) N) {X : Set Bytes}
    (hX : Set.InjOn H X) (hs : ∀ x ∈ s.hashed, x ∈ X) {m : Bytes} {S : List Bytes}
    (hS : encode z (N - 2 * f) N (.bytes m) = .ok S) (hT : ∀ x ∈ merkleTreeHashed H S, x ∈ X)
    (hm : unpad (N - 2 * f) (blocks (N - 2 * f) (pad (N - 2 * f) m)).flatten = .ok m) {res : Except Exn Bytes}
    (hd : s.phase = .decided (rootOf H S) res) : res = .ok m := by
  obtain ⟨rfl, -, -, hcnt⟩ := h.decided _ _ hd
  have hdec := h.decode_eq hz hX hs hS hT hcnt
  have hlen := encode_length hz hS
  have hbound := ((encode_eq_ok _ _ _ _ _).1 hS).1
  exact decodeOutput_eq_ok.2 ⟨hdec.trans hm, S, hS, by omega, rfl⟩

/-- Behind a decision stands an echo quorum. -/
theorem PartyOk.decided_quorum (h : PartyOk H z f leader input byz loc s) (hbyz : byz.card ≤ f) {r : Bytes}
    {res : Except Exn Bytes} (hd : s.phase = .decided r res) : EchoQuorum f byz loc r :=
  h.quorum_of_readies hbyz (by have := (h.decided r res hd).2.2.1; omega)

/-- **A verdict in favour of `m` at one party is the verdict of every party on that root.** -/
theorem PartyOk.verdict_of_ok {t : RbcState N} (h : PartyOk H z f leader input byz loc s)
    (h' : PartyOk H z f leader input byz loc t) (hz : z.IsMds (N - 2 * f) N) {X : Set Bytes} (hX : Set.InjOn H X)
    (hs : ∀ x ∈ s.hashed, x ∈ X) (ht : ∀ x ∈ t.hashed, x ∈ X) {r m : Bytes} (hd : s.phase = .decided r (.ok m))
    {res : Except Exn Bytes} (hd' : t.phase = .decided r res) : res = .ok m := by
  obtain ⟨hok, hhashed, -, hcnt⟩ := h.decided _ _ hd
  obtain ⟨hdec, S, hS, -, rfl⟩ := decodeOutput_eq_ok.1 hok.symm
  have hT : ∀ x ∈ merkleTreeHashed H S, x ∈ X := fun x hx =>
    hs x (hhashed x ((decodeOutputHashed_eq hdec hS).symm ▸ hx))
  have hm : unpad (N - 2 * f) (blocks (N - 2 * f) (pad (N - 2 * f) m)).flatten = .ok m := by
    rw [← hdec]
    exact (h.decode_eq hz hX hs hS hT hcnt).symm
  exact h'.verdict hz hX ht hS hT hm hd'

end Rbc

open Rbc

/-! ## A run of four parties

Party 0 broadcasts the empty message, party 3 is silent; the other three return. -/

noncomputable def fourRbc : Net.Proto (Fin 4) Unit (RbcState 4) RbcMsg :=
  reliablebroadcast sha256 reedSolomonEq 1 0 (.bytes [])

def fourActs : List (Net.Act (Fin 4) Unit RbcMsg) :=
  [.wake 0 (), .wake 1 (), .wake 2 ()] ++ [0, 0, 0, 0, 1, 0, 0, 0, 2, 0, 0, 0, 0, 1, 0, 0, 0, 0, 0, 0].map .recv

noncomputable def fourConf : Net.Conf (Fin 4) (RbcState 4) RbcMsg :=
  (Net.exec fourRbc {3} (fun _ _ => true) fourActs fourRbc.start).getD fourRbc.start

def fourStripes : List Bytes := [[0], [0], [0], [0]]

/-- The strings hashed: the stripes, equal, and the children of an inner node and of the root. -/
def fourHashed : List Bytes :=
  [[0], node sha256 fourStripes 4 ++ node sha256 fourStripes 5, node sha256 fourStripes 2 ++ node sha256 fourStripes 3]

set_option maxRecDepth 10000 in
theorem fourActs_eval : (Net.exec fourRbc {3} (fun _ _ => true) fourActs fourRbc.start).any (fun c =>
    [0, 1, 2].all (fun p => decide ((c.loc p).phase = .decided (rootOf sha256 fourStripes) (.ok [])) &&
      (c.loc p).hashed.all (fun x => decide (x ∈ fourHashed)))) = true := by
  decide +kernel

theorem fourConf_eval : Net.Reachable fourRbc {3} fourConf ∧ ∀ p ∉ ({3} : Finset (Fin 4)),
    (fourConf.loc p).phase = .decided (rootOf sha256 fourStripes) (.ok []) ∧
      ∀ x ∈ (fourConf.loc p).hashed, x ∈ fourHashed := by
  have heval := fourActs_eval
  unfold fourConf
  cases hc : Net.exec fourRbc {3} (fun _ _ => true) fourActs fourRbc.start with
  | none => rw [hc] at heval; cases heval
  | some c =>
    rw [hc] at heval
    refine ⟨Net.exec_run (fun _ _ _ => trivial) _ .start hc, fun p hp => ?_⟩
    have hmem : ∀ p : Fin 4, p ∉ ({3} : Finset (Fin 4)) → p ∈ [0, 1, 2] := by decide
    have hp := List.all_eq_true.1 heval p (hmem p hp)
    rw [Bool.and_eq_true, decide_eq_true_eq, List.all_eq_true] at hp
    exact ⟨hp.1, fun x hx => of_decide_eq_true (hp.2 x hx)⟩

theorem fourHashed_injOn : Set.InjOn sha256 (hashedInRun {3} (fun p => (fourConf.loc p).hashed)) := by
  have hinj : ∀ x ∈ fourHashed, ∀ y ∈ fourHashed, sha256 x = sha256 y → x = y := by decide +kernel
  rintro x ⟨p, hp, hx⟩ y ⟨q, hq, hy⟩ hxy
  exact hinj x ((fourConf_eval.2 p hp).2 x hx) y ((fourConf_eval.2 q hq).2 y hy) hxy

section AgreementVerdict

variable {H : Hash} {z : Zfec} {N f : Nat} {leader : Fin N} {input : Text} {byz : Finset (Fin N)}
  {c : Net.Conf (Fin N) (RbcState N) RbcMsg}

/-- **Agreement**: any two good parties that return, return the same byte string. -/
theorem reliablebroadcast_agreement (hN : 3 * f + 1 ≤ N) (hz : z.IsMds (N - 2 * f) N) (hbyz : byz.card ≤ f)
    (hc : Net.Reachable (reliablebroadcast H z f leader input) byz c) (hH : Set.InjOn H (hashedInRun byz (fun p => (c.loc p).hashed)))
    {p q : Fin N} (hp : p ∉ byz) (hq : q ∉ byz) {m m' : Bytes} (hm : (c.loc p).Returned m)
    (hm' : (c.loc q).Returned m') : m = m' := by
  obtain ⟨r, hr⟩ := hm
  obtain ⟨r', hr'⟩ := hm'
  have hok := reliablebroadcast_ok hbyz hc
  have hroot : r = r' :=
    ((hok p hp).decided_quorum hbyz hr).unique hN hbyz ((hok q hq).decided_quorum hbyz hr')
  subst hroot
  have hres := (hok p hp).verdict_of_ok (hok q hq) hz hH (fun x hx => ⟨p, hp, hx⟩) (fun x hx => ⟨q, hq, hx⟩) hr hr'
  exact (Except.ok.inj hres).symm

theorem reliablebroadcast_agreement_four : (fourConf.loc 0).Returned [] ∧ ∀ m, (fourConf.loc 1).Returned m → [] = m := by
  have h0 : (fourConf.loc 0).Returned [] := ⟨_, (fourConf_eval.2 0 (by decide)).1⟩
  exact ⟨h0, fun m hm => reliablebroadcast_agreement (by decide) (reedSolomonEq_isMds (by decide) (by decide) (by decide))
    (by decide) fourConf_eval.1 fourHashed_injOn (by decide) (by decide) h0 hm⟩

end AgreementVerdict

end Dpid
