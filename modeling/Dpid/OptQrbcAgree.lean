import Dpid.HashList
import Dpid.OptQrbc
import Dpid.Quorum
import Dpid.Sha256
import Mathlib
/-!
# OptQrbcAgree — agreement of `optqrbc`, and its fallback

A `READY` rests on `2f + 1` `ECHO`s (`EchoQuorum`), and a good party echoes the hash it accepted from the leader and no
other.  Two such quorums share a good party when the senders are few enough, at most `4f + 1` with the bad ones counted
twice, or when the leader is good and one hash is all there is.  So no second hash is committed to, and a party outputs
once, from the proposal that it hashed itself (`Deliverer`).

A party that asks for the fallback has committed already.  It reaches the threshold no second time and reconstructs
nothing: it outputs nothing.
-/
namespace Dpid

/-- `isinstance(m, bytes)`. -/
def Text.isBytes : Text → Bool
  | .bytes _ => true
  | .str _   => false

/-- Messages of one class with one encoding are one message. -/
theorem Text.encode_inj_of_class {m m' : Text} (hclass : m.isBytes = m'.isBytes) (h : m.encode = m'.encode) :
    m = m' := by
  cases m with
  | str t   =>
    cases m' with
    | str t'   => rw [Text.encode_str_inj h]
    | bytes b' => cases hclass
  | bytes b =>
    cases m' with
    | str t'   => cases hclass
    | bytes b' => exact congrArg Text.bytes h

namespace OptQrbc

variable {ι : Type} {H : Hash} {predicate : ι → Text → Except Exn Bool} {codec : Int → Except Exn Unit}
  {ids : List ι} {f : Nat} {leader : ι} {input : Text} {byz : Finset ι} {cls : Bool}

/-! ## The output of one party -/

/-- What a party has output goes with what it has committed to. -/
structure Deliverer (H : Hash) (s : OptState ι) : Prop where
  unreconstructed : s.reconstructedHash = none
  paired : ∀ digest, s.leaderHash = some digest → ∃ m, s.leaderMsg = some m ∧ digest = H m.encode ∧ m.encode ∈ s.hashed
  before : s.committed = false → s.outputs = []
  after : s.committed = true → ∃ m, s.leaderMsg = some m ∧ s.leaderHash = some (H m.encode) ∧
    s.committedHash = some (H m.encode) ∧ s.outputs = [some m]
  triggered : s.triggered = true → s.committedHash.isSome

/-- A `READY` that commits a party again after its output. -/
def Recommits (f : Nat) (s : OptState ι) (sender : ι) : OptMsg → Prop
  | .ready digest => s.committed = true ∧ sender ∉ s.readySenders ∧ s.readyCounter digest = 2 * f
  | _             => False

section Party

variable {s s' : OptState ι} {pid sender : ι}

theorem deliverer_init (H : Hash) (ids : List ι) : Deliverer H (init ids) where
  unreconstructed := rfl
  paired := nofun
  before := fun _ => rfl
  after := nofun
  triggered := nofun

theorem Deliverer.frame (h : Deliverer H s) (hv : verdict s' = verdict s) : Deliverer H s' := by
  simp only [verdict, Prod.mk.injEq] at hv
  obtain ⟨h1, h2, h3, h4, h5, h6, h7, h8⟩ := hv
  exact { unreconstructed := by rw [h3]; exact h.unreconstructed
          paired := by rw [h1, h2, h7]; exact h.paired
          before := by rw [h5, h6]; exact h.before
          after := by rw [h1, h2, h4, h5, h6]; exact h.after
          triggered := by rw [h4, h8]; exact h.triggered }

theorem Deliverer.uncommitted (h : Deliverer H s) (hnone : s.leaderHash = none) : s.committed = false := by
  cases hc : s.committed with
  | false => rfl
  | true  =>
    obtain ⟨m, -, hhash, -, -⟩ := h.after hc
    rw [hnone] at hhash
    cases hhash

/-- **The first commitment outputs the proposal it is for, or nothing.** -/
theorem commit_deliverer (h : Deliverer H s) (hunc : s.committed = false) (ids : List ι) (digest : Bytes) :
    Deliverer H (commit ids digest s).1 := by
  have hout := h.before hunc
  unfold commit
  simp only
  split
  · rename_i hd
    obtain ⟨m, hm, rfl, -⟩ := h.paired digest hd.symm
    exact { unreconstructed := h.unreconstructed
            paired := h.paired
            before := nofun
            after := fun _ => ⟨m, hm, hd.symm, rfl, by show s.leaderMsg :: s.outputs = _; rw [hm, hout]⟩
            triggered := fun _ => rfl }
  · split
    · rename_i hd
      rw [h.unreconstructed] at hd
      cases hd
    · exact { unreconstructed := h.unreconstructed
              paired := h.paired
              before := fun _ => hout
              after := fun hc => by
                rw [show s.committed = true from hc] at hunc
                cases hunc
              triggered := fun _ => rfl }

theorem verdict_sendReady (cond : Prop) [Decidable cond] (digest : Bytes) (s : OptState ι) :
    verdict (sendReady cond ids digest s).1 = verdict s := by
  obtain ⟨sent, hsent⟩ := (sendReady_same cond ids digest s).1
  rw [hsent]
  rfl

end Party

/-! ## Quorums -/

/-- `2f + 1` senders stand behind the hash. -/
def EchoQuorum (f : Nat) (R : Bytes → ι → Prop) (digest : Bytes) : Prop :=
  ∃ S : Finset ι, 2 * f + 1 ≤ S.card ∧ ∀ q ∈ S, R digest q

/-- What the leader may have proposed; `cls` is the class of a bad leader's proposals. -/
def Proposed (leader : ι) (input : Text) (byz : Finset ι) (cls : Bool) (m : Text) : Prop :=
  (leader ∉ byz → m = input) ∧ (leader ∈ byz → m.isBytes = cls)

/-- A proposal of another class than `cls`. -/
def OfOtherClass (cls : Bool) : OptMsg → Prop
  | .propose m => m.isBytes ≠ cls
  | _          => False

/-- The proposals that good parties take from a bad leader are of one class. -/
def OneClass (leader : ι) (byz : Finset ι) (cls : Bool) (_ : Net.Conf ι (OptState ι) OptMsg) :
    Net.Label ι Unit OptMsg → Prop
  | .recv e => leader ∈ byz → e.src = leader → ¬ OfOtherClass cls e.msg
  | _       => True

theorem oneClass_of_good (h : leader ∉ byz) (cls : Bool) (c : Net.Conf ι (OptState ι) OptMsg)
    (l : Net.Label ι Unit OptMsg) : OneClass leader byz cls c l := by
  cases l with
  | recv e            => exact fun hbad => absurd hbad h
  | wake _ _ | inject => trivial

/-- The counters of a party. -/
structure PartyOk (H : Hash) (ids : List ι) (f : Nat) (leader : ι) (input : Text) (byz : Finset ι) (cls : Bool)
    (R : Bytes → ι → Prop) (p : ι) (s : OptState ι) : Prop where
  deliverer : Deliverer H s
  member : s.phase = .loop → p ∈ ids
  proposed : ∀ digest m, s.leaderHash = some digest → s.leaderMsg = some m → Proposed leader input byz cls m
  echoes : ∀ digest, Slots.Counted s.echoSenders (R digest) (s.echoCounter digest)
  readies : ∀ digest, Slots.Counted s.readySenders (fun q => q ∉ byz → EchoQuorum f R digest) (s.readyCounter digest)
  committed : ∀ digest, s.committedHash = some digest → 2 * f + 1 ≤ s.readyCounter digest
  asking : s.triggered = true → s.committed = false

/-- What a good party may send. -/
def Sends (ids : List ι) (f : Nat) (input : Text) (R : Bytes → ι → Prop) (p : ι) (s : OptState ι) : OptMsg → Prop
  | .propose m    => m = input
  | .echo digest  => p ∈ ids ∧ s.leaderHash = some digest
  | .ready digest => EchoQuorum f R digest
  | .addTrigger   => s.triggered = true
  | _             => True

section Counters

variable {R R' : Bytes → ι → Prop} {p sender : ι} {s s' : OptState ι}

theorem EchoQuorum.mono {R R' : Bytes → ι → Prop} (hR : ∀ digest q, R digest q → R' digest q) {digest : Bytes}
    (h : EchoQuorum f R digest) : EchoQuorum f R' digest := by
  obtain ⟨S, hcard, hS⟩ := h
  exact ⟨S, hcard, fun q hq => hR digest q (hS q hq)⟩

theorem PartyOk.mono (h : PartyOk H ids f leader input byz cls R p s) (hR : ∀ digest q, R digest q → R' digest q) :
    PartyOk H ids f leader input byz cls R' p s :=
  { h with
    echoes := fun digest => (h.echoes digest).mono (hR digest)
    readies := fun digest => (h.readies digest).mono (fun _ hq hgood => (hq hgood).mono hR) }

/-- A hash that `f + 1` parties are ready for has a quorum. -/
theorem PartyOk.quorum_of_readies (h : PartyOk H ids f leader input byz cls R p s) (hbyz : byz.card ≤ f)
    {digest : Bytes} (hk : f + 1 ≤ s.readyCounter digest) : EchoQuorum f R digest := by
  obtain ⟨S, -, hcard, hS⟩ := h.readies digest
  obtain ⟨q, hq, hgood⟩ := Quorum.exists_good (show byz.card < S.card by omega)
  exact hS q hq hgood

theorem PartyOk.frame (h : PartyOk H ids f leader input byz cls R p s) (hp : p ∈ ids) (hv : verdict s' = verdict s)
    (ht : tallies s' = tallies s) : PartyOk H ids f leader input byz cls R p s' := by
  have hdel := h.deliverer.frame hv
  simp only [verdict, Prod.mk.injEq] at hv
  simp only [tallies, Prod.mk.injEq] at ht
  obtain ⟨h1, h2, -, h4, h5, -, -, h8⟩ := hv
  obtain ⟨t1, t2, t3, t4⟩ := ht
  exact { deliverer := hdel
          member := fun _ => hp
          proposed := by rw [h1, h2]; exact h.proposed
          echoes := by rw [t1, t2]; exact h.echoes
          readies := by rw [t3, t4]; exact h.readies
          committed := by rw [h4, t4]; exact h.committed
          asking := by rw [h5, h8]; exact h.asking }

theorem partyOk_init (H : Hash) (ids : List ι) (f : Nat) (leader : ι) (input : Text) (byz : Finset ι) (cls : Bool)
    (R : Bytes → ι → Prop) (p : ι) : PartyOk H ids f leader input byz cls R p (init ids) where
  deliverer := deliverer_init H ids
  member := nofun
  proposed := nofun
  echoes := fun _ => Slots.counted_zero _ _
  readies := fun _ => Slots.counted_zero _ _
  committed := nofun
  asking := nofun

theorem sendReady_ok (h : PartyOk H ids f leader input byz cls R p s) (hp : p ∈ ids) {cond : Prop} [Decidable cond]
    {digest : Bytes} (hq : cond → EchoQuorum f R digest) :
    PartyOk H ids f leader input byz cls R p (sendReady cond ids digest s).1 ∧
      ∀ o ∈ (sendReady cond ids digest s).2, ∀ s' : OptState ι, Sends ids f input R p s' o.2 := by
  obtain ⟨⟨sent, hsent⟩, hout⟩ := sendReady_same cond ids digest s
  refine ⟨?_, fun o ho s' => ?_⟩
  · rw [hsent]
    exact h.frame hp rfl rfl
  · obtain ⟨hmsg, hc⟩ := hout o ho
    rw [hmsg]
    exact hq hc

/-- What a party outputs was proposed and has a quorum. -/
theorem PartyOk.output (h : PartyOk H ids f leader input byz cls R p s)
    (hbyz : byz.card ≤ f) {m : Option Text} (hm : m ∈ s.outputs) : ∃ m₀, m = some m₀ ∧ s.outputs = [some m₀] ∧
      Proposed leader input byz cls m₀ ∧ EchoQuorum f R (H m₀.encode) ∧ m₀.encode ∈ s.hashed := by
  cases hc : s.committed with
  | false =>
    rw [h.deliverer.before hc] at hm
    cases hm
  | true  =>
    obtain ⟨m₀, hmsg, hleader, hcommitted, hout⟩ := h.deliverer.after hc
    obtain ⟨m₁, hmsg', -, hhashed⟩ := h.deliverer.paired _ hleader
    have hk := h.committed _ hcommitted
    rw [hmsg] at hmsg'
    cases hmsg'
    rw [hout] at hm
    exact ⟨m₀, List.mem_singleton.1 hm, hout, h.proposed _ m₀ hleader hmsg, h.quorum_of_readies hbyz (by omega),
      hhashed⟩

/-- **The first commitment keeps the invariant.** -/
theorem commit_ok (h : PartyOk H ids f leader input byz cls R p s) (hnone : s.committedHash = none) {digest : Bytes}
    (hk : 2 * f + 1 ≤ s.readyCounter digest) :
    PartyOk H ids f leader input byz cls R p (commit ids digest s).1 ∧
      ∀ o ∈ (commit ids digest s).2, Sends ids f input R p (commit ids digest s).1 o.2 := by
  have hunc : s.committed = false := by
    by_contra hc
    obtain ⟨m, -, -, hhash, -⟩ := h.deliverer.after (by simpa using hc)
    rw [hnone] at hhash
    cases hhash
  have hasked : s.triggered = false := by
    by_contra ht
    have hsome := h.deliverer.triggered (by simpa using ht)
    rw [hnone] at hsome
    cases hsome
  have hdel := commit_deliverer h.deliverer hunc ids digest
  have hcount : ∀ digest', some digest = some digest' → 2 * f + 1 ≤ s.readyCounter digest' := by
    intro digest' hd
    cases hd
    exact hk
  unfold commit deliver at hdel ⊢
  simp only at hdel ⊢
  split at hdel
  · rename_i hd
    rw [if_pos hd]
    refine ⟨{ h with deliverer := hdel, committed := hcount, asking := fun ht => ?_ }, fun o ho => ?_⟩
    · rw [show s.triggered = true from ht] at hasked
      cases hasked
    · rw [mem_broadcast ho]
      trivial
  · rename_i hd
    rw [if_neg hd]
    split at hdel
    · rename_i hd'
      rw [h.deliverer.unreconstructed] at hd'
      cases hd'
    · rename_i hd'
      rw [if_neg hd']
      refine ⟨{ h with deliverer := hdel, committed := hcount, asking := fun _ => hunc }, fun o ho => ?_⟩
      rw [mem_broadcast ho]
      rfl

theorem PartyOk.first (h : PartyOk H ids f leader input byz cls R p s) (hbyz : byz.card ≤ f)
    (huniq : ∀ digest digest', EchoQuorum f R digest → EchoQuorum f R digest' → digest = digest') {digest : Bytes}
    (hq : EchoQuorum f R digest) (hk : s.readyCounter digest = 2 * f) : s.committedHash = none := by
  cases hc : s.committedHash with
  | none         => rfl
  | some digest' =>
    have hle := h.committed digest' hc
    have hq' : EchoQuorum f R digest' := h.quorum_of_readies hbyz (by omega)
    rw [huniq digest digest' hq hq'] at hk
    omega

/-- What a party never takes back. -/
def Grow (s s' : OptState ι) : Prop :=
  (∀ digest, s.leaderHash = some digest → s'.leaderHash = some digest) ∧ (s.triggered = true → s'.triggered = true)

theorem Grow.of_verdict {s s' : OptState ι} (h : verdict s' = verdict s) : Grow s s' := by
  simp only [verdict, Prod.mk.injEq] at h
  obtain ⟨h1, -, -, -, -, -, -, h8⟩ := h
  exact ⟨fun digest hd => h1.trans hd, fun ht => h8.trans ht⟩

theorem commit_grow (ids : List ι) (digest : Bytes) (s : OptState ι) : Grow s (commit ids digest s).1 := by
  unfold commit deliver
  simp only
  split
  · exact ⟨fun _ hd => hd, fun ht => ht⟩
  · split
    · exact ⟨fun _ hd => hd, fun ht => ht⟩
    · exact ⟨fun _ hd => hd, fun _ => rfl⟩

theorem Sends.mono {R R' : Bytes → ι → Prop} (hR : ∀ digest q, R digest q → R' digest q) {p : ι} {s s' : OptState ι}
    (hg : Grow s s') {msg : OptMsg} (h : Sends ids f input R p s msg) : Sends ids f input R' p s' msg := by
  cases msg with
  | propose m             => exact h
  | echo digest           => exact ⟨h.1, hg.1 digest h.2⟩
  | ready digest          => exact EchoQuorum.mono hR h
  | addTrigger            => exact hg.2 h
  | terminate | addDisperse _ _ | addReconstruct _ => trivial

end Counters

/-! ## One pass of the loop -/

variable [DecidableEq ι]

/-- The senders that may stand behind a hash: bad ones, and good ones that accepted a proposal with it. -/
def Accepts (ids : List ι) (byz : Finset ι) (loc : ι → OptState ι) (digest : Bytes) (q : ι) : Prop :=
  q ∈ ids.toFinset ∪ byz ∧ (q ∉ byz → (loc q).leaderHash = some digest)

theorem EchoQuorum.exists_accepted (hbyz : byz.card ≤ f) {loc : ι → OptState ι} {digest : Bytes}
    (h : EchoQuorum f (Accepts ids byz loc) digest) : ∃ q ∉ byz, (loc q).leaderHash = some digest := by
  obtain ⟨S, hcard, hS⟩ := h
  obtain ⟨q, hq, hgood⟩ := Quorum.exists_good (show byz.card < S.card by omega)
  exact ⟨q, hgood, (hS q hq).2 hgood⟩

/-- **One hash has a quorum**: two quorums share a good party, or every good party accepts the one proposal there is. -/
theorem EchoQuorum.unique (hbyz : byz.card ≤ f)
    (hsep : leader ∉ byz ∨ (ids.toFinset ∪ byz).card + byz.card ≤ 4 * f + 1) {loc : ι → OptState ι}
    (hinput : leader ∉ byz → ∀ q ∉ byz, ∀ digest, (loc q).leaderHash = some digest → digest = H input.encode)
    {digest digest' : Bytes} (h : EchoQuorum f (Accepts ids byz loc) digest)
    (h' : EchoQuorum f (Accepts ids byz loc) digest') : digest = digest' := by
  rcases hsep with hleader | hfew
  · obtain ⟨q, hq, hd⟩ := h.exists_accepted hbyz
    obtain ⟨q', hq', hd'⟩ := h'.exists_accepted hbyz
    rw [hinput hleader q hq digest hd, hinput hleader q' hq' digest' hd']
  · obtain ⟨S, hcard, hS⟩ := h
    obtain ⟨S', hcard', hS'⟩ := h'
    obtain ⟨q, hq, hq', hgood⟩ := Quorum.exists_good_inter_of_subset byz (fun q hq => (hS q hq).1)
      (fun q hq => (hS' q hq).1) (show (ids.toFinset ∪ byz).card + byz.card < S.card + S'.card by omega)
    have hd := (hS q hq).2 hgood
    rw [(hS' q hq').2 hgood] at hd
    exact (Option.some.inj hd).symm

section Steps

variable {R : Bytes → ι → Prop} {p pid sender : ι} {s : OptState ι}

/-- `leader_msg` is written before the sender is checked, but not once there is a `leader_hash`. -/
theorem onPropose_deliverer (h : Deliverer H s) (hnone : s.leaderHash = none) {m : Text}
    {predicate : Text → Except Exn Bool} :
    Deliverer H (onPropose H predicate ids leader sender m s).1 := by
  have hunc := h.uncommitted hnone
  have hmsg : Deliverer H { s with leaderMsg := some m } :=
    { h with
      paired := fun digest hd => by
        rw [show s.leaderHash = some digest from hd] at hnone
        cases hnone
      after := fun hc => by
        rw [show s.committed = true from hc] at hunc
        cases hunc }
  unfold onPropose
  simp only
  split
  · exact hmsg
  · split
    · exact hmsg.frame rfl
    · exact hmsg
    · exact { hmsg with
              paired := fun digest hd => ⟨m, rfl, (Option.some.inj hd).symm, List.mem_cons_self⟩
              after := fun hc => by
                rw [show s.committed = true from hc] at hunc
                cases hunc }

theorem verdict_afterReady (ids : List ι) (f : Nat) (sender : ι) (digest : Bytes) (s : OptState ι) :
    verdict (afterReady ids f sender digest s).1 = verdict s :=
  verdict_sendReady _ digest _

/-- **One pass of the loop keeps the invariant**, unless it commits again. -/
theorem onMsg_deliverer (h : Deliverer H s) {msg : OptMsg} (hnew : ¬ Recommits f s sender msg) :
    Deliverer H (onMsg H predicate codec ids f leader pid s sender msg).1 := by
  rcases onMsg_cases H predicate codec ids f leader pid s sender msg with
    ⟨m, -, hnone, heq⟩ | ⟨digest, -, -, heq⟩ | ⟨digest, rfl, hsender, heq⟩ | ⟨hv, -, -⟩
  · rw [heq]
    exact onPropose_deliverer h hnone
  · rw [heq]
    exact h.frame (verdict_sendReady _ digest _)
  · have hready : Deliverer H (afterReady ids f sender digest s).1 := h.frame (verdict_afterReady ids f sender digest s)
    rw [heq, onReady_eq hsender]
    split
    · rename_i hcount
      refine commit_deliverer hready ?_ ids digest
      have hv := verdict_afterReady ids f sender digest s
      simp only [verdict, Prod.mk.injEq] at hv
      rw [hv.2.2.2.2.1]
      by_contra hc
      exact hnew ⟨by simpa using hc, hsender, hcount⟩
    · exact hready
  · exact h.frame hv

theorem addEcho_ok (h : PartyOk H ids f leader input byz cls R p s) (hnew : sender ∉ s.echoSenders) {digest : Bytes}
    (hR : R digest sender) : PartyOk H ids f leader input byz cls R p (addEcho sender digest s) :=
  { h with
    deliverer := h.deliverer.frame rfl
    echoes := fun digest' => by
      show Slots.Counted (insert sender s.echoSenders) (R digest') (Function.update s.echoCounter digest _ digest')
      by_cases hd : digest' = digest
      · subst hd
        rw [Function.update_self]
        exact (h.echoes digest').insert hnew hR
      · rw [Function.update_of_ne hd]
        exact (h.echoes digest').skip sender }

theorem addReady_ok (h : PartyOk H ids f leader input byz cls R p s) (hnew : sender ∉ s.readySenders) {digest : Bytes}
    (hR : sender ∉ byz → EchoQuorum f R digest) : PartyOk H ids f leader input byz cls R p (addReady sender digest s) :=
  { h with
    deliverer := h.deliverer.frame rfl
    readies := fun digest' => by
      show Slots.Counted (insert sender s.readySenders) _ (Function.update s.readyCounter digest _ digest')
      by_cases hd : digest' = digest
      · subst hd
        rw [Function.update_self]
        exact (h.readies digest').insert hnew hR
      · rw [Function.update_of_ne hd]
        exact (h.readies digest').skip sender
    committed := fun digest' hc => by
      show 2 * f + 1 ≤ Function.update s.readyCounter digest _ digest'
      have hle := h.committed digest' hc
      by_cases hd : digest' = digest
      · subst hd
        rw [Function.update_self]
        omega
      · rw [Function.update_of_ne hd]
        exact hle }

/-- What the leader sends is accepted, once, and echoed. -/
theorem onPropose_ok (h : PartyOk H ids f leader input byz cls R p s) (hp : p ∈ ids) (hnone : s.leaderHash = none)
    {m : Text} {predicate : Text → Except Exn Bool} (hm : sender = leader → Proposed leader input byz cls m) :
    PartyOk H ids f leader input byz cls R p (onPropose H predicate ids leader sender m s).1 ∧
      ∀ o ∈ (onPropose H predicate ids leader sender m s).2,
        Sends ids f input R p (onPropose H predicate ids leader sender m s).1 o.2 := by
  have hdel : Deliverer H (onPropose H predicate ids leader sender m s).1 := onPropose_deliverer h.deliverer hnone
  unfold onPropose at hdel ⊢
  simp only at hdel ⊢
  split at hdel
  · rename_i hne
    rw [if_pos hne]
    refine ⟨{ h with deliverer := hdel, proposed := fun digest m' hd _ => ?_ }, nofun⟩
    rw [show s.leaderHash = some digest from hd] at hnone
    cases hnone
  · rename_i heq
    rw [if_neg heq]
    have hlead : sender = leader := not_not.1 heq
    split at hdel
    · refine ⟨{ h with deliverer := hdel, member := fun _ => hp, proposed := fun digest m' hd _ => ?_ }, nofun⟩
      rw [show s.leaderHash = some digest from hd] at hnone
      cases hnone
    · refine ⟨{ h with deliverer := hdel, proposed := fun digest m' hd _ => ?_ }, nofun⟩
      rw [show s.leaderHash = some digest from hd] at hnone
      cases hnone
    · refine ⟨{ h with deliverer := hdel, proposed := fun digest m' _ hm' => ?_ }, fun o ho => ?_⟩
      · cases hm'
        exact hm hlead
      · rcases List.mem_append.1 ho with ho | ho
        · rw [mem_broadcast ho]
          exact ⟨hp, rfl⟩
        · split at ho
          · rw [mem_broadcast ho]
            trivial
          · cases ho

theorem onReady_ok (h : PartyOk H ids f leader input byz cls R p s) (hp : p ∈ ids) (hbyz : byz.card ≤ f)
    (huniq : ∀ digest digest', EchoQuorum f R digest → EchoQuorum f R digest' → digest = digest')
    (hnew : sender ∉ s.readySenders) {digest : Bytes} (hR : sender ∉ byz → EchoQuorum f R digest) :
    PartyOk H ids f leader input byz cls R p (onReady ids f sender digest s).1 ∧
      ∀ o ∈ (onReady ids f sender digest s).2, Sends ids f input R p (onReady ids f sender digest s).1 o.2 := by
  have hadd := addReady_ok h hnew hR
  have hcount : (addReady sender digest s).readyCounter digest = s.readyCounter digest + 1 := Function.update_self _ _ _
  have hquorum : f + 1 ≤ (addReady sender digest s).readyCounter digest → EchoQuorum f R digest :=
    hadd.quorum_of_readies hbyz
  obtain ⟨hafter, hout⟩ := sendReady_ok hadd hp hquorum
  rw [onReady_eq hnew]
  split
  · rename_i hk
    have hq := hquorum (by omega)
    have hnone : s.committedHash = none := h.first hbyz huniq hq hk
    obtain ⟨sent, hsent⟩ := (sendReady_same (f + 1 ≤ (addReady sender digest s).readyCounter digest) ids digest
      (addReady sender digest s)).1
    have hle : 2 * f + 1 ≤ (addReady sender digest s).readyCounter digest := by omega
    have hcommit := commit_ok hafter (by rw [hsent]; exact hnone) (show 2 * f + 1 ≤ _ by rw [hsent]; exact hle)
    refine ⟨hcommit.1, fun o ho => ?_⟩
    rcases List.mem_append.1 ho with ho | ho
    · exact hout o ho _
    · exact hcommit.2 o ho
  · exact ⟨hafter, fun o ho => hout o ho _⟩

/-- **One pass of the loop keeps the invariant.** -/
theorem onMsg_ok (h : PartyOk H ids f leader input byz cls R p s) (predicate : ι → Text → Except Exn Bool)
    (codec : Int → Except Exn Unit) (hp : p ∈ ids) (hbyz : byz.card ≤ f)
    (huniq : ∀ digest digest', EchoQuorum f R digest → EchoQuorum f R digest' → digest = digest') {msg : OptMsg}
    (hpropose : ∀ m, msg = .propose m → sender = leader → Proposed leader input byz cls m)
    (hecho : ∀ digest, msg = .echo digest → R digest sender)
    (hready : ∀ digest, msg = .ready digest → sender ∉ byz → EchoQuorum f R digest) :
    PartyOk H ids f leader input byz cls R p (onMsg H predicate codec ids f leader p s sender msg).1 ∧
      ∀ o ∈ (onMsg H predicate codec ids f leader p s sender msg).2,
        Sends ids f input R p (onMsg H predicate codec ids f leader p s sender msg).1 o.2 := by
  rcases onMsg_cases H predicate codec ids f leader p s sender msg with
    ⟨m, hmsg, hnone, heq⟩ | ⟨digest, hmsg, hnew, heq⟩ | ⟨digest, hmsg, hnew, heq⟩ | ⟨hv, ht, hout⟩
  · rw [heq]
    exact onPropose_ok h hp hnone (hpropose m hmsg)
  · have hadd := addEcho_ok h hnew (hecho digest hmsg)
    have hq : 2 * f + 1 ≤ (addEcho sender digest s).echoCounter digest → EchoQuorum f R digest := by
      intro hk
      obtain ⟨S, -, hcard, hS⟩ := hadd.echoes digest
      exact ⟨S, hcard ▸ hk, hS⟩
    obtain ⟨hafter, hout⟩ := sendReady_ok hadd hp hq
    rw [heq]
    exact ⟨hafter, fun o ho => hout o ho _⟩
  · rw [heq]
    exact onReady_ok h hp hbyz huniq hnew (hready digest hmsg)
  · refine ⟨h.frame hp hv ht, fun o ho => ?_⟩
    have hreply := hout o ho
    obtain ⟨q, msg'⟩ := o
    cases msg' with
    | addDisperse my other  => trivial
    | addReconstruct stripe => trivial
    | propose _ | echo _ | ready _ | terminate | addTrigger => exact hreply.elim

end Steps

/-! ## Runs -/

theorem onPropose_grow {predicate : Text → Except Exn Bool} {sender : ι} {m : Text} {s : OptState ι}
    (hnone : s.leaderHash = none) : Grow s (onPropose H predicate ids leader sender m s).1 := by
  refine ⟨fun digest hd => ?_, fun ht => ?_⟩
  · rw [hnone] at hd
    cases hd
  · unfold onPropose
    simp only
    split
    · exact ht
    · split
      · exact ht
      · exact ht
      · exact ht

theorem onMsg_grow (p sender : ι) (s : OptState ι) (msg : OptMsg) :
    Grow s (onMsg H predicate codec ids f leader p s sender msg).1 := by
  rcases onMsg_cases H predicate codec ids f leader p s sender msg with
    ⟨m, -, hnone, heq⟩ | ⟨digest, -, -, heq⟩ | ⟨digest, -, hnew, heq⟩ | ⟨hv, -, -⟩
  · rw [heq]
    exact onPropose_grow hnone
  · rw [heq]
    exact Grow.of_verdict (verdict_sendReady _ digest _)
  · have hafter : Grow s (afterReady ids f sender digest s).1 :=
      Grow.of_verdict (verdict_afterReady ids f sender digest s)
    have hcommit := commit_grow ids digest (afterReady ids f sender digest s).1
    rw [heq, onReady_eq hnew]
    split
    · exact ⟨fun d hd => hcommit.1 d (hafter.1 d hd), fun ht => hcommit.2 (hafter.2 ht)⟩
    · exact hafter
  · exact Grow.of_verdict hv

theorem Accepts.mono {loc loc' : ι → OptState ι} (hg : ∀ q, Grow (loc q) (loc' q)) (digest : Bytes) (q : ι)
    (h : Accepts ids byz loc digest q) : Accepts ids byz loc' digest q :=
  ⟨h.1, fun hgood => (hg q).1 digest (h.2 hgood)⟩

/-- The invariant of a message in flight. -/
def MsgOk (ids : List ι) (f : Nat) (input : Text) (byz : Finset ι) (loc : ι → OptState ι) (e : Net.Envelope ι OptMsg) :
    Prop :=
  Sends ids f input (Accepts ids byz loc) e.src (loc e.src) e.msg

theorem optqrbc_preserved (H : Hash) (predicate : ι → Text → Except Exn Bool) (codec : Int → Except Exn Unit)
    (ids : List ι) (f : Nat) (leader : ι) (input : Text) (cls : Bool) (hbyz : byz.card ≤ f)
    (hsep : leader ∉ byz ∨ (ids.toFinset ∪ byz).card + byz.card ≤ 4 * f + 1) :
    Net.Preserved (optqrbc H predicate codec ids f leader input) byz (OneClass leader byz cls) Grow
      (fun loc _ p => PartyOk H ids f leader input byz cls (Accepts ids byz loc) p (loc p))
      (MsgOk ids f input byz) where
  grow_refl := fun s => ⟨fun _ hd => hd, fun ht => ht⟩
  grow_wake := by
    intro p t s s' out h
    obtain ⟨-, hs⟩ := optqrbc_wake h
    obtain ⟨rfl, -⟩ := Prod.mk.inj hs
    exact ⟨fun _ hd => hd, fun ht => ht⟩
  grow_recv := by
    intro p s q m s' out h
    obtain ⟨-, hs⟩ := optqrbc_recv h
    obtain ⟨rfl, -⟩ := Prod.mk.inj hs
    exact onMsg_grow p q s m
  local_mono := by
    intro loc loc' hist hist' p hg _ _ hp h
    rw [hp]
    exact h.mono (Accepts.mono hg)
  msg_mono := fun loc loc' e hg h => Sends.mono (Accepts.mono hg) (hg e.src) h
  init := fun p _ => partyOk_init H ids f leader input byz cls _ p
  wake := by
    intro c p t s out loc' _ hp hL h hloc hg
    obtain ⟨-, hs⟩ := optqrbc_wake h
    have hself : loc' p = s := by rw [hloc, Function.update_self]
    obtain ⟨rfl, rfl⟩ := Prod.mk.inj hs
    rw [hself]
    refine ⟨{ (hL p hp).mono (Accepts.mono hg) with
              deliverer := (hL p hp).deliverer.frame rfl
              member := fun hph => ?_ }, fun o ho => ?_⟩
    · by_contra hnot
      have hph : (if p ∈ ids then OptPhase.loop else .returned) = .loop := hph
      rw [if_neg hnot] at hph
      cases hph
    · change o ∈ (if p = leader then broadcast ids (.propose input) else []) at ho
      split at ho
      · rw [MsgOk, mem_broadcast ho]
        rfl
      · cases ho
  recv := by
    intro c e s out loc' hok hp hL hW h hloc hg
    obtain ⟨hloop, hs⟩ := optqrbc_recv h
    have hself : loc' e.dst = s := by rw [hloc, Function.update_self]
    have huniq : ∀ digest digest', EchoQuorum f (Accepts ids byz c.loc) digest →
        EchoQuorum f (Accepts ids byz c.loc) digest' → digest = digest' := by
      intro digest digest'
      apply EchoQuorum.unique hbyz hsep
      intro hleader q hq d hd
      obtain ⟨m, hm, rfl, -⟩ := (hL q hq).deliverer.paired d hd
      rw [((hL q hq).proposed _ m hd hm).1 hleader]
    have hpropose : ∀ m, e.msg = .propose m → e.src = leader → Proposed leader input byz cls m := by
      intro m hm hsrc
      refine ⟨fun hleader => ?_, fun hleader => ?_⟩
      · have hsent := hW (hsrc ▸ hleader)
        rw [MsgOk, hm] at hsent
        exact hsent
      · have hclass := hok hleader hsrc
        rw [hm] at hclass
        exact not_not.1 hclass
    have hecho : ∀ digest, e.msg = .echo digest → Accepts ids byz c.loc digest e.src := by
      intro digest hm
      by_cases hbad : e.src ∈ byz
      · exact ⟨Finset.mem_union_right _ hbad, fun hgood => absurd hbad hgood⟩
      · have hsent := hW hbad
        rw [MsgOk, hm] at hsent
        exact ⟨Finset.mem_union_left _ (List.mem_toFinset.2 hsent.1), fun _ => hsent.2⟩
    have hready : ∀ digest, e.msg = .ready digest → e.src ∉ byz → EchoQuorum f (Accepts ids byz c.loc) digest := by
      intro digest hm hgood
      have hsent := hW hgood
      rw [MsgOk, hm] at hsent
      exact hsent
    have hmsg := onMsg_ok (hL e.dst hp) predicate codec ((hL e.dst hp).member hloop) hbyz huniq hpropose hecho hready
    obtain ⟨rfl, rfl⟩ := Prod.mk.inj hs
    rw [hself]
    refine ⟨hmsg.1.mono (Accepts.mono hg), fun o ho => ?_⟩
    have hsent := hmsg.2 o ho
    have hsent' := Sends.mono (Accepts.mono hg) ⟨fun _ hd => hd, fun ht => ht⟩ hsent
    rw [MsgOk, hself]
    exact hsent'

/-! ## The claims of a reliable broadcast -/

/-- What the good parties output. -/
structure Agrees (byz : Finset ι) (leader : ι) (input : Text) (c : Net.Conf ι (OptState ι) OptMsg) : Prop where
  once : ∀ p ∉ byz, (c.loc p).outputs.length ≤ 1
  agree : ∀ p ∉ byz, ∀ q ∉ byz, ∀ m ∈ (c.loc p).outputs, ∀ m' ∈ (c.loc q).outputs, m = m'
  valid : leader ∉ byz → ∀ p ∉ byz, ∀ m ∈ (c.loc p).outputs, m = some input

/-- `2f + 1` committed parties have taken the `ADD_TRIGGER` of `p`, and no answer to `p` is in flight. -/
def Answered (f : Nat) (c : Net.Conf ι (OptState ι) OptMsg) (p : ι) : Prop :=
  (∃ S : Finset ι, 2 * f + 1 ≤ S.card ∧ ∀ q ∈ S, (c.loc q).committed = true ∧ ⟨p, q, .addTrigger⟩ ∈ c.hist) ∧
    ∀ e ∈ c.net, e.dst = p → ¬ IsReply e.msg

/-- What the fallback is for. -/
def Recovers (f : Nat) (m : Text) (c : Net.Conf ι (OptState ι) OptMsg) : Prop :=
  (∀ p e, (c.loc p).phase ≠ .raised e) ∧ ∀ p, Answered f c p → (c.loc p).outputs = [some m]

end OptQrbc

open OptQrbc

section AgreementFallback

variable {ι : Type} [DecidableEq ι] {H : Hash} {predicate : ι → Text → Except Exn Bool} {codec : Int → Except Exn Unit}
  {ids : List ι} {f : Nat} {leader : ι} {input : Text} {byz : Finset ι} {cls : Bool}
  {c : Net.Conf ι (OptState ι) OptMsg}

/-- **Agreement of `optqrbc`** with a good leader or few senders, while a bad leader's proposals are of one class. -/
theorem optqrbc_agreement (hbyz : byz.card ≤ f)
    (hsep : leader ∉ byz ∨ (ids.toFinset ∪ byz).card + byz.card ≤ 4 * f + 1)
    (hc : Net.Run (optqrbc H predicate codec ids f leader input) byz (OneClass leader byz cls) c)
    (hH : Set.InjOn H (hashedInRun byz (fun p => (c.loc p).hashed))) : Agrees byz leader input c := by
  have hall := (optqrbc_preserved H predicate codec ids f leader input cls hbyz hsep).run hc
  have hinput : leader ∉ byz → ∀ q ∉ byz, ∀ digest, (c.loc q).leaderHash = some digest → digest = H input.encode := by
    intro hleader q hq digest hd
    obtain ⟨m, hm, rfl, -⟩ := (hall.loc q hq).deliverer.paired digest hd
    rw [((hall.loc q hq).proposed _ m hd hm).1 hleader]
  refine ⟨fun p hp => ?_, fun p hp q hq m hm m' hm' => ?_, fun hleader p hp m hm => ?_⟩
  · cases hout : (c.loc p).outputs with
    | nil       => exact Nat.zero_le 1
    | cons m l  =>
      obtain ⟨m₀, -, hone, -⟩ := (hall.loc p hp).output hbyz (m := m) (hout ▸ List.mem_cons_self)
      rw [← hout, hone]
      exact Nat.le_refl 1
  · obtain ⟨m₀, rfl, -, hprop, hquorum, hhashed⟩ := (hall.loc p hp).output hbyz hm
    obtain ⟨m₁, rfl, -, hprop', hquorum', hhashed'⟩ := (hall.loc q hq).output hbyz hm'
    have hhash : H m₀.encode = H m₁.encode := EchoQuorum.unique hbyz hsep hinput hquorum hquorum'
    have hencode : m₀.encode = m₁.encode := hH ⟨p, hp, hhashed⟩ ⟨q, hq, hhashed'⟩ hhash
    by_cases hleader : leader ∈ byz
    · rw [Text.encode_inj_of_class ((hprop.2 hleader).trans (hprop'.2 hleader).symm) hencode]
    · rw [hprop.1 hleader, hprop'.1 hleader]
  · obtain ⟨m₀, rfl, -, hprop, -⟩ := (hall.loc p hp).output hbyz hm
    rw [hprop.1 hleader]

/-- `optqrbc` for `f = 1` and the input `b""`, with a predicate that accepts everything. -/
def plainOpt {N : Nat} (ids : List (Fin N)) (leader : Fin N) : Net.Proto (Fin N) Unit (OptState (Fin N)) OptMsg :=
  optqrbc sha256 (fun _ _ => .ok true) (fun _ => .ok ()) ids 1 leader (.bytes [])

/-- Party 0 outputs the input. -/
theorem optqrbc_agreement_four : ∃ c, Net.Run (plainOpt [0, 1, 2, 3] (0 : Fin 4)) {3} (OneClass 0 {3} true) c ∧
    (c.loc 0).outputs = [some (.bytes [])] ∧ Agrees {3} 0 (.bytes []) c := by
  have hrun : (Net.exec (plainOpt [0, 1, 2, 3] (0 : Fin 4)) {3} (fun _ _ => true)
      [.wake 0 (), .wake 1 (), .recv 0, .recv 4, .recv 4, .recv 0, .inject ⟨3, 0, .echo (sha256 [])⟩, .recv 0, .recv 0,
        .recv 0, .inject ⟨3, 1, .ready (sha256 [])⟩, .recv 0, .recv 0, .inject ⟨3, 0, .ready (sha256 [])⟩, .recv 0]
      (plainOpt [0, 1, 2, 3] 0).start).any (fun c => decide ((c.loc 0).outputs = [some (.bytes [])]) &&
        [0, 1, 2].all (fun p => (c.loc p).hashed.all (fun x => decide (x = [])))) = true := by
    decide +kernel
  have hok : ∀ c l, OneClass (0 : Fin 4) {3} true c l := oneClass_of_good (by decide) true
  obtain ⟨c, hc, hres⟩ := Net.exists_run_of_exec hrun (fun c l _ => hok c l)
  rw [Bool.and_eq_true, decide_eq_true_eq, List.all_eq_true] at hres
  obtain ⟨hout, hhashed⟩ := hres
  have hgood : ∀ p : Fin 4, p ∉ ({3} : Finset (Fin 4)) → p ∈ [0, 1, 2] := by decide
  have hnil : ∀ x ∈ hashedInRun {3} (fun p => (c.loc p).hashed), x = [] := by
    rintro x ⟨p, hp, hx⟩
    exact of_decide_eq_true (List.all_eq_true.1 (hhashed p (hgood p hp)) x hx)
  refine ⟨c, hc, hout, optqrbc_agreement (by decide) (Or.inl (by decide)) hc ?_⟩
  intro x hx y hy _
  rw [hnil x hx, hnil y hy]

/-- Five parties and a bad leader, which sends `b"\x01"` to two parties, `b"\x02"` to two others, and helps both. -/
theorem optqrbc_agreement_counterexample : ¬ ∀ c, Net.Reachable (plainOpt [0, 1, 2, 3, 4] (4 : Fin 5)) {4} c →
    Set.InjOn sha256 (hashedInRun {4} (fun p => (c.loc p).hashed)) → Agrees {4} 4 (.bytes []) c := by
  intro h
  have hrun : (Net.exec (plainOpt [0, 1, 2, 3, 4] (4 : Fin 5)) {4} (fun _ _ => true)
      [.wake 0 (), .wake 1 (), .wake 2 (), .wake 3 (), .inject ⟨4, 0, .propose (.bytes [1])⟩, .recv 0,
        .inject ⟨4, 1, .propose (.bytes [1])⟩, .recv 0, .inject ⟨4, 2, .propose (.bytes [2])⟩, .recv 0,
        .inject ⟨4, 3, .propose (.bytes [2])⟩, .recv 0, .recv 15, .recv 10, .inject ⟨4, 0, .echo (sha256 [1])⟩, .recv 0,
        .recv 0, .recv 0, .inject ⟨4, 1, .ready (sha256 [1])⟩, .recv 0, .recv 0,
        .inject ⟨4, 0, .ready (sha256 [1])⟩, .recv 0, .recv 19, .recv 14, .inject ⟨4, 2, .echo (sha256 [2])⟩, .recv 0,
        .recv 2, .recv 2, .inject ⟨4, 3, .ready (sha256 [2])⟩, .recv 0, .recv 2,
        .inject ⟨4, 2, .ready (sha256 [2])⟩, .recv 0] (plainOpt [0, 1, 2, 3, 4] 4).start).any (fun c =>
      decide ((c.loc 0).outputs = [some (.bytes [1])] ∧ (c.loc 2).outputs = [some (.bytes [2])]) &&
        [0, 1, 2, 3].all (fun p => (c.loc p).hashed.all (fun x => decide (x ∈ [[1], [2]])))) = true := by
    decide +kernel
  obtain ⟨c, hc, hres⟩ := Net.exists_run_of_exec hrun (fun _ _ _ => trivial)
  rw [Bool.and_eq_true, decide_eq_true_eq, List.all_eq_true] at hres
  obtain ⟨⟨hout, hout'⟩, hhashed⟩ := hres
  have hnodup : ([[1], [2]].map sha256).Nodup := by
    decide +kernel
  have hgood : ∀ p : Fin 5, p ∉ ({4} : Finset (Fin 5)) → p ∈ [0, 1, 2, 3] := by decide
  have hmem : ∀ x ∈ hashedInRun {4} (fun p => (c.loc p).hashed), x ∈ [[1], [2]] := by
    rintro x ⟨p, hp, hx⟩
    exact of_decide_eq_true (List.all_eq_true.1 (hhashed p (hgood p hp)) x hx)
  have hagrees := h c hc
    (fun x hx y hy hxy => List.inj_on_of_nodup_map hnodup (hmem x hx) (hmem y hy) hxy)
  have heq := hagrees.agree 0 (by decide) 2 (by decide) (some (.bytes [1])) (hout ▸ List.mem_cons_self)
    (some (.bytes [2])) (hout' ▸ List.mem_cons_self)
  cases heq

/-- **The fallback recovers nothing**: a party that asked for it outputs nothing, whatever the others answer. -/
theorem optqrbc_fallback (hc : Net.Reachable (optqrbc H predicate codec ids f leader input) ∅ c) {p : ι}
    (hanswered : Answered f c p) : (c.loc p).outputs = [] ∧ ∀ m, ¬ Recovers f m c := by
  have hrun := hc.mono (fun c l _ => oneClass_of_good (Finset.notMem_empty leader) true c l)
  have hempty : (∅ : Finset ι).card ≤ f := Nat.zero_le f
  have hall := (optqrbc_preserved H predicate codec ids f leader input true hempty
    (Or.inl (Finset.notMem_empty leader))).run hrun
  obtain ⟨S, hcard, hS⟩ := hanswered.1
  obtain ⟨q, hq⟩ := Finset.card_pos.1 (show 0 < S.card by omega)
  have hasked : (c.loc p).triggered = true := hall.hist _ (hS q hq).2 (Finset.notMem_empty p)
  have hp := hall.loc p (Finset.notMem_empty p)
  have hout : (c.loc p).outputs = [] := hp.deliverer.before (hp.asking hasked)
  refine ⟨hout, fun m hrec => ?_⟩
  have hm := hrec.2 p hanswered
  rw [hout] at hm
  cases hm

/-- All parties good: the other three answer party 3, which gets `None`s and raises. -/
theorem exists_answered : ∃ c, Net.Reachable (plainOpt [0, 1, 2, 3] (0 : Fin 4)) ∅ c ∧ Answered 1 c 3 ∧
    (c.loc 3).phase = .raised .attributeError := by
  have hrun : (Net.exec (plainOpt [0, 1, 2, 3] (0 : Fin 4)) ∅ (fun _ _ => true)
      [.wake 0 (), .wake 1 (), .wake 2 (), .wake 3 (), .recv 0, .recv 4, .recv 8, .recv 8, .recv 4, .recv 0, .recv 10,
        .recv 7, .recv 4, .recv 12, .recv 10, .recv 8, .recv 11, .recv 7, .recv 7, .recv 14, .recv 11, .recv 8,
        .recv 16, .recv 14, .recv 12, .recv 18, .recv 17, .recv 16, .recv 12, .recv 13, .recv 14, .recv 2, .recv 1,
        .recv 4, .recv 3]
      (plainOpt [0, 1, 2, 3] 0).start).any (fun c => decide ((c.loc 3).phase = .raised .attributeError) &&
        ([0, 1, 2].all (fun q => (c.loc q).committed &&
          c.hist.any (fun e => decide (e.src = 3 ∧ e.dst = q ∧ e.msg = .addTrigger))) &&
        c.net.all (fun e => decide (e.dst = 3 → ¬ IsReply e.msg)))) = true := by
    decide +kernel
  obtain ⟨c, hc, hres⟩ := Net.exists_run_of_exec hrun (fun _ _ _ => trivial)
  rw [Bool.and_eq_true, Bool.and_eq_true, decide_eq_true_eq, List.all_eq_true, List.all_eq_true] at hres
  obtain ⟨hraised, hasked, hnet⟩ := hres
  refine ⟨c, hc, ⟨⟨{0, 1, 2}, by decide, fun q hq => ?_⟩, fun e he => ?_⟩,
    hraised⟩
  · have hmem : ∀ q : Fin 4, q ∈ ({0, 1, 2} : Finset (Fin 4)) → q ∈ [0, 1, 2] := by decide
    have hq := hasked q (hmem q hq)
    rw [Bool.and_eq_true, List.any_eq_true] at hq
    obtain ⟨hcommitted, ⟨src, dst, msg⟩, he, hfields⟩ := hq
    obtain ⟨rfl, rfl, rfl⟩ := of_decide_eq_true hfields
    exact ⟨hcommitted, he⟩
  · exact of_decide_eq_true (hnet e he)

theorem optqrbc_fallback_four : ∃ c, Net.Reachable (plainOpt [0, 1, 2, 3] (0 : Fin 4)) ∅ c ∧ Answered 1 c 3 ∧
    (c.loc 3).outputs = [] ∧ ∀ m, ¬ Recovers 1 m c := by
  obtain ⟨c, hc, hanswered, -⟩ := exists_answered
  exact ⟨c, hc, hanswered, optqrbc_fallback hc hanswered⟩

theorem optqrbc_fallback_counterexample : ¬ ∀ c, Net.Reachable (plainOpt [0, 1, 2, 3] (0 : Fin 4)) ∅ c →
    Recovers 1 (.bytes []) c := by
  intro h
  obtain ⟨c, hc, -, hraised⟩ := exists_answered
  exact (h c hc).1 3 _ hraised

end AgreementFallback

end Dpid
