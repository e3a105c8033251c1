import Dpid.InfoDispersal2
import Dpid.MulticastTotal
import Dpid.RbcTotal
import Dpid.RbcVcTotal
import Dpid.Refresh2Safety
import Dpid.Refresh2Total
/-!
# InfoDispersal2Total — a round returns when parties only stop

Each of the four protocols is a part of the round (`Net.Projects`): what it shows of a run of the round is a run of the
protocol with the input that the one before it returns.  So its results hold of the round, one after the other, and a
round at rest has returned everywhere (`runRound_returns`).
-/
namespace Dpid
namespace InfoDispersal2

variable {E : Curve} {H : Hash} {z : Zfec} {R : Rsa} {N f : Nat} {input : Text}

/-! ## The messages of a part -/

def unRbc : RoundMsg → Option RbcMsg
  | .acsRbc m => some m
  | _         => none

def unVerify : RoundMsg → Option Bytes
  | .verify sig => some sig
  | _           => none

def unAdd : RoundMsg → Option (Proof (Int × Int))
  | .add m => some m
  | _      => none

def unRefresh : RoundMsg → Option RefreshMsg
  | .refresh m => some m
  | _          => none

theorem seen_tagged_none {M M' : Type} {tag : M → RoundMsg} {un : RoundMsg → Option M'} (h : ∀ m, un (tag m) = none)
    (out : List (Fin N × M)) : Net.seen un (tagged tag out) = [] := by
  rw [Net.seen, tagged, List.filterMap_map]
  exact List.filterMap_eq_nil_iff.2 (fun o _ => by simp [h])

theorem seen_tagged {M : Type} (un : RoundMsg → Option M) (tag : M → RoundMsg) (h : ∀ m, un (tag m) = some m)
    (out : List (Fin N × M)) : Net.seen un (tagged tag out) = out := by
  rw [Net.seen, tagged, List.filterMap_map]
  have hid : ((fun o : Fin N × RoundMsg => (un o.2).map (fun m => (o.1, m))) ∘ fun o : Fin N × M => (o.1, tag o.2)) = some := by
    funext o
    simp [h]
  rw [hid, List.filterMap_some]

theorem eq_some_seen {σ M : Type} (un : RoundMsg → Option M) (tag : M → RoundMsg) (hun : ∀ m, un (tag m) = some m)
    {step : Option (σ × List (Fin N × M))} {r : σ × List (Fin N × M)} (h : step = some r) :
    step = some (r.1, Net.seen un (tagged tag r.2)) := by
  rw [seen_tagged un tag hun]
  exact h

variable [NeZero N]

/-! ## The steps -/

/-- What one step of a party's own does. -/
inductive WakeStep (E : Curve) (H : Hash) (z : Zfec) (R : Rsa) (f : Nat) (input : Text) (pid : Fin N) (s : RoundState N) :
    RoundState N × List (Fin N × RoundMsg) → Prop where
  | rbc {r : RbcState N × List (Fin N × RbcMsg)}
      (h : (reliablebroadcast H z f 0 input).wake pid () s.rbc = some r) :
      WakeStep E H z R f input pid s ({ s with rbc := r.1 }, tagged .acsRbc r.2)
  | check {roothash target : Bytes} (hr : s.rbc.phase = .decided roothash (.ok target)) (hw : s.check.phase = .waiting) :
      WakeStep E H z R f input pid s ({ s with check := (RbcVc.start E H z R size target s.check).1 },
        tagged .verify (RbcVc.start E H z R size target s.check).2)
  | checkRaised (hr : (∃ roothash e, s.rbc.phase = .decided roothash (.error e)) ∨ ∃ e, s.rbc.phase = .raised e)
      (hw : s.check.phase = .waiting) : WakeStep E H z R f input pid s ({ s with check := { s.check with phase := .raised .typeError } }, [])
  | add {share : List Entry} (hc : s.check.phase = .returned share) (ha : s.add.phase = .input) :
      WakeStep E H z R f input pid s ({ s with add := (Multicast.start pid s.check.commitment s.add).1 },
        tagged .add (Multicast.start pid s.check.commitment s.add).2)
  | send {share : List Entry} (hc : s.check.phase = .returned share) (hr : s.refresh.phase = .start) :
      WakeStep E H z R f input pid s ({ s with refresh := (Refresh.sendShare 0 pid share s.refresh).1 },
        tagged .refresh (Refresh.sendShare 0 pid share s.refresh).2)
  | commit {commitment : Int × Int} (ha : s.add.phase = .returned commitment) (hr : s.refresh.phase = .waiting) :
      WakeStep E H z R f input pid s ({ s with refresh := Refresh.takeCommitment 0 pid commitment s.refresh }, [])

theorem wakeStep_of_wake {pid : Fin N} {t : RoundThread} {s : RoundState N} {r : RoundState N × List (Fin N × RoundMsg)}
    (h : (runRound E H z R f input).wake pid t s = some r) : WakeStep E H z R f input pid s r := by
  change wake E H z R f input pid t s = some r at h
  unfold wake at h
  split at h
  · obtain ⟨r, hr, rfl⟩ := Option.map_eq_some_iff.1 h
    exact .rbc hr
  · split at h
    · rename_i hr hw; cases h; exact .check hr hw
    · rename_i hr hw; cases h; exact .checkRaised (Or.inl ⟨_, _, hr⟩) hw
    · rename_i hr hw; cases h; exact .checkRaised (Or.inr ⟨_, hr⟩) hw
    · cases h
  · split at h
    · rename_i hc ha; cases h; exact .add hc ha
    · cases h
  · split at h
    · rename_i hc hr; cases h; exact .send hc hr
    · cases h
  · split at h
    · rename_i ha hr; cases h; exact .commit ha hr
    · cases h

/-- What one message does. -/
inductive RecvStep (E : Curve) (H : Hash) (z : Zfec) (R : Rsa) (f : Nat) (input : Text) (pid : Fin N) (s : RoundState N)
    (sender : Fin N) : RoundMsg → RoundState N × List (Fin N × RoundMsg) → Prop where
  | acsRbc {m : RbcMsg} {r : RbcState N × List (Fin N × RbcMsg)}
      (h : (reliablebroadcast H z f 0 input).recv pid s.rbc sender m = some r) :
      RecvStep E H z R f input pid s sender (.acsRbc m) ({ s with rbc := r.1 }, tagged .acsRbc r.2)
  | verify {sig : Bytes} (hl : s.check.phase = .loop) :
      RecvStep E H z R f input pid s sender (.verify sig)
        ({ s with check := RbcVc.onVal E H R f size pid sender sig s.check }, [])
  | add {m : Proof (Int × Int)} {v : Int × Int} (hl : s.add.phase = .loop v) :
      RecvStep E H z R f input pid s sender (.add m) ({ s with add := Multicast.onProof f sender m v s.add }, [])
  | refresh {m : RefreshMsg} {r : RefreshState N × List (Fin N × RefreshMsg)}
      (h : Refresh.onMsg E H z size s.refresh sender m = some r) :
      RecvStep E H z R f input pid s sender (.refresh m) ({ s with refresh := r.1 }, tagged .refresh r.2)

theorem recvStep_of_recv {pid sender : Fin N} {s : RoundState N} {msg : RoundMsg}
    {r : RoundState N × List (Fin N × RoundMsg)} (h : (runRound E H z R f input).recv pid s sender msg = some r) :
    RecvStep E H z R f input pid s sender msg r := by
  change recv E H z R f input pid s sender msg = some r at h
  unfold recv at h
  split at h
  · obtain ⟨r, hr, rfl⟩ := Option.map_eq_some_iff.1 h
    exact .acsRbc hr
  · split at h
    · rename_i hl; cases h; exact .verify hl
    · cases h
  · split at h
    · rename_i hl; cases h; exact .add hl
    · cases h
  · obtain ⟨r, hr, rfl⟩ := Option.map_eq_some_iff.1 h
    exact .refresh hr

/-! ## The threads -/

/-- Past its wait `rbc_vc_check` has the value of the broadcast, and `refresh` that of `multicast`. -/
structure ThreadsOk (s : RoundState N) : Prop where
  check : s.check.phase = .waiting ∨ (∃ e, s.check.phase = .raised e) ∨ ∃ r res, s.rbc.phase = .decided r res
  refresh : s.refresh.phase = .start ∨ s.refresh.phase = .waiting ∨ ∃ m, s.add.phase = .returned m

theorem ThreadsOk.wake {p : Fin N} {s : RoundState N} (h : ThreadsOk s) {r : RoundState N × List (Fin N × RoundMsg)}
    (hw : WakeStep E H z R f input p s r) : ThreadsOk r.1 := by
  cases hw with
  | rbc hr =>
    obtain ⟨hin, -, -⟩ := reliablebroadcast_wake hr
    exact ⟨h.check.imp_right (Or.imp_right (fun ⟨r, res, hd⟩ => by rw [hin] at hd; cases hd)), h.refresh⟩
  | check hr hph => exact ⟨Or.inr (Or.inr ⟨_, _, hr⟩), h.refresh⟩
  | checkRaised hr hph => exact ⟨Or.inr (Or.inl ⟨_, rfl⟩), h.refresh⟩
  | add hc ha =>
    exact ⟨h.check, h.refresh.imp_right (Or.imp_right (fun ⟨m, hm⟩ => by rw [ha] at hm; cases hm))⟩
  | send hc hr => exact ⟨h.check, Or.inr (Or.inl rfl)⟩
  | commit ha hr => exact ⟨h.check, Or.inr (Or.inr ⟨_, ha⟩)⟩

theorem ThreadsOk.recv {p q : Fin N} {s : RoundState N} {msg : RoundMsg} (h : ThreadsOk s)
    {r : RoundState N × List (Fin N × RoundMsg)} (hr : RecvStep E H z R f input p s q msg r) : ThreadsOk r.1 := by
  cases hr with
  | acsRbc hm =>
    obtain ⟨hl, -, -⟩ := reliablebroadcast_recv hm
    exact ⟨h.check.imp_right (Or.imp_right (fun ⟨r, res, hd⟩ => by rw [hl] at hd; cases hd)), h.refresh⟩
  | verify hl =>
    refine ⟨Or.inr (Or.inr ?_), h.refresh⟩
    rcases h.check with hw | ⟨e, he⟩ | hd
    · rw [hl] at hw; cases hw
    · rw [hl] at he; cases he
    · exact hd
  | add hl =>
    exact ⟨h.check, h.refresh.imp_right (Or.imp_right (fun ⟨m, hm⟩ => by rw [hl] at hm; cases hm))⟩
  | refresh hm =>
    refine ⟨h.check, Or.inr (Or.inr ?_)⟩
    rcases h.refresh with hs | hw | hd
    · unfold Refresh.onMsg at hm; rw [hs] at hm; cases hm
    · unfold Refresh.onMsg at hm; rw [hw] at hm; cases hm
    · exact hd

theorem runRound_threads (byz : Finset (Fin N)) : Net.Preserved (runRound E H z R f input) byz (fun _ _ => True)
    (fun _ _ => True) (fun loc _ p => ThreadsOk (loc p)) (fun _ _ => True) where
  grow_refl := fun _ => trivial
  grow_wake := fun _ _ _ _ _ _ => trivial
  grow_recv := fun _ _ _ _ _ _ _ => trivial
  local_mono := fun loc loc' hist hist' p _ _ _ hp h => by rw [hp]; exact h
  msg_mono := fun _ _ _ _ _ => trivial
  init := fun p _ => ⟨Or.inl rfl, Or.inl rfl⟩
  wake := fun c p t s out loc' _ hp hL h hloc _ =>
    ⟨by rw [hloc, Function.update_self]; exact (hL p hp).wake (wakeStep_of_wake h), fun _ _ => trivial⟩
  recv := fun c e s out loc' _ hp hL _ h hloc _ =>
    ⟨by rw [hloc, Function.update_self]; exact (hL e.dst hp).recv (recvStep_of_recv h), fun _ _ => trivial⟩

/-- **A thread that is killed has returned**: the broadcast once `rbc_vc_check` has, and `multicast` once `refresh` has. -/
theorem killed_returned {faulty : Finset (Fin N)} {c : Net.CrashConf (Fin N) (RoundState N) RoundMsg}
    (hc : Net.CrashReachable (runRound E H z R f input) faulty c) (p : Fin N) :
    ((∃ share, (c.loc p).check.phase = .returned share) → ∃ r res, (c.loc p).rbc.phase = .decided r res) ∧
      ∀ target, Returned (c.loc p) target → ∃ m, (c.loc p).add.phase = .returned m := by
  have hok : ThreadsOk (c.loc p) := ((runRound_threads ∅).crashRun hc).loc p (Finset.notMem_empty p)
  refine ⟨fun ⟨share, hs⟩ => ?_, fun target ⟨channel, hr⟩ => ?_⟩
  · rcases hok.check with hw | ⟨e, he⟩ | hd
    · rw [hs] at hw; cases hw
    · rw [hs] at he; cases he
    · exact hd
  · rcases hok.refresh with hs | hw | hd
    · rw [hr] at hs; cases hs
    · rw [hr] at hw; cases hw
    · exact hd

/-! ## The parts -/

section Runs

variable {S : List Bytes} {com : Int × Int} {proofs : List (Int × Int)} {faulty : Finset (Fin N)}

/-- What a round rests on: `S`, `com` and `proofs` are the stripes of the input, their commitment and their proofs. -/
structure Ready (E : Curve) (H : Hash) (z : Zfec) (R : Rsa) (N f : Nat) (input : Text) (S : List Bytes)
    (com : Int × Int) (proofs : List (Int × Int)) : Prop where
  parties : 3 * f + 1 ≤ N
  mds : z.IsMds (N - 2 * f) N
  roundTrip : RoundTrip z (N - 2 * f) N input
  encoded : ∃ S', encode z (N - 2 * f) N input = .ok S'
  rsa : R.Lawful
  prepare : RbcVc.prepare E H z size input.encode = .ok (S, com)
  prepared : Refresh.Prepared E H z size input S com proofs

theorem projects_rbc (faulty : Finset (Fin N)) :
    Net.Projects (runRound E H z R f input) faulty (reliablebroadcast H z f 0 input) RoundState.rbc unRbc where
  init := fun _ => rfl
  wake := by
    intro c p t s out _ h
    cases wakeStep_of_wake h with
    | rbc hr     => exact Or.inr ⟨(), eq_some_seen unRbc .acsRbc (fun _ => rfl) hr⟩
    | check      => exact Or.inl ⟨rfl, seen_tagged_none (fun _ => rfl) _⟩
    | checkRaised => exact Or.inl ⟨rfl, rfl⟩
    | add        => exact Or.inl ⟨rfl, seen_tagged_none (fun _ => rfl) _⟩
    | send       => exact Or.inl ⟨rfl, seen_tagged_none (fun _ => rfl) _⟩
    | commit     => exact Or.inl ⟨rfl, rfl⟩
  recv := by
    intro c e s out _ h
    obtain ⟨src, dst, msg⟩ := e
    cases recvStep_of_recv h with
    | acsRbc hr => exact Or.inr ⟨_, rfl, eq_some_seen unRbc .acsRbc (fun _ => rfl) hr⟩
    | verify    => exact Or.inl ⟨rfl, rfl, rfl⟩
    | add       => exact Or.inl ⟨rfl, rfl, rfl⟩
    | refresh   => exact Or.inl ⟨rfl, rfl, seen_tagged_none (fun _ => rfl) _⟩

/-- **The broadcast part**: nobody raises, and who decides returns the input. -/
theorem rbc_decided (h : Ready E H z R N f input S com proofs) {c : Net.CrashConf (Fin N) (RoundState N) RoundMsg}
    (hc : Net.CrashReachable (runRound E H z R f input) faulty c) (p : Fin N) :
    (∀ e, (c.loc p).rbc.phase ≠ .raised e) ∧ ∀ r res, (c.loc p).rbc.phase = .decided r res → res = .ok input.encode := by
  obtain ⟨net, -, hpart⟩ := (projects_rbc faulty).exists_part hc
  obtain ⟨S', hS'⟩ := h.encoded
  exact reliablebroadcast_decided h.parties h.mds h.roundTrip hS' hpart p

theorem projects_check (faulty : Finset (Fin N)) (h : Ready E H z R N f input S com proofs) : Net.Projects (runRound E H z R f input) faulty
    (rbcVcCheck E H z R f size (fun _ => input.encode)) RoundState.check unVerify where
  init := fun _ => rfl
  wake := by
    intro c p t s out hc hw
    obtain ⟨hno, hdec⟩ := rbc_decided h hc p
    cases wakeStep_of_wake hw with
    | rbc => exact Or.inl ⟨rfl, seen_tagged_none (fun _ => rfl) _⟩
    | check hr hph =>
      obtain rfl := Except.ok.inj (hdec _ _ hr)
      exact Or.inr ⟨(), eq_some_seen unVerify .verify (fun _ => rfl) (if_pos hph)⟩
    | checkRaised hr hph =>
      rcases hr with ⟨r, e, hr⟩ | ⟨e, hr⟩
      · cases hdec _ _ hr
      · exact absurd hr (hno e)
    | add => exact Or.inl ⟨rfl, seen_tagged_none (fun _ => rfl) _⟩
    | send => exact Or.inl ⟨rfl, seen_tagged_none (fun _ => rfl) _⟩
    | commit => exact Or.inl ⟨rfl, rfl⟩
  recv := by
    intro c e s out _ hr
    obtain ⟨src, dst, msg⟩ := e
    cases recvStep_of_recv hr with
    | acsRbc => exact Or.inl ⟨rfl, rfl, seen_tagged_none (fun _ => rfl) _⟩
    | verify hph => exact Or.inr ⟨_, rfl, if_pos hph⟩
    | add => exact Or.inl ⟨rfl, rfl, rfl⟩
    | refresh => exact Or.inl ⟨rfl, rfl, seen_tagged_none (fun _ => rfl) _⟩

/-- **The check part**: nobody raises, and who returns has the commitment and its own interval. -/
theorem check_returned (h : Ready E H z R N f input S com proofs) {c : Net.CrashConf (Fin N) (RoundState N) RoundMsg}
    (hc : Net.CrashReachable (runRound E H z R f input) faulty c) (p : Fin N) :
    (∀ e, (c.loc p).check.phase ≠ .raised e) ∧ ∀ share, (c.loc p).check.phase = .returned share →
      (c.loc p).check.commitment = com ∧ share = Refresh.targetData size N S proofs p := by
  obtain ⟨net, -, hpart⟩ := (projects_check faulty h).exists_part hc
  have hok := ((RbcVc.rbcVcCheck_crash (N := N) (f := f) h.rsa h.prepare (fun j => ⟨_, h.prepared.ownShare_eq j⟩)).crashRun
    hpart).loc p (Finset.notMem_empty p)
  refine ⟨hok.not_raised, fun share hret => ⟨(hok.prepared (by rw [hret]; nofun)).2, ?_⟩⟩
  exact Except.ok.inj ((hok.returned share hret).symm.trans (h.prepared.ownShare_eq p))

theorem projects_add (faulty : Finset (Fin N)) (h : Ready E H z R N f input S com proofs) : Net.Projects (runRound E H z R f input) faulty
    (multicast f (fun _ => com)) RoundState.add unAdd where
  init := fun _ => rfl
  wake := by
    intro c p t s out hc hw
    cases wakeStep_of_wake hw with
    | rbc => exact Or.inl ⟨rfl, seen_tagged_none (fun _ => rfl) _⟩
    | check => exact Or.inl ⟨rfl, seen_tagged_none (fun _ => rfl) _⟩
    | checkRaised => exact Or.inl ⟨rfl, rfl⟩
    | add hret hph =>
      refine Or.inr ⟨(), eq_some_seen unAdd .add (fun _ => rfl) ?_⟩
      simp only [multicast, hph, ((check_returned h hc p).2 _ hret).1]
    | send => exact Or.inl ⟨rfl, seen_tagged_none (fun _ => rfl) _⟩
    | commit => exact Or.inl ⟨rfl, rfl⟩
  recv := by
    intro c e s out _ hr
    obtain ⟨src, dst, msg⟩ := e
    cases recvStep_of_recv hr with
    | acsRbc => exact Or.inl ⟨rfl, rfl, seen_tagged_none (fun _ => rfl) _⟩
    | verify => exact Or.inl ⟨rfl, rfl, rfl⟩
    | add hph => exact Or.inr ⟨_, rfl, by simp only [multicast, hph]; rfl⟩
    | refresh => exact Or.inl ⟨rfl, rfl, seen_tagged_none (fun _ => rfl) _⟩

/-- **The multicast part**: who returns has the commitment. -/
theorem add_returned (h : Ready E H z R N f input S com proofs) {c : Net.CrashConf (Fin N) (RoundState N) RoundMsg}
    (hc : Net.CrashReachable (runRound E H z R f input) faulty c) (p : Fin N) {m : Int × Int}
    (hret : (c.loc p).add.phase = .returned m) : m = com := by
  obtain ⟨net, -, hpart⟩ := (projects_add faulty h).exists_part hc
  exact (((Multicast.multicast_crash f com).crashRun hpart).loc p (Finset.notMem_empty p)).returned m hret

theorem projects_refresh (faulty : Finset (Fin N)) (h : Ready E H z R N f input S com proofs) : Net.Projects (runRound E H z R f input) faulty
    (refresh2 E H z size 0 (fun p => Refresh.targetData size N S proofs p) (fun _ => com)) RoundState.refresh unRefresh where
  init := fun _ => rfl
  wake := by
    intro c p t s out hc hw
    cases wakeStep_of_wake hw with
    | rbc => exact Or.inl ⟨rfl, seen_tagged_none (fun _ => rfl) _⟩
    | check => exact Or.inl ⟨rfl, seen_tagged_none (fun _ => rfl) _⟩
    | checkRaised => exact Or.inl ⟨rfl, rfl⟩
    | add => exact Or.inl ⟨rfl, seen_tagged_none (fun _ => rfl) _⟩
    | send hret hph =>
      refine Or.inr ⟨.send, eq_some_seen unRefresh .refresh (fun _ => rfl) ?_⟩
      simp only [refresh2, hph, ((check_returned h hc p).2 _ hret).2]
    | commit hret hph =>
      refine Or.inr ⟨.commit, ?_⟩
      simp only [refresh2, hph, add_returned h hc p hret]
      rfl
  recv := by
    intro c e s out _ hr
    obtain ⟨src, dst, msg⟩ := e
    cases recvStep_of_recv hr with
    | acsRbc => exact Or.inl ⟨rfl, rfl, seen_tagged_none (fun _ => rfl) _⟩
    | verify => exact Or.inl ⟨rfl, rfl, rfl⟩
    | add => exact Or.inl ⟨rfl, rfl, rfl⟩
    | refresh hm => exact Or.inr ⟨_, rfl, eq_some_seen unRefresh .refresh (fun _ => rfl) hm⟩

/-- **The refresh part**: nobody raises. -/
theorem refresh_not_raised (h : Ready E H z R N f input S com proofs) {c : Net.CrashConf (Fin N) (RoundState N) RoundMsg}
    (hc : Net.CrashReachable (runRound E H z R f input) faulty c) (p : Fin N) (e : Exn) :
    (c.loc p).refresh.phase ≠ .raised e := by
  obtain ⟨net, -, hpart⟩ := (projects_refresh faulty h).exists_part hc
  exact (((Refresh.refresh2_crash h.prepared (Nat.succ_pos _) 0).crashRun hpart).loc p
    (Finset.notMem_empty p)).not_raised e

theorem not_raised (h : Ready E H z R N f input S com proofs) {c : Net.CrashConf (Fin N) (RoundState N) RoundMsg}
    (hc : Net.CrashReachable (runRound E H z R f input) faulty c) (p : Fin N) : ¬ Raised (c.loc p) := by
  rintro (⟨e, he⟩ | ⟨r, e, he⟩ | ⟨e, he⟩ | ⟨e, he⟩)
  · exact (rbc_decided h hc p).1 e he
  · cases (rbc_decided h hc p).2 _ _ he
  · exact (check_returned h hc p).1 e he
  · exact refresh_not_raised h hc p e he

/-! ## At rest -/

section Rest

variable (h : Ready E H z R N f input S com proofs) (hfaulty : faulty.card ≤ f) (hleader : (0 : Fin N) ∉ faulty)
  {c : Net.CrashConf (Fin N) (RoundState N) RoundMsg} (hc : Net.CrashReachable (runRound E H z R f input) faulty c)
  (hquiet : Net.Quiescent (runRound E H z R f input) c)
include h hfaulty hleader hc hquiet

theorem rest_rbc : ∀ p ∉ c.stopped, ∃ r, (c.loc p).rbc.phase = .decided r (.ok input.encode) := by
  obtain ⟨net, hpart⟩ := (projects_rbc faulty).exists_part hc
  obtain ⟨S', hS'⟩ := h.encoded
  have hrest := hpart.quiescent hquiet (fun p hp t => Option.map_eq_none_iff.1 (hquiet.1 p hp .rbc)) (fun p s q m m' hm hr => by
    cases m with
    | acsRbc m  => obtain rfl := Option.some.inj hm; exact Option.map_eq_none_iff.1 hr
    | verify sig => cases hm
    | add m     => cases hm
    | refresh m => cases hm)
  intro p hp
  obtain ⟨r, res, hd⟩ := reliablebroadcast_total h.parties h.mds hS' hfaulty hleader hpart.2 hrest p hp
  exact ⟨r, (rbc_decided h hc p).2 r res hd ▸ hd⟩

theorem rest_check : ∀ p ∉ c.stopped, ∃ share, (c.loc p).check.phase = .returned share := by
  obtain ⟨net, hpart⟩ := (projects_check faulty h).exists_part hc
  have hN := h.parties
  have hrest := hpart.quiescent hquiet (fun p hp t => if_neg (fun hph => ?_)) (fun p s q m m' hm hr => by
    cases m with
    | acsRbc m  => cases hm
    | verify sig =>
      obtain rfl := Option.some.inj hm
      exact if_neg (fun hph => by simp [runRound, recv, hph] at hr)
    | add m     => cases hm
    | refresh m => cases hm)
  · exact rbcVcCheck_total (by omega) h.rsa h.prepare (fun j => ⟨_, h.prepared.ownShare_eq j⟩) hfaulty hpart.2 hrest
  · obtain ⟨r, hd⟩ := rest_rbc h hfaulty hleader hc hquiet p hp
    have hnone := hquiet.1 p hp .check
    simp only [runRound, wake, hd, hph] at hnone
    cases hnone

theorem rest_add : ∀ p ∉ c.stopped, (c.loc p).add.phase = .returned com := by
  obtain ⟨net, hpart⟩ := (projects_add faulty h).exists_part hc
  have hN := h.parties
  have hrest := hpart.quiescent hquiet (fun p hp t => ?_) (fun p s q m m' hm hr => by
    cases m with
    | acsRbc m  => cases hm
    | verify sig => cases hm
    | add m =>
      obtain rfl := Option.some.inj hm
      cases hph : s.add.phase with
      | input      => simp [multicast, hph]
      | loop v     => simp [runRound, recv, hph] at hr
      | returned v => simp [multicast, hph]
    | refresh m => cases hm)
  · intro p hp
    exact multicast_total (by omega) hfaulty hpart.2 hrest p hp
  · obtain ⟨share, hret⟩ := rest_check h hfaulty hleader hc hquiet p hp
    have hnone := hquiet.1 p hp .add
    cases hph : (c.loc p).add.phase with
    | input      => simp [runRound, wake, hret, hph] at hnone
    | loop v     => simp [multicast, hph]
    | returned v => simp [multicast, hph]

theorem rest_refresh (hN : N ≤ 128) :
    ∀ p ∉ c.stopped, Returned (c.loc p) (Refresh.targetData size N S proofs p) := by
  obtain ⟨net, hpart⟩ := (projects_refresh faulty h).exists_part hc
  have hstopped : c.stopped.card ≤ f := (Finset.card_le_card hc.stopped_subset).trans hfaulty
  have hrest := hpart.quiescent hquiet (fun p hp t => ?_) (fun p s q m m' hm hr => by
    cases m with
    | acsRbc m  => cases hm
    | verify sig => cases hm
    | add m     => cases hm
    | refresh m => obtain rfl := Option.some.inj hm; exact Option.map_eq_none_iff.1 hr)
  · exact refresh2_total h.prepared (Nat.succ_pos _) (fun hz => hleader (hc.stopped_subset hz))
      (dataThreshold_le_sum h.parties hN hstopped) hpart.2 hrest
  · obtain ⟨share, hret⟩ := rest_check h hfaulty hleader hc hquiet p hp
    have hadd := rest_add h hfaulty hleader hc hquiet p hp
    have hsend := hquiet.1 p hp (.refresh .send)
    have hcommit := hquiet.1 p hp (.refresh .commit)
    have hstart : (c.loc p).refresh.phase ≠ .start := fun hph => by simp [runRound, wake, hret, hph] at hsend
    have hwaiting : (c.loc p).refresh.phase ≠ .waiting := fun hph => by simp [runRound, wake, hadd, hph] at hcommit
    simp only [refresh2]
    split
    · exact absurd ‹_› hstart
    · exact absurd ‹_› hwaiting
    · rfl

end Rest

end Runs

/-! ## The budget -/

/-- What a party may still send, and its steps. -/
def fuel (s : RoundState N) : Nat :=
  Rbc.fuel s.rbc + RbcVc.fuel s.check + Multicast.fuel s.add + Refresh.fuel s.refresh

theorem runRound_bounded (E : Curve) (H : Hash) (z : Zfec) (R : Rsa) (f : Nat) (input : Text) :
    Net.Bounded (runRound (N := N) E H z R f input) fuel where
  wake := by
    intro p t s s' out h
    cases wakeStep_of_wake h with
    | rbc hr =>
      have := (Rbc.reliablebroadcast_bounded H z f 0 input).wake _ _ _ _ _ hr
      simp only [fuel, tagged, List.length_map]
      omega
    | @check roothash target hr hw =>
      have : RbcVc.fuel (RbcVc.start E H z R size target s.check).1 +
          (RbcVc.start E H z R size target s.check).2.length < RbcVc.fuel s.check :=
        (RbcVc.rbcVcCheck_bounded E H z R f size (fun _ => target)).wake p () _ _ _ (if_pos hw)
      simp only [fuel, tagged, List.length_map]
      omega
    | checkRaised hr hw =>
      simp [fuel, RbcVc.fuel, hw]
    | add hc ha =>
      have : Multicast.fuel (Multicast.start p s.check.commitment s.add).1 +
          (Multicast.start p s.check.commitment s.add).2.length < Multicast.fuel s.add :=
        (Multicast.multicast_bounded f (fun _ => s.check.commitment)).wake p () _ _ _ (by simp only [multicast, ha])
      simp only [fuel, tagged, List.length_map]
      omega
    | @send share hc hr =>
      have : Refresh.fuel (Refresh.sendShare 0 p share s.refresh).1 +
          (Refresh.sendShare 0 p share s.refresh).2.length < Refresh.fuel s.refresh :=
        (Refresh.refresh2_bounded E H z size 0 (fun _ => share) (fun _ => s.check.commitment)).wake p .send _ _ _
          (by simp only [refresh2, hr])
      simp only [fuel, tagged, List.length_map]
      omega
    | @commit commitment ha hr =>
      have : Refresh.fuel (Refresh.takeCommitment 0 p commitment s.refresh) + 0 < Refresh.fuel s.refresh :=
        (Refresh.refresh2_bounded E H z size 0 (fun _ => []) (fun _ => commitment)).wake p .commit _ _ []
          (by simp only [refresh2, hr])
      simp only [fuel, List.length_nil]
      omega
  recv := by
    intro p s q m s' out h
    cases recvStep_of_recv h with
    | acsRbc hr =>
      have := (Rbc.reliablebroadcast_bounded H z f 0 input).recv _ _ _ _ _ _ hr
      simp only [fuel, tagged, List.length_map]
      omega
    | @verify sig hl =>
      have := (RbcVc.rbcVcCheck_bounded E H z R f size (fun _ => [])).recv p s.check q sig _ _ (if_pos hl)
      simp only [fuel, List.length_nil] at this ⊢
      omega
    | @add m v hl =>
      have := (Multicast.multicast_bounded f (fun _ => v)).recv p s.add q m _ _ (by simp only [multicast, hl]; rfl)
      simp only [fuel, List.length_nil] at this ⊢
      omega
    | refresh hr =>
      have := Refresh.onMsg_fuel hr
      simp only [fuel, tagged, List.length_map]
      omega

/-! ## The result -/

omit [NeZero N] in
/-- Where no point met is at infinity, a round has what it rests on. -/
theorem exists_ready (hN : 3 * f + 1 ≤ N) (hN' : N ≤ 128) (hE : E.Lawful) (hz : z.IsMds (N - 2 * f) N)
    (hz' : z.IsMds 54 160) (hR : R.Lawful) (hinf : ∀ S, encode z 54 160 input = .ok S → ∀ i < 160,
      NoInfinity E (RbcVc.ints H 160 S) (sha256ToInt H (S.getD i [])) i) :
    ∃ S com proofs, commit E (RbcVc.ints H 160 S) = .ok com ∧ Ready E H z R N f input S com proofs := by
  obtain ⟨S, hS, -⟩ := encode_isOk hz' (by omega) (by omega) (by omega) input
  obtain ⟨S', hS', -⟩ := encode_isOk hz (by omega) (by omega) (by omega) input
  obtain ⟨com, hcom, hcommit, hprep, hproof⟩ := RbcVc.prepare_isOk hE (by decide) le_rfl hS (hinf S hS)
  obtain ⟨proofs, hproofs⟩ := exists_mapM_ok (fun i hi => hproof i (List.mem_range.1 hi))
  exact ⟨S, com, proofs, hcommit, hN, hz, roundTrip_of_le hz (by omega) input, ⟨S', hS'⟩, hR, hprep,
    hE, hz', hS, ⟨_, hcom⟩, hproofs⟩

/-- **When at most `f` parties stop, and not party 0, nobody raises, and a round at rest has returned to every running
party its interval of the stripes of the input**, each with a proof that verifies. -/
theorem runRound_returns (hN : 3 * f + 1 ≤ N) (hN' : N ≤ 128) (hE : E.Lawful) (hz : z.IsMds (N - 2 * f) N)
    (hz' : z.IsMds 54 160) (hR : R.Lawful) (hinf : ∀ S, encode z 54 160 input = .ok S → ∀ i < 160,
      NoInfinity E (RbcVc.ints H 160 S) (sha256ToInt H (S.getD i [])) i)
    {faulty : Finset (Fin N)} (hfaulty : faulty.card ≤ f) (hleader : 0 ∉ faulty) :
    ∃ (S : List Bytes) (com : Int × Int) (proof : Nat → Int × Int), encode z 54 160 input = .ok S ∧
      commit E (RbcVc.ints H 160 S) = .ok com ∧
      (∀ i < 160, verify E com (proof i) (sha256ToInt H (S.getD i [])) i = .ok true) ∧
      ∀ c, Net.CrashReachable (runRound E H z R f input) faulty c → (∀ p, ¬ Raised (c.loc p)) ∧
        (Net.Quiescent (runRound E H z R f input) c → ∀ p ∉ c.stopped,
          Returned (c.loc p) ((interval 160 N p).map (fun i => ⟨S.getD i [], proof i, i⟩))) := by
  obtain ⟨S, com, proofs, hcommit, h⟩ := exists_ready hN hN' hE hz hz' hR hinf
  obtain ⟨C, hC⟩ := h.prepared.finite
  exact ⟨S, com, fun i => proofs.getD i (0, 0), h.prepared.stripes, hcommit,
    fun i hi => verify_of_generateProof hE hC (h.prepared.proof_eq hi),
    fun c hc => ⟨not_raised h hc, fun hquiet p hp => rest_refresh h hfaulty hleader hc hquiet hN' p hp⟩⟩

/-- A key whose signature is the data. -/
def plainRsa : Rsa := ⟨id, fun data sig => sig == data⟩

/-- Party 3 of four stops at once; the others return. -/
theorem runRound_returns_four : ∃ (S : List Bytes) (com : Int × Int) (proof : Nat → Int × Int)
    (c : Net.CrashConf (Fin 4) (RoundState 4) RoundMsg), encode reedSolomonEq 54 160 (.bytes []) = .ok S ∧
    commit secp256k1 (RbcVc.ints sha256 160 S) = .ok com ∧
    Net.CrashReachable (runRound secp256k1 sha256 reedSolomonEq plainRsa 1 (.bytes [])) {3} c ∧ c.stopped = {3} ∧
    ∀ p ∉ c.stopped, Returned (c.loc p) ((interval 160 4 p).map (fun i => ⟨S.getD i [], proof i, i⟩)) := by
  have hinf : ∀ S, encode reedSolomonEq 54 160 (.bytes []) = .ok S → ∀ i < 160,
      NoInfinity secp256k1 (RbcVc.ints sha256 160 S) (sha256ToInt sha256 (S.getD i [])) i := by
    intro S hS i hi
    obtain rfl := Except.ok.inj (hS.symm.trans Refresh.encode_empty)
    rw [Refresh.emptyStripes_getD hi]
    exact Refresh.emptyStripes_noInfinity (Or.inl rfl) hi
  obtain ⟨S, com, proof, hS, hcommit, -, hreturns⟩ := runRound_returns (N := 4) (f := 1) (by decide) (by decide)
    secp256k1_lawful (reedSolomonEq_isMds (by decide) (by decide) (by decide))
    (reedSolomonEq_isMds (by decide) (by decide) (by decide)) (R := plainRsa) (fun data => beq_self_eq_true data) hinf
    (show ({3} : Finset (Fin 4)).card ≤ 1 by decide) (by decide)
  obtain ⟨c, hc, hquiet, hstopped⟩ := (runRound_bounded secp256k1 sha256 reedSolomonEq plainRsa 1 (.bytes [])).exists_quiescent
    (Net.CrashReachable.start.step (.stop (Finset.mem_singleton_self (3 : Fin 4))))
  exact ⟨S, com, proof, c, hS, hcommit, hc, hstopped, (hreturns c hc).2 hquiet⟩

end InfoDispersal2
end Dpid
