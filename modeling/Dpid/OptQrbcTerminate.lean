import Dpid.OptQrbcAgree
import Mathlib
/-!
# OptQrbcTerminate — what a `TERMINATE` of `optqrbc` stands for

Four steps send `TERMINATE` or leave the loop without the output they should come after, or forget it (`GoesWrong`): a
proposal that comes after the commitment to its hash, a second commitment, the last `TERMINATE` from a party that is not
one of `ids`, and a `ValueError`.  In a run without them a party that has sent `TERMINATE`, or has returned, has output
once, what it stands committed to.
-/
namespace Dpid

namespace OptQrbc

def isValueError {α : Type} : Except Exn α → Bool
  | .error (.valueError _) => true
  | _                      => false

variable {ι : Type} {H : Hash} {predicate : ι → Text → Except Exn Bool} {codec : Int → Except Exn Unit}
  {ids : List ι} {f : Nat} {leader : ι} {input : Text} {byz : Finset ι}

/-- The invariant of a party. -/
structure TermOk (H : Hash) (ids : List ι) (p : ι) (s : OptState ι) : Prop where
  deliverer : Deliverer H s
  heard : p ∈ s.terminateSenders → s.committed = true
  returned : s.phase = .returned → p ∈ ids → s.committed = true

section Alive

variable {s s' : OptState ι}

/-- Still in the loop, or raised; and the `TERMINATE`s taken are those taken before. -/
def Alive (s s' : OptState ι) : Prop := s'.phase ≠ .returned ∧ s'.terminateSenders = s.terminateSenders

theorem alive_stop {e : Exn} (h : isValueError (.error e : Except Exn Unit) = false)
    (ht : s'.terminateSenders = s.terminateSenders) : Alive s (stop e s') := by
  refine ⟨?_, ht⟩
  cases e with
  | valueError _ => cases h
  | _            => nofun

theorem commit_alive (ids : List ι) (digest : Bytes) (s : OptState ι) : (commit ids digest s).1.phase = s.phase ∧
    (commit ids digest s).1.terminateSenders = s.terminateSenders ∧
    ∀ o ∈ (commit ids digest s).2, o.2 = .terminate → (commit ids digest s).1.committed = true := by
  unfold commit deliver
  simp only
  split
  · exact ⟨rfl, rfl, fun _ _ _ => rfl⟩
  · split
    · exact ⟨rfl, rfl, fun _ _ _ => rfl⟩
    · refine ⟨rfl, rfl, fun o ho hmsg => ?_⟩
      rw [mem_broadcast ho] at hmsg
      cases hmsg

theorem Quiet.no_terminate {r : OptState ι × List (ι × OptMsg)} (h : Quiet s r) : ∀ o ∈ r.2, o.2 ≠ .terminate := by
  intro o ho hmsg
  have hreply := h.2.2 o ho
  rw [hmsg] at hreply
  exact hreply

end Alive

variable [DecidableEq ι]

/-- The steps that go wrong, by the message that makes them. -/
def GoesWrong (H : Hash) (predicate : ι → Text → Except Exn Bool) (codec : Int → Except Exn Unit) (ids : List ι)
    (f : Nat) (leader p : ι) (s : OptState ι) (sender : ι) : OptMsg → Prop
  | .propose m        => s.leaderHash = none ∧ sender = leader ∧
      (isValueError (predicate p m) = true ∨ predicate p m = .ok true ∧ s.committedHash = some (H m.encode))
  | .ready digest     => Recommits f s sender (.ready digest)
  | .terminate        => sender ∉ s.terminateSenders ∧ (insert sender s.terminateSenders).card = ids.length ∧
      ¬ insert sender s.terminateSenders ⊆ ids.toFinset
  | .addReconstruct _ => s.committed = false ∧ sender ∉ s.addReconstructSenders ∧ sender ∈ ids ∧
      2 * f + 1 ≤ (insert sender s.addReconstructSenders).card ∧
      isValueError (codec (ids.length - (f + 1 : Nat))) = true
  | _                 => False

/-- No good party takes a message that makes it go wrong. -/
def StaysRight (H : Hash) (predicate : ι → Text → Except Exn Bool) (codec : Int → Except Exn Unit) (ids : List ι)
    (f : Nat) (leader : ι) (c : Net.Conf ι (OptState ι) OptMsg) : Net.Label ι Unit OptMsg → Prop
  | .recv e => ¬ GoesWrong H predicate codec ids f leader e.dst (c.loc e.dst) e.src e.msg
  | _       => True

instance decidableRecommits (f : Nat) (s : OptState ι) (sender : ι) : ∀ msg, Decidable (Recommits f s sender msg)
  | .ready _                                                                            =>
    inferInstanceAs (Decidable (_ ∧ _ ∧ _))
  | .propose _ | .echo _ | .terminate | .addTrigger | .addDisperse _ _ | .addReconstruct _ =>
    inferInstanceAs (Decidable False)

instance decidableGoesWrong (H : Hash) (predicate : ι → Text → Except Exn Bool) (codec : Int → Except Exn Unit)
    (ids : List ι) (f : Nat) (leader p : ι) (s : OptState ι) (sender : ι) :
    ∀ msg, Decidable (GoesWrong H predicate codec ids f leader p s sender msg)
  | .propose _                              => inferInstanceAs (Decidable (_ ∧ _ ∧ (_ ∨ _ ∧ _)))
  | .ready digest                           => decidableRecommits f s sender (.ready digest)
  | .terminate                              => inferInstanceAs (Decidable (_ ∧ _ ∧ ¬ _))
  | .addReconstruct _                       => inferInstanceAs (Decidable (_ ∧ _ ∧ _ ∧ _ ∧ _))
  | .echo _ | .addTrigger | .addDisperse _ _ => inferInstanceAs (Decidable False)

instance decidableStaysRight (H : Hash) (predicate : ι → Text → Except Exn Bool) (codec : Int → Except Exn Unit)
    (ids : List ι) (f : Nat) (leader : ι) (c : Net.Conf ι (OptState ι) OptMsg) :
    ∀ l, Decidable (StaysRight H predicate codec ids f leader c l)
  | .recv e               =>
    inferInstanceAs (Decidable (¬ GoesWrong H predicate codec ids f leader e.dst (c.loc e.dst) e.src e.msg))
  | .wake _ _ | .inject _ => inferInstanceAs (Decidable True)

section Party

variable {s s' : OptState ι} {p sender : ι}

theorem relativeIdxs_error {e : Exn} (h : relativeIdxs ids sender = .error e) : e = .keyError ∧ sender ∉ ids := by
  unfold relativeIdxs at h
  split at h
  · cases h
  · rename_i hmem
    cases h
    exact ⟨rfl, hmem⟩

theorem storeStripe_error {stripe : Stripe} {e : Exn} (h : storeStripe ids sender stripe s = .error e) :
    e = .keyError := by
  unfold storeStripe at h
  cases hi : relativeIdxs ids sender with
  | error e' =>
    rw [hi] at h
    cases h
    exact (relativeIdxs_error hi).1
  | ok i     =>
    rw [hi] at h
    cases h

theorem storeStripe_mem {stripe : Stripe} (h : storeStripe ids sender stripe s = .ok s') : sender ∈ ids := by
  by_contra hnot
  have herr : relativeIdxs ids sender = .error .keyError := if_neg hnot
  rw [storeStripe, herr] at h
  cases h

theorem disperse_error {stripes : List Stripe} {e : Exn} (h : disperse ids p sender stripes = .error e) :
    e = .keyError := by
  unfold disperse at h
  cases hi : relativeIdxs ids sender with
  | error e' =>
    rw [hi] at h
    cases h
    exact (relativeIdxs_error hi).1
  | ok i     =>
    cases hj : relativeIdxs ids p with
    | error e' =>
      rw [hi, hj] at h
      cases h
      exact (relativeIdxs_error hj).1
    | ok j     =>
      rw [hi, hj] at h
      cases h

theorem onAddTrigger_alive (hs : s.phase = .loop) : Alive s (onAddTrigger ids p sender s).1 := by
  have hloop : s.phase ≠ .returned := by rw [hs]; nofun
  unfold onAddTrigger
  split
  · exact ⟨hloop, rfl⟩
  · simp only
    split
    · split
      · rename_i e he
        rw [disperse_error he]
        exact alive_stop rfl rfl
      · exact ⟨hloop, rfl⟩
    · exact ⟨hloop, rfl⟩

theorem onAddDisperse_alive (hs : s.phase = .loop) {myStripe senderStripe : Stripe} :
    Alive s (onAddDisperse ids f sender myStripe senderStripe s).1 := by
  have hloop : s.phase ≠ .returned := by rw [hs]; nofun
  unfold onAddDisperse
  split
  · exact ⟨hloop, rfl⟩
  · split
    · exact ⟨hloop, rfl⟩
    · simp only
      split
      · exact alive_stop rfl rfl
      · split
        · rename_i e he
          rw [storeStripe_error he]
          exact alive_stop rfl rfl
        · rename_i s₁ hs₁
          obtain ⟨stripes, rfl⟩ := storeStripe_same hs₁
          split
          · exact ⟨hloop, rfl⟩
          · exact ⟨hloop, rfl⟩

theorem onAddReconstruct_alive (hs : s.phase = .loop) {stripe : Stripe}
    (hright : ¬ GoesWrong H predicate codec ids f leader p s sender (.addReconstruct stripe)) :
    Alive s (onAddReconstruct H codec ids f sender stripe s).1 := by
  have hloop : s.phase ≠ .returned := by rw [hs]; nofun
  unfold onAddReconstruct
  split
  · exact ⟨hloop, rfl⟩
  · rename_i hunc
    split
    · exact ⟨hloop, rfl⟩
    · rename_i hnew
      simp only
      split
      · rename_i e he
        rw [storeStripe_error he]
        exact alive_stop rfl rfl
      · rename_i s₁ hs₁
        have hmem := storeStripe_mem hs₁
        obtain ⟨stripes, rfl⟩ := storeStripe_same hs₁
        split
        · rename_i hk
          have hcodec : isValueError (codec (ids.length - (f + 1 : Nat))) = false := by
            by_contra hv
            exact hright ⟨by simpa using hunc, hnew, hmem, hk, by simpa using hv⟩
          unfold reconstruct decode
          cases hcod : codec (ids.length - (f + 1 : Nat)) with
          | error e =>
            rw [hcod] at hcodec
            exact alive_stop (by cases e <;> first | rfl | exact hcodec) rfl
          | ok u    => exact alive_stop rfl rfl
        · exact ⟨hloop, rfl⟩

/-- A proposal that is not late is answered by `ECHO`s only. -/
theorem onPropose_alive (hs : s.phase = .loop) (hnone : s.leaderHash = none) {m : Text}
    (hright : ¬ GoesWrong H predicate codec ids f leader p s sender (.propose m)) :
    Alive s (onPropose H (predicate p) ids leader sender m s).1 ∧
      ∀ o ∈ (onPropose H (predicate p) ids leader sender m s).2, o.2 ≠ .terminate := by
  have hloop : s.phase ≠ .returned := by rw [hs]; nofun
  unfold onPropose
  simp only
  split
  · exact ⟨⟨hloop, rfl⟩, nofun⟩
  · rename_i hne
    have hlead : sender = leader := not_not.1 hne
    split
    · rename_i e he
      refine ⟨alive_stop ?_ rfl, nofun⟩
      by_contra hv
      apply hright
      refine ⟨hnone, hlead, Or.inl ?_⟩
      rw [he]
      cases e with
      | valueError _ => rfl
      | _            => exact absurd rfl hv
    · exact ⟨⟨hloop, rfl⟩, nofun⟩
    · rename_i hvalid
      refine ⟨⟨hloop, rfl⟩, fun o ho => ?_⟩
      rcases List.mem_append.1 ho with ho | ho
      · rw [mem_broadcast ho]
        nofun
      · split at ho
        · rename_i hc
          exact absurd ⟨hnone, hlead, Or.inr ⟨hvalid, hc.symm⟩⟩ hright
        · cases ho

theorem onEcho_alive (hs : s.phase = .loop) (digest : Bytes) :
    Alive s (onEcho ids f sender digest s).1 ∧ ∀ o ∈ (onEcho ids f sender digest s).2, o.2 ≠ .terminate := by
  have hloop : s.phase ≠ .returned := by rw [hs]; nofun
  unfold onEcho
  split
  · exact ⟨⟨hloop, rfl⟩, nofun⟩
  · obtain ⟨⟨sent, hsent⟩, hready⟩ := sendReady_same (2 * f + 1 ≤ (addEcho sender digest s).echoCounter digest) ids
      digest (addEcho sender digest s)
    refine ⟨?_, fun o ho hmsg => ?_⟩
    · simp only
      rw [hsent]
      exact ⟨hloop, rfl⟩
    · rw [(hready o ho).1] at hmsg
      cases hmsg

theorem onReady_alive (hs : s.phase = .loop) (digest : Bytes) :
    Alive s (onReady ids f sender digest s).1 ∧
      ∀ o ∈ (onReady ids f sender digest s).2, o.2 = .terminate →
        (onReady ids f sender digest s).1.committed = true := by
  have hloop : s.phase ≠ .returned := by simp [hs]
  by_cases hnew : sender ∈ s.readySenders
  · rw [onReady, if_pos hnew]
    exact ⟨⟨hloop, rfl⟩, by simp⟩
  · obtain ⟨⟨sent, hsent⟩, hready⟩ := sendReady_same (f + 1 ≤ (addReady sender digest s).readyCounter digest) ids digest
      (addReady sender digest s)
    have hafter : Alive s (afterReady ids f sender digest s).1 := by
      rw [afterReady, hsent]
      exact ⟨hloop, rfl⟩
    have hsends : ∀ o ∈ (afterReady ids f sender digest s).2, o.2 ≠ .terminate := by
      intro o ho hmsg
      rw [(hready o ho).1] at hmsg
      cases hmsg
    rw [onReady_eq hnew]
    split
    · obtain ⟨hphase, hterm, hcommit⟩ := commit_alive ids digest (afterReady ids f sender digest s).1
      refine ⟨⟨by rw [hphase]; exact hafter.1, hterm.trans hafter.2⟩, fun o ho hmsg => ?_⟩
      rcases List.mem_append.1 ho with ho | ho
      · exact absurd hmsg (hsends o ho)
      · exact hcommit o ho hmsg
    · exact ⟨hafter, fun o ho hmsg => absurd hmsg (hsends o ho)⟩

/-- **But for `TERMINATE` itself no message ends the loop**, and `TERMINATE` is sent after the output. -/
theorem onMsg_alive (hs : s.phase = .loop) {msg : OptMsg}
    (hright : ¬ GoesWrong H predicate codec ids f leader p s sender msg) (hne : msg ≠ .terminate) :
    Alive s (onMsg H predicate codec ids f leader p s sender msg).1 ∧
      ∀ o ∈ (onMsg H predicate codec ids f leader p s sender msg).2, o.2 = .terminate →
        (onMsg H predicate codec ids f leader p s sender msg).1.committed = true := by
  have hcommitted : ∀ {r : OptState ι × List (ι × OptMsg)}, Alive s r.1 → (∀ o ∈ r.2, o.2 ≠ .terminate) →
      Alive s r.1 ∧ ∀ o ∈ r.2, o.2 = .terminate → r.1.committed = true :=
    fun halive hout => ⟨halive, fun o ho hmsg => absurd hmsg (hout o ho)⟩
  cases msg with
  | propose m             =>
    by_cases hnone : s.leaderHash = none
    · have halive := onPropose_alive hs hnone hright
      rw [show onMsg H predicate codec ids f leader p s sender (.propose m) =
        onPropose H (predicate p) ids leader sender m s from if_pos hnone]
      exact hcommitted halive.1 halive.2
    · rw [show onMsg H predicate codec ids f leader p s sender (.propose m) = (s, []) from if_neg hnone]
      exact ⟨⟨by rw [hs]; nofun, rfl⟩, nofun⟩
  | echo digest           => exact hcommitted (onEcho_alive hs digest).1 (onEcho_alive hs digest).2
  | ready digest          => exact onReady_alive hs digest
  | terminate             => exact absurd rfl hne
  | addTrigger            => exact hcommitted (onAddTrigger_alive hs) onAddTrigger_quiet.no_terminate
  | addDisperse my other  => exact hcommitted (onAddDisperse_alive hs) onAddDisperse_quiet.no_terminate
  | addReconstruct stripe => exact hcommitted (onAddReconstruct_alive hs hright) onAddReconstruct_quiet.no_terminate

theorem onMsg_committed (msg : OptMsg) (hc : s.committed = true) :
    (onMsg H predicate codec ids f leader p s sender msg).1.committed = true := by
  have hframe : ∀ {s' : OptState ι}, verdict s' = verdict s → s'.committed = true := by
    intro s' hv
    simp only [verdict, Prod.mk.injEq] at hv
    rw [hv.2.2.2.2.1, hc]
  rcases onMsg_cases H predicate codec ids f leader p s sender msg with
    ⟨m, -, -, heq⟩ | ⟨digest, -, -, heq⟩ | ⟨digest, -, hnew, heq⟩ | ⟨hv, -, -⟩
  · rw [heq]
    unfold onPropose
    simp only
    split
    · exact hc
    · split
      · exact hc
      · exact hc
      · exact hc
  · rw [heq]
    exact hframe (verdict_sendReady _ digest _)
  · have hafter := hframe (verdict_afterReady ids f sender digest s)
    rw [heq, onReady_eq hnew]
    split
    · unfold commit deliver
      simp only
      split
      · rfl
      · split
        · rfl
        · exact hafter
    · exact hafter
  · exact hframe hv

/-- **One pass of the loop keeps the invariant.** -/
theorem onMsg_termOk (h : TermOk H ids p s) (hs : s.phase = .loop) {msg : OptMsg}
    (hright : ¬ GoesWrong H predicate codec ids f leader p s sender msg)
    (hself : msg = .terminate → sender = p → s.committed = true) :
    TermOk H ids p (onMsg H predicate codec ids f leader p s sender msg).1 ∧
      ∀ o ∈ (onMsg H predicate codec ids f leader p s sender msg).2, o.2 = .terminate →
        (onMsg H predicate codec ids f leader p s sender msg).1.committed = true := by
  have hnew : ¬ Recommits f s sender msg := by
    cases msg with
    | ready digest => exact hright
    | propose _ | echo _ | terminate | addTrigger | addDisperse _ _ | addReconstruct _ => exact id
  have hdel : Deliverer H (onMsg H predicate codec ids f leader p s sender msg).1 := onMsg_deliverer h.deliverer hnew
  by_cases hmsg : msg = .terminate
  · subst hmsg
    refine ⟨⟨hdel, fun hmem => ?_, fun hret hp => ?_⟩, nofun⟩
    · apply onMsg_committed
      change p ∈ (onTerminate ids sender s).terminateSenders at hmem
      by_cases hold : p ∈ s.terminateSenders
      · exact h.heard hold
      · apply hself rfl
        by_contra hne
        unfold onTerminate at hmem
        split at hmem
        · exact hold hmem
        · simp only at hmem
          split at hmem <;> exact (Finset.mem_insert.1 hmem).elim (fun heq => hne heq.symm) hold
    · apply onMsg_committed
      change (onTerminate ids sender s).phase = .returned at hret
      unfold onTerminate at hret
      split at hret
      · rw [hs] at hret
        cases hret
      · rename_i hfresh
        simp only at hret
        split at hret
        · rename_i hcard
          -- `ids` has no more parties than have sent `TERMINATE`
          have hsub : insert sender s.terminateSenders ⊆ ids.toFinset := by
            by_contra hsub
            exact hright ⟨hfresh, hcard, hsub⟩
          have heq := Finset.eq_of_subset_of_card_le hsub (hcard ▸ List.toFinset_card_le ids)
          have hmem : p ∈ insert sender s.terminateSenders := heq ▸ List.mem_toFinset.2 hp
          rcases Finset.mem_insert.1 hmem with hpeq | hmem
          · exact hself rfl hpeq.symm
          · exact h.heard hmem
        · rw [show s.phase = .returned from hret] at hs
          cases hs
  · obtain ⟨⟨hphase, hterm⟩, hout⟩ := onMsg_alive hs hright hmsg
    refine ⟨⟨hdel, fun hmem => ?_, fun hret => absurd hret hphase⟩, hout⟩
    rw [hterm] at hmem
    exact onMsg_committed msg (h.heard hmem)

end Party

/-! ## Runs -/

theorem optqrbc_term_preserved (H : Hash) (predicate : ι → Text → Except Exn Bool) (codec : Int → Except Exn Unit)
    (ids : List ι) (f : Nat) (leader : ι) (input : Text) (byz : Finset ι) :
    Net.Preserved (optqrbc H predicate codec ids f leader input) byz (StaysRight H predicate codec ids f leader)
      (fun s s' => s.committed = true → s'.committed = true) (fun loc _ p => TermOk H ids p (loc p))
      (fun loc e => e.msg = .terminate → (loc e.src).committed = true) where
  grow_refl := fun _ hc => hc
  grow_wake := by
    intro p t s s' out h hc
    obtain ⟨-, hs⟩ := optqrbc_wake h
    obtain ⟨rfl, -⟩ := Prod.mk.inj hs
    exact hc
  grow_recv := by
    intro p s q m s' out h hc
    obtain ⟨-, hs⟩ := optqrbc_recv h
    obtain ⟨rfl, -⟩ := Prod.mk.inj hs
    exact onMsg_committed m hc
  local_mono := by
    intro loc loc' hist hist' p _ _ _ hp h
    rw [hp]
    exact h
  msg_mono := fun loc loc' e hg h hmsg => hg e.src (h hmsg)
  init := fun p _ => ⟨deliverer_init H ids, fun hmem => absurd hmem (Finset.notMem_empty p), nofun⟩
  wake := by
    intro c p t s out loc' _ hp hL h hloc _
    obtain ⟨-, hs⟩ := optqrbc_wake h
    obtain ⟨rfl, rfl⟩ := Prod.mk.inj hs
    rw [hloc, Function.update_self]
    refine ⟨⟨(hL p hp).deliverer.frame rfl, (hL p hp).heard, fun hret hmem => ?_⟩, fun o ho hmsg => ?_⟩
    · have hret : (if p ∈ ids then OptPhase.loop else .returned) = .returned := hret
      rw [if_pos hmem] at hret
      cases hret
    · change o ∈ (if p = leader then broadcast ids (.propose input) else []) at ho
      split at ho
      · rw [mem_broadcast ho] at hmsg
        cases hmsg
      · cases ho
  recv := by
    intro c e s out loc' hok hp hL hW h hloc _
    obtain ⟨hloop, hs⟩ := optqrbc_recv h
    have hself : loc' e.dst = s := by rw [hloc, Function.update_self]
    have hmsg := onMsg_termOk (hL e.dst hp) hloop hok (fun hmsg hsrc => hsrc ▸ hW (hsrc ▸ hp) hmsg)
    obtain ⟨rfl, rfl⟩ := Prod.mk.inj hs
    refine ⟨by rw [hself]; exact hmsg.1, fun o ho hterm => ?_⟩
    show (loc' e.dst).committed = true
    rw [hself]
    exact hmsg.2 o ho hterm

/-- One output, which goes with the commitment. -/
def Delivered (H : Hash) (s : OptState ι) : Prop :=
  ∃ m, s.outputs = [some m] ∧ s.committedHash = some (H m.encode) ∧ s.committed = true

/-- Party `p` has broadcast `TERMINATE` or, as one of `ids`, returned. -/
def Terminated (ids : List ι) (c : Net.Conf ι (OptState ι) OptMsg) (p : ι) : Prop :=
  (∃ e, (e ∈ c.net ∨ e ∈ c.hist) ∧ e.src = p ∧ e.msg = .terminate) ∨ (p ∈ ids ∧ (c.loc p).phase = .returned)

end OptQrbc

open OptQrbc

section Termination

variable {ι : Type} [DecidableEq ι] {H : Hash} {predicate : ι → Text → Except Exn Bool} {codec : Int → Except Exn Unit}
  {ids : List ι} {f : Nat} {leader : ι} {input : Text} {byz : Finset ι} {c : Net.Conf ι (OptState ι) OptMsg}

/-- **`TERMINATE` means delivered** while no party goes wrong. -/
theorem optqrbc_terminate
    (hc : Net.Run (optqrbc H predicate codec ids f leader input) byz (StaysRight H predicate codec ids f leader) c)
    {p : ι} (hp : p ∉ byz) (hterm : Terminated ids c p) : Delivered H (c.loc p) := by
  have hall := (optqrbc_term_preserved H predicate codec ids f leader input byz).run hc
  have hcommitted : (c.loc p).committed = true := by
    rcases hterm with ⟨e, he, rfl, hmsg⟩ | ⟨hmem, hret⟩
    · rcases he with he | he
      · exact hall.net e he hp hmsg
      · exact hall.hist e he hp hmsg
    · exact (hall.loc p hp).returned hret hmem
  obtain ⟨m, -, -, hhash, hout⟩ := (hall.loc p hp).deliverer.after hcommitted
  exact ⟨m, hout, hhash, hcommitted⟩

/-- Party 0 has sent `TERMINATE`. -/
theorem optqrbc_terminate_four : ∃ c, Net.Run (plainOpt [0, 1, 2, 3] (0 : Fin 4)) {3}
    (StaysRight sha256 (fun _ _ => .ok true) (fun _ => .ok ()) [0, 1, 2, 3] 1 0) c ∧ Delivered sha256 (c.loc 0) := by
  have hrun : (Net.exec (plainOpt [0, 1, 2, 3] (0 : Fin 4)) {3}
      (fun c l => decide (StaysRight sha256 (fun _ _ => .ok true) (fun _ => .ok ()) [0, 1, 2, 3] 1 0 c l))
      [.wake 0 (), .wake 1 (), .recv 0, .recv 4, .recv 4, .recv 0, .inject ⟨3, 0, .echo (sha256 [])⟩, .recv 0, .recv 0,
        .recv 0, .inject ⟨3, 1, .ready (sha256 [])⟩, .recv 0, .recv 0, .inject ⟨3, 0, .ready (sha256 [])⟩, .recv 0]
      (plainOpt [0, 1, 2, 3] 0).start).any
        (fun c => c.net.any (fun e => decide (e.src = 0 ∧ e.msg = .terminate))) = true := by
    decide +kernel
  obtain ⟨c, hc, hres⟩ := Net.exists_run_of_exec hrun (fun _ _ h => of_decide_eq_true h)
  obtain ⟨e, he, hmsg⟩ := List.any_eq_true.1 hres
  exact ⟨c, hc, optqrbc_terminate hc (by decide) (Or.inl ⟨e, Or.inl he, of_decide_eq_true hmsg⟩)⟩

/-- All parties good: party 3 commits to the hash, and then takes the proposal. -/
theorem optqrbc_terminate_counterexample : ¬ ∀ c, Net.Reachable (plainOpt [0, 1, 2, 3] (0 : Fin 4)) ∅ c →
    ∀ p, Terminated [0, 1, 2, 3] c p → Delivered sha256 (c.loc p) := by
  intro h
  have hrun : (Net.exec (plainOpt [0, 1, 2, 3] (0 : Fin 4)) ∅ (fun _ _ => true)
      [.wake 0 (), .wake 1 (), .wake 2 (), .wake 3 (), .recv 0, .recv 4, .recv 8, .recv 8, .recv 4, .recv 0, .recv 10,
        .recv 7, .recv 4, .recv 12, .recv 10, .recv 8, .recv 11, .recv 7, .recv 7, .recv 20]
      (plainOpt [0, 1, 2, 3] 0).start).any (fun c => decide ((c.loc 3).committed = false) &&
        c.net.any (fun e => decide (e.src = 3 ∧ e.msg = .terminate))) = true := by
    decide +kernel
  obtain ⟨c, hc, hres⟩ := Net.exists_run_of_exec hrun (fun _ _ _ => trivial)
  rw [Bool.and_eq_true, decide_eq_true_eq, List.any_eq_true] at hres
  obtain ⟨hunc, e, he, hmsg⟩ := hres
  obtain ⟨m, -, -, hcommitted⟩ := h c hc 3
    (Or.inl ⟨e, Or.inl he, of_decide_eq_true hmsg⟩)
  rw [hunc] at hcommitted
  cases hcommitted

end Termination

end Dpid
