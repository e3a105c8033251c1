import Dpid.BroadcastRbc
import Dpid.ZfecTwo
import Mathlib
/-!
# BroadcastValid — validity with a good leader, stripes unverified

A good leader sends one root and one codeword.  So every good party echoes that root with its own stripe of that
codeword, is ready for that root only, and decides on that root only (`PartyOk`).  What the party returns is then the
input, but for the stripes of bad parties among those `decode` takes (`PicksGenuine`).
-/
namespace Dpid
namespace Broadcast

open Rbc (decodeOutput decodeOutputHashed decodeOutput_eq_ok sendReady output addEcho addReady mem_broadcast)

variable {H : Hash} {z : Zfec} {N f : Nat} {leader : Fin N} {input : Text} {byz : Finset (Fin N)}

/-- The stripes of the input, if it encodes. -/
def leaderStripes (z : Zfec) (f N : Nat) (input : Text) : List Bytes :=
  match encode z (N - 2 * f) N input with
  | .ok S    => S
  | .error _ => []

section Statements

variable (H : Hash) (z : Zfec) (N f : Nat) (input : Text)

/-- The root the leader sends. -/
def LeaderRoot (r : Bytes) : Prop :=
  encode z (N - 2 * f) N input = .ok (leaderStripes z f N input) ∧ r = rootOf H (leaderStripes z f N input)

/-- The invariant of a party. -/
structure PartyOk (byz : Finset (Fin N)) (s : RbcState N) : Prop where
  leader_root : ∀ r, s.fromLeader = some r → LeaderRoot H z N f input r
  stripe : ∀ r i b, s.stripes r i = some b → i ∉ byz →
    LeaderRoot H z N f input r ∧ b = (leaderStripes z f N input).getD i []
  echo_count : ∀ r, s.echoCounter r = (Finset.univ.filter (fun i => (s.stripes r i).isSome)).card
  ready : ∀ r, ∀ i ∈ s.ready r, i ∉ byz → LeaderRoot H z N f input r
  decided : ∀ r res, s.phase = .decided r res → LeaderRoot H z N f input r ∧
    res = decodeOutput H z f (s.stripes r) r ∧ N - 2 * f ≤ s.echoCounter r

/-- The invariant of a message of a good party. -/
def MsgOk (leader : Fin N) (e : Net.Envelope (Fin N) RbcMsg) : Prop :=
  match e.msg with
  | .val r _ b  => e.src = leader → LeaderRoot H z N f input r ∧ b = (leaderStripes z f N input).getD e.dst []
  | .echo r _ b => LeaderRoot H z N f input r ∧ b = (leaderStripes z f N input).getD e.src []
  | .ready r    => LeaderRoot H z N f input r

end Statements

section Party

variable {s : RbcState N}

theorem init_ok : PartyOk H z N f input byz (Rbc.init (N := N)) where
  leader_root := nofun
  stripe := nofun
  echo_count := fun r => by simp [Rbc.init]
  ready := fun r i hi => absurd hi (Finset.notMem_empty i)
  decided := nofun

theorem PartyOk.set (h : PartyOk H z N f input byz s) {phase : RbcPhase} {hashed : List Bytes}
    (hp : ∀ r res, phase ≠ .decided r res) : PartyOk H z N f input byz { s with phase := phase, hashed := hashed } :=
  ⟨h.leader_root, h.stripe, h.echo_count, h.ready, fun r res hr => absurd hr (hp r res)⟩

/-- **A root that `N - f` parties echoed is the leader's.** -/
theorem PartyOk.root_of_echoes (h : PartyOk H z N f input byz s) (hN : 3 * f + 1 ≤ N) (hbyz : byz.card ≤ f) {r : Bytes}
    (hr : N - f ≤ s.echoCounter r) : LeaderRoot H z N f input r := by
  rw [h.echo_count] at hr
  obtain ⟨i, hi, hgood⟩ := Quorum.exists_good (show byz.card < (Finset.univ.filter (fun i => (s.stripes r i).isSome)).card by omega)
  obtain ⟨b, hb⟩ := Option.isSome_iff_exists.1 (Finset.mem_filter.1 hi).2
  exact (h.stripe r i b hb hgood).1

theorem PartyOk.root_of_readies (h : PartyOk H z N f input byz s) (hbyz : byz.card ≤ f) {r : Bytes}
    (hr : f + 1 ≤ (s.ready r).card) : LeaderRoot H z N f input r := by
  obtain ⟨i, hi, hgood⟩ := Quorum.exists_good (show byz.card < (s.ready r).card by omega)
  exact h.ready r i hi hgood

theorem sendReady_ok {cond : Prop} [Decidable cond] {r : Bytes} (h : PartyOk H z N f input byz s)
    (hq : cond → LeaderRoot H z N f input r) (src : Fin N) :
    PartyOk H z N f input byz (sendReady cond r s).1 ∧
      ∀ o ∈ (sendReady cond r s).2, MsgOk H z N f input leader ⟨src, o.1, o.2⟩ := by
  unfold sendReady
  split
  · rename_i hc
    refine ⟨⟨h.leader_root, h.stripe, h.echo_count, h.ready, h.decided⟩, fun o ho => ?_⟩
    rw [mem_broadcast ho]
    exact hq hc.1
  · exact ⟨h, nofun⟩

theorem output_ok {r : Bytes} (h : PartyOk H z N f input byz s) (hbyz : byz.card ≤ f) :
    PartyOk H z N f input byz (output H z f r s) := by
  unfold output
  split
  · rename_i hc
    refine ⟨h.leader_root, h.stripe, h.echo_count, h.ready, fun r' res hr => ?_⟩
    cases hr
    exact ⟨h.root_of_readies hbyz (by omega), rfl, hc.2⟩
  · exact h

theorem addReady_ok {sender : Fin N} {r : Bytes} (h : PartyOk H z N f input byz s) (hp : s.phase = .loop)
    (hq : sender ∉ byz → LeaderRoot H z N f input r) : PartyOk H z N f input byz (addReady sender r s) := by
  refine ⟨h.leader_root, h.stripe, h.echo_count, fun r' i hi hb => ?_, fun r' res hr => ?_⟩
  · change i ∈ Function.update s.ready r _ r' at hi
    by_cases hr : r' = r
    · subst hr
      rw [Function.update_self] at hi
      rcases Finset.mem_insert.1 hi with rfl | hi
      · exact hq hb
      · exact h.ready r' i hi hb
    · rw [Function.update_of_ne hr] at hi
      exact h.ready r' i hi hb
  · have hr : s.phase = .decided r' res := hr
    rw [hp] at hr
    cases hr

theorem addEcho_ok {sender : Fin N} {r b : Bytes} (h : PartyOk H z N f input byz s) (hp : s.phase = .loop)
    (hnew : s.stripes r sender = none)
    (hq : sender ∉ byz → LeaderRoot H z N f input r ∧ b = (leaderStripes z f N input).getD sender []) :
    PartyOk H z N f input byz (addEcho sender r b s) := by
  refine ⟨h.leader_root, fun r' i b' hb hi => ?_, fun r' => ?_, h.ready, fun r' res hr => ?_⟩
  · rcases Rbc.addEcho_stripes hb with ⟨rfl, rfl, rfl⟩ | hb
    · exact hq hi
    · exact h.stripe r' i b' hb hi
  · exact Rbc.addEcho_count hnew h.echo_count r'
  · have hr : s.phase = .decided r' res := hr
    rw [hp] at hr
    cases hr

theorem leaderStripes_eq {S : List Bytes} (h : encode z (N - 2 * f) N input = .ok S) : leaderStripes z f N input = S := by
  rw [leaderStripes, h]

/-- **The code before the loop keeps the invariant.** -/
theorem start_ok {pid : Fin N} (h : PartyOk H z N f input byz s) :
    PartyOk H z N f input byz (Rbc.start H z f leader input pid s).1 ∧
      ∀ o ∈ (Rbc.start H z f leader input pid s).2, MsgOk H z N f input leader ⟨pid, o.1, o.2⟩ := by
  have hset : ∀ {phase : RbcPhase}, (∀ r res, phase ≠ .decided r res) →
      PartyOk H z N f input byz { s with phase := phase } := fun hp => h.set hp
  unfold Rbc.start
  split
  · exact ⟨hset (by simp), by simp⟩
  · split
    · cases hS : encode z (N - 2 * f) N input with
      | error e => exact ⟨hset (by simp), by simp⟩
      | ok S    =>
        simp only
        cases hmt : merkleTree H S with
        | error e => exact ⟨hset (by simp), by simp⟩
        | ok mt   =>
          refine ⟨h.set (by simp), fun o ho => ?_⟩
          obtain ⟨i, -, rfl⟩ := List.mem_map.1 ho
          intro _
          have hroot : mt.getD 1 [] = rootOf H S := by
            rw [merkleTree] at hmt
            split at hmt
            · cases hmt
              rfl
            · cases hmt
          rw [LeaderRoot, leaderStripes_eq hS]
          exact ⟨⟨hS, hroot⟩, rfl⟩
    · exact ⟨hset (by simp), by simp⟩

theorem onVal_ok {pid sender : Fin N} {r : Bytes} {branch : List Bytes} {b : Bytes} (h : PartyOk H z N f input byz s)
    (hp : s.phase = .loop) (hm : sender = leader → LeaderRoot H z N f input r ∧ b = (leaderStripes z f N input).getD pid []) :
    PartyOk H z N f input byz (Rbc.onVal H leader pid sender r branch b s).1 ∧
      ∀ o ∈ (Rbc.onVal H leader pid sender r branch b s).2, MsgOk H z N f input leader ⟨pid, o.1, o.2⟩ := by
  unfold Rbc.onVal
  split
  · exact ⟨h, nofun⟩
  · split
    · exact ⟨h, nofun⟩
    · rename_i hl
      have hval := hm (not_not.1 hl)
      have hset : PartyOk H z N f input byz { s with hashed := merkleVerifyHashed H N b branch pid ++ s.hashed } :=
        h.set (by rw [hp]; nofun)
      simp only
      split
      · refine ⟨⟨fun r' hr => ?_, hset.stripe, hset.echo_count, hset.ready, hset.decided⟩, fun o ho => ?_⟩
        · cases hr
          exact hval.1
        · rw [mem_broadcast ho]
          exact hval
      · exact ⟨hset, nofun⟩

theorem counted_ok {e : Net.Envelope (Fin N) RbcMsg} (h : PartyOk H z N f input byz s) (hp : s.phase = .loop)
    (hm : e.src ∉ byz → MsgOk H z N f input leader e) {r : Bytes} {s₁ : RbcState N}
    (hc : counted s e.src e.msg = some (r, s₁)) : PartyOk H z N f input byz s₁ := by
  obtain ⟨src, dst, msg⟩ := e
  cases msg with
  | val r' branch b  => cases hc
  | echo r' branch b =>
    simp only [counted] at hc
    split at hc
    · cases hc
    · rename_i hnew
      cases hc
      rw [not_or, Bool.not_eq_true, Option.isSome_eq_false_iff, Option.isNone_iff_eq_none] at hnew
      exact addEcho_ok h hp hnew.1 hm
  | ready r'         =>
    simp only [counted] at hc
    split at hc
    · cases hc
    · cases hc
      exact addReady_ok h hp hm

/-- **One pass of the loop keeps the invariant.** -/
theorem onMsg_ok {e : Net.Envelope (Fin N) RbcMsg} (h : PartyOk H z N f input byz s) (hp : s.phase = .loop)
    (hN : 3 * f + 1 ≤ N) (hbyz : byz.card ≤ f) (hleader : leader ∉ byz)
    (hm : e.src ∉ byz → MsgOk H z N f input leader e) :
    PartyOk H z N f input byz (onMsg H z f leader e.dst s e.src e.msg).1 ∧
      ∀ o ∈ (onMsg H z f leader e.dst s e.src e.msg).2, MsgOk H z N f input leader ⟨e.dst, o.1, o.2⟩ := by
  by_cases hval : ∃ r branch b, e.msg = .val r branch b
  · obtain ⟨r, branch, b, hmsg⟩ := hval
    rw [hmsg]
    apply onVal_ok h hp
    intro hsrc
    have hmsgOk := hm (hsrc ▸ hleader)
    rw [MsgOk, hmsg] at hmsgOk
    exact hmsgOk hsrc
  · rcases @onMsg_cases N H z f leader s e.dst e.src e.msg
      (fun r branch b hmsg => hval ⟨r, branch, b, hmsg⟩) with heq | ⟨r, s₁, hc, ⟨-, heq⟩ | ⟨-, heq⟩⟩
    · rw [heq]
      exact ⟨h, nofun⟩
    · have hok := counted_ok h hp hm hc
      have hsend := @sendReady_ok H z N f leader input byz s₁ _ _ r hok (hok.root_of_readies hbyz) e.dst
      rw [heq]
      exact ⟨output_ok hsend.1 hbyz, hsend.2⟩
    · have hok := counted_ok h hp hm hc
      have hsend := @sendReady_ok H z N f leader input byz s₁ _ _ r hok (hok.root_of_echoes hN hbyz) e.dst
      rw [heq]
      exact ⟨output_ok hsend.1 hbyz, hsend.2⟩

theorem start_undecided {pid : Fin N} (r : Bytes) (res : Except Exn Bytes) :
    (Rbc.start H z f leader input pid s).1.phase ≠ .decided r res := by
  unfold Rbc.start
  split
  · nofun
  · split
    · split
      · nofun
      · split
        · nofun
        · nofun
    · nofun

theorem output_decided {cond : Prop} [Decidable cond] {r r' : Bytes} {res : Except Exn Bytes} (hp : s.phase = .loop)
    (hd : (output H z f r' (sendReady cond r' s).1).phase = .decided r res) :
    r' = r ∧ 2 * f + 1 ≤ (s.ready r').card ∧ N - 2 * f ≤ s.echoCounter r' ∧
      (output H z f r' (sendReady cond r' s).1).stripes = s.stripes := by
  obtain ⟨sent, hsent⟩ := sendReady_same cond r' s
  rw [hsent] at hd ⊢
  unfold output at hd ⊢
  split at hd
  · rename_i hk
    cases hd
    rw [if_pos hk]
    exact ⟨rfl, hk.1, hk.2, rfl⟩
  · have hd : s.phase = .decided r res := hd
    rw [hp] at hd
    cases hd

theorem counted_phase {sender : Fin N} {msg : RbcMsg} {r : Bytes} {s₁ : RbcState N}
    (h : counted s sender msg = some (r, s₁)) : s₁.phase = s.phase := by
  cases msg with
  | val r' branch b  => cases h
  | echo r' branch b =>
    simp only [counted] at h
    split at h
    · cases h
    · cases h
      rfl
  | ready r'         =>
    simp only [counted] at h
    split at h
    · cases h
    · cases h
      rfl

theorem onVal_phase (pid sender : Fin N) (r : Bytes) (branch : List Bytes) (b : Bytes) :
    (Rbc.onVal H leader pid sender r branch b s).1.phase = s.phase := by
  unfold Rbc.onVal
  split
  · rfl
  · split
    · rfl
    · simp only
      split
      · rfl
      · rfl

/-- **A message that decides was counted**, and the thresholds were met. -/
theorem onMsg_decided {pid sender : Fin N} {msg : RbcMsg} (hp : s.phase = .loop) {r : Bytes} {res : Except Exn Bytes}
    (hd : (onMsg H z f leader pid s sender msg).1.phase = .decided r res) : ∃ s₁, counted s sender msg = some (r, s₁) ∧
      2 * f + 1 ≤ (s₁.ready r).card ∧ N - 2 * f ≤ s₁.echoCounter r ∧
      (onMsg H z f leader pid s sender msg).1.stripes = s₁.stripes := by
  by_cases hval : ∃ r branch b, msg = .val r branch b
  · obtain ⟨r', branch, b, rfl⟩ := hval
    have hphase := @onVal_phase H N leader s pid sender r' branch b
    rw [hp] at hphase
    cases hphase.symm.trans hd
  · rcases @onMsg_cases N H z f leader s pid sender msg
      (fun r branch b hmsg => hval ⟨r, branch, b, hmsg⟩) with heq | ⟨r', s₁, hc, ⟨-, heq⟩ | ⟨-, heq⟩⟩
    · rw [heq, hp] at hd
      cases hd
    · rw [heq] at hd ⊢
      obtain ⟨rfl, hready, hecho, hstripes⟩ := output_decided ((counted_phase hc).trans hp) hd
      exact ⟨s₁, hc, hready, hecho, hstripes⟩
    · rw [heq] at hd ⊢
      obtain ⟨rfl, hready, hecho, hstripes⟩ := output_decided ((counted_phase hc).trans hp) hd
      exact ⟨s₁, hc, hready, hecho, hstripes⟩

end Party

/-! ## Runs -/

theorem reliablebroadcast_preserved (H : Hash) (z : Zfec) (hN : 3 * f + 1 ≤ N) (input : Text) (hbyz : byz.card ≤ f)
    (hleader : leader ∉ byz) :
    Net.Preserved (reliablebroadcast H z f leader input) byz (PicksOk f (leaderStripes z f N input)) (fun _ _ => True)
      (fun loc _ p => PartyOk H z N f input byz (loc p) ∧ ∀ r res, (loc p).phase = .decided r res →
        PicksGenuine (N - 2 * f) (leaderStripes z f N input) (List.ofFn ((loc p).stripes r)))
      (fun _ e => MsgOk H z N f input leader e) where
  grow_refl := fun _ => trivial
  grow_wake := fun _ _ _ _ _ _ => trivial
  grow_recv := fun _ _ _ _ _ _ _ => trivial
  local_mono := fun _ _ _ _ p _ _ _ hp h => by rw [hp]; exact h
  msg_mono := fun _ _ _ _ h => h
  init := fun p _ => ⟨init_ok, nofun⟩
  wake := by
    intro c p t s out loc' _ hp hL h hloc _
    obtain ⟨-, hs⟩ := reliablebroadcast_wake h
    have hstart := @start_ok H z N f leader input byz (c.loc p) p (hL p hp).1
    have hnone := @start_undecided H z N f leader input (c.loc p) p
    rw [← hs] at hstart hnone
    rw [hloc, Function.update_self]
    exact ⟨⟨hstart.1, fun r res hd => absurd hd (hnone r res)⟩, hstart.2⟩
  recv := by
    intro c e s out loc' hok hp hL hW h hloc _
    obtain ⟨hloop, hs⟩ := reliablebroadcast_recv h
    have hmsg := @onMsg_ok H z N f leader input byz (c.loc e.dst) e (hL e.dst hp).1 hloop hN hbyz hleader hW
    have hs₁ : s = (onMsg H z f leader e.dst (c.loc e.dst) e.src e.msg).1 := congrArg Prod.fst hs
    rw [← hs] at hmsg
    rw [hloc, Function.update_self]
    refine ⟨⟨hmsg.1, fun r res hd => ?_⟩, hmsg.2⟩
    rw [hs₁] at hd
    obtain ⟨s₂, hc, hready, hecho, hstripes⟩ := onMsg_decided hloop hd
    rw [hs₁, hstripes]
    exact hok (r, s₂) hc hready hecho

/-- **Genuine picks decode to the input.** -/
theorem PartyOk.result {s : RbcState N} (h : PartyOk H z N f input byz s) (hz : z.IsMds (N - 2 * f) N)
    (hrt : RoundTrip z (N - 2 * f) N input) {r : Bytes} {res : Except Exn Bytes} (hd : s.phase = .decided r res)
    (hpicks : PicksGenuine (N - 2 * f) (leaderStripes z f N input) (List.ofFn (s.stripes r))) : res = .ok input.encode := by
  obtain ⟨⟨hS, hroot⟩, rfl, hcnt⟩ := h.decided r res hd
  obtain ⟨⟨h1, h2, h3⟩, hz'⟩ := (encode_eq_ok _ _ _ _ _).1 hS
  rw [h.echo_count, ← countP_ofFn_isSome, ← present_length _ 0] at hcnt
  have hdec : decode z (N - 2 * f) N (List.ofFn (s.stripes r)) = .ok input.encode :=
    (decode_of_word hz h1 h2 h3 (blocks_length _ _) (length_of_mem_blocks _ _) hz' List.length_ofFn hcnt hpicks).trans
      (unpad_of_roundTrip hz hrt hS)
  have hlen := encode_length hz hS
  exact decodeOutput_eq_ok.2 ⟨hdec, _, hS, by omega, hroot.symm⟩

end Broadcast

open Broadcast (PicksOk leaderStripes leaderStripes_eq)
open Refresh0 (stripesOfTwo encode_two injOn_of_nodup)

section Validity

variable {H : Hash} {z : Zfec} {N f : Nat} {leader : Fin N} {input : Text} {byz : Finset (Fin N)}
  {c : Net.Conf (Fin N) (RbcState N) RbcMsg}

/-- **With a good leader no good party raises, and what it returns is the input**, while no party decodes from a bad
stripe. -/
theorem broadcast_validity (hN : 3 * f + 1 ≤ N) (hz : z.IsMds (N - 2 * f) N) (hrt : RoundTrip z (N - 2 * f) N input)
    (hbyz : byz.card ≤ f) (hleader : leader ∉ byz)
    (hc : Net.Run (Broadcast.reliablebroadcast H z f leader input) byz (PicksOk f (leaderStripes z f N input)) c)
    {p : Fin N} (hp : p ∉ byz) {r : Bytes} {res : Except Exn Bytes} (hd : (c.loc p).phase = .decided r res) :
    res = .ok input.encode := by
  obtain ⟨hok, hpicks⟩ := ((Broadcast.reliablebroadcast_preserved H z hN input hbyz hleader).run hc).loc p hp
  exact hok.result hz hrt hd (hpicks r res hd)

/-- Four parties, the input `b"\x02"`. -/
def fourBroadcast (leader : Fin 4) : Net.Proto (Fin 4) Unit (RbcState 4) RbcMsg :=
  Broadcast.reliablebroadcast sha256 zfecTwo 1 leader (.bytes [2])

/-- Party `p₂` hears `ECHO`s from `p₀`, itself and `bad` and party `p₀` `READY`s from `p₂` and `bad`.  Party `p₁`, which has
the `ECHO` of `p₀` and the `READY`s of both, gets the stripe `b` from `bad`, and its `READY`. -/
def lateStripe (p₀ p₁ p₂ bad : Fin 4) (b : Bytes) : List (Net.Act (Fin 4) Unit RbcMsg) :=
  [.wake p₀ (), .wake p₁ (), .wake p₂ (), .recv 0, .recv 5, .recv 6, .recv 2,
    .inject ⟨bad, p₂, .echo (rootOf sha256 stripesOfTwo) [] [14]⟩, .recv 0,
    .inject ⟨bad, p₀, .ready (rootOf sha256 stripesOfTwo)⟩, .recv 0, .recv 0, .recv 11, .recv 4, .recv 1,
    .inject ⟨bad, p₁, .echo (rootOf sha256 stripesOfTwo) [] b⟩, .recv 0,
    .inject ⟨bad, p₁, .ready (rootOf sha256 stripesOfTwo)⟩, .recv 0]

/-- With its own stripe party 3 does no harm. -/
theorem broadcast_validity_four : ∃ c, Net.Run (fourBroadcast 0) {3} (PicksOk 1 stripesOfTwo) c ∧
    ∃ r res, (c.loc 1).phase = .decided r res ∧ res = .ok [2] := by
  have hrun : (Net.exec (fourBroadcast 0) {3} (fun c l => decide (PicksOk 1 stripesOfTwo c l)) (lateStripe 0 1 2 3 [14])
      (fourBroadcast 0).start).any (fun c =>
        decide ((c.loc 1).phase = .decided (rootOf sha256 stripesOfTwo) (.ok [2]))) = true := by
    decide +kernel
  obtain ⟨c, hc, hphase⟩ := Net.exists_run_of_exec hrun (fun _ _ h => of_decide_eq_true h)
  have hS : leaderStripes zfecTwo 1 4 (.bytes [2]) = stripesOfTwo := leaderStripes_eq (f := 1) encode_two
  refine ⟨c, hc, _, _, of_decide_eq_true hphase, ?_⟩
  exact @broadcast_validity sha256 zfecTwo 4 1 0 (.bytes [2]) {3} c (by decide) zfecTwo_isMds (roundTrip_of_le zfecTwo_isMds (by decide) _)
    (by decide) (by decide) (hS ▸ hc) 1 (by decide) _ _ (of_decide_eq_true hphase)

/-- With another one it makes party 1 raise. -/
theorem broadcast_validity_counterexample : ¬ ∀ c, Net.Reachable (fourBroadcast 0) {3} c →
    Set.InjOn sha256 (hashedInRun {3} (fun p => (c.loc p).hashed)) → ∀ p ∉ ({3} : Finset (Fin 4)), ∀ r res,
      (c.loc p).phase = .decided r res → res = .ok [2] := by
  intro h
  have hrun : (Net.exec (fourBroadcast 0) {3} (fun _ _ => true) (lateStripe 0 1 2 3 [99]) (fourBroadcast 0).start).any (fun c =>
      decide ((c.loc 1).phase = .decided (rootOf sha256 stripesOfTwo) (.error .assertionError)) &&
        [0, 1, 2].all (fun p => (c.loc p).hashed.all (fun x => decide (x ∈ merkleTreeHashed sha256 stripesOfTwo ++
          merkleTreeHashed sha256 [[2, 93], [0, 0], [6, 231], [10, 52]])))) = true := by
    decide +kernel
  obtain ⟨c, hc, hres⟩ := Net.exists_run_of_exec hrun (fun _ _ _ => trivial)
  rw [Bool.and_eq_true, decide_eq_true_eq, List.all_eq_true] at hres
  obtain ⟨hphase, hhashed⟩ := hres
  have hnodup : ((merkleTreeHashed sha256 stripesOfTwo ++
      merkleTreeHashed sha256 [[2, 93], [0, 0], [6, 231], [10, 52]]).map sha256).Nodup := by
    decide +kernel
  have hgood : ∀ p : Fin 4, p ∉ ({3} : Finset (Fin 4)) → p ∈ [0, 1, 2] := by decide
  have hinj : Set.InjOn sha256 (hashedInRun {3} (fun p => (c.loc p).hashed)) := by
    apply injOn_of_nodup hnodup
    rintro x ⟨p, hp, hx⟩
    exact of_decide_eq_true (List.all_eq_true.1 (hhashed p (hgood p hp)) x hx)
  cases h c hc hinj 1 (by decide) _ _ hphase

end Validity

end Dpid
