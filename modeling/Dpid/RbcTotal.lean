import Dpid.NetCrash
import Dpid.RbcInv
import Mathlib
/-!
# RbcTotal — `reliablebroadcast` when parties only stop

Every message is then genuine: `VAL` and `ECHO` carry stripes of the leader's codeword with their branches, `READY` its
root.  No party raises, and a party that decides returns the leader's input (`reliablebroadcast_decided`).  When the
leader runs and at most `f` parties stop, every running party has decided once nothing moves
(`reliablebroadcast_total`): some `N - f` parties echoed, of which `N - 2 f` reached all; and either one party decided,
so that `f + 1` running parties sent `READY` to all, or all of them took the leader's `VAL`.
-/
namespace Dpid
namespace Rbc

variable {H : Hash} {z : Zfec} {N f : Nat} {leader : Fin N} {input : Text} {S : List Bytes}

section Statements

variable (H : Hash) (f : Nat) (leader : Fin N) (S : List Bytes) (loc : Fin N → RbcState N)

/-- The `ECHO` of party `i` for the stripes `S`. -/
def echoMsg (i : Fin N) : RbcMsg := .echo (rootOf H S) (getMerkleBranch i (treeOf H S)) (S.getD i [])

/-- A message as the parties of a crash run send it. -/
def Genuine (e : Net.Envelope (Fin N) RbcMsg) : Prop :=
  (e.src = leader ∧ e.msg = valMsg (treeOf H S) S e.dst) ∨ e.msg = echoMsg H S e.src ∨
    (e.msg = .ready (rootOf H S) ∧ (loc e.src).readySent = true)

/-- What a party keeps of a message it has taken. -/
def Taken (s : RbcState N) (e : Net.Envelope (Fin N) RbcMsg) : Prop :=
  match e.msg with
  | .val _ _ _  => s.fromLeader = some (rootOf H S)
  | .echo _ _ _ => (s.stripes (rootOf H S) e.src).isSome
  | .ready _    => e.src ∈ s.ready (rootOf H S)

/-- What a party stores is genuine. -/
structure Stored (hist : List (Net.Envelope (Fin N) RbcMsg)) (p : Fin N) (s : RbcState N) : Prop where
  not_raised : ∀ e, s.phase ≠ .raised e
  fromLeader : ∀ r, s.fromLeader = some r → r = rootOf H S
  stripe : ∀ i b, s.stripes (rootOf H S) i = some b → b = S.getD i []
  echoSenders : ∀ i ∈ s.echoSenders, (s.stripes (rootOf H S) i).isSome
  ready : ∀ r, ∀ i ∈ s.ready r, r = rootOf H S ∧ (loc i).readySent = true
  readySenders : ∀ i ∈ s.readySenders, i ∈ s.ready (rootOf H S)
  taken : ∀ e ∈ hist, e.dst = p → Taken H S s e

/-- The invariant of a party: it has sent `READY` and has decided where the counters say so. -/
structure CrashOk (hist : List (Net.Envelope (Fin N) RbcMsg)) (p : Fin N) (s : RbcState N) : Prop
    extends Stored H S loc hist p s where
  ready_of_echo : N - f ≤ s.echoCounter (rootOf H S) → s.readySent = true
  ready_of_ready : f + 1 ≤ (s.ready (rootOf H S)).card → s.readySent = true
  output : (∀ r res, s.phase ≠ .decided r res) →
    ¬ (2 * f + 1 ≤ (s.ready (rootOf H S)).card ∧ N - 2 * f ≤ s.echoCounter (rootOf H S))

/-- What `p` in state `s` has sent. -/
def Sent (p : Fin N) (s : RbcState N) (q : Fin N) (m : RbcMsg) : Prop :=
  (p = leader ∧ s.phase ≠ .input ∧ m = valMsg (treeOf H S) S q) ∨
    (s.fromLeader = some (rootOf H S) ∧ m = echoMsg H S p) ∨ (s.readySent = true ∧ m = .ready (rootOf H S))

end Statements

section Mono

variable {loc loc' : Fin N → RbcState N} (hg : ∀ q, (loc q).readySent = true → (loc' q).readySent = true)
include hg

theorem Genuine.mono {e : Net.Envelope (Fin N) RbcMsg} (h : Genuine H leader S loc e) : Genuine H leader S loc' e :=
  h.imp_right (Or.imp_right (fun ⟨hm, hr⟩ => ⟨hm, hg _ hr⟩))

theorem CrashOk.mono {hist : List (Net.Envelope (Fin N) RbcMsg)} {p : Fin N} {s : RbcState N}
    (h : CrashOk H f S loc hist p s) : CrashOk H f S loc' hist p s :=
  { h with ready := fun r i hi => ⟨(h.ready r i hi).1, hg i (h.ready r i hi).2⟩ }

end Mono

/-! ## The pieces of the loop -/

theorem sendReady_fst (cond : Prop) [Decidable cond] (r : Bytes) (s : RbcState N) :
    (sendReady cond r s).1 = { s with readySent := decide cond || s.readySent } := by
  unfold sendReady
  split
  · rename_i hc
    rw [decide_eq_true hc.1, Bool.true_or]
  · rename_i hc
    have hkeep : (decide cond || s.readySent) = s.readySent := by
      cases hs : s.readySent with
      | true  => exact Bool.or_true _
      | false => rw [Bool.or_false, decide_eq_false (fun h => hc ⟨h, hs⟩)]
    rw [hkeep]

/-- A `READY` goes out to all when the flag goes up, and only then. -/
theorem sendReady_snd (cond : Prop) [Decidable cond] (r : Bytes) (s : RbcState N) :
    ((sendReady cond r s).1.readySent = true → s.readySent = true ∨ ∀ q, (q, .ready r) ∈ (sendReady cond r s).2) ∧
      ∀ o ∈ (sendReady cond r s).2, o.2 = .ready r ∧ (sendReady cond r s).1.readySent = true := by
  unfold sendReady
  split
  · exact ⟨fun _ => Or.inr (fun q => List.mem_map.2 ⟨q, List.mem_finRange q, rfl⟩), fun o ho => ⟨mem_broadcast ho, rfl⟩⟩
  · exact ⟨Or.inl, fun o ho => absurd ho List.not_mem_nil⟩

theorem output_eq (H : Hash) (z : Zfec) (f : Nat) (r : Bytes) (s : RbcState N) : ∃ phase hashed,
    output H z f r s = { s with phase := phase, hashed := hashed } ∧
    ((phase = s.phase ∧ ¬ (2 * f + 1 ≤ (s.ready r).card ∧ N - 2 * f ≤ s.echoCounter r)) ∨
      ∃ res, phase = .decided r res) := by
  unfold output
  split
  · exact ⟨_, _, rfl, Or.inr ⟨_, rfl⟩⟩
  · rename_i hc
    exact ⟨s.phase, s.hashed, rfl, Or.inl ⟨rfl, hc⟩⟩

section Party

variable {loc : Fin N → RbcState N} {hist : List (Net.Envelope (Fin N) RbcMsg)} {p : Fin N} {s : RbcState N}

/-- **The end of a pass**: `READY` where a counter says so, and the output. -/
theorem Stored.finish (h : Stored H S loc hist p s) {cond : Prop} [Decidable cond]
    (he : N - f ≤ s.echoCounter (rootOf H S) → cond ∨ s.readySent = true)
    (hr : f + 1 ≤ (s.ready (rootOf H S)).card → cond ∨ s.readySent = true) :
    CrashOk H f S loc hist p (output H z f (rootOf H S) (sendReady cond (rootOf H S) s).1) := by
  have hflag : cond ∨ s.readySent = true → (decide cond || s.readySent) = true := by
    rintro (hc | hs)
    · simp [hc]
    · simp [hs]
  rw [sendReady_fst]
  obtain ⟨phase, hashed, heq, hout⟩ := output_eq H z f (rootOf H S) { s with readySent := decide cond || s.readySent }
  rw [heq]
  refine ⟨⟨?_, h.fromLeader, h.stripe, h.echoSenders, h.ready, h.readySenders, h.taken⟩, fun hc => hflag (he hc),
    fun hc => hflag (hr hc), ?_⟩
  · rcases hout with ⟨hp, -⟩ | ⟨res, hp⟩
    · exact fun e hc => h.not_raised e (hp.symm.trans hc)
    · exact fun e hc => by cases hp.symm.trans hc
  · rcases hout with ⟨-, hno⟩ | ⟨res, hp⟩
    · exact fun _ => hno
    · exact fun hc => absurd hp (hc _ _)

/-! ## The steps -/

theorem merkleVerify_genuineOf (hlen : S.length = N) (i : Fin N) :
    merkleVerify H N (S.getD i []) (rootOf H S) (getMerkleBranch i (treeOf H S)) i = .ok true := by
  subst hlen
  exact merkleVerify_treeOf H S i i.isLt

theorem start_crash (hN : 3 * f + 1 ≤ N) (hS : encode z (N - 2 * f) N input = .ok S) (hlen : S.length = N) (H : Hash)
    (leader p : Fin N) (s : RbcState N) :
    ∃ hashed, start H z f leader input p s = ({ s with phase := .loop, hashed := hashed },
      if p = leader then (List.finRange N).map (fun i => (i, valMsg (treeOf H S) S i)) else []) := by
  rw [start, if_neg (by omega)]
  by_cases hp : p = leader
  · rw [if_pos hp, hS]
    simp only [merkleTree, if_pos (show 1 ≤ S.length by omega), if_pos hp]
    exact ⟨_, rfl⟩
  · rw [if_neg hp, if_neg hp]
    exact ⟨s.hashed, rfl⟩

theorem taken_cons {s' : RbcState N} {e : Net.Envelope (Fin N) RbcMsg} (h : ∀ x ∈ hist, x.dst = p → Taken H S s x)
    (hmono : ∀ x, Taken H S s x → Taken H S s' x) (he : Taken H S s' e) :
    ∀ x ∈ e :: hist, x.dst = p → Taken H S s' x := by
  intro x hx hdst
  rcases List.mem_cons.1 hx with rfl | hx
  · exact he
  · exact hmono x (h x hx hdst)

/-- What one genuine message does: `ECHO` and `READY` go out to all when they first may, and nothing else goes out. -/
structure StepOk (H : Hash) (f : Nat) (S : List Bytes) (loc : Fin N → RbcState N)
    (hist : List (Net.Envelope (Fin N) RbcMsg)) (e : Net.Envelope (Fin N) RbcMsg) (s : RbcState N)
    (r : RbcState N × List (Fin N × RbcMsg)) : Prop where
  crash : CrashOk H f S loc (e :: hist) e.dst r.1
  not_input : r.1.phase ≠ .input
  echo : r.1.fromLeader = some (rootOf H S) → s.fromLeader = some (rootOf H S) ∨ ∀ q, (q, echoMsg H S e.dst) ∈ r.2
  ready : r.1.readySent = true → s.readySent = true ∨ ∀ q, (q, .ready (rootOf H S)) ∈ r.2
  sends : ∀ o ∈ r.2, o.2 = echoMsg H S e.dst ∨ (o.2 = .ready (rootOf H S) ∧ r.1.readySent = true)

theorem StepOk.redundant {e : Net.Envelope (Fin N) RbcMsg} (h : CrashOk H f S loc hist e.dst s) (hp : s.phase = .loop)
    (ht : Taken H S s e) : StepOk H f S loc hist e s (s, []) where
  crash     := { h with taken := taken_cons h.taken (fun _ => id) ht }
  not_input := by rw [hp]; nofun
  echo      := Or.inl
  ready     := Or.inl
  sends     := fun o ho => absurd ho List.not_mem_nil

theorem StepOk.finish {e : Net.Envelope (Fin N) RbcMsg} {t : RbcState N} (ht : Stored H S loc (e :: hist) e.dst t)
    (hp : t.phase = .loop) (hfl : t.fromLeader = s.fromLeader) (hrs : t.readySent = s.readySent) {cond : Prop}
    [Decidable cond] (he : N - f ≤ t.echoCounter (rootOf H S) → cond ∨ t.readySent = true)
    (hr : f + 1 ≤ (t.ready (rootOf H S)).card → cond ∨ t.readySent = true) :
    StepOk H f S loc hist e s
      (output H z f (rootOf H S) (sendReady cond (rootOf H S) t).1, (sendReady cond (rootOf H S) t).2) := by
  have hcrash := ht.finish (z := z) he hr
  have hsend := sendReady_snd cond (rootOf H S) t
  have hkeep : (sendReady cond (rootOf H S) t).1.phase = .loop ∧
      (sendReady cond (rootOf H S) t).1.fromLeader = s.fromLeader := by
    rw [sendReady_fst]
    exact ⟨hp, hfl⟩
  obtain ⟨phase, hashed, heq, hout⟩ := output_eq H z f (rootOf H S) (sendReady cond (rootOf H S) t).1
  refine ⟨hcrash, ?_, fun h => Or.inl ?_, fun h => ?_, fun o ho => Or.inr ?_⟩
  · rw [heq]
    rcases hout with ⟨hph, -⟩ | ⟨res, hph⟩
    · rw [hph, hkeep.1]; nofun
    · rw [hph]; nofun
  · rw [heq] at h
    exact hkeep.2 ▸ h
  · rw [heq] at h
    exact hrs ▸ hsend.1 h
  · rw [heq]
    exact hsend.2 o ho

theorem onVal_crash (hlen : S.length = N) {e : Net.Envelope (Fin N) RbcMsg} (h : CrashOk H f S loc hist e.dst s)
    (hp : s.phase = .loop) (hl : e.src = leader) (hm : e.msg = valMsg (treeOf H S) S e.dst) :
    StepOk H f S loc hist e s (onMsg H z f leader e.dst s e.src e.msg) := by
  obtain ⟨src, dst, msg⟩ := e
  simp only at hl hm h ⊢
  subst hl hm
  rw [valMsg, onMsg, onVal]
  cases hfl : s.fromLeader with
  | some r =>
    obtain rfl := h.fromLeader r hfl
    exact StepOk.redundant h hp hfl
  | none =>
    have hver : merkleVerify H N (S.getD dst []) ((treeOf H S).getD 1 []) (getMerkleBranch dst (treeOf H S)) dst =
        .ok true := merkleVerify_genuineOf hlen dst
    simp only [hver, not_true_eq_false, if_false, ne_eq]
    refine ⟨⟨⟨h.not_raised, fun r hr => (Option.some.inj hr).symm, h.stripe, h.echoSenders, h.ready, h.readySenders,
      taken_cons h.taken (fun x hx => ?_) rfl⟩, h.ready_of_echo, h.ready_of_ready, h.output⟩, ?_, fun _ => Or.inr ?_,
      Or.inl, fun o ho => Or.inl (mem_broadcast ho)⟩
    · unfold Taken at hx ⊢
      split at hx
      · rfl
      · exact hx
      · exact hx
    · exact fun hc => by cases hp.symm.trans hc
    · exact fun q => List.mem_map.2 ⟨q, List.mem_finRange q, rfl⟩

theorem addEcho_stored {e : Net.Envelope (Fin N) RbcMsg} (h : Stored H S loc hist p s) (hm : e.msg = echoMsg H S e.src)
    (hashed : List Bytes) : Stored H S loc (e :: hist) p
      (addEcho e.src (rootOf H S) (S.getD e.src []) { s with hashed := hashed }) := by
  have hroot : (addEcho e.src (rootOf H S) (S.getD e.src []) { s with hashed := hashed }).stripes (rootOf H S) =
      Function.update (s.stripes (rootOf H S)) e.src (some (S.getD e.src [])) := Function.update_self _ _ _
  have hkeep : ∀ i, (s.stripes (rootOf H S) i).isSome →
      (Function.update (s.stripes (rootOf H S)) e.src (some (S.getD e.src [])) i).isSome := by
    intro i hi
    by_cases hs : i = e.src
    · rw [hs, Function.update_self]; rfl
    · rw [Function.update_of_ne hs]; exact hi
  refine ⟨h.not_raised, h.fromLeader, fun i b hb => ?_, fun i hi => ?_, h.ready, h.readySenders,
    taken_cons h.taken (fun x hx => ?_) ?_⟩
  · rw [hroot] at hb
    by_cases hs : i = e.src
    · rw [hs, Function.update_self] at hb
      rw [hs]
      exact (Option.some.inj hb).symm
    · rw [Function.update_of_ne hs] at hb
      exact h.stripe i b hb
  · rw [hroot]
    rcases Finset.mem_insert.1 hi with rfl | hi
    · rw [Function.update_self]; rfl
    · exact hkeep i (h.echoSenders i hi)
  · unfold Taken at hx ⊢
    split at hx
    · exact hx
    · rw [hroot]
      exact hkeep _ hx
    · exact hx
  · unfold Taken
    rw [hm, echoMsg]
    simp only [hroot, Function.update_self, Option.isSome_some]

theorem onEcho_crash (hlen : S.length = N) {e : Net.Envelope (Fin N) RbcMsg} (h : CrashOk H f S loc hist e.dst s)
    (hp : s.phase = .loop) (hm : e.msg = echoMsg H S e.src) :
    StepOk H f S loc hist e s (onMsg H z f leader e.dst s e.src e.msg) := by
  rw [hm, echoMsg, onMsg, onEcho]
  split
  · rename_i hold
    refine StepOk.redundant h hp ?_
    unfold Taken
    rw [hm]
    exact hold.elim id (h.echoSenders e.src)
  · simp only [merkleVerify_genuineOf hlen e.src]
    exact StepOk.finish (s := s) (addEcho_stored h.toStored hm _) hp rfl rfl Or.inl
      (fun hc => Or.inr (h.ready_of_ready hc))

theorem addReady_stored {e : Net.Envelope (Fin N) RbcMsg} (h : Stored H S loc hist p s) (hm : e.msg = .ready (rootOf H S))
    (hsent : (loc e.src).readySent = true) : Stored H S loc (e :: hist) p (addReady e.src (rootOf H S) s) := by
  have hroot : (addReady e.src (rootOf H S) s).ready (rootOf H S) = insert e.src (s.ready (rootOf H S)) :=
    Function.update_self _ _ _
  refine ⟨h.not_raised, h.fromLeader, h.stripe, h.echoSenders, fun r i hi => ?_, fun i hi => ?_,
    taken_cons h.taken (fun x hx => ?_) ?_⟩
  · by_cases hr : r = rootOf H S
    · subst hr
      rw [hroot] at hi
      rcases Finset.mem_insert.1 hi with rfl | hi
      · exact ⟨rfl, hsent⟩
      · exact h.ready _ i hi
    · change i ∈ Function.update s.ready (rootOf H S) _ r at hi
      rw [Function.update_of_ne hr] at hi
      exact h.ready r i hi
  · rw [hroot]
    rcases Finset.mem_insert.1 hi with rfl | hi
    · exact Finset.mem_insert_self _ _
    · exact Finset.mem_insert_of_mem (h.readySenders i hi)
  · unfold Taken at hx ⊢
    split at hx
    · exact hx
    · exact hx
    · rw [hroot]
      exact Finset.mem_insert_of_mem hx
  · unfold Taken
    rw [hm]
    simp only [hroot]
    exact Finset.mem_insert_self _ _

theorem onReady_crash {e : Net.Envelope (Fin N) RbcMsg} (h : CrashOk H f S loc hist e.dst s) (hp : s.phase = .loop)
    (hm : e.msg = .ready (rootOf H S)) (hsent : (loc e.src).readySent = true) :
    StepOk H f S loc hist e s (onMsg H z f leader e.dst s e.src e.msg) := by
  rw [hm, onMsg, onReady]
  split
  · rename_i hold
    refine StepOk.redundant h hp ?_
    unfold Taken
    rw [hm]
    exact hold.elim id (h.readySenders e.src)
  · exact StepOk.finish (s := s) (addReady_stored h.toStored hm hsent) hp rfl rfl
      (fun hc => Or.inr (h.ready_of_echo hc)) Or.inl

/-- **One genuine message.** -/
theorem onMsg_crash (hlen : S.length = N) {e : Net.Envelope (Fin N) RbcMsg} (h : CrashOk H f S loc hist e.dst s)
    (hp : s.phase = .loop) (hm : Genuine H leader S loc e) :
    StepOk H f S loc hist e s (onMsg H z f leader e.dst s e.src e.msg) := by
  rcases hm with ⟨hl, hm⟩ | hm | ⟨hm, hsent⟩
  · exact onVal_crash hlen h hp hl hm
  · exact onEcho_crash hlen h hp hm
  · exact onReady_crash h hp hm hsent

theorem onMsg_readySent (pid sender : Fin N) (msg : RbcMsg) (h : s.readySent = true) :
    (onMsg H z f leader pid s sender msg).1.readySent = true := by
  have hfinish : ∀ (cond : Prop) [Decidable cond] (r : Bytes) (t : RbcState N), t.readySent = true →
      (output H z f r (sendReady cond r t).1).readySent = true := by
    intro cond _ r t ht
    obtain ⟨phase, hashed, heq, -⟩ := output_eq H z f r (sendReady cond r t).1
    rw [heq, sendReady_fst]
    simp only [ht, Bool.or_true]
  cases msg with
  | val r branch stripe =>
    rw [onMsg, onVal]
    split
    · exact h
    · split
      · exact h
      · simp only
        split <;> exact h
  | echo r branch stripe =>
    rw [onMsg, onEcho]
    split
    · exact h
    · simp only
      split
      · exact hfinish _ r _ h
      · exact h
      · exact h
      · exact h
  | ready r =>
    rw [onMsg, onReady]
    split
    · exact h
    · exact hfinish _ r _ h

end Party

/-! ## Runs -/

section Runs

variable (hN : 3 * f + 1 ≤ N) (hS : encode z (N - 2 * f) N input = .ok S) (hlen : S.length = N)
include hN hS hlen

/-- **The invariant of `reliablebroadcast` when parties only stop.** -/
theorem reliablebroadcast_crash (H : Hash) (leader : Fin N) : Net.Preserved (reliablebroadcast H z f leader input) ∅ (fun _ _ => True)
    (fun s s' => s.readySent = true → s'.readySent = true) (fun loc hist p => CrashOk H f S loc hist p (loc p))
    (fun loc e => Genuine H leader S loc e) where
  grow_refl := fun _ => id
  grow_wake := by
    intro p t s s' out h
    obtain ⟨-, rfl, -⟩ := reliablebroadcast_wake h
    obtain ⟨hashed, hs⟩ := start_crash hN hS hlen H leader p s
    rw [hs]
    exact id
  grow_recv := by
    intro p s q m s' out h
    obtain ⟨-, rfl, -⟩ := reliablebroadcast_recv h
    exact onMsg_readySent p q m
  local_mono := by
    intro loc loc' hist hist' p hg _ hh hp h
    rw [hp]
    exact { h.mono hg with taken := fun e he hdst => h.taken e (hh e he hdst) hdst }
  msg_mono := fun loc loc' e hg h => h.mono hg
  init := fun p _ => by
    refine ⟨⟨nofun, nofun, nofun, nofun, nofun, nofun, nofun⟩, fun h => ?_, fun h => ?_, fun _ h => ?_⟩
    · change N - f ≤ 0 at h
      omega
    · change f + 1 ≤ 0 at h
      omega
    · have h2 : N - 2 * f ≤ 0 := h.2
      omega
  wake := by
    intro c p t s out loc' _ hp hL h hloc hg
    obtain ⟨hin, rfl, rfl⟩ := reliablebroadcast_wake h
    obtain ⟨hashed, hs⟩ := start_crash hN hS hlen H leader p (c.loc p)
    have hok := (hL p hp).mono hg
    rw [hloc, Function.update_self, ← hloc, hs]
    refine ⟨⟨⟨nofun, hok.fromLeader, hok.stripe, hok.echoSenders, hok.ready, hok.readySenders, hok.taken⟩,
      hok.ready_of_echo, hok.ready_of_ready, fun _ => hok.output (by rw [hin]; nofun)⟩, fun o ho => ?_⟩
    simp only at ho
    split at ho
    · obtain ⟨i, -, rfl⟩ := List.mem_map.1 ho
      exact Or.inl ⟨by assumption, rfl⟩
    · exact absurd ho List.not_mem_nil
  recv := by
    intro c e s out loc' _ hp hL hW h hloc hg
    obtain ⟨hloop, rfl, rfl⟩ := reliablebroadcast_recv h
    have hstep := onMsg_crash (z := z) hlen ((hL e.dst hp).mono hg) hloop ((hW (Finset.notMem_empty _)).mono hg)
    rw [hloc, Function.update_self, ← hloc]
    refine ⟨hstep.crash, fun o ho => Or.inr ((hstep.sends o ho).imp_right (fun ⟨hm, hr⟩ => ⟨hm, ?_⟩))⟩
    rw [hloc, Function.update_self]
    exact hr

theorem reliablebroadcast_delivers (faulty : Finset (Fin N)) :
    Net.Delivers (reliablebroadcast H z f leader input) faulty (Sent H leader S) where
  init := fun p q m hs => by
    rcases hs with ⟨-, hs, -⟩ | ⟨hs, -⟩ | ⟨hs, -⟩
    · exact hs rfl
    · cases hs
    · cases hs
  wake := by
    intro c p t s out q m hc h hs
    obtain ⟨hin, rfl, rfl⟩ := reliablebroadcast_wake h
    obtain ⟨hashed, hst⟩ := start_crash hN hS hlen H leader p (c.loc p)
    rw [hst] at hs ⊢
    rcases hs with ⟨rfl, -, rfl⟩ | hs | hs
    · right
      simp only [if_true]
      exact List.mem_map.2 ⟨q, List.mem_finRange q, rfl⟩
    · exact Or.inl (Or.inr (Or.inl hs))
    · exact Or.inl (Or.inr (Or.inr hs))
  recv := by
    intro c e s out q m hc he h hs
    obtain ⟨hloop, rfl, rfl⟩ := reliablebroadcast_recv h
    have hinv := (reliablebroadcast_crash hN hS hlen H leader).crashRun hc
    have hmem : ∀ p : Fin N, p ∉ (∅ : Finset (Fin N)) := fun p => Finset.notMem_empty p
    have hstep := onMsg_crash (z := z) hlen (hinv.loc e.dst (hmem _)) hloop (hinv.net e he (hmem _))
    rcases hs with ⟨hl, -, rfl⟩ | ⟨hs, rfl⟩ | ⟨hs, rfl⟩
    · exact Or.inl (Or.inl ⟨hl, by rw [hloop]; nofun, rfl⟩)
    · exact (hstep.echo hs).imp (fun h => Or.inr (Or.inl ⟨h, rfl⟩)) (fun h => h q)
    · exact (hstep.ready hs).imp (fun h => Or.inr (Or.inr ⟨h, rfl⟩)) (fun h => h q)

end Runs

/-! ## The budget -/

/-- What a party may still send, and its first step. -/
def fuel (s : RbcState N) : Nat :=
  (if s.phase = .input then N + 1 else 0) + (if s.fromLeader = none then N else 0) + (if s.readySent = false then N else 0)

theorem finish_fuel (H : Hash) (z : Zfec) (f : Nat) {cond : Prop} [Decidable cond] (r : Bytes) {s t : RbcState N}
    (hs : s.phase = .loop) (hp : t.phase = .loop) (hf : t.fromLeader = s.fromLeader) (hr : t.readySent = s.readySent) :
    fuel (output H z f r (sendReady cond r t).1) + (sendReady cond r t).2.length ≤ fuel s := by
  obtain ⟨phase, hashed, heq, hout⟩ := output_eq H z f r (sendReady cond r t).1
  have hin : phase ≠ .input := by
    rcases hout with ⟨hph, -⟩ | ⟨res, hph⟩
    · rw [hph, sendReady_fst, hp]; nofun
    · rw [hph]; nofun
  rw [heq]
  unfold sendReady
  split
  · rename_i hc
    simp [fuel, hin, hs, hf, ← hr, hc.2, broadcast]
  · simp [fuel, hin, hs, hf, hr]

theorem onMsg_fuel (pid sender : Fin N) (msg : RbcMsg) {s : RbcState N} (hs : s.phase = .loop) :
    fuel (onMsg H z f leader pid s sender msg).1 + (onMsg H z f leader pid s sender msg).2.length ≤ fuel s := by
  cases msg with
  | val r branch stripe =>
    rw [onMsg, onVal]
    cases hfl : s.fromLeader with
    | some r' => simp
    | none =>
      simp only
      split
      · simp
      · split
        · simp [fuel, hs, hfl, broadcast, Nat.add_comm]
        · simp [fuel, hs, hfl]
  | echo r branch stripe =>
    rw [onMsg, onEcho]
    split
    · simp
    · simp only
      split
      · exact finish_fuel H z f r hs hs rfl rfl
      · simp [fuel]
      · simp [fuel]
      · simp [fuel]
  | ready r =>
    rw [onMsg, onReady]
    split
    · simp
    · exact finish_fuel H z f r hs hs rfl rfl

theorem reliablebroadcast_bounded (H : Hash) (z : Zfec) (f : Nat) (leader : Fin N) (input : Text) :
    Net.Bounded (reliablebroadcast H z f leader input) fuel where
  wake := by
    intro p t s s' out h
    obtain ⟨hin, rfl, rfl⟩ := reliablebroadcast_wake h
    unfold start
    split
    · simp [fuel, hin]
    · split
      · split
        · simp [fuel, hin]
        · split
          · simp [fuel, hin]
          · simp [fuel, hin]; omega
      · simp [fuel, hin]
  recv := by
    intro p s q m s' out h
    obtain ⟨hloop, rfl, rfl⟩ := reliablebroadcast_recv h
    exact onMsg_fuel p q m hloop

end Rbc

open Rbc

section Total

variable {H : Hash} {z : Zfec} {N f : Nat} {leader : Fin N} {input : Text} {S : List Bytes} {faulty : Finset (Fin N)}
  {c : Net.CrashConf (Fin N) (RbcState N) RbcMsg}

/-- **When parties only stop, nobody raises and what is decided is the leader's input.** -/
theorem reliablebroadcast_decided (hN : 3 * f + 1 ≤ N) (hz : z.IsMds (N - 2 * f) N)
    (hrt : RoundTrip z (N - 2 * f) N input) (hS : encode z (N - 2 * f) N input = .ok S)
    (hc : Net.CrashReachable (reliablebroadcast H z f leader input) faulty c) (p : Fin N) :
    (∀ e, (c.loc p).phase ≠ .raised e) ∧ ∀ r res, (c.loc p).phase = .decided r res → res = .ok input.encode := by
  have hlen := encode_length hz hS
  have hok := ((reliablebroadcast_crash hN hS hlen H leader).crashRun hc).loc p (Finset.notMem_empty p)
  have hpart := ((reliablebroadcast_preserved H z leader input (Finset.card_empty.trans_le (Nat.zero_le f))).crashRun hc).loc p
    (Finset.notMem_empty p)
  refine ⟨hok.not_raised, fun r res hd => ?_⟩
  obtain ⟨rfl, -, hready, hecho⟩ := hpart.decided r res hd
  obtain ⟨i, hi⟩ := Finset.card_pos.1 (show 0 < ((c.loc p).ready r).card by omega)
  obtain ⟨rfl, -⟩ := hok.ready r i hi
  have hdec : decode z (N - 2 * f) N (List.ofFn ((c.loc p).stripes (rootOf H S))) = .ok input.encode := by
    rw [← unpad_of_roundTrip hz hrt hS]
    refine decode_of_encode hz hS _ List.length_ofFn (fun j b hj => ?_) ?_
    · rw [List.getElem?_ofFn] at hj
      split at hj
      · rename_i hlt
        rw [hok.stripe ⟨j, hlt⟩ b (Option.some.inj hj), List.getD_eq_getElem?_getD, List.getElem?_eq_getElem (hlen ▸ hlt)]
        rfl
      · cases hj
    · rw [countP_ofFn_isSome, ← hpart.echo_count]
      exact hecho
  exact decodeOutput_eq_ok.2 ⟨hdec, S, hS, by omega, rfl⟩

/-- **Totality**: with the leader running and at most `f` parties stopped, every running party has decided once nothing
moves. -/
theorem reliablebroadcast_total (hN : 3 * f + 1 ≤ N) (hz : z.IsMds (N - 2 * f) N)
    (hS : encode z (N - 2 * f) N input = .ok S) (hfaulty : faulty.card ≤ f) (hleader : leader ∉ faulty)
    (hc : Net.CrashReachable (reliablebroadcast H z f leader input) faulty c)
    (hquiet : Net.Quiescent (reliablebroadcast H z f leader input) c) :
    ∀ p ∉ c.stopped, ∃ r res, (c.loc p).phase = .decided r res := by
  have hlen := encode_length hz hS
  have hinv := (reliablebroadcast_crash hN hS hlen H leader).crashRun hc
  have hok : ∀ p, CrashOk H f S c.loc c.hist p (c.loc p) := fun p => hinv.loc p (Finset.notMem_empty p)
  have hpart := ((reliablebroadcast_preserved H z leader input (Finset.card_empty.trans_le (Nat.zero_le f))).crashRun hc).loc
  have hstopped : c.stopped.card ≤ f := (Finset.card_le_card hc.stopped_subset).trans hfaulty
  have hlead : leader ∉ c.stopped := fun h => hleader (hc.stopped_subset h)
  -- a running party is in its loop or has decided
  have hphase : ∀ p ∉ c.stopped, (c.loc p).phase = .loop ∨ ∃ r res, (c.loc p).phase = .decided r res := by
    intro p hp
    cases hph : (c.loc p).phase with
    | input =>
      have hw := hquiet.1 p hp ()
      simp [reliablebroadcast, hph] at hw
    | loop          => exact Or.inl rfl
    | decided r res => exact Or.inr ⟨r, res, rfl⟩
    | raised e      => exact absurd hph ((hok p).not_raised e)
  -- what a running party has sent to a party in its loop was taken
  have htaken : ∀ p ∉ c.stopped, ∀ q ∉ c.stopped, (c.loc q).phase = .loop → ∀ m, Sent H leader S p (c.loc p) q m →
      Taken H S (c.loc q) ⟨p, q, m⟩ := by
    intro p hp q hq hloop m hsent
    refine (hok q).taken _ ((reliablebroadcast_delivers (H := H) hN hS hlen faulty).delivered hc hquiet hp hq hsent ?_) rfl
    simp [reliablebroadcast, hloop]
  have hval : ∀ q ∉ c.stopped, (c.loc q).phase = .loop → (c.loc q).fromLeader = some (rootOf H S) := by
    intro q hq hloop
    have hstart : (c.loc leader).phase ≠ .input := by
      rcases hphase leader hlead with h | ⟨r, res, h⟩ <;> simp [h]
    exact htaken leader hlead q hq hloop _ (Or.inl ⟨rfl, hstart, rfl⟩)
  have hechoes : ∀ q ∉ c.stopped, (c.loc q).phase = .loop → ∀ A : Finset (Fin N),
      (∀ i ∈ A, i ∉ c.stopped ∧ (c.loc i).fromLeader = some (rootOf H S)) →
        A.card ≤ (c.loc q).echoCounter (rootOf H S) := by
    intro q hq hloop A hA
    rw [(hpart q (Finset.notMem_empty q)).echo_count]
    refine Finset.card_le_card (fun i hi => Finset.mem_filter.2 ⟨Finset.mem_univ i, ?_⟩)
    exact htaken i (hA i hi).1 q hq hloop _ (Or.inr (Or.inl ⟨(hA i hi).2, rfl⟩))
  have hreadies : ∀ q ∉ c.stopped, (c.loc q).phase = .loop → ∀ A : Finset (Fin N),
      (∀ i ∈ A, i ∉ c.stopped ∧ (c.loc i).readySent = true) → A.card ≤ ((c.loc q).ready (rootOf H S)).card := by
    intro q hq hloop A hA
    exact Finset.card_le_card (fun i hi => htaken i (hA i hi).1 q hq hloop _ (Or.inr (Or.inr ⟨(hA i hi).2, rfl⟩)))
  have hdecided : ∀ q r res, (c.loc q).phase = .decided r res → 2 * f + 1 ≤ ((c.loc q).ready (rootOf H S)).card := by
    intro q r res hd
    have hready := ((hpart q (Finset.notMem_empty q)).decided r res hd).2.2.1
    obtain ⟨i, hi⟩ := Finset.card_pos.1 (show 0 < ((c.loc q).ready r).card by omega)
    rwa [← ((hok q).ready r i hi).1]
  have hlive : N - f ≤ (Finset.univ.filter (· ∉ c.stopped)).card := by
    have := Quorum.card_univ_le c.stopped
    rw [Fintype.card_fin] at this
    omega
  have hmem : ∀ i, i ∈ Finset.univ.filter (· ∉ c.stopped) ↔ i ∉ c.stopped := fun i => by simp
  -- some quorum echoed
  obtain ⟨Q, hQ, hQroot⟩ : ∃ Q : Finset (Fin N), N - f ≤ Q.card ∧
      ∀ i ∈ Q, (c.loc i).fromLeader = some (rootOf H S) := by
    by_cases hsome : ∃ q i, i ∈ (c.loc q).ready (rootOf H S)
    · obtain ⟨q, i, hi⟩ := hsome
      obtain ⟨Q, hQ, hm⟩ := (hpart q (Finset.notMem_empty q)).ready_quorum _ i hi (Finset.notMem_empty i)
      exact ⟨Q, hQ, fun j hj => hm j hj (Finset.notMem_empty j)⟩
    · refine ⟨_, hlive, fun i hi => ?_⟩
      have hi := (hmem i).1 hi
      rcases hphase i hi with hloop | ⟨r, res, hd⟩
      · exact hval i hi hloop
      · obtain ⟨j, hj⟩ := Finset.card_pos.1 (show 0 < ((c.loc i).ready (rootOf H S)).card by
          have := hdecided i r res hd; omega)
        exact absurd ⟨i, j, hj⟩ hsome
  -- every running party has sent READY
  have hsent : ∀ q ∉ c.stopped, (c.loc q).readySent = true := by
    intro q hq
    rcases hphase q hq with hloop | ⟨r, res, hd⟩
    · by_cases hsome : ∃ i ∉ c.stopped, ∃ r res, (c.loc i).phase = .decided r res
      · obtain ⟨i, -, r, res, hd⟩ := hsome
        refine (hok q).ready_of_ready (Nat.le_trans ?_ (hreadies q hq hloop
          (((c.loc i).ready (rootOf H S)).filter (· ∉ c.stopped)) (fun j hj => ?_)))
        · have := hdecided i r res hd
          have := Quorum.card_le_good_add c.stopped ((c.loc i).ready (rootOf H S))
          omega
        · obtain ⟨hj, hjs⟩ := Finset.mem_filter.1 hj
          exact ⟨hjs, ((hok i).ready _ j hj).2⟩
      · refine (hok q).ready_of_echo (hlive.trans (hechoes q hq hloop _ (fun i hi => ?_)))
        have hi := (hmem i).1 hi
        rcases hphase i hi with hl | hd
        · exact ⟨hi, hval i hi hl⟩
        · exact absurd ⟨i, hi, hd⟩ hsome
    · exact (hok q).ready_of_ready (by have := hdecided q r res hd; omega)
  intro q hq
  rcases hphase q hq with hloop | hd
  · have hready : N - f ≤ ((c.loc q).ready (rootOf H S)).card := hlive.trans (hreadies q hq hloop _ (fun i hi =>
      ⟨(hmem i).1 hi, hsent i ((hmem i).1 hi)⟩))
    have hecho : (Q.filter (· ∉ c.stopped)).card ≤ (c.loc q).echoCounter (rootOf H S) :=
      hechoes q hq hloop _ (fun i hi => ⟨(Finset.mem_filter.1 hi).2, hQroot i (Finset.mem_filter.1 hi).1⟩)
    have hsub := Quorum.card_le_good_add c.stopped Q
    exact absurd ⟨by omega, by omega⟩ ((hok q).output (by simp [hloop]))
  · exact hd

end Total

end Dpid
