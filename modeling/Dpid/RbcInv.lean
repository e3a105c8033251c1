import Dpid.Quorum
import Dpid.Rbc
/-!
# RbcInv — what every step of `reliablebroadcast` preserves

A good party echoes one root only, the first `VAL` of the leader it verified (`fromLeader`).  Behind every `READY` of a
good party stand `N - f` echoes of one root (`EchoQuorum`): the first one counted them, the others followed `f + 1`
`READY`s, one of them good.  `PartyOk` is the invariant of one party, `MsgOk` that of one message of a good party;
`start_ok` and `onMsg_ok` say that the code keeps both.
-/
namespace Dpid
namespace Rbc

variable {H : Hash} {z : Zfec} {N f : Nat} {leader : Fin N} {input : Text} {byz : Finset (Fin N)}

section Statements

variable (H : Hash) (z : Zfec) (f : Nat) (leader : Fin N) (input : Text) (byz : Finset (Fin N)) (loc : Fin N → RbcState N)

/-- `N - f` parties echoed `roothash`, the good ones as their only root. -/
def EchoQuorum (roothash : Bytes) : Prop :=
  ∃ Q : Finset (Fin N), N - f ≤ Q.card ∧ ∀ i ∈ Q, i ∉ byz → (loc i).fromLeader = some roothash

/-- `roothash` is the root of the leader's input, and the leader has hashed the tree. -/
def LeaderRoot (roothash : Bytes) : Prop :=
  ∃ stripes, encode z (N - 2 * f) N input = .ok stripes ∧ roothash = rootOf H stripes ∧
    ∀ x ∈ merkleTreeHashed H stripes, x ∈ (loc leader).hashed

/-- The invariant of a party in state `s`. -/
structure PartyOk (s : RbcState N) : Prop where
  leader_root : ∀ r, s.fromLeader = some r → leader ∉ byz → LeaderRoot H z f leader input loc r
  stripe_verified : ∀ r i b, s.stripes r i = some b → ∃ branch, merkleVerify H N b r branch i = .ok true ∧
    ∀ x ∈ merkleVerifyHashed H N b branch i, x ∈ s.hashed
  stripe_echoed : ∀ r i b, s.stripes r i = some b → i ∉ byz → (loc i).fromLeader = some r
  echo_count : ∀ r, s.echoCounter r = (Finset.univ.filter (fun i => (s.stripes r i).isSome)).card
  ready_quorum : ∀ r, ∀ i ∈ s.ready r, i ∉ byz → EchoQuorum f byz loc r
  decided : ∀ r res, s.phase = .decided r res → res = decodeOutput H z f (s.stripes r) r ∧
    (∀ x ∈ decodeOutputHashed H z f (s.stripes r), x ∈ s.hashed) ∧
    2 * f + 1 ≤ (s.ready r).card ∧ N - 2 * f ≤ s.echoCounter r

/-- The invariant of a message from the good party `src`. -/
def MsgOk (src : Fin N) : RbcMsg → Prop
  | .val r _ _  => src = leader → LeaderRoot H z f leader input loc r
  | .echo r _ _ => (loc src).fromLeader = some r
  | .ready r    => EchoQuorum f byz loc r

end Statements

/-- What no step takes back. -/
structure Grow (s s' : RbcState N) : Prop where
  fromLeader : ∀ r, s.fromLeader = some r → s'.fromLeader = some r
  hashed : ∀ x ∈ s.hashed, x ∈ s'.hashed

theorem Grow.refl (s : RbcState N) : Grow s s := ⟨fun _ h => h, fun _ h => h⟩

theorem Grow.trans {s t u : RbcState N} (h : Grow s t) (h' : Grow t u) : Grow s u :=
  ⟨fun r hr => h'.fromLeader r (h.fromLeader r hr), fun x hx => h'.hashed x (h.hashed x hx)⟩

/-! ## The verdict -/

theorem decodeOutput_eq_ok {st : Fin N → Option Bytes} {r m : Bytes} : decodeOutput H z f st r = .ok m ↔
    decode z (N - 2 * f) N (List.ofFn st) = .ok m ∧
      ∃ S, encode z (N - 2 * f) N (.bytes m) = .ok S ∧ 1 ≤ S.length ∧ rootOf H S = r := by
  unfold decodeOutput
  cases hd : decode z (N - 2 * f) N (List.ofFn st) with
  | error e => simp [bind, Except.bind]
  | ok m' =>
    cases hS : encode z (N - 2 * f) N (.bytes m') with
    | error e =>
      simp only [bind, Except.bind, hS, reduceCtorEq, Except.ok.injEq, false_iff, not_and, not_exists]
      rintro rfl S h
      rw [hS] at h
      cases h
    | ok S =>
      by_cases hl : 1 ≤ S.length
      · by_cases hr : rootOf H S = r
        · simp only [bind, Except.bind, hS, merkleTree, hl, if_true, pure, Except.pure]
          rw [if_neg (not_not.2 hr : ¬ (treeOf H S).getD 1 [] ≠ r)]
          constructor
          · rintro h; cases h; exact ⟨rfl, S, hS, hl, hr⟩
          · rintro ⟨h, -⟩; exact h
        · simp only [bind, Except.bind, hS, merkleTree, hl, if_true]
          rw [if_pos (show (treeOf H S).getD 1 [] ≠ r from hr)]
          refine ⟨fun h => absurd h (by simp [throw, throwThe, MonadExceptOf.throw]), ?_⟩
          rintro ⟨h, S', hS', -, hr'⟩
          cases h
          rw [hS] at hS'
          cases hS'
          exact absurd hr' hr
      · simp only [bind, Except.bind, hS, merkleTree, hl, if_false, reduceCtorEq, Except.ok.injEq, false_iff, not_and,
          not_exists]
        rintro rfl S' hS'
        rw [hS] at hS'
        cases hS'
        exact fun h => absurd h hl

theorem decodeOutputHashed_eq {st : Fin N → Option Bytes} {m : Bytes} {S : List Bytes}
    (hd : decode z (N - 2 * f) N (List.ofFn st) = .ok m) (hS : encode z (N - 2 * f) N (.bytes m) = .ok S) :
    decodeOutputHashed H z f st = merkleTreeHashed H S := by
  rw [decodeOutputHashed, hd]
  simp only
  rw [hS]

/-! ## Growth of the other parties -/

section Mono

variable {loc loc' : Fin N → RbcState N} (hg : ∀ q, Grow (loc q) (loc' q))
include hg

theorem EchoQuorum.mono {r : Bytes} (h : EchoQuorum f byz loc r) : EchoQuorum f byz loc' r := by
  obtain ⟨Q, hQ, hm⟩ := h
  exact ⟨Q, hQ, fun i hi hb => (hg i).fromLeader r (hm i hi hb)⟩

theorem LeaderRoot.mono {r : Bytes} (h : LeaderRoot H z f leader input loc r) :
    LeaderRoot H z f leader input loc' r := by
  obtain ⟨S, hS, hr, hx⟩ := h
  exact ⟨S, hS, hr, fun x hm => (hg leader).hashed x (hx x hm)⟩

theorem PartyOk.mono {s : RbcState N} (h : PartyOk H z f leader input byz loc s) :
    PartyOk H z f leader input byz loc' s where
  leader_root     := fun r hr hl => (h.leader_root r hr hl).mono hg
  stripe_verified := h.stripe_verified
  stripe_echoed   := fun r i b hb hi => (hg i).fromLeader r (h.stripe_echoed r i b hb hi)
  echo_count      := h.echo_count
  ready_quorum    := fun r i hi hb => (h.ready_quorum r i hi hb).mono hg
  decided         := h.decided

theorem MsgOk.mono {src : Fin N} {msg : RbcMsg} (h : MsgOk H z f leader input byz loc src msg) :
    MsgOk H z f leader input byz loc' src msg := by
  cases msg with
  | val r b s  => exact fun hs => (h hs).mono hg
  | echo r b s => exact (hg src).fromLeader r h
  | ready r    => exact EchoQuorum.mono hg h

end Mono

/-! ## The quorums -/

section Party

variable {loc : Fin N → RbcState N} {s : RbcState N}

/-- **Two echo quorums are of one root.** -/
theorem EchoQuorum.unique (hN : 3 * f + 1 ≤ N) (hbyz : byz.card ≤ f) {r r' : Bytes} (h : EchoQuorum f byz loc r)
    (h' : EchoQuorum f byz loc r') : r = r' := by
  obtain ⟨Q, hQ, hm⟩ := h
  obtain ⟨Q', hQ', hm'⟩ := h'
  obtain ⟨i, hi, hi', hgood⟩ := Quorum.exists_good_inter byz
    (show Fintype.card (Fin N) + byz.card < Q.card + Q'.card by rw [Fintype.card_fin]; omega)
  exact Option.some.inj ((hm i hi hgood).symm.trans (hm' i hi' hgood))

theorem EchoQuorum.exists_good (hN : 3 * f + 1 ≤ N) (hbyz : byz.card ≤ f) {r : Bytes} (h : EchoQuorum f byz loc r) :
    ∃ i, i ∉ byz ∧ (loc i).fromLeader = some r := by
  obtain ⟨Q, hQ, hm⟩ := h
  obtain ⟨i, hi, hgood⟩ := Quorum.exists_good (show byz.card < Q.card by omega)
  exact ⟨i, hgood, hm i hi hgood⟩

theorem PartyOk.quorum_of_echoes (h : PartyOk H z f leader input byz loc s) {r : Bytes}
    (hr : N - f ≤ s.echoCounter r) : EchoQuorum f byz loc r := by
  refine ⟨_, (h.echo_count r) ▸ hr, fun i hi hgood => ?_⟩
  obtain ⟨b, hb⟩ := Option.isSome_iff_exists.1 (Finset.mem_filter.1 hi).2
  exact h.stripe_echoed r i b hb hgood

theorem PartyOk.quorum_of_readies (h : PartyOk H z f leader input byz loc s) (hbyz : byz.card ≤ f) {r : Bytes}
    (hr : f + 1 ≤ (s.ready r).card) : EchoQuorum f byz loc r := by
  obtain ⟨i, hi, hgood⟩ := Quorum.exists_good (show byz.card < (s.ready r).card by omega)
  exact h.ready_quorum r i hi hgood

/-! ## The pieces of the loop -/

theorem mem_broadcast {M : Type} {o : M} {p : Fin N × M} (h : p ∈ broadcast o) : p.2 = o := by
  obtain ⟨i, -, rfl⟩ := List.mem_map.1 h
  rfl

theorem init_ok : PartyOk H z f leader input byz loc (init (N := N)) where
  leader_root     := fun r hr => by cases hr
  stripe_verified := fun r i b hb => by cases hb
  stripe_echoed   := fun r i b hb => by cases hb
  echo_count      := fun r => by simp [init]
  ready_quorum    := fun r i hi => absurd hi (Finset.notMem_empty i)
  decided         := fun r res hr => by cases hr

theorem PartyOk.set (h : PartyOk H z f leader input byz loc s) {phase : RbcPhase} {hashed : List Bytes}
    (hp : ∀ r res, phase ≠ .decided r res) (hx : ∀ x ∈ s.hashed, x ∈ hashed) :
    PartyOk H z f leader input byz loc { s with phase := phase, hashed := hashed } where
  leader_root     := h.leader_root
  stripe_verified := fun r i b hb => by
    obtain ⟨branch, hv, hm⟩ := h.stripe_verified r i b hb
    exact ⟨branch, hv, fun x hm' => hx x (hm x hm')⟩
  stripe_echoed   := h.stripe_echoed
  echo_count      := h.echo_count
  ready_quorum    := h.ready_quorum
  decided         := fun r res hr => absurd hr (hp r res)

theorem sendReady_ok {cond : Prop} [Decidable cond] {r : Bytes} (h : PartyOk H z f leader input byz loc s)
    (hq : cond → EchoQuorum f byz loc r) (src : Fin N) :
    PartyOk H z f leader input byz loc (sendReady cond r s).1 ∧
      ∀ o ∈ (sendReady cond r s).2, MsgOk H z f leader input byz loc src o.2 := by
  unfold sendReady
  split
  · rename_i hc
    refine ⟨⟨h.leader_root, h.stripe_verified, h.stripe_echoed, h.echo_count, h.ready_quorum, h.decided⟩,
      fun o ho => ?_⟩
    rw [mem_broadcast ho]
    exact hq hc.1
  · exact ⟨h, fun o ho => absurd ho List.not_mem_nil⟩

theorem output_ok {r : Bytes} (h : PartyOk H z f leader input byz loc s) :
    PartyOk H z f leader input byz loc (output H z f r s) := by
  unfold output
  split
  · rename_i hc
    refine ⟨h.leader_root, fun r' i b hb => ?_, h.stripe_echoed, h.echo_count, h.ready_quorum, fun r' res hr => ?_⟩
    · obtain ⟨branch, hv, hm⟩ := h.stripe_verified r' i b hb
      exact ⟨branch, hv, fun x hx => List.mem_append_right _ (hm x hx)⟩
    · cases hr
      exact ⟨rfl, fun x hx => List.mem_append_left _ hx, hc⟩
  · exact h

theorem addEcho_stripes {s : RbcState N} {sender i : Fin N} {r r' stripe b : Bytes}
    (h : (addEcho sender r stripe s).stripes r' i = some b) :
    (r' = r ∧ i = sender ∧ b = stripe) ∨ s.stripes r' i = some b := by
  change Function.update s.stripes r _ r' i = some b at h
  by_cases hr : r' = r
  · subst hr
    rw [Function.update_self] at h
    by_cases hi : i = sender
    · subst hi
      rw [Function.update_self] at h
      exact Or.inl ⟨rfl, rfl, (Option.some.inj h).symm⟩
    · rw [Function.update_of_ne hi] at h
      exact Or.inr h
  · rw [Function.update_of_ne hr] at h
    exact Or.inr h

/-- The counters count the stripes: the sender's place was empty. -/
theorem addEcho_count {s : RbcState N} {sender : Fin N} {r stripe : Bytes} (hnew : s.stripes r sender = none)
    (h : ∀ r, s.echoCounter r = (Finset.univ.filter (fun i => (s.stripes r i).isSome)).card) (r' : Bytes) :
    (addEcho sender r stripe s).echoCounter r' =
      (Finset.univ.filter (fun i => ((addEcho sender r stripe s).stripes r' i).isSome)).card := by
  change Function.update s.echoCounter r _ r' =
    (Finset.univ.filter (fun i => (Function.update s.stripes r _ r' i).isSome)).card
  by_cases hr : r' = r
  · subst hr
    have hset : Finset.univ.filter (fun i => (Function.update (s.stripes r') sender (some stripe) i).isSome) =
        insert sender (Finset.univ.filter (fun i => (s.stripes r' i).isSome)) := by
      ext i
      by_cases hi : i = sender
      · subst hi; simp
      · simp [hi]
    rw [Function.update_self, Function.update_self, hset, Finset.card_insert_of_notMem (by simp [hnew]), h]
  · rw [Function.update_of_ne hr, Function.update_of_ne hr]
    exact h r'

theorem addEcho_ok {sender : Fin N} {r stripe : Bytes} (h : PartyOk H z f leader input byz loc s)
    (hp : s.phase = .loop) (hnew : s.stripes r sender = none) (hecho : sender ∉ byz → (loc sender).fromLeader = some r)
    {branch : List Bytes} (hv : merkleVerify H N stripe r branch sender = .ok true)
    (hx : ∀ x ∈ merkleVerifyHashed H N stripe branch sender, x ∈ s.hashed) :
    PartyOk H z f leader input byz loc (addEcho sender r stripe s) := by
  refine ⟨h.leader_root, fun r' i b hb => ?_, fun r' i b hb hi => ?_, addEcho_count hnew h.echo_count, h.ready_quorum,
    fun r' res hr => ?_⟩
  · rcases addEcho_stripes hb with ⟨rfl, rfl, rfl⟩ | hb
    · exact ⟨branch, hv, hx⟩
    · exact h.stripe_verified r' i b hb
  · rcases addEcho_stripes hb with ⟨rfl, rfl, -⟩ | hb
    · exact hecho hi
    · exact h.stripe_echoed r' i b hb hi
  · rw [show (addEcho sender r stripe s).phase = s.phase from rfl, hp] at hr
    cases hr

theorem addReady_ok {sender : Fin N} {r : Bytes} (h : PartyOk H z f leader input byz loc s) (hp : s.phase = .loop)
    (hq : sender ∉ byz → EchoQuorum f byz loc r) : PartyOk H z f leader input byz loc (addReady sender r s) := by
  refine ⟨h.leader_root, h.stripe_verified, h.stripe_echoed, h.echo_count, fun r' i hi hb => ?_, fun r' res hr => ?_⟩
  · change i ∈ Function.update s.ready r _ r' at hi
    by_cases hr : r' = r
    · subst hr
      rw [Function.update_self] at hi
      rcases Finset.mem_insert.1 hi with rfl | hi
      · exact hq hb
      · exact h.ready_quorum r' i hi hb
    · rw [Function.update_of_ne hr] at hi
      exact h.ready_quorum r' i hi hb
  · rw [show (addReady sender r s).phase = s.phase from rfl, hp] at hr
    cases hr

/-! ## The steps -/

/-- **The code before the loop keeps the invariant.** -/
theorem start_ok {pid : Fin N} (h : PartyOk H z f leader input byz loc s)
    (hself : loc pid = (start H z f leader input pid s).1) :
    PartyOk H z f leader input byz loc (start H z f leader input pid s).1 ∧
      ∀ o ∈ (start H z f leader input pid s).2, MsgOk H z f leader input byz loc pid o.2 := by
  revert hself
  unfold start
  have hset : ∀ {phase : RbcPhase}, (∀ r res, phase ≠ .decided r res) →
      PartyOk H z f leader input byz loc { s with phase := phase } := fun hp => h.set hp (fun _ hx => hx)
  split
  · exact fun _ => ⟨hset (by simp), fun o ho => absurd ho List.not_mem_nil⟩
  · split
    · rename_i hpid
      subst hpid
      cases hS : encode z (N - 2 * f) N input with
      | error e => exact fun _ => ⟨hset (by simp), fun o ho => absurd ho List.not_mem_nil⟩
      | ok stripes =>
        simp only
        cases hmt : merkleTree H stripes with
        | error e => exact fun _ => ⟨hset (by simp), fun o ho => absurd ho List.not_mem_nil⟩
        | ok mt =>
          intro hself
          refine ⟨h.set (by simp) (fun x hx => List.mem_append_right _ hx), fun o ho => ?_⟩
          obtain ⟨i, -, rfl⟩ := List.mem_map.1 ho
          refine fun _ => ⟨stripes, hS, ?_, fun x hx => ?_⟩
          · rw [merkleTree] at hmt
            split at hmt
            · cases hmt; rfl
            · cases hmt
          · rw [hself]
            exact List.mem_append_left _ hx
    · exact fun _ => ⟨hset (by simp), fun o ho => absurd ho List.not_mem_nil⟩

theorem onVal_ok {pid sender : Fin N} {r : Bytes} {branch : List Bytes} {stripe : Bytes}
    (h : PartyOk H z f leader input byz loc s) (hp : s.phase = .loop)
    (hm : sender ∉ byz → MsgOk H z f leader input byz loc sender (.val r branch stripe))
    (hself : loc pid = (onVal H leader pid sender r branch stripe s).1) :
    PartyOk H z f leader input byz loc (onVal H leader pid sender r branch stripe s).1 ∧
      ∀ o ∈ (onVal H leader pid sender r branch stripe s).2, MsgOk H z f leader input byz loc pid o.2 := by
  revert hself
  unfold onVal
  cases hfl : s.fromLeader with
  | some r' => exact fun _ => ⟨h, fun o ho => absurd ho List.not_mem_nil⟩
  | none =>
    simp only
    split
    · exact fun _ => ⟨h, fun o ho => absurd ho List.not_mem_nil⟩
    · rename_i hl
      simp only [ne_eq, Decidable.not_not] at hl
      have hset : PartyOk H z f leader input byz loc
          { s with hashed := merkleVerifyHashed H N stripe branch pid ++ s.hashed } :=
        h.set (by simp [hp]) (fun x hx => List.mem_append_right _ hx)
      rw [hfl] at hset
      split
      · intro hself
        refine ⟨⟨fun r' hr hb => ?_, hset.stripe_verified, hset.stripe_echoed, hset.echo_count, hset.ready_quorum,
          hset.decided⟩, fun o ho => ?_⟩
        · cases hr
          exact hm (hl ▸ hb) hl
        · rw [mem_broadcast ho]
          show (loc pid).fromLeader = some r
          rw [hself]
      · exact fun _ => ⟨hset, fun o ho => absurd ho List.not_mem_nil⟩

theorem onEcho_ok {pid sender : Fin N} {r : Bytes} {branch : List Bytes} {stripe : Bytes}
    (h : PartyOk H z f leader input byz loc s) (hp : s.phase = .loop)
    (hm : sender ∉ byz → MsgOk H z f leader input byz loc sender (.echo r branch stripe)) :
    PartyOk H z f leader input byz loc (onEcho H z f sender r branch stripe s).1 ∧
      ∀ o ∈ (onEcho H z f sender r branch stripe s).2, MsgOk H z f leader input byz loc pid o.2 := by
  unfold onEcho
  split
  · exact ⟨h, fun o ho => absurd ho List.not_mem_nil⟩
  · rename_i hnew
    have hset : ∀ {phase : RbcPhase}, (∀ r res, phase ≠ .decided r res) → PartyOk H z f leader input byz loc
        { s with phase := phase, hashed := merkleVerifyHashed H N stripe branch sender ++ s.hashed } :=
      fun hp => h.set hp (fun x hx => List.mem_append_right _ hx)
    have hkeep : ∀ r res, s.phase ≠ .decided r res := by simp [hp]
    simp only
    split
    · rename_i hv
      have hadd := addEcho_ok (hset hkeep) hp (by simpa using fun hs => hnew (Or.inl hs)) hm hv
        (fun x hx => List.mem_append_left _ hx)
      have hsend := sendReady_ok hadd (hadd.quorum_of_echoes (r := r)) pid
      exact ⟨output_ok hsend.1, hsend.2⟩
    · exact ⟨hset hkeep, fun o ho => absurd ho List.not_mem_nil⟩
    · exact ⟨hset hkeep, fun o ho => absurd ho List.not_mem_nil⟩
    · exact ⟨hset (by simp), fun o ho => absurd ho List.not_mem_nil⟩

theorem onReady_ok {pid sender : Fin N} {r : Bytes} (h : PartyOk H z f leader input byz loc s) (hp : s.phase = .loop)
    (hbyz : byz.card ≤ f) (hm : sender ∉ byz → MsgOk H z f leader input byz loc sender (.ready r)) :
    PartyOk H z f leader input byz loc (onReady H z f sender r s).1 ∧
      ∀ o ∈ (onReady H z f sender r s).2, MsgOk H z f leader input byz loc pid o.2 := by
  unfold onReady
  split
  · exact ⟨h, fun o ho => absurd ho List.not_mem_nil⟩
  · have hadd := addReady_ok h hp hm
    have hsend := sendReady_ok hadd (hadd.quorum_of_readies hbyz (r := r)) pid
    exact ⟨output_ok hsend.1, hsend.2⟩

/-- **One pass of the loop keeps the invariant.** -/
theorem onMsg_ok {pid sender : Fin N} {msg : RbcMsg} (h : PartyOk H z f leader input byz loc s) (hp : s.phase = .loop)
    (hbyz : byz.card ≤ f) (hm : sender ∉ byz → MsgOk H z f leader input byz loc sender msg)
    (hself : loc pid = (onMsg H z f leader pid s sender msg).1) :
    PartyOk H z f leader input byz loc (onMsg H z f leader pid s sender msg).1 ∧
      ∀ o ∈ (onMsg H z f leader pid s sender msg).2, MsgOk H z f leader input byz loc pid o.2 := by
  cases msg with
  | val r branch stripe  => exact onVal_ok h hp hm hself
  | echo r branch stripe => exact onEcho_ok h hp hm
  | ready r              => exact onReady_ok h hp hbyz hm

/-! ## Nothing is taken back -/

theorem sendReady_grow (cond : Prop) [Decidable cond] (r : Bytes) (s : RbcState N) : Grow s (sendReady cond r s).1 := by
  unfold sendReady
  split
  · exact ⟨fun _ h => h, fun _ h => h⟩
  · exact Grow.refl s

theorem output_grow (H : Hash) (z : Zfec) (f : Nat) (r : Bytes) (s : RbcState N) : Grow s (output H z f r s) := by
  unfold output
  split
  · exact ⟨fun _ h => h, fun x hx => List.mem_append_right _ hx⟩
  · exact Grow.refl s

theorem start_grow (pid : Fin N) (s : RbcState N) : Grow s (start H z f leader input pid s).1 := by
  unfold start
  split
  · exact ⟨fun _ h => h, fun _ h => h⟩
  · split
    · split
      · exact ⟨fun _ h => h, fun _ h => h⟩
      · split
        · exact ⟨fun _ h => h, fun _ h => h⟩
        · exact ⟨fun _ h => h, fun x hx => List.mem_append_right _ hx⟩
    · exact ⟨fun _ h => h, fun _ h => h⟩

theorem onMsg_grow (pid sender : Fin N) (msg : RbcMsg) (s : RbcState N) :
    Grow s (onMsg H z f leader pid s sender msg).1 := by
  cases msg with
  | val r branch stripe =>
    rw [onMsg, onVal]
    cases hfl : s.fromLeader with
    | some r' => exact Grow.refl s
    | none =>
      simp only
      split
      · exact Grow.refl s
      · split
        · exact ⟨fun r' hr => absurd (hfl.symm.trans hr) (by simp), fun x hx => List.mem_append_right _ hx⟩
        · exact ⟨fun r' hr => hfl.symm.trans hr, fun x hx => List.mem_append_right _ hx⟩
  | echo r branch stripe =>
    rw [onMsg, onEcho]
    split
    · exact Grow.refl s
    · have hx : ∀ x ∈ s.hashed, x ∈ merkleVerifyHashed H N stripe branch sender ++ s.hashed := fun x hx =>
        List.mem_append_right _ hx
      simp only
      split
      · refine Grow.trans (Grow.trans ?_ (sendReady_grow _ r _)) (output_grow H z f r _)
        exact ⟨fun _ h => h, hx⟩
      · exact ⟨fun _ h => h, hx⟩
      · exact ⟨fun _ h => h, hx⟩
      · exact ⟨fun _ h => h, hx⟩
  | ready r =>
    rw [onMsg, onReady]
    split
    · exact Grow.refl s
    · refine Grow.trans (Grow.trans ?_ (sendReady_grow _ r _)) (output_grow H z f r _)
      exact ⟨fun _ h => h, fun _ h => h⟩

end Party

end Rbc

open Rbc

theorem reliablebroadcast_wake {H : Hash} {z : Zfec} {N f : Nat} {leader : Fin N} {input : Text} {p : Fin N} {t : Unit}
    {s s' : RbcState N} {out : List (Fin N × RbcMsg)}
    (h : (reliablebroadcast H z f leader input).wake p t s = some (s', out)) :
    s.phase = .input ∧ s' = (start H z f leader input p s).1 ∧ out = (start H z f leader input p s).2 := by
  simp only [reliablebroadcast, Option.ite_none_right_eq_some, Option.some.injEq] at h
  exact ⟨h.1, congrArg Prod.fst h.2.symm, congrArg Prod.snd h.2.symm⟩

theorem reliablebroadcast_recv {H : Hash} {z : Zfec} {N f : Nat} {leader : Fin N} {input : Text} {p q : Fin N}
    {s s' : RbcState N} {m : RbcMsg} {out : List (Fin N × RbcMsg)}
    (h : (reliablebroadcast H z f leader input).recv p s q m = some (s', out)) :
    s.phase = .loop ∧ s' = (onMsg H z f leader p s q m).1 ∧ out = (onMsg H z f leader p s q m).2 := by
  simp only [reliablebroadcast, Option.ite_none_right_eq_some, Option.some.injEq] at h
  exact ⟨h.1, congrArg Prod.fst h.2.symm, congrArg Prod.snd h.2.symm⟩

/-- **The invariant of `reliablebroadcast` under Byzantine parties.** -/
theorem reliablebroadcast_preserved (H : Hash) (z : Zfec) {N f : Nat} (leader : Fin N) (input : Text)
    {byz : Finset (Fin N)} (hbyz : byz.card ≤ f) :
    Net.Preserved (reliablebroadcast H z f leader input) byz (fun _ _ => True) Grow
      (fun loc _ p => PartyOk H z f leader input byz loc (loc p))
      (fun loc e => MsgOk H z f leader input byz loc e.src e.msg) where
  grow_refl := Grow.refl
  grow_wake := by
    intro p t s s' out h
    obtain ⟨-, rfl, -⟩ := reliablebroadcast_wake h
    exact start_grow p s
  grow_recv := by
    intro p s q m s' out h
    obtain ⟨-, rfl, -⟩ := reliablebroadcast_recv h
    exact onMsg_grow p q m s
  local_mono := by
    intro loc loc' _ _ p hg _ _ hp h
    rw [hp]
    exact h.mono hg
  msg_mono := fun loc loc' e hg h => h.mono hg
  init := fun p _ => init_ok
  wake := by
    intro c p t s out loc' _ hp hL h hloc hg
    obtain ⟨-, rfl, rfl⟩ := reliablebroadcast_wake h
    have hself : loc' p = (start H z f leader input p (c.loc p)).1 := by rw [hloc, Function.update_self]
    rw [hself]
    exact start_ok ((hL p hp).mono hg) hself
  recv := by
    intro c e s out loc' _ hp hL hW h hloc hg
    obtain ⟨hloop, rfl, rfl⟩ := reliablebroadcast_recv h
    have hself : loc' e.dst = (onMsg H z f leader e.dst (c.loc e.dst) e.src e.msg).1 := by
      rw [hloc, Function.update_self]
    rw [hself]
    exact onMsg_ok ((hL e.dst hp).mono hg) hloop hbyz (fun hsrc => (hW hsrc).mono hg) hself

/-- **In every reachable state every good party satisfies its invariant.** -/
theorem reliablebroadcast_ok {H : Hash} {z : Zfec} {N f : Nat} {leader : Fin N} {input : Text} {byz : Finset (Fin N)}
    (hbyz : byz.card ≤ f) {c : Net.Conf (Fin N) (RbcState N) RbcMsg}
    (hc : Net.Reachable (reliablebroadcast H z f leader input) byz c) :
    ∀ p ∉ byz, PartyOk H z f leader input byz c.loc (c.loc p) :=
  ((reliablebroadcast_preserved H z leader input hbyz).run hc).loc

end Dpid
