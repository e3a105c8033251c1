import Dpid.Add
import Dpid.Quorum
/-!
# AddSafety — what `add` returns

While no channel is counted twice, an honest party forwards its own stripe only (`f + 1` channels sent it, one of them
good), so of the `2 f + 1` entries that agree with the re-encoded value all but those of bad channels are stripes of the
common input at their places.  Two codewords that agree in `N - 2 f` places have one message, which settles the value
when `N + |byz| ≤ 4 f + 1`; for `N ≥ 4 f + 2` the first decoding has too few stripes and raises
(`add_safety`).
-/
namespace Dpid
namespace Dissem

variable {H : Hash} {z : Zfec} {N f : Nat} {m : Text} {byz : Finset (Fin N)}

/-- The stripe of party `i`. -/
def stripeOf (z : Zfec) (f : Nat) (m : Text) (i : Fin N) : Bytes :=
  match encode z (N - 2 * f) N m with
  | .ok stripes => stripes.getD i []
  | .error _    => []

section Statements

variable (H : Hash) (z : Zfec) (f : Nat) (m : Text) (byz : Finset (Fin N)) (loc : Fin N → AddState N)

/-- `v` hashes to the stripe of `j`, which has hashed both. -/
def OwnStripe (j : Fin N) (v : Bytes) : Prop :=
  H v = H (stripeOf z f m j) ∧ v ∈ (loc j).hashed ∧ stripeOf z f m j ∈ (loc j).hashed

/-- The invariant of a message from a good party. -/
def MsgOk (e : Net.Envelope (Fin N) AddMsg) : Prop :=
  match e.msg with
  | .addVal _ value       => value = stripeOf z f m e.dst
  | .reconst sender value => sender = .int (e.src : Nat) ∧ OwnStripe H z f m loc e.src value

/-- The invariant of party `p` in state `s`. -/
structure PartyOk (p : Fin N) (s : AddState N) : Prop where
  encoded : s.phase = .loop → ∃ stripes, encode z (N - 2 * f) N m = .ok stripes
  disp_card : ∀ h, (s.dispCounter h).card ≤ (s.dispFrom h).card
  disp_good : ∀ h, ∀ i ∈ s.dispFrom h, i ∉ byz → h = H (stripeOf z f m p) ∧ stripeOf z f m p ∈ s.hashed
  check_nodup : (s.reconstCheck.map Share.channel).Nodup
  check_good : ∀ x ∈ s.reconstCheck, x.channel ∉ byz → x.sender = (x.channel : Nat) ∧
    ∃ v, x.hash = H v ∧ v ∈ s.hashed ∧ OwnStripe H z f m loc x.channel v
  slots : s.reconstCounter.length = N ∧ s.reconstCounter.countP Option.isSome ≤ s.count
  few : 4 * f + 2 ≤ N → s.phase = .input ∨ s.phase = .loop → s.count ≤ 2 * f
  returned : ∀ m', s.phase = .returned m' → N < 4 * f + 2 ∧ (∃ stripes, encode z (N - 2 * f) N m = .ok stripes) ∧
    ∃ share, encode z (N - 2 * f) N (.bytes m') = .ok share ∧ tally H f share s.reconstCheck 0 = .ok true ∧
      ∀ x ∈ tallyHashed H f share s.reconstCheck 0, x ∈ s.hashed

end Statements

/-- A value that will be counted comes on a channel none was counted from, for its hash if an `ADD_VAL`. -/
def OneShare (H : Hash) (c : Net.Conf (Fin N) (AddState N) AddMsg) : Net.Label (Fin N) Unit AddMsg → Prop
  | .recv ⟨src, dst, .addVal sender value⟩    => sender.str ∉ (c.loc dst).dispSenders → src ∉ (c.loc dst).dispFrom (H value)
  | .recv ⟨src, dst, .reconst (.int i) _⟩     => i ∉ (c.loc dst).reconstSenders → src ∉ (c.loc dst).reconstCheck.map Share.channel
  | .recv ⟨_, _, .reconst (.text _) _⟩       => True
  | .wake _ _                                 => True
  | .inject _                                 => True

instance (H : Hash) (c : Net.Conf (Fin N) (AddState N) AddMsg) : DecidablePred (OneShare H c)
  | .recv ⟨_, _, .addVal _ _⟩          => inferInstanceAs (Decidable (_ → _))
  | .recv ⟨_, _, .reconst (.int _) _⟩  => inferInstanceAs (Decidable (_ → _))
  | .recv ⟨_, _, .reconst (.text _) _⟩ => isTrue trivial
  | .wake _ _                          => isTrue trivial
  | .inject _                          => isTrue trivial

/-! ## The tally -/

/-- **A tally that succeeds rests on `2 f + 1` entries whose hash is that of the share at their index.** -/
theorem tally_eq_true {share : List Bytes} : ∀ (l : List (Share N)) (counter : Nat), counter ≤ 2 * f →
    tally H f share l counter = .ok true → ∃ good : List (Share N), good.Sublist l ∧ 2 * f + 1 ≤ counter + good.length ∧
      ∀ x ∈ good, ∃ k, pyIndex share.length x.sender = .ok k ∧ H (share.getD k []) = x.hash ∧
        share.getD k [] ∈ tallyHashed H f share l counter
  | [], counter, _, h        => by simp [tally] at h
  | x :: rest, counter, hc, h => by
    cases hk : pyIndex share.length x.sender with
    | error e => simp [tally, hk, bind, Except.bind] at h
    | ok k =>
      simp only [tally, hk, bind, Except.bind] at h
      simp only [tallyHashed, hk]
      generalize hcounter : (if H (share.getD k []) = x.hash then counter + 1 else counter) = counter' at h ⊢
      have htail : ∃ good : List (Share N), good.Sublist rest ∧ 2 * f + 1 ≤ counter' + good.length ∧
          ∀ y ∈ good, ∃ k', pyIndex share.length y.sender = .ok k' ∧ H (share.getD k' []) = y.hash ∧
            share.getD k' [] ∈ share.getD k [] :: if 2 * f + 1 ≤ counter' then [] else tallyHashed H f share rest counter' := by
        by_cases hf : 2 * f + 1 ≤ counter'
        · exact ⟨[], List.nil_sublist _, by simpa using hf, fun y hy => absurd hy List.not_mem_nil⟩
        · rw [if_neg hf] at h ⊢
          obtain ⟨good, hsub, hlen, hgood⟩ := tally_eq_true rest counter' (by omega) h
          refine ⟨good, hsub, hlen, fun y hy => ?_⟩
          obtain ⟨k', h1, h2, h3⟩ := hgood y hy
          exact ⟨k', h1, h2, List.mem_cons_of_mem _ h3⟩
      obtain ⟨good, hsub, hlen, hgood⟩ := htail
      by_cases heq : H (share.getD k []) = x.hash
      · rw [if_pos heq] at hcounter
        refine ⟨x :: good, hsub.cons_cons x, by rw [List.length_cons]; omega, fun y hy => ?_⟩
        rcases List.mem_cons.1 hy with rfl | hy
        · exact ⟨k, hk, heq, List.mem_cons_self⟩
        · exact hgood y hy
      · rw [if_neg heq] at hcounter
        exact ⟨good, hsub.cons x, by omega, hgood⟩

/-! ## The steps -/

section Party

variable {loc loc' : Fin N → AddState N} {p : Fin N} {s : AddState N}

theorem PartyOk.mono (hg : ∀ q, ∀ x ∈ (loc q).hashed, x ∈ (loc' q).hashed) (h : PartyOk H z f m byz loc p s) :
    PartyOk H z f m byz loc' p s where
  encoded     := h.encoded
  disp_card   := h.disp_card
  disp_good   := h.disp_good
  check_nodup := h.check_nodup
  check_good  := fun x hx hb => by
    obtain ⟨hs, v, hv, hm, ho⟩ := h.check_good x hx hb
    exact ⟨hs, v, hv, hm, ho.1, hg _ _ ho.2.1, hg _ _ ho.2.2⟩
  slots       := h.slots
  few         := h.few
  returned    := h.returned

theorem MsgOk.mono (hg : ∀ q, ∀ x ∈ (loc q).hashed, x ∈ (loc' q).hashed) {e : Net.Envelope (Fin N) AddMsg}
    (h : MsgOk H z f m loc e) : MsgOk H z f m loc' e := by
  obtain ⟨src, dst, msg⟩ := e
  cases msg with
  | addVal sender value  => exact h
  | reconst sender value => exact ⟨h.1, h.2.1, hg _ _ h.2.2.1, hg _ _ h.2.2.2⟩

theorem init_ok : PartyOk H z f m byz loc p (init (N := N)) where
  encoded     := nofun
  disp_card   := fun _ => le_rfl
  disp_good   := fun h i hi => absurd hi (Finset.notMem_empty i)
  check_nodup := List.nodup_nil
  check_good  := fun x hx => absurd hx List.not_mem_nil
  slots       := ⟨List.length_replicate, by simp [init, List.countP_replicate]⟩
  few         := fun _ _ => Nat.zero_le _
  returned    := nofun

theorem start_ok {pid : Fin N} (h : PartyOk H z f m byz loc p s) (hp : s.phase = .input) :
    PartyOk H z f m byz loc p (start z f m pid s).1 ∧
      ∀ o ∈ (start z f m pid s).2, MsgOk H z f m loc ⟨pid, o.1, o.2⟩ := by
  unfold start
  cases hS : encode z (N - 2 * f) N m with
  | error e =>
    exact ⟨⟨nofun, h.disp_card, h.disp_good, h.check_nodup, h.check_good, h.slots, fun _ h' => by simp at h',
      nofun⟩, fun o ho => absurd ho List.not_mem_nil⟩
  | ok stripes =>
    refine ⟨⟨fun _ => ⟨stripes, hS⟩, h.disp_card, h.disp_good, h.check_nodup, h.check_good, h.slots,
      fun h4 _ => h.few h4 (Or.inl hp), nofun⟩, fun o ho => ?_⟩
    obtain ⟨i, -, rfl⟩ := List.mem_map.1 ho
    show stripes.getD i [] = stripeOf z f m i
    rw [stripeOf, hS]

theorem addDisp_ok {target : Fin N} (sender : String) {value : Bytes} (h : PartyOk H z f m byz loc p s)
    (hone : target ∉ s.dispFrom (H value)) (hm : target ∉ byz → value = stripeOf z f m p) (hp : s.phase = .loop) :
    PartyOk H z f m byz loc p (addDisp H target sender value s) where
  encoded     := h.encoded
  disp_card   := fun k => by
    simp only [addDisp]
    by_cases hk : k = H value
    · subst hk
      rw [Function.update_self, Function.update_self, Finset.card_insert_of_notMem hone]
      exact (Finset.card_insert_le _ _).trans (Nat.succ_le_succ (h.disp_card _))
    · rw [Function.update_of_ne hk, Function.update_of_ne hk]
      exact h.disp_card k
  disp_good   := fun k i hi hb => by
    simp only [addDisp] at hi ⊢
    by_cases hk : k = H value
    · subst hk
      rw [Function.update_self] at hi
      rcases Finset.mem_insert.1 hi with rfl | hi
      · rw [← hm hb]
        exact ⟨rfl, List.mem_cons_self⟩
      · exact ⟨(h.disp_good _ i hi hb).1, List.mem_cons_of_mem _ (h.disp_good _ i hi hb).2⟩
    · rw [Function.update_of_ne hk] at hi
      exact ⟨(h.disp_good k i hi hb).1, List.mem_cons_of_mem _ (h.disp_good k i hi hb).2⟩
  check_nodup := h.check_nodup
  check_good  := fun x hx hb => by
    obtain ⟨hs, v, hv, hv', ho⟩ := h.check_good x hx hb
    exact ⟨hs, v, hv, List.mem_cons_of_mem _ hv', ho⟩
  slots       := h.slots
  few         := h.few
  returned    := fun m' hr => by
    rw [show (addDisp H target sender value s).phase = s.phase from rfl, hp] at hr
    cases hr

/-- **An `ADD_VAL`**: what is forwarded hashes to the party's own stripe. -/
theorem onAddVal_ok {pid target : Fin N} {sender : PyId} {value : Bytes} (h : PartyOk H z f m byz loc pid s)
    (hp : s.phase = .loop) (hbyz : byz.card ≤ f) (hone : sender.str ∉ s.dispSenders → target ∉ s.dispFrom (H value))
    (hm : target ∉ byz → value = stripeOf z f m pid) (hself : loc pid = (onAddVal H f pid target sender value s).1) :
    PartyOk H z f m byz loc pid (onAddVal H f pid target sender value s).1 ∧
      ∀ o ∈ (onAddVal H f pid target sender value s).2, MsgOk H z f m loc ⟨pid, o.1, o.2⟩ := by
  revert hself
  unfold onAddVal
  split
  · exact fun _ => ⟨h, fun o ho => absurd ho List.not_mem_nil⟩
  · rename_i hnew
    have hadd := addDisp_ok sender.str h (hone hnew) hm hp
    simp only
    split
    · rename_i hc
      intro hself
      refine ⟨⟨hadd.encoded, hadd.disp_card, hadd.disp_good, hadd.check_nodup, hadd.check_good, hadd.slots, hadd.few,
        hadd.returned⟩, fun o ho => ?_⟩
      obtain ⟨i, -, rfl⟩ := List.mem_map.1 ho
      -- one of the `f + 1` channels is good, and its value was the stripe
      obtain ⟨j, hj, hgood⟩ := Quorum.exists_good
        (show byz.card < ((addDisp H target sender.str value s).dispFrom (H value)).card from
          Nat.lt_of_lt_of_le (by omega) (hadd.disp_card _))
      obtain ⟨hH, hmem⟩ := hadd.disp_good _ j hj hgood
      refine ⟨rfl, hH, ?_, ?_⟩
      · rw [hself]; exact List.mem_cons_self
      · rw [hself]; exact hmem
    · exact fun _ => ⟨hadd, fun o ho => absurd ho List.not_mem_nil⟩

theorem countP_set_le (l : List (Option Bytes)) (k : Nat) (v : Bytes) :
    (l.set k (some v)).countP Option.isSome ≤ l.countP Option.isSome + 1 := by
  induction l generalizing k with
  | nil => simp
  | cons a l ih =>
    cases k with
    | zero   => cases a <;> simp
    | succ k =>
      have := ih k
      rw [List.set_cons_succ, List.countP_cons, List.countP_cons]
      omega

/-- Decoding goes on or succeeds only with `N - 2 f` stripes. -/
theorem reconstruct_le (hN : 3 * f + 1 ≤ N) {c : Nat} (hc : s.reconstCounter.countP Option.isSome ≤ c)
    (h : (reconstruct H z f s).1 = .loop ∨ ∃ m', (reconstruct H z f s).1 = .returned m') : N - 2 * f ≤ c := by
  unfold reconstruct at h
  cases hd : decode z (N - 2 * f) N s.reconstCounter with
  | error e => simp [hd] at h
  | ok m'   => exact (le_countP_of_decode (by omega) hd).trans hc

theorem reconstruct_ne_input : (reconstruct H z f s).1 ≠ .input := by
  unfold reconstruct
  split
  · exact nofun
  · split
    · exact nofun
    · split
      · exact nofun
      · exact nofun
      · split <;> exact nofun

theorem reconstruct_returned {m' : Bytes} (h : (reconstruct H z f s).1 = .returned m') :
    ∃ share, encode z (N - 2 * f) N (.bytes m') = .ok share ∧ tally H f share s.reconstCheck 0 = .ok true ∧
      (reconstruct H z f s).2 = tallyHashed H f share s.reconstCheck 0 := by
  unfold reconstruct at h ⊢
  cases hd : decode z (N - 2 * f) N s.reconstCounter with
  | error e => simp [hd] at h
  | ok m'' =>
    simp only [hd] at h
    cases hS : encode z (N - 2 * f) N (.bytes m'') with
    | error e => simp [hS] at h
    | ok share =>
      simp only [hS] at h ⊢
      cases ht : tally H f share s.reconstCheck 0 with
      | error e => simp [ht] at h
      | ok b =>
        cases b with
        | false => simp only [ht] at h; split at h <;> cases h
        | true =>
          simp only [ht] at h
          cases h
          exact ⟨share, hS, ht, by simp⟩

/-- **A `RECONST`**: the entry stands for its channel, and a value is returned only when the first decoding can work. -/
theorem onReconst_ok {target : Fin N} {sender : PyId} {value : Bytes} (h : PartyOk H z f m byz loc p s)
    (hp : s.phase = .loop) (hN : 3 * f + 1 ≤ N)
    (hone : ∀ i, sender = .int i → i ∉ s.reconstSenders → target ∉ s.reconstCheck.map Share.channel)
    (hm : target ∉ byz → sender = .int (target : Nat) ∧ OwnStripe H z f m loc target value) :
    PartyOk H z f m byz loc p (onReconst H z f target sender value s) := by
  have hraised : ∀ e, PartyOk H z f m byz loc p { s with phase := .raised e } := fun e =>
    ⟨nofun, h.disp_card, h.disp_good, h.check_nodup, h.check_good, h.slots, fun _ h' => by simp at h', nofun⟩
  cases sender with
  | text t => exact hraised _
  | int i =>
    rw [onReconst]
    split
    · exact h
    · rename_i hnew
      cases hk : pyIndex s.reconstCounter.length i with
      | error e => exact hraised e
      | ok k =>
        have hx : ∀ x ∈ s.hashed, x ∈ (addShare H target i k value s).hashed := fun x hx => List.mem_cons_of_mem _ hx
        have hnodup : ((addShare H target i k value s).reconstCheck.map Share.channel).Nodup := by
          simp only [addShare, List.map_append, List.map_cons, List.map_nil]
          exact List.nodup_append_comm.1 (List.nodup_cons.2 ⟨hone i rfl hnew, h.check_nodup⟩)
        have hcheck : ∀ x ∈ (addShare H target i k value s).reconstCheck, x.channel ∉ byz → x.sender = (x.channel : Nat) ∧
            ∃ v, x.hash = H v ∧ v ∈ (addShare H target i k value s).hashed ∧ OwnStripe H z f m loc x.channel v := by
          intro x hx' hb
          rcases List.mem_append.1 hx' with hx' | hx'
          · obtain ⟨hs, v, hv, hmem, ho⟩ := h.check_good x hx' hb
            exact ⟨hs, v, hv, hx v hmem, ho⟩
          · obtain rfl := List.mem_singleton.1 hx'
            obtain ⟨hi, ho⟩ := hm hb
            exact ⟨PyId.int.inj hi, value, rfl, List.mem_cons_self, ho⟩
        have hslots : (addShare H target i k value s).reconstCounter.length = N ∧
            (addShare H target i k value s).reconstCounter.countP Option.isSome ≤ (addShare H target i k value s).count :=
          ⟨List.length_set.trans h.slots.1, (countP_set_le _ _ _).trans (Nat.succ_le_succ h.slots.2)⟩
        have hdisp : ∀ g, ∀ j ∈ s.dispFrom g, j ∉ byz → g = H (stripeOf z f m p) ∧
            stripeOf z f m p ∈ (addShare H target i k value s).hashed := fun g j hj hb =>
          ⟨(h.disp_good g j hj hb).1, hx _ (h.disp_good g j hj hb).2⟩
        simp only
        split
        · rename_i hc
          have hcount : 4 * f + 2 ≤ N → (addShare H target i k value s).count ≤ 2 * f + 1 := fun h4 =>
            Nat.succ_le_succ (h.few h4 (Or.inr hp))
          refine ⟨fun _ => h.encoded hp, h.disp_card, fun g j hj hb => ?_, hnodup, fun x hx' hb => ?_, hslots,
            fun h4 hphase => ?_, fun m' hr => ?_⟩
          · exact ⟨(hdisp g j hj hb).1, List.mem_append_right _ (hdisp g j hj hb).2⟩
          · obtain ⟨hs, v, hv, hmem, ho⟩ := hcheck x hx' hb
            exact ⟨hs, v, hv, List.mem_append_right _ hmem, ho⟩
          · have hle := reconstruct_le hN hslots.2 (hphase.elim (fun hin => absurd hin reconstruct_ne_input) Or.inl)
            have := hcount h4
            omega
          · have hle := reconstruct_le hN hslots.2 (Or.inr ⟨m', hr⟩)
            refine ⟨by by_contra h4; have := hcount (by omega); omega, h.encoded hp, ?_⟩
            obtain ⟨share, hS, ht, hh⟩ := reconstruct_returned hr
            exact ⟨share, hS, ht, fun x hx' => List.mem_append_left _ (hh ▸ hx')⟩
        · rename_i hc
          exact ⟨h.encoded, h.disp_card, hdisp, hnodup, hcheck, hslots, fun _ _ => by omega, fun m' hr => by
            rw [show (addShare H target i k value s).phase = s.phase from rfl, hp] at hr
            cases hr⟩

end Party

/-! ## Runs -/

theorem onMsg_hashed (pid target : Fin N) (msg : AddMsg) (s : AddState N) :
    ∀ x ∈ s.hashed, x ∈ (onMsg H z f pid s target msg).1.hashed := by
  intro x hx
  cases msg with
  | addVal sender value =>
    rw [onMsg, onAddVal]
    split
    · exact hx
    · simp only
      split <;> exact List.mem_cons_of_mem _ hx
  | reconst sender value =>
    show x ∈ (onReconst H z f target sender value s).hashed
    unfold onReconst
    split
    · exact hx
    · split
      · exact hx
      · split
        · exact hx
        · simp only
          split
          · exact List.mem_append_right _ (List.mem_cons_of_mem _ hx)
          · exact List.mem_cons_of_mem _ hx

theorem add_wake {p : Fin N} {t : Unit} {s s' : AddState N} {out : List (Fin N × AddMsg)}
    (h : (add H z f m).wake p t s = some (s', out)) :
    s.phase = .input ∧ s' = (start z f m p s).1 ∧ out = (start z f m p s).2 := by
  simp only [add, Option.ite_none_right_eq_some, Option.some.injEq] at h
  exact ⟨h.1, congrArg Prod.fst h.2.symm, congrArg Prod.snd h.2.symm⟩

theorem add_recv {p q : Fin N} {s s' : AddState N} {msg : AddMsg} {out : List (Fin N × AddMsg)}
    (h : (add H z f m).recv p s q msg = some (s', out)) :
    s.phase = .loop ∧ s' = (onMsg H z f p s q msg).1 ∧ out = (onMsg H z f p s q msg).2 := by
  simp only [add, Option.ite_none_right_eq_some, Option.some.injEq] at h
  exact ⟨h.1, congrArg Prod.fst h.2.symm, congrArg Prod.snd h.2.symm⟩

/-- **The invariant of `add`** while no channel is counted twice. -/
theorem add_preserved (H : Hash) (z : Zfec) (m : Text) (hN : 3 * f + 1 ≤ N) (hbyz : byz.card ≤ f) :
    Net.Preserved (add H z f m) byz (OneShare H) (fun s s' => ∀ x ∈ s.hashed, x ∈ s'.hashed)
      (fun loc _ p => PartyOk H z f m byz loc p (loc p)) (fun loc e => MsgOk H z f m loc e) where
  grow_refl := fun _ _ hx => hx
  grow_wake := by
    intro p t s s' out h
    obtain ⟨-, rfl, -⟩ := add_wake h
    unfold start
    split <;> exact fun _ hx => hx
  grow_recv := by
    intro p s q msg s' out h
    obtain ⟨-, rfl, -⟩ := add_recv h
    exact onMsg_hashed p q msg s
  local_mono := by
    intro loc loc' _ _ p hg _ _ hp h
    rw [hp]
    exact h.mono hg
  msg_mono := fun loc loc' e hg h => h.mono hg
  init := fun p _ => init_ok
  wake := by
    intro c p t s out loc' _ hp hL h hloc hg
    obtain ⟨hin, rfl, rfl⟩ := add_wake h
    rw [hloc, Function.update_self, ← hloc]
    exact start_ok ((hL p hp).mono hg) hin
  recv := by
    intro c e s out loc' hok hp hL hW h hloc hg
    obtain ⟨hloop, rfl, rfl⟩ := add_recv h
    have hself : loc' e.dst = (onMsg H z f e.dst (c.loc e.dst) e.src e.msg).1 := by rw [hloc, Function.update_self]
    have hpre := (hL e.dst hp).mono hg
    have hmsg : e.src ∉ byz → MsgOk H z f m loc' e := fun hb => (hW hb).mono hg
    rw [hself]
    obtain ⟨src, dst, msg⟩ := e
    cases msg with
    | addVal sender value => exact onAddVal_ok hpre hloop hbyz hok hmsg hself
    | reconst sender value =>
      refine ⟨onReconst_ok hpre hloop hN (fun i hi => ?_) hmsg, fun o ho => absurd ho List.not_mem_nil⟩
      subst hi
      exact hok

end Dissem

open Dissem

section Safety

variable {H : Hash} {z : Zfec} {N f : Nat} {m : Text} {byz : Finset (Fin N)} {c : Net.Conf (Fin N) (AddState N) AddMsg}

/-- **A value returned is the common input**, while no channel is counted twice and `N + |byz| ≤ 4 f + 1` or
`4 f + 2 ≤ N`. -/
theorem add_safety (hN : 3 * f + 1 ≤ N) (hz : z.IsMds (N - 2 * f) N) (hbyz : byz.card ≤ f)
    (hcount : N + byz.card ≤ 4 * f + 1 ∨ 4 * f + 2 ≤ N) (hc : Net.Run (add H z f m) byz (OneShare H) c)
    (hH : Set.InjOn H (hashedInRun byz (fun p => (c.loc p).hashed))) {p : Fin N} (hp : p ∉ byz) {m' : Bytes}
    (hm' : (c.loc p).phase = .returned m') : m' = m.encode := by
  have hok := ((add_preserved H z m hN hbyz).run hc).loc p hp
  obtain ⟨hlt, ⟨S, hS⟩, share, hshare, ht, hhashed⟩ := hok.returned m' hm'
  obtain ⟨good, hsub, hlen, hgood⟩ := tally_eq_true _ 0 (Nat.zero_le _) ht
  have hmem : ∀ x ∈ (c.loc p).hashed, x ∈ hashedInRun byz (fun p => (c.loc p).hashed) := fun x hx => ⟨p, hp, hx⟩
  -- the channels of the entries that agree are distinct, and those of good parties hold the stripes of `m`
  have hnodup : (good.map Share.channel).Nodup := hok.check_nodup.sublist (hsub.map _)
  have hagree : ∀ j ∈ (good.map Share.channel).toFinset.filter (· ∉ byz), share.getD j [] = S.getD j [] := by
    intro j hj
    obtain ⟨hj, hb⟩ := Finset.mem_filter.1 hj
    obtain ⟨x, hx, rfl⟩ := List.mem_map.1 (List.mem_toFinset.1 hj)
    obtain ⟨k, hk, hhash, hk'⟩ := hgood x hx
    obtain ⟨hsender, v, hv, hvm, hown⟩ := hok.check_good x (hsub.subset hx) hb
    rw [hsender, pyIndex_natCast (by rw [encode_length hz hshare]; exact x.channel.isLt)] at hk
    cases hk
    have hv' : share.getD x.channel [] = v := hH (hmem _ (hhashed _ hk')) (hmem _ hvm) (hhash.trans hv)
    have hown' : v = stripeOf z f m x.channel := hH ⟨_, hb, hown.2.1⟩ ⟨_, hb, hown.2.2⟩ hown.1
    rw [hv', hown', stripeOf, hS]
  have hcard : N - 2 * f ≤ ((good.map Share.channel).toFinset.filter (· ∉ byz)).card := by
    have hle := Quorum.card_le_good_add byz (good.map Share.channel).toFinset
    rw [List.toFinset_card_of_nodup hnodup, List.length_map] at hle
    omega
  have hbound := ((encode_eq_ok _ _ _ _ _).1 hS).1
  have heq := unpad_eq_of_agree hz hshare hS hcard hagree
  rw [unpad_blocks _ hbound.1 (by omega), unpad_blocks _ hbound.1 (by omega)] at heq
  exact Except.ok.inj heq

/-- Party 3 is silent and the others add the empty message; party 0 returns it. -/
theorem add_safety_four : ∃ c m', Net.Reachable (add sha256 reedSolomonEq 1 (.bytes [])) {3} c ∧
    (c.loc (0 : Fin 4)).phase = .returned m' ∧ m' = [] := by
  have hrun : (Net.exec (add sha256 reedSolomonEq 1 (.bytes [])) {3} (fun c l => decide (OneShare sha256 c l))
      ([.wake 0 (), .wake 1 (), .wake 2 ()] ++ [0, 0, 0, 1, 0, 0, 0, 2, 0, 0, 0, 3, 0, 0, 0].map .recv)
      (add sha256 reedSolomonEq 1 (.bytes [])).start).any (fun c => decide ((c.loc (0 : Fin 4)).phase = .returned [] ∧
        ∀ p ∈ [0, 1, 2], ∀ x ∈ (c.loc p).hashed, x = [0])) = true := by
    decide +kernel
  obtain ⟨c, hrun', hret⟩ := Net.exists_run_of_exec hrun (fun c l => of_decide_eq_true)
  obtain ⟨hret, hone⟩ := of_decide_eq_true hret
  have hgood : ∀ p : Fin 4, p ∉ ({3} : Finset (Fin 4)) → p ∈ [0, 1, 2] := by decide
  refine ⟨c, [], hrun'.reachable, hret, ?_⟩
  refine add_safety (by decide) (reedSolomonEq_isMds (by decide) (by decide) (by decide)) (by decide)
    (Or.inl (by decide)) hrun' ?_ (by decide) hret
  rintro x ⟨p, hp, hx⟩ y ⟨q, hq, hy⟩ _
  rw [hone p (hgood p hp) x hx, hone q (hgood q hq) y hy]

/-- Party 3 alone sends three `RECONST`s, as 0, 1 and 2, with the stripes of another message; party 0 returns that. -/
theorem add_safety_counterexample : ¬ ∀ c, Net.Reachable (add sha256 reedSolomonEq 1 (.bytes [])) {3} c →
    Set.InjOn sha256 (hashedInRun {3} (fun p => (c.loc p).hashed)) →
    ∀ p ∉ ({3} : Finset (Fin 4)), ∀ m', (c.loc p).phase = .returned m' → m' = [] := by
  intro h
  have hrun : (Net.exec (add sha256 reedSolomonEq 1 (.bytes [])) {3} (fun _ _ => true)
      [.wake 0 (), .inject ⟨3, 0, .reconst (.int 0) [1]⟩, .inject ⟨3, 0, .reconst (.int 1) [1]⟩,
        .inject ⟨3, 0, .reconst (.int 2) [1]⟩, .recv 0, .recv 0, .recv 0]
      (add sha256 reedSolomonEq 1 (.bytes [])).start).any (fun c => decide ((c.loc (0 : Fin 4)).phase = .returned [1] ∧
        ∀ p ∈ [0, 1, 2], ∀ x ∈ (c.loc p).hashed, x = [1])) = true := by
    decide +kernel
  obtain ⟨c, hc, hret⟩ := Net.exists_run_of_exec hrun (fun _ _ _ => trivial)
  obtain ⟨hret, hone⟩ := of_decide_eq_true hret
  have hgood : ∀ p : Fin 4, p ∉ ({3} : Finset (Fin 4)) → p ∈ [0, 1, 2] := by decide
  have hinj : Set.InjOn sha256 (hashedInRun {3} (fun p => (c.loc p).hashed)) := by
    rintro x ⟨p, hp, hx⟩ y ⟨q, hq, hy⟩ _
    rw [hone p (hgood p hp) x hx, hone q (hgood q hq) y hy]
  have := h c hc hinj 0 (by decide) [1] hret
  cases this

end Safety

end Dpid
