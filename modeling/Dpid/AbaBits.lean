import Dpid.AbaAgree
import Dpid.AbaRecv
import Dpid.NetByz
import Mathlib
/-!
# AbaBits — `binaryagreement` on bits

While the coin returns bits and the messages of Byzantine parties are ones the receive loop takes, no honest party
raises and every value it sends is a bit, over all rounds (`binaryagreement_bits`).  The messages of honest parties are
taken too: a party sends one `AUX` and one `CONF` a round, so that none is recorded before it comes.
-/
namespace Dpid
namespace Aba

variable {N f : Nat} {byz : Finset (Fin N)} {p q : Fin N} {s s' : AbaState N} {out : List (Fin N × AbaMsg)}
  {hist hist' : List (Net.Envelope (Fin N) AbaMsg)} {coin : Fin N → Nat → PyVal}

/-- The coin returns a bit, and a message taken from a Byzantine party is accepted. -/
def OnBits (byz : Finset (Fin N)) (coin : Fin N → Nat → PyVal) (loc : Fin N → AbaState N) :
    Net.Label (Fin N) Unit AbaMsg → Prop
  | .wake p _ => ∀ r V, (loc p).phase = .coin r V → ∃ b, IsBit (coin p r) b
  | .recv e   => e.src ∈ byz → Accepted e.src e.msg (loc e.dst)
  | .inject _ => True

/-- The same, of every message. -/
def Smooth (coin : Fin N → Nat → PyVal) (loc : Fin N → AbaState N) : Net.Label (Fin N) Unit AbaMsg → Prop
  | .wake p _ => ∀ r V, (loc p).phase = .coin r V → ∃ b, IsBit (coin p r) b
  | .recv e   => Accepted e.src e.msg (loc e.dst)
  | .inject _ => True

/-- A message as honest parties send it. -/
def WellFormed (msg : AbaMsg) : Prop :=
  match msg.tag with
  | .est  => msg.r.hashable = true ∧ ∃ b, IsBit msg.v b
  | .aux  => ∃ n b, msg.r = .ofNat n ∧ msg.v = .ofBit b
  | .conf => ∃ n C, C ≠ ∅ ∧ msg.r = .ofNat n ∧ msg.v = toTuple C

/-- The invariant of party `p` in state `s`. -/
structure BitsOk (hist : List (Net.Envelope (Fin N) AbaMsg)) (p : Fin N) (s : AbaState N) : Prop where
  main : ∀ e, s.phase ≠ .raised e
  recv : ∀ e, s.recv ≠ .raised e
  bins : ∀ r, s.phase = .aux r → s.binValues (.ofNat r) ≠ ∅
  coins : ∀ x ∈ s.coins, ∃ b, IsBit x.2 b
  auxTaken : ∀ k b, ∀ q ∈ s.auxValues k b, ∃ e ∈ hist, e.src = q ∧ e.dst = p ∧ e.msg.tag = .aux ∧ e.msg.r.key = k
  confTaken : ∀ k C, ∀ q ∈ s.confValues k C, ∃ e ∈ hist, e.src = q ∧ e.dst = p ∧ e.msg.tag = .conf ∧ e.msg.r.key = k

/-! ## Counting `AUX` and `CONF` -/

theorem countP_broadcast (msg : AbaMsg) (q : Fin N) (kind : AbaMsg → Bool) :
    (broadcast msg).countP (fun o : Fin N × AbaMsg => decide (o.1 = q ∧ kind o.2 = true)) =
      if kind msg then 1 else 0 := by
  rw [broadcast, List.countP_map]
  cases hk : kind msg with
  | false => simp [Function.comp_def, hk]
  | true =>
    have hcount := (List.nodup_finRange N).count (a := q)
    rw [if_pos (List.mem_finRange q)] at hcount
    simpa [Function.comp_def, hk, List.count, beq_eq_decide] using hcount

/-- The rounds of what was sent. -/
def rounds (tag : AbaTag) (s : AbaState N) : List Nat :=
  match tag with
  | .est  => []
  | .aux  => s.auxs.map Prod.fst
  | .conf => s.confs.map Prod.fst

/-- The messages of a tag for round `n`. -/
def ofRound (tag : AbaTag) (n : Nat) (msg : AbaMsg) : Bool := decide (msg.tag = tag ∧ msg.r.key = .ofNat n)

theorem count_add_ofRound {tag : AbaTag} {msg : AbaMsg} {r : Nat} (l : List Nat) (n : Nat) (htag : msg.tag = tag)
    (hr : msg.r = .ofNat r) : l.count n + (if ofRound tag n msg then 1 else 0) = (r :: l).count n := by
  by_cases hrn : r = n
  · subst hrn
    simp [ofRound, htag, hr]
  · have hne : PyVal.ofNat r ≠ .ofNat n := fun h => hrn (PyVal.ofNat_inj h)
    simp [ofRound, hr, hne, List.count_cons_of_ne hrn]

theorem startRound_rations {tag : AbaTag} (htag : tag ≠ .est) (n r : Nat) (est : PyVal) (s : AbaState N) (q : Fin N) :
    rounds tag (startRound r est s).1 = rounds tag s ∧
      (startRound r est s).2.countP (fun o => decide (o.1 = q ∧ ofRound tag n o.2 = true)) = 0 := by
  cases hs : est.slot with
  | error e =>
    have hstep : startRound r est s = ({ s with phase := .raised e }, []) := by rw [startRound, hs]
    rw [hstep]
    exact ⟨by cases tag <;> rfl, rfl⟩
  | ok b =>
    rw [startRound_of_slot hs]
    refine ⟨by cases tag <;> rfl, ?_⟩
    simp only
    split
    · rfl
    · rw [countP_broadcast, if_neg]
      simp [ofRound, htag.symm]

/-- **A party sends the `AUX`s and `CONF`s of its history.** -/
theorem rations {tag : AbaTag} (htag : tag ≠ .est) (n : Nat) (input : Fin N → PyVal) :
    Net.Rations (binaryagreement f coin input) (ofRound tag n) (fun s _ => (rounds tag s).count n) where
  wake := by
    intro p t s s' out q h
    cases mainStep_cases h with
    | refuse hp hv => cases tag <;> simp [rounds]
    | enter hp hv =>
      obtain ⟨hrounds, hout⟩ := startRound_rations htag n 0 (input p) s q
      rw [hrounds, hout]
      exact le_rfl
    | @aux r hp hb =>
      rw [countP_broadcast]
      cases tag with
      | est  => exact absurd rfl htag
      | aux  => exact (count_add_ofRound (rounds .aux s) n rfl rfl).le
      | conf => simp [rounds, ofRound]
    | @conf r values hp hv =>
      unfold onAuxExit
      split
      · cases tag <;> simp [rounds]
      · rw [countP_broadcast]
        cases tag with
        | est  => exact absurd rfl htag
        | aux  => simp [rounds, ofRound]
        | conf => exact (count_add_ofRound (rounds .conf s) n rfl rfl).le
    | coin hp hv => cases tag <;> simp [rounds]
    | @next r values est s₁ hp hest =>
      obtain ⟨hrounds, hout⟩ := startRound_rations htag n (r + 1) est s₁ q
      have hs₁ : rounds tag s₁ = rounds tag s := by
        rw [setNewEstimate_frame hest]
        cases tag <;> rfl
      rw [hrounds, hout, hs₁]
      exact le_rfl
    | abandon hp => cases tag <;> simp [rounds]
  recv := by
    intro p s r msg s' out q h
    obtain ⟨-, rfl, rfl⟩ := aba_recv h
    unfold onMsg
    cases hp : process f r msg s with
    | error e => cases tag <;> simp [rounds]
    | ok x =>
      obtain ⟨s', out⟩ := x
      obtain ⟨rfl, rfl⟩ | ⟨hest, b, -, rfl, rfl⟩ | ⟨-, b, -, -, rfl, rfl⟩ | ⟨-, C, -, -, rfl, rfl⟩ := process_cases hp
      · simp
      · have hkind : ofRound tag n msg = false := by simp [ofRound, hest, htag.symm]
        have hrounds : rounds tag (addEst f r msg.r.key b s) = rounds tag s := by cases tag <;> rfl
        simp only [hrounds]
        by_cases hrel : Relays f r msg.r.key b s
        · rw [if_pos hrel, countP_broadcast, hkind]
          simp
        · rw [if_neg hrel]
          simp
      · cases tag <;> simp [rounds]
      · cases tag <;> simp [rounds]

/-! ## Steps -/

theorem toTuple_confKey {C : Finset Bool} (hC : C ≠ ∅) : confKey (toTuple C) = some C := by
  have hall : ∀ C : Finset Bool, C ≠ ∅ → confKey (toTuple C) = some C := by decide
  exact hall C hC

/-- Honest messages are accepted unless they are recorded. -/
theorem WellFormed.accepted {msg : AbaMsg} (h : WellFormed msg)
    (haux : msg.tag = .aux → ∀ b, q ∉ s.auxValues msg.r.key b)
    (hconf : msg.tag = .conf → ∀ C, q ∉ s.confValues msg.r.key C) : Accepted q msg s := by
  obtain ⟨tag, r, v⟩ := msg
  cases tag with
  | est  => exact h
  | aux  =>
    obtain ⟨n, b, rfl, rfl⟩ := h
    exact ⟨rfl, b, Or.inl rfl, haux rfl b⟩
  | conf =>
    obtain ⟨n, C, hC, rfl, rfl⟩ := h
    exact ⟨rfl, C, toTuple_confKey hC, hconf rfl C⟩

theorem BitsOk.startRound (h : BitsOk hist p s) (r : Nat) {est : PyVal} (hest : ∃ b, IsBit est b) :
    BitsOk hist p (startRound r est s).1 ∧ ∀ o ∈ (startRound r est s).2, WellFormed o.2 := by
  obtain ⟨b, hb⟩ := hest
  rw [startRound_of_slot (isBit_iff.1 hb).2]
  refine ⟨⟨by simp, h.recv, by simp, h.coins, h.auxTaken, h.confTaken⟩, fun o ho => ?_⟩
  simp only at ho
  split at ho
  · cases ho
  · obtain ⟨i, msg⟩ := o
    obtain rfl := mem_broadcast.1 ho
    exact ⟨rfl, b, hb⟩

/-- **A step of the main thread.** -/
theorem BitsOk.mainStep {vi : PyVal} {coin : Nat → PyVal} (h : BitsOk hist p s) (hvi : ∃ b, IsBit vi b)
    (hcoin : ∀ r V, s.phase = .coin r V → ∃ b, IsBit (coin r) b) (hs : mainStep f vi coin s = some (s', out)) :
    BitsOk hist p s' ∧ ∀ o ∈ out, WellFormed o.2 := by
  cases mainStep_cases hs with
  | refuse hp hv =>
    obtain ⟨b, hb⟩ := hvi
    rw [bit_of_isBit hb] at hv
    cases hv
  | enter hp hv => exact h.startRound 0 hvi
  | @aux r hp hb =>
    refine ⟨⟨by simp, h.recv, fun r' hr' => ?_, h.coins, h.auxTaken, h.confTaken⟩, fun o ho => ?_⟩
    · obtain rfl : r = r' := by simpa using hr'
      exact hb
    · obtain ⟨i, msg⟩ := o
      obtain rfl := mem_broadcast.1 ho
      exact ⟨r, _, rfl, rfl⟩
  | @conf r values hp hv =>
    unfold onAuxExit
    split
    · exact ⟨⟨by simp, h.recv, by simp, h.coins, h.auxTaken, h.confTaken⟩, by simp⟩
    · refine ⟨⟨by simp, h.recv, by simp, h.coins, h.auxTaken, h.confTaken⟩, fun o ho => ?_⟩
      obtain ⟨i, msg⟩ := o
      obtain rfl := mem_broadcast.1 ho
      exact ⟨r, _, h.bins r hp, rfl, rfl⟩
  | coin hp hv => exact ⟨⟨by simp, h.recv, by simp, h.coins, h.auxTaken, h.confTaken⟩, by simp⟩
  | @next r values est s₁ hp hest =>
    obtain ⟨b, hb⟩ := hcoin r values hp
    have hs₁ : BitsOk hist p s₁ := by
      rw [setNewEstimate_frame hest]
      refine ⟨h.main, h.recv, h.bins, fun x hx => ?_, h.auxTaken, h.confTaken⟩
      rcases List.mem_cons.1 hx with rfl | hx
      · exact ⟨b, hb⟩
      · exact h.coins x hx
    refine hs₁.startRound (r + 1) ?_
    obtain ⟨-, rfl, -⟩ | ⟨-, rfl, -⟩ := setNewEstimate_some hest
    · exact ⟨b, hb⟩
    · exact ⟨first values, Or.inl rfl⟩
  | @abandon r values hp =>
    obtain ⟨b, hb⟩ := hcoin r values hp
    refine ⟨⟨by simp, by simp, by simp, fun x hx => ?_, h.auxTaken, h.confTaken⟩, by simp⟩
    rcases List.mem_cons.1 hx with rfl | hx
    · exact ⟨b, hb⟩
    · exact h.coins x hx

/-- **An accepted message.** -/
theorem BitsOk.onMsg {msg : AbaMsg} (h : BitsOk hist p s) (hmem : ⟨q, p, msg⟩ ∈ hist) (hacc : Accepted q msg s) :
    BitsOk hist p (onMsg f q msg s).1 ∧ ∀ o ∈ (onMsg f q msg s).2, WellFormed o.2 := by
  obtain ⟨⟨s', out⟩, hp⟩ := process_isOk_iff (f := f).2 hacc
  have hmsg : Aba.onMsg f q msg s = (s', out) := by rw [Aba.onMsg, hp]
  rw [hmsg]
  obtain ⟨rfl, rfl⟩ | ⟨htag, b, hb, rfl, rfl⟩ | ⟨htag, b, hb, -, rfl, rfl⟩ | ⟨htag, C, hC, -, rfl, rfl⟩ := process_cases hp
  · exact ⟨h, by simp⟩
  · refine ⟨⟨h.main, h.recv, fun r hr => ?_, h.coins, h.auxTaken, h.confTaken⟩, fun o ho => ?_⟩
    · have hbins := h.bins r hr
      simp only [addEst]
      split
      · by_cases hk : PyVal.ofNat r = msg.r.key
        · rw [hk, Function.update_self]
          exact Finset.insert_ne_empty _ _
        · rwa [Function.update_of_ne hk]
      · exact hbins
    · simp only at ho
      split at ho
      · obtain ⟨i, m⟩ := o
        obtain rfl := mem_broadcast.1 ho
        obtain ⟨tag, r, v⟩ := m
        obtain rfl : tag = .est := htag
        exact hacc
      · cases ho
  · refine ⟨⟨h.main, h.recv, h.bins, h.coins, fun k b' i hi => ?_, h.confTaken⟩, by simp⟩
    rcases mem_set2_insert.1 hi with ⟨rfl, -, rfl⟩ | hi
    · exact ⟨_, hmem, rfl, rfl, htag, rfl⟩
    · exact h.auxTaken k b' i hi
  · refine ⟨⟨h.main, h.recv, h.bins, h.coins, h.auxTaken, fun k C' i hi => ?_⟩, by simp⟩
    rcases mem_set2_insert.1 hi with ⟨rfl, -, rfl⟩ | hi
    · exact ⟨_, hmem, rfl, rfl, htag, rfl⟩
    · exact h.confTaken k C' i hi

theorem BitsOk.mono (hsub : ∀ e ∈ hist, e ∈ hist') (h : BitsOk hist p s) : BitsOk hist' p s := by
  refine ⟨h.main, h.recv, h.bins, h.coins, fun k b q hq => ?_, fun k C q hq => ?_⟩
  · obtain ⟨e, he, hrest⟩ := h.auxTaken k b q hq
    exact ⟨e, hsub e he, hrest⟩
  · obtain ⟨e, he, hrest⟩ := h.confTaken k C q hq
    exact ⟨e, hsub e he, hrest⟩

/-! ## Runs -/

section Runs

variable {input : Fin N → PyVal}

/-- **The invariant of runs in which every message is accepted.** -/
theorem bits_preserved (f : Nat) (byz : Finset (Fin N)) (hinput : ∀ p ∉ byz, ∃ b, IsBit (input p) b) :
    Net.Preserved (binaryagreement f coin input) byz (fun c l => Smooth coin c.loc l) (fun _ _ => True)
      (fun loc hist p => Clean (loc p) ∧ BitsOk hist p (loc p)) (fun _ e => WellFormed e.msg) where
  grow_refl := fun _ => trivial
  grow_wake := fun _ _ _ _ _ _ => trivial
  grow_recv := fun _ _ _ _ _ _ _ => trivial
  local_mono := by
    intro loc loc' hist hist' p _ hsub _ hp h
    rw [hp]
    exact ⟨h.1, h.2.mono hsub⟩
  msg_mono := fun _ _ _ _ h => h
  init := fun p _ => ⟨init_clean, by constructor <;> simp [binaryagreement, init]⟩
  wake := by
    intro conf p t s out loc' hok hp hL h hloc _
    have hself : loc' p = s := by rw [hloc, Function.update_self]
    rw [hself]
    obtain ⟨hbits, hout⟩ := (hL p hp).2.mainStep (hinput p hp) hok h
    exact ⟨⟨mainStep_clean h (hL p hp).1, hbits⟩, hout⟩
  recv := by
    intro conf e s out loc' hok hp hL _ h hloc _
    obtain ⟨-, rfl, rfl⟩ := aba_recv h
    have hself : loc' e.dst = (onMsg f e.src e.msg (conf.loc e.dst)).1 := by rw [hloc, Function.update_self]
    rw [hself]
    have hpre := (hL e.dst hp).2.mono (fun x hx => List.mem_cons_of_mem e hx)
    obtain ⟨hbits, hout⟩ := hpre.onMsg (f := f) List.mem_cons_self hok
    exact ⟨⟨onMsg_clean e.src e.msg (hL e.dst hp).1, hbits⟩, hout⟩

/-- A message of an honest party in flight is not the second of its kind. -/
theorem not_taken (hinput : ∀ p ∉ byz, ∃ b, IsBit (input p) b) {conf : Net.Conf (Fin N) (AbaState N) AbaMsg}
    (hc : Net.Run (binaryagreement f coin input) byz (fun c l => Smooth coin c.loc l) conf)
    {e e' : Net.Envelope (Fin N) AbaMsg} (he : e ∈ conf.net) (he' : e' ∈ conf.hist) (hgood : e.src ∉ byz)
    (hsrc : e'.src = e.src) (hdst : e'.dst = e.dst) (htag : e.msg.tag ≠ .est) (htag' : e'.msg.tag = e.msg.tag) :
    e'.msg.r.key ≠ e.msg.r.key := by
  intro hkey
  have hholds := (bits_preserved f byz hinput).run hc
  obtain ⟨n, hn⟩ : ∃ n, e.msg.r.key = .ofNat n := by
    have hwf := hholds.net e he hgood
    obtain ⟨src, dst, tag, r, v⟩ := e
    cases tag with
    | est  => exact absurd rfl htag
    | aux  =>
      obtain ⟨n, b, rfl, -⟩ := hwf
      exact ⟨n, rfl⟩
    | conf =>
      obtain ⟨n, C, -, rfl, -⟩ := hwf
      exact ⟨n, rfl⟩
  have htwo : 2 ≤ Net.sentCount (ofRound e.msg.tag n) conf.net conf.hist e.src e.dst :=
    Net.sentCount_two he he' hsrc hdst (by simp [ofRound, hn]) (by simp [ofRound, htag', hkey, hn])
  have hle := (rations htag n input).run_sentCount_le hc hgood e.dst
  have hone : (rounds e.msg.tag (conf.loc e.src)).count n ≤ 1 := by
    refine List.nodup_iff_count_le_one.1 ?_ n
    obtain ⟨hclean, -⟩ := hholds.loc e.src hgood
    cases e.msg.tag with
    | est  => exact List.nodup_nil
    | aux  => exact hclean.auxs
    | conf => exact hclean.confs
  omega

/-- **The messages of honest parties are accepted.** -/
theorem smooth_of_onBits (hinput : ∀ p ∉ byz, ∃ b, IsBit (input p) b) {conf : Net.Conf (Fin N) (AbaState N) AbaMsg}
    (hc : Net.Run (binaryagreement f coin input) byz (fun c l => OnBits byz coin c.loc l) conf) :
    Net.Run (binaryagreement f coin input) byz (fun c l => Smooth coin c.loc l) conf := by
  refine hc.strengthen (fun c l c' hc hok hs => ?_)
  cases hs with
  | wake hp hw => exact hok
  | inject he => trivial
  | @recv e rest s out hp he hr =>
    by_cases hgood : e.src ∈ byz
    · exact hok hgood
    · have hnet : e ∈ c.net := he.mem_iff.2 List.mem_cons_self
      have hholds := (bits_preserved f byz hinput).run hc
      obtain ⟨-, hbits⟩ := hholds.loc e.dst hp
      refine (hholds.net e hnet hgood).accepted (fun htag b hq => ?_) (fun htag C hq => ?_)
      · obtain ⟨e', he', hsrc, hdst, htag', hkey⟩ := hbits.auxTaken _ b _ hq
        exact not_taken hinput hc hnet he' hgood hsrc hdst (by simp [htag]) (htag'.trans htag.symm) hkey
      · obtain ⟨e', he', hsrc, hdst, htag', hkey⟩ := hbits.confTaken _ C _ hq
        exact not_taken hinput hc hnet he' hgood hsrc hdst (by simp [htag]) (htag'.trans htag.symm) hkey

end Runs

end Aba

open Aba

/-- **`binaryagreement` stays within bits** while the coin does and what Byzantine parties send is accepted: no honest
party raises, its coins are bits and its messages well formed. -/
theorem binaryagreement_bits {N f : Nat} {byz : Finset (Fin N)} {coin : Fin N → Nat → PyVal} {input : Fin N → PyVal}
    (hinput : ∀ p ∉ byz, ∃ b, IsBit (input p) b) {conf : Net.Conf (Fin N) (AbaState N) AbaMsg}
    (hc : Net.Run (binaryagreement f coin input) byz (fun c l => OnBits byz coin c.loc l) conf) :
    Net.Holds byz (fun loc hist p => Clean (loc p) ∧ BitsOk hist p (loc p)) (fun _ e => WellFormed e.msg) conf :=
  (bits_preserved f byz hinput).run (smooth_of_onBits hinput hc)

end Dpid
