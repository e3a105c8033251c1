import Dpid.AbaAgree
import Mathlib
/-!
# AbaSupport — how many parties stand behind the waits of `binaryagreement`

The waits for `AUX` and `CONF` count the entries of per-value tables, so a party that sends several values of one round
is counted once for each.  While every Byzantine party is recorded with one value of a round, as honest ones are, both
waits end with messages of `N - f` parties (`binaryagreement_support`).
-/
namespace Dpid
namespace Aba

variable {N f : Nat} {byz : Finset (Fin N)} {p q : Fin N} {s : AbaState N} {loc loc' : Fin N → AbaState N}
  {hist hist' : List (Net.Envelope (Fin N) AbaMsg)}

section Statements

/-- The parties of which `p` has taken an `AUX` for round `r` with a value of `bins`. -/
def auxSenders (hist : List (Net.Envelope (Fin N) AbaMsg)) (p : Fin N) (r : Nat) (bins : Finset Bool) : Finset (Fin N) :=
  Finset.univ.filter (fun q => ∃ e ∈ hist, e.src = q ∧ e.dst = p ∧ e.msg.tag = .aux ∧ e.msg.r.key = .ofNat r ∧
    ∃ b ∈ bins, e.msg.v.bit = some b)

/-- The parties of which `p` has taken a `CONF` for round `r` with values within `bins`. -/
def confSenders (hist : List (Net.Envelope (Fin N) AbaMsg)) (p : Fin N) (r : Nat) (bins : Finset Bool) : Finset (Fin N) :=
  Finset.univ.filter (fun q => ∃ e ∈ hist, e.src = q ∧ e.dst = p ∧ e.msg.tag = .conf ∧ e.msg.r.key = .ofNat r ∧
    ∃ C ⊆ bins, confKey e.msg.v = some C)

/-- At the end of a wait of `p`, of `N - f` parties a message with values within `bin_values[r]` was taken. -/
structure Backed (f : Nat) (conf : Net.Conf (Fin N) (AbaState N) AbaMsg) (p : Fin N) : Prop where
  aux : ∀ r values, (conf.loc p).phase = .aux r → auxExit f r (conf.loc p) = some values →
    N - f ≤ (auxSenders conf.hist p r ((conf.loc p).binValues (.ofNat r))).card
  conf : ∀ r values, (conf.loc p).phase = .conf r → confExit f r (conf.loc p) = some values →
    N - f ≤ (confSenders conf.hist p r ((conf.loc p).binValues (.ofNat r))).card

/-- A message taken from a Byzantine party names no value of a round for which the party is recorded with another. -/
def OneValue (byz : Finset (Fin N)) (conf : Net.Conf (Fin N) (AbaState N) AbaMsg) : Net.Label (Fin N) Unit AbaMsg → Prop
  | .recv ⟨src, dst, ⟨.aux, r, v⟩⟩  => src ∈ byz → ∀ b, v.bit = some b → src ∉ (conf.loc dst).auxValues r.key (!b)
  | .recv ⟨src, dst, ⟨.conf, r, v⟩⟩ =>
    src ∈ byz → ∀ C, confKey v = some C → ∀ C' ≠ C, src ∉ (conf.loc dst).confValues r.key C'
  | .recv ⟨_, _, ⟨.est, _, _⟩⟩      => True
  | .wake _ _                       => True
  | .inject _                       => True

instance decidableOneValue (byz : Finset (Fin N)) (conf : Net.Conf (Fin N) (AbaState N) AbaMsg) :
    DecidablePred (OneValue byz conf)
  | .recv ⟨_, _, ⟨.aux, _, _⟩⟩  => inferInstanceAs (Decidable (_ → ∀ _, _ → _))
  | .recv ⟨_, _, ⟨.conf, _, _⟩⟩ => inferInstanceAs (Decidable (_ → ∀ _, _ → ∀ _, _ → _))
  | .recv ⟨_, _, ⟨.est, _, _⟩⟩  => isTrue trivial
  | .wake _ _                   => isTrue trivial
  | .inject _                   => isTrue trivial

variable (byz : Finset (Fin N)) (loc : Fin N → AbaState N) (hist : List (Net.Envelope (Fin N) AbaMsg)) (p : Fin N)

/-- An `AUX` of an honest party is in its history. -/
def Sends (e : Net.Envelope (Fin N) AbaMsg) : Prop :=
  match e.msg.tag with
  | .est  => True
  | .aux  => ∃ n, e.msg.r.key = .ofNat n ∧ ∀ b, e.msg.v.bit = some b → (n, b) ∈ (loc e.src).auxs
  | .conf => ∃ n, e.msg.r.key = .ofNat n ∧ ∀ C, confKey e.msg.v = some C → (n, C) ∈ (loc e.src).confs

/-- The invariant of party `p` in state `s`: who is recorded, with what, and that it is one value a round. -/
structure VotesOk (s : AbaState N) : Prop where
  clean : Clean s
  auxTaken : ∀ k b, ∀ q ∈ s.auxValues k b, ∃ e ∈ hist, e.src = q ∧ e.dst = p ∧ e.msg.tag = .aux ∧ e.msg.r.key = k ∧
    e.msg.v.bit = some b
  auxOne : ∀ k b b' q, q ∈ s.auxValues k b → q ∈ s.auxValues k b' → b = b'
  auxGood : ∀ k b, ∀ q ∈ s.auxValues k b, q ∉ byz → ∃ n, k = .ofNat n ∧ (n, b) ∈ (loc q).auxs
  confTaken : ∀ k C, ∀ q ∈ s.confValues k C, ∃ e ∈ hist, e.src = q ∧ e.dst = p ∧ e.msg.tag = .conf ∧ e.msg.r.key = k ∧
    confKey e.msg.v = some C
  confOne : ∀ k C C' q, q ∈ s.confValues k C → q ∈ s.confValues k C' → C = C'
  confGood : ∀ k C, ∀ q ∈ s.confValues k C, q ∉ byz → ∃ n, k = .ofNat n ∧ (n, C) ∈ (loc q).confs

end Statements

/-! ## The ends of the waits -/

/-- **The wait for `AUX`s ends on `N - f` entries** of the values in `bin_values`. -/
theorem auxExit_some {r : Nat} {values : Finset Bool} (h : auxExit f r s = some values) :
    N - f ≤ ∑ b ∈ s.binValues (.ofNat r), (s.auxValues (.ofNat r) b).card := by
  have hone : ∀ b ∈ s.binValues (.ofNat r), (s.auxValues (.ofNat r) b).card ≤
      ∑ b ∈ s.binValues (.ofNat r), (s.auxValues (.ofNat r) b).card :=
    fun b hb => Finset.single_le_sum (f := fun b => (s.auxValues (.ofNat r) b).card) (fun _ _ => Nat.zero_le _) hb
  unfold auxExit at h
  simp only at h
  split at h
  · rename_i htrue
    exact htrue.2.trans (hone true htrue.1)
  · split at h
    · rename_i hfalse
      exact hfalse.2.trans (hone false hfalse.1)
    · split at h
      · assumption
      · cases h

/-- The keys of `conf_values[r]` within `bins`. -/
def confWithin (bins : Finset Bool) : Finset (Finset Bool) := confKeys.toFinset.filter (· ⊆ bins)

theorem confExit_sum {r : Nat} {values : Finset Bool} (h : confExit f r s = some values) :
    N - f ≤ ∑ C ∈ confWithin (s.binValues (.ofNat r)), (s.confValues (.ofNat r) C).card := by
  have hone : ∀ b ∈ s.binValues (.ofNat r), (s.confValues (.ofNat r) {b}).card ≤
      ∑ C ∈ confWithin (s.binValues (.ofNat r)), (s.confValues (.ofNat r) C).card := by
    intro b hb
    refine Finset.single_le_sum (f := fun C => (s.confValues (.ofNat r) C).card) (fun _ _ => Nat.zero_le _) ?_
    refine Finset.mem_filter.2 ⟨?_, Finset.singleton_subset_iff.2 hb⟩
    cases b <;> decide
  unfold confExit at h
  simp only at h
  split at h
  · rename_i htrue
    exact htrue.2.trans (hone true htrue.1)
  · split at h
    · rename_i hfalse
      exact hfalse.2.trans (hone false hfalse.1)
    · split at h
      · rename_i hsum
        have hnodup : (confKeys.filter (fun C => decide (C ⊆ s.binValues (.ofNat r)))).Nodup :=
          List.Nodup.filter _ (by decide)
        rw [← List.sum_toFinset _ hnodup, List.toFinset_filter] at hsum
        simpa [confWithin] using hsum
      · cases h

theorem mainStep_tables {vi : PyVal} {coin : Nat → PyVal} {s' : AbaState N} {out : List (Fin N × AbaMsg)}
    (h : mainStep f vi coin s = some (s', out)) : s'.auxValues = s.auxValues ∧ s'.confValues = s.confValues := by
  have hround : ∀ r est (s : AbaState N), (startRound r est s).1.auxValues = s.auxValues ∧
      (startRound r est s).1.confValues = s.confValues := by
    intro r est s
    unfold startRound
    split
    · exact ⟨rfl, rfl⟩
    · simp only
      split <;> exact ⟨rfl, rfl⟩
  cases mainStep_cases h with
  | refuse hp hv => exact ⟨rfl, rfl⟩
  | enter hp hv  => exact hround 0 vi s
  | aux hp hb    => exact ⟨rfl, rfl⟩
  | conf hp hv   =>
    unfold onAuxExit
    split <;> exact ⟨rfl, rfl⟩
  | coin hp hv   => exact ⟨rfl, rfl⟩
  | @next r values est s₁ hp hest =>
    have hs₁ := hround (r + 1) est s₁
    rw [setNewEstimate_frame hest] at hs₁ ⊢
    exact hs₁
  | abandon hp   => exact ⟨rfl, rfl⟩

/-- **What a step of the main thread sends** is in its history. -/
theorem mainStep_sends {vi : PyVal} {coin : Nat → PyVal} {s' : AbaState N} {out : List (Fin N × AbaMsg)} (hc : Clean s)
    (h : mainStep f vi coin s = some (s', out)) (hself : loc p = s') : ∀ o ∈ out, Sends loc ⟨p, o.1, o.2⟩ := by
  have hround : ∀ r est (s : AbaState N), ∀ o ∈ (startRound r est s).2, Sends loc ⟨p, o.1, o.2⟩ := by
    intro r est s o ho
    cases hslot : est.slot with
    | error e =>
      rw [startRound, hslot] at ho
      exact absurd ho List.not_mem_nil
    | ok b =>
      rw [startRound_of_slot hslot] at ho
      simp only at ho
      split at ho
      · exact absurd ho List.not_mem_nil
      · rw [mem_broadcast] at ho
        obtain ⟨i, msg⟩ := o
        subst ho
        trivial
  cases mainStep_cases h with
  | refuse hp hv => simp
  | enter hp hv  => exact hround 0 vi s
  | @aux r hp hb =>
    intro o ho
    rw [mem_broadcast] at ho
    obtain ⟨i, msg⟩ := o
    subst ho
    refine ⟨r, rfl, fun b hb => ?_⟩
    rw [PyVal.bit_ofBit, Option.some.injEq] at hb
    show _ ∈ (loc p).auxs
    rw [hself, ← hb]
    exact List.mem_cons_self
  | @conf r values hp hv =>
    rw [hc.onAuxExit_eq hp] at hself ⊢
    intro o ho
    rw [mem_broadcast] at ho
    obtain ⟨i, msg⟩ := o
    subst ho
    refine ⟨r, rfl, fun C hC => ?_⟩
    rw [confKey_toTuple hC]
    show _ ∈ (loc p).confs
    rw [hself]
    exact List.mem_cons_self
  | coin hp hv   => simp
  | next hp hest => exact hround _ _ _
  | abandon hp   => simp

/-! ## Steps -/

theorem Sends.mono (hg : ∀ q, Grow (loc q) (loc' q)) {e : Net.Envelope (Fin N) AbaMsg} (h : Sends loc e) :
    Sends loc' e := by
  obtain ⟨src, dst, tag, r, v⟩ := e
  cases tag with
  | est  => trivial
  | aux  =>
    obtain ⟨n, hn, hmem⟩ := h
    exact ⟨n, hn, fun b hb => (hg src).auxs _ (hmem b hb)⟩
  | conf =>
    obtain ⟨n, hn, hmem⟩ := h
    exact ⟨n, hn, fun C hC => (hg src).confs _ (hmem C hC)⟩

theorem VotesOk.mono (hg : ∀ q, Grow (loc q) (loc' q)) (hsub : ∀ e ∈ hist, e ∈ hist') (h : VotesOk byz loc hist p s) :
    VotesOk byz loc' hist' p s where
  clean     := h.clean
  auxTaken  := by
    intro k b q hq
    obtain ⟨e, he, hrest⟩ := h.auxTaken k b q hq
    exact ⟨e, hsub e he, hrest⟩
  auxOne    := h.auxOne
  auxGood   := by
    intro k b q hq hgood
    obtain ⟨n, hn, hmem⟩ := h.auxGood k b q hq hgood
    exact ⟨n, hn, (hg q).auxs _ hmem⟩
  confTaken := by
    intro k C q hq
    obtain ⟨e, he, hrest⟩ := h.confTaken k C q hq
    exact ⟨e, hsub e he, hrest⟩
  confOne   := h.confOne
  confGood  := by
    intro k C q hq hgood
    obtain ⟨n, hn, hmem⟩ := h.confGood k C q hq hgood
    exact ⟨n, hn, (hg q).confs _ hmem⟩

/-- **A message** of an honest party, or of a Byzantine one that names one value a round. -/
theorem onMsg_votes {msg : AbaMsg} (h : VotesOk byz loc hist p s) (hmem : ⟨q, p, msg⟩ ∈ hist)
    (hclean : q ∉ byz → Clean (loc q)) (hmsg : q ∉ byz → Sends loc ⟨q, p, msg⟩)
    (haux : msg.tag = .aux → q ∈ byz → ∀ b, msg.v.bit = some b → q ∉ s.auxValues msg.r.key (!b))
    (hconf : msg.tag = .conf → q ∈ byz → ∀ C, confKey msg.v = some C → ∀ C' ≠ C, q ∉ s.confValues msg.r.key C') :
    VotesOk byz loc hist p (onMsg f q msg s).1 := by
  have hclean' := onMsg_clean (f := f) q msg h.clean
  unfold onMsg at hclean' ⊢
  cases hp : process f q msg s with
  | error e =>
    rw [hp] at hclean'
    exact ⟨hclean', h.auxTaken, h.auxOne, h.auxGood, h.confTaken, h.confOne, h.confGood⟩
  | ok x =>
    obtain ⟨s', out⟩ := x
    rw [hp] at hclean'
    obtain ⟨tag, r, v⟩ := msg
    obtain ⟨rfl, rfl⟩ | ⟨rfl, b, hb, rfl, rfl⟩ | ⟨rfl, b, hb, -, rfl, rfl⟩ | ⟨rfl, C, hC, -, rfl, rfl⟩ := process_cases hp
    · exact h
    · exact ⟨hclean', h.auxTaken, h.auxOne, h.auxGood, h.confTaken, h.confOne, h.confGood⟩
    · -- the sender is not recorded with the other bit
      have hother : ∀ b', q ∈ s.auxValues r.key b' → b' = b := by
        intro b' hq
        by_cases hgood : q ∈ byz
        · by_contra hne
          have hb' : b' = !b := by cases b <;> cases b' <;> simp_all
          exact haux rfl hgood b hb (hb' ▸ hq)
        · obtain ⟨n, hn, hsent⟩ := hmsg hgood
          obtain ⟨n', hn', hsent'⟩ := h.auxGood _ _ q hq hgood
          obtain rfl := PyVal.ofNat_inj (hn.symm.trans hn')
          exact eq_of_nodup (hclean hgood).auxs hsent' (hsent b hb)
      refine ⟨hclean', fun k b' i hi => ?_, fun k b₁ b₂ i h₁ h₂ => ?_, fun k b' i hi hgood => ?_, h.confTaken, h.confOne,
        h.confGood⟩
      · rcases mem_set2_insert.1 hi with ⟨rfl, rfl, rfl⟩ | hi
        · exact ⟨_, hmem, rfl, rfl, rfl, rfl, hb⟩
        · exact h.auxTaken k b' i hi
      · rcases mem_set2_insert.1 h₁ with ⟨rfl, rfl, rfl⟩ | hold
        · rcases mem_set2_insert.1 h₂ with ⟨-, rfl, -⟩ | h₂
          · rfl
          · exact (hother b₂ h₂).symm
        · rcases mem_set2_insert.1 h₂ with ⟨rfl, rfl, rfl⟩ | h₂
          · exact hother b₁ hold
          · exact h.auxOne k b₁ b₂ i hold h₂
      · rcases mem_set2_insert.1 hi with ⟨rfl, rfl, rfl⟩ | hi
        · obtain ⟨n, hn, hsent⟩ := hmsg hgood
          exact ⟨n, hn, hsent _ hb⟩
        · exact h.auxGood k b' i hi hgood
    · have hother : ∀ C', q ∈ s.confValues r.key C' → C' = C := by
        intro C' hq
        by_cases hgood : q ∈ byz
        · by_contra hne
          exact hconf rfl hgood C hC C' hne hq
        · obtain ⟨n, hn, hsent⟩ := hmsg hgood
          obtain ⟨n', hn', hsent'⟩ := h.confGood _ _ q hq hgood
          obtain rfl := PyVal.ofNat_inj (hn.symm.trans hn')
          exact eq_of_nodup (hclean hgood).confs hsent' (hsent C hC)
      refine ⟨hclean', h.auxTaken, h.auxOne, h.auxGood, fun k C' i hi => ?_, fun k C₁ C₂ i h₁ h₂ => ?_,
        fun k C' i hi hgood => ?_⟩
      · rcases mem_set2_insert.1 hi with ⟨rfl, rfl, rfl⟩ | hi
        · exact ⟨_, hmem, rfl, rfl, rfl, rfl, hC⟩
        · exact h.confTaken k C' i hi
      · rcases mem_set2_insert.1 h₁ with ⟨rfl, rfl, rfl⟩ | hold
        · rcases mem_set2_insert.1 h₂ with ⟨-, rfl, -⟩ | h₂
          · rfl
          · exact (hother C₂ h₂).symm
        · rcases mem_set2_insert.1 h₂ with ⟨rfl, rfl, rfl⟩ | h₂
          · exact hother C₁ hold
          · exact h.confOne k C₁ C₂ i hold h₂
      · rcases mem_set2_insert.1 hi with ⟨rfl, rfl, rfl⟩ | hi
        · obtain ⟨n, hn, hsent⟩ := hmsg hgood
          exact ⟨n, hn, hsent _ hC⟩
        · exact h.confGood k C' i hi hgood

/-- A relayed `EST` is none of the two. -/
theorem onMsg_sends (msg : AbaMsg) : ∀ o ∈ (onMsg f q msg s).2, Sends loc ⟨p, o.1, o.2⟩ := by
  intro o ho
  unfold onMsg at ho
  cases hp : process f q msg s with
  | error e =>
    rw [hp] at ho
    exact absurd ho List.not_mem_nil
  | ok x =>
    obtain ⟨s', out⟩ := x
    rw [hp] at ho
    obtain ⟨tag, r, v⟩ := msg
    obtain ⟨rfl, rfl⟩ | ⟨rfl, b, hb, rfl, rfl⟩ | ⟨rfl, b, hb, -, rfl, rfl⟩ | ⟨rfl, C, hC, -, rfl, rfl⟩ := process_cases hp
    · exact absurd ho List.not_mem_nil
    · simp only at ho
      split at ho
      · rw [mem_broadcast] at ho
        obtain ⟨i, msg⟩ := o
        subst ho
        trivial
      · exact absurd ho List.not_mem_nil
    · exact absurd ho List.not_mem_nil
    · exact absurd ho List.not_mem_nil

/-- **The invariant of the votes.** -/
theorem votes_preserved (f : Nat) (byz : Finset (Fin N)) (coin : Fin N → Nat → PyVal) (input : Fin N → PyVal) :
    Net.Preserved (binaryagreement f coin input) byz (OneValue byz) Grow
      (fun loc hist p => VotesOk byz loc hist p (loc p)) Sends where
  grow_refl := Grow.refl
  grow_wake := fun _ _ _ _ _ h => mainStep_grow h
  grow_recv := by
    intro p s q msg s' out h
    obtain ⟨-, rfl, -⟩ := aba_recv h
    exact onMsg_grow q msg s
  local_mono := by
    intro loc loc' hist hist' p hg hsub _ hp h
    rw [hp]
    exact h.mono hg hsub
  msg_mono := fun _ _ _ hg h => h.mono hg
  init := fun p _ => ⟨init_clean, by simp [binaryagreement, init], by simp [binaryagreement, init],
    by simp [binaryagreement, init], by simp [binaryagreement, init], by simp [binaryagreement, init],
    by simp [binaryagreement, init]⟩
  wake := by
    intro conf p t s out loc' _ hp hL h hloc hg
    have hself : loc' p = s := by rw [hloc, Function.update_self]
    have hpre := (hL p hp).mono hg (fun _ he => he)
    obtain ⟨haux, hconf⟩ := mainStep_tables h
    rw [hself]
    refine ⟨⟨mainStep_clean h hpre.clean, ?_, ?_, ?_, ?_, ?_, ?_⟩, mainStep_sends hpre.clean h hself⟩
    · rw [haux]; exact hpre.auxTaken
    · rw [haux]; exact hpre.auxOne
    · rw [haux]; exact hpre.auxGood
    · rw [hconf]; exact hpre.confTaken
    · rw [hconf]; exact hpre.confOne
    · rw [hconf]; exact hpre.confGood
  recv := by
    intro conf e s out loc' hok hp hL hW h hloc hg
    obtain ⟨-, rfl, rfl⟩ := aba_recv h
    have hself : loc' e.dst = (onMsg f e.src e.msg (conf.loc e.dst)).1 := by rw [hloc, Function.update_self]
    rw [hself]
    refine ⟨?_, onMsg_sends e.msg⟩
    obtain ⟨src, dst, tag, r, v⟩ := e
    have hpre : VotesOk byz conf.loc (⟨src, dst, tag, r, v⟩ :: conf.hist) dst (conf.loc dst) :=
      (hL dst hp).mono (fun q => Grow.refl _) (fun _ he => List.mem_cons_of_mem _ he)
    refine (onMsg_votes hpre List.mem_cons_self (fun hgood => (hL src hgood).clean) hW ?_ ?_).mono hg (fun _ he => he)
    · rintro rfl hsrc
      exact hok hsrc
    · rintro rfl hsrc
      exact hok hsrc

theorem sum_card_le {ι κ : Type} [DecidableEq ι] [DecidableEq κ] {B : Finset κ} {table : κ → Finset ι} {A : Finset ι}
    (hone : ∀ b b' q, q ∈ table b → q ∈ table b' → b = b') (hsub : ∀ b ∈ B, ∀ q ∈ table b, q ∈ A) :
    ∑ b ∈ B, (table b).card ≤ A.card := by
  rw [← Finset.card_biUnion]
  · refine Finset.card_le_card (fun q hq => ?_)
    obtain ⟨b, hb, hq⟩ := Finset.mem_biUnion.1 hq
    exact hsub b hb q hq
  · intro b _ b' _ hne
    refine Finset.disjoint_left.2 (fun q hq hq' => hne (hone b b' q hq hq'))

end Aba

open Aba

/-- **The waits end on messages of `N - f` parties** while every Byzantine party is recorded with one value a round. -/
theorem binaryagreement_support {N f : Nat} {byz : Finset (Fin N)} {coin : Fin N → Nat → PyVal} {input : Fin N → PyVal}
    {conf : Net.Conf (Fin N) (AbaState N) AbaMsg}
    (hc : Net.Run (binaryagreement f coin input) byz (OneValue byz) conf) {p : Fin N} (hp : p ∉ byz) :
    Backed f conf p := by
  have hok := ((votes_preserved f byz coin input).run hc).loc p hp
  constructor
  · intro r values _ hexit
    refine (auxExit_some hexit).trans (sum_card_le (hok.auxOne (.ofNat r)) (fun b hb q hq => ?_))
    obtain ⟨e, he, hsrc, hdst, htag, hr, hbit⟩ := hok.auxTaken _ _ q hq
    exact Finset.mem_filter.2 ⟨Finset.mem_univ q, e, he, hsrc, hdst, htag, hr, b, hb, hbit⟩
  · intro r values _ hexit
    refine (confExit_sum hexit).trans (sum_card_le (hok.confOne (.ofNat r)) (fun C hC q hq => ?_))
    obtain ⟨e, he, hsrc, hdst, htag, hr, hkey⟩ := hok.confTaken _ _ q hq
    exact Finset.mem_filter.2 ⟨Finset.mem_univ q, e, he, hsrc, hdst, htag, hr, C, (Finset.mem_filter.1 hC).2, hkey⟩

/-- Of the `AUX`s of parties 0, 1 and 3 each names 0: the wait of party 0 ends on three parties. -/
theorem binaryagreement_support_four : ∃ conf, Net.Reachable (binaryagreement (N := 4) 1 (fun _ _ => .ofBit false)
    (fun _ => .ofBit false)) {3} conf ∧ (conf.loc 0).phase = .aux 0 ∧ auxExit 1 0 (conf.loc 0) = some {false} ∧
      4 - 1 ≤ (auxSenders conf.hist 0 0 ((conf.loc 0).binValues (.ofNat 0))).card := by
  have hrun : (Net.exec (binaryagreement (N := 4) 1 (fun _ _ => .ofBit false) (fun _ => .ofBit false)) {3}
      (fun conf l => decide (OneValue {3} conf l))
      [.wake 0 (), .wake 1 (), .recv 4, .recv 0, .inject ⟨3, 0, ⟨.est, .ofNat 0, .ofBit false⟩⟩, .recv 0,
        .inject ⟨3, 1, ⟨.est, .ofNat 0, .ofBit false⟩⟩, .recv 4, .recv 1, .recv 0, .wake 0 (), .wake 1 (), .recv 4,
        .recv 0, .inject ⟨3, 0, ⟨.aux, .ofNat 0, .ofBit false⟩⟩, .recv 0]
      (binaryagreement 1 (fun _ _ => .ofBit false) (fun _ => .ofBit false)).start).any (fun conf =>
        decide ((conf.loc 0).phase = .aux 0 ∧ auxExit 1 0 (conf.loc 0) = some {false})) = true := by
    decide +kernel
  obtain ⟨conf, hrun', hout⟩ := Net.exists_run_of_exec hrun (fun _ _ => of_decide_eq_true)
  obtain ⟨hphase, hexit⟩ := of_decide_eq_true hout
  exact ⟨conf, hrun'.reachable, hphase, hexit, (binaryagreement_support hrun' (by decide)).aux 0 {false} hphase hexit⟩

/-- Both bits are in `bin_values[0]` of party 0, and it has an `AUX` of its own and two of party 3, one for each bit. -/
theorem binaryagreement_support_counterexample : ¬ ∀ conf, Net.Reachable (binaryagreement (N := 4) 1
    (fun _ _ => .ofBit false) (fun p => .ofBit (p = 2))) {3} conf → ∀ p ∉ ({3} : Finset (Fin 4)), Backed 1 conf p := by
  intro h
  have hrun : (Net.exec (binaryagreement (N := 4) 1 (fun _ _ => .ofBit false) (fun p => .ofBit (p = 2))) {3}
      (fun _ _ => true)
      [.wake 0 (), .wake 1 (), .wake 2 (), .recv 8, .recv 4, .recv 0, .inject ⟨3, 0, ⟨.est, .ofNat 0, .ofBit true⟩⟩,
        .recv 0, .recv 0, .inject ⟨3, 0, ⟨.est, .ofNat 0, .ofBit false⟩⟩, .recv 0, .wake 0 (), .recv 0,
        .inject ⟨3, 0, ⟨.aux, .ofNat 0, .ofBit false⟩⟩, .recv 0, .inject ⟨3, 0, ⟨.aux, .ofNat 0, .ofBit true⟩⟩, .recv 0]
      (binaryagreement 1 (fun _ _ => .ofBit false) (fun p => .ofBit (p = 2))).start).any (fun conf =>
        decide ((conf.loc 0).phase = .aux 0 ∧ auxExit 1 0 (conf.loc 0) = some {false, true} ∧
          (auxSenders conf.hist 0 0 ((conf.loc 0).binValues (.ofNat 0))).card = 2)) = true := by
    decide +kernel
  obtain ⟨conf, hc, hout⟩ := Net.exists_run_of_exec hrun (fun _ _ _ => trivial)
  obtain ⟨hphase, hexit, hcard⟩ := of_decide_eq_true hout
  have hback := (h conf hc 0 (by decide)).aux 0 _ hphase hexit
  omega

end Dpid
