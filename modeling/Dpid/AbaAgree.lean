import Dpid.AbaInv
import Mathlib
/-!
# AbaAgree — agreement and validity of `binaryagreement`

No value enters `bin_values[r]` that no honest party began round `r` with.  Two honest parties whose waits for `CONF`s
end with one value end with the same, since `N - f` parties sent it to each and an honest one sends one `CONF` a round;
so when the coin of round `r` decides `v` at one party, all honest parties begin round `r + 1` with `v`, and a round
begun with `v` alone is followed by another (`uniform_succ`).
-/
namespace Dpid
namespace Aba

variable {N f : Nat} {byz : Finset (Fin N)} {c : Nat → Bool} {vi : PyVal} {p q : Fin N} {s : AbaState N}
  {loc loc' : Fin N → AbaState N}

section Statements

variable (f : Nat) (byz : Finset (Fin N)) (c : Nat → Bool) (vi : PyVal) (loc : Fin N → AbaState N)

/-- An honest party began the round of key `k` with `b`. -/
def Began (k : PyVal) (b : Bool) : Prop := ∃ q ∉ byz, ∃ n, k = .ofNat n ∧ (n, b) ∈ (loc q).started

/-- What stands behind a set with which the wait for `CONF`s of round `n` ended. -/
structure Supported (n : Nat) (values : Finset Bool) : Prop where
  nonempty : values.Nonempty
  began : ∀ b ∈ values, Began byz loc (.ofNat n) b
  quorum : ∀ b, values = {b} → ∃ A : Finset (Fin N), N - f ≤ A.card ∧ ∀ q ∈ A, q ∉ byz → (n, {b}) ∈ (loc q).confs

/-- Why a round was begun with an estimate: the input, or what the round before ended with. -/
def Motivated (s : AbaState N) (x : Nat × Bool) : Prop :=
  (x.1 = 0 ∧ vi.bit = some x.2) ∨
    ∃ n values, x.1 = n + 1 ∧ (n, values) ∈ s.rets ∧ (values = {x.2} ∨ values.card ≠ 1 ∧ x.2 = c n)

/-- The invariant of a party in state `s`. -/
structure PartyOk (s : AbaState N) : Prop where
  clean : Clean s
  est : ∀ k b, ∀ q ∈ s.estValues k b, q ∉ byz → Began byz loc k b
  bin : ∀ k, ∀ b ∈ s.binValues k, Began byz loc k b
  conf : ∀ k C, ∀ q ∈ s.confValues k C, q ∉ byz → ∃ n, k = .ofNat n ∧ (n, C) ∈ (loc q).confs
  rets : ∀ x ∈ s.rets, Supported f byz loc x.1 x.2
  started : ∀ x ∈ s.started, Motivated c vi s x
  decided : ∀ x ∈ s.decisions, (x.1, {x.2}) ∈ s.rets ∧ x.2 = c x.1
  once : s.decisions.length ≤ 1 ∧ (s.alreadyDecided = none → s.decisions = [])

/-- The invariant of a message of an honest party. -/
def MsgOk (e : Net.Envelope (Fin N) AbaMsg) : Prop :=
  match e.msg.tag with
  | .est  => ∃ b, e.msg.v.bit = some b ∧ Began byz loc e.msg.r.key b
  | .aux  => True
  | .conf => ∃ n, e.msg.r.key = .ofNat n ∧ ∀ C, confKey e.msg.v = some C → (n, C) ∈ (loc e.src).confs

end Statements

/-! ## While the others go on -/

theorem Began.mono (hg : ∀ q, Grow (loc q) (loc' q)) {k : PyVal} {b : Bool} (h : Began byz loc k b) :
    Began byz loc' k b := by
  obtain ⟨q, hq, n, hk, hmem⟩ := h
  exact ⟨q, hq, n, hk, (hg q).started _ hmem⟩

theorem Supported.mono (hg : ∀ q, Grow (loc q) (loc' q)) {n : Nat} {values : Finset Bool}
    (h : Supported f byz loc n values) : Supported f byz loc' n values where
  nonempty := h.nonempty
  began    := fun b hb => (h.began b hb).mono hg
  quorum   := by
    intro b hb
    obtain ⟨A, hA, hconf⟩ := h.quorum b hb
    exact ⟨A, hA, fun q hq hgood => (hg q).confs _ (hconf q hq hgood)⟩

theorem PartyOk.mono (hg : ∀ q, Grow (loc q) (loc' q)) (h : PartyOk f byz c vi loc s) : PartyOk f byz c vi loc' s where
  clean   := h.clean
  est     := fun k b q hq hgood => (h.est k b q hq hgood).mono hg
  bin     := fun k b hb => (h.bin k b hb).mono hg
  conf    := by
    intro k C q hq hgood
    obtain ⟨n, hk, hmem⟩ := h.conf k C q hq hgood
    exact ⟨n, hk, (hg q).confs _ hmem⟩
  rets    := fun x hx => (h.rets x hx).mono hg
  started := h.started
  decided := h.decided
  once    := h.once

theorem MsgOk.mono (hg : ∀ q, Grow (loc q) (loc' q)) {e : Net.Envelope (Fin N) AbaMsg} (h : MsgOk byz loc e) :
    MsgOk byz loc' e := by
  obtain ⟨src, dst, tag, r, v⟩ := e
  cases tag with
  | est =>
    obtain ⟨b, hb, hbegan⟩ := h
    exact ⟨b, hb, hbegan.mono hg⟩
  | aux => trivial
  | conf =>
    obtain ⟨n, hk, hmem⟩ := h
    exact ⟨n, hk, fun C hC => (hg src).confs _ (hmem C hC)⟩

/-! ## Steps -/

theorem card_eq_one {values : Finset Bool} (h : values.card = 1) : values = {first values} := by
  have hall : ∀ values : Finset Bool, values.card = 1 → values = {first values} := by decide
  exact hall values h

theorem finset_bool_cases (C : Finset Bool) : C = ∅ ∨ C = {false} ∨ C = {true} ∨ C = {false, true} := by
  revert C
  decide

/-- **With what the wait for `CONF`s ends**: a value of `bin_values` that `N - f` parties sent alone, or both values
when both are in `bin_values`. -/
theorem confExit_some (hf : f < N) {r : Nat} {values : Finset Bool} (h : confExit f r s = some values) :
    (∃ b ∈ s.binValues (.ofNat r), values = {b} ∧ N - f ≤ (s.confValues (.ofNat r) {b}).card) ∨
      (values = {false, true} ∧ s.binValues (.ofNat r) = {false, true}) := by
  unfold confExit at h
  simp only at h
  split at h
  · rename_i htrue
    cases h
    exact Or.inl ⟨true, htrue.1, rfl, htrue.2⟩
  · rename_i htrue
    split at h
    · rename_i hfalse
      cases h
      exact Or.inl ⟨false, hfalse.1, rfl, hfalse.2⟩
    · rename_i hfalse
      split at h
      · rename_i hsum
        cases h
        right
        refine ⟨rfl, ?_⟩
        rcases finset_bool_cases (s.binValues (.ofNat r)) with hb | hb | hb | hb
        · have hkeys : confKeys.filter (fun v => decide (v ⊆ (∅ : Finset Bool))) = [] := by decide
          rw [hb, hkeys] at hsum
          simp at hsum
          omega
        · have hkeys : confKeys.filter (fun v => decide (v ⊆ ({false} : Finset Bool))) = [{false}] := by decide
          rw [hb, hkeys] at hsum
          simp [hb] at hsum hfalse
          omega
        · have hkeys : confKeys.filter (fun v => decide (v ⊆ ({true} : Finset Bool))) = [{true}] := by decide
          rw [hb, hkeys] at hsum
          simp [hb] at hsum htrue
          omega
        · exact hb
      · cases h

/-- Of more than `f` senders of an `EST` an honest one exists. -/
theorem PartyOk.began_of_card (h : PartyOk f byz c vi loc s) (hbyz : byz.card ≤ f) {k : PyVal} {b : Bool}
    (hq : q ∉ byz → Began byz loc k b) (hcard : f + 1 ≤ (insert q (s.estValues k b)).card) : Began byz loc k b := by
  obtain ⟨i, hi, hgood⟩ := Quorum.exists_good (show byz.card < (insert q (s.estValues k b)).card by omega)
  rcases Finset.mem_insert.1 hi with rfl | hi
  · exact hq hgood
  · exact h.est k b i hi hgood

/-- **A message.** -/
theorem onMsg_ok (h : PartyOk f byz c vi loc s) (hbyz : byz.card ≤ f) {msg : AbaMsg}
    (hmsg : q ∉ byz → MsgOk byz loc ⟨q, p, msg⟩) :
    PartyOk f byz c vi loc (onMsg f q msg s).1 ∧ ∀ o ∈ (onMsg f q msg s).2, MsgOk byz loc ⟨p, o.1, o.2⟩ := by
  have hclean := onMsg_clean (f := f) q msg h.clean
  unfold onMsg at hclean ⊢
  cases hp : process f q msg s with
  | error e =>
    rw [hp] at hclean
    exact ⟨⟨hclean, h.est, h.bin, h.conf, h.rets, h.started, h.decided, h.once⟩, by simp⟩
  | ok x =>
    obtain ⟨s', out⟩ := x
    rw [hp] at hclean
    obtain ⟨tag, r, v⟩ := msg
    obtain ⟨rfl, rfl⟩ | ⟨rfl, b, hb, rfl, rfl⟩ | ⟨rfl, b, hb, -, rfl, rfl⟩ | ⟨rfl, C, hC, -, rfl, rfl⟩ := process_cases hp
    · exact ⟨h, by simp⟩
    · have hq : q ∉ byz → Began byz loc r.key b := by
        intro hgood
        obtain ⟨b', hb', hbegan⟩ := hmsg hgood
        rwa [Option.some.inj (hb.symm.trans hb')]
      constructor
      · refine ⟨hclean, fun k b' i hi hgood => ?_, fun k b' hb' => ?_, h.conf, h.rets, h.started, h.decided, h.once⟩
        · rcases mem_set2_insert.1 hi with ⟨rfl, rfl, rfl⟩ | hi
          · exact hq hgood
          · exact h.est k b' i hi hgood
        · simp only [addEst] at hb'
          split at hb'
          · rename_i hcard
            by_cases hk : k = r.key
            · subst hk
              rw [Function.update_self] at hb'
              rcases Finset.mem_insert.1 hb' with rfl | hb'
              · exact h.began_of_card hbyz hq (by omega)
              · exact h.bin _ b' hb'
            · rw [Function.update_of_ne hk] at hb'
              exact h.bin k b' hb'
          · exact h.bin k b' hb'
      · intro o ho
        by_cases hrelay : Relays f q r.key b s
        · rw [if_pos hrelay, mem_broadcast] at ho
          obtain ⟨i, msg⟩ := o
          subst ho
          exact ⟨b, hb, h.began_of_card hbyz hq hrelay.1⟩
        · rw [if_neg hrelay] at ho
          exact absurd ho List.not_mem_nil
    · exact ⟨⟨hclean, h.est, h.bin, h.conf, h.rets, h.started, h.decided, h.once⟩, by simp⟩
    · refine ⟨⟨hclean, h.est, h.bin, fun k C' i hi hgood => ?_, h.rets, h.started, h.decided, h.once⟩, by simp⟩
      rcases mem_set2_insert.1 hi with ⟨rfl, rfl, rfl⟩ | hi
      · obtain ⟨n, hk, hmem⟩ := hmsg hgood
        exact ⟨n, hk, hmem _ hC⟩
      · exact h.conf k C' i hi hgood

/-- **A round begun** with a bit that is motivated. -/
theorem startRound_ok (h : PartyOk f byz c vi loc s) (hp : p ∉ byz) {r : Nat} {est : PyVal} {b : Bool}
    (hbit : est.bit = some b) (hmot : Motivated c vi s (r, b)) (hclean : Clean (startRound r est s).1)
    (hself : loc p = (startRound r est s).1) :
    PartyOk f byz c vi loc (startRound r est s).1 ∧ ∀ o ∈ (startRound r est s).2, MsgOk byz loc ⟨p, o.1, o.2⟩ := by
  cases hslot : est.slot with
  | error e =>
    have hstep : startRound r est s = ({ s with phase := .raised e }, []) := by rw [startRound, hslot]
    rw [hstep] at hclean ⊢
    exact ⟨⟨hclean, h.est, h.bin, h.conf, h.rets, h.started, h.decided, h.once⟩, by simp⟩
  | ok b' =>
    obtain rfl := PyVal.slot_eq hbit hslot
    rw [startRound_of_slot hslot] at hclean hself ⊢
    constructor
    · refine ⟨hclean, h.est, h.bin, h.conf, h.rets, fun x hx => ?_, h.decided, h.once⟩
      rcases List.mem_cons.1 hx with rfl | hx
      · exact hmot
      · exact h.started x hx
    · intro o ho
      simp only at ho
      split at ho
      · exact absurd ho List.not_mem_nil
      · rw [mem_broadcast] at ho
        obtain ⟨i, msg⟩ := o
        subst ho
        refine ⟨b', hbit, p, hp, r, rfl, ?_⟩
        rw [hself]
        exact List.mem_cons_self

/-- **A step of the main thread**, with a coin whose bit of round `r` is `c r`. -/
theorem mainStep_ok (hf : f < N) {coin : Nat → PyVal} (hcoin : ∀ r, (coin r).bit = some (c r)) (hp : p ∉ byz)
    {s' : AbaState N} {out : List (Fin N × AbaMsg)} (h : PartyOk f byz c vi loc s)
    (hstep : mainStep f vi coin s = some (s', out)) (hself : loc p = s') :
    PartyOk f byz c vi loc s' ∧ ∀ o ∈ out, MsgOk byz loc ⟨p, o.1, o.2⟩ := by
  have hclean := mainStep_clean hstep h.clean
  have hpos := h.clean.position
  unfold Position at hpos
  cases mainStep_cases hstep with
  | refuse hphase hv => exact ⟨⟨hclean, h.est, h.bin, h.conf, h.rets, h.started, h.decided, h.once⟩, by simp⟩
  | enter hphase hv  => exact startRound_ok h hp hv (Or.inl ⟨rfl, hv⟩) hclean hself
  | aux hphase hb    =>
    refine ⟨⟨hclean, h.est, h.bin, h.conf, h.rets, h.started, h.decided, h.once⟩, fun o ho => ?_⟩
    rw [mem_broadcast] at ho
    obtain ⟨i, msg⟩ := o
    subst ho
    trivial
  | @conf r values hphase hv =>
    rw [h.clean.onAuxExit_eq hphase] at hclean hself ⊢
    refine ⟨⟨hclean, h.est, h.bin, h.conf, h.rets, h.started, h.decided, h.once⟩, fun o ho => ?_⟩
    rw [mem_broadcast] at ho
    obtain ⟨i, msg⟩ := o
    subst ho
    refine ⟨r, rfl, fun C hC => ?_⟩
    rw [confKey_toTuple hC]
    show _ ∈ (loc p).confs
    rw [hself]
    exact List.mem_cons_self
  | @coin r values hphase hv =>
    refine ⟨⟨hclean, h.est, h.bin, h.conf, fun x hx => ?_, fun x hx => ?_, fun x hx => ?_, h.once⟩, by simp⟩
    · rcases List.mem_cons.1 hx with rfl | hx
      · rcases confExit_some hf hv with ⟨b, hb, rfl, hcard⟩ | ⟨rfl, hbins⟩
        · refine ⟨Finset.singleton_nonempty b, fun b' hb' => ?_, fun b' hb' => ?_⟩
          · rw [Finset.mem_singleton.1 hb']
            exact h.bin _ b hb
          · obtain rfl := Finset.singleton_injective hb'
            refine ⟨s.confValues (.ofNat r) {b}, hcard, fun q hq hgood => ?_⟩
            obtain ⟨n, hn, hmem⟩ := h.conf _ _ q hq hgood
            rwa [PyVal.ofNat_inj hn]
        · refine ⟨by simp, fun b' hb' => h.bin _ b' (hbins ▸ hb'), fun b' hb' => ?_⟩
          have hcard := congrArg Finset.card hb'
          simp at hcard
      · exact h.rets x hx
    · rcases h.started x hx with h0 | ⟨n, V, hn, hV, hval⟩
      · exact Or.inl h0
      · exact Or.inr ⟨n, V, hn, List.mem_cons_of_mem _ hV, hval⟩
    · exact ⟨List.mem_cons_of_mem _ (h.decided x hx).1, (h.decided x hx).2⟩
  | @next r values est s₁ hphase hest =>
    rw [hphase] at hpos
    have hret : (r, values) ∈ s.rets := hpos.2.2
    obtain ⟨hcard, rfl, rfl⟩ | ⟨hcard, rfl, rfl | ⟨hnone, hkey, rfl⟩⟩ := setNewEstimate_some hest
    · have hs₁ : PartyOk f byz c vi loc { s with coins := (r, coin r) :: s.coins } :=
        ⟨⟨h.clean.position, h.clean.auxs, h.clean.confs, h.clean.confSent⟩, h.est, h.bin, h.conf, h.rets, h.started,
          h.decided, h.once⟩
      exact startRound_ok hs₁ hp (hcoin r) (Or.inr ⟨r, values, rfl, hret, Or.inr ⟨hcard, rfl⟩⟩) hclean hself
    · have hs₁ : PartyOk f byz c vi loc { s with coins := (r, coin r) :: s.coins } :=
        ⟨⟨h.clean.position, h.clean.auxs, h.clean.confs, h.clean.confSent⟩, h.est, h.bin, h.conf, h.rets, h.started,
          h.decided, h.once⟩
      exact startRound_ok hs₁ hp (PyVal.bit_ofBit _)
        (Or.inr ⟨r, values, rfl, hret, Or.inl (card_eq_one hcard)⟩) hclean hself
    · -- the value is the coin's and decided
      have hc : first values = c r := by
        have hbit := PyVal.bit_eq_some.1 (hcoin r)
        exact PyVal.ofBit_inj (hkey.symm.trans hbit)
      have hs₁ : PartyOk f byz c vi loc { s with
          coins := (r, coin r) :: s.coins
          alreadyDecided := some (first values)
          decisions := (r, first values) :: s.decisions } := by
        refine ⟨⟨h.clean.position, h.clean.auxs, h.clean.confs, h.clean.confSent⟩, h.est, h.bin, h.conf, h.rets, h.started,
          fun x hx => ?_, ?_⟩
        · rcases List.mem_cons.1 hx with rfl | hx
          · exact ⟨(card_eq_one hcard) ▸ hret, hc⟩
          · exact h.decided x hx
        · have hempty : s.decisions = [] := h.once.2 hnone
          simp [hempty]
      exact startRound_ok hs₁ hp (PyVal.bit_ofBit _)
        (Or.inr ⟨r, values, rfl, hret, Or.inl (card_eq_one hcard)⟩) hclean hself
  | abandon hphase =>
    exact ⟨⟨hclean, h.est, h.bin, h.conf, h.rets, h.started, h.decided, h.once⟩, by simp⟩

/-! ## Runs -/

section Runs

variable {coin : Fin N → Nat → PyVal} {input : Fin N → PyVal} {conf : Net.Conf (Fin N) (AbaState N) AbaMsg}

theorem aba_recv {s' : AbaState N} {out : List (Fin N × AbaMsg)} {msg : AbaMsg}
    (h : (binaryagreement f coin input).recv p s q msg = some (s', out)) :
    s.recv = .running ∧ s' = (onMsg f q msg s).1 ∧ out = (onMsg f q msg s).2 := by
  simp only [binaryagreement, Option.ite_none_right_eq_some, Option.some.injEq] at h
  exact ⟨h.1, congrArg Prod.fst h.2.symm, congrArg Prod.snd h.2.symm⟩

/-- **The invariant of `binaryagreement`** under a common coin. -/
theorem aba_preserved (hf : f < N) (hbyz : byz.card ≤ f) (hcoin : ∀ p ∉ byz, ∀ r, (coin p r).bit = some (c r)) :
    Net.Preserved (binaryagreement f coin input) byz (fun _ _ => True) Grow
      (fun loc _ p => PartyOk f byz c (input p) loc (loc p)) (fun loc e => MsgOk byz loc e) where
  grow_refl := Grow.refl
  grow_wake := fun _ _ _ _ _ h => mainStep_grow h
  grow_recv := by
    intro p s q msg s' out h
    obtain ⟨-, rfl, -⟩ := aba_recv h
    exact onMsg_grow q msg s
  local_mono := by
    intro loc loc' _ _ p hg _ _ hp h
    rw [hp]
    exact h.mono hg
  msg_mono := fun _ _ _ hg h => h.mono hg
  init := fun p _ => ⟨init_clean, by simp [binaryagreement, init], by simp [binaryagreement, init],
    by simp [binaryagreement, init], by simp [binaryagreement, init], by simp [binaryagreement, init],
    by simp [binaryagreement, init], by simp [binaryagreement, init]⟩
  wake := by
    intro conf p t s out loc' _ hp hL h hloc hg
    have hself : loc' p = s := by rw [hloc, Function.update_self]
    rw [hself]
    exact mainStep_ok hf (hcoin p hp) hp ((hL p hp).mono hg) h hself
  recv := by
    intro conf e s out loc' _ hp hL hW h hloc hg
    obtain ⟨-, rfl, rfl⟩ := aba_recv h
    have hself : loc' e.dst = (onMsg f e.src e.msg (conf.loc e.dst)).1 := by rw [hloc, Function.update_self]
    rw [hself]
    exact onMsg_ok ((hL e.dst hp).mono hg) hbyz (fun hgood => (hW hgood).mono hg)

end Runs

/-! ## Agreement, at one moment of a run -/

section Moment

variable {inputs : Fin N → PyVal} {n : Nat} {v : Bool}

/-- All honest parties that began round `n` began it with `v`. -/
def Uniform (byz : Finset (Fin N)) (loc : Fin N → AbaState N) (n : Nat) (v : Bool) : Prop :=
  ∀ p ∉ byz, ∀ b, (n, b) ∈ (loc p).started → b = v

/-- **Waits for `CONF`s of one round do not end with different values.** -/
theorem rets_agree (hN : 3 * f + 1 ≤ N) (hbyz : byz.card ≤ f)
    (h : ∀ p ∉ byz, PartyOk f byz c (inputs p) loc (loc p)) (hp : p ∉ byz) (hq : q ∉ byz) {w : Bool}
    (hv : (n, {v}) ∈ (loc p).rets) (hw : (n, {w}) ∈ (loc q).rets) : v = w := by
  obtain ⟨A, hA, hconfA⟩ := ((h p hp).rets _ hv).quorum v rfl
  obtain ⟨B, hB, hconfB⟩ := ((h q hq).rets _ hw).quorum w rfl
  obtain ⟨i, hiA, hiB, hgood⟩ := Quorum.exists_good_inter byz
    (show Fintype.card (Fin N) + byz.card < A.card + B.card by rw [Fintype.card_fin]; omega)
  exact Finset.singleton_injective (eq_of_nodup (h i hgood).clean.confs (hconfA i hiA hgood) (hconfB i hiB hgood))

theorem Uniform.rets (hu : Uniform byz loc n v) (h : ∀ p ∉ byz, PartyOk f byz c (inputs p) loc (loc p)) (hp : p ∉ byz)
    {values : Finset Bool} (hret : (n, values) ∈ (loc p).rets) : values = {v} := by
  have hsup := (h p hp).rets _ hret
  refine (Finset.eq_singleton_iff_nonempty_unique_mem).2 ⟨hsup.nonempty, fun b hb => ?_⟩
  obtain ⟨i, hi, n', hn', hstarted⟩ := hsup.began b hb
  obtain rfl := PyVal.ofNat_inj hn'
  exact hu i hi b hstarted

theorem Uniform.succ (hu : Uniform byz loc n v) (h : ∀ p ∉ byz, PartyOk f byz c (inputs p) loc (loc p)) :
    Uniform byz loc (n + 1) v := by
  intro p hp b hstarted
  rcases (h p hp).started _ hstarted with ⟨h0, -⟩ | ⟨m, values, hm, hret, hval⟩
  · exact absurd h0 (Nat.succ_ne_zero n)
  · obtain rfl : m = n := by simpa using hm.symm
    have hv := hu.rets h hp hret
    rcases hval with hval | ⟨hcard, -⟩
    · exact Finset.singleton_injective (hval.symm.trans hv)
    · rw [hv] at hcard
      exact absurd (Finset.card_singleton v) hcard

theorem Uniform.of_le (hu : Uniform byz loc n v) (h : ∀ p ∉ byz, PartyOk f byz c (inputs p) loc (loc p)) {m : Nat}
    (hm : n ≤ m) : Uniform byz loc m v := by
  induction m, hm using Nat.le_induction with
  | base           => exact hu
  | succ m hm ih   => exact ih.succ h

/-- **After a decision the next round is uniform**: another set with one value was not returned, and the coin of the
round is the value. -/
theorem uniform_of_decided (hN : 3 * f + 1 ≤ N) (hbyz : byz.card ≤ f)
    (h : ∀ p ∉ byz, PartyOk f byz c (inputs p) loc (loc p)) (hp : p ∉ byz)
    (hd : (n, v) ∈ (loc p).decisions) : Uniform byz loc (n + 1) v := by
  obtain ⟨hret, hc⟩ := (h p hp).decided _ hd
  intro q hq b hstarted
  rcases (h q hq).started _ hstarted with ⟨h0, -⟩ | ⟨m, values, hm, hret', hval⟩
  · exact absurd h0 (Nat.succ_ne_zero n)
  · obtain rfl : m = n := by simpa using hm.symm
    rcases hval with hval | ⟨-, hb⟩
    · simp only at hval
      rw [hval] at hret'
      exact (rets_agree hN hbyz h hp hq hret hret').symm
    · exact hb.trans hc.symm

/-- A decision is the value of a round that is uniform. -/
theorem decided_of_uniform (h : ∀ p ∉ byz, PartyOk f byz c (inputs p) loc (loc p)) (hp : p ∉ byz) {m : Nat}
    {w : Bool} (hu : Uniform byz loc n v) (hm : n ≤ m) (hd : (m, w) ∈ (loc p).decisions) : w = v :=
  Finset.singleton_injective ((hu.of_le h hm).rets h hp ((h p hp).decided _ hd).1)

end Moment

end Aba

open Aba

/-- **Agreement and validity of `binaryagreement`** under a common coin: each honest party decides at most once, all
honest decisions are equal, and if all honest parties have input `v` it is `v` they decide. -/
theorem binaryagreement_safety {N f : Nat} {byz : Finset (Fin N)} {coin : Fin N → Nat → PyVal} {c : Nat → Bool}
    {input : Fin N → PyVal} {conf : Net.Conf (Fin N) (AbaState N) AbaMsg} (hN : 3 * f + 1 ≤ N) (hbyz : byz.card ≤ f)
    (hcoin : ∀ p ∉ byz, ∀ r, (coin p r).bit = some (c r))
    (hc : Net.Reachable (binaryagreement f coin input) byz conf) :
    (∀ p ∉ byz, (conf.loc p).decisions.length ≤ 1) ∧
      (∀ p ∉ byz, ∀ q ∉ byz, ∀ x ∈ (conf.loc p).decisions, ∀ y ∈ (conf.loc q).decisions, x.2 = y.2) ∧
      ∀ v, (∀ p ∉ byz, (input p).bit = some v) → ∀ p ∉ byz, ∀ x ∈ (conf.loc p).decisions, x.2 = v := by
  have hok := ((aba_preserved (by omega) hbyz hcoin).run hc).loc
  have hle : ∀ p ∉ byz, ∀ q ∉ byz, ∀ x ∈ (conf.loc p).decisions, ∀ y ∈ (conf.loc q).decisions, x.1 ≤ y.1 →
      x.2 = y.2 := by
    intro p hp q hq x hx y hy hxy
    rcases Nat.eq_or_lt_of_le hxy with heq | hlt
    · exact ((hok p hp).decided x hx).2.trans ((congrArg c heq).trans ((hok q hq).decided y hy).2.symm)
    · exact (decided_of_uniform hok hq (uniform_of_decided hN hbyz hok hp hx) hlt hy).symm
  refine ⟨fun p hp => (hok p hp).once.1, fun p hp q hq x hx y hy => ?_, fun v hv p hp x hx => ?_⟩
  · rcases Nat.le_total x.1 y.1 with hxy | hxy
    · exact hle p hp q hq x hx y hy hxy
    · exact (hle q hq p hp y hy x hx hxy).symm
  · have hu : Uniform byz conf.loc 0 v := by
      intro q hq b hstarted
      rcases (hok q hq).started _ hstarted with ⟨-, hb⟩ | ⟨n, values, hn, -⟩
      · exact Option.some.inj (hb.symm.trans (hv q hq))
      · cases hn
    exact decided_of_uniform hok hp hu (Nat.zero_le _) hx

def fourAgreement : Net.Proto (Fin 4) Unit (AbaState 4) AbaMsg :=
  binaryagreement 1 (fun _ _ => .ofBit false) (fun p => .ofBit (![false, false, true, false] p))

/-- The inputs are 0, 0 and 1 and the coin is 0.  Party 3 sends party 0 zeros and party 1 an `EST` of 1, and party 0 has
decided 0: no party decides 1. -/
theorem binaryagreement_safety_four : ∃ conf, Net.Reachable fourAgreement {3} conf ∧
    (conf.loc 0).decisions = [(0, false)] ∧
      ∀ p ∉ ({3} : Finset (Fin 4)), ∀ x ∈ (conf.loc p).decisions, x.2 = false := by
  have hrun : (Net.exec fourAgreement {3} (fun _ _ => true)
      ([.wake 0 (), .wake 1 (), .wake 2 (), .recv 8, .recv 4, .inject ⟨3, 0, .est, .ofNat 0, .ofBit false⟩, .recv 0,
        .recv 7, .recv 4, .inject ⟨3, 1, .est, .ofNat 0, .ofBit true⟩, .recv 0, .recv 1, .recv 9, .recv 7, .recv 1,
        .wake 0 (), .wake 1 (), .recv 4, .recv 0, .inject ⟨3, 0, .aux, .ofNat 0, .ofBit false⟩, .recv 0, .wake 0 (),
        .recv 11, .wake 2 (), .recv 11, .recv 8, .recv 1, .wake 1 (), .recv 7, .recv 0,
        .inject ⟨3, 0, .conf, .ofNat 0, toTuple {false}⟩, .recv 0, .wake 0 (), .wake 0 ()])
      fourAgreement.start).any (fun conf => decide ((conf.loc 0).decisions = [(0, false)])) = true := by
    decide +kernel
  obtain ⟨conf, hreach, hout⟩ := Net.exists_run_of_exec hrun (fun _ _ _ => trivial)
  have hzero := of_decide_eq_true hout
  obtain ⟨-, hagree, -⟩ := binaryagreement_safety (c := fun _ => false) (by decide) (by decide)
    (fun _ _ _ => PyVal.bit_ofBit false) hreach
  refine ⟨conf, hreach, hzero, fun p hp x hx => ?_⟩
  have hmem : (0, false) ∈ (conf.loc 0).decisions := by
    rw [hzero]
    exact List.mem_singleton_self _
  exact hagree p hp 0 (by decide) x hx _ hmem

end Dpid
