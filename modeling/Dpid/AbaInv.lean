import Dpid.Aba
import Dpid.Quorum
import Mathlib
/-!
# AbaInv — what the steps of `binaryagreement` can do

`process_cases` says what a message that raises nothing changes, `mainStep_cases` what a step of the main thread does.
From them: the tables and the history only grow (`Grow`), and a party sends one `AUX` and one `CONF` a round (`Clean`).
-/
namespace Dpid
namespace Aba

variable {N f : Nat} {s s' : AbaState N} {out : List (Fin N × AbaMsg)}

/-! ## Tables -/

theorem set2_apply {α β γ : Type} [DecidableEq α] [DecidableEq β] (table : α → β → γ) (k k' : α) (i i' : β) (x : γ) :
    set2 table k i x k' i' = if k' = k ∧ i' = i then x else table k' i' := by
  unfold set2
  by_cases hk : k' = k
  · subst hk
    rw [Function.update_self]
    by_cases hi : i' = i
    · subst hi
      rw [Function.update_self, if_pos ⟨rfl, rfl⟩]
    · rw [Function.update_of_ne hi, if_neg (fun h => hi h.2)]
  · rw [Function.update_of_ne hk, if_neg (fun h => hk h.1)]

theorem mem_set2_insert {α β γ : Type} [DecidableEq α] [DecidableEq β] [DecidableEq γ] {table : α → β → Finset γ}
    {k k' : α} {i i' : β} {q q' : γ} :
    q' ∈ set2 table k i (insert q (table k i)) k' i' ↔ (k' = k ∧ i' = i ∧ q' = q) ∨ q' ∈ table k' i' := by
  rw [set2_apply]
  by_cases h : k' = k ∧ i' = i
  · obtain ⟨rfl, rfl⟩ := h
    simp
  · rw [if_neg h]
    constructor
    · exact Or.inr
    · rintro (⟨hk, hi, -⟩ | hq)
      · exact absurd ⟨hk, hi⟩ h
      · exact hq

theorem confKey_toTuple {C D : Finset Bool} (h : confKey (toTuple C) = some D) : D = C := by
  have hall : ∀ C D : Finset Bool, confKey (toTuple C) = some D → D = C := by decide
  exact hall C D h

theorem mem_broadcast {o : Fin N × AbaMsg} {msg : AbaMsg} : o ∈ broadcast (N := N) msg ↔ o.2 = msg := by
  obtain ⟨i, m⟩ := o
  simp [broadcast, eq_comm]

/-! ## `_recv` -/

theorem dictKey_eq_ok {r k : PyVal} : r.dictKey = .ok k ↔ r.hashable = true ∧ r.key = k := by
  unfold PyVal.dictKey
  split <;> simp_all

/-- **What a message that raises nothing does**: nothing, or it enters its sender in one table. -/
theorem process_cases {q : Fin N} {msg : AbaMsg} (h : process f q msg s = .ok (s', out)) :
    (s' = s ∧ out = []) ∨
    (msg.tag = .est ∧ ∃ b, msg.v.bit = some b ∧ s' = addEst f q msg.r.key b s ∧
      out = if Relays f q msg.r.key b s then broadcast msg else []) ∨
    (msg.tag = .aux ∧ ∃ b, msg.v.bit = some b ∧ q ∉ s.auxValues msg.r.key b ∧ out = [] ∧
      s' = { s with auxValues := set2 s.auxValues msg.r.key b (insert q (s.auxValues msg.r.key b)) }) ∨
    (msg.tag = .conf ∧ ∃ C, confKey msg.v = some C ∧ q ∉ s.confValues msg.r.key C ∧ out = [] ∧
      s' = { s with confValues := set2 s.confValues msg.r.key C (insert q (s.confValues msg.r.key C)) }) := by
  obtain ⟨tag, r, v⟩ := msg
  cases tag with
  | est =>
    simp only [process, onEst, bind, Except.bind, throw, throwThe, MonadExceptOf.throw, pure, Except.pure] at h
    cases hb : v.bit with
    | none => simp [hb] at h
    | some b =>
      cases hk : r.dictKey with
      | error e => simp [hb, hk] at h
      | ok k =>
        obtain ⟨-, rfl⟩ := dictKey_eq_ok.1 hk
        cases hs : v.slot with
        | error e => simp [hb, hk, hs] at h
        | ok b' =>
          obtain rfl := PyVal.slot_eq hb hs
          simp only [hb, hk, hs] at h
          by_cases hq : q ∈ s.estValues r.key b'
          · left
            simpa [hq, eq_comm] using h
          · right; left
            refine ⟨rfl, b', rfl, ?_⟩
            simpa [hq, eq_comm] using h
  | aux =>
    simp only [process, onAux, bind, Except.bind, throw, throwThe, MonadExceptOf.throw, pure, Except.pure] at h
    cases hb : v.bit with
    | none => simp [hb, Except.map] at h
    | some b =>
      cases hk : r.dictKey with
      | error e => simp [hb, hk, Except.map] at h
      | ok k =>
        obtain ⟨-, rfl⟩ := dictKey_eq_ok.1 hk
        cases hs : v.slot with
        | error e => simp [hb, hk, hs, Except.map] at h
        | ok b' =>
          obtain rfl := PyVal.slot_eq hb hs
          simp only [hb, hk, hs] at h
          by_cases hq : q ∈ s.auxValues r.key b'
          · simp [hq, Except.map] at h
          · right; right; left
            refine ⟨rfl, b', rfl, hq, ?_⟩
            simpa [hq, Except.map, eq_comm, and_comm] using h
  | conf =>
    simp only [process, onConf, bind, Except.bind, throw, throwThe, MonadExceptOf.throw, pure, Except.pure] at h
    cases hC : confKey v with
    | none => simp [hC, Except.map] at h
    | some C =>
      cases hk : r.dictKey with
      | error e => simp [hC, hk, Except.map] at h
      | ok k =>
        obtain ⟨-, rfl⟩ := dictKey_eq_ok.1 hk
        simp only [hC, hk] at h
        by_cases hq : q ∈ s.confValues r.key C
        · simp [hq, Except.map] at h
        · right; right; right
          refine ⟨rfl, C, rfl, hq, ?_⟩
          simpa [hq, Except.map, eq_comm, and_comm] using h

/-! ## The main thread -/

/-- What one step of the main thread can be. -/
inductive MainStep (f : Nat) (vi : PyVal) (coin : Nat → PyVal) (s : AbaState N) :
    AbaState N → List (Fin N × AbaMsg) → Prop where
  | refuse (h : s.phase = .input) (hv : vi.bit = none) :
      MainStep f vi coin s { s with phase := .raised .assertionError } []
  | enter (h : s.phase = .input) {b : Bool} (hv : vi.bit = some b) :
      MainStep f vi coin s (startRound 0 vi s).1 (startRound 0 vi s).2
  | aux {r : Nat} (h : s.phase = .bin r) (hb : s.binValues (.ofNat r) ≠ ∅) :
      MainStep f vi coin s { s with phase := .aux r, auxs := (r, first (s.binValues (.ofNat r))) :: s.auxs }
        (broadcast ⟨.aux, .ofNat r, .ofBit (first (s.binValues (.ofNat r)))⟩)
  | conf {r : Nat} {values : Finset Bool} (h : s.phase = .aux r) (hv : auxExit f r s = some values) :
      MainStep f vi coin s (onAuxExit r values s).1 (onAuxExit r values s).2
  | coin {r : Nat} {values : Finset Bool} (h : s.phase = .conf r) (hv : confExit f r s = some values) :
      MainStep f vi coin s { s with phase := .coin r values, rets := (r, values) :: s.rets } []
  | next {r : Nat} {values : Finset Bool} {est : PyVal} {s₁ : AbaState N} (h : s.phase = .coin r values)
      (hest : setNewEstimate r values (coin r) { s with coins := (r, coin r) :: s.coins } = (s₁, some est)) :
      MainStep f vi coin s (startRound (r + 1) est s₁).1 (startRound (r + 1) est s₁).2
  | abandon {r : Nat} {values : Finset Bool} (h : s.phase = .coin r values) :
      MainStep f vi coin s { s with coins := (r, coin r) :: s.coins, phase := .returned, recv := .killed } []

theorem setNewEstimate_none {r : Nat} {values : Finset Bool} {c : PyVal} {s₁ : AbaState N}
    (h : setNewEstimate r values c s = (s₁, none)) : s₁ = s := by
  unfold setNewEstimate at h
  split at h
  · simp only at h
    split at h
    · split at h
      · cases h
      · split at h
        · cases h; rfl
        · cases h
    · cases h
  · cases h

/-- **The next estimate**: the coin after both values, else the value, which is decided when the coin is the same. -/
theorem setNewEstimate_some {r : Nat} {values : Finset Bool} {c est : PyVal} {s₁ : AbaState N}
    (h : setNewEstimate r values c s = (s₁, some est)) :
    (values.card ≠ 1 ∧ est = c ∧ s₁ = s) ∨ (values.card = 1 ∧ est = .ofBit (first values) ∧ (s₁ = s ∨
      s.alreadyDecided = none ∧ c.key = .ofBit (first values) ∧
        s₁ = { s with alreadyDecided := some (first values), decisions := (r, first values) :: s.decisions })) := by
  unfold setNewEstimate at h
  by_cases hcard : values.card = 1
  · right
    simp only [hcard, if_true] at h
    by_cases hc : c.key = .ofBit (first values)
    · simp only [hc, if_true] at h
      cases hd : s.alreadyDecided with
      | none =>
        simp only [hd, Prod.mk.injEq, Option.some.injEq] at h
        exact ⟨hcard, h.2.symm, Or.inr ⟨rfl, hc, h.1.symm⟩⟩
      | some d =>
        simp only [hd] at h
        split at h
        · cases h
        · cases h
          exact ⟨hcard, rfl, Or.inl rfl⟩
    · simp only [hc, if_false, Prod.mk.injEq, Option.some.injEq] at h
      exact ⟨hcard, h.2.symm, Or.inl h.1.symm⟩
  · left
    simp only [hcard, if_false, Prod.mk.injEq, Option.some.injEq] at h
    exact ⟨hcard, h.2.symm, h.1.symm⟩

theorem mainStep_cases {vi : PyVal} {coin : Nat → PyVal} (h : mainStep f vi coin s = some (s', out)) :
    MainStep f vi coin s s' out := by
  unfold mainStep at h
  cases hp : s.phase with
  | input =>
    simp only [hp, Option.some.injEq] at h
    unfold onInput at h
    cases hv : vi.bit with
    | none =>
      simp only [hv, if_true, Prod.mk.injEq] at h
      obtain ⟨rfl, rfl⟩ := h
      exact .refuse hp hv
    | some b =>
      simp only [hv, reduceCtorEq, if_false] at h
      have hstep : MainStep f vi coin s _ _ := .enter hp hv
      rwa [h] at hstep
  | bin r =>
    simp only [hp, onBin] at h
    split at h
    · cases h
    · rename_i hb
      simp only [Option.some.injEq, Prod.mk.injEq] at h
      obtain ⟨rfl, rfl⟩ := h
      exact .aux hp hb
  | aux r =>
    simp only [hp, Option.map_eq_some_iff] at h
    obtain ⟨values, hv, h⟩ := h
    have hstep : MainStep f vi coin s _ _ := .conf hp hv
    rwa [h] at hstep
  | conf r =>
    simp only [hp, Option.map_eq_some_iff] at h
    obtain ⟨values, hv, h⟩ := h
    cases h
    exact .coin hp hv
  | coin r values =>
    simp only [hp, Option.some.injEq] at h
    unfold onCoin at h
    cases hest : setNewEstimate r values (coin r) { s with coins := (r, coin r) :: s.coins } with
    | mk s₁ est =>
      cases est with
      | some est =>
        simp only [hest] at h
        have hstep : MainStep f vi coin s _ _ := .next hp hest
        rwa [h] at hstep
      | none =>
        simp only [hest, Prod.mk.injEq] at h
        have hs₁ := setNewEstimate_none hest
        subst hs₁
        obtain ⟨rfl, rfl⟩ := h
        exact .abandon hp
  | returned => simp [hp] at h
  | raised e => simp [hp] at h

/-- **Beginning a round** with an estimate that is a list index. -/
theorem startRound_of_slot {r : Nat} {est : PyVal} {b : Bool} (h : est.slot = .ok b) :
    startRound r est s = ({ s with
        phase := .bin r
        started := (r, b) :: s.started
        estSent := fun k c => decide (k = .ofNat r ∧ c = b) || s.estSent k c },
      if s.estSent (.ofNat r) b then [] else broadcast ⟨.est, .ofNat r, est⟩) := by
  unfold startRound
  rw [h]
  simp only
  by_cases hsent : s.estSent (.ofNat r) b = true
  · rw [if_pos hsent, if_pos hsent]
    congr 2
    funext k c
    by_cases hk : k = .ofNat r ∧ c = b
    · rw [hk.1, hk.2, hsent, Bool.or_true]
    · rw [decide_eq_false hk, Bool.false_or]
  · rw [if_neg hsent, if_neg hsent]
    congr 2
    funext k c
    rw [set2_apply]
    by_cases hk : k = .ofNat r ∧ c = b
    · rw [if_pos hk, decide_eq_true hk, Bool.true_or]
    · rw [if_neg hk, decide_eq_false hk, Bool.false_or]

/-! ## What only grows -/

structure Grow (s s' : AbaState N) : Prop where
  started : ∀ x ∈ s.started, x ∈ s'.started
  auxs : ∀ x ∈ s.auxs, x ∈ s'.auxs
  confs : ∀ x ∈ s.confs, x ∈ s'.confs
  rets : ∀ x ∈ s.rets, x ∈ s'.rets

theorem Grow.refl (s : AbaState N) : Grow s s :=
  ⟨fun _ h => h, fun _ h => h, fun _ h => h, fun _ h => h⟩

theorem startRound_grow (r : Nat) (est : PyVal) (s : AbaState N) : Grow s (startRound r est s).1 := by
  cases h : est.slot with
  | error e =>
    have hstep : startRound r est s = ({ s with phase := .raised e }, []) := by rw [startRound, h]
    rw [hstep]
    exact ⟨fun _ h => h, fun _ h => h, fun _ h => h, fun _ h => h⟩
  | ok b =>
    rw [startRound_of_slot h]
    exact ⟨fun _ h => List.mem_cons_of_mem _ h, fun _ h => h, fun _ h => h, fun _ h => h⟩

theorem onAuxExit_grow (r : Nat) (values : Finset Bool) (s : AbaState N) : Grow s (onAuxExit r values s).1 := by
  unfold onAuxExit
  split
  · exact ⟨fun _ h => h, fun _ h => h, fun _ h => h, fun _ h => List.mem_cons_of_mem _ h⟩
  · exact ⟨fun _ h => h, fun _ h => h, fun _ h => List.mem_cons_of_mem _ h, fun _ h => h⟩

/-- Setting the next estimate touches neither the tables nor what was sent. -/
theorem setNewEstimate_frame {r : Nat} {values : Finset Bool} {c est : PyVal} {s₁ : AbaState N}
    (h : setNewEstimate r values c s = (s₁, some est)) :
    s₁ = { s with alreadyDecided := s₁.alreadyDecided, decisions := s₁.decisions } := by
  obtain ⟨-, -, rfl⟩ | ⟨-, -, rfl | ⟨-, -, rfl⟩⟩ := setNewEstimate_some h <;> rfl

theorem mainStep_grow {vi : PyVal} {coin : Nat → PyVal} (h : mainStep f vi coin s = some (s', out)) : Grow s s' := by
  cases mainStep_cases h with
  | refuse hp hv => exact ⟨fun _ h => h, fun _ h => h, fun _ h => h, fun _ h => h⟩
  | enter hp hv  => exact startRound_grow 0 vi s
  | aux hp hb    =>
    exact ⟨fun _ h => h, fun _ h => List.mem_cons_of_mem _ h, fun _ h => h, fun _ h => h⟩
  | conf hp hv   => exact onAuxExit_grow _ _ s
  | coin hp hv   =>
    exact ⟨fun _ h => h, fun _ h => h, fun _ h => h, fun _ h => List.mem_cons_of_mem _ h⟩
  | @next r values est s₁ hp hest =>
    have hgrow := startRound_grow (r + 1) est s₁
    rw [setNewEstimate_frame hest] at hgrow
    rw [setNewEstimate_frame hest]
    exact ⟨hgrow.started, hgrow.auxs, hgrow.confs, hgrow.rets⟩
  | abandon hp   => exact ⟨fun _ h => h, fun _ h => h, fun _ h => h, fun _ h => h⟩

theorem onMsg_grow (q : Fin N) (msg : AbaMsg) (s : AbaState N) : Grow s (onMsg f q msg s).1 := by
  unfold onMsg
  cases h : process f q msg s with
  | error e => exact ⟨fun _ h => h, fun _ h => h, fun _ h => h, fun _ h => h⟩
  | ok x =>
    obtain ⟨s', out⟩ := x
    obtain ⟨rfl, -⟩ | ⟨-, b, -, rfl, -⟩ | ⟨-, b, -, -, -, rfl⟩ | ⟨-, C, -, -, -, rfl⟩ := process_cases h
    · exact Grow.refl _
    · exact ⟨fun _ h => h, fun _ h => h, fun _ h => h, fun _ h => h⟩
    · exact ⟨fun _ h => h, fun _ h => h, fun _ h => h, fun _ h => h⟩
    · exact ⟨fun _ h => h, fun _ h => h, fun _ h => h, fun _ h => h⟩

/-! ## One `AUX` and one `CONF` a round -/

/-- The rounds of what was sent, seen from where the main thread stands. -/
def Position (s : AbaState N) : Prop :=
  match s.phase with
  | .input    => s.auxs = [] ∧ s.confs = []
  | .bin r    => (∀ x ∈ s.auxs, x.1 < r) ∧ ∀ x ∈ s.confs, x.1 < r
  | .aux r    => (∀ x ∈ s.auxs, x.1 ≤ r) ∧ ∀ x ∈ s.confs, x.1 < r
  | .conf r   => (∀ x ∈ s.auxs, x.1 ≤ r) ∧ ∀ x ∈ s.confs, x.1 ≤ r
  | .coin r V => (∀ x ∈ s.auxs, x.1 ≤ r) ∧ (∀ x ∈ s.confs, x.1 ≤ r) ∧ (r, V) ∈ s.rets
  | .returned => True
  | .raised _ => True

structure Clean (s : AbaState N) : Prop where
  position : Position s
  auxs : (s.auxs.map Prod.fst).Nodup
  confs : (s.confs.map Prod.fst).Nodup
  confSent : ∀ k C, s.confSent k C = true → ∃ x ∈ s.confs, k = .ofNat x.1

theorem init_clean : Clean (init (N := N)) :=
  ⟨⟨rfl, rfl⟩, List.nodup_nil, List.nodup_nil, fun _ _ h => by cases h⟩

theorem nodup_cons_of_lt {α : Type} {l : List (Nat × α)} {r : Nat} {x : α} (h : (l.map Prod.fst).Nodup)
    (hlt : ∀ y ∈ l, y.1 < r) : (((r, x) :: l).map Prod.fst).Nodup := by
  rw [List.map_cons, List.nodup_cons]
  refine ⟨fun hmem => ?_, h⟩
  obtain ⟨y, hy, hyr⟩ := List.mem_map.1 hmem
  exact absurd (hlt y hy) (by omega)

theorem le_of_mem_cons {α : Type} {l : List (Nat × α)} {r : Nat} {x : α} (hlt : ∀ y ∈ l, y.1 < r) :
    ∀ y ∈ (r, x) :: l, y.1 ≤ r := by
  intro y hy
  rcases List.mem_cons.1 hy with rfl | hy
  · exact le_rfl
  · exact Nat.le_of_lt (hlt y hy)

theorem Clean.confSent_aux (h : Clean s) {r : Nat} (hp : s.phase = .aux r) (C : Finset Bool) :
    s.confSent (.ofNat r) C = false := by
  rw [← Bool.not_eq_true]
  intro hsent
  obtain ⟨x, hx, hr⟩ := h.confSent _ _ hsent
  have hpos := h.position
  rw [Position, hp] at hpos
  have := hpos.2 x hx
  have := PyVal.ofNat_inj hr
  omega

/-- **After the wait for `AUX`s `CONF` is sent.** -/
theorem Clean.onAuxExit_eq (h : Clean s) {r : Nat} (hp : s.phase = .aux r) (values : Finset Bool) :
    onAuxExit r values s = ({ s with
        phase := .conf r
        confSent := set2 s.confSent (.ofNat r) values true
        confs := (r, s.binValues (.ofNat r)) :: s.confs },
      broadcast ⟨.conf, .ofNat r, toTuple (s.binValues (.ofNat r))⟩) := by
  rw [onAuxExit, h.confSent_aux hp]
  rfl

theorem startRound_clean (h : Clean s) {r : Nat} (est : PyVal) (hauxs : ∀ x ∈ s.auxs, x.1 < r)
    (hconfs : ∀ x ∈ s.confs, x.1 < r) : Clean (startRound r est s).1 := by
  cases hs : est.slot with
  | error e =>
    have hstep : startRound r est s = ({ s with phase := .raised e }, []) := by rw [startRound, hs]
    rw [hstep]
    exact ⟨trivial, h.auxs, h.confs, h.confSent⟩
  | ok b =>
    rw [startRound_of_slot hs]
    exact ⟨⟨hauxs, hconfs⟩, h.auxs, h.confs, h.confSent⟩

theorem mainStep_clean {vi : PyVal} {coin : Nat → PyVal} (h : mainStep f vi coin s = some (s', out)) (hc : Clean s) :
    Clean s' := by
  have hpos := hc.position
  unfold Position at hpos
  cases mainStep_cases h with
  | refuse hp hv => exact ⟨trivial, hc.auxs, hc.confs, hc.confSent⟩
  | enter hp hv =>
    rw [hp] at hpos
    exact startRound_clean hc vi (by simp [hpos.1]) (by simp [hpos.2])
  | aux hp hb =>
    rw [hp] at hpos
    exact ⟨⟨le_of_mem_cons hpos.1, hpos.2⟩, nodup_cons_of_lt hc.auxs hpos.1, hc.confs, hc.confSent⟩
  | @conf r values hp hv =>
    rw [hp] at hpos
    rw [hc.onAuxExit_eq hp]
    refine ⟨⟨hpos.1, le_of_mem_cons hpos.2⟩, hc.auxs, nodup_cons_of_lt hc.confs hpos.2, fun k C hsent => ?_⟩
    simp only [set2_apply] at hsent
    split at hsent
    · rename_i hk
      exact ⟨_, List.mem_cons_self, hk.1⟩
    · obtain ⟨x, hx, hk⟩ := hc.confSent k C hsent
      exact ⟨x, List.mem_cons_of_mem _ hx, hk⟩
  | coin hp hv =>
    rw [hp] at hpos
    exact ⟨⟨hpos.1, hpos.2, List.mem_cons_self⟩, hc.auxs, hc.confs, hc.confSent⟩
  | @next r values est s₁ hp hest =>
    rw [hp] at hpos
    have hframe := setNewEstimate_frame hest
    have hs₁ : Clean s₁ := by
      rw [hframe]
      refine ⟨?_, hc.auxs, hc.confs, hc.confSent⟩
      simp only [Position, hp]
      exact hpos
    refine startRound_clean hs₁ est (fun x hx => ?_) (fun x hx => ?_)
    · rw [hframe] at hx
      exact Nat.lt_succ_of_le (hpos.1 x hx)
    · rw [hframe] at hx
      exact Nat.lt_succ_of_le (hpos.2.1 x hx)
  | abandon hp => exact ⟨trivial, hc.auxs, hc.confs, hc.confSent⟩

theorem onMsg_clean (q : Fin N) (msg : AbaMsg) (hc : Clean s) : Clean (onMsg f q msg s).1 := by
  unfold onMsg
  cases h : process f q msg s with
  | error e => exact ⟨hc.position, hc.auxs, hc.confs, hc.confSent⟩
  | ok x =>
    obtain ⟨s', out⟩ := x
    obtain ⟨rfl, -⟩ | ⟨-, b, -, rfl, -⟩ | ⟨-, b, -, -, -, rfl⟩ | ⟨-, C, -, -, -, rfl⟩ := process_cases h <;>
      exact ⟨hc.position, hc.auxs, hc.confs, hc.confSent⟩

/-- What a party has sent in one round is one message of a kind. -/
theorem eq_of_nodup {α : Type} {l : List (Nat × α)} (h : (l.map Prod.fst).Nodup) {r : Nat} {x y : α} (hx : (r, x) ∈ l)
    (hy : (r, y) ∈ l) : x = y :=
  congrArg Prod.snd (List.inj_on_of_nodup_map h hx hy rfl)

end Aba
end Dpid
