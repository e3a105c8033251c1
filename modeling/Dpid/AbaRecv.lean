import Dpid.AbaInv
import Mathlib
/-!
# AbaRecv — which messages end the receive loop of `binaryagreement`

A repeated `EST` is passed over; a repeated `AUX` or `CONF`, a value outside the protocol's, a round without a hash and
a bit that is a `float` each raise, and an exception ends the thread (`survives_iff`).
-/
namespace Dpid
namespace Aba

variable {N f : Nat} {q : Fin N} {msg : AbaMsg} {s : AbaState N}

/-- The message repeats one recorded from its sender. -/
def Recorded (q : Fin N) (msg : AbaMsg) (s : AbaState N) : Prop :=
  match msg.tag with
  | .est  => ∃ b, msg.v.bit = some b ∧ q ∈ s.estValues msg.r.key b
  | .aux  => ∃ b, msg.v.bit = some b ∧ q ∈ s.auxValues msg.r.key b
  | .conf => ∃ C, confKey msg.v = some C ∧ q ∈ s.confValues msg.r.key C

/-- The value is none of the protocol's. -/
def Outside (msg : AbaMsg) : Prop :=
  match msg.tag with
  | .est  => msg.v.bit = none
  | .aux  => msg.v.bit = none
  | .conf => confKey msg.v = none

/-- The loop goes on, and of a message that is recorded or outside nothing is kept and nothing sent. -/
def Survives (f : Nat) (q : Fin N) (msg : AbaMsg) (s : AbaState N) : Prop :=
  (onMsg f q msg s).1.recv = .running ∧
    (Recorded q msg s ∨ Outside msg →
      (onMsg f q msg s).1.estValues = s.estValues ∧ (onMsg f q msg s).1.auxValues = s.auxValues ∧
      (onMsg f q msg s).1.confValues = s.confValues ∧ (onMsg f q msg s).1.binValues = s.binValues ∧
      (onMsg f q msg s).2 = [])

/-- `v` is `0` or `1`, as an `int` or as a `bool`. -/
def IsBit (v : PyVal) (b : Bool) : Prop := v = .ofBit b ∨ v = .atom (.bool b)

/-- The round has a hash and the value is one the loop takes, for `AUX` and `CONF` not recorded from its sender. -/
def Accepted (q : Fin N) (msg : AbaMsg) (s : AbaState N) : Prop :=
  msg.r.hashable = true ∧
    match msg.tag with
    | .est  => ∃ b, IsBit msg.v b
    | .aux  => ∃ b, IsBit msg.v b ∧ q ∉ s.auxValues msg.r.key b
    | .conf => ∃ C, confKey msg.v = some C ∧ q ∉ s.confValues msg.r.key C

theorem bit_of_isBit {v : PyVal} {b : Bool} (h : IsBit v b) : v.bit = some b := by
  rcases h with rfl | rfl
  · exact PyVal.bit_ofBit b
  · cases b <;> decide

/-- The assertion and the list index let a bit through, and nothing else. -/
theorem isBit_iff {v : PyVal} {b : Bool} : IsBit v b ↔ v.bit = some b ∧ v.slot = .ok b := by
  constructor
  · intro h
    have hb := bit_of_isBit h
    exact ⟨hb, (PyVal.slot_of_bit hb).2 h⟩
  · rintro ⟨hb, hs⟩
    exact (PyVal.slot_of_bit hb).1 hs

theorem dictKey_isOk_iff {r : PyVal} : r.dictKey = .ok r.key ↔ r.hashable = true := by
  rw [dictKey_eq_ok]
  simp

theorem onEst_isOk_iff {r v : PyVal} : (∃ x, onEst f q r v s = .ok x) ↔ r.hashable = true ∧ ∃ b, IsBit v b := by
  simp only [onEst, bind, Except.bind, throw, throwThe, MonadExceptOf.throw, pure, Except.pure]
  constructor
  · rintro ⟨x, h⟩
    cases hb : v.bit with
    | none => simp [hb] at h
    | some b =>
      cases hk : r.dictKey with
      | error e => simp [hb, hk] at h
      | ok k =>
        cases hs : v.slot with
        | error e => simp [hb, hk, hs] at h
        | ok b' =>
          obtain rfl := PyVal.slot_eq hb hs
          exact ⟨(dictKey_eq_ok.1 hk).1, b', isBit_iff.2 ⟨hb, hs⟩⟩
  · rintro ⟨hr, b, hv⟩
    obtain ⟨hb, hs⟩ := isBit_iff.1 hv
    simp only [hb, dictKey_isOk_iff.2 hr, hs]
    by_cases hq : q ∈ s.estValues r.key b
    · simp [hq]
    · simp [hq]

theorem onAux_isOk_iff {r v : PyVal} :
    (∃ x, onAux q r v s = .ok x) ↔ r.hashable = true ∧ ∃ b, IsBit v b ∧ q ∉ s.auxValues r.key b := by
  simp only [onAux, bind, Except.bind, throw, throwThe, MonadExceptOf.throw, pure, Except.pure]
  constructor
  · rintro ⟨x, h⟩
    cases hb : v.bit with
    | none => simp [hb] at h
    | some b =>
      cases hk : r.dictKey with
      | error e => simp [hb, hk] at h
      | ok k =>
        obtain ⟨hr, rfl⟩ := dictKey_eq_ok.1 hk
        cases hs : v.slot with
        | error e => simp [hb, hk, hs] at h
        | ok b' =>
          obtain rfl := PyVal.slot_eq hb hs
          by_cases hq : q ∈ s.auxValues r.key b'
          · simp [hb, hk, hs, hq] at h
          · exact ⟨hr, b', isBit_iff.2 ⟨hb, hs⟩, hq⟩
  · rintro ⟨hr, b, hv, hq⟩
    obtain ⟨hb, hs⟩ := isBit_iff.1 hv
    simp [hb, dictKey_isOk_iff.2 hr, hs, hq]

theorem onConf_isOk_iff {r v : PyVal} :
    (∃ x, onConf q r v s = .ok x) ↔ r.hashable = true ∧ ∃ C, confKey v = some C ∧ q ∉ s.confValues r.key C := by
  simp only [onConf, bind, Except.bind, throw, throwThe, MonadExceptOf.throw, pure, Except.pure]
  constructor
  · rintro ⟨x, h⟩
    cases hC : confKey v with
    | none => simp [hC] at h
    | some C =>
      cases hk : r.dictKey with
      | error e => simp [hC, hk] at h
      | ok k =>
        obtain ⟨hr, rfl⟩ := dictKey_eq_ok.1 hk
        by_cases hq : q ∈ s.confValues r.key C
        · simp [hC, hk, hq] at h
        · exact ⟨hr, C, rfl, hq⟩
  · rintro ⟨hr, C, hC, hq⟩
    simp [hC, dictKey_isOk_iff.2 hr, hq]

theorem map_isOk_iff {α β : Type} {x : Except Exn α} {g : α → β} : (∃ y, x.map g = .ok y) ↔ ∃ y, x = .ok y := by
  cases x <;> simp [Except.map]

/-- **A message raises nothing just when it is accepted.** -/
theorem process_isOk_iff : (∃ x, process f q msg s = .ok x) ↔ Accepted q msg s := by
  obtain ⟨tag, r, v⟩ := msg
  cases tag with
  | est  => exact onEst_isOk_iff
  | aux  => exact map_isOk_iff.trans onAux_isOk_iff
  | conf => exact map_isOk_iff.trans onConf_isOk_iff

/-- Of an accepted message that is recorded nothing is kept: it is an `EST`. -/
theorem process_recorded (h : Accepted q msg s) (hrec : Recorded q msg s) : process f q msg s = .ok (s, []) := by
  obtain ⟨tag, r, v⟩ := msg
  obtain ⟨hr, h⟩ := h
  cases tag with
  | est =>
    obtain ⟨b, hv⟩ := h
    obtain ⟨hb, hs⟩ := isBit_iff.1 hv
    obtain ⟨b', hb', hq⟩ : ∃ b, v.bit = some b ∧ q ∈ s.estValues r.key b := hrec
    obtain rfl : b = b' := Option.some.inj (hb.symm.trans hb')
    simp [process, onEst, bind, Except.bind, pure, Except.pure, hb, hs, dictKey_isOk_iff.2 hr, hq]
  | aux =>
    obtain ⟨b, hv, hq⟩ := h
    obtain ⟨b', hb', hq'⟩ : ∃ b, v.bit = some b ∧ q ∈ s.auxValues r.key b := hrec
    obtain rfl : b = b' := Option.some.inj ((bit_of_isBit hv).symm.trans hb')
    exact absurd hq' hq
  | conf =>
    obtain ⟨C, hC, hq⟩ := h
    obtain ⟨C', hC', hq'⟩ : ∃ C, confKey v = some C ∧ q ∈ s.confValues r.key C := hrec
    obtain rfl : C = C' := Option.some.inj (hC.symm.trans hC')
    exact absurd hq' hq

theorem not_outside (h : Accepted q msg s) : ¬ Outside msg := by
  obtain ⟨tag, r, v⟩ := msg
  obtain ⟨-, h⟩ := h
  intro hout
  cases tag with
  | est =>
    obtain ⟨b, hv⟩ := h
    exact absurd ((bit_of_isBit hv).symm.trans hout) (by simp)
  | aux =>
    obtain ⟨b, hv, -⟩ := h
    exact absurd ((bit_of_isBit hv).symm.trans hout) (by simp)
  | conf =>
    obtain ⟨C, hC, -⟩ := h
    exact absurd (hC.symm.trans hout) (by simp)

theorem process_recv {s' : AbaState N} {out : List (Fin N × AbaMsg)} (h : process f q msg s = .ok (s', out)) :
    s'.recv = s.recv := by
  obtain ⟨rfl, -⟩ | ⟨-, b, -, rfl, -⟩ | ⟨-, b, -, -, -, rfl⟩ | ⟨-, C, -, -, -, rfl⟩ := process_cases h <;> rfl

end Aba

open Aba

/-- **Which messages the receive loop survives**, in every state in which it runs: those of a round with a hash that are
an `EST` of `0` or `1`, or an `AUX` of `0` or `1` or a `CONF` of `(0,)`, `(1,)` or `(0, 1)` not recorded from the
sender. -/
theorem recv_survives_iff {N : Nat} (f : Nat) (q : Fin N) (msg : AbaMsg) {s : AbaState N} (hs : s.recv = .running) :
    Survives f q msg s ↔ Accepted q msg s := by
  constructor
  · rintro ⟨hrun, -⟩
    by_contra h
    rw [← process_isOk_iff (f := f), not_exists] at h
    unfold onMsg at hrun
    cases hp : process f q msg s with
    | ok x    => exact h x hp
    | error e => simp [hp] at hrun
  · intro h
    obtain ⟨⟨s', out⟩, hp⟩ := process_isOk_iff (f := f).2 h
    have hmsg : onMsg f q msg s = (s', out) := by rw [onMsg, hp]
    rw [Survives, hmsg]
    refine ⟨(process_recv hp).trans hs, ?_⟩
    rintro (hrec | hout)
    · rw [process_recorded h hrec] at hp
      cases hp
      exact ⟨rfl, rfl, rfl, rfl, rfl⟩
    · exact absurd hout (not_outside h)

/-- An `EST` of `True` for a round named by a string. -/
theorem recv_survives_iff_est : Survives 1 (3 : Fin 4) ⟨.est, .atom (.str "r"), .atom (.bool true)⟩ init :=
  (recv_survives_iff 1 3 ⟨.est, .atom (.str "r"), .atom (.bool true)⟩ rfl).2 ⟨rfl, true, Or.inr rfl⟩

/-- Party 3 sends party 0 the same `AUX` twice. -/
theorem recv_survives_counterexample : ¬ ∀ c, Net.Reachable (binaryagreement (N := 4) 1 (fun _ _ => .ofBit false)
    (fun _ => .ofBit false)) {3} c → ∀ p ∉ ({3} : Finset (Fin 4)), (c.loc p).recv = .running →
      ∀ q msg, Survives 1 q msg (c.loc p) := by
  intro h
  have hrun : (Net.exec (binaryagreement (N := 4) 1 (fun _ _ => .ofBit false) (fun _ => .ofBit false)) {3}
      (fun _ _ => true) [.inject ⟨3, 0, ⟨.aux, .ofNat 0, .ofBit true⟩⟩, .recv 0]
      (binaryagreement 1 (fun _ _ => .ofBit false) (fun _ => .ofBit false)).start).any (fun c =>
        decide ((c.loc 0).recv = .running ∧ (3 : Fin 4) ∈ (c.loc 0).auxValues (.ofNat 0) true)) = true := by
    decide +kernel
  obtain ⟨c, hc, hout⟩ := Net.exists_run_of_exec hrun (fun _ _ _ => trivial)
  obtain ⟨hrecv, hrec⟩ := of_decide_eq_true hout
  have hsurvives := h c hc 0 (by decide) hrecv 3
    ⟨.aux, .ofNat 0, .ofBit true⟩
  have hbit : (PyVal.ofBit true).bit = some true := PyVal.bit_ofBit true
  have hslot : (PyVal.ofBit true).slot = .ok true := PyVal.slot_ofBit true
  simp [Survives, onMsg, process, onAux, bind, Except.bind, throw, throwThe, MonadExceptOf.throw, Except.map, hbit, hslot,
    hrec] at hsurvives

end Dpid
