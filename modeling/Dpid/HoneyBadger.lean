import Dpid.Bytes
import Mathlib.Data.List.Induction
import Mathlib.Data.List.Perm.Subperm
/-!
# HoneyBadger — the transaction buffer of `HoneyBadgerBFT.run` (`honeybadgerbft/core/honeybadger.py`)

A round takes `B` transactions from the left of the buffer, runs, and puts those that the block does not contain back to
the left.  `submit_tx` appends at any moment.  Two things go wrong: `popleft` raises on a short buffer, what was popped
being lost, and `appendleft` turns the order of what comes back around.

The block of a round is what `_run_round` returned, any list.  The lists `submitted` and `delivered` are history: every
transaction submitted, and those proposed in a round whose block contained them.
-/
namespace Dpid

/-- Where `run` stands: at the top of its loop, waiting for the round's block, or at its end. -/
inductive HbPhase (Tx : Type) where
  | loop
  | runRound (txToSend : List Tx)
  | broke
  | raised (e : Exn)
deriving DecidableEq

structure HbState (Tx : Type) where
  transactionBuffer : List Tx
  round : Nat
  phase : HbPhase Tx
  submitted : List Tx
  delivered : List Tx

inductive HbEvent (Tx : Type) where
  | submitTx (tx : Tx)
  | select
  | block (newTx : List Tx)

namespace HoneyBadger

variable {Tx : Type}

def init : HbState Tx := ⟨[], 0, .loop, [], []⟩

/-- `for _ in range(B): tx_to_send.append(self.transaction_buffer.popleft())`: what it raised or popped, and the buffer. -/
def selectTx : Nat → List Tx → List Tx → Except Exn (List Tx) × List Tx
  | 0, txToSend, buffer              => (.ok txToSend, buffer)
  | _ + 1, _, []                     => (.error .indexError, [])
  | B + 1, txToSend, tx :: buffer => selectTx B (txToSend ++ [tx]) buffer

/-- `for _tx in tx_to_send: if _tx not in new_tx: self.transaction_buffer.appendleft(_tx)`. -/
def putBack [DecidableEq Tx] (newTx : List Tx) : List Tx → List Tx → List Tx
  | [], buffer            => buffer
  | tx :: txToSend, buffer => putBack newTx txToSend (if tx ∈ newTx then buffer else tx :: buffer)

def submitTx (tx : Tx) (s : HbState Tx) : HbState Tx :=
  { s with transactionBuffer := s.transactionBuffer ++ [tx], submitted := s.submitted ++ [tx] }

def select (B : Nat) (s : HbState Tx) : HbState Tx :=
  match selectTx B [] s.transactionBuffer with
  | (.ok txToSend, buffer) => { s with transactionBuffer := buffer, phase := .runRound txToSend }
  | (.error e, buffer)     => { s with transactionBuffer := buffer, phase := .raised e }

def block [DecidableEq Tx] (K : Nat) (txToSend newTx : List Tx) (s : HbState Tx) : HbState Tx :=
  { s with
    transactionBuffer := putBack newTx txToSend s.transactionBuffer
    round := s.round + 1
    phase := if K ≤ s.round + 1 then .broke else .loop
    delivered := s.delivered ++ txToSend.filter (· ∈ newTx) }

/-- `run` with batches of `B` and `K` rounds, beside the calls of `submit_tx`. -/
def step [DecidableEq Tx] (B K : Nat) (s : HbState Tx) : HbEvent Tx → Option (HbState Tx)
  | .submitTx tx => some (submitTx tx s)
  | .select      => if s.phase matches .loop then some (select B s) else none
  | .block newTx =>
    match s.phase with
    | .runRound txToSend => some (block K txToSend newTx s)
    | _                  => none

def run [DecidableEq Tx] (B K : Nat) : HbState Tx → List (HbEvent Tx) → Option (HbState Tx)
  | s, []      => some s
  | s, e :: es => (step B K s e).bind (fun s' => run B K s' es)

/-! ## What is asked -/

/-- The submitted transactions, in order of submission, without the delivered ones. -/
def backlog [DecidableEq Tx] (s : HbState Tx) : List Tx := s.submitted.diff s.delivered

/-- Between rounds the buffer is the backlog, and no round has raised. -/
def Kept [DecidableEq Tx] (s : HbState Tx) : Prop :=
  match s.phase with
  | .loop | .broke       => s.transactionBuffer = backlog s
  | .runRound _          => True
  | .raised _            => False

/-- The step keeps them: a round that starts has its `B` transactions, and what comes back from the round that ends reads
the same in both directions. -/
def KeepsStep [DecidableEq Tx] (B : Nat) (s : HbState Tx) : HbEvent Tx → Prop
  | .submitTx _  => True
  | .select      => B ≤ s.transactionBuffer.length
  | .block newTx =>
    match s.phase with
    | .runRound txToSend => (txToSend.filter (· ∉ newTx)).reverse = txToSend.filter (· ∉ newTx)
    | _                  => True

/-! ## Lists without what was delivered -/

section Lists

variable [DecidableEq Tx]

theorem diff_append_right : ∀ (d l r : List Tx), List.Subperm d l → (l ++ r).diff d = l.diff d ++ r
  | [], l, r, _     => by rw [List.diff_nil, List.diff_nil]
  | x :: d, l, r, h => by
    have hx : x ∈ l := h.subset List.mem_cons_self
    have hd : List.Subperm d (l.erase x) := by
      have herase := h.erase x
      rwa [List.erase_cons_head] at herase
    rw [List.diff_cons, List.diff_cons, List.erase_append_left _ hx, diff_append_right d (l.erase x) r hd]

theorem diff_filter (p : Tx → Bool) : ∀ l : List Tx, l.diff (l.filter p) = l.filter (fun x => !p x)
  | []     => rfl
  | x :: l => by
    cases hx : p x with
    | true  =>
      rw [List.filter_cons_of_pos hx, List.filter_cons_of_neg (by simp [hx]), List.diff_cons, List.erase_cons_head,
        diff_filter p l]
    | false =>
      rw [List.filter_cons_of_neg (by simp [hx]), List.filter_cons_of_pos (by simp [hx]), ← diff_filter p l]
      refine cons_diff_of_not_mem (fun hmem => ?_) l
      rw [(List.mem_filter.1 hmem).2] at hx
      cases hx
where
  cons_diff_of_not_mem {x : Tx} : ∀ {d : List Tx}, x ∉ d → ∀ l : List Tx, (x :: l).diff d = x :: l.diff d
    | [], _, l     => rfl
    | y :: d, h, l => by
      have hxy : ¬ (x == y) = true := fun heq => h (beq_iff_eq.1 heq ▸ List.mem_cons_self)
      rw [List.diff_cons, List.diff_cons, List.erase_cons_tail hxy]
      exact cons_diff_of_not_mem (fun hmem => h (List.mem_cons_of_mem y hmem)) _

end Lists

/-! ## The loops of a round -/

theorem selectTx_of_le : ∀ (B : Nat) (txToSend buffer : List Tx), B ≤ buffer.length →
    selectTx B txToSend buffer = (.ok (txToSend ++ buffer.take B), buffer.drop B)
  | 0, txToSend, buffer, _           => by simp [selectTx]
  | B + 1, _, [], h                  => absurd h (by simp)
  | B + 1, txToSend, tx :: buffer, h => by
    rw [selectTx, selectTx_of_le B _ buffer (Nat.le_of_succ_le_succ h), List.append_assoc]
    rfl

/-- On a short buffer nothing is left of it. -/
theorem selectTx_of_lt : ∀ (B : Nat) (txToSend buffer : List Tx), buffer.length < B →
    selectTx B txToSend buffer = (.error .indexError, [])
  | 0, _, _, h                       => absurd h (by simp)
  | B + 1, _, [], _                  => rfl
  | B + 1, txToSend, tx :: buffer, h => by
    rw [selectTx, selectTx_of_lt B _ buffer (Nat.lt_of_succ_lt_succ h)]

/-- **What comes back comes back the other way around.** -/
theorem putBack_eq [DecidableEq Tx] (newTx : List Tx) : ∀ txToSend buffer : List Tx,
    putBack newTx txToSend buffer = (txToSend.filter (· ∉ newTx)).reverse ++ buffer
  | [], buffer             => rfl
  | tx :: txToSend, buffer => by
    rw [putBack, putBack_eq newTx txToSend]
    by_cases htx : tx ∈ newTx
    · rw [if_pos htx, List.filter_cons_of_neg (by simpa using htx)]
    · rw [if_neg htx, List.filter_cons_of_pos (by simpa using htx), List.reverse_cons, List.append_assoc]
      rfl

/-! ## Runs -/

section Runs

variable [DecidableEq Tx] {B K : Nat}

/-- What is known of a run that has kept everything so far: in a round, what is proposed stands before the buffer. -/
structure Inv (s : HbState Tx) : Prop where
  delivered : List.Subperm s.delivered s.submitted
  raised : ∀ e, s.phase ≠ .raised e
  loop : s.phase = .loop ∨ s.phase = .broke → s.transactionBuffer = backlog s
  round : ∀ txToSend, s.phase = .runRound txToSend → txToSend ++ s.transactionBuffer = backlog s

theorem inv_init : Inv (init : HbState Tx) := ⟨List.Subperm.refl _, nofun, fun _ => rfl, nofun⟩

theorem Inv.kept {s : HbState Tx} (h : Inv s) : Kept s := by
  unfold Kept
  cases hphase : s.phase with
  | loop       => exact h.loop (.inl hphase)
  | broke      => exact h.loop (.inr hphase)
  | runRound _ => trivial
  | raised e   => exact h.raised e hphase

theorem backlog_submitTx {s : HbState Tx} (h : Inv s) (tx : Tx) : backlog (submitTx tx s) = backlog s ++ [tx] :=
  diff_append_right s.delivered s.submitted [tx] h.delivered

theorem inv_submitTx {s : HbState Tx} (h : Inv s) (tx : Tx) : Inv (submitTx tx s) where
  delivered := h.delivered.trans (List.sublist_append_left _ _).subperm
  raised := h.raised
  loop := fun hphase => by
    rw [backlog_submitTx h, ← h.loop hphase]
    rfl
  round := fun txToSend hphase => by
    rw [backlog_submitTx h, ← h.round txToSend hphase, List.append_assoc]
    rfl

omit [DecidableEq Tx] in
theorem select_of_le {s : HbState Tx} (hB : B ≤ s.transactionBuffer.length) :
    select B s = { s with
      transactionBuffer := s.transactionBuffer.drop B, phase := .runRound (s.transactionBuffer.take B) } := by
  rw [select, selectTx_of_le B [] _ hB]
  rfl

theorem inv_select {s : HbState Tx} (h : Inv s) (hphase : s.phase = .loop) (hB : B ≤ s.transactionBuffer.length) :
    Inv (select B s) := by
  rw [select_of_le hB]
  refine ⟨h.delivered, nofun, (by rintro (h | h) <;> cases h), fun txToSend hround => ?_⟩
  cases hround
  exact (List.take_append_drop B s.transactionBuffer).trans (h.loop (.inl hphase))

/-- A short buffer ends the run and is lost. -/
theorem not_kept_select {s : HbState Tx} (hB : s.transactionBuffer.length < B) : ¬ Kept (select B s) := by
  rw [select, selectTx_of_lt B [] _ hB]
  exact id

theorem backlog_block {s : HbState Tx} (h : Inv s) {txToSend : List Tx} (hphase : s.phase = .runRound txToSend)
    (newTx : List Tx) :
    backlog (block K txToSend newTx s) = txToSend.filter (· ∉ newTx) ++ s.transactionBuffer := by
  have hback : (txToSend ++ s.transactionBuffer) = s.submitted.diff s.delivered := h.round txToSend hphase
  show s.submitted.diff (s.delivered ++ txToSend.filter (· ∈ newTx)) = _
  rw [List.diff_append, ← hback, diff_append_right _ _ _ (List.filter_sublist.subperm), diff_filter]
  simp only [decide_not]

theorem delivered_block {s : HbState Tx} (h : Inv s) {txToSend : List Tx} (hphase : s.phase = .runRound txToSend)
    (newTx : List Tx) : List.Subperm (s.delivered ++ txToSend.filter (· ∈ newTx)) s.submitted := by
  have hback : (txToSend ++ s.transactionBuffer) = s.submitted.diff s.delivered := h.round txToSend hphase
  have hsub : List.Subperm (txToSend.filter (· ∈ newTx)) (s.submitted.diff s.delivered) := by
    rw [← hback]
    exact (List.filter_sublist.trans (List.sublist_append_left _ _)).subperm
  exact ((List.subperm_append_left s.delivered).2 hsub).trans (List.subperm_append_diff_self_of_count_le
    (fun x _ => h.delivered.count_le x)).subperm

/-- **A round keeps the backlog exactly when what comes back reads the same in both directions.** -/
theorem kept_block_iff {s : HbState Tx} (h : Inv s) {txToSend : List Tx} (hphase : s.phase = .runRound txToSend)
    (newTx : List Tx) : (block K txToSend newTx s).transactionBuffer = backlog (block K txToSend newTx s) ↔
      (txToSend.filter (· ∉ newTx)).reverse = txToSend.filter (· ∉ newTx) := by
  rw [backlog_block h hphase]
  show putBack newTx txToSend s.transactionBuffer = _ ↔ _
  rw [putBack_eq, List.append_left_inj]

theorem block_phase (K : Nat) (txToSend newTx : List Tx) (s : HbState Tx) :
    (block K txToSend newTx s).phase = .loop ∨ (block K txToSend newTx s).phase = .broke := by
  unfold block
  by_cases hK : K ≤ s.round + 1
  · exact .inr (if_pos hK)
  · exact .inl (if_neg hK)

theorem kept_of_phase {s : HbState Tx} (h : s.phase = .loop ∨ s.phase = .broke) :
    Kept s ↔ s.transactionBuffer = backlog s := by
  unfold Kept
  rcases h with h | h <;> rw [h]

theorem inv_block {s : HbState Tx} (h : Inv s) {txToSend : List Tx} (hphase : s.phase = .runRound txToSend)
    {newTx : List Tx} (hpal : (txToSend.filter (· ∉ newTx)).reverse = txToSend.filter (· ∉ newTx)) :
    Inv (block K txToSend newTx s) where
  delivered := delivered_block h hphase newTx
  raised := fun e he => by rcases block_phase K txToSend newTx s with h | h <;> rw [h] at he <;> cases he
  loop := fun _ => (kept_block_iff h hphase newTx).2 hpal
  round := fun _ he => by rcases block_phase K txToSend newTx s with h | h <;> rw [h] at he <;> cases he

/-- What one step preserves under the condition, and under it alone. -/
theorem kept_step {s s' : HbState Tx} {e : HbEvent Tx} (h : Inv s) (hs : step B K s e = some s') :
    (Kept s' ↔ KeepsStep B s e) ∧ (KeepsStep B s e → Inv s') := by
  cases e with
  | submitTx tx =>
    cases hs
    have hinv := inv_submitTx h tx
    exact ⟨⟨fun _ => trivial, fun _ => hinv.kept⟩, fun _ => hinv⟩
  | select      =>
    cases hphase : s.phase with
    | loop =>
      simp only [step, hphase, if_true, Option.some.injEq] at hs
      subst hs
      refine ⟨⟨fun hk => ?_, fun hB => (inv_select h hphase hB).kept⟩, inv_select h hphase⟩
      by_contra hB
      exact not_kept_select (Nat.lt_of_not_le hB) hk
    | broke | runRound _ | raised _ => simp [step, hphase] at hs
  | block newTx =>
    cases hphase : s.phase with
    | runRound txToSend =>
      simp only [step, hphase, Option.some.injEq] at hs
      subst hs
      simp only [KeepsStep, hphase]
      exact ⟨(kept_of_phase (block_phase K txToSend newTx s)).trans (kept_block_iff h hphase newTx),
        fun hpal => inv_block h hphase hpal⟩
    | loop | broke | raised _ => simp [step, hphase] at hs

theorem run_append_singleton (e : HbEvent Tx) : ∀ (es : List (HbEvent Tx)) (s : HbState Tx),
    run B K s (es ++ [e]) = (run B K s es).bind (fun s' => step B K s' e)
  | [], s       => by
    simp only [List.nil_append, run, Option.bind_some]
    cases step B K s e <;> rfl
  | e' :: es, s => by
    simp only [List.cons_append, run]
    cases step B K s e' with
    | none    => rfl
    | some s' => exact run_append_singleton e es s'

theorem inv_run {es : List (HbEvent Tx)}
    (h : ∀ pre e s s', pre ++ [e] <+: es → run B K init pre = some s → step B K s e = some s' → Inv s →
      KeepsStep B s e) (pre : List (HbEvent Tx)) :
    ∀ s, pre <+: es → run B K init pre = some s → Inv s := by
  induction pre using List.reverseRecOn with
  | nil =>
    intro s _ hs
    cases hs
    exact inv_init
  | append_singleton pre e ih =>
    intro s' hpre hs'
    rw [run_append_singleton] at hs'
    obtain ⟨s, hs, hstep⟩ := Option.bind_eq_some_iff.1 hs'
    have hinv := ih s ((List.prefix_append pre [e]).trans hpre) hs
    exact (kept_step hinv hstep).2 (h pre e s s' hpre hs hstep hinv)

/-- **In a run no transaction is lost, duplicated or reordered exactly when each of its steps keeps them**: after every
round the buffer is the backlog, for every `B`, number of rounds, order of submissions and blocks. -/
theorem transactions_kept_iff (B K : Nat) (es : List (HbEvent Tx)) :
    (∀ pre s, pre <+: es → run B K init pre = some s → Kept s) ↔
      ∀ pre e s s', pre ++ [e] <+: es → run B K init pre = some s → step B K s e = some s' → KeepsStep B s e := by
  constructor
  · intro hkept
    have hnext : ∀ pre e s s', pre ++ [e] <+: es → run B K init pre = some s → step B K s e = some s' → Inv s →
        KeepsStep B s e := by
      intro pre e s s' hpre hs hstep hinv
      refine (kept_step hinv hstep).1.1 (hkept (pre ++ [e]) s' hpre ?_)
      rw [run_append_singleton, hs, Option.bind_some, hstep]
    intro pre e s s' hpre hs hstep
    exact hnext pre e s s' hpre hs hstep (inv_run hnext pre s ((List.prefix_append pre [e]).trans hpre) hs)
  · intro hkeeps pre s hpre hs
    exact (inv_run (fun pre e s s' hpre hs hstep _ => hkeeps pre e s s' hpre hs hstep) pre s hpre hs).kept

end Runs

/-- Two transactions, neither in the block: they come back the other way around. -/
theorem transactions_kept_counterexample : ¬ ∀ (B K : Nat) (es pre : List (HbEvent String)) (s : HbState String),
    pre <+: es → run B K init pre = some s → Kept s := by
  intro h
  have hkept := h 2 3 _ [.submitTx "a", .submitTx "b", .select, .block []] _ List.prefix_rfl rfl
  have hbuffer : (["b", "a"] : List String) = ["a", "b"].diff [] := hkept
  revert hbuffer
  decide

/-- One transaction and batches of two: the round raises. -/
example : (run 2 3 init [.submitTx "a", .select]).map (fun s => (s.phase, s.transactionBuffer)) =
    some (.raised .indexError, []) := by
  decide

end HoneyBadger
end Dpid
