import Mathlib.Logic.Function.Basic
import Mathlib.Data.Finset.Basic
import Mathlib.Data.List.Perm.Basic
/-!
# Net — asynchronous message passing

Parties hold a local state and exchange messages over authenticated point-to-point channels.  A `Proto` says what one
party does: an internal step `wake` of one of its threads, and `recv`, the consumption of one message from one sender;
`none` means the step is not enabled.  A `Conf` is the parties' states, the messages in flight and, as history, the
messages delivered.  Messages are taken from flight in any order.

Two adversaries share that much.  In `Step` the parties of a set `byz` run no code and put any message into flight
under their own name.  In `CrashStep` every party runs the protocol and those of a set `faulty` may stop at any point,
also in the middle of sending.

`Preserved` is one rule for invariants of both: a property `L` of each party's state and a property `W` of each message
from a good party, stable while the other parties' states grow.
-/
namespace Net

variable {ι τ σ M : Type}

/-- Membership in a list of parties is decided with this. -/
instance party_lawfulBEq (N : ℕ) : LawfulBEq (Fin N) := inferInstance

structure Envelope (ι M : Type) where
  src : ι
  dst : ι
  msg : M

/-- What one party does; a step gives its next state and the messages it sends, each with its recipient. -/
structure Proto (ι τ σ M : Type) where
  init : ι → σ
  wake : ι → τ → σ → Option (σ × List (ι × M))
  recv : ι → σ → ι → M → Option (σ × List (ι × M))

structure Conf (ι σ M : Type) where
  loc : ι → σ
  net : List (Envelope ι M)
  hist : List (Envelope ι M)

inductive Label (ι τ M : Type) where
  | wake (p : ι) (t : τ)
  | recv (e : Envelope ι M)
  | inject (e : Envelope ι M)

/-- The messages a party sends, addressed. -/
def post (p : ι) (out : List (ι × M)) : List (Envelope ι M) := out.map (fun o => ⟨p, o.1, o.2⟩)

def Proto.start (P : Proto ι τ σ M) : Conf ι σ M := ⟨P.init, [], []⟩

theorem mem_post {p : ι} {out : List (ι × M)} {e : Envelope ι M} :
    e ∈ post p out ↔ e.src = p ∧ (e.dst, e.msg) ∈ out := by
  unfold post
  constructor
  · intro h
    obtain ⟨o, ho, rfl⟩ := List.mem_map.1 h
    exact ⟨rfl, ho⟩
  · rintro ⟨rfl, h⟩
    exact List.mem_map.2 ⟨_, h, rfl⟩

variable [DecidableEq ι]

/-! ## Byzantine parties -/

/-- One step with the parties of `byz` under the adversary's control. -/
inductive Step (P : Proto ι τ σ M) (byz : Finset ι) : Conf ι σ M → Label ι τ M → Conf ι σ M → Prop where
  | wake {c : Conf ι σ M} {p : ι} {t : τ} {s : σ} {out : List (ι × M)} (hp : p ∉ byz)
      (h : P.wake p t (c.loc p) = some (s, out)) :
      Step P byz c (.wake p t) ⟨Function.update c.loc p s, post p out ++ c.net, c.hist⟩
  | recv {c : Conf ι σ M} {e : Envelope ι M} {rest : List (Envelope ι M)} {s : σ} {out : List (ι × M)}
      (hp : e.dst ∉ byz) (he : c.net.Perm (e :: rest))
      (h : P.recv e.dst (c.loc e.dst) e.src e.msg = some (s, out)) :
      Step P byz c (.recv e) ⟨Function.update c.loc e.dst s, post e.dst out ++ rest, e :: c.hist⟩
  | inject {c : Conf ι σ M} {e : Envelope ι M} (he : e.src ∈ byz) :
      Step P byz c (.inject e) ⟨c.loc, e :: c.net, c.hist⟩

/-- The configurations reached by steps that all meet `ok`. -/
inductive Run (P : Proto ι τ σ M) (byz : Finset ι) (ok : Conf ι σ M → Label ι τ M → Prop) : Conf ι σ M → Prop where
  | start : Run P byz ok P.start
  | step {c c' : Conf ι σ M} {l : Label ι τ M} (hc : Run P byz ok c) (hok : ok c l) (h : Step P byz c l c') :
      Run P byz ok c'

/-- The reachable configurations: any steps at all. -/
def Reachable (P : Proto ι τ σ M) (byz : Finset ι) : Conf ι σ M → Prop := Run P byz (fun _ _ => True)

theorem Run.mono {P : Proto ι τ σ M} {byz : Finset ι} {ok ok' : Conf ι σ M → Label ι τ M → Prop}
    (hok : ∀ c l, ok c l → ok' c l) {c : Conf ι σ M} (h : Run P byz ok c) : Run P byz ok' c := by
  induction h with
  | start => exact .start
  | step _ hl hs ih => exact .step ih (hok _ _ hl) hs

theorem Run.reachable {P : Proto ι τ σ M} {byz : Finset ι} {ok : Conf ι σ M → Label ι τ M → Prop} {c : Conf ι σ M}
    (h : Run P byz ok c) : Reachable P byz c :=
  h.mono (fun _ _ _ => trivial)

theorem Run.wake_loc {P : Proto ι τ σ M} {byz : Finset ι} {ok : Conf ι σ M → Label ι τ M → Prop} {c : Conf ι σ M}
    (hc : Run P byz ok c) {p : ι} (hp : p ∉ byz) {t : τ} {s : σ} {out : List (ι × M)} (hok : ok c (.wake p t))
    (h : P.wake p t (c.loc p) = some (s, out)) : ∃ c', Run P byz ok c' ∧ c'.loc p = s :=
  ⟨_, hc.step hok (.wake hp h), Function.update_self _ _ _⟩

theorem Run.inject_loc {P : Proto ι τ σ M} {byz : Finset ι} {ok : Conf ι σ M → Label ι τ M → Prop} {c : Conf ι σ M}
    (hc : Run P byz ok c) (e : Envelope ι M) (hsrc : e.src ∈ byz) (hdst : e.dst ∉ byz) {s : σ} {out : List (ι × M)}
    (hi : ok c (.inject e)) (hr : ok ⟨c.loc, e :: c.net, c.hist⟩ (.recv e))
    (h : P.recv e.dst (c.loc e.dst) e.src e.msg = some (s, out)) : ∃ c', Run P byz ok c' ∧ c'.loc e.dst = s :=
  ⟨_, (hc.step hi (.inject hsrc)).step hr (.recv hdst (List.Perm.refl _) h), Function.update_self _ _ _⟩

/-! ## Parties that stop -/

/-- A configuration and the parties that have stopped. -/
structure CrashConf (ι σ M : Type) extends Conf ι σ M where
  stopped : Finset ι

/-- One step when every party runs the protocol and those of `faulty` may stop, at rest or after a step of which they
send the first `k` messages only. -/
inductive CrashStep (P : Proto ι τ σ M) (faulty : Finset ι) : CrashConf ι σ M → CrashConf ι σ M → Prop where
  | wake {c : CrashConf ι σ M} {p : ι} {t : τ} {s : σ} {out : List (ι × M)} (hp : p ∉ c.stopped)
      (h : P.wake p t (c.loc p) = some (s, out)) :
      CrashStep P faulty c ⟨⟨Function.update c.loc p s, post p out ++ c.net, c.hist⟩, c.stopped⟩
  | recv {c : CrashConf ι σ M} {e : Envelope ι M} {rest : List (Envelope ι M)} {s : σ} {out : List (ι × M)}
      (hp : e.dst ∉ c.stopped) (he : c.net.Perm (e :: rest))
      (h : P.recv e.dst (c.loc e.dst) e.src e.msg = some (s, out)) :
      CrashStep P faulty c ⟨⟨Function.update c.loc e.dst s, post e.dst out ++ rest, e :: c.hist⟩, c.stopped⟩
  | stop {c : CrashConf ι σ M} {p : ι} (hp : p ∈ faulty) :
      CrashStep P faulty c ⟨c.toConf, insert p c.stopped⟩
  | wakeStop {c : CrashConf ι σ M} {p : ι} {t : τ} {s : σ} {out : List (ι × M)} (k : ℕ) (hp : p ∉ c.stopped)
      (hf : p ∈ faulty) (h : P.wake p t (c.loc p) = some (s, out)) :
      CrashStep P faulty c
        ⟨⟨Function.update c.loc p s, post p (out.take k) ++ c.net, c.hist⟩, insert p c.stopped⟩
  | recvStop {c : CrashConf ι σ M} {e : Envelope ι M} {rest : List (Envelope ι M)} {s : σ} {out : List (ι × M)} (k : ℕ)
      (hp : e.dst ∉ c.stopped) (hf : e.dst ∈ faulty) (he : c.net.Perm (e :: rest))
      (h : P.recv e.dst (c.loc e.dst) e.src e.msg = some (s, out)) :
      CrashStep P faulty c
        ⟨⟨Function.update c.loc e.dst s, post e.dst (out.take k) ++ rest, e :: c.hist⟩, insert e.dst c.stopped⟩

inductive CrashReachable (P : Proto ι τ σ M) (faulty : Finset ι) : CrashConf ι σ M → Prop where
  | start : CrashReachable P faulty ⟨P.start, ∅⟩
  | step {c c' : CrashConf ι σ M} (hc : CrashReachable P faulty c) (h : CrashStep P faulty c c') :
      CrashReachable P faulty c'

/-- No running party has an enabled step. -/
def Quiescent (P : Proto ι τ σ M) (c : CrashConf ι σ M) : Prop :=
  (∀ p ∉ c.stopped, ∀ t, P.wake p t (c.loc p) = none) ∧
    ∀ e ∈ c.net, e.dst ∉ c.stopped → P.recv e.dst (c.loc e.dst) e.src e.msg = none

theorem CrashReachable.stopped_subset {P : Proto ι τ σ M} {faulty : Finset ι} {c : CrashConf ι σ M}
    (h : CrashReachable P faulty c) : c.stopped ⊆ faulty := by
  induction h with
  | start => exact Finset.empty_subset _
  | step _ hs ih =>
    cases hs with
    | wake => exact ih
    | recv => exact ih
    | stop hp => exact Finset.insert_subset hp ih
    | wakeStop k hp hf => exact Finset.insert_subset hf ih
    | recvStop k hp hf => exact Finset.insert_subset hf ih

/-! ## The invariant rule -/

/-- **A rule for invariants**: `L` of the good parties' states and `W` of the messages they send, both stable while the
states grow and messages are delivered, and both kept by every step of one party. -/
structure Preserved (P : Proto ι τ σ M) (byz : Finset ι) (ok : Conf ι σ M → Label ι τ M → Prop) (Grow : σ → σ → Prop)
    (L : (ι → σ) → List (Envelope ι M) → ι → Prop) (W : (ι → σ) → Envelope ι M → Prop) : Prop where
  grow_refl : ∀ s, Grow s s
  grow_wake : ∀ p t s s' out, P.wake p t s = some (s', out) → Grow s s'
  grow_recv : ∀ p s q m s' out, P.recv p s q m = some (s', out) → Grow s s'
  local_mono : ∀ loc loc' hist hist' p, (∀ q, Grow (loc q) (loc' q)) → (∀ e ∈ hist, e ∈ hist') →
    (∀ e ∈ hist', e.dst = p → e ∈ hist) → loc' p = loc p → L loc hist p → L loc' hist' p
  msg_mono : ∀ loc loc' e, (∀ q, Grow (loc q) (loc' q)) → W loc e → W loc' e
  init : ∀ p ∉ byz, L P.init [] p
  wake : ∀ (c : Conf ι σ M) p t s out loc', ok c (.wake p t) → p ∉ byz → (∀ q ∉ byz, L c.loc c.hist q) →
    P.wake p t (c.loc p) = some (s, out) → loc' = Function.update c.loc p s → (∀ q, Grow (c.loc q) (loc' q)) →
    L loc' c.hist p ∧ ∀ o ∈ out, W loc' ⟨p, o.1, o.2⟩
  recv : ∀ (c : Conf ι σ M) e s out loc', ok c (.recv e) → e.dst ∉ byz → (∀ q ∉ byz, L c.loc c.hist q) →
    (e.src ∉ byz → W c.loc e) → P.recv e.dst (c.loc e.dst) e.src e.msg = some (s, out) →
    loc' = Function.update c.loc e.dst s → (∀ q, Grow (c.loc q) (loc' q)) →
    L loc' (e :: c.hist) e.dst ∧ ∀ o ∈ out, W loc' ⟨e.dst, o.1, o.2⟩

/-- What the rule concludes: every good party's state satisfies `L`, every message of a good party `W`. -/
structure Holds (byz : Finset ι) (L : (ι → σ) → List (Envelope ι M) → ι → Prop) (W : (ι → σ) → Envelope ι M → Prop)
    (c : Conf ι σ M) : Prop where
  loc : ∀ p ∉ byz, L c.loc c.hist p
  net : ∀ e ∈ c.net, e.src ∉ byz → W c.loc e
  hist : ∀ e ∈ c.hist, e.src ∉ byz → W c.loc e

section Rule

variable {P : Proto ι τ σ M} {byz : Finset ι} {ok : Conf ι σ M → Label ι τ M → Prop} {Grow : σ → σ → Prop}
  {L : (ι → σ) → List (Envelope ι M) → ι → Prop} {W : (ι → σ) → Envelope ι M → Prop}

theorem Preserved.grow_update (h : Preserved P byz ok Grow L W) (loc : ι → σ) (p : ι) (s : σ) (hg : Grow (loc p) s)
    (q : ι) : Grow (loc q) (Function.update loc p s q) := by
  by_cases hq : q = p
  · subst hq; rw [Function.update_self]; exact hg
  · rw [Function.update_of_ne hq]; exact h.grow_refl _

theorem Preserved.start (h : Preserved P byz ok Grow L W) : Holds byz L W P.start :=
  ⟨h.init, fun _ he => by simp [Proto.start] at he, fun _ he => by simp [Proto.start] at he⟩

theorem Preserved.holds_wake (h : Preserved P byz ok Grow L W) {c : Conf ι σ M} (hc : Holds byz L W c) {p : ι} {t : τ}
    {s : σ} {out out' : List (ι × M)} (hok : ok c (.wake p t)) (hp : p ∉ byz)
    (hs : P.wake p t (c.loc p) = some (s, out)) (hout : ∀ o ∈ out', o ∈ out) :
    Holds byz L W ⟨Function.update c.loc p s, post p out' ++ c.net, c.hist⟩ := by
  have hg := h.grow_update c.loc p s (h.grow_wake _ _ _ _ _ hs)
  obtain ⟨hl, hw⟩ := h.wake c p t s out _ hok hp hc.loc hs rfl hg
  refine ⟨fun q hq => ?_, fun e he hsrc => ?_, fun e he hsrc => h.msg_mono _ _ e hg (hc.hist e he hsrc)⟩
  · by_cases hqp : q = p
    · subst hqp; exact hl
    · exact h.local_mono _ _ _ _ q hg (fun _ he => he) (fun _ he _ => he) (Function.update_of_ne hqp _ _) (hc.loc q hq)
  · rcases List.mem_append.1 he with he | he
    · obtain ⟨rfl, ho⟩ := mem_post.1 he
      exact hw _ (hout _ ho)
    · exact h.msg_mono _ _ e hg (hc.net e he hsrc)

theorem Preserved.holds_recv (h : Preserved P byz ok Grow L W) {c : Conf ι σ M} (hc : Holds byz L W c)
    {e : Envelope ι M} {rest : List (Envelope ι M)} {s : σ} {out out' : List (ι × M)} (hok : ok c (.recv e))
    (hp : e.dst ∉ byz) (he : c.net.Perm (e :: rest)) (hs : P.recv e.dst (c.loc e.dst) e.src e.msg = some (s, out))
    (hout : ∀ o ∈ out', o ∈ out) :
    Holds byz L W ⟨Function.update c.loc e.dst s, post e.dst out' ++ rest, e :: c.hist⟩ := by
  have hg := h.grow_update c.loc e.dst s (h.grow_recv _ _ _ _ _ _ hs)
  have hmem : ∀ x, x ∈ e :: rest → x ∈ c.net := fun x hx => (he.mem_iff).2 hx
  have hwe : e.src ∉ byz → W c.loc e := hc.net e (hmem e List.mem_cons_self)
  obtain ⟨hl, hw⟩ := h.recv c e s out _ hok hp hc.loc hwe hs rfl hg
  refine ⟨fun q hq => ?_, fun x hx hsrc => ?_, fun x hx hsrc => ?_⟩
  · by_cases hqp : q = e.dst
    · subst hqp; exact hl
    · exact h.local_mono _ _ _ _ q hg (fun _ hx => List.mem_cons_of_mem _ hx)
        (fun x hx hdst => (List.mem_cons.1 hx).resolve_left (fun hxe => hqp (hdst ▸ hxe ▸ rfl)))
        (Function.update_of_ne hqp _ _) (hc.loc q hq)
  · rcases List.mem_append.1 hx with hx | hx
    · obtain ⟨src, dst, msg⟩ := x
      obtain ⟨rfl, ho⟩ := mem_post.1 hx
      exact hw _ (hout _ ho)
    · exact h.msg_mono _ _ x hg (hc.net x (hmem x (List.mem_cons_of_mem _ hx)) hsrc)
  · rcases List.mem_cons.1 hx with rfl | hx
    · exact h.msg_mono _ _ x hg (hwe hsrc)
    · exact h.msg_mono _ _ x hg (hc.hist x hx hsrc)

/-- **The rule for Byzantine runs.** -/
theorem Preserved.run (h : Preserved P byz ok Grow L W) {c : Conf ι σ M} (hc : Run P byz ok c) : Holds byz L W c := by
  induction hc with
  | start => exact h.start
  | step _ hok hs ih =>
    cases hs with
    | wake hp hw => exact h.holds_wake ih hok hp hw (fun _ ho => ho)
    | recv hp he hr => exact h.holds_recv ih hok hp he hr (fun _ ho => ho)
    | inject he =>
      refine ⟨ih.loc, fun x hx hsrc => ?_, ih.hist⟩
      rcases List.mem_cons.1 hx with rfl | hx
      · exact absurd he hsrc
      · exact ih.net x hx hsrc

/-- **The rule for crash runs**: every party is good until it stops. -/
theorem Preserved.crashRun (h : Preserved P ∅ (fun _ _ => True) Grow L W) {faulty : Finset ι} {c : CrashConf ι σ M}
    (hc : CrashReachable P faulty c) : Holds ∅ L W c.toConf := by
  have hnot : ∀ p : ι, p ∉ (∅ : Finset ι) := fun p => Finset.notMem_empty p
  induction hc with
  | start => exact h.start
  | step _ hs ih =>
    cases hs with
    | wake hp hw => exact h.holds_wake ih trivial (hnot _) hw (fun _ ho => ho)
    | recv hp he hr => exact h.holds_recv ih trivial (hnot _) he hr (fun _ ho => ho)
    | stop hp => exact ih
    | wakeStop k hp hf hw => exact h.holds_wake ih trivial (hnot _) hw (fun _ ho => List.mem_of_mem_take ho)
    | recvStop k hp hf he hr => exact h.holds_recv ih trivial (hnot _) he hr (fun _ ho => List.mem_of_mem_take ho)

end Rule

/-! ## Runs that compute -/

/-- One step by name: a delivery names the place in flight of the message it takes. -/
inductive Act (ι τ M : Type) where
  | wake (p : ι) (t : τ)
  | recv (i : ℕ)
  | inject (e : Envelope ι M)

def exec1 (P : Proto ι τ σ M) (byz : Finset ι) (c : Conf ι σ M) : Act ι τ M → Option (Label ι τ M × Conf ι σ M)
  | .wake p t =>
    if p ∈ byz then none
    else (P.wake p t (c.loc p)).map (fun r => (.wake p t, ⟨Function.update c.loc p r.1, post p r.2 ++ c.net, c.hist⟩))
  | .recv i =>
    match c.net[i]? with
    | none   => none
    | some e =>
      if e.dst ∈ byz then none
      else (P.recv e.dst (c.loc e.dst) e.src e.msg).map (fun r =>
        (.recv e, ⟨Function.update c.loc e.dst r.1, post e.dst r.2 ++ c.net.eraseIdx i, e :: c.hist⟩))
  | .inject e => if e.src ∈ byz then some (.inject e, ⟨c.loc, e :: c.net, c.hist⟩) else none

/-- The named steps in order, each passing the test `ok`. -/
def exec (P : Proto ι τ σ M) (byz : Finset ι) (ok : Conf ι σ M → Label ι τ M → Bool) :
    List (Act ι τ M) → Conf ι σ M → Option (Conf ι σ M)
  | [], c        => some c
  | a :: acts, c => (exec1 P byz c a).bind (fun r => if ok c r.1 then exec P byz ok acts r.2 else none)

theorem exec1_step {P : Proto ι τ σ M} {byz : Finset ι} {c c' : Conf ι σ M} {a : Act ι τ M} {l : Label ι τ M}
    (h : exec1 P byz c a = some (l, c')) : Step P byz c l c' := by
  cases a with
  | wake p t =>
    simp only [exec1] at h
    split at h
    · cases h
    · rename_i hp
      obtain ⟨⟨s, out⟩, hs, he⟩ := Option.map_eq_some_iff.1 h
      cases he
      exact .wake hp hs
  | recv i =>
    simp only [exec1] at h
    split at h
    · cases h
    · rename_i e he
      split at h
      · cases h
      · rename_i hp
        obtain ⟨⟨s, out⟩, hs, hc⟩ := Option.map_eq_some_iff.1 h
        cases hc
        obtain ⟨hi, rfl⟩ := List.getElem?_eq_some_iff.1 he
        exact .recv hp (List.getElem_cons_eraseIdx_perm hi).symm hs
  | inject e =>
    simp only [exec1] at h
    split at h
    · rename_i he
      cases h
      exact .inject he
    · cases h

/-- **A computed run is a run.** -/
theorem exec_run {P : Proto ι τ σ M} {byz : Finset ι} {ok : Conf ι σ M → Label ι τ M → Prop}
    {ok' : Conf ι σ M → Label ι τ M → Bool} (hok : ∀ c l, ok' c l = true → ok c l) :
    ∀ (acts : List (Act ι τ M)) {c c' : Conf ι σ M}, Run P byz ok c → exec P byz ok' acts c = some c' → Run P byz ok c'
  | [], c, c', hc, h => by
    simp only [exec, Option.some.injEq] at h
    exact h ▸ hc
  | a :: acts, c, c', hc, h => by
    obtain ⟨⟨l, d⟩, hd, hrest⟩ := Option.bind_eq_some_iff.1 h
    simp only at hrest
    split at hrest
    · rename_i hl
      exact exec_run hok acts (Run.step hc (hok c l hl) (exec1_step hd)) hrest
    · cases hrest

/-- A configuration that a computed run reaches and that passes a test. -/
theorem exists_run_of_exec {P : Proto ι τ σ M} {byz : Finset ι} {R : Conf ι σ M → Label ι τ M → Prop}
    {ok : Conf ι σ M → Label ι τ M → Bool} {acts : List (Act ι τ M)} {test : Conf ι σ M → Bool}
    (h : (exec P byz ok acts P.start).any test = true) (hok : ∀ c l, ok c l = true → R c l) :
    ∃ c, Run P byz R c ∧ test c = true := by
  obtain ⟨c, hc, htest⟩ := Option.any_eq_true _ _ |>.1 h
  exact ⟨c, exec_run hok acts .start hc, htest⟩

end Net
