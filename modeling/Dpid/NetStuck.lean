import Dpid.NetCrash
import Mathlib
/-!
# NetStuck — runs of good parties under a schedule

Every party runs the protocol, and a schedule `ok` says which steps may be taken when.  `Stuck` is a configuration from
which it allows no step: a message sent that it allows to be taken, to a party that would take it, was delivered
(`Delivers.of_stuck`).  A protocol with a budget gets stuck under every schedule (`Bounded.exists_stuck`).
-/
namespace Net

variable {ι τ σ M : Type} [DecidableEq ι] {P : Proto ι τ σ M} {byz : Finset ι} {ok : Conf ι σ M → Label ι τ M → Prop}

/-- No enabled step meets `ok`. -/
def Stuck (P : Proto ι τ σ M) (byz : Finset ι) (ok : Conf ι σ M → Label ι τ M → Prop) (c : Conf ι σ M) : Prop :=
  ∀ l c', Step P byz c l c' → ¬ ok c l

theorem Stuck.wake {c : Conf ι σ M} (h : Stuck P byz ok c) {p : ι} (hp : p ∉ byz) {t : τ} (hok : ok c (.wake p t)) :
    P.wake p t (c.loc p) = none := by
  cases hw : P.wake p t (c.loc p) with
  | none   => rfl
  | some r => exact absurd hok (h _ _ (.wake hp hw))

theorem Stuck.recv {c : Conf ι σ M} (h : Stuck P byz ok c) {e : Envelope ι M} (he : e ∈ c.net) (hp : e.dst ∉ byz)
    (hok : ok c (.recv e)) : P.recv e.dst (c.loc e.dst) e.src e.msg = none := by
  cases hr : P.recv e.dst (c.loc e.dst) e.src e.msg with
  | none   => rfl
  | some r =>
    obtain ⟨i, hi, rfl⟩ := List.getElem_of_mem he
    exact absurd hok (h _ _ (.recv hp (List.getElem_cons_eraseIdx_perm hi).symm hr))

theorem Run.recv_loc {c : Conf ι σ M} (hc : Run P byz ok c) {e : Envelope ι M} (he : e ∈ c.net) (hp : e.dst ∉ byz)
    (hok : ok c (.recv e)) {s : σ} {out : List (ι × M)} (h : P.recv e.dst (c.loc e.dst) e.src e.msg = some (s, out)) :
    ∃ c', Run P byz ok c' ∧ c'.loc e.dst = s ∧ ∀ x ∈ c.net, x ≠ e → x ∈ c'.net := by
  obtain ⟨i, hi, rfl⟩ := List.getElem_of_mem he
  have hperm := (List.getElem_cons_eraseIdx_perm hi).symm
  refine ⟨_, hc.step hok (.recv hp hperm h), Function.update_self _ _ _, fun x hx hne => ?_⟩
  exact List.mem_append_right _ ((List.mem_cons.1 (hperm.mem_iff.1 hx)).resolve_left hne)

theorem Run.wake_net {c : Conf ι σ M} (hc : Run P byz ok c) {p : ι} (hp : p ∉ byz) {t : τ} (hok : ok c (.wake p t))
    {s₀ s : σ} {out : List (ι × M)} (hloc : c.loc p = s₀) (h : P.wake p t s₀ = some (s, out)) :
    ∃ c', Run P byz ok c' ∧ c'.loc p = s ∧ c'.net = post p out ++ c.net :=
  ⟨_, hc.step hok (.wake hp (hloc ▸ h)), Function.update_self _ _ _, rfl⟩

theorem Run.recv_net {c : Conf ι σ M} (hc : Run P byz ok c) {e : Envelope ι M} {rest : List (Envelope ι M)}
    (hnet : c.net = e :: rest) (hp : e.dst ∉ byz) (hok : ok c (.recv e)) {s₀ s : σ} {out : List (ι × M)}
    (hloc : c.loc e.dst = s₀) (h : P.recv e.dst s₀ e.src e.msg = some (s, out)) :
    ∃ c', Run P byz ok c' ∧ c'.loc e.dst = s ∧ c'.net = post e.dst out ++ rest :=
  ⟨_, hc.step hok (.recv hp (hnet ▸ List.Perm.refl _) (hloc ▸ h)), Function.update_self _ _ _, rfl⟩

/-! ## Without bad parties -/

/-- A run of good parties is a run in which none has stopped. -/
theorem Run.crashReachable (faulty : Finset ι) {c : Conf ι σ M} (hc : Run P ∅ ok c) : CrashReachable P faulty ⟨c, ∅⟩ := by
  induction hc with
  | start => exact .start
  | step _ _ hs ih =>
    cases hs with
    | wake hp hw    => exact ih.step (.wake (Finset.notMem_empty _) hw)
    | recv hp he hr => exact ih.step (.recv (Finset.notMem_empty _) he hr)
    | inject he     => exact absurd he (Finset.notMem_empty _)

/-- **Stuck under a schedule, a message that it allows and the receiver would take was delivered.** -/
theorem Delivers.of_stuck {faulty : Finset ι} {Sent : ι → σ → ι → M → Prop} (h : Delivers P faulty Sent) {c : Conf ι σ M}
    (hc : Run P ∅ ok c) (hstuck : Stuck P ∅ ok c) {p q : ι} {m : M} (hsent : Sent p (c.loc p) q m)
    (hok : ok c (.recv ⟨p, q, m⟩)) (htake : P.recv q (c.loc q) p m ≠ none) : ⟨p, q, m⟩ ∈ c.hist := by
  rcases h.net_or_hist (hc.crashReachable faulty) p (Finset.notMem_empty p) q m hsent with hnet | hhist
  · exact absurd (hstuck.recv hnet (Finset.notMem_empty q) hok) htake
  · exact hhist

section Rest

variable [Fintype ι] {fuel : σ → ℕ}

/-- A step of good parties lowers what is left of the budgets and in flight. -/
theorem Bounded.step_load (h : Bounded P fuel) {c c' : Conf ι σ M} {l : Label ι τ M} (hs : Step P ∅ c l c') :
    ∑ p, fuel (c'.loc p) + c'.net.length < ∑ p, fuel (c.loc p) + c.net.length := by
  cases hs with
  | @wake p t s out hp hw =>
    have hsum : ∑ q, fuel (Function.update c.loc p s q) + (out.length + 1) ≤ ∑ q, fuel (c.loc q) :=
      sum_update_le (h.wake _ _ _ _ _ hw)
    simp only [List.length_append, post, List.length_map]
    omega
  | @recv e rest s out hp he hr =>
    have hsum : ∑ q, fuel (Function.update c.loc e.dst s q) + out.length ≤ ∑ q, fuel (c.loc q) :=
      sum_update_le (h.recv _ _ _ _ _ _ hr)
    have hlen := he.length_eq
    rw [List.length_cons] at hlen
    simp only [List.length_append, post, List.length_map]
    omega
  | inject he => exact absurd he (Finset.notMem_empty _)

/-- **A protocol with a budget gets stuck under every schedule.** -/
theorem Bounded.exists_stuck (h : Bounded P fuel) {c : Conf ι σ M} (hc : Run P ∅ ok c) :
    ∃ c', Run P ∅ ok c' ∧ Stuck P ∅ ok c' := by
  induction hn : ∑ p, fuel (c.loc p) + c.net.length using Nat.strong_induction_on generalizing c with
  | _ n ih =>
    by_cases hstuck : Stuck P ∅ ok c
    · exact ⟨c, hc, hstuck⟩
    · simp only [Stuck, not_forall, not_not] at hstuck
      obtain ⟨l, c₁, hs, hok⟩ := hstuck
      exact ih _ (hn ▸ h.step_load hs) (hc.step hok hs) rfl

end Rest

end Net
