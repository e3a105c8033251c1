import Dpid.NetCrash
import Mathlib
/-!
# NetFifo — channels that keep their order

Crash runs in which each channel delivers in the order of sending: what is in flight is a queue, and a message is taken
only when no earlier one of its channel is left.  Up to the order in flight such a run is a crash run
(`FifoReachable.crash`), so the rules of crash runs apply.  What order adds is `Leads`: when a party's first message to
everyone is of one kind, whoever has taken a message of a party has taken one of that kind before.
-/
namespace Net

variable {ι τ σ M : Type}

/-- `e` is the oldest of its channel in the queue `net`, and `rest` what is left without it. -/
def Oldest (e : Envelope ι M) (net rest : List (Envelope ι M)) : Prop :=
  ∃ pre post, net = pre ++ e :: post ∧ rest = pre ++ post ∧ ∀ x ∈ pre, ¬ (x.src = e.src ∧ x.dst = e.dst)

/-! ## The queue -/

theorem Oldest.perm {e : Envelope ι M} {net rest : List (Envelope ι M)} (h : Oldest e net rest) :
    net.Perm (e :: rest) := by
  obtain ⟨pre, post, rfl, rfl, -⟩ := h
  exact List.perm_middle

variable [DecidableEq ι]

theorem exists_oldest : ∀ {net : List (Envelope ι M)} {e : Envelope ι M}, e ∈ net →
    ∃ e' rest, Oldest e' net rest ∧ e'.src = e.src ∧ e'.dst = e.dst
  | x :: net, e, he => by
    by_cases hx : x.src = e.src ∧ x.dst = e.dst
    · exact ⟨x, net, ⟨[], net, rfl, rfl, fun y hy => absurd hy List.not_mem_nil⟩, hx⟩
    · have he : e ∈ net := by
        rcases List.mem_cons.1 he with rfl | he
        · exact absurd ⟨rfl, rfl⟩ hx
        · exact he
      obtain ⟨e', rest, ⟨pre, post, hnet, hrest, hpre⟩, hsrc, hdst⟩ := exists_oldest he
      refine ⟨e', x :: rest, ⟨x :: pre, post, by rw [hnet]; rfl, by rw [hrest]; rfl, fun y hy => ?_⟩, hsrc, hdst⟩
      rcases List.mem_cons.1 hy with rfl | hy
      · rwa [hsrc, hdst]
      · exact hpre y hy

/-! ## Runs -/

/-- One step: what is sent joins the end of the queue. -/
inductive FifoStep (P : Proto ι τ σ M) (faulty : Finset ι) : CrashConf ι σ M → CrashConf ι σ M → Prop where
  | wake {c : CrashConf ι σ M} {p : ι} {t : τ} {s : σ} {out : List (ι × M)} (hp : p ∉ c.stopped)
      (h : P.wake p t (c.loc p) = some (s, out)) :
      FifoStep P faulty c ⟨⟨Function.update c.loc p s, c.net ++ post p out, c.hist⟩, c.stopped⟩
  | recv {c : CrashConf ι σ M} {e : Envelope ι M} {rest : List (Envelope ι M)} {s : σ} {out : List (ι × M)}
      (hp : e.dst ∉ c.stopped) (he : Oldest e c.net rest) (h : P.recv e.dst (c.loc e.dst) e.src e.msg = some (s, out)) :
      FifoStep P faulty c ⟨⟨Function.update c.loc e.dst s, rest ++ post e.dst out, e :: c.hist⟩, c.stopped⟩
  | stop {c : CrashConf ι σ M} {p : ι} (hp : p ∈ faulty) :
      FifoStep P faulty c ⟨c.toConf, insert p c.stopped⟩
  | wakeStop {c : CrashConf ι σ M} {p : ι} {t : τ} {s : σ} {out : List (ι × M)} (k : ℕ) (hp : p ∉ c.stopped)
      (hf : p ∈ faulty) (h : P.wake p t (c.loc p) = some (s, out)) :
      FifoStep P faulty c
        ⟨⟨Function.update c.loc p s, c.net ++ post p (out.take k), c.hist⟩, insert p c.stopped⟩
  | recvStop {c : CrashConf ι σ M} {e : Envelope ι M} {rest : List (Envelope ι M)} {s : σ} {out : List (ι × M)} (k : ℕ)
      (hp : e.dst ∉ c.stopped) (hf : e.dst ∈ faulty) (he : Oldest e c.net rest)
      (h : P.recv e.dst (c.loc e.dst) e.src e.msg = some (s, out)) :
      FifoStep P faulty c
        ⟨⟨Function.update c.loc e.dst s, rest ++ post e.dst (out.take k), e :: c.hist⟩, insert e.dst c.stopped⟩

inductive FifoReachable (P : Proto ι τ σ M) (faulty : Finset ι) : CrashConf ι σ M → Prop where
  | start : FifoReachable P faulty ⟨P.start, ∅⟩
  | step {c c' : CrashConf ι σ M} (hc : FifoReachable P faulty c) (h : FifoStep P faulty c c') : FifoReachable P faulty c'

/-- No running party has an enabled step. -/
def FifoQuiescent (P : Proto ι τ σ M) (c : CrashConf ι σ M) : Prop :=
  (∀ p ∉ c.stopped, ∀ t, P.wake p t (c.loc p) = none) ∧
    ∀ e rest, Oldest e c.net rest → e.dst ∉ c.stopped → P.recv e.dst (c.loc e.dst) e.src e.msg = none

/-! ## Order apart, a crash run -/

section Crash

variable {P : Proto ι τ σ M} {faulty : Finset ι} {c : CrashConf ι σ M}

/-- **Up to the order in flight it is a crash run.** -/
theorem FifoReachable.crash (hc : FifoReachable P faulty c) :
    ∃ net, net.Perm c.net ∧ CrashReachable P faulty ⟨⟨c.loc, net, c.hist⟩, c.stopped⟩ := by
  induction hc with
  | start => exact ⟨_, List.Perm.refl _, .start⟩
  | step _ hs ih =>
    obtain ⟨net, hnet, hcrash⟩ := ih
    cases hs with
    | wake hp h =>
      exact ⟨_, (hnet.append_left _).trans List.perm_append_comm, hcrash.step (.wake hp h)⟩
    | recv hp he h =>
      exact ⟨_, List.perm_append_comm, hcrash.step (.recv hp (hnet.trans he.perm) h)⟩
    | stop hp =>
      exact ⟨_, hnet, hcrash.step (.stop hp)⟩
    | wakeStop k hp hf h =>
      exact ⟨_, (hnet.append_left _).trans List.perm_append_comm, hcrash.step (.wakeStop k hp hf h)⟩
    | recvStop k hp hf he h =>
      exact ⟨_, List.perm_append_comm, hcrash.step (.recvStop k hp hf (hnet.trans he.perm) h)⟩

theorem FifoReachable.stopped_subset (hc : FifoReachable P faulty c) : c.stopped ⊆ faulty := by
  obtain ⟨net, -, hcrash⟩ := hc.crash
  exact hcrash.stopped_subset

/-- **The invariant rule** for these runs. -/
theorem Preserved.fifoRun {Grow : σ → σ → Prop} {L : (ι → σ) → List (Envelope ι M) → ι → Prop}
    {W : (ι → σ) → Envelope ι M → Prop} (h : Preserved P ∅ (fun _ _ => True) Grow L W) (hc : FifoReachable P faulty c) :
    Holds ∅ L W c.toConf := by
  obtain ⟨net, hnet, hcrash⟩ := hc.crash
  have hholds := h.crashRun hcrash
  exact ⟨hholds.loc, fun e he => hholds.net e (hnet.mem_iff.2 he), hholds.hist⟩

/-- **A message a running party has sent is in flight or was delivered.** -/
theorem Delivers.fifo_net_or_hist {Sent : ι → σ → ι → M → Prop} (h : Delivers P faulty Sent)
    (hc : FifoReachable P faulty c) {p q : ι} (hp : p ∉ c.stopped) {m : M} (hsent : Sent p (c.loc p) q m) :
    ⟨p, q, m⟩ ∈ c.net ∨ ⟨p, q, m⟩ ∈ c.hist := by
  obtain ⟨net, hnet, hcrash⟩ := hc.crash
  exact (h.net_or_hist hcrash p hp q m hsent).imp_left hnet.mem_iff.1

/-- **No party sends more than its ration.** -/
theorem Rations.fifo_sentCount_le {kind : M → Bool} {w : σ → ι → ℕ} (h : Rations P kind w) (hc : FifoReachable P faulty c)
    (p q : ι) : sentCount kind c.net c.hist p q ≤ w (c.loc p) q := by
  obtain ⟨net, hnet, hcrash⟩ := hc.crash
  have hle := h.sentCount_le hcrash p q
  rwa [sentCount, (hnet.append_right _).countP_eq] at hle

/-- **A protocol with a budget comes to rest** with no more parties stopped. -/
theorem Bounded.exists_fifoQuiescent [Fintype ι] {fuel : σ → ℕ} (h : Bounded P fuel) (hc : FifoReachable P faulty c) :
    ∃ c', FifoReachable P faulty c' ∧ FifoQuiescent P c' ∧ c'.stopped = c.stopped := by
  induction hn : c.load fuel using Nat.strong_induction_on generalizing c with
  | _ n ih =>
    have descend : ∀ c₁, FifoStep P faulty c c₁ → c₁.load fuel < n → c₁.stopped = c.stopped →
        ∃ c', FifoReachable P faulty c' ∧ FifoQuiescent P c' ∧ c'.stopped = c.stopped := by
      intro c₁ hs hlt hstop
      obtain ⟨c₂, hc₂, hq₂, hstop₂⟩ := ih _ hlt (hc.step hs) rfl
      exact ⟨c₂, hc₂, hq₂, hstop₂.trans hstop⟩
    by_cases hquiet : FifoQuiescent P c
    · exact ⟨c, hc, hquiet, rfl⟩
    rw [FifoQuiescent, not_and_or] at hquiet
    rcases hquiet with hwake | hrecv
    · obtain ⟨p, hp, t, hw⟩ : ∃ p ∉ c.stopped, ∃ t, P.wake p t (c.loc p) ≠ none := by
        simpa only [not_forall, exists_prop] using hwake
      obtain ⟨⟨s, out⟩, hs⟩ := Option.ne_none_iff_exists'.1 hw
      refine descend _ (.wake hp hs) ?_ rfl
      have hsum : ∑ q, fuel (Function.update c.loc p s q) + (out.length + 1) ≤ ∑ q, fuel (c.loc q) :=
        sum_update_le (h.wake _ _ _ _ _ hs)
      rw [← hn]
      simp only [CrashConf.load, List.length_append, post, List.length_map]
      omega
    · obtain ⟨e, rest, he, hp, hr⟩ : ∃ e rest, Oldest e c.net rest ∧ e.dst ∉ c.stopped ∧
          P.recv e.dst (c.loc e.dst) e.src e.msg ≠ none := by
        simpa only [not_forall, exists_prop] using hrecv
      obtain ⟨⟨s, out⟩, hs⟩ := Option.ne_none_iff_exists'.1 hr
      refine descend _ (.recv hp he hs) ?_ rfl
      have hsum : ∑ q, fuel (Function.update c.loc e.dst s q) + out.length ≤ ∑ q, fuel (c.loc q) :=
        sum_update_le (h.recv _ _ _ _ _ _ hs)
      have hlen := he.perm.length_eq
      rw [← hn]
      simp only [CrashConf.load, List.length_append, post, List.length_map]
      rw [List.length_cons] at hlen
      omega

end Crash

/-! ## The first message of a channel -/

/-- The messages sent from `p` to `q` so far, in order. -/
def log (c : CrashConf ι σ M) (p q : ι) : List (Envelope ι M) :=
  (c.hist.reverse ++ c.net).filter (fun x => x.src = p ∧ x.dst = q)

/-- **A rule for first messages**: a party that has not `begun` has sent nothing, and begins with a `First` message to
everyone. -/
structure Leads (P : Proto ι τ σ M) (First : M → Prop) (begun : σ → Prop) : Prop where
  init : ∀ p, ¬ begun (P.init p)
  wake : ∀ p t s s' out, P.wake p t s = some (s', out) → begun s ∧ begun s' ∨ ¬ begun s ∧ begun s' ∧
    ∀ q, ∃ m rest, out.filter (fun o => o.1 = q) = (q, m) :: rest ∧ First m
  recv : ∀ p s q m s' out, P.recv p s q m = some (s', out) → begun s ∧ begun s'

section Leads

variable {P : Proto ι τ σ M} {faulty : Finset ι} {First : M → Prop} {begun : σ → Prop}

/-- The channel is empty or its first message is `First`. -/
def LedBy (First : M → Prop) (l : List (Envelope ι M)) : Prop := ∀ e, l.head? = some e → First e.msg

/-- The channels of a party: empty before it begins, begun with a `First` message if it runs. -/
structure Led (First : M → Prop) (begun : σ → Prop) (c : CrashConf ι σ M) (p : ι) : Prop where
  before : ¬ begun (c.loc p) → ∀ q, log c p q = []
  after : p ∉ c.stopped → begun (c.loc p) → ∀ q, log c p q ≠ []
  led : ∀ q, LedBy First (log c p q)

theorem log_wake (c : CrashConf ι σ M) (r : ι) (s : σ) (sent : List (ι × M)) (stopped : Finset ι) (p q : ι) :
    log ⟨⟨Function.update c.loc r s, c.net ++ post r sent, c.hist⟩, stopped⟩ p q =
      log c p q ++ (post r sent).filter (fun x => x.src = p ∧ x.dst = q) := by
  simp only [log, List.filter_append, List.append_assoc]

/-- Taking the oldest message of a channel changes no channel's order. -/
theorem log_recv {c : CrashConf ι σ M} {e : Envelope ι M} {rest : List (Envelope ι M)} (he : Oldest e c.net rest) (s : σ)
    (sent : List (ι × M)) (stopped : Finset ι) (p q : ι) :
    log ⟨⟨Function.update c.loc e.dst s, rest ++ post e.dst sent, e :: c.hist⟩, stopped⟩ p q =
      log c p q ++ (post e.dst sent).filter (fun x => x.src = p ∧ x.dst = q) := by
  obtain ⟨pre, post', hnet, rfl, hpre⟩ := he
  simp only [log, hnet, List.reverse_cons, List.filter_append, List.append_assoc, List.append_cancel_left_eq]
  by_cases hch : e.src = p ∧ e.dst = q
  · have hnil : pre.filter (fun x => decide (x.src = p ∧ x.dst = q)) = [] := by
      refine List.filter_eq_nil_iff.2 (fun x hx hmem => hpre x hx ?_)
      rw [hch.1, hch.2]
      exact of_decide_eq_true hmem
    rw [hnil, List.filter_cons_of_pos (by simpa using hch), List.filter_cons_of_pos (by simpa using hch)]
    rfl
  · rw [List.filter_cons_of_neg (by simpa using hch), List.filter_cons_of_neg (by simpa using hch)]
    rfl

theorem filter_post (r q : ι) (sent : List (ι × M)) :
    (post r sent).filter (fun x => x.src = r ∧ x.dst = q) = post r (sent.filter (fun o => o.1 = q)) := by
  rw [post, post, List.filter_map]
  simp [Function.comp_def]

theorem filter_post_of_ne {r p : ι} (h : p ≠ r) (q : ι) (sent : List (ι × M)) :
    (post r sent).filter (fun x => x.src = p ∧ x.dst = q) = [] := by
  refine List.filter_eq_nil_iff.2 (fun x hx hmem => ?_)
  exact h ((of_decide_eq_true hmem).1.symm.trans (mem_post.1 hx).1)

theorem Led.act {c c' : CrashConf ι σ M} {r : ι} {s' : σ} {sent : List (ι × M)} (h : ∀ p, Led First begun c p)
    (hlog : ∀ p q, log c' p q = log c p q ++ (post r sent).filter (fun x => x.src = p ∧ x.dst = q))
    (hloc : c'.loc = Function.update c.loc r s') (hstop : c.stopped ⊆ c'.stopped) (hr : r ∉ c.stopped) (hs' : begun s')
    (hsent : begun (c.loc r) ∨ ¬ begun (c.loc r) ∧ ∀ q, LedBy First (post r (sent.filter (fun o => o.1 = q))) ∧
      (r ∉ c'.stopped → sent.filter (fun o => o.1 = q) ≠ [])) (p : ι) : Led First begun c' p := by
  by_cases hp : p = r
  · subst hp
    have hself : c'.loc p = s' := by rw [hloc, Function.update_self]
    refine ⟨fun hb => absurd (hself ▸ hs') hb, fun hrun _ q => ?_, fun q => ?_⟩
    · rw [hlog, filter_post]
      rcases hsent with hb | ⟨-, hq⟩
      · exact List.append_ne_nil_of_left_ne_nil ((h p).after hr hb q) _
      · refine List.append_ne_nil_of_right_ne_nil _ (fun hnil => (hq q).2 hrun ?_)
        exact List.map_eq_nil_iff.1 hnil
    · rw [hlog, filter_post]
      rcases hsent with hb | ⟨hb, hq⟩
      · intro e he
        rw [List.head?_append_of_ne_nil _ ((h p).after hr hb q)] at he
        exact (h p).led q e he
      · rw [(h p).before hb q, List.nil_append]
        exact (hq q).1
  · have hsame : ∀ q, log c' p q = log c p q := fun q => by rw [hlog, filter_post_of_ne hp, List.append_nil]
    have hother : c'.loc p = c.loc p := by rw [hloc, Function.update_of_ne hp]
    refine ⟨fun hb q => ?_, fun hrun hb q => ?_, fun q => ?_⟩
    · rw [hsame]
      exact (h p).before (hother ▸ hb) q
    · rw [hsame]
      exact (h p).after (fun hmem => hrun (hstop hmem)) (hother ▸ hb) q
    · rw [hsame]
      exact (h p).led q

theorem ledBy_take {r : ι} {out : List (ι × M)} {q : ι}
    (h : ∃ m rest, out.filter (fun o => o.1 = q) = (q, m) :: rest ∧ First m) (k : ℕ) :
    LedBy First (post r ((out.take k).filter (fun o => o.1 = q))) := by
  obtain ⟨m, rest, hout, hm⟩ := h
  have hpre : (out.take k).filter (fun o => o.1 = q) <+: (q, m) :: rest := hout ▸ (List.take_prefix k out).filter _
  cases htake : (out.take k).filter (fun o => o.1 = q) with
  | nil      => exact fun e he => by cases he
  | cons o l =>
    rw [htake, List.cons_prefix_cons] at hpre
    intro e he
    cases he
    rw [hpre.1]
    exact hm

theorem Leads.led (h : Leads P First begun) {c : CrashConf ι σ M} (hc : FifoReachable P faulty c) :
    ∀ p, Led First begun c p := by
  induction hc with
  | start =>
    refine fun p => ⟨fun _ q => rfl, fun _ hb => absurd hb (h.init p), fun q e he => ?_⟩
    cases he
  | @step c c' _ hs ih =>
    cases hs with
    | @wake p t s out hp hw =>
      obtain ⟨hb, hb'⟩ | ⟨hb, hb', hout⟩ := h.wake _ _ _ _ _ hw
      · exact Led.act ih (fun _ _ => log_wake _ _ _ _ _ _ _) rfl (Finset.Subset.refl _) hp hb' (Or.inl hb)
      · refine Led.act ih (fun _ _ => log_wake _ _ _ _ _ _ _) rfl (Finset.Subset.refl _) hp hb'
          (Or.inr ⟨hb, fun q => ⟨?_, fun _ => ?_⟩⟩)
        · have := ledBy_take (r := p) (hout q) out.length
          rwa [List.take_length] at this
        · obtain ⟨m, rest, hq, -⟩ := hout q
          rw [hq]
          exact List.cons_ne_nil _ _
    | recv hp he hr =>
      obtain ⟨hb, hb'⟩ := h.recv _ _ _ _ _ _ hr
      exact Led.act ih (log_recv he _ _ _) rfl (Finset.Subset.refl _) hp hb' (Or.inl hb)
    | stop hp =>
      exact fun p => ⟨(ih p).before, fun hrun => (ih p).after (fun hmem => hrun (Finset.mem_insert_of_mem hmem)),
        (ih p).led⟩
    | @wakeStop p t s out k hp hf hw =>
      obtain ⟨hb, hb'⟩ | ⟨hb, hb', hout⟩ := h.wake _ _ _ _ _ hw
      · exact Led.act ih (fun _ _ => log_wake _ _ _ _ _ _ _) rfl (Finset.subset_insert _ _) hp hb' (Or.inl hb)
      · exact Led.act ih (fun _ _ => log_wake _ _ _ _ _ _ _) rfl (Finset.subset_insert _ _) hp hb'
          (Or.inr ⟨hb, fun q => ⟨ledBy_take (hout q) k, fun hrun => absurd (Finset.mem_insert_self _ _) hrun⟩⟩)
    | recvStop k hp hf he hr =>
      obtain ⟨hb, hb'⟩ := h.recv _ _ _ _ _ _ hr
      exact Led.act ih (log_recv he _ _ _) rfl (Finset.subset_insert _ _) hp hb' (Or.inl hb)

/-- **Who has taken a message of a party has taken a `First` message of it.** -/
theorem Leads.taken (h : Leads P First begun) {c : CrashConf ι σ M} (hc : FifoReachable P faulty c) {e : Envelope ι M}
    (he : e ∈ c.hist) : ∃ e' ∈ c.hist, e'.src = e.src ∧ e'.dst = e.dst ∧ First e'.msg := by
  have hled := (h.led hc e.src).led e.dst
  rw [log, List.filter_append] at hled
  have hmem : e ∈ c.hist.reverse.filter (fun x => x.src = e.src ∧ x.dst = e.dst) :=
    List.mem_filter.2 ⟨List.mem_reverse.2 he, by simp⟩
  cases hl : c.hist.reverse.filter (fun x => x.src = e.src ∧ x.dst = e.dst) with
  | nil      => rw [hl] at hmem; cases hmem
  | cons x l =>
    rw [hl] at hled
    have hx : x ∈ c.hist.reverse.filter (fun x => x.src = e.src ∧ x.dst = e.dst) := hl ▸ List.mem_cons_self
    obtain ⟨hx, hch⟩ := List.mem_filter.1 hx
    have hch := of_decide_eq_true hch
    exact ⟨x, List.mem_reverse.1 hx, hch.1, hch.2, hled x rfl⟩

end Leads

end Net
