import Dpid.Net
import Mathlib.Algebra.BigOperators.Fin
import Mathlib.Algebra.Order.BigOperators.Group.Finset
/-!
# NetCrash — rules for parties that stop

`Delivers`: a message that a running party has sent is in flight or was delivered, so that in a quiescent configuration
a running party has taken all that it would still take.  `Rations`: a party sends no more messages of a kind than its
state accounts for.  `Bounded`: a protocol that pays for every message it sends out of a budget comes to rest from every
configuration.  `Projects`: what a part of the state and some of the messages show of a run is a run of the protocol of
that part.
-/
namespace Net

variable {ι τ σ M : Type}

/-! ## Messages seen -/

section Seen

variable {M' : Type} {un : M → Option M'}

/-- The messages a part sees. -/
def seen (un : M → Option M') (out : List (ι × M)) : List (ι × M') :=
  out.filterMap (fun o => (un o.2).map (fun m => (o.1, m)))

def seenNet (un : M → Option M') (net : List (Envelope ι M)) : List (Envelope ι M') :=
  net.filterMap (fun e => (un e.msg).map (fun m => ⟨e.src, e.dst, m⟩))

theorem seenNet_post (p : ι) (out : List (ι × M)) : seenNet un (post p out) = post p (seen un out) := by
  rw [seenNet, post, post, seen, List.filterMap_map, List.map_filterMap]
  refine List.filterMap_congr (fun o _ => ?_)
  simp only [Function.comp_apply, Option.map_map]
  rfl

theorem seenNet_append (p : ι) (out : List (ι × M)) (net : List (Envelope ι M)) :
    seenNet un (post p out ++ net) = post p (seen un out) ++ seenNet un net := by
  rw [← seenNet_post, seenNet, List.filterMap_append]
  rfl

theorem seen_take (un : M → Option M') (out : List (ι × M)) (k : ℕ) : ∃ k', seen un (out.take k) = (seen un out).take k' :=
  ⟨_, List.prefix_iff_eq_take.1 ((List.take_prefix k out).filterMap _)⟩

theorem seenNet_cons_none {e : Envelope ι M} (net : List (Envelope ι M)) (h : un e.msg = none) :
    seenNet un (e :: net) = seenNet un net := by
  rw [seenNet, List.filterMap_cons_none (by rw [h]; rfl)]
  rfl

theorem seenNet_cons_some {e : Envelope ι M} (net : List (Envelope ι M)) {m : M'} (h : un e.msg = some m) :
    seenNet un (e :: net) = ⟨e.src, e.dst, m⟩ :: seenNet un net := by
  rw [seenNet, List.filterMap_cons_some (by rw [h]; rfl)]
  rfl

theorem seenNet_perm_none {e : Envelope ι M} {net rest : List (Envelope ι M)} (he : net.Perm (e :: rest))
    (h : un e.msg = none) : (seenNet un net).Perm (seenNet un rest) :=
  seenNet_cons_none rest h ▸ he.filterMap _

theorem seenNet_perm_some {e : Envelope ι M} {net rest : List (Envelope ι M)} (he : net.Perm (e :: rest)) {m : M'}
    (h : un e.msg = some m) : (seenNet un net).Perm (⟨e.src, e.dst, m⟩ :: seenNet un rest) :=
  seenNet_cons_some rest h ▸ he.filterMap _

end Seen

variable [DecidableEq ι] {P : Proto ι τ σ M} {faulty : Finset ι}

/-! ## The delivery rule -/

/-- **A rule for delivery**: `Sent p s q m` reads off `p`'s state `s` that it has sent `m` to `q`. -/
structure Delivers (P : Proto ι τ σ M) (faulty : Finset ι) (Sent : ι → σ → ι → M → Prop) : Prop where
  init : ∀ p q m, ¬ Sent p (P.init p) q m
  wake : ∀ (c : CrashConf ι σ M) p t s out q m, CrashReachable P faulty c →
    P.wake p t (c.loc p) = some (s, out) → Sent p s q m → Sent p (c.loc p) q m ∨ (q, m) ∈ out
  recv : ∀ (c : CrashConf ι σ M) e s out q m, CrashReachable P faulty c → e ∈ c.net →
    P.recv e.dst (c.loc e.dst) e.src e.msg = some (s, out) → Sent e.dst s q m →
    Sent e.dst (c.loc e.dst) q m ∨ (q, m) ∈ out

section Delivery

variable {Sent : ι → σ → ι → M → Prop}

/-- **A message a running party has sent is in flight or was delivered.** -/
theorem Delivers.net_or_hist (h : Delivers P faulty Sent) {c : CrashConf ι σ M} (hc : CrashReachable P faulty c) :
    ∀ p ∉ c.stopped, ∀ q m, Sent p (c.loc p) q m → ⟨p, q, m⟩ ∈ c.net ∨ ⟨p, q, m⟩ ∈ c.hist := by
  -- a message in flight before a delivery is still in flight, or is the one delivered
  have deliver : ∀ {c : CrashConf ι σ M} {e x : Envelope ι M} {rest : List (Envelope ι M)} (new : List (Envelope ι M)),
      c.net.Perm (e :: rest) → x ∈ c.net ∨ x ∈ c.hist → x ∈ new ++ rest ∨ x ∈ e :: c.hist := by
    intro c e x rest new he hx
    rcases hx with hx | hx
    · rcases List.mem_cons.1 (he.mem_iff.1 hx) with rfl | hx
      · exact Or.inr List.mem_cons_self
      · exact Or.inl (List.mem_append_right _ hx)
    · exact Or.inr (List.mem_cons_of_mem _ hx)
  induction hc with
  | start => exact fun p _ q m hs => absurd hs (h.init p q m)
  | @step c c' hc hs ih =>
    cases hs with
    | @wake p t s out hp hw =>
      intro r hr q m hsent
      change Sent r (Function.update c.loc p s r) q m at hsent
      by_cases hrp : r = p
      · subst hrp
        rw [Function.update_self] at hsent
        rcases h.wake c r t s out q m hc hw hsent with hold | hout
        · exact (ih r hr q m hold).imp_left (List.mem_append_right _)
        · exact Or.inl (List.mem_append_left _ (mem_post.2 ⟨rfl, hout⟩))
      · rw [Function.update_of_ne hrp] at hsent
        exact (ih r hr q m hsent).imp_left (List.mem_append_right _)
    | @recv e rest s out hp he hrv =>
      intro r hr q m hsent
      change Sent r (Function.update c.loc e.dst s r) q m at hsent
      by_cases hre : r = e.dst
      · subst hre
        rw [Function.update_self] at hsent
        rcases h.recv c e s out q m hc (he.mem_iff.2 List.mem_cons_self) hrv hsent with hold | hout
        · exact deliver _ he (ih _ hr q m hold)
        · exact Or.inl (List.mem_append_left _ (mem_post.2 ⟨rfl, hout⟩))
      · rw [Function.update_of_ne hre] at hsent
        exact deliver _ he (ih r hr q m hsent)
    | @stop p hf =>
      exact fun r hr => ih r (fun hm => hr (Finset.mem_insert_of_mem hm))
    | @wakeStop p t s out k hp hf hw =>
      intro r hr q m hsent
      have hrp : r ≠ p := fun hrp => hr (hrp ▸ Finset.mem_insert_self _ _)
      change Sent r (Function.update c.loc p s r) q m at hsent
      rw [Function.update_of_ne hrp] at hsent
      exact (ih r (fun hm => hr (Finset.mem_insert_of_mem hm)) q m hsent).imp_left (List.mem_append_right _)
    | @recvStop e rest s out k hp hf he hrv =>
      intro r hr q m hsent
      have hre : r ≠ e.dst := fun hre => hr (hre ▸ Finset.mem_insert_self _ _)
      change Sent r (Function.update c.loc e.dst s r) q m at hsent
      rw [Function.update_of_ne hre] at hsent
      exact deliver _ he (ih r (fun hm => hr (Finset.mem_insert_of_mem hm)) q m hsent)

/-- **At rest, a message between running parties that the receiver would take was delivered.** -/
theorem Delivers.delivered (h : Delivers P faulty Sent) {c : CrashConf ι σ M} (hc : CrashReachable P faulty c)
    (hquiet : Quiescent P c) {p q : ι} (hp : p ∉ c.stopped) (hq : q ∉ c.stopped) {m : M} (hsent : Sent p (c.loc p) q m)
    (htake : P.recv q (c.loc q) p m ≠ none) : ⟨p, q, m⟩ ∈ c.hist := by
  rcases h.net_or_hist hc p hp q m hsent with hnet | hhist
  · exact absurd (hquiet.2 _ hnet hq) htake
  · exact hhist

end Delivery

/-! ## Counting what is sent -/

/-- The messages of one kind that `p` has sent to `q`, in flight or delivered. -/
def sentCount (kind : M → Bool) (net hist : List (Envelope ι M)) (p q : ι) : ℕ :=
  (net ++ hist).countP (fun e => (e.src = p ∧ e.dst = q) ∧ kind e.msg)

/-- **A rule for counting**: `w s q` bounds the messages of one kind that a party in state `s` has sent to `q`. -/
structure Rations (P : Proto ι τ σ M) (kind : M → Bool) (w : σ → ι → ℕ) : Prop where
  wake : ∀ p t s s' out q, P.wake p t s = some (s', out) → w s q + out.countP (fun o => o.1 = q ∧ kind o.2) ≤ w s' q
  recv : ∀ p s r m s' out q, P.recv p s r m = some (s', out) → w s q + out.countP (fun o => o.1 = q ∧ kind o.2) ≤ w s' q

section Counting

variable {kind : M → Bool} {w : σ → ι → ℕ}

theorem countP_post (r p q : ι) (sent : List (ι × M)) :
    (post r sent).countP (fun e => decide ((e.src = p ∧ e.dst = q) ∧ kind e.msg = true)) =
      if r = p then sent.countP (fun o => decide (o.1 = q ∧ kind o.2 = true)) else 0 := by
  rw [post, List.countP_map]
  by_cases hr : r = p
  · simp [hr, Function.comp_def]
  · simp [hr, Function.comp_def]

theorem sentCount_act {loc : ι → σ} {net net' hist hist' : List (Envelope ι M)} {r : ι} {s : σ} {out sent : List (ι × M)}
    (hnet : (net' ++ hist').Perm (post r sent ++ (net ++ hist))) (hsub : sent.Sublist out)
    (hw : ∀ q, w (loc r) q + out.countP (fun o => o.1 = q ∧ kind o.2) ≤ w s q) {p q : ι}
    (hold : sentCount kind net hist p q ≤ w (loc p) q) :
    sentCount kind net' hist' p q ≤ w (Function.update loc r s p) q := by
  rw [sentCount, hnet.countP_eq, List.countP_append, countP_post]
  rw [sentCount] at hold
  by_cases hp : r = p
  · subst hp
    rw [if_pos rfl, Function.update_self]
    have hle := hsub.countP_le (p := fun o => decide (o.1 = q ∧ kind o.2 = true))
    have := hw q
    omega
  · rw [if_neg hp, Function.update_of_ne (fun h => hp h.symm)]
    omega

omit [DecidableEq ι] in
theorem perm_taken {e : Envelope ι M} {net rest : List (Envelope ι M)} (he : net.Perm (e :: rest))
    (new hist : List (Envelope ι M)) : ((new ++ rest) ++ e :: hist).Perm (new ++ (net ++ hist)) := by
  rw [List.append_assoc]
  exact List.Perm.append_left _ (List.perm_middle.trans (he.append_right _).symm)

/-- **No party sends more than its ration.** -/
theorem Rations.sentCount_le (h : Rations P kind w) {c : CrashConf ι σ M} (hc : CrashReachable P faulty c) (p q : ι) :
    sentCount kind c.net c.hist p q ≤ w (c.loc p) q := by
  induction hc with
  | start => exact Nat.zero_le _
  | step _ hs ih =>
    cases hs with
    | wake hp hw =>
      exact sentCount_act (by rw [List.append_assoc]) (List.Sublist.refl _) (fun q => h.wake _ _ _ _ _ q hw) ih
    | recv hp he hr =>
      exact sentCount_act (perm_taken he _ _) (List.Sublist.refl _) (fun q => h.recv _ _ _ _ _ _ q hr) ih
    | stop hp => exact ih
    | wakeStop k hp hf hw =>
      exact sentCount_act (by rw [List.append_assoc]) (List.take_sublist _ _) (fun q => h.wake _ _ _ _ _ q hw) ih
    | recvStop k hp hf he hr =>
      exact sentCount_act (perm_taken he _ _) (List.take_sublist _ _) (fun q => h.recv _ _ _ _ _ _ q hr) ih

end Counting

/-! ## Coming to rest -/

/-- **A budget**: a step of a party's own costs one and every message sent costs one. -/
structure Bounded (P : Proto ι τ σ M) (fuel : σ → ℕ) : Prop where
  wake : ∀ p t s s' out, P.wake p t s = some (s', out) → fuel s' + out.length < fuel s
  recv : ∀ p s q m s' out, P.recv p s q m = some (s', out) → fuel s' + out.length ≤ fuel s

section Rest

variable [Fintype ι] {fuel : σ → ℕ}

theorem sum_update_le {loc : ι → σ} {p : ι} {s : σ} {n : ℕ} (h : fuel s + n ≤ fuel (loc p)) :
    ∑ q, fuel (Function.update loc p s q) + n ≤ ∑ q, fuel (loc q) := by
  rw [← Finset.add_sum_erase _ _ (Finset.mem_univ p), ← Finset.add_sum_erase _ (fun q => fuel (loc q)) (Finset.mem_univ p),
    Function.update_self]
  have hrest : ∑ q ∈ Finset.univ.erase p, fuel (Function.update loc p s q) = ∑ q ∈ Finset.univ.erase p, fuel (loc q) :=
    Finset.sum_congr rfl (fun q hq => by rw [Function.update_of_ne (Finset.ne_of_mem_erase hq)])
  omega

/-- What is left of the budgets, and the messages in flight. -/
def CrashConf.load (fuel : σ → ℕ) (c : CrashConf ι σ M) : ℕ := ∑ p, fuel (c.loc p) + c.net.length

/-- A running party's step lowers the load. -/
theorem Bounded.exists_step (h : Bounded P fuel) (faulty : Finset ι) {c : CrashConf ι σ M} (hquiet : ¬ Quiescent P c) :
    ∃ c', CrashStep P faulty c c' ∧ c'.load fuel < c.load fuel ∧ c'.stopped = c.stopped := by
  rw [Quiescent, not_and_or] at hquiet
  rcases hquiet with hwake | hrecv
  · obtain ⟨p, hp, t, hw⟩ : ∃ p ∉ c.stopped, ∃ t, P.wake p t (c.loc p) ≠ none := by
      simpa only [not_forall, exists_prop] using hwake
    obtain ⟨⟨s, out⟩, hs⟩ := Option.ne_none_iff_exists'.1 hw
    refine ⟨_, .wake hp hs, ?_, rfl⟩
    have hsum : ∑ q, fuel (Function.update c.loc p s q) + (out.length + 1) ≤ ∑ q, fuel (c.loc q) :=
      sum_update_le (h.wake _ _ _ _ _ hs)
    simp only [CrashConf.load, List.length_append, post, List.length_map]
    omega
  · obtain ⟨e, he, hp, hr⟩ : ∃ e ∈ c.net, e.dst ∉ c.stopped ∧ P.recv e.dst (c.loc e.dst) e.src e.msg ≠ none := by
      simpa only [not_forall, exists_prop] using hrecv
    obtain ⟨⟨s, out⟩, hs⟩ := Option.ne_none_iff_exists'.1 hr
    obtain ⟨i, hi, rfl⟩ := List.getElem_of_mem he
    refine ⟨_, .recv hp (List.getElem_cons_eraseIdx_perm hi).symm hs, ?_, rfl⟩
    have hsum : ∑ q, fuel (Function.update c.loc c.net[i].dst s q) + out.length ≤ ∑ q, fuel (c.loc q) :=
      sum_update_le (h.recv _ _ _ _ _ _ hs)
    simp only [CrashConf.load, List.length_append, post, List.length_map, List.length_eraseIdx_of_lt hi]
    omega

/-- **A protocol with a budget comes to rest** with no more parties stopped. -/
theorem Bounded.exists_quiescent (h : Bounded P fuel) {c : CrashConf ι σ M} (hc : CrashReachable P faulty c) :
    ∃ c', CrashReachable P faulty c' ∧ Quiescent P c' ∧ c'.stopped = c.stopped := by
  induction hn : c.load fuel using Nat.strong_induction_on generalizing c with
  | _ n ih =>
    by_cases hquiet : Quiescent P c
    · exact ⟨c, hc, hquiet, rfl⟩
    · obtain ⟨c₁, hs, hlt, hstop⟩ := h.exists_step faulty hquiet
      obtain ⟨c₂, hc₂, hq₂, hstop₂⟩ := ih _ (hn ▸ hlt) (hc.step hs) rfl
      exact ⟨c₂, hc₂, hq₂, hstop₂.trans hstop⟩

end Rest

/-! ## Parts of a protocol -/

section Parts

variable {τ' σ' M' : Type} {P' : Proto ι τ' σ' M'} {proj : σ → σ'} {un : M → Option M'}

/-- **A protocol with `P'` as a part**: a step leaves the part as it is and sends none of its messages, or is a step of
`P'`. -/
structure Projects (P : Proto ι τ σ M) (faulty : Finset ι) (P' : Proto ι τ' σ' M') (proj : σ → σ')
    (un : M → Option M') : Prop where
  init : ∀ p, proj (P.init p) = P'.init p
  wake : ∀ (c : CrashConf ι σ M) p t s out, CrashReachable P faulty c → P.wake p t (c.loc p) = some (s, out) →
    (proj s = proj (c.loc p) ∧ seen un out = []) ∨ ∃ t', P'.wake p t' (proj (c.loc p)) = some (proj s, seen un out)
  recv : ∀ (c : CrashConf ι σ M) (e : Envelope ι M) s out, CrashReachable P faulty c →
    P.recv e.dst (c.loc e.dst) e.src e.msg = some (s, out) →
    (un e.msg = none ∧ proj s = proj (c.loc e.dst) ∧ seen un out = []) ∨
      ∃ m, un e.msg = some m ∧ P'.recv e.dst (proj (c.loc e.dst)) e.src m = some (proj s, seen un out)

/-- What a part sees of a configuration, up to the order of the messages in flight. -/
def Part (P' : Proto ι τ' σ' M') (faulty : Finset ι) (proj : σ → σ') (un : M → Option M') (c : CrashConf ι σ M)
    (net : List (Envelope ι M')) : Prop :=
  net.Perm (seenNet un c.net) ∧
    CrashReachable P' faulty ⟨⟨fun p => proj (c.loc p), net, seenNet un c.hist⟩, c.stopped⟩

theorem comp_update_of_eq {proj : σ → σ'} {loc : ι → σ} {p : ι} {s : σ} (h : proj s = proj (loc p)) :
    (fun q => proj (Function.update loc p s q)) = fun q => proj (loc q) := by
  have hupdate : (fun q => proj (Function.update loc p s q)) = Function.update (fun q => proj (loc q)) p (proj s) :=
    Function.comp_update proj loc p s
  rw [hupdate, h]
  exact Function.update_eq_self _ _

/-- **What a part sees of a run is a run of the part.** -/
theorem Projects.exists_part (h : Projects P faulty P' proj un) {c : CrashConf ι σ M} (hc : CrashReachable P faulty c) :
    ∃ net, Part P' faulty proj un c net := by
  have hupdate : ∀ (loc : ι → σ) p s, (fun q => proj (Function.update loc p s q)) =
      Function.update (fun q => proj (loc q)) p (proj s) := fun loc p s => Function.comp_update proj loc p s
  induction hc with
  | start =>
    refine ⟨[], List.Perm.refl _, ?_⟩
    have hinit : (fun p => proj (P.init p)) = P'.init := funext h.init
    show CrashReachable P' faulty ⟨⟨fun p => proj (P.init p), [], []⟩, ∅⟩
    rw [hinit]
    exact .start
  | @step c c' hc hs ih =>
    obtain ⟨net, hnet, hpart⟩ := ih
    cases hs with
    | @wake p t s out hp hw =>
      rcases h.wake c p t s out hc hw with ⟨hproj, hout⟩ | ⟨t', hw'⟩
      · refine ⟨net, ?_, ?_⟩
        · rw [seenNet_append, hout]
          exact hnet
        · rw [comp_update_of_eq hproj]
          exact hpart
      · refine ⟨post p (seen un out) ++ net, ?_, ?_⟩
        · rw [seenNet_append]
          exact hnet.append_left _
        · rw [hupdate]
          exact hpart.step (.wake hp hw')
    | @recv e rest s out hp he hr =>
      rcases h.recv c e s out hc hr with ⟨hun, hproj, hout⟩ | ⟨m, hun, hr'⟩
      · refine ⟨net, ?_, ?_⟩
        · rw [seenNet_append, hout]
          exact hnet.trans (seenNet_perm_none he hun)
        · rw [comp_update_of_eq hproj, seenNet_cons_none _ hun]
          exact hpart
      · refine ⟨post e.dst (seen un out) ++ seenNet un rest, ?_, ?_⟩
        · rw [seenNet_append]
        · rw [hupdate, seenNet_cons_some _ hun]
          exact hpart.step (.recv (e := ⟨e.src, e.dst, m⟩) hp (hnet.trans (seenNet_perm_some he hun)) hr')
    | @stop p hp => exact ⟨net, hnet, hpart.step (.stop hp)⟩
    | @wakeStop p t s out k hp hf hw =>
      obtain ⟨k', hk⟩ := seen_take un out k
      rcases h.wake c p t s out hc hw with ⟨hproj, hout⟩ | ⟨t', hw'⟩
      · refine ⟨net, ?_, ?_⟩
        · rw [seenNet_append, hk, hout, List.take_nil]
          exact hnet
        · rw [comp_update_of_eq hproj]
          exact hpart.step (.stop hf)
      · refine ⟨post p ((seen un out).take k') ++ net, ?_, ?_⟩
        · rw [seenNet_append, hk]
          exact hnet.append_left _
        · rw [hupdate]
          exact hpart.step (.wakeStop k' hp hf hw')
    | @recvStop e rest s out k hp hf he hr =>
      obtain ⟨k', hk⟩ := seen_take un out k
      rcases h.recv c e s out hc hr with ⟨hun, hproj, hout⟩ | ⟨m, hun, hr'⟩
      · refine ⟨net, ?_, ?_⟩
        · rw [seenNet_append, hk, hout, List.take_nil]
          exact hnet.trans (seenNet_perm_none he hun)
        · rw [comp_update_of_eq hproj, seenNet_cons_none _ hun]
          exact hpart.step (.stop hf)
      · refine ⟨post e.dst ((seen un out).take k') ++ seenNet un rest, ?_, ?_⟩
        · rw [seenNet_append, hk]
        · rw [hupdate, seenNet_cons_some _ hun]
          exact hpart.step (.recvStop (e := ⟨e.src, e.dst, m⟩) k' hp hf (hnet.trans (seenNet_perm_some he hun)) hr')

/-- **A part of a protocol at rest is at rest**, if its own steps wait for nothing and it refuses what the whole
refuses. -/
theorem Part.quiescent {c : CrashConf ι σ M} {net : List (Envelope ι M')} (h : Part P' faulty proj un c net)
    (hquiet : Quiescent P c) (hwake : ∀ p ∉ c.stopped, ∀ t, P'.wake p t (proj (c.loc p)) = none)
    (hrecv : ∀ p s q m m', un m = some m' → P.recv p s q m = none → P'.recv p (proj s) q m' = none) :
    Quiescent P' ⟨⟨fun p => proj (c.loc p), net, seenNet un c.hist⟩, c.stopped⟩ := by
  refine ⟨hwake, fun e he hdst => ?_⟩
  obtain ⟨e', he', hseen⟩ := List.mem_filterMap.1 (h.1.mem_iff.1 he)
  obtain ⟨m, hun, rfl⟩ := Option.map_eq_some_iff.1 hseen
  exact hrecv _ _ _ _ _ hun (hquiet.2 e' he' hdst)

end Parts

end Net
