import Dpid.AddSafety
import Dpid.Codeword
import Mathlib
/-!
# AddReconst — the attempts of `add` to reconstruct, share by share

One party takes `RECONST`s of `N` parties in some order, among any `ADD_VAL`s.  From `2 f + 1` shares on every share
is followed by an attempt: the `K` lowest numbered shares are decoded, and the message is returned when `2 f + 1` shares
agree with its stripes.  An attempt with a wrong share among the lowest decodes another message, and nothing drops the
share later.  `deliver_outcome` says where each attempt leads, `add_returns_iff` when the common input comes out.
-/
namespace Dpid
namespace Dissem

variable {H : Hash} {z : Zfec} {N f : Nat} {m : Text} {pid : Fin N} {s : AddState N}

/-- The state after a message from a channel, dropped if the party takes none. -/
def takeMsg (H : Hash) (z : Zfec) (f : Nat) (m : Text) (pid : Fin N) (s : AddState N) (x : Fin N × AddMsg) : AddState N :=
  ((add H z f m).recv pid s x.1 x.2).elim s Prod.fst

/-- The state after `msgs` in this order, each from its channel. -/
def deliver (H : Hash) (z : Zfec) (f : Nat) (m : Text) (pid : Fin N) (s : AddState N) (msgs : List (Fin N × AddMsg)) :
    AddState N :=
  msgs.foldl (takeMsg H z f m pid) s

/-- The shares among `msgs`. -/
def shares (msgs : List (Fin N × AddMsg)) : List (Fin N × Bytes) :=
  msgs.filterMap (fun x =>
    match x.2 with
    | .addVal _ _      => none
    | .reconst _ value => some (x.1, value))

/-- At least `2 f + 1` of the shares have the hash of the stripe of `m'` at their place. -/
def Confirmed (H : Hash) (z : Zfec) (f : Nat) (P : List (Fin N × Bytes)) (m' : Bytes) : Prop :=
  ∃ share, encode z (N - 2 * f) N (.bytes m') = .ok share ∧
    2 * f + 1 ≤ P.countP (fun x => decide (H (share.getD x.1 []) = H x.2))

/-- With the shares `P` an attempt is made, and it settles for `m'`. -/
def Decided (H : Hash) (z : Zfec) (f : Nat) (P : List (Fin N × Bytes)) (m' : Bytes) : Prop :=
  2 * f + 1 ≤ P.length ∧ Reads z (N - 2 * f) P m' ∧ Confirmed H z f P m'

/-- The first attempt that settles settles for `m'`. -/
def Settles (H : Hash) (z : Zfec) (f : Nat) (P : List (Fin N × Bytes)) (m' : Bytes) : Prop :=
  ∃ c ≤ P.length, Decided H z f (P.take c) m' ∧ ∀ c' < c, ∀ m'', ¬ Decided H z f (P.take c') m''

/-- The party has taken the shares `P`. -/
structure Has (H : Hash) (P : List (Fin N × Bytes)) (s : AddState N) : Prop where
  slots : s.reconstCounter = place P
  count : s.count = P.length
  senders : ∀ i : Fin N, ((i : Nat) : Int) ∈ s.reconstSenders ↔ i ∈ P.map Prod.fst
  check : s.reconstCheck.map (fun x => (x.sender, x.hash)) = P.map (fun x => (((x.1 : Nat) : Int), H x.2))

/-- It is in its loop as well. -/
structure At (H : Hash) (P : List (Fin N × Bytes)) (s : AddState N) : Prop extends Has H P s where
  phase : s.phase = .loop

/-- Where the attempts lead. -/
inductive Outcome (H : Hash) (z : Zfec) (f : Nat) (P : List (Fin N × Bytes)) (s : AddState N) : Prop where
  | waits (h : At H P s) (hnone : ∀ c ≤ P.length, ∀ m', ¬ Decided H z f (P.take c) m')
  | returned (m' : Bytes) (h : s.phase = .returned m') (hset : Settles H z f P m')
  | failed (h : s.phase = .failed) (hfull : N ≤ P.length) (hnone : ∀ c ≤ P.length, ∀ m', ¬ Decided H z f (P.take c) m')

/-! ## One attempt -/

theorem tally_eq {share : List Bytes} (hlen : share.length = N) : ∀ {l : List (Share N)} {P : List (Fin N × Bytes)}
    {counter : Nat}, l.map (fun x => (x.sender, x.hash)) = P.map (fun x => (((x.1 : Nat) : Int), H x.2)) →
    counter ≤ 2 * f → tally H f share l counter =
      .ok (decide (2 * f + 1 ≤ counter + P.countP (fun x => decide (H (share.getD x.1 []) = H x.2))))
  | [], P, counter, hl, hc => by
    rw [List.map_nil, eq_comm, List.map_eq_nil_iff] at hl
    subst hl
    have hno : ¬ 2 * f + 1 ≤ counter + 0 := by omega
    simp only [tally, List.countP_nil, hno, decide_false]
  | x :: l, [], counter, hl, hc => by simp at hl
  | x :: l, y :: P, counter, hl, hc => by
    simp only [List.map_cons, List.cons.injEq, Prod.mk.injEq] at hl
    obtain ⟨⟨hs, hh⟩, hl⟩ := hl
    have hk : pyIndex share.length x.sender = .ok (y.1 : Nat) := by
      rw [hs, pyIndex_natCast (hlen ▸ y.1.isLt)]
    simp only [tally, hk, hh, bind, Except.bind, List.countP_cons, decide_eq_true_eq]
    by_cases heq : H (share.getD y.1 []) = H y.2
    · rw [if_pos heq, if_pos heq]
      by_cases hf : 2 * f + 1 ≤ counter + 1
      · rw [if_pos hf, decide_eq_true (by omega)]
        rfl
      · rw [if_neg hf, tally_eq hlen hl (by omega)]
        congr 2
        exact propext ⟨fun h => by omega, fun h => by omega⟩
    · rw [if_neg heq, if_neg heq, if_neg (by omega : ¬ 2 * f + 1 ≤ counter), tally_eq hlen hl hc]
      rfl

section Attempt

variable {P : List (Fin N × Bytes)} {L : Nat}

/-- **An attempt with enough shares reads some message** and returns it just when it is confirmed. -/
theorem reconstruct_eq (hz : z.IsMds (N - 2 * f) N) (hl : z.SameLength (N - 2 * f) N) (h1 : 1 ≤ N - 2 * f) (hN : N ≤ 256)
    (hnd : (P.map Prod.fst).Nodup) (hP : N - 2 * f ≤ P.length) (hL : 1 ≤ L) (hwidth : ∀ x ∈ P, x.2.length = L)
    (hslots : s.reconstCounter = place P)
    (hcheck : s.reconstCheck.map (fun x => (x.sender, x.hash)) = P.map (fun x => (((x.1 : Nat) : Int), H x.2))) :
    ∃ m', Reads z (N - 2 * f) P m' ∧ ((Confirmed H z f P m' ∧ (reconstruct H z f s).1 = .returned m') ∨
      (¬ Confirmed H z f P m' ∧ (reconstruct H z f s).1 = if N ≤ s.count then .failed else .loop)) := by
  have hle : N - 2 * f ≤ N := Nat.sub_le _ _
  obtain ⟨m', hreads⟩ := exists_reads hz hl h1 hnd hP hL hwidth
  have hdec := decode_of_reads hz h1 hle hN hnd hP hreads
  obtain ⟨share, hshare, hlen⟩ := encode_isOk hz h1 hle hN (.bytes m')
  refine ⟨m', hreads, ?_⟩
  unfold reconstruct
  simp only [hslots, hdec, hshare, tally_eq hlen hcheck (Nat.zero_le _), Nat.zero_add]
  by_cases hconf : 2 * f + 1 ≤ P.countP (fun x => decide (H (share.getD x.1 []) = H x.2))
  · left
    constructor
    · exact ⟨share, hshare, hconf⟩
    · rw [decide_eq_true hconf]
  · right
    constructor
    · rintro ⟨share', hshare', hconf'⟩
      cases hshare.symm.trans hshare'
      exact hconf hconf'
    · rw [decide_eq_false hconf]

theorem reads_unique (hz : z.IsMds (N - 2 * f) N) (h1 : 1 ≤ N - 2 * f) (hN : N ≤ 256) (hnd : (P.map Prod.fst).Nodup)
    (hP : N - 2 * f ≤ P.length) {m₁ m₂ : Bytes} (h₁ : Reads z (N - 2 * f) P m₁) (h₂ : Reads z (N - 2 * f) P m₂) :
    m₁ = m₂ := by
  have hdec₁ := decode_of_reads hz h1 (Nat.sub_le _ _) hN hnd hP h₁
  have hdec₂ := decode_of_reads hz h1 (Nat.sub_le _ _) hN hnd hP h₂
  exact Except.ok.inj (hdec₁.symm.trans hdec₂)

/-! ## One message -/

theorem At.init (m : Text) (pid : Fin N) {stripes : List Bytes} (hS : encode z (N - 2 * f) N m = .ok stripes) :
    At H [] (start z f m pid (init (N := N))).1 := by
  unfold start
  rw [hS]
  exact ⟨⟨rfl, rfl, by simp [Dissem.init], rfl⟩, rfl⟩

theorem At.addVal (h : At H P s) (target : Fin N) (sender : PyId) (value : Bytes) :
    At H P (onAddVal H f pid target sender value s).1 := by
  have hhas := h.toHas
  unfold onAddVal
  split
  · exact h
  · simp only
    split
    · exact ⟨⟨hhas.slots, hhas.count, hhas.senders, hhas.check⟩, h.phase⟩
    · exact ⟨⟨hhas.slots, hhas.count, hhas.senders, hhas.check⟩, h.phase⟩

theorem Has.addShare (h : Has H P s) (q : Fin N) (value : Bytes) :
    Has H (P ++ [(q, value)]) (addShare H q (q : Nat) q value s) where
  slots   := by rw [place_concat, ← h.slots]; rfl
  count   := by simp [Dissem.addShare, h.count]
  senders := by
    intro i
    have hiq : ((i : Nat) : Int) = ((q : Nat) : Int) ↔ i = q := by rw [Int.ofNat_inj, Fin.ext_iff]
    rw [List.map_append, List.mem_append, List.map_singleton, List.mem_singleton, ← h.senders i, ← hiq, or_comm]
    exact Finset.mem_insert
  check   := by simp [Dissem.addShare, h.check]

theorem Has.onReconst (h : Has H P s) {q : Fin N} (hq : q ∉ P.map Prod.fst) (value : Bytes) :
    onReconst H z f q (.int (q : Nat)) value s =
      if 2 * f + 1 ≤ P.length + 1 then
        { Dissem.addShare H q (q : Nat) q value s with
          phase := (reconstruct H z f (Dissem.addShare H q (q : Nat) q value s)).1
          hashed := (reconstruct H z f (Dissem.addShare H q (q : Nat) q value s)).2 ++
            (Dissem.addShare H q (q : Nat) q value s).hashed }
      else Dissem.addShare H q (q : Nat) q value s := by
  have hnew : ((q : Nat) : Int) ∉ s.reconstSenders := fun hmem => hq ((h.senders q).1 hmem)
  have hk : pyIndex s.reconstCounter.length ((q : Nat) : Int) = .ok (q : Nat) := by
    rw [h.slots, place_length, pyIndex_natCast q.isLt]
  have hcount : (Dissem.addShare H q (q : Nat) q value s).count = P.length + 1 := by simp [Dissem.addShare, h.count]
  rw [Dissem.onReconst, if_neg hnew, hk]
  simp only [hcount]

theorem takeMsg_of_ne (h : s.phase ≠ .loop) (x : Fin N × AddMsg) : takeMsg H z f m pid s x = s := by
  simp [takeMsg, add, h]

theorem takeMsg_of_loop (h : s.phase = .loop) (x : Fin N × AddMsg) :
    takeMsg H z f m pid s x = (onMsg H z f pid s x.1 x.2).1 := by
  simp [takeMsg, add, h]

theorem forall_concat {x : Fin N × Bytes} {Q : List (Fin N × Bytes) → Prop} (h : ∀ c ≤ P.length, Q (P.take c))
    (hx : Q (P ++ [x])) : ∀ c ≤ (P ++ [x]).length, Q ((P ++ [x]).take c) := by
  intro c hc
  rw [List.length_append, List.length_singleton] at hc
  by_cases hle : c ≤ P.length
  · rw [List.take_append_of_le_length hle]
    exact h c hle
  · rw [List.take_of_length_le (by rw [List.length_append, List.length_singleton]; omega)]
    exact hx

theorem Settles.append {m' : Bytes} (h : Settles H z f P m') (R : List (Fin N × Bytes)) : Settles H z f (P ++ R) m' := by
  obtain ⟨c, hc, hdec, hmin⟩ := h
  refine ⟨c, by rw [List.length_append]; omega, by rwa [List.take_append_of_le_length hc], fun c' hc' => ?_⟩
  rw [List.take_append_of_le_length (by omega)]
  exact hmin c' hc'

theorem Settles.unique (hz : z.IsMds (N - 2 * f) N) (h1 : 1 ≤ N - 2 * f) (hN : N ≤ 256) (hf : N - 2 * f ≤ 2 * f + 1)
    (hnd : (P.map Prod.fst).Nodup) {m₁ m₂ : Bytes} (h₁ : Settles H z f P m₁) (h₂ : Settles H z f P m₂) : m₁ = m₂ := by
  obtain ⟨c₁, hc₁, hdec₁, hmin₁⟩ := h₁
  obtain ⟨c₂, hc₂, hdec₂, hmin₂⟩ := h₂
  have hc : c₁ = c₂ := by
    by_contra hne
    rcases Nat.lt_or_gt_of_ne hne with hlt | hlt
    · exact hmin₂ c₁ hlt m₁ hdec₁
    · exact hmin₁ c₂ hlt m₂ hdec₂
  subst hc
  have hnd' : ((P.take c₁).map Prod.fst).Nodup := by
    rw [List.map_take]
    exact hnd.sublist (List.take_sublist _ _)
  exact reads_unique hz h1 hN hnd' (by have := hdec₁.1; omega) hdec₁.2.1 hdec₂.2.1

/-- **One more share** leads from outcome to outcome. -/
theorem Outcome.share (hz : z.IsMds (N - 2 * f) N) (hl : z.SameLength (N - 2 * f) N) (h1 : 1 ≤ N - 2 * f) (hN : N ≤ 256)
    (hf : N - 2 * f ≤ 2 * f + 1) {q : Fin N} {value : Bytes} (hnd : ((P ++ [(q, value)]).map Prod.fst).Nodup)
    (hL : 1 ≤ L) (hwidth : ∀ x ∈ P ++ [(q, value)], x.2.length = L) (h : Outcome H z f P s) :
    Outcome H z f (P ++ [(q, value)])
      (takeMsg H z f m pid s (q, .reconst (.int (q : Nat)) value)) := by
  have hq : q ∉ P.map Prod.fst := by
    rw [List.map_append] at hnd
    exact fun hmem => (List.nodup_append.1 hnd).2.2 _ hmem _ (List.mem_singleton_self _) rfl
  cases h with
  | returned m' hphase hset =>
    rw [takeMsg_of_ne (by rw [hphase]; simp)]
    exact .returned m' hphase (hset.append _)
  | failed hphase hfull hnone =>
    have hle := hnd.length_le_card
    rw [List.length_map, List.length_append, List.length_singleton, Fintype.card_fin] at hle
    omega
  | waits hat hnone =>
    rw [takeMsg_of_loop hat.phase]
    show Outcome H z f _ (Dissem.onReconst H z f q (.int (q : Nat)) value s)
    rw [hat.onReconst hq]
    have hadd := hat.addShare q value
    have hlen : (P ++ [(q, value)]).length = P.length + 1 := by simp
    by_cases hc : 2 * f + 1 ≤ P.length + 1
    · rw [if_pos hc]
      obtain ⟨m', hreads, ⟨hconf, hphase⟩ | ⟨hconf, hphase⟩⟩ := reconstruct_eq hz hl h1 hN hnd (by omega) hL hwidth
        hadd.slots hadd.check
      · refine .returned m' hphase ⟨P.length + 1, by omega, ?_, fun c' hc' m'' => ?_⟩
        · rw [List.take_of_length_le (by omega)]
          exact ⟨by omega, hreads, hconf⟩
        · rw [List.take_append_of_le_length (by omega)]
          exact hnone c' (by omega) m''
      · have hnone' := forall_concat (x := (q, value)) (Q := fun R => ∀ m'', ¬ Decided H z f R m'') hnone (by
          intro m'' hdec
          rw [reads_unique hz h1 hN hnd (by omega) hdec.2.1 hreads] at hdec
          exact hconf hdec.2.2)
        rw [hadd.count] at hphase
        by_cases hfull : N ≤ (P ++ [(q, value)]).length
        · exact .failed (by rw [hphase, if_pos hfull]) hfull hnone'
        · exact .waits ⟨⟨hadd.slots, hadd.count, hadd.senders, hadd.check⟩, by rw [hphase, if_neg hfull]⟩ hnone'
    · rw [if_neg hc]
      refine .waits ⟨hadd, hat.phase⟩ (forall_concat (Q := fun R => ∀ m'', ¬ Decided H z f R m'') hnone (fun m'' hdec => ?_))
      have := hdec.1
      omega

theorem Outcome.addVal (h : Outcome H z f P s) (q : Fin N) (sender : PyId) (value : Bytes) :
    Outcome H z f P (takeMsg H z f m pid s (q, .addVal sender value)) := by
  cases h with
  | returned m' hphase hset      =>
    rw [takeMsg_of_ne (by rw [hphase]; simp)]
    exact .returned m' hphase hset
  | failed hphase hfull hnone    =>
    rw [takeMsg_of_ne (by rw [hphase]; simp)]
    exact .failed hphase hfull hnone
  | waits hat hnone              =>
    rw [takeMsg_of_loop hat.phase]
    exact .waits (hat.addVal q sender value) hnone

end Attempt

/-! ## All messages -/

section Deliver

variable {msgs : List (Fin N × AddMsg)} {stripes : List Bytes} {L : Nat}

/-- The shares carry their channel's id. -/
def OwnIds (msgs : List (Fin N × AddMsg)) : Prop :=
  ∀ q sender value, (q, AddMsg.reconst sender value) ∈ msgs → sender = .int (q : Nat)

theorem deliver_concat (msgs : List (Fin N × AddMsg)) (x : Fin N × AddMsg) :
    deliver H z f m pid s (msgs ++ [x]) = takeMsg H z f m pid (deliver H z f m pid s msgs) x := by
  rw [deliver, List.foldl_append]
  rfl

theorem shares_concat_addVal (msgs : List (Fin N × AddMsg)) (q : Fin N) (sender : PyId) (value : Bytes) :
    shares (msgs ++ [(q, .addVal sender value)]) = shares msgs := by
  simp [shares]

theorem shares_concat_reconst (msgs : List (Fin N × AddMsg)) (q : Fin N) (sender : PyId) (value : Bytes) :
    shares (msgs ++ [(q, .reconst sender value)]) = shares msgs ++ [(q, value)] := by
  simp [shares]

/-- **Where the shares lead.** -/
theorem deliver_outcome (m : Text) (pid : Fin N) (hz : z.IsMds (N - 2 * f) N) (hl : z.SameLength (N - 2 * f) N)
    (h1 : 1 ≤ N - 2 * f) (hN : N ≤ 256) (hf : N - 2 * f ≤ 2 * f + 1) (hs : At H [] s) (hids : OwnIds msgs) (hnd : ((shares msgs).map Prod.fst).Nodup)
    (hL : 1 ≤ L) (hwidth : ∀ x ∈ shares msgs, x.2.length = L) :
    Outcome H z f (shares msgs) (deliver H z f m pid s msgs) := by
  induction msgs using List.reverseRecOn with
  | nil =>
    refine .waits hs (fun c hc m' hdec => ?_)
    have hlen := hdec.1
    simp [shares] at hlen
  | append_singleton msgs x ih =>
    have hids' : OwnIds msgs := fun q sender value hmem => hids q sender value (List.mem_append_left _ hmem)
    obtain ⟨q, msg⟩ := x
    rw [deliver_concat]
    cases msg with
    | addVal sender value =>
      rw [shares_concat_addVal] at hnd hwidth ⊢
      exact (ih hids' hnd hwidth).addVal q sender value
    | reconst sender value =>
      obtain rfl := hids q sender value (by simp)
      rw [shares_concat_reconst] at hnd hwidth ⊢
      have hnd' : ((shares msgs).map Prod.fst).Nodup := by
        rw [List.map_append] at hnd
        exact (List.nodup_append.1 hnd).1
      exact (ih hids' hnd' (fun x hx => hwidth x (List.mem_append_left _ hx))).share hz hl h1 hN hf hnd hL hwidth

/-- **With more than `4 f + 1` parties the first attempt has too few shares** and raises. -/
theorem deliver_raises (m : Text) (pid : Fin N) (hN : 4 * f + 2 ≤ N) (hs : At H [] s) (hids : OwnIds msgs)
    (hnd : ((shares msgs).map Prod.fst).Nodup) :
    (∃ e, (deliver H z f m pid s msgs).phase = .raised e) ∨
      (At H (shares msgs) (deliver H z f m pid s msgs) ∧ (shares msgs).length ≤ 2 * f) := by
  induction msgs using List.reverseRecOn with
  | nil => exact Or.inr ⟨hs, Nat.zero_le _⟩
  | append_singleton msgs x ih =>
    have hids' : OwnIds msgs := fun q sender value hmem => hids q sender value (List.mem_append_left _ hmem)
    obtain ⟨q, msg⟩ := x
    rw [deliver_concat]
    cases msg with
    | addVal sender value =>
      rw [shares_concat_addVal] at hnd ⊢
      rcases ih hids' hnd with ⟨e, he⟩ | ⟨hat, hle⟩
      · left
        rw [takeMsg_of_ne (by rw [he]; simp)]
        exact ⟨e, he⟩
      · right
        rw [takeMsg_of_loop hat.phase]
        exact ⟨hat.addVal q sender value, hle⟩
    | reconst sender value =>
      obtain rfl := hids q sender value (by simp)
      rw [shares_concat_reconst] at hnd ⊢
      have hnd' := hnd
      rw [List.map_append, List.nodup_append] at hnd'
      have hq : q ∉ (shares msgs).map Prod.fst := fun hmem => hnd'.2.2 _ hmem _ (List.mem_singleton_self _) rfl
      rcases ih hids' hnd'.1 with ⟨e, he⟩ | ⟨hat, hle⟩
      · left
        rw [takeMsg_of_ne (by rw [he]; simp)]
        exact ⟨e, he⟩
      · rw [takeMsg_of_loop hat.phase]
        simp only [onMsg]
        rw [hat.onReconst hq]
        have hadd := hat.addShare q value
        by_cases hc : 2 * f + 1 ≤ (shares msgs).length + 1
        · left
          rw [if_pos hc]
          obtain ⟨e, he⟩ := decode_place_few (z := z) (K := N - 2 * f) (by omega) hnd (by simp; omega)
          refine ⟨e, ?_⟩
          show (reconstruct H z f _).1 = _
          unfold reconstruct
          rw [hadd.slots, he]
        · right
          rw [if_neg hc]
          exact ⟨⟨hadd, hat.phase⟩, by simp; omega⟩

theorem exists_width (hl : z.SameLength (N - 2 * f) N) (hz : z.IsMds (N - 2 * f) N)
    (hS : encode z (N - 2 * f) N m = .ok stripes) : ∃ L, 1 ≤ L ∧ ∀ i : Fin N, (stripeOf z f m i).length = L := by
  obtain ⟨⟨h1, h2, h3⟩, hcoded⟩ := (encode_eq_ok _ _ _ _ _).1 hS
  refine ⟨(pad (N - 2 * f) m.encode).length / (N - 2 * f), ?_, fun i => ?_⟩
  · obtain ⟨t, ht, hlen, -⟩ := flatten_blocks_pad (N - 2 * f) h1 (by omega) m.encode
    by_contra hzero
    rw [flatten_blocks, Nat.lt_one_iff.1 (Nat.not_le.1 hzero), Nat.mul_zero, List.take_zero] at ht
    have hlt := Nat.mod_lt m.encode.length h1
    have : t = [] := (List.append_eq_nil_iff.1 ht.symm).2
    subst this
    simp at hlen
    omega
  · have hi : (i : Nat) < stripes.length := by rw [encode_length hz hS]; exact i.isLt
    rw [stripeOf, hS]
    simp only [List.getD_eq_getElem?_getD, List.getElem?_eq_getElem hi, Option.getD_some]
    exact hl _ _ _ (blocks_length _ _) (length_of_mem_blocks _ _) hcoded _ (List.getElem_mem hi)

end Deliver

end Dissem

open Dissem

/-- **When the shares of distinct parties give the common input back**, in whatever order they come, be it all `N` or
fewer, and however many of them are wrong: there are at most `4 f + 1` parties, and the first attempt whose `K` lowest
numbered shares read a message with which `2 f + 1` shares agree reads the input. -/
theorem add_returns_iff (H : Hash) {z : Zfec} {N f : Nat} {m : Text} (pid : Fin N) (hz : z.IsMds (N - 2 * f) N)
    (hl : z.SameLength (N - 2 * f) N) {stripes : List Bytes} (hS : encode z (N - 2 * f) N m = .ok stripes)
    {msgs : List (Fin N × AddMsg)} (hids : OwnIds msgs) (hnd : ((shares msgs).map Prod.fst).Nodup)
    (hwidth : ∀ x ∈ shares msgs, x.2.length = (stripeOf z f m x.1).length) :
    (deliver H z f m pid (start z f m pid Dissem.init).1 msgs).phase = .returned m.encode ↔
      N ≤ 4 * f + 1 ∧ Settles H z f (shares msgs) m.encode := by
  obtain ⟨⟨h1, h2, h3⟩, -⟩ := (encode_eq_ok _ _ _ _ _).1 hS
  have hs : At H [] (start z f m pid (Dissem.init (N := N))).1 := At.init m pid hS
  by_cases hf : N ≤ 4 * f + 1
  · obtain ⟨L, hL, hstripe⟩ := exists_width hl hz hS
    have hout := deliver_outcome m pid hz hl h1 h3 (by omega) hs hids hnd hL
      (fun x hx => (hwidth x hx).trans (hstripe x.1))
    constructor
    · intro hret
      refine ⟨hf, ?_⟩
      cases hout with
      | waits hat hnone           => rw [hat.phase] at hret; cases hret
      | failed hphase hfull hnone => rw [hphase] at hret; cases hret
      | returned m' hphase hset   =>
        rw [hphase, AddPhase.returned.injEq] at hret
        exact hret ▸ hset
    · rintro ⟨-, hset⟩
      have hc := hset
      obtain ⟨c, hc, hdec, -⟩ := hc
      cases hout with
      | waits hat hnone           => exact absurd hdec (hnone c hc _)
      | failed hphase hfull hnone => exact absurd hdec (hnone c hc _)
      | returned m' hphase hset'  => rw [hphase, hset'.unique hz h1 h3 (by omega) hnd hset]
  · constructor
    · intro hret
      rcases deliver_raises m pid (f := f) (by omega) hs hids hnd with ⟨e, he⟩ | ⟨hat, hle⟩
      · rw [he] at hret
        cases hret
      · rw [hat.phase] at hret
        cases hret
    · rintro ⟨hle, -⟩
      exact absurd hle hf

/-- The four parties' shares of the empty message, in order. -/
theorem add_returns_iff_four : (deliver sha256 reedSolomonEq 1 (.bytes []) (3 : Fin 4) (start reedSolomonEq 1 (.bytes []) 3
    Dissem.init).1 [(0, .reconst (.int 0) [0]), (1, .reconst (.int 1) [0]), (2, .reconst (.int 2) [0]),
      (3, .reconst (.int 3) [0])]).phase = .returned [] := by
  have hS : encode reedSolomonEq 2 4 (.bytes []) = .ok [[0], [0], [0], [0]] := by decide
  have hstripe : ∀ i : Fin 4, stripeOf reedSolomonEq 1 (.bytes []) i = [0] := by decide
  refine (add_returns_iff sha256 3 (reedSolomonEq_isMds (by decide) (by decide) (by decide))
    (reedSolomonEq_sameLength (by decide) (by decide)) hS ?_ (by decide) ?_).2 ⟨by decide, 3, by decide, ?_, ?_⟩
  · intro q sender value hmem
    simp only [List.mem_cons, Prod.mk.injEq, AddMsg.reconst.injEq, List.not_mem_nil, or_false] at hmem
    obtain ⟨rfl, rfl, rfl⟩ | ⟨rfl, rfl, rfl⟩ | ⟨rfl, rfl, rfl⟩ | ⟨rfl, rfl, rfl⟩ := hmem <;> rfl
  · intro x hx
    rw [hstripe]
    revert x
    decide
  · refine ⟨by decide, ⟨1, [[0], [0]], [[0], [0], [0], [0]], ⟨rfl, by decide, by decide⟩, by decide, by decide⟩, ?_⟩
    exact ⟨[[0], [0], [0], [0]], hS, by simp [shares]⟩
  · intro c' hc' m' hdec
    have hlen := hdec.1
    rw [List.length_take] at hlen
    omega

/-- Party 0's share is wrong and comes first: of the message `[2, 2]` in five stripes `[2]` the party returns `[5, 2]`. -/
theorem add_returns_counterexample : ¬ ∀ msgs : List (Fin 5 × AddMsg), OwnIds msgs →
    ((shares msgs).map Prod.fst).Nodup → (shares msgs).length = 5 →
    (∀ x ∈ shares msgs, x.2.length = (stripeOf reedSolomonEq 1 (.bytes [2, 2]) x.1).length) →
    (shares msgs).countP (fun x => decide (x.2 ≠ stripeOf reedSolomonEq 1 (.bytes [2, 2]) x.1)) ≤ 1 →
    (deliver sha256 reedSolomonEq 1 (.bytes [2, 2]) 4 (start reedSolomonEq 1 (.bytes [2, 2]) 4 Dissem.init).1 msgs).phase =
      .returned [2, 2] := by
  intro h
  have hS : encode reedSolomonEq 3 5 (.bytes [2, 2]) = .ok [[2], [2], [2], [2], [2]] := by decide
  have hstripe : ∀ i : Fin 5, stripeOf reedSolomonEq 1 (.bytes [2, 2]) i = [2] := by decide
  let msgs : List (Fin 5 × AddMsg) := [(0, .reconst (.int 0) [5]), (1, .reconst (.int 1) [2]),
    (2, .reconst (.int 2) [2]), (3, .reconst (.int 3) [2]), (4, .reconst (.int 4) [2])]
  have hids : OwnIds msgs := by
    intro q sender value hmem
    simp only [msgs, List.mem_cons, Prod.mk.injEq, AddMsg.reconst.injEq, List.not_mem_nil, or_false] at hmem
    obtain ⟨rfl, rfl, rfl⟩ | ⟨rfl, rfl, rfl⟩ | ⟨rfl, rfl, rfl⟩ | ⟨rfl, rfl, rfl⟩ | ⟨rfl, rfl, rfl⟩ := hmem <;> rfl
  have hwidth : ∀ x ∈ shares msgs, x.2.length = 1 := by decide
  have hmds : reedSolomonEq.IsMds 3 5 := reedSolomonEq_isMds (by decide) (by decide) (by decide)
  have hret := h msgs hids (by decide) (by decide) (fun x hx => by rw [hstripe, hwidth x hx]; rfl)
    (by simp only [hstripe]; decide)
  -- the first attempt reads `[5, 2]`, with which its three shares agree
  obtain ⟨stripes, hcoded, hlen⟩ := hmds.encode_isSome [[5], [2], [2]] 1 rfl (by decide)
  have hword : IsWord reedSolomon 3 5 1 [[5], [2], [2]] stripes :=
    ⟨rfl, by decide, by rwa [reedSolomonEq, Zfec.onEqual_encode (reedSolomon_const (by decide) (by decide))] at hcoded⟩
  have hget : ∀ j < 3, stripes[j]? = [[5], [2], [2]][j]? := fun j hj =>
    reedSolomon_systematic (by decide) (by decide) hword hj
  have hshare : encode reedSolomonEq 3 5 (.bytes [5, 2]) = .ok stripes :=
    (encode_eq_ok _ _ _ _ _).2 ⟨by decide, hcoded⟩
  have hdec : Decided sha256 reedSolomonEq 1 ((shares msgs).take 3) [5, 2] := by
    refine ⟨by decide, ⟨1, [[5], [2], [2]], stripes, ⟨rfl, by decide, hcoded⟩, ?_, by decide⟩, stripes, hshare, ?_⟩
    · simp [lowest, shares, msgs, hget]
    · simp [shares, msgs, List.getD_eq_getElem?_getD, hget]
  have hset : Settles sha256 reedSolomonEq 1 (shares msgs) [5, 2] := by
    refine ⟨3, by decide, hdec, fun c' hc' m' hdec' => ?_⟩
    have hlen := hdec'.1
    rw [List.length_take] at hlen
    omega
  cases deliver_outcome (.bytes [2, 2]) 4 (f := 1) hmds (reedSolomonEq_sameLength (by decide) (by decide)) (by decide) (by decide)
    (by decide) (At.init (f := 1) (.bytes [2, 2]) 4 hS) hids (by decide) (by decide) hwidth with
  | waits hat hnone           => exact hnone 3 (by decide) _ hdec
  | failed hphase hfull hnone => exact hnone 3 (by decide) _ hdec
  | returned m' hphase hset'  =>
    have hm := hset'.unique hmds (by decide) (by decide) (by decide) (by decide) hset
    rw [hret, AddPhase.returned.injEq, hm] at hphase
    cases hphase

end Dpid
