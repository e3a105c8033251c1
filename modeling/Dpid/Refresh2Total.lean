import Dpid.NetCrash
import Dpid.Quorum
import Dpid.Refresh2Inv
import Mathlib
/-!
# Refresh2Total — `refresh` when parties only stop

Every share is then the interval of its party.  The intervals are disjoint, so the leader counts as many entries as it
has slots filled; with as many as it waits for it decodes the message and sends every party its interval.  When the
intervals of the running parties hold that many entries, every running party returns its own once nothing moves
(`refresh2_total`).
-/
namespace Dpid

/-! ## The intervals -/

theorem startIndex_mono (size N : Nat) {j j' : Nat} (h : j ≤ j') : startIndex size N j ≤ startIndex size N j' :=
  Nat.div_le_div_right (Nat.mul_le_mul_right size h)

/-- **Different parties have disjoint intervals.** -/
theorem eq_of_mem_interval {size N j j' k : Nat} (h : k ∈ interval size N j) (h' : k ∈ interval size N j') : j = j' := by
  have hk := mem_interval.1 h
  have hk' := mem_interval.1 h'
  rcases Nat.lt_trichotomy j j' with hlt | heq | hlt
  · have := startIndex_mono size N (show j + 1 ≤ j' from hlt)
    omega
  · exact heq
  · have := startIndex_mono size N (show j' + 1 ≤ j from hlt)
    omega

theorem nodup_interval (size N j : Nat) : (interval size N j).Nodup := List.nodup_range'

theorem sum_interval (size N : Nat) (hN : 0 < N) : ∑ j : Fin N, (interval size N j).length = size := by
  have hsum : ∀ n, ∑ j ∈ Finset.range n, (interval size N j).length = startIndex size N n := by
    intro n
    induction n with
    | zero => simp [startIndex]
    | succ n ih =>
      have := startIndex_mono size N (show n ≤ n + 1 from Nat.le_succ n)
      rw [Finset.sum_range_succ, ih, interval, List.length_range']
      omega
  rw [Fin.sum_univ_eq_sum_range (fun j => (interval size N j).length) N, hsum, startIndex, Nat.mul_div_cancel_left _ hN]

theorem length_interval_mul_le (size N j : Nat) (hN : 0 < N) :
    (interval size N j).length * N ≤ size + (N - 1) := by
  rw [interval, List.length_range', startIndex, startIndex, Nat.sub_mul, Nat.succ_mul]
  have hle := Nat.div_mul_le_self (j * size + size) N
  have hge := Nat.div_add_mod' (j * size) N
  have hlt := Nat.mod_lt (j * size) hN
  omega

/-- **What is left of the 160 indices**: with at most `f` parties gone, more than the leader waits for. -/
theorem dataThreshold_le_sum {N f : Nat} (hN : 3 * f + 1 ≤ N) (hN' : N ≤ 128) {B : Finset (Fin N)} (hB : B.card ≤ f) :
    dataThreshold 160 ≤ ∑ j ∈ Finset.univ.filter (· ∉ B), (interval 160 N j).length := by
  have hsplit := Finset.sum_filter_add_sum_filter_not Finset.univ (· ∉ B) (fun j : Fin N => (interval 160 N j).length)
  rw [sum_interval 160 N (by omega)] at hsplit
  -- 95 indices at most are gone
  have hgone : (∑ j ∈ Finset.univ.filter (fun j => ¬ j ∉ B), (interval 160 N j).length) * N ≤ 95 * N := by
    have hcard : (Finset.univ.filter (fun j => ¬ j ∉ B)).card ≤ f := by
      refine Nat.le_trans (Finset.card_le_card (fun j hj => ?_)) hB
      simpa using hj
    calc (∑ j ∈ Finset.univ.filter (fun j => ¬ j ∉ B), (interval 160 N j).length) * N
        = ∑ j ∈ Finset.univ.filter (fun j => ¬ j ∉ B), (interval 160 N j).length * N := Finset.sum_mul _ _ _
      _ ≤ (Finset.univ.filter (fun j => ¬ j ∉ B)).card * (160 + (N - 1)) :=
          Finset.sum_le_card_nsmul _ _ _ (fun j _ => length_interval_mul_le 160 N j (by omega))
      _ ≤ f * (159 + N) := Nat.mul_le_mul hcard (by omega)
      _ = 53 * (3 * f) + f * N := by ring
      _ ≤ 53 * N + 42 * N := Nat.add_le_add (Nat.mul_le_mul_left _ (by omega)) (Nat.mul_le_mul_right _ (by omega))
      _ = 95 * N := by ring
  have hle := Nat.le_of_mul_le_mul_right hgone (by omega)
  have hthreshold : dataThreshold 160 = 54 := rfl
  omega

namespace Refresh

variable {E : Curve} {H : Hash} {z : Zfec} {N size : Nat} {leader : Fin N} {m : Text} {S : List Bytes} {com : Int × Int}
  {proofs : List (Int × Int)}

/-- The stripes `S` of `m`, their commitment and their proofs. -/
structure Prepared (E : Curve) (H : Hash) (z : Zfec) (size : Nat) (m : Text) (S : List Bytes) (com : Int × Int)
    (proofs : List (Int × Int)) : Prop where
  lawful : E.Lawful
  mds : z.IsMds (dataThreshold size) size
  stripes : encode z (dataThreshold size) size m = .ok S
  finite : ∃ C, E.xy C = some com
  proofs : (List.range size).mapM (fun (i : Nat) => generateProof E com (sha256ToInt H (S.getD i [])) i) = .ok proofs

namespace Prepared

variable (h : Prepared E H z size m S com proofs)
include h

theorem proof_eq {i : Nat} (hi : i < size) :
    generateProof E com (sha256ToInt H (S.getD i [])) i = .ok (proofs.getD i (0, 0)) := by
  have hall := (mapM_eq_ok _ _ _).1 h.proofs
  have hlen : i < proofs.length := by rw [← hall.length_eq, List.length_range]; exact hi
  have hgen := hall.get (by rw [List.length_range]; exact hi) hlen
  simp only [List.get_eq_getElem, List.getElem_range] at hgen
  rw [hgen, List.getD_eq_getElem?_getD, List.getElem?_eq_getElem hlen]
  rfl

/-- **Every entry of an interval is accepted and genuine.** -/
theorem mem_targetData {j : Fin N} {v : Entry} (hv : v ∈ targetData size N S proofs j) :
    (Accepted E H com v ∧ Genuine S v) ∧ ∃ k ∈ interval size N j, v.index = (k : Nat) := by
  obtain ⟨k, hk, rfl⟩ := List.mem_map.1 hv
  have hlt := lt_of_mem_interval hk
  obtain ⟨C, hC⟩ := h.finite
  have hlen : k < S.length := by rw [encode_length h.mds h.stripes]; exact hlt
  refine ⟨⟨verify_of_generateProof h.lawful hC (h.proof_eq hlt), k, pyIndex_natCast hlen, ?_⟩, k, hk, rfl⟩
  rw [List.getElem?_eq_getElem hlen, List.getD_eq_getElem?_getD, List.getElem?_eq_getElem hlen]
  rfl

theorem ownShare_eq (j : Fin N) : RbcVc.ownShare E H com S size N j = .ok (targetData size N S proofs j) := by
  rw [RbcVc.ownShare, mapM_eq_ok, targetData]
  refine List.forall₂_map_right_iff.2 (List.forall₂_same.2 (fun i hi => ?_))
  rw [h.proof_eq (lt_of_mem_interval hi)]
  rfl

theorem distribute_eq : distribute E H z size com m.encode =
    .ok ((List.finRange N).map (fun j => (j, .final (targetData size N S proofs j)))) := by
  rw [distribute, encode_bytes, h.stripes]
  simp only [bind, Except.bind, h.proofs]
  rfl

end Prepared

theorem targetData_index (S : List Bytes) (proofs : List (Int × Int)) (j : Nat) :
    (targetData size N S proofs j).map Entry.index = (interval size N j).map (fun (i : Nat) => (i : Int)) := by
  rw [targetData, List.map_map]
  rfl

theorem storeAll_of_ne {k : Nat} : ∀ (val : List Entry) (values : List (Option Bytes)), (∀ v ∈ val, v.index.toNat ≠ k) →
    (storeAll val values)[k]? = values[k]?
  | [], values, _          => rfl
  | v :: rest, values, hne => by
    have hrest := storeAll_of_ne rest (values.set v.index.toNat (some v.data)) (fun w hw =>
      hne w (List.mem_cons_of_mem _ hw))
    rw [List.getElem?_set_ne (hne v List.mem_cons_self)] at hrest
    exact hrest

/-! ## The leader's slots -/

/-- The parties whose shares were counted. -/
def counted (s : RefreshState N) : Finset (Fin N) := Finset.univ.filter (fun j => PyId.int (j : Nat) ∈ s.prevSenders)

/-- The slots filled are the intervals of the parties counted. -/
structure Collected (S : List Bytes) (size : Nat) (s : RefreshState N) : Prop where
  slots : SlotsGenuine S s.values
  counter : s.counter = s.values.countP Option.isSome
  empty : ∀ j ∉ counted s, ∀ k ∈ interval size N j, s.values[k]? = some none
  sum : s.counter = ∑ j ∈ counted s, (interval size N j).length

theorem init_collected (hlen : S.length = size) : Collected S size (init size : RefreshState N) where
  slots   := by
    refine ⟨by simp [init, hlen], fun k b hk => ?_⟩
    simp only [init, List.getElem?_replicate] at hk
    split at hk <;> simp at hk
  counter := by simp [init, List.countP_replicate]
  empty   := fun j _ k hk => by
    simp only [init, List.getElem?_replicate]
    rw [if_pos (lt_of_mem_interval hk)]
  sum     := by simp [init, counted]

/-- **A share not counted before fills its interval.** -/
theorem Collected.store (h : Prepared E H z size m S com proofs) {s : RefreshState N} (hs : Collected S size s)
    {j : Fin N} (hnew : PyId.int (j : Nat) ∉ s.prevSenders) : ∃ values,
    storeVal E H com (targetData size N S proofs j) s.counter s.values =
      .ok (s.counter + (interval size N j).length, values) ∧
    Collected S size { s with
      prevSenders := insert (.int (j : Nat)) s.prevSenders
      counter := s.counter + (interval size N j).length
      values := values } := by
  have hlength : (targetData size N S proofs j).length = (interval size N j).length := by rw [targetData, List.length_map]
  have hvalues : s.values.length = size := hs.slots.1.trans (encode_length h.mds h.stripes)
  have hnot : j ∉ counted s := fun hj => hnew (Finset.mem_filter.1 hj).2
  have hentry : ∀ v ∈ targetData size N S proofs j, Accepted E H com v ∧ 0 ≤ v.index ∧ v.index < s.values.length := by
    intro v hv
    obtain ⟨⟨hacc, -⟩, k, hk, hi⟩ := h.mem_targetData hv
    have := lt_of_mem_interval hk
    exact ⟨hacc, by omega, by omega⟩
  have hstore := storeVal_accepted _ s.counter _ hentry
  rw [hlength] at hstore
  refine ⟨_, hstore, storeVal_genuine _ _ _ (fun v hv _ => (h.mem_targetData hv).1.2) hs.slots hstore, ?_,
    fun j' hj' k hk => ?_, ?_⟩
  · have hcount := storeAll_count (targetData size N S proofs j) s.values ?_ (fun v hv => ?_)
    · rw [hlength] at hcount
      exact hcount ▸ hs.counter ▸ rfl
    · rw [targetData_index]
      exact (nodup_interval size N j).map (fun a b hab => Int.ofNat_inj.1 hab)
    · obtain ⟨-, k, hk, hi⟩ := h.mem_targetData hv
      exact ⟨by omega, by rw [hi]; exact hs.empty j hnot k hk⟩
  · have hne : j' ≠ j := fun he => hj' (Finset.mem_filter.2 ⟨Finset.mem_univ _, he ▸ Finset.mem_insert_self _ _⟩)
    have hold : j' ∉ counted s := fun hm => hj' (Finset.mem_filter.2 ⟨Finset.mem_univ _,
      Finset.mem_insert_of_mem (Finset.mem_filter.1 hm).2⟩)
    show (storeAll _ s.values)[k]? = some none
    rw [storeAll_of_ne _ _ (fun v hv hvk => ?_)]
    · exact hs.empty j' hold k hk
    · obtain ⟨-, k', hk', hi⟩ := h.mem_targetData hv
      have hkk : k' = k := by omega
      exact hne (Fin.ext (eq_of_mem_interval hk (hkk ▸ hk')))
  · have hinsert : counted { s with
        prevSenders := insert (.int (j : Nat)) s.prevSenders
        counter := s.counter + (interval size N j).length
        values := storeAll (targetData size N S proofs j) s.values } = insert j (counted s) := by
      ext j'
      simp only [counted, Finset.mem_filter, Finset.mem_univ, true_and, Finset.mem_insert, PyId.int.injEq, Int.ofNat_inj,
        Fin.ext_iff]
    rw [hinsert, Finset.sum_insert hnot, ← hs.sum]
    exact Nat.add_comm _ _

/-! ## The invariant -/

/-- The code between the loops is past, or there was none. -/
def Distributed (s : RefreshState N) : Prop := s.phase ≠ .start ∧ s.phase ≠ .waiting ∧ s.phase ≠ .collecting

/-- A message as the parties of a crash run send it. -/
def CrashMsg (size : Nat) (S : List Bytes) (proofs : List (Int × Int)) (leader : Fin N) (loc : Fin N → RefreshState N)
    (e : Net.Envelope (Fin N) RefreshMsg) : Prop :=
  e.msg = .val (.int (e.src : Nat)) (targetData size N S proofs e.src) ∨
    (e.msg = .final (targetData size N S proofs e.dst) ∧ Distributed (loc leader))

/-- What a party keeps of a message it has taken. -/
def Taken (s : RefreshState N) (e : Net.Envelope (Fin N) RefreshMsg) : Prop :=
  match e.msg with
  | .val _ _    => ¬ Distributed s → e.src ∈ counted s
  | .final _    => ∃ target channel, s.phase = .returned target channel
  | .complain _ => True

/-- The invariant of a party. -/
structure CrashOk (size : Nat) (S : List Bytes) (com : Int × Int) (proofs : List (Int × Int)) (leader : Fin N)
    (hist : List (Net.Envelope (Fin N) RefreshMsg)) (p : Fin N) (s : RefreshState N) : Prop where
  not_raised : ∀ e, s.phase ≠ .raised e
  phase : PhaseOk leader (fun _ => com) p s
  collected : Collected S size s
  few : ¬ Distributed s → s.counter < dataThreshold size
  returned : ∀ target channel, s.phase = .returned target channel → target = targetData size N S proofs p
  taken : ∀ e ∈ hist, e.dst = p → Taken s e

/-- What `p` in state `s` has sent. -/
def Sent (size : Nat) (S : List Bytes) (proofs : List (Int × Int)) (leader p : Fin N) (s : RefreshState N) (q : Fin N)
    (msg : RefreshMsg) : Prop :=
  (s.phase ≠ .start ∧ q = leader ∧ msg = .val (.int (p : Nat)) (targetData size N S proofs p)) ∨
    (p = leader ∧ Distributed s ∧ msg = .final (targetData size N S proofs q))

theorem taken_cons {hist : List (Net.Envelope (Fin N) RefreshMsg)} {p : Fin N} {s s' : RefreshState N}
    {e : Net.Envelope (Fin N) RefreshMsg} (h : ∀ x ∈ hist, x.dst = p → Taken s x)
    (hmono : ∀ x ∈ hist, x.dst = p → Taken s x → Taken s' x) (he : Taken s' e) : ∀ x ∈ e :: hist, x.dst = p → Taken s' x := by
  intro x hx hdst
  rcases List.mem_cons.1 hx with rfl | hx
  · exact he
  · exact hmono x hx hdst (h x hx hdst)

/-- What one message does: the lists go out to all when the leader is through, and nothing else goes out. -/
structure StepOk (size : Nat) (S : List Bytes) (com : Int × Int) (proofs : List (Int × Int)) (leader : Fin N)
    (hist : List (Net.Envelope (Fin N) RefreshMsg)) (e : Net.Envelope (Fin N) RefreshMsg) (s : RefreshState N)
    (r : RefreshState N × List (Fin N × RefreshMsg)) : Prop where
  crash : CrashOk size S com proofs leader (e :: hist) e.dst r.1
  not_start : r.1.phase ≠ .start
  final : Distributed r.1 → Distributed s ∨ ∀ q, (q, .final (targetData size N S proofs q)) ∈ r.2
  sends : ∀ o ∈ r.2, o.2 = .final (targetData size N S proofs o.1) ∧ e.dst = leader ∧ Distributed r.1

section Step

variable {hist : List (Net.Envelope (Fin N) RefreshMsg)} {e : Net.Envelope (Fin N) RefreshMsg} {s : RefreshState N}

theorem StepOk.ignored (hs : CrashOk size S com proofs leader hist e.dst s) (hp : s.phase ≠ .start) (ht : Taken s e) :
    StepOk size S com proofs leader hist e s (s, []) where
  crash     := { hs with taken := taken_cons hs.taken (fun _ _ _ => id) ht }
  not_start := hp
  final     := Or.inl
  sends     := fun _ ho => absurd ho List.not_mem_nil

/-- **One share taken by the leader.** -/
theorem onVal_crash (h : Prepared E H z size m S com proofs) (hs : CrashOk size S com proofs leader hist e.dst s)
    (hp : s.phase = .collecting) (hm : e.msg = .val (.int (e.src : Nat)) (targetData size N S proofs e.src)) :
    StepOk size S com proofs leader hist e s
      (onVal E H z size (.int (e.src : Nat)) (targetData size N S proofs e.src) s) := by
  have hbound := ((encode_eq_ok _ _ _ _ _).1 h.stripes).1
  have hK : dataThreshold size ≤ 128 := by unfold dataThreshold; omega
  have hcom := hs.phase.2 (Or.inl hp)
  have hval : ∀ t : RefreshState N, (¬ Distributed t → e.src ∈ counted t) → Taken t e := fun t ht => by
    unfold Taken
    rw [hm]
    exact ht
  rw [onVal]
  split
  · rename_i hold
    exact StepOk.ignored hs (by simp [hp]) (hval s (fun _ => Finset.mem_filter.2 ⟨Finset.mem_univ _, hold⟩))
  · rename_i hnew
    obtain ⟨values, hstore, hcol⟩ := hs.collected.store h hnew
    simp only [hcom, hstore]
    -- no list was taken yet
    have hnotFinal : ∀ x ∈ hist, x.dst = e.dst → ∀ target, x.msg ≠ .final target := by
      intro x hx hdst target hmsg
      have ht := hs.taken x hx hdst
      unfold Taken at ht
      rw [hmsg] at ht
      obtain ⟨target', channel, hret⟩ := ht
      rw [hp] at hret
      cases hret
    unfold finish
    simp only
    split
    · rename_i hcount
      have hdec := decode_genuine h.mds h.stripes hK hcol.slots (hcol.counter ▸ hcount)
      simp only [hdec, h.distribute_eq]
      have hdist : ∀ t : RefreshState N, t.phase = .final → Distributed t := fun t ht => by
        unfold Distributed
        rw [ht]
        exact ⟨by simp, by simp, by simp⟩
      refine ⟨⟨by simp, ⟨by simp, fun _ => rfl⟩, ⟨hcol.slots, hcol.counter, hcol.empty, hcol.sum⟩,
        fun hno => absurd (hdist _ rfl) hno, by simp, taken_cons hs.taken (fun x hx hdst ht => ?_)
          (hval _ (fun hno => absurd (hdist _ rfl) hno))⟩, by simp,
        fun _ => Or.inr (fun q => List.mem_map.2 ⟨q, List.mem_finRange q, rfl⟩), fun o ho => ?_⟩
      · unfold Taken
        split
        · exact fun hno => absurd (hdist _ rfl) hno
        · rename_i target hmsg
          exact absurd hmsg (hnotFinal x hx hdst target)
        · trivial
      · obtain ⟨j, -, rfl⟩ := List.mem_map.1 ho
        exact ⟨rfl, hs.phase.1 hp, hdist _ rfl⟩
    · rename_i hfew
      have hmem : ∀ j ∈ counted s, PyId.int (j : Nat) ∈ insert (PyId.int (e.src : Nat)) s.prevSenders := fun j hj =>
        Finset.mem_insert_of_mem (Finset.mem_filter.1 hj).2
      refine ⟨⟨hs.not_raised, ⟨hs.phase.1, fun _ => rfl⟩, ⟨hcol.slots, hcol.counter, hcol.empty, hcol.sum⟩,
        fun _ => Nat.lt_of_not_le hfew, hs.returned, taken_cons hs.taken (fun x hx hdst ht => ?_) (hval _ (fun _ =>
          Finset.mem_filter.2 ⟨Finset.mem_univ _, Finset.mem_insert_self _ _⟩))⟩, ?_, fun hd => ?_,
        fun o ho => absurd ho List.not_mem_nil⟩
      · unfold Taken at ht ⊢
        split
        · rename_i hmsg
          rw [hmsg] at ht
          exact fun _ => Finset.mem_filter.2 ⟨Finset.mem_univ _, hmem _ (ht (fun hd => hd.2.2 hp))⟩
        · rename_i target hmsg
          exact absurd hmsg (hnotFinal x hx hdst target)
        · trivial
      · show s.phase ≠ .start
        simp [hp]
      · exact absurd hp hd.2.2

/-- **One list taken in the last loop.** -/
theorem onFinal_crash (h : Prepared E H z size m S com proofs) (hs : CrashOk size S com proofs leader hist e.dst s)
    (hp : s.phase = .final) :
    StepOk size S com proofs leader hist e s (onFinal E H e.src (targetData size N S proofs e.dst) s) := by
  have hvalid : allValid E H s.commitment (targetData size N S proofs e.dst) = .ok true := by
    rw [hs.phase.2 (Or.inr hp), allValid_eq_true]
    exact fun v hv => (h.mem_targetData hv).1.1
  rw [onFinal, hvalid]
  simp only [if_true]
  have hdist : ∀ t : RefreshState N, t.phase = .returned (targetData size N S proofs e.dst) e.src → Distributed t :=
    fun t ht => by
      unfold Distributed
      rw [ht]
      exact ⟨by simp, by simp, by simp⟩
  have htaken : ∀ x : Net.Envelope (Fin N) RefreshMsg,
      Taken { s with phase := .returned (targetData size N S proofs e.dst) e.src } x := by
    intro x
    unfold Taken
    split
    · exact fun hno => absurd (hdist _ rfl) hno
    · exact ⟨_, _, rfl⟩
    · trivial
  refine ⟨⟨by simp, ⟨by simp, by simp⟩, ⟨hs.collected.slots, hs.collected.counter, hs.collected.empty, hs.collected.sum⟩,
    fun hno => absurd (hdist _ rfl) hno, fun target channel hret => ?_, fun x _ _ => htaken x⟩, by simp, fun _ => Or.inl ?_,
    fun o ho => absurd ho List.not_mem_nil⟩
  · cases hret
    rfl
  · unfold Distributed
    rw [hp]
    exact ⟨by simp, by simp, by simp⟩

/-- **One genuine message.** -/
theorem onMsg_crash (h : Prepared E H z size m S com proofs) (hs : CrashOk size S com proofs leader hist e.dst s)
    (hm : e.msg = .val (.int (e.src : Nat)) (targetData size N S proofs e.src) ∨
      (e.msg = .final (targetData size N S proofs e.dst) ∧ (s.phase = .collecting → False)))
    {r : RefreshState N × List (Fin N × RefreshMsg)} (hr : onMsg E H z size s e.src e.msg = some r) :
    StepOk size S com proofs leader hist e s r := by
  unfold onMsg at hr
  rcases hm with hm | ⟨hm, hnot⟩
  · rw [hm] at hr
    cases hp : s.phase with
    | collecting =>
      rw [hp] at hr
      cases hr
      exact onVal_crash h hs hp hm
    | final =>
      rw [hp] at hr
      cases hr
      refine StepOk.ignored hs (by rw [hp]; nofun) ?_
      unfold Taken Distributed
      rw [hm, hp]
      exact fun hno => absurd ⟨nofun, nofun, nofun⟩ hno
    | start => rw [hp] at hr; cases hr
    | waiting => rw [hp] at hr; cases hr
    | returned _ _ => rw [hp] at hr; cases hr
    | raised _ => rw [hp] at hr; cases hr
  · rw [hm] at hr
    cases hp : s.phase with
    | collecting => exact absurd hp hnot
    | final =>
      rw [hp] at hr
      cases hr
      exact onFinal_crash h hs hp
    | start => rw [hp] at hr; cases hr
    | waiting => rw [hp] at hr; cases hr
    | returned _ _ => rw [hp] at hr; cases hr
    | raised _ => rw [hp] at hr; cases hr

end Step

/-! ## Runs -/

theorem onMsg_distributed {s s' : RefreshState N} {sender : Fin N} {msg : RefreshMsg} {out : List (Fin N × RefreshMsg)}
    (h : onMsg E H z size s sender msg = some (s', out)) (hd : Distributed s) : Distributed s' := by
  unfold onMsg at h
  split at h
  · rename_i hcol
    exact absurd hcol hd.2.2
  · cases h; exact hd
  · rename_i target _
    have h : onFinal E H sender target s = (s', out) := Option.some.inj h
    rw [onFinal] at h
    split at h <;> (cases h; exact ⟨by simp, by simp, by simp⟩)
  · cases h; exact hd
  · cases h

section Runs

variable (h : Prepared E H z size m S com proofs) (hpos : 0 < dataThreshold size)
include h hpos

/-- **The invariant of `refresh` when parties only stop.** -/
theorem refresh2_crash (leader : Fin N) : Net.Preserved
    (refresh2 E H z size leader (fun p => targetData size N S proofs p) (fun _ => com)) ∅ (fun _ _ => True)
    (fun s s' => Distributed s → Distributed s') (fun loc hist p => CrashOk size S com proofs leader hist p (loc p))
    (fun loc e => CrashMsg size S proofs leader loc e) where
  grow_refl := fun _ => id
  grow_wake := by
    intro p t s s' out hw hd
    rcases refresh2_wake hw with ⟨hph, -⟩ | ⟨hph, -⟩
    · exact absurd hph hd.1
    · exact absurd hph hd.2.1
  grow_recv := fun p s q msg s' out hr hd => onMsg_distributed hr hd
  local_mono := by
    intro loc loc' hist hist' p _ _ hh hp hok
    rw [hp]
    exact { hok with taken := fun e he hdst => hok.taken e (hh e he hdst) hdst }
  msg_mono := fun loc loc' e hg hm => hm.imp_right (And.imp_right (hg leader))
  init := fun p _ => ⟨by simp [refresh2, init], init_ok p, init_collected (encode_length h.mds h.stripes), fun _ => hpos,
    by simp [refresh2, init], by simp⟩
  wake := by
    intro c p t s out loc' _ hp hL hw hloc _
    have hok := hL p hp
    rw [hloc, Function.update_self]
    have hnone : ∀ s' : RefreshState N, counted s' = counted (c.loc p) → ¬ Distributed (c.loc p) →
        (∀ target channel, (c.loc p).phase ≠ .returned target channel) → ∀ x ∈ c.hist, x.dst = p → Taken s' x := by
      intro s' hcount hno hret x hx hdst
      have ht := hok.taken x hx hdst
      unfold Taken at ht ⊢
      split at ht
      · exact fun _ => hcount ▸ ht hno
      · obtain ⟨target, channel, hr⟩ := ht
        exact absurd hr (hret target channel)
      · trivial
    rcases refresh2_wake hw with ⟨hph, rfl, rfl⟩ | ⟨hph, rfl, rfl⟩
    · have hno : ¬ Distributed (c.loc p) := fun hd => hd.1 hph
      have hsent : (sendShare leader p (targetData size N S proofs p) (c.loc p)).1.phase = .waiting := rfl
      refine ⟨⟨by simp [hsent], ⟨by simp [hsent], by simp [hsent]⟩, ⟨hok.collected.slots, hok.collected.counter,
        hok.collected.empty, hok.collected.sum⟩, fun _ => hok.few hno, by simp [hsent], hnone _ rfl hno (by simp [hph])⟩, fun o ho => ?_⟩
      obtain rfl := List.mem_singleton.1 ho
      exact Or.inl rfl
    · have hno : ¬ Distributed (c.loc p) := fun hd => hd.2.1 hph
      refine ⟨⟨fun e hr => ?_, ⟨fun hcol => ?_, fun _ => rfl⟩, ⟨hok.collected.slots, hok.collected.counter,
        hok.collected.empty, hok.collected.sum⟩, fun _ => hok.few hno, fun target channel hr => ?_,
        hnone _ rfl hno (by simp [hph])⟩, fun o ho => absurd ho List.not_mem_nil⟩
      · simp only [takeCommitment] at hr
        split at hr <;> cases hr
      · by_contra hpl
        simp [takeCommitment, hpl] at hcol
      · simp only [takeCommitment] at hr
        split at hr <;> cases hr
  recv := by
    intro c e s out loc' _ hp hL hW hr hloc _
    have hstep := onMsg_crash h (hL e.dst hp) (r := (s, out)) ?_ hr
    · rw [hloc, Function.update_self]
      refine ⟨hstep.crash, fun o ho => Or.inr ⟨(hstep.sends o ho).1, ?_⟩⟩
      rw [← (hstep.sends o ho).2.1, Function.update_self]
      exact (hstep.sends o ho).2.2
    · refine (hW (Finset.notMem_empty _)).imp_right (And.imp_right (fun hd hcol => ?_))
      exact hd.2.2 ((hL e.dst hp).phase.1 hcol ▸ hcol)

theorem refresh2_delivers (leader : Fin N) (faulty : Finset (Fin N)) : Net.Delivers
    (refresh2 E H z size leader (fun p => targetData size N S proofs p) (fun _ => com)) faulty
    (Sent size S proofs leader) where
  init := fun p q msg hs => by
    rcases hs with ⟨hs, -⟩ | ⟨-, hs, -⟩
    · exact hs rfl
    · exact hs.1 rfl
  wake := by
    intro c p t s out q msg _ hw hs
    rcases refresh2_wake hw with ⟨-, rfl, rfl⟩ | ⟨hph, rfl, rfl⟩
    · rcases hs with ⟨-, rfl, rfl⟩ | ⟨-, hd, -⟩
      · exact Or.inr List.mem_cons_self
      · exact absurd rfl hd.2.1
    · rcases hs with ⟨-, rfl, rfl⟩ | ⟨rfl, hd, -⟩
      · exact Or.inl (Or.inl ⟨by simp [hph], rfl, rfl⟩)
      · exact absurd (by simp [takeCommitment]) hd.2.2
  recv := by
    intro c e s out q msg hc he hr hs
    have hinv := (refresh2_crash h hpos leader).crashRun hc
    have hok : CrashOk size S com proofs leader c.hist e.dst (c.loc e.dst) := hinv.loc e.dst (Finset.notMem_empty _)
    have hmsg := (hinv.net e he (Finset.notMem_empty _)).imp_right (And.imp_right (fun hd =>
      fun hcol : (c.loc e.dst).phase = RefreshPhase.collecting => hd.2.2 (hok.phase.1 hcol ▸ hcol)))
    have hstep := onMsg_crash h hok hmsg (r := (s, out)) hr
    rcases hs with ⟨-, rfl, rfl⟩ | ⟨hl, hd, rfl⟩
    · refine Or.inl (Or.inl ⟨fun hst => ?_, rfl, rfl⟩)
      change onMsg E H z size (c.loc e.dst) e.src e.msg = some (s, out) at hr
      unfold onMsg at hr
      rw [hst] at hr
      cases hr
    · exact (hstep.final hd).imp (fun hd' => Or.inr ⟨hl, hd', rfl⟩) (fun hall => hall q)

end Runs

/-! ## The budget -/

/-- What a party may still send, and its steps before the loops. -/
def fuel (s : RefreshState N) : Nat :=
  match s.phase with
  | .start        => 2 * N + 3
  | .waiting      => 2 * N + 1
  | .collecting   => 2 * N
  | .final        => N
  | .returned _ _ => 0
  | .raised _     => 0

theorem distribute_length {m : Bytes} {out : List (Fin N × RefreshMsg)} (h : distribute E H z size com m = .ok out) :
    out.length = N := by
  unfold distribute at h
  cases hS : encode z (dataThreshold size) size (.bytes m) with
  | error e => simp [hS, bind, Except.bind] at h
  | ok stripes =>
    cases hp : (List.range size).mapM (fun (i : Nat) => generateProof E com (sha256ToInt H (stripes.getD i [])) i) with
    | error e =>
      simp only [hS, hp, bind, Except.bind] at h
      cases h
    | ok proofs =>
      simp only [hS, hp, bind, Except.bind] at h
      cases h
      rw [List.length_map, List.length_finRange]

theorem onVal_fuel (id : PyId) (val : List Entry) {s : RefreshState N} (hp : s.phase = .collecting) :
    fuel (onVal E H z size id val s).1 + (onVal E H z size id val s).2.length ≤ fuel s := by
  unfold onVal
  split
  · simp
  · simp only
    split
    · simp [fuel]
    · unfold finish
      simp only
      split
      · split
        · simp [fuel]
        · split
          · simp [fuel]
          · rename_i out hdist
            simp only [fuel, hp, distribute_length hdist]
            omega
      · simp [fuel]

theorem onFinal_fuel (sender : Fin N) (target : List Entry) {s : RefreshState N} (hp : s.phase = .final) :
    fuel (onFinal E H sender target s).1 + (onFinal E H sender target s).2.length ≤ fuel s := by
  unfold onFinal
  split
  · simp [fuel]
  · split <;> simp [fuel, hp]

theorem onMsg_fuel {sender : Fin N} {msg : RefreshMsg} {s s' : RefreshState N} {out : List (Fin N × RefreshMsg)}
    (h : onMsg E H z size s sender msg = some (s', out)) : fuel s' + out.length ≤ fuel s := by
  unfold onMsg at h
  split at h
  · rename_i id val hp
    have hle : fuel (onVal E H z size id val s).1 + (onVal E H z size id val s).2.length ≤ fuel s := onVal_fuel id val hp
    rwa [Option.some.inj h] at hle
  · cases h; simp
  · rename_i target hp
    have hle := onFinal_fuel (E := E) (H := H) sender target hp
    rwa [Option.some.inj h] at hle
  · cases h; simp
  · cases h

theorem refresh2_bounded (E : Curve) (H : Hash) (z : Zfec) (size : Nat) (leader : Fin N) (share : Fin N → List Entry)
    (com : Fin N → Int × Int) : Net.Bounded (refresh2 E H z size leader share com) fuel where
  wake := by
    intro p t s s' out h
    rcases refresh2_wake h with ⟨hp, rfl, rfl⟩ | ⟨hp, rfl, rfl⟩
    · simp [fuel, hp, sendShare]
    · by_cases hpl : p = leader
      · simp [fuel, takeCommitment, hpl, hp]
      · simp [fuel, takeCommitment, hpl, hp]
        omega
  recv := fun _ _ _ _ _ _ h => onMsg_fuel h

end Refresh

open Refresh

/-- **With the leader running every running party returns its interval** once nothing moves, if the intervals of the
running parties hold what the leader waits for. -/
theorem refresh2_total {E : Curve} {H : Hash} {z : Zfec} {N size : Nat} {leader : Fin N} {m : Text} {S : List Bytes}
    {com : Int × Int} {proofs : List (Int × Int)} {faulty : Finset (Fin N)}
    {c : Net.CrashConf (Fin N) (RefreshState N) RefreshMsg} (h : Prepared E H z size m S com proofs)
    (hpos : 0 < dataThreshold size) (hleader : leader ∉ c.stopped)
    (hsum : dataThreshold size ≤ ∑ j ∈ Finset.univ.filter (· ∉ c.stopped), (interval size N j).length)
    (hc : Net.CrashReachable (refresh2 E H z size leader (fun p => targetData size N S proofs p) (fun _ => com)) faulty c)
    (hquiet : Net.Quiescent (refresh2 E H z size leader (fun p => targetData size N S proofs p) (fun _ => com)) c) :
    ∀ p ∉ c.stopped, ∃ channel, (c.loc p).phase = .returned (targetData size N S proofs p) channel := by
  have hok : ∀ p, CrashOk size S com proofs leader c.hist p (c.loc p) := fun p =>
    ((refresh2_crash h hpos leader).crashRun hc).loc p (Finset.notMem_empty p)
  have hdelivers := refresh2_delivers h hpos leader faulty
  have hstart : ∀ p ∉ c.stopped, (c.loc p).phase ≠ .start := by
    intro p hp hph
    have := hquiet.1 p hp .send
    simp [refresh2, hph] at this
  have hwaiting : ∀ p ∉ c.stopped, (c.loc p).phase ≠ .waiting := by
    intro p hp hph
    have := hquiet.1 p hp .commit
    simp [refresh2, hph] at this
  -- the leader has counted every running party's share, and is through
  have hthrough : Distributed (c.loc leader) := by
    refine ⟨hstart leader hleader, hwaiting leader hleader, fun hcol => ?_⟩
    have hno : ¬ Distributed (c.loc leader) := fun hd => hd.2.2 hcol
    have hsub : Finset.univ.filter (· ∉ c.stopped) ⊆ counted (c.loc leader) := by
      intro q hq
      have hq : q ∉ c.stopped := (Finset.mem_filter.1 hq).2
      refine (hok leader).taken _ (hdelivers.delivered hc hquiet hq hleader (Or.inl ⟨hstart q hq, rfl, rfl⟩) ?_) rfl hno
      simp [refresh2, onMsg, hcol]
    have hle : ∑ j ∈ Finset.univ.filter (· ∉ c.stopped), (interval size N j).length ≤ (c.loc leader).counter :=
      (hok leader).collected.sum ▸ Finset.sum_le_sum_of_subset hsub
    have := (hok leader).few hno
    omega
  intro p hp
  cases hph : (c.loc p).phase with
  | start      => exact absurd hph (hstart p hp)
  | waiting    => exact absurd hph (hwaiting p hp)
  | collecting => exact absurd ((hok p).phase.1 hph ▸ hph) hthrough.2.2
  | raised e   => exact absurd hph ((hok p).not_raised e)
  | returned target channel => exact ⟨channel, by rw [(hok p).returned target channel hph]⟩
  | final =>
    have hhist := hdelivers.delivered hc hquiet hleader hp (Or.inr ⟨rfl, hthrough, rfl⟩)
      (by simp [refresh2, onMsg, hph])
    obtain ⟨target, channel, hret⟩ : Taken (c.loc p) _ := (hok p).taken _ hhist rfl
    rw [hph] at hret
    cases hret

end Dpid
