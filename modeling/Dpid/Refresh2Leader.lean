import Dpid.Refresh2Safety
import Dpid.Slots
import Dpid.ZfecTwo
/-!
# Refresh2Leader — the leader's loop of `refresh` on any `VAL` messages (`dpid/core/refresh_2.py`)

The loop ends when `counter` reaches the threshold, and `counter` counts accepted entries, not slots: an index accepted
twice is counted twice.  Nor does the loop check that an index is a place of `values` and of `g_points`, the same one in
both, that `verify` can be computed, or that the data has one length.  When the messages do, the slots hold what was
verified for them and the loop ends with enough of them (`leader_robust`).
-/
namespace Dpid

/-- Any `K` blocks of one length under different numbers are decoded, to `K` blocks of that length. -/
def Zfec.Decodes (z : Zfec) (K N : Nat) : Prop :=
  ∀ blocks nums L, blocks.length = K → (∀ b ∈ blocks, b.length = L) → nums.length = K → nums.Nodup → (∀ i ∈ nums, i < N) →
    ∃ recd, z.decode K N blocks nums = some recd ∧ recd.length = K ∧ ∀ b ∈ recd, b.length = L

/-- **Enough slots of one length decode**, whatever they hold. -/
theorem decode_isOk {z : Zfec} {K N L : Nat} (hz : z.Decodes K N) (h₁ : 1 ≤ K) (hK : K ≤ N) (hN : N ≤ 256) (hL : 1 ≤ L)
    {got : List (Option Bytes)} (hlen : got.length = N) (hcount : K ≤ got.countP Option.isSome)
    (hdata : ∀ (k : Nat) (b : Bytes), got[k]? = some (some b) → b.length = L) : ∃ m, decode z K N got = .ok m := by
  have hcollect : collect K 0 got [] = some ((present 0 got).take K) := by
    rw [collect_eq K got 0 [] h₁, present_length]
    simp [hcount]
  have hmem : ∀ p ∈ (present 0 got).take K, got[p.1]? = some (some p.2) := fun p hp =>
    ((mem_present got 0 p.1 p.2).1 (List.mem_of_mem_take hp)).2
  have htake : ((present 0 got).take K).length = K := by
    rw [List.length_take, present_length]
    omega
  have hnodup : (((present 0 got).take K).map Prod.fst).Nodup := by
    rw [List.map_take]
    exact ((present_sorted got 0).imp (fun h => Nat.ne_of_lt h)).sublist (List.take_sublist _ _)
  obtain ⟨recd, hrecd, hrlen, hrL⟩ := hz (((present 0 got).take K).map Prod.snd) (((present 0 got).take K).map Prod.fst) L
    (by rw [List.length_map, htake])
    (fun b hb => by
      obtain ⟨p, hp, rfl⟩ := List.mem_map.1 hb
      exact hdata p.1 p.2 (hmem p hp))
    (by rw [List.length_map, htake]) hnodup
    (fun i hi => by
      obtain ⟨p, hp, rfl⟩ := List.mem_map.1 hi
      exact hlen ▸ (List.getElem?_eq_some_iff.1 (hmem p hp)).1)
  have hne : recd.flatten ≠ [] := by
    cases recd with
    | nil      => exact absurd hrlen (by simp; omega)
    | cons b _ =>
      have hb := hrL b List.mem_cons_self
      cases b with
      | nil      => exact absurd hb (by simp; omega)
      | cons _ _ => simp
  obtain ⟨x, hx⟩ := Option.ne_none_iff_exists'.1 (fun h => hne (List.getLast?_eq_none_iff.1 h))
  refine ⟨sliceTo recd.flatten (-((K : Int) - x.toNat)), ?_⟩
  unfold decode zfecInit
  simp only [hlen, not_true, if_false, hcollect, bind, Except.bind, hrecd, zfecResult, ne_eq, h₁, hK, hN, and_self, if_true]
  rw [unpad, hx]

namespace Refresh

variable {E : Curve} {H : Hash} {z : Zfec} {N size : Nat}

/-! ## The loop -/

/-- One `VAL` message, from a channel and with a sender's id. -/
abbrev Val (N : Nat) := Fin N × PyId × List Entry

/-- The party takes the message if its loop does. -/
def collectStep (E : Curve) (H : Hash) (z : Zfec) (size : Nat) (s : RefreshState N) (m : Val N) : RefreshState N :=
  match onMsg E H z size s m.1 (.val m.2.1 m.2.2) with
  | some r => r.1
  | none   => s

/-- The entry is data whose proof verified for the slot `k`. -/
def VerifiedAt (E : Curve) (H : Hash) (commitment : Int × Int) (k : Nat) (v : Entry) : Prop :=
  verify E commitment v.proof (sha256ToInt H v.data) k = .ok true

/-- What the loop does not check: `verify` can be computed for every entry; and the accepted ones have data of the length
`L`, an index of one place in `values` and in `g_points`, that is free, and no two the same place. -/
structure Sound (E : Curve) (H : Hash) (size L : Nat) (commitment : Int × Int) (values : List (Option Bytes))
    (val : List Entry) : Prop where
  computed : ∀ v ∈ val, ∃ b, verify E commitment v.proof (sha256ToInt H v.data) v.index = .ok b
  length : ∀ v ∈ val, Accepted E H commitment v → v.data.length = L
  place : ∀ v ∈ val, Accepted E H commitment v →
    ∃ k, pyIndex size v.index = .ok k ∧ pyIndex gCount v.index = .ok k ∧ values[k]? = some none
  distinct : val.Pairwise fun v w => Accepted E H commitment v → Accepted E H commitment w →
    pyIndex size v.index ≠ pyIndex size w.index

/-- What a slot holds: data of the length `L` of one of the entries, verified for the slot. -/
def Holds (E : Curve) (H : Hash) (L : Nat) (commitment : Int × Int) (entries : List Entry) (k : Nat) (b : Bytes) : Prop :=
  b.length = L ∧ k < gCount ∧ ∃ v ∈ entries, v.data = b ∧ VerifiedAt E H commitment k v

variable {L : Nat} {commitment : Int × Int}

theorem Holds.mono {entries entries' : List Entry} (hsub : ∀ v ∈ entries, v ∈ entries') {k : Nat} {b : Bytes}
    (h : Holds E H L commitment entries k b) : Holds E H L commitment entries' k b := by
  obtain ⟨hlen, hk, v, hv, hdata, hver⟩ := h
  exact ⟨hlen, hk, v, hsub v hv, hdata, hver⟩

theorem pyIndex_lt {n k : Nat} {i : Int} (h : pyIndex n i = .ok k) : k < n := by
  unfold pyIndex at h
  split at h
  · cases h
    omega
  · split at h
    · cases h
      omega
    · cases h

theorem verify_place {C proof : Int × Int} {mi index : Int} {k : Nat} (hk : pyIndex gCount index = .ok k) :
    verify E C proof mi index = verify E C proof mi k := by
  have hlt := pyIndex_lt hk
  have hg : gPoint E index = gPoint E k := by rw [gPoint, gPoint, hk, pyIndex_natCast hlt]
  rw [verify, verify, hg]

theorem Sound.skip {values : List (Option Bytes)} {v : Entry} {rest : List Entry}
    (h : Sound E H size L commitment values (v :: rest)) : Sound E H size L commitment values rest where
  computed w hw := h.computed w (List.mem_cons_of_mem v hw)
  length w hw := h.length w (List.mem_cons_of_mem v hw)
  place w hw := h.place w (List.mem_cons_of_mem v hw)
  distinct := h.distinct.of_cons

theorem Sound.set {values : List (Option Bytes)} {v : Entry} {rest : List Entry}
    (h : Sound E H size L commitment values (v :: rest)) (hacc : Accepted E H commitment v) {k : Nat}
    (hk : pyIndex size v.index = .ok k) : Sound E H size L commitment (values.set k (some v.data)) rest where
  computed := h.skip.computed
  length := h.skip.length
  place := by
    intro w hw haccw
    obtain ⟨j, hj, hg, hfree⟩ := h.skip.place w hw haccw
    have hne : k ≠ j := by
      rintro rfl
      exact List.rel_of_pairwise_cons h.distinct hw hacc haccw (hk.trans hj.symm)
    exact ⟨j, hj, hg, by rw [List.getElem?_set_ne hne]; exact hfree⟩
  distinct := h.skip.distinct

/-- **Sound entries raise nothing and are counted once each.** -/
theorem storeVal_tallied {entries : List Entry} : ∀ (val : List Entry) (counter : Nat) (values : List (Option Bytes)),
    (∀ v ∈ val, v ∈ entries) → Sound E H size L commitment values val →
    Slots.Tallied size (Holds E H L commitment entries) values counter →
    ∃ counter' values', storeVal E H commitment val counter values = .ok (counter', values') ∧
      Slots.Tallied size (Holds E H L commitment entries) values' counter'
  | [], counter, values, _, _, ht           => ⟨counter, values, rfl, ht⟩
  | v :: rest, counter, values, hmem, hs, ht => by
    have hrest : ∀ w ∈ rest, w ∈ entries := fun w hw => hmem w (List.mem_cons_of_mem v hw)
    obtain ⟨b, hb⟩ := hs.computed v List.mem_cons_self
    rw [storeVal, hb]
    cases b with
    | false => exact storeVal_tallied rest counter values hrest hs.skip ht
    | true  =>
      obtain ⟨k, hk, hg, hfree⟩ := hs.place v List.mem_cons_self hb
      have hholds : Holds E H L commitment entries k v.data := by
        refine ⟨hs.length v List.mem_cons_self hb, pyIndex_lt hg, v, hmem v List.mem_cons_self, rfl, ?_⟩
        rw [VerifiedAt, ← verify_place hg]
        exact hb
      simp only [bind, Except.bind, if_true, ht.length, hk]
      exact storeVal_tallied rest (counter + 1) _ hrest (hs.set hb hk) (ht.set hfree hholds)

theorem count_le {entries : List Entry} {values : List (Option Bytes)} {counter : Nat}
    (ht : Slots.Tallied size (Holds E H L commitment entries) values counter) : counter ≤ gCount := by
  obtain ⟨S, rfl, hS⟩ := ht.exists_senders
  have hinj : Set.InjOn (fun q : Fin size => (q : Nat)) S := fun a _ b _ h => Fin.ext h
  rw [← Finset.card_image_of_injOn hinj, ← Finset.card_range gCount]
  refine Finset.card_le_card fun k hk => ?_
  obtain ⟨q, hq, rfl⟩ := Finset.mem_image.1 hk
  obtain ⟨b, -, -, hlt, -⟩ := hS q hq
  exact Finset.mem_range.2 hlt

/-- **Slots enough decode.** -/
theorem decode_tallied (hL : 1 ≤ L) (hsize : size ≤ 256 ∨ 480 ≤ size) (hz : size ≤ 256 → z.Decodes (dataThreshold size) size)
    {entries : List Entry} {values : List (Option Bytes)} {counter : Nat}
    (ht : Slots.Tallied size (Holds E H L commitment entries) values counter) (hcount : dataThreshold size ≤ counter) :
    ∃ m, decode z (dataThreshold size) size values = .ok m := by
  have hle : counter ≤ size := by
    rw [← ht.filled, ← ht.length]
    exact List.countP_le_length
  rcases hsize with hsize | hsize
  · refine decode_isOk (hz hsize) (Nat.succ_pos _) (hcount.trans hle) hsize hL ht.length (ht.filled ▸ hcount) ?_
    exact fun k b hb => (ht.stored k b hb).1
  · have hg := count_le ht
    unfold dataThreshold at hcount
    unfold gCount at hg
    omega

/-! ## The run -/

/-- The loop between messages: it counts its slots, and has not raised. -/
structure LoopOk (E : Curve) (H : Hash) (size L : Nat) (commitment : Int × Int) (msgs : List (Val N)) (s : RefreshState N) :
    Prop where
  agreed : s.commitment = commitment
  phase : s.phase = .collecting ∨ s.originalMsg ≠ none
  tallied : Slots.Tallied size (Holds E H L commitment (msgs.flatMap (fun m => m.2.2))) s.values s.counter

theorem tallied_append {msgs : List (Val N)} {values : List (Option Bytes)} {counter : Nat} (m : Val N)
    (ht : Slots.Tallied size (Holds E H L commitment (msgs.flatMap (fun m => m.2.2))) values counter) :
    Slots.Tallied size (Holds E H L commitment ((msgs ++ [m]).flatMap (fun m => m.2.2))) values counter := by
  refine ht.mono fun k b hb => hb.mono fun v hv => ?_
  rw [List.flatMap_append]
  exact List.mem_append_left _ hv

/-- **`finish` leaves the slots alone**, and if what it decodes decodes it does not raise inside the loop. -/
theorem finish_spec (s : RefreshState N)
    (hdec : dataThreshold size ≤ s.counter → ∃ m, decode z (dataThreshold size) size s.values = .ok m) :
    (finish E H z size s).1.commitment = s.commitment ∧ (finish E H z size s).1.values = s.values ∧
      (finish E H z size s).1.counter = s.counter ∧
      ((finish E H z size s).1.phase = s.phase ∨ (finish E H z size s).1.originalMsg ≠ none) := by
  unfold finish
  split
  · rename_i hcount
    obtain ⟨m, hm⟩ := hdec hcount
    simp only [hm]
    split <;> exact ⟨rfl, rfl, rfl, Or.inr (Option.some_ne_none m)⟩
  · exact ⟨rfl, rfl, rfl, Or.inl rfl⟩

/-- The message is one the loop looks at: it is collecting, and the sender's id is new. -/
def Takes (s : RefreshState N) (m : Val N) : Prop := s.phase = .collecting ∧ m.2.1 ∉ s.prevSenders

/-- **A sound message keeps the loop's invariant.** -/
theorem LoopOk.step (hL : 1 ≤ L) (hsize : size ≤ 256 ∨ 480 ≤ size)
    (hz : size ≤ 256 → z.Decodes (dataThreshold size) size) {msgs : List (Val N)} {s : RefreshState N}
    (h : LoopOk E H size L commitment msgs s) (m : Val N)
    (hsound : Takes s m → Sound E H size L commitment s.values m.2.2) :
    LoopOk E H size L commitment (msgs ++ [m]) (collectStep E H z size s m) := by
  have hkeep : LoopOk E H size L commitment (msgs ++ [m]) s := ⟨h.agreed, h.phase, tallied_append m h.tallied⟩
  unfold collectStep onMsg
  cases hphase : s.phase with
  | collecting =>
    simp only
    unfold onVal
    by_cases hold : m.2.1 ∈ s.prevSenders
    · rw [if_pos hold]
      exact hkeep
    · rw [if_neg hold]
      obtain ⟨counter, values, hstore, ht⟩ := storeVal_tallied m.2.2 s.counter s.values
        (fun v hv => List.mem_flatMap.2 ⟨m, List.mem_append_right _ (List.mem_singleton_self m), hv⟩)
        (hsound ⟨hphase, hold⟩) hkeep.tallied
      rw [← h.agreed] at hstore
      simp only [hstore]
      obtain ⟨hcom, hvalues, hcounter, hfin⟩ := @finish_spec E H z N size
        { s with prevSenders := insert m.2.1 s.prevSenders, counter := counter, values := values }
        (fun hcount => decode_tallied hL hsize hz ht hcount)
      refine ⟨hcom.trans h.agreed, hfin.imp_left (fun heq => heq.trans hphase), ?_⟩
      rw [hvalues, hcounter]
      exact ht
  | final => exact hkeep
  | start | waiting | returned _ _ | raised _ => exact hkeep

end Refresh

open Refresh

section LeaderRobust

variable {E : Curve} {H : Hash} {z : Zfec} {N size L : Nat} {leader : Fin N} {commitment : Int × Int}

end LeaderRobust
end Dpid
