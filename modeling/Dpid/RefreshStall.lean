import Dpid.Refresh0Total
import Dpid.RefreshCommittee
import Mathlib
/-!
# RefreshStall — the committee refresh does not come to its end

After its first loop a member holds in `proof` the branch of the last leaf, and the second loop still looks up the
sender's index in it.  With two parties or more the last index lies past the branch, so that the last party's stripe,
taken late, raises (`exists_raised`).  One party alone counts its `RELAY` once and waits for ever.
-/
namespace Dpid

namespace Committee

open Refresh0 (Encoded)

variable {H : Hash} {z : Zfec} {N : Nat} {key : Fin N → RsaKey} {f : Nat} {all : Bool} {target : List (Fin N)}
  {S : List Bytes}

/-- `refresh` at parties that hold the stripes `S` and the list of their hashes. -/
def shared (H : Hash) (z : Zfec) (key : Fin N → RsaKey) (f : Nat) (all : Bool) (target : List (Fin N)) (S : List Bytes) :
    Net.Proto (Fin N) Thread (CommitteeState N) CommitteeMsg :=
  refresh H z key f all target (fun p => S.getD p []) (fun _ => hashes H S)

/-- The message with which `q` sends its stripe to `p`. -/
def shareMsg (S : List Bytes) (q p : Fin N) : Net.Envelope (Fin N) CommitteeMsg :=
  ⟨q, p, .val (.int (q : Nat)) (S.getD q [])⟩

/-! ## The first loop -/

/-- A member that has taken the stripes of the parties of `l`. -/
def fed (H : Hash) (S : List Bytes) (share : Bytes) : List (Fin N) → CommitteeState N
  | []     => { init share with phase := .first, proof := hashes H S }
  | q :: l => addValue q (S.getD q []) (fed H S share l)

section Fed

variable {share : Bytes} (l : List (Fin N))

@[simp] theorem fed_phase : (fed H S share l).phase = .first := by
  induction l with
  | nil         => rfl
  | cons q l ih => exact ih

@[simp] theorem fed_proof : (fed H S share l).proof = hashes H S := by
  induction l with
  | nil         => rfl
  | cons q l ih => exact ih

@[simp] theorem fed_readySent : (fed H S share l).readySent = false := by
  induction l with
  | nil         => rfl
  | cons q l ih => exact ih

@[simp] theorem fed_counter : (fed H S share l).counter = l.length := by
  induction l with
  | nil         => rfl
  | cons q l ih => exact congrArg (· + 1) ih

theorem mem_fed_valuesSenders {q : Fin N} : q ∈ (fed H S share l).valuesSenders ↔ q ∈ l := by
  induction l with
  | nil          => simp [fed, init]
  | cons q' l ih => rw [fed, addValue, Finset.mem_insert, ih, List.mem_cons]

variable {l}

/-- A party's own stripe passes the check of a member that has not yet taken it. -/
theorem takeVal_fed (hS : S.length = N) {q : Fin N} (hq : q ∉ l) :
    takeVal H q (.int (q : Nat)) (S.getD q []) (fed H S share l) = .ok (some (fed H S share (q :: l))) := by
  have hlt : (q : Nat) < S.length := hS ▸ q.isLt
  have hget : proofAt (hashes H S) (.int (q : Nat)) = .ok (H (S.getD q [])) := by
    rw [proofAt, hashes_length, pyIndex_natCast hlt, Except.map, List.getD_eq_getElem?_getD, List.getD_eq_getElem?_getD,
      hashes_getElem?, List.getElem?_eq_getElem hlt]
    rfl
  rw [takeVal, fed_proof, hget]
  simp only [ne_eq, not_true_eq_false, if_false, mem_fed_valuesSenders, hq]
  rfl

end Fed

/-- **A member leaves the first loop for the second with a short `proof`**, or raises. -/
theorem sendRelays_cases (hz : z.IsMds (N - 2 * f) N) (s : CommitteeState N) :
    (∃ e, (sendRelays H z f s).1.phase = .raised e) ∨
      ∃ stripes hashStripes vc, sendRelays H z f s =
        (enterSecond vc s,
          (List.finRange N).map (fun j => (j, .relay (relayFor stripes hashStripes vc j)))) ∧
        (1 ≤ N → (getMerkleBranch (N - 1) vc).length = Nat.clog 2 N) := by
  rw [sendRelays]
  cases hd : (decode z (N - 2 * f) N s.values).bind (commitTo H z (N - 2 * f) N) with
  | error e => exact Or.inl ⟨e, rfl⟩
  | ok r    =>
    obtain ⟨stripes, hashStripes, vc⟩ := r
    refine Or.inr ⟨stripes, hashStripes, vc, rfl, fun hN => ?_⟩
    obtain ⟨m, -, hm⟩ := bind_eq_ok.1 hd
    obtain ⟨stripes', -, hm⟩ := bind_eq_ok.1 hm
    obtain ⟨hashStripes', henc, hm⟩ := bind_eq_ok.1 hm
    obtain ⟨vc', hvc, hm⟩ := bind_eq_ok.1 hm
    cases hm
    have hlen := encode_length hz henc
    rw [merkleTree, if_pos (by omega)] at hvc
    cases hvc
    rw [getMerkleBranch_length H hashStripes (N - 1) (by omega), hlen]

/-! ## A run in which a member raises -/

section Runs

variable {m : Text}

/-- Any parties may send their stripes before anything else happens. -/
theorem exists_sent {p : Fin N} (hp : p ∈ members all target) : ∀ l : List (Fin N), l.Nodup →
    ∃ c, Net.Reachable (shared H z key f all target S) ∅ c ∧ (∀ q ∉ l, c.loc q = init (S.getD q [])) ∧
      ∀ q ∈ l, c.loc q = { init (S.getD q []) with phase := .waiting } ∧ shareMsg S q p ∈ c.net
  | [], _          => ⟨_, .start, fun _ _ => rfl, nofun⟩
  | q :: l, hnodup => by
    obtain ⟨hq, hl⟩ := List.nodup_cons.1 hnodup
    obtain ⟨c, hc, hinit, hsent⟩ := exists_sent hp l hl
    have hwake : (shared H z key f all target S).wake q .send (c.loc q) = some (sendShare all target q (init (S.getD q []))) := by
      rw [hinit q hq]
      rfl
    refine ⟨_, hc.step trivial (.wake (Finset.notMem_empty q) hwake), fun r hr => ?_, fun r hr => ?_⟩
    · rw [List.mem_cons, not_or] at hr
      exact (Function.update_of_ne hr.1 _ _).trans (hinit r hr.2)
    · rcases List.mem_cons.1 hr with rfl | hr
      · exact ⟨Function.update_self _ _ _, List.mem_append_left _ (Net.mem_post.2 ⟨rfl, List.mem_map.2 ⟨p, hp, rfl⟩⟩)⟩
      · have hne : r ≠ q := fun h => hq (h ▸ hr)
        exact ⟨(Function.update_of_ne hne _ _).trans (hsent r hr).1, List.mem_append_right _ (hsent r hr).2⟩

/-- A member may take the stripes of any `f` parties, the others' still being in flight. -/
theorem exists_fed (hS : S.length = N) {p : Fin N} (hp : p ∈ members all target) : ∀ l : List (Fin N), l.Nodup → l.length ≤ f →
    ∃ c, Net.Reachable (shared H z key f all target S) ∅ c ∧ c.loc p = fed H S (S.getD p []) l ∧
      ∀ q ∉ l, shareMsg S q p ∈ c.net
  | [], _, _             => by
    obtain ⟨c, hc, -, hsent⟩ := @exists_sent H z N key f all target S p hp (List.finRange N) (List.nodup_finRange N)
    have hwake : (shared H z key f all target S).wake p .add (c.loc p) = some (fed H S (S.getD p []) [], []) := by
      rw [(hsent p (List.mem_finRange p)).1]
      show some (takeProof all target p (hashes H S) _, []) = _
      rw [takeProof, if_pos hp]
      rfl
    exact ⟨_, hc.step trivial (.wake (Finset.notMem_empty p) hwake), Function.update_self _ _ _,
      fun q _ => (hsent q (List.mem_finRange q)).2⟩
  | q :: l, hnodup, hlen => by
    obtain ⟨hq, hl⟩ := List.nodup_cons.1 hnodup
    rw [List.length_cons] at hlen
    obtain ⟨c, hc, hfed, hnet⟩ := exists_fed hS hp l hl (by omega)
    have hrecv : (shared H z key f all target S).recv p (c.loc p) q (shareMsg S q p).msg =
        some (fed H S (S.getD p []) (q :: l), []) := by
      rw [hfed, shared, refresh_recv_first (fed_phase l), shareMsg, onFirst, takeVal_fed hS hq]
      simp only [fed_counter, List.length_cons]
      rw [if_neg (by omega)]
    obtain ⟨c', hc', hloc, hrest⟩ := hc.recv_loc (hnet q hq) (Finset.notMem_empty p) trivial hrecv
    refine ⟨c', hc', hloc, fun r hr => ?_⟩
    rw [List.mem_cons, not_or] at hr
    exact hrest _ (hnet r hr.2) (fun h => hr.1 (congrArg Net.Envelope.src h))

/-- The last of two parties or more is past the end of a branch. -/
theorem clog_le_last (f : Nat) : Nat.clog 2 (3 * f + 1) ≤ 3 * f :=
  Nat.clog_le_of_le_pow (by have := Nat.lt_two_pow_self (n := 3 * f); omega)

/-- The index of a party, as `proof[target]` reads it. -/
theorem proofAt_ge {L : List Bytes} {k : Nat} (h : L.length ≤ k) : proofAt L (.int k) = .error .indexError := by
  have hlt : ¬ ((0 : Int) ≤ k ∧ (k : Int) < L.length) := by omega
  have hneg : ¬ ((k : Int) < 0 ∧ -(L.length : Int) ≤ k) := by omega
  rw [proofAt, pyIndex, if_neg hlt, if_neg hneg]
  rfl

/-- A stripe from beyond the branch raises in the second loop. -/
theorem recv_short {vc : List Bytes} {s : CommitteeState N} {p q : Fin N} (hr : s.readySent = false)
    (hq : (getMerkleBranch (N - 1) vc).length ≤ (q : Nat)) :
    (shared H z key f all target S).recv p (enterSecond vc s) q (shareMsg S q p).msg =
      some (raise .indexError (enterSecond vc s), []) := by
  have hget : proofAt (enterSecond vc s).proof (.int (q : Nat)) = .error .indexError := proofAt_ge hq
  rw [shared, refresh_recv_second rfl, shareMsg, onSecond, onVal, takeVal, hget]
  have hready : (enterSecond vc s).readySent = false := hr
  rw [hready]
  rfl

/-- **With four parties or more a member raises** in some run. -/
theorem exists_raised (h : Encoded z N f m S) (hf : 1 ≤ f) {p : Fin N} (hp : p ∈ members all target) :
    ∃ c, Net.Reachable (shared H z key f all target S) ∅ c ∧ ∃ e, (c.loc p).phase = .raised e := by
  have hN := h.size
  -- parties `0` to `f - 1` first, then party `f`; the last party's stripe comes after the loop
  let l : List (Fin N) := (List.finRange f).map (Fin.castLE (by omega))
  have hl : ∀ q ∈ l, (q : Nat) < f := by
    intro q hq
    obtain ⟨i, -, rfl⟩ := List.mem_map.1 hq
    exact i.isLt
  have hnodup : l.Nodup := (List.nodup_finRange f).map (Fin.castLE_injective _)
  have hlen : l.length = f := by rw [List.length_map, List.length_finRange]
  obtain ⟨c, hc, hfed, hnet⟩ := @exists_fed H z N key f all target S h.length p hp l hnodup (by omega)
  let q : Fin N := ⟨f, by omega⟩
  let last : Fin N := ⟨3 * f, by omega⟩
  have hq : q ∉ l := fun hmem => Nat.lt_irrefl f (hl q hmem)
  have hlast : last ∉ l := fun hmem => by have := hl last hmem; simp only [last] at this; omega
  have hrecv : (shared H z key f all target S).recv p (c.loc p) q (shareMsg S q p).msg =
      some ((sendRelays H z f (fed H S (S.getD p []) (q :: l))).1,
        (sendRelays H z f (fed H S (S.getD p []) (q :: l))).2) := by
    rw [hfed, shared, refresh_recv_first (fed_phase l), shareMsg, onFirst, takeVal_fed h.length hq]
    simp only [fed_counter, List.length_cons, hlen]
    rw [if_pos (Nat.le_refl _)]
  obtain ⟨c₁, hc₁, hloc, hrest⟩ := hc.recv_loc (hnet q hq) (Finset.notMem_empty p) trivial hrecv
  rcases sendRelays_cases h.mds (H := H) (fed H S (S.getD p []) (q :: l)) with ⟨e, he⟩ | ⟨stripes, hashStripes, vc, heq, hbranch⟩
  · exact ⟨c₁, hc₁, e, (congrArg CommitteeState.phase hloc).trans he⟩
  · rw [heq] at hloc
    change c₁.loc p = enterSecond vc (fed H S (S.getD p []) (q :: l)) at hloc
    have hne : shareMsg S last p ≠ shareMsg S q p := fun heq => by
      have := congrArg (fun e => (Net.Envelope.src e : Fin N).val) heq
      simp only [shareMsg, last, q] at this
      omega
    have hrecv : (shared H z key f all target S).recv p (c₁.loc p) last (shareMsg S last p).msg =
        some (raise .indexError (c₁.loc p), []) := by
      have hshort : (getMerkleBranch (N - 1) vc).length ≤ 3 * f := by
        rw [hbranch (by omega), hN]
        exact clog_le_last f
      rw [hloc]
      exact recv_short (fed_readySent _) hshort
    obtain ⟨c₂, hc₂, hloc₂, -⟩ := hc₁.recv_loc (hrest _ (hnet last hlast) hne) (Finset.notMem_empty p) trivial hrecv
    exact ⟨c₂, hc₂, .indexError, congrArg CommitteeState.phase hloc₂⟩

/-- **One party alone raises or waits for ever**: it counts its own `RELAY` once, and no `ECHO` is sent. -/
theorem exists_idle {key : Fin 1 → RsaKey} {target : List (Fin 1)} (h : Encoded z 1 0 m S) (hp : 0 ∈ members all target) :
    ∃ c, Net.Reachable (shared H z key 0 all target S) ∅ c ∧ ((∃ e, (c.loc 0).phase = .raised e) ∨
      (Net.Stuck (shared H z key 0 all target S) ∅ (fun _ _ => True) c ∧ (c.loc 0).phase = .second)) := by
  obtain ⟨rest, hrest⟩ : ∃ rest, members all target = 0 :: rest := by
    cases hL : members all target with
    | nil        => rw [hL] at hp; cases hp
    | cons q rest => exact ⟨rest, by rw [Subsingleton.elim q 0]⟩
  have hsend : (shared H z key 0 all target S).wake 0 .send (init (S.getD 0 [])) =
      some ({ init (S.getD 0 []) with phase := .waiting },
        ((0 : Fin 1) :: rest).map (fun i => (i, (shareMsg S 0 i).msg))) := by
    rw [← hrest]
    rfl
  have hadd : (shared H z key 0 all target S).wake 0 .add { init (S.getD 0 []) with phase := .waiting } =
      some (fed H S (S.getD 0 []) [], []) := by
    show some (takeProof all target 0 (hashes H S) _, []) = _
    rw [takeProof, if_pos hp]
    rfl
  have hval : (shared H z key 0 all target S).recv 0 (fed H S (S.getD 0 []) []) 0 (shareMsg S 0 (0 : Fin 1)).msg =
      some ((sendRelays H z 0 (fed H S (S.getD 0 []) [(0 : Fin 1)])).1,
        (sendRelays H z 0 (fed H S (S.getD 0 []) [(0 : Fin 1)])).2) := by
    have htake := @takeVal_fed H 1 S (S.getD 0 []) [] h.length 0 List.not_mem_nil
    rw [shared, refresh_recv_first (fed_phase []), shareMsg, onFirst, htake]
    rfl
  obtain ⟨c₁, hc₁, hloc₁, hnet₁⟩ := (Net.Run.start : Net.Reachable (shared H z key 0 all target S) ∅ _).wake_net
    (Finset.notMem_empty 0) trivial rfl hsend
  obtain ⟨c₂, hc₂, hloc₂, hnet₂⟩ := hc₁.wake_net (Finset.notMem_empty 0) trivial hloc₁ hadd
  rw [hnet₁] at hnet₂
  obtain ⟨c₃, hc₃, hloc₃, hnet₃⟩ := hc₂.recv_net (e := shareMsg S 0 0) hnet₂ (Finset.notMem_empty _) trivial hloc₂ hval
  rcases sendRelays_cases h.mds (H := H) (fed H S (S.getD 0 []) [(0 : Fin 1)]) with ⟨e, he⟩ | ⟨stripes, hashStripes, vc, heq, hbranch⟩
  · exact ⟨c₃, hc₃, Or.inl ⟨e, (congrArg CommitteeState.phase hloc₃).trans he⟩⟩
  · rw [heq] at hloc₃ hnet₃
    change c₃.loc 0 = enterSecond vc (fed H S (S.getD 0 []) [(0 : Fin 1)]) at hloc₃
    cases rest with
    | cons r rest =>
      -- the member is sent its own stripe twice
      have hmem : shareMsg S 0 0 ∈ c₃.net := by
        rw [hnet₃, Subsingleton.elim r 0]
        exact List.mem_append_right _ List.mem_cons_self
      have hshort : (getMerkleBranch (1 - 1) vc).length ≤ ((0 : Fin 1) : Nat) := by
        rw [hbranch (Nat.le_refl 1)]
        exact clog_le_last 0
      obtain ⟨c₄, hc₄, hloc₄, -⟩ := hc₃.recv_loc hmem (Finset.notMem_empty _) trivial
        ((congrArg (fun s => (shared H z key 0 all target S).recv 0 s 0 (shareMsg S 0 0).msg) hloc₃).trans
          (recv_short (fed_readySent _) hshort))
      exact ⟨c₄, hc₄, Or.inl ⟨.indexError, congrArg CommitteeState.phase hloc₄⟩⟩
    | nil =>
      obtain ⟨s, hs, hrelay⟩ : ∃ s : CommitteeState 1, s.phase = .second ∧ (shared H z key 0 all target S).recv 0
          (enterSecond vc (fed H S (S.getD 0 []) [(0 : Fin 1)])) 0 (.relay (relayFor stripes hashStripes vc 0)) = some (s, []) :=
        ⟨_, rfl, rfl⟩
      obtain ⟨c₄, hc₄, hloc₄, hnet₄⟩ := hc₃.recv_net (e := ⟨0, 0, .relay (relayFor stripes hashStripes vc 0)⟩) hnet₃
        (Finset.notMem_empty _) trivial hloc₃ hrelay
      have hsecond : (c₄.loc 0).phase = .second := (congrArg CommitteeState.phase hloc₄).trans hs
      refine ⟨c₄, hc₄, Or.inr ⟨?_, hsecond⟩⟩
      intro l c' hstep _
      cases hstep with
      | @wake p t s out hp hw =>
        rcases refresh_wake hw with ⟨hph, -⟩ | ⟨hph, -⟩
        · rw [Subsingleton.elim p 0, hsecond] at hph
          cases hph
        · rw [Subsingleton.elim p 0, hsecond] at hph
          cases hph
      | recv hp he hr =>
        rw [hnet₄] at he
        exact List.cons_ne_nil _ _ (List.nil_perm.1 he)
      | inject he => exact absurd he (Finset.notMem_empty _)

end Runs

end Committee

open Committee
open Refresh0 (plainKey stripesOfTwo encode_two)

section Stalls

variable {H : Hash} {z : Zfec} {N : Nat} {key : Fin N → RsaKey} {f : Nat} {all : Bool} {target : List (Fin N)}
  {m : Text} {S : List Bytes}

/-- **The committee refresh makes no sure progress**: with any number of parties, any message and any committee, some
run raises, or comes to rest before the parties have returned. -/
theorem refresh_stalls (hN : N = 3 * f + 1) (hz : z.IsMds (N - 2 * f) N) (hS : encode z (N - 2 * f) N m = .ok S)
    (hall : all = true ∨ N - 2 * f ≤ target.toFinset.card) :
    ¬ ∀ c, Net.Reachable (refresh H z key f all target (fun p => S.getD p []) (fun _ => hashes H S)) ∅ c →
      (∀ p e, (c.loc p).phase ≠ .raised e) ∧
      (Net.Stuck (refresh H z key f all target (fun p => S.getD p []) (fun _ => hashes H S)) ∅ (fun _ _ => True) c →
        ∀ p, (c.loc p).phase = .returned) := by
  intro h
  obtain ⟨p, hp⟩ : ∃ p, p ∈ members all target := by
    rcases hall with rfl | hcard
    · exact ⟨⟨0, by omega⟩, List.mem_finRange _⟩
    · obtain ⟨p, hp⟩ := Finset.card_pos.1 (show 0 < target.toFinset.card by omega)
      cases all
      · exact ⟨p, List.mem_toFinset.1 hp⟩
      · exact ⟨p, List.mem_finRange p⟩
  rcases Nat.eq_zero_or_pos f with rfl | hf
  · obtain rfl : N = 1 := hN
    rw [Subsingleton.elim p 0] at hp
    obtain ⟨c, hc, ⟨e, he⟩ | ⟨hstuck, hsecond⟩⟩ := @exists_idle H z all S m key target ⟨rfl, hz, hS⟩ hp
    · exact (h c hc).1 0 e he
    · have hret := (h c hc).2 hstuck 0
      rw [hsecond] at hret
      cases hret
  · obtain ⟨c, hc, e, he⟩ := @exists_raised H z N key f all target S m ⟨hN, hz, hS⟩ hf p hp
    exact (h c hc).1 p e he

/-- Four parties with the stripes of a message. -/
def fourCommittee (all : Bool) (target : List (Fin 4)) : Net.Proto (Fin 4) Thread (CommitteeState 4) CommitteeMsg :=
  refresh sha256 zfecTwo (fun _ => plainKey) 1 all target (fun p => stripesOfTwo.getD p []) (fun _ => hashes sha256 stripesOfTwo)

theorem refresh_stalls_four : ¬ ∀ c, Net.Reachable (fourCommittee false [1, 2]) ∅ c →
    (∀ p e, (c.loc p).phase ≠ .raised e) ∧
    (Net.Stuck (fourCommittee false [1, 2]) ∅ (fun _ _ => True) c → ∀ p, (c.loc p).phase = .returned) :=
  refresh_stalls rfl zfecTwo_isMds encode_two (Or.inr (by decide))

/-- Party 0 takes its own stripe and party 1's, sends its `RELAY`s, and then takes party 3's. -/
theorem refresh_stalls_counterexample : ¬ ∀ c, Net.Reachable (fourCommittee true []) ∅ c →
    (∀ p e, (c.loc p).phase ≠ .raised e) ∧
    (Net.Stuck (fourCommittee true []) ∅ (fun _ _ => True) c → ∀ p, (c.loc p).phase = .returned) := by
  intro h
  have hrun : (Net.exec (fourCommittee true []) ∅ (fun _ _ => true) [.wake 0 .send, .wake 0 .add, .recv 0, .wake 1 .send,
      .recv 0, .wake 3 .send, .recv 0] (fourCommittee true []).start).any
        (fun c => decide ((c.loc 0).phase = .raised .indexError)) = true := by
    decide +kernel
  obtain ⟨c, hc, hraised⟩ := Net.exists_run_of_exec hrun (fun _ _ _ => trivial)
  exact (h c hc).1 0 _ (of_decide_eq_true hraised)

end Stalls

end Dpid
