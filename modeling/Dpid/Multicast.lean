import Dpid.Bytes
import Dpid.Net
import Mathlib.Data.Fintype.Basic
import Mathlib.Data.Finset.Card
/-!
# Multicast — `multicast` (`dpid/core/multicast.py`)

A party sends its value to all and returns it after `f + 1` votes for it.  The code keys the votes by the id inside the
`PROOF`, not by the channel it arrived on.  `counted` is history: the channels of the counted votes.

While no channel is counted twice the votes are those of `f + 1` channels (`multicast_quorum`); one party that votes
under two ids is counted twice (`multicast_quorum_counterexample`).
-/
namespace Dpid

/-- The message `('PROOF', sender, value)`. -/
structure Proof (V : Type) where
  sender : PyId
  value : V
deriving DecidableEq

inductive McPhase (V : Type) where
  | input
  | loop (m : V)
  | returned (m : V)
deriving DecidableEq

structure McState (N : Nat) (V : Type) where
  phase : McPhase V
  senders : Finset String
  counted : Finset (Fin N)

namespace Multicast

variable {N : Nat} {V : Type}

def init : McState N V := ⟨.input, ∅, ∅⟩

def start (pid : Fin N) (m : V) (s : McState N V) : McState N V × List (Fin N × Proof V) :=
  ({ s with phase := .loop m }, (List.finRange N).map (fun i => (i, ⟨.int (pid : Nat), m⟩)))

/-- `if value == m: senders.add(sender)`. -/
def addVote [DecidableEq V] (target : Fin N) (msg : Proof V) (m : V) (s : McState N V) : McState N V :=
  if msg.value = m then
    { s with senders := insert msg.sender.str s.senders, counted := insert target s.counted }
  else s

/-- One pass of the loop. -/
def onProof [DecidableEq V] (f : Nat) (target : Fin N) (msg : Proof V) (m : V) (s : McState N V) : McState N V :=
  if msg.sender.str ∈ s.senders then s
  else
    let s := addVote target msg m s
    if f + 1 ≤ s.senders.card then { s with phase := .returned m } else s

end Multicast

open Multicast in
/-- `multicast` at all `N` parties, each with its own input. -/
def multicast {N : Nat} {V : Type} [DecidableEq V] (f : Nat) (input : Fin N → V) :
    Net.Proto (Fin N) Unit (McState N V) (Proof V) where
  init := fun _ => init
  wake := fun pid _ s =>
    match s.phase with
    | .input => some (start pid (input pid) s)
    | _      => none
  recv := fun _ s target msg =>
    match s.phase with
    | .loop m => some (onProof f target msg m s, [])
    | _       => none

namespace Multicast

variable {N f : Nat} {V : Type} [DecidableEq V]

/-- The parties on whose channels a vote for `m` was delivered to `p`. -/
def voters (hist : List (Net.Envelope (Fin N) (Proof V))) (p : Fin N) (m : V) : Finset (Fin N) :=
  Finset.univ.filter (fun q => ∃ e ∈ hist, e.dst = p ∧ e.src = q ∧ e.msg.value = m)

/-- A vote that will be counted comes on a channel none was counted from. -/
def OneVote (c : Net.Conf (Fin N) (McState N V) (Proof V)) : Net.Label (Fin N) Unit (Proof V) → Prop
  | .recv e   => (c.loc e.dst).phase = .loop e.msg.value → e.msg.sender.str ∉ (c.loc e.dst).senders →
      e.src ∉ (c.loc e.dst).counted
  | .wake _ _ => True
  | .inject _ => True

instance (c : Net.Conf (Fin N) (McState N V) (Proof V)) : DecidablePred (OneVote c)
  | .recv _   => inferInstanceAs (Decidable (_ → _ → _))
  | .wake _ _ => isTrue trivial
  | .inject _ => isTrue trivial

/-- The invariant of one party. -/
structure VotesOk (f : Nat) (hist : List (Net.Envelope (Fin N) (Proof V))) (p : Fin N) (s : McState N V) : Prop where
  card_le : s.senders.card ≤ s.counted.card
  input : s.phase = .input → s.counted = ∅
  loop : ∀ m, s.phase = .loop m → s.counted ⊆ voters hist p m
  returned : ∀ m, s.phase = .returned m → s.counted ⊆ voters hist p m ∧ f + 1 ≤ s.senders.card

theorem voters_mono {hist hist' : List (Net.Envelope (Fin N) (Proof V))} (h : ∀ e ∈ hist, e ∈ hist') (p : Fin N) (m : V) :
    voters hist p m ⊆ voters hist' p m := by
  intro q hq
  obtain ⟨e, he, hq⟩ := (Finset.mem_filter.1 hq).2
  exact Finset.mem_filter.2 ⟨Finset.mem_univ q, e, h e he, hq⟩

theorem VotesOk.mono {hist hist' : List (Net.Envelope (Fin N) (Proof V))} (h : ∀ e ∈ hist, e ∈ hist') {p : Fin N}
    {s : McState N V} (hs : VotesOk f hist p s) : VotesOk f hist' p s where
  card_le  := hs.card_le
  input    := hs.input
  loop     := fun m hm => (hs.loop m hm).trans (voters_mono h p m)
  returned := fun m hm => ⟨(hs.returned m hm).1.trans (voters_mono h p m), (hs.returned m hm).2⟩

/-- **Taking a vote that is counted once keeps the invariant.** -/
theorem onProof_ok {hist : List (Net.Envelope (Fin N) (Proof V))} {e : Net.Envelope (Fin N) (Proof V)}
    {s : McState N V} {m : V} (hs : VotesOk f (e :: hist) e.dst s) (hm : s.phase = .loop m)
    (hone : s.phase = .loop e.msg.value → e.msg.sender.str ∉ s.senders → e.src ∉ s.counted) :
    VotesOk f (e :: hist) e.dst (onProof f e.src e.msg m s) := by
  unfold onProof
  split
  · exact hs
  · rename_i hnew
    have hadd : (addVote e.src e.msg m s).senders.card ≤ (addVote e.src e.msg m s).counted.card ∧
        (addVote e.src e.msg m s).counted ⊆ voters (e :: hist) e.dst m ∧ (addVote e.src e.msg m s).phase = .loop m := by
      unfold addVote
      split
      · rename_i hv
        refine ⟨?_, fun q hq => ?_, hm⟩
        · simp only [Finset.card_insert_of_notMem hnew, Finset.card_insert_of_notMem (hone (hv ▸ hm) hnew)]
          exact Nat.succ_le_succ hs.card_le
        · rcases Finset.mem_insert.1 hq with rfl | hq
          · exact Finset.mem_filter.2 ⟨Finset.mem_univ _, e, List.mem_cons_self, rfl, rfl, hv⟩
          · exact hs.loop m hm hq
      · exact ⟨hs.card_le, hs.loop m hm, hm⟩
    obtain ⟨hcard, hsub, hphase⟩ := hadd
    simp only
    split
    · rename_i hf
      refine ⟨hcard, nofun, nofun, fun m' h => ?_⟩
      cases h
      exact ⟨hsub, hf⟩
    · refine ⟨hcard, fun h => ?_, fun m' h => ?_, fun m' h => ?_⟩
      · rw [hphase] at h; cases h
      · rw [hphase] at h
        cases h
        exact hsub
      · rw [hphase] at h; cases h

theorem multicast_preserved (f : Nat) (input : Fin N → V) (byz : Finset (Fin N)) :
    Net.Preserved (multicast f input) byz OneVote (fun _ _ => True) (fun loc hist p => VotesOk f hist p (loc p))
      (fun _ _ => True) where
  grow_refl := fun _ => trivial
  grow_wake := fun _ _ _ _ _ _ => trivial
  grow_recv := fun _ _ _ _ _ _ _ => trivial
  local_mono := fun loc loc' hist hist' p _ hh _ hp hs => by rw [hp]; exact hs.mono hh
  msg_mono := fun _ _ _ _ _ => trivial
  init := fun p _ => ⟨le_rfl, fun _ => rfl, nofun, nofun⟩
  wake := by
    intro c p t s out loc' _ hp hL h hloc _
    refine ⟨?_, fun _ _ => trivial⟩
    rw [hloc, Function.update_self]
    simp only [multicast] at h
    split at h
    · rename_i hin
      cases h
      refine ⟨(hL p hp).card_le, nofun, fun m hm => ?_, nofun⟩
      exact ((hL p hp).input hin).subset.trans (Finset.empty_subset _)
    · cases h
  recv := by
    intro c e s out loc' hok hp hL _ h hloc _
    refine ⟨?_, fun _ _ => trivial⟩
    rw [hloc, Function.update_self]
    simp only [multicast] at h
    split at h
    · rename_i m hm
      cases h
      exact onProof_ok ((hL e.dst hp).mono (fun _ => List.mem_cons_of_mem e)) hm hok
    · cases h

end Multicast

open Multicast

section Quorum

variable {N f : Nat} {V : Type} [DecidableEq V] {input : Fin N → V} {byz : Finset (Fin N)}
  {c : Net.Conf (Fin N) (McState N V) (Proof V)}

/-- **While no channel is counted twice, a party that returns `m` has votes for `m` from `f + 1` parties.** -/
theorem multicast_quorum (hc : Net.Run (multicast f input) byz OneVote c) {p : Fin N} (hp : p ∉ byz) {m : V}
    (hm : (c.loc p).phase = .returned m) : f + 1 ≤ (voters c.hist p m).card := by
  have hok := ((multicast_preserved f input byz).run hc).loc p hp
  obtain ⟨hsub, hf⟩ := hok.returned m hm
  exact hf.trans (hok.card_le.trans (Finset.card_le_card hsub))

/-- Parties 0 and 1 vote, party 0 takes both votes. -/
theorem multicast_quorum_four : ∃ c, Net.Reachable (multicast 1 (fun _ : Fin 4 => "c")) {3} c ∧
    (c.loc 0).phase = .returned "c" ∧ 1 + 1 ≤ (voters c.hist 0 "c").card := by
  have hrun : (Net.exec (multicast 1 (fun _ : Fin 4 => "c")) {3} (fun c l => decide (OneVote c l))
      [.wake 0 (), .wake 1 (), .recv 0, .recv 3] (multicast 1 (fun _ => "c")).start).any
        (fun c => decide ((c.loc 0).phase = .returned "c")) = true := by
    decide +kernel
  obtain ⟨c, hrun', hret⟩ := Net.exists_run_of_exec hrun (fun c l => of_decide_eq_true)
  exact ⟨c, hrun'.reachable, of_decide_eq_true hret, multicast_quorum hrun' (by decide) (of_decide_eq_true hret)⟩

/-- Party 3 votes as 0 and as 1, and party 0 returns with the votes of one party. -/
theorem multicast_quorum_counterexample : ¬ ∀ c, Net.Reachable (multicast 1 (fun _ : Fin 4 => "c")) {3} c →
    ∀ p ∉ ({3} : Finset (Fin 4)), ∀ m, (c.loc p).phase = .returned m → 1 + 1 ≤ (voters c.hist p m).card := by
  intro h
  have hrun : (Net.exec (multicast 1 (fun _ : Fin 4 => "c")) {3} (fun _ _ => true)
      [.wake 0 (), .inject ⟨3, 0, .int 0, "c"⟩, .inject ⟨3, 0, .int 1, "c"⟩, .recv 0, .recv 0]
      (multicast 1 (fun _ => "c")).start).any
        (fun c => decide ((c.loc 0).phase = .returned "c" ∧ (voters c.hist 0 "c").card < 2)) = true := by
    decide +kernel
  obtain ⟨c, hc, hret⟩ := Net.exists_run_of_exec hrun (fun _ _ _ => trivial)
  obtain ⟨hret, hcard⟩ := of_decide_eq_true hret
  have := h c hc 0 (by decide) "c" hret
  omega

end Quorum

end Dpid
