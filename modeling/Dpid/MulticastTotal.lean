import Dpid.Multicast
import Dpid.NetCrash
import Dpid.Quorum
import Mathlib
/-!
# MulticastTotal — `multicast` when parties only stop

All parties vote for one value, each under its own id.  With at most `f` of more than `2 f` parties stopped every running
party has returned the value once nothing moves (`multicast_total`).
-/
namespace Dpid

namespace Multicast

variable {N f : Nat} {V : Type} [DecidableEq V] {v : V}

/-- The invariant of a party. -/
structure CrashOk (f : Nat) (v : V) (hist : List (Net.Envelope (Fin N) (Proof V))) (p : Fin N) (s : McState N V) :
    Prop where
  loop : ∀ m, s.phase = .loop m → m = v
  few : (∀ m, s.phase ≠ .returned m) → s.senders.card < f + 1
  returned : ∀ m, s.phase = .returned m → m = v
  taken : ∀ e ∈ hist, e.dst = p → (PyId.int (e.src : Nat)).str ∈ s.senders

/-- What a party past its input has sent. -/
def Sent (v : V) (p : Fin N) (s : McState N V) (_ : Fin N) (msg : Proof V) : Prop :=
  s.phase ≠ .input ∧ msg = ⟨.int (p : Nat), v⟩

theorem multicast_wake {input : Fin N → V} {p : Fin N} {t : Unit} {s s' : McState N V} {out : List (Fin N × Proof V)}
    (h : (multicast f input).wake p t s = some (s', out)) :
    s.phase = .input ∧ s' = (start p (input p) s).1 ∧ out = (start p (input p) s).2 := by
  simp only [multicast] at h
  split at h
  · rename_i hin
    cases h
    exact ⟨hin, rfl, rfl⟩
  · cases h

theorem multicast_recv {input : Fin N → V} {p q : Fin N} {s s' : McState N V} {msg : Proof V}
    {out : List (Fin N × Proof V)} (h : (multicast f input).recv p s q msg = some (s', out)) :
    ∃ m, s.phase = .loop m ∧ s' = onProof f q msg m s ∧ out = [] := by
  simp only [multicast] at h
  split at h
  · rename_i m hm
    cases h
    exact ⟨m, hm, rfl, rfl⟩
  · cases h

/-- **Taking one vote.** -/
theorem onProof_crash {hist : List (Net.Envelope (Fin N) (Proof V))} {e : Net.Envelope (Fin N) (Proof V)}
    {s : McState N V} (h : CrashOk f v hist e.dst s) (hp : s.phase = .loop v) (hm : e.msg = ⟨.int (e.src : Nat), v⟩) :
    CrashOk f v (e :: hist) e.dst (onProof f e.src e.msg v s) := by
  have hnot : ∀ m, s.phase ≠ .returned m := fun m => by rw [hp]; nofun
  unfold onProof
  rw [hm]
  split
  · rename_i hold
    refine { h with taken := fun x hx hdst => ?_ }
    rcases List.mem_cons.1 hx with rfl | hx
    · exact hold
    · exact h.taken x hx hdst
  · simp only [addVote, if_true]
    have htaken : ∀ x ∈ e :: hist, x.dst = e.dst →
        (PyId.int (x.src : Nat)).str ∈ insert (PyId.int (e.src : Nat)).str s.senders := by
      intro x hx hdst
      rcases List.mem_cons.1 hx with rfl | hx
      · exact Finset.mem_insert_self _ _
      · exact Finset.mem_insert_of_mem (h.taken x hx hdst)
    split
    · exact ⟨nofun, fun hc => absurd rfl (hc v), fun m hr => (McPhase.returned.inj hr).symm, htaken⟩
    · rename_i hfew
      exact ⟨h.loop, fun _ => Nat.lt_of_not_le hfew, h.returned, htaken⟩

/-- **The invariant of `multicast` when parties only stop.** -/
theorem multicast_crash (f : Nat) (v : V) : Net.Preserved (multicast f (fun _ : Fin N => v)) ∅ (fun _ _ => True)
    (fun _ _ => True) (fun loc hist p => CrashOk f v hist p (loc p)) (fun _ e => e.msg = ⟨.int (e.src : Nat), v⟩) where
  grow_refl := fun _ => trivial
  grow_wake := fun _ _ _ _ _ _ => trivial
  grow_recv := fun _ _ _ _ _ _ _ => trivial
  local_mono := by
    intro loc loc' hist hist' p _ _ hh hp h
    rw [hp]
    exact { h with taken := fun e he hdst => h.taken e (hh e he hdst) hdst }
  msg_mono := fun _ _ _ _ h => h
  init := fun p _ => ⟨nofun, fun _ => Nat.succ_pos f, nofun, nofun⟩
  wake := by
    intro c p t s out loc' _ hp hL h hloc _
    obtain ⟨hin, rfl, rfl⟩ := multicast_wake h
    have hok := hL p hp
    rw [hloc, Function.update_self]
    refine ⟨⟨fun m hm => (McPhase.loop.inj hm).symm, fun _ => hok.few (by rw [hin]; nofun), nofun, hok.taken⟩,
      fun o ho => ?_⟩
    obtain ⟨i, -, rfl⟩ := List.mem_map.1 ho
    rfl
  recv := by
    intro c e s out loc' _ hp hL hW h hloc _
    obtain ⟨m, hm, rfl, rfl⟩ := multicast_recv h
    have hok := hL e.dst hp
    obtain rfl := hok.loop m hm
    rw [hloc, Function.update_self]
    exact ⟨onProof_crash hok hm (hW (Finset.notMem_empty _)), fun o ho => absurd ho List.not_mem_nil⟩

theorem multicast_delivers (f : Nat) (v : V) (faulty : Finset (Fin N)) :
    Net.Delivers (multicast f (fun _ : Fin N => v)) faulty (Sent v) where
  init := fun p q m hs => hs.1 rfl
  wake := by
    intro c p t s out q m _ h hs
    obtain ⟨-, rfl, rfl⟩ := multicast_wake h
    exact Or.inr (List.mem_map.2 ⟨q, List.mem_finRange q, by rw [hs.2]⟩)
  recv := by
    intro c e s out q m _ _ h hs
    obtain ⟨m', hm', -, -⟩ := multicast_recv h
    exact Or.inl ⟨by rw [hm']; nofun, hs.2⟩

/-- What a party may still send, and its first step. -/
def fuel (s : McState N V) : Nat := if s.phase = .input then N + 1 else 0

theorem multicast_bounded (f : Nat) (input : Fin N → V) : Net.Bounded (multicast f input) fuel where
  wake := by
    intro p t s s' out h
    obtain ⟨hin, rfl, rfl⟩ := multicast_wake h
    simp [fuel, hin, start]
  recv := by
    intro p s q msg s' out h
    obtain ⟨m, hm, rfl, rfl⟩ := multicast_recv h
    have hphase : (onProof f q msg m s).phase ≠ .input := by
      have hadd : (addVote q msg m s).phase = s.phase := by unfold addVote; split <;> rfl
      unfold onProof
      split
      · rw [hm]; nofun
      · simp only
        split
        · nofun
        · rw [hadd, hm]; nofun
    simp [fuel, hphase]

end Multicast

open Multicast

/-- **With at most `f` parties stopped every running party returns the common value** once nothing moves. -/
theorem multicast_total {N f : Nat} {V : Type} [DecidableEq V] {v : V} {faulty : Finset (Fin N)}
    {c : Net.CrashConf (Fin N) (McState N V) (Proof V)} (hN : 2 * f + 1 ≤ N) (hfaulty : faulty.card ≤ f)
    (hc : Net.CrashReachable (multicast f (fun _ => v)) faulty c) (hquiet : Net.Quiescent (multicast f (fun _ => v)) c) :
    ∀ p ∉ c.stopped, (c.loc p).phase = .returned v := by
  have hok : ∀ p, CrashOk f v c.hist p (c.loc p) := fun p =>
    ((multicast_crash f v).crashRun hc).loc p (Finset.notMem_empty p)
  have hstopped : c.stopped.card ≤ f := (Finset.card_le_card hc.stopped_subset).trans hfaulty
  have hinput : ∀ p ∉ c.stopped, (c.loc p).phase ≠ .input := by
    intro p hp hin
    have := hquiet.1 p hp ()
    simp [multicast, hin] at this
  intro p hp
  cases hph : (c.loc p).phase with
  | input      => exact absurd hph (hinput p hp)
  | returned m => rw [(hok p).returned m hph]
  | loop m =>
    -- every running party's vote was taken
    have hsub : (Finset.univ.filter (· ∉ c.stopped)).image (fun q : Fin N => (PyId.int (q : Nat)).str) ⊆
        (c.loc p).senders := by
      intro t ht
      obtain ⟨q, hq, rfl⟩ := Finset.mem_image.1 ht
      have hq : q ∉ c.stopped := (Finset.mem_filter.1 hq).2
      refine (hok p).taken _ ((multicast_delivers f v faulty).delivered hc hquiet hq hp ⟨hinput q hq, rfl⟩ ?_) rfl
      simp [multicast, hph]
    have hcard := Finset.card_le_card hsub
    rw [Finset.card_image_of_injective _ (fun q q' h => Fin.ext (PyId.str_natCast_inj h))] at hcard
    have hlive := Quorum.card_univ_le c.stopped
    rw [Fintype.card_fin] at hlive
    have hfew := (hok p).few (by simp [hph])
    omega

end Dpid
