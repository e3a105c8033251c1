import Dpid.NetCrash
import Dpid.Quorum
import Dpid.RbcVc
/-!
# RbcVcTotal — `rbc_vc_check` when parties only stop

All parties sign the same digest with the one key, so every signature verifies.  Nobody raises, and with at most `f` of
more than `2 f` parties stopped every running party returns its interval once nothing moves (`rbcVcCheck_total`).
-/
namespace Dpid
namespace RbcVc

variable {E : Curve} {H : Hash} {z : Zfec} {R : Rsa} {N f size : Nat} {target : Bytes} {S : List Bytes}
  {com : Int × Int}

/-- The invariant of a party. -/
structure CrashOk (E : Curve) (H : Hash) (f size : Nat) (S : List Bytes) (com : Int × Int)
    (hist : List (Net.Envelope (Fin N) Bytes)) (p : Fin N) (s : VcState N) : Prop where
  not_raised : ∀ e, s.phase ≠ .raised e
  prepared : s.phase ≠ .waiting → s.messages = S ∧ s.commitment = com
  readySenders : ∀ i ∈ s.readySenders, i ∈ s.ready
  few : (∀ share, s.phase ≠ .returned share) → s.ready.card < f + 1
  returned : ∀ share, s.phase = .returned share → ownShare E H com S size N p = .ok share
  taken : ∀ e ∈ hist, e.dst = p → e.src ∈ s.ready

/-- What a party past its wait has sent. -/
def Sent (H : Hash) (R : Rsa) (com : Int × Int) (_ : Fin N) (s : VcState N) (_ : Fin N) (sig : Bytes) : Prop :=
  s.phase ≠ .waiting ∧ sig = R.sign (dataSigned H com)

theorem rbcVcCheck_wake {p : Fin N} {t : Unit} {s s' : VcState N} {out : List (Fin N × Bytes)}
    (hprep : prepare E H z size target = .ok (S, com))
    (h : (rbcVcCheck E H z R f size (fun _ => target)).wake p t s = some (s', out)) :
    s.phase = .waiting ∧ s' = { s with phase := .loop, messages := S, commitment := com } ∧
      out = (List.finRange N).map (fun j => (j, R.sign (dataSigned H com))) := by
  simp only [rbcVcCheck, Option.ite_none_right_eq_some, Option.some.injEq, start, hprep, Prod.mk.injEq] at h
  exact ⟨h.1, h.2.1.symm, h.2.2.symm⟩

theorem rbcVcCheck_recv {target : Fin N → Bytes} {p q : Fin N} {s s' : VcState N} {sig : Bytes}
    {out : List (Fin N × Bytes)} (h : (rbcVcCheck E H z R f size target).recv p s q sig = some (s', out)) :
    s.phase = .loop ∧ s' = onVal E H R f size p q sig s ∧ out = [] := by
  simp only [rbcVcCheck, Option.ite_none_right_eq_some, Option.some.injEq, Prod.mk.injEq] at h
  exact ⟨h.1, h.2.1.symm, h.2.2.symm⟩

/-- **Taking one signature.** -/
theorem onVal_crash (hR : R.Lawful) (hshare : ∀ j : Fin N, ∃ share, ownShare E H com S size N j = .ok share)
    {hist : List (Net.Envelope (Fin N) Bytes)} {e : Net.Envelope (Fin N) Bytes} {s : VcState N}
    (h : CrashOk E H f size S com hist e.dst s) (hp : s.phase = .loop) (hm : e.msg = R.sign (dataSigned H com)) :
    CrashOk E H f size S com (e :: hist) e.dst (onVal E H R f size e.dst e.src e.msg s) := by
  obtain ⟨hS, hcom⟩ := h.prepared (by rw [hp]; nofun)
  unfold onVal
  split
  · rename_i hold
    refine { h with taken := fun x hx hdst => ?_ }
    rcases List.mem_cons.1 hx with rfl | hx
    · exact hold.elim id (h.readySenders _)
    · exact h.taken x hx hdst
  · rw [hcom, hm, hR]
    simp only [Bool.true_eq_false, if_false]
    have hsenders : ∀ i ∈ (addReady e.src s).readySenders, i ∈ (addReady e.src s).ready := fun i hi =>
      (Finset.mem_insert.1 hi).elim (fun he => he ▸ Finset.mem_insert_self _ _)
        (fun hi => Finset.mem_insert_of_mem (h.readySenders i hi))
    have htaken : ∀ x ∈ e :: hist, x.dst = e.dst → x.src ∈ (addReady e.src s).ready := by
      intro x hx hdst
      rcases List.mem_cons.1 hx with rfl | hx
      · exact Finset.mem_insert_self _ _
      · exact Finset.mem_insert_of_mem (h.taken x hx hdst)
    split
    · obtain ⟨share, hown⟩ := hshare e.dst
      have hown' : ownShare E H (addReady e.src s).commitment (addReady e.src s).messages size N e.dst = .ok share := by
        show ownShare E H s.commitment s.messages size N e.dst = .ok share
        rw [hS, hcom, hown]
      rw [hown']
      refine ⟨nofun, fun _ => ⟨hS, hcom⟩, hsenders, fun hc => absurd rfl (hc share), fun share' hs => ?_, htaken⟩
      cases hs
      exact hown
    · rename_i hfew
      exact ⟨h.not_raised, fun _ => ⟨hS, hcom⟩, hsenders, fun _ => by omega, h.returned, htaken⟩

section Runs

variable (hR : R.Lawful) (hprep : prepare E H z size target = .ok (S, com))
  (hshare : ∀ j : Fin N, ∃ share, ownShare E H com S size N j = .ok share)
include hR hprep hshare

/-- **The invariant of `rbc_vc_check` when parties only stop.** -/
theorem rbcVcCheck_crash : Net.Preserved (rbcVcCheck E H z R f size (fun _ : Fin N => target)) ∅ (fun _ _ => True)
    (fun _ _ => True) (fun loc hist p => CrashOk E H f size S com hist p (loc p))
    (fun _ e => e.msg = R.sign (dataSigned H com)) where
  grow_refl := fun _ => trivial
  grow_wake := fun _ _ _ _ _ _ => trivial
  grow_recv := fun _ _ _ _ _ _ _ => trivial
  local_mono := by
    intro loc loc' hist hist' p _ _ hh hp h
    rw [hp]
    exact { h with taken := fun e he hdst => h.taken e (hh e he hdst) hdst }
  msg_mono := fun _ _ _ _ h => h
  init := fun p _ => ⟨nofun, fun h => absurd rfl h, nofun, fun _ => Nat.succ_pos f, nofun, nofun⟩
  wake := by
    intro c p t s out loc' _ hp hL h hloc _
    obtain ⟨hw, rfl, rfl⟩ := rbcVcCheck_wake hprep h
    have hok := hL p hp
    rw [hloc, Function.update_self]
    refine ⟨⟨nofun, fun _ => ⟨rfl, rfl⟩, hok.readySenders, fun _ => hok.few (by rw [hw]; nofun), nofun, hok.taken⟩,
      fun o ho => ?_⟩
    obtain ⟨j, -, rfl⟩ := List.mem_map.1 ho
    rfl
  recv := by
    intro c e s out loc' _ hp hL hW h hloc _
    obtain ⟨hloop, rfl, rfl⟩ := rbcVcCheck_recv h
    rw [hloc, Function.update_self]
    exact ⟨onVal_crash hR hshare (hL e.dst hp) hloop (hW (Finset.notMem_empty _)), fun o ho => absurd ho List.not_mem_nil⟩

omit hR hshare in
theorem rbcVcCheck_delivers (faulty : Finset (Fin N)) :
    Net.Delivers (rbcVcCheck E H z R f size (fun _ : Fin N => target)) faulty (Sent H R com) where
  init := fun p q m hs => hs.1 rfl
  wake := by
    intro c p t s out q m _ h hs
    obtain ⟨-, rfl, rfl⟩ := rbcVcCheck_wake hprep h
    exact Or.inr (List.mem_map.2 ⟨q, List.mem_finRange q, by rw [hs.2]⟩)
  recv := by
    intro c e s out q m _ _ h hs
    obtain ⟨hloop, -, -⟩ := rbcVcCheck_recv h
    exact Or.inl ⟨by rw [hloop]; nofun, hs.2⟩

end Runs

/-- What a party may still send, and its first step. -/
def fuel (s : VcState N) : Nat := if s.phase = .waiting then N + 1 else 0

theorem onVal_phase (E : Curve) (H : Hash) (R : Rsa) (f size : Nat) (pid sender : Fin N) (sig : Bytes) {s : VcState N}
    (hs : s.phase = .loop) : (onVal E H R f size pid sender sig s).phase ≠ .waiting := by
  unfold onVal
  split
  · rw [hs]; nofun
  · split
    · rw [hs]; nofun
    · simp only
      split
      · split <;> nofun
      · show s.phase ≠ .waiting
        rw [hs]; nofun

theorem rbcVcCheck_bounded (E : Curve) (H : Hash) (z : Zfec) (R : Rsa) (f size : Nat) (target : Fin N → Bytes) :
    Net.Bounded (rbcVcCheck E H z R f size target) fuel where
  wake := by
    intro p t s s' out h
    simp only [rbcVcCheck, Option.ite_none_right_eq_some, Option.some.injEq] at h
    obtain ⟨hw, h⟩ := h
    unfold start at h
    split at h
    · cases h
      simp [fuel, hw]
    · cases h
      simp [fuel, hw]
  recv := by
    intro p s q m s' out h
    obtain ⟨hloop, rfl, rfl⟩ := rbcVcCheck_recv h
    simp [fuel, onVal_phase E H R f size p q m hloop]

end RbcVc

open RbcVc

section Total

variable {E : Curve} {H : Hash} {z : Zfec} {R : Rsa} {N f size : Nat} {target : Bytes} {S : List Bytes}
  {com : Int × Int} {faulty : Finset (Fin N)} {c : Net.CrashConf (Fin N) (VcState N) Bytes}

/-- **With at most `f` parties stopped every running party returns its interval** once nothing moves. -/
theorem rbcVcCheck_total (hN : 2 * f + 1 ≤ N) (hR : R.Lawful) (hprep : prepare E H z size target = .ok (S, com))
    (hshare : ∀ j : Fin N, ∃ share, ownShare E H com S size N j = .ok share) (hfaulty : faulty.card ≤ f)
    (hc : Net.CrashReachable (rbcVcCheck E H z R f size (fun _ => target)) faulty c)
    (hquiet : Net.Quiescent (rbcVcCheck E H z R f size (fun _ => target)) c) :
    ∀ p ∉ c.stopped, ∃ share, (c.loc p).phase = .returned share := by
  have hok : ∀ p, CrashOk E H f size S com c.hist p (c.loc p) := fun p =>
    ((rbcVcCheck_crash (N := N) (f := f) hR hprep hshare).crashRun hc).loc p (Finset.notMem_empty p)
  have hstopped : c.stopped.card ≤ f := (Finset.card_le_card hc.stopped_subset).trans hfaulty
  have hwaiting : ∀ p ∉ c.stopped, (c.loc p).phase ≠ .waiting := by
    intro p hp hw
    have := hquiet.1 p hp ()
    simp [rbcVcCheck, hw] at this
  intro p hp
  by_contra hret
  have hfew := (hok p).few (fun share hs => hret ⟨share, hs⟩)
  have hloop : (c.loc p).phase = .loop := by
    cases hph : (c.loc p).phase with
    | waiting        => exact absurd hph (hwaiting p hp)
    | loop           => rfl
    | returned share => exact absurd ⟨share, hph⟩ hret
    | raised e       => exact absurd hph ((hok p).not_raised e)
  -- every running party's signature was taken
  have hsub : Finset.univ.filter (· ∉ c.stopped) ⊆ (c.loc p).ready := by
    intro q hq
    have hq : q ∉ c.stopped := (Finset.mem_filter.1 hq).2
    refine (hok p).taken _ ((rbcVcCheck_delivers (R := R) (f := f) hprep faulty).delivered hc hquiet hq hp
      ⟨hwaiting q hq, rfl⟩ ?_) rfl
    simp [rbcVcCheck, hloop]
  have hle := Finset.card_le_card hsub
  have hlive := Quorum.card_univ_le c.stopped
  rw [Fintype.card_fin] at hlive
  omega

end Total

end Dpid
