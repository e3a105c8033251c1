import Dpid.TylerInv
import Mathlib
/-!
# TylerConsistent — the values that pass through the phases of `tylerba`

The wait for `AUXSET`s has a third exit: neither bit alone has `N - f` senders, the keys within `bin_values` have them
together (`ThirdExit`).  It returns `2`, for which the tables of the second broadcast have a place, and the party sends
`EST2` with it; `_recv` asserts that an `EST2` carries a bit.  And `tylerba_beacon` gives no bit to `decide` but a pair.
In the runs in which no party takes that exit, nor decides in `tylerba_beacon`, no message makes `_recv` raise, every
round starts from a bit and a bit is decided.
-/
namespace Dpid
namespace Tyler

variable {N f : Nat} {file : TylerFile} {next : Finset Int → Int} {coin : Nat → Except Exn Int} {vi : Fin N → Int}

section Statements

/-- Neither bit has `N - f` senders of `AUXSET`, the keys within `bin_values[r]` have them together. -/
def ThirdExit (f : Nat) (r : Nat) (s : TylerState N) : Prop :=
  ¬ (1 ∈ s.bv.bin r ∧ N - f ≤ (s.auxsetValues r 1).card) ∧ ¬ (0 ∈ s.bv.bin r ∧ N - f ≤ (s.auxsetValues r 0).card) ∧
    N - f ≤ ((([0, 1, 2] : List Int).filter (fun w => auxsetKey w ⊆ s.bv.bin r)).map
      (fun w => (s.auxsetValues r w).card)).sum

instance decidableThirdExit (f : Nat) (r : Nat) (s : TylerState N) : Decidable (ThirdExit f r s) :=
  inferInstanceAs (Decidable (_ ∧ _ ∧ _))

/-- The main task stands in the wait for `AUXSET`s, at its third exit. -/
def AtThirdExit (f : Nat) (s : TylerState N) : TylerPhase → Prop
  | .wait r .auxset => ThirdExit f r s
  | _               => False

instance decidableAtThirdExit (f : Nat) (s : TylerState N) : (ph : TylerPhase) → Decidable (AtThirdExit f s ph)
  | .wait r .auxset => inferInstanceAs (Decidable (ThirdExit f r s))
  | .wait _ .bin | .wait _ .aux | .wait _ .bin2 | .wait _ .aux2 | .wait _ .coin => isFalse id
  | .input | .returned | .raised _ => isFalse id

/-- A party that has not decided has, for a bit that the second broadcast has given, `N - f` senders of `AUX2`. -/
def Decides (f : Nat) (r : Nat) (s : TylerState N) : Prop :=
  s.alreadyDecided = none ∧ (1 ∈ s.bv2.bin r ∧ N - f ≤ (s.auxValues2 r 1).card ∨
    0 ∈ s.bv2.bin r ∧ N - f ≤ (s.auxValues2 r 0).card)

instance decidableDecides (f : Nat) (r : Nat) (s : TylerState N) : Decidable (Decides f r s) :=
  inferInstanceAs (Decidable (_ ∧ (_ ∧ _ ∨ _ ∧ _)))

/-- The main task stands in the wait for `AUX2`s, about to decide. -/
def AtDecision (f : Nat) (s : TylerState N) : TylerPhase → Prop
  | .wait r .aux2 => Decides f r s
  | _             => False

instance decidableAtDecision (f : Nat) (s : TylerState N) : (ph : TylerPhase) → Decidable (AtDecision f s ph)
  | .wait r .aux2 => inferInstanceAs (Decidable (Decides f r s))
  | .wait _ .bin | .wait _ .aux | .wait _ .auxset | .wait _ .bin2 | .wait _ .coin => isFalse id
  | .input | .returned | .raised _ => isFalse id

/-- No main task that takes a step stands at the third exit, nor, in `tylerba_beacon`, at a decision. -/
def Fits (file : TylerFile) (f : Nat) (c : Net.Conf (Fin N) (TylerState N) Int) : Net.Label (Fin N) Unit Int → Prop
  | .wake p _ => ¬ AtThirdExit f (c.loc p) (c.loc p).phase ∧
      (file = .tylerba2 ∨ ¬ AtDecision f (c.loc p) (c.loc p).phase)
  | _         => True

instance decidableFits (file : TylerFile) (f : Nat) (c : Net.Conf (Fin N) (TylerState N) Int) :
    (l : Net.Label (Fin N) Unit Int) → Decidable (Fits file f c l)
  | .wake p _ => inferInstanceAs (Decidable (¬ AtThirdExit f (c.loc p) (c.loc p).phase ∧
      (file = .tylerba2 ∨ ¬ AtDecision f (c.loc p) (c.loc p).phase)))
  | .recv _   => isTrue trivial
  | .inject _ => isTrue trivial

/-- No task of the party has raised; rounds start from bits and bits are decided. -/
structure Consistent (s : TylerState N) : Prop where
  recv : ∀ e, s.recv ≠ .raised e
  phase : ∀ e, s.phase ≠ .raised e
  started : ∀ x ∈ s.started, x.2 = 0 ∨ x.2 = 1
  decisions : ∀ d ∈ s.decisions, d = .value 0 ∨ d = .value 1

end Statements

/-- **The third exit is the one that returns `2`.** -/
theorem auxsetExit_eq_two {r : Nat} {s : TylerState N} : auxsetExit f r s = some 2 ↔ ThirdExit f r s := by
  unfold auxsetExit ThirdExit
  constructor
  · intro h
    split at h
    · cases h
    · rename_i hone
      split at h
      · cases h
      · rename_i hzero
        split at h
        · rename_i hsum
          exact ⟨hone, hzero, hsum⟩
        · cases h
  · rintro ⟨hone, hzero, hsum⟩
    rw [if_neg hone, if_neg hzero, if_pos hsum]

/-! ## What no step undoes -/

/-- What a party has sent in `AUXSET` stands. -/
def Grow (s s' : TylerState N) : Prop := ∀ r v, s.auxsetSent r = some v → s'.auxsetSent r = some v

/-- One value was given to `decide`, or none. -/
def Decided (file : TylerFile) (s s' : TylerState N) : Prop :=
  s'.decisions = s.decisions ∨ ∃ v, s'.decisions = file.decision v :: s.decisions

/-- A step of the main task: `AUXSET`s stand, `_recv` is left alone or cancelled, one value is decided at most. -/
structure Keeps (file : TylerFile) (s s' : TylerState N) : Prop where
  grow : Grow s s'
  recv : s'.recv = s.recv ∨ s'.recv = cancel s.recv
  decided : Decided file s s'

section Step

variable {s s' : TylerState N} {r : Nat}

theorem Keeps.of_eq (hsent : s'.auxsetSent = s.auxsetSent) (hrecv : s'.recv = s.recv ∨ s'.recv = cancel s.recv)
    (hdecided : Decided file s s') : Keeps file s s' :=
  ⟨fun r v h => by rw [hsent]; exact h, hrecv, hdecided⟩

theorem startRound_keeps (r : Nat) (est : Int) (hsent : s'.auxsetSent = s.auxsetSent) (hrecv : s'.recv = s.recv)
    (hdecided : Decided file s s') : Keeps file s (startRound r est s').1 := by
  unfold startRound
  simp only
  split
  · exact .of_eq hsent (Or.inr (congrArg cancel hrecv)) hdecided
  · split <;> exact .of_eq hsent (Or.inl hrecv) hdecided

theorem onInput_keeps (v : Int) (s : TylerState N) : Keeps file s (onInput v s).1 := by
  unfold onInput
  split
  · exact startRound_keeps 0 v rfl rfl (Or.inl rfl)
  · exact .of_eq rfl (Or.inr rfl) (Or.inl rfl)

theorem onAuxExit_keeps (values : Finset Int) (s : TylerState N) : Keeps file s (onAuxExit r values s).1 := by
  unfold onAuxExit
  split
  · exact .of_eq rfl (Or.inr rfl) (Or.inl rfl)
  · rename_i hnone
    refine ⟨fun r' v h => ?_, Or.inl rfl, Or.inl rfl⟩
    have hr : r' ≠ r := by
      rintro rfl
      rw [h] at hnone
      exact hnone rfl
    show Function.update s.auxsetSent r (some (auxsetCode values)) r' = some v
    rw [Function.update_of_ne hr]
    exact h

theorem onAuxsetExit_keeps (est2 : Int) (s : TylerState N) : Keeps file s (onAuxsetExit r est2 s).1 := by
  unfold onAuxsetExit
  split
  · exact .of_eq rfl (Or.inr rfl) (Or.inl rfl)
  · split <;> exact .of_eq rfl (Or.inl rfl) (Or.inl rfl)

theorem onValue_keeps (v : Int) (s : TylerState N) : Keeps file s (onValue file r v s).1 := by
  unfold onValue
  simp only
  split
  · exact .of_eq rfl (Or.inl rfl) (Or.inl rfl)
  · split
    · exact startRound_keeps (r + 1) v rfl rfl (Or.inr ⟨v, rfl⟩)
    · split
      · exact .of_eq rfl (Or.inr rfl) (Or.inl rfl)
      · exact startRound_keeps (r + 1) v rfl rfl (Or.inl rfl)

theorem onValues_keeps (values2 : Finset Int) (s : TylerState N) :
    Keeps file s (onValues file next r values2 s).1 := by
  unfold onValues
  split
  · exact .of_eq rfl (Or.inr rfl) (Or.inl rfl)
  · cases file with
    | tylerba2   => exact .of_eq rfl (Or.inr rfl) (Or.inl rfl)
    | beacon sid => exact startRound_keeps (r + 1) _ rfl rfl (Or.inl rfl)

theorem onAux2Exit_keeps (values2 : Except Exn (Finset Int)) (s : TylerState N) :
    Keeps file s (onAux2Exit file next r values2 s).1 := by
  unfold onAux2Exit
  split
  · exact .of_eq rfl (Or.inr rfl) (Or.inl rfl)
  · split
    · exact onValue_keeps _ s
    · exact onValues_keeps _ s

theorem onWait_keeps (w : TylerWait) (s : TylerState N) : Keeps file s (onWait file next coin f r s w).1 := by
  have hblock : Keeps file s (block w s) := by cases w <;> exact .of_eq rfl (Or.inl rfl) (Or.inl rfl)
  cases w with
  | bin | bin2 =>
    rw [onWait]
    split
    · exact hblock
    · exact .of_eq rfl (Or.inl rfl) (Or.inl rfl)
  | aux    =>
    rw [onWait]
    cases auxExit f r s with
    | none        => exact hblock
    | some values => exact onAuxExit_keeps values s
  | auxset =>
    rw [onWait]
    cases auxsetExit f r s with
    | none      => exact hblock
    | some est2 => exact onAuxsetExit_keeps est2 s
  | aux2   =>
    rw [onWait]
    cases aux2Exit f r s with
    | none         => exact hblock
    | some values2 => exact onAux2Exit_keeps values2 s
  | coin   =>
    rw [onWait]
    unfold onCoin
    split
    · exact .of_eq rfl (Or.inr rfl) (Or.inl rfl)
    · exact startRound_keeps (r + 1) _ rfl rfl (Or.inl rfl)

theorem mainStep_keeps {v : Int} {out : List (Fin N × Int)} (h : mainStep file next coin f v s = some (s', out)) :
    Keeps file s s' := by
  unfold mainStep at h
  split at h
  · have hkeeps : Keeps file s (onInput v s).1 := onInput_keeps v s
    rw [Option.some.inj h] at hkeeps
    exact hkeeps
  · split at h
    · cases h
    · rename_i r w _ _
      have hkeeps : Keeps file s (onWait file next coin f r s w).1 := onWait_keeps w s
      rw [Option.some.inj h] at hkeeps
      exact hkeeps
  · cases h

/-- `_recv` sends no `AUXSET` and decides nothing. -/
theorem onMsg_frame (q : Fin N) (msg : Int) (s : TylerState N) :
    (onMsg f q msg s).1.auxsetSent = s.auxsetSent ∧ (onMsg f q msg s).1.decisions = s.decisions := by
  have hprocess : ∀ tag v r x, process f q tag v r s = .ok x →
      x.1.auxsetSent = s.auxsetSent ∧ x.1.decisions = s.decisions := by
    intro tag v r x hx
    have hmap : ∀ {α : Type} {res : Except Exn α} {g : α → TylerState N × List (Fin N × Int)},
        (∀ a, (g a).1.auxsetSent = s.auxsetSent ∧ (g a).1.decisions = s.decisions) → res.map g = .ok x →
          x.1.auxsetSent = s.auxsetSent ∧ x.1.decisions = s.decisions := by
      intro α res g hg h
      cases res with
      | error e => cases h
      | ok a    => exact Except.ok.inj h ▸ hg a
    unfold process at hx
    split at hx
    · exact hmap (fun _ => ⟨rfl, rfl⟩) hx
    · split at hx
      · exact hmap (fun _ => ⟨rfl, rfl⟩) hx
      · split at hx
        · exact hmap (fun _ => ⟨rfl, rfl⟩) hx
        · split at hx
          · exact hmap (fun _ => ⟨rfl, rfl⟩) hx
          · split at hx
            · exact hmap (fun _ => ⟨rfl, rfl⟩) hx
            · exact Except.ok.inj hx ▸ ⟨rfl, rfl⟩
  unfold onMsg
  simp only
  split
  · rename_i x hx
    exact hprocess _ _ _ x hx
  · exact ⟨rfl, rfl⟩

end Step

/-! ## Runs -/

/-- The values that the parties have sent in `AUXSET`. -/
def SentAuxset (loc : Fin N → TylerState N) (q : Fin N) (r v : Int) : Prop := (loc q).auxsetSent r = some v

theorem SentAuxset.unique {loc : Fin N → TylerState N} {q : Fin N} {r v v' : Int} (h : SentAuxset loc q r v)
    (h' : SentAuxset loc q r v') : v = v' :=
  Option.some.inj (h.symm.trans h')

/-- A message is one of the protocol's, and stands for what it says. -/
def MsgOk (f : Nat) (loc : Fin N → TylerState N) (e : Net.Envelope (Fin N) Int) : Prop :=
  ∃ tag v r, e.msg = encodeMsg tag v r ∧ Means f (SentAuxset loc) (loc e.src) tag v r

/-- What a party has sent. -/
def Sent (s : TylerState N) (m : Int) : Prop :=
  ∃ tag v r, (0 ≤ v ∧ v ≤ 9) ∧ m = encodeMsg tag v r ∧ Told s tag v r

section Run

variable {loc loc' : Fin N → TylerState N} {c : Net.Conf (Fin N) (TylerState N) Int} {p : Fin N} {s s' : TylerState N}
  {out : List (Fin N × Int)}

theorem Means.mono {R R' : Fin N → Int → Int → Prop} {tag : ABAMsgType} {v r : Int} (h : Means f R s tag v r)
    (hR : ∀ q r v, R q r v → R' q r v) (hg : Grow s s') : Means f R' s' tag v r := by
  cases tag with
  | aux | aux2 | est => exact h
  | est2             => exact ⟨h.1, h.2.mono hR⟩
  | auxset           => exact ⟨h.1, hg r v h.2⟩

theorem MsgOk.mono {e : Net.Envelope (Fin N) Int} (h : MsgOk f loc e) (hg : ∀ q, Grow (loc q) (loc' q)) :
    MsgOk f loc' e := by
  obtain ⟨tag, v, r, hmsg, hmeans⟩ := h
  exact ⟨tag, v, r, hmsg, hmeans.mono (fun q => hg q) (hg e.src)⟩

theorem Tells.msgOk (h : Tells f (SentAuxset loc) s (loc p) out) : ∀ o ∈ out, MsgOk f loc ⟨p, o.1, o.2⟩ := by
  intro o ho
  rcases h.sends with rfl | ⟨tag, v, r, rfl, hmeans, -, -⟩
  · cases ho
  · obtain ⟨i, -, rfl⟩ := List.mem_map.1 ho
    exact ⟨tag, v, r, rfl, hmeans⟩

/-- **What a party says is new**, and it says it once to each. -/
theorem Tells.fresh {R : Fin N → Int → Int → Prop} (h : Tells f R s s' out) : Net.Fresh Sent s s' out := by
  have hkeeps : ∀ m, Sent s m → Sent s' m := by
    rintro m ⟨tag, v, r, hdigit, hmsg, htold⟩
    exact ⟨tag, v, r, hdigit, hmsg, h.keeps tag v r htold⟩
  rcases h.sends with rfl | ⟨tag, v, r, rfl, hmeans, hnew, htold⟩
  · exact ⟨List.nodup_nil, nofun, nofun, hkeeps⟩
  · refine ⟨?_, fun o ho => ?_, fun o ho => ?_, hkeeps⟩
    · exact (List.nodup_finRange N).map (fun i j hij => (Prod.mk.inj hij).1)
    · obtain ⟨i, -, rfl⟩ := List.mem_map.1 ho
      rintro ⟨tag', v', r', hdigit, hmsg, hold⟩
      obtain ⟨rfl, rfl, rfl⟩ := encodeMsg_inj hmeans.digit.1 hmeans.digit.2 hdigit.1 hdigit.2 hmsg
      exact hnew hold
    · obtain ⟨i, -, rfl⟩ := List.mem_map.1 ho
      exact ⟨tag, v, r, hmeans.digit, rfl, htold⟩

theorem Fits.not_third (hok : Fits file f c (.wake p ())) :
    ∀ r, (c.loc p).phase = .wait r .auxset → auxsetExit f r (c.loc p) ≠ some 2 := by
  intro r hph htwo
  have hthird : ¬ AtThirdExit f (c.loc p) (c.loc p).phase := hok.1
  rw [hph] at hthird
  exact hthird (auxsetExit_eq_two.1 htwo)

/-- **What is decided is the bit itself.** -/
theorem Fits.decision (hok : Fits file f c (.wake p ())) :
    ∀ r v, (c.loc p).phase = .wait r .aux2 → Bit v →
      v ∈ (c.loc p).bv2.bin r ∧ N - f ≤ ((c.loc p).auxValues2 r v).card → (c.loc p).alreadyDecided = none →
      file.decision v = .value v := by
  intro r v hph hv hsent hnone
  rcases hok.2 with rfl | hnot
  · rfl
  · rw [hph] at hnot
    refine absurd ⟨hnone, ?_⟩ hnot
    rcases hv with rfl | rfl
    · exact Or.inr hsent
    · exact Or.inl hsent

theorem wake_ok (hN : 2 * f < N) (hnext : ∀ S : Finset Int, S.Nonempty → next S ∈ S) {v : Int} (hv : Bit v)
    (h : PartyOk f (SentAuxset c.loc) c.hist p (c.loc p)) (hok : Fits file f c (.wake p ()))
    (hs : mainStep file next coin f v (c.loc p) = some (s, out)) (hg : ∀ q, Grow (c.loc q) (loc' q)) :
    PartyOk f (SentAuxset loc') c.hist p s ∧ Tells f (SentAuxset loc') (c.loc p) s out :=
  mainStep_ok (h.mono (fun q => hg q) (fun _ he => he)) hnext hN (fun _ _ _ _ => SentAuxset.unique) hv hok.not_third hok.decision hs

theorem recv_ok {e : Net.Envelope (Fin N) Int} (h : PartyOk f (SentAuxset c.loc) c.hist e.dst (c.loc e.dst))
    (he : MsgOk f c.loc e) (hg : ∀ q, Grow (c.loc q) (loc' q)) :
    PartyOk f (SentAuxset loc') (e :: c.hist) e.dst (onMsg f e.src e.msg (c.loc e.dst)).1 ∧
      Tells f (SentAuxset loc') (c.loc e.dst) (onMsg f e.src e.msg (c.loc e.dst)).1
        (onMsg f e.src e.msg (c.loc e.dst)).2 ∧
      (e ∉ c.hist → (onMsg f e.src e.msg (c.loc e.dst)).1.recv = (c.loc e.dst).recv) := by
  obtain ⟨src, dst, msg⟩ := e
  obtain ⟨tag, v, r, rfl, hmeans⟩ := he
  have hparty := h.mono (fun q => hg q) (fun _ he => he)
  obtain ⟨hok, htells, hrecv⟩ := onMsg_ok hparty (hmeans.mono (fun q => hg q) (fun _ _ hv => hv)) (hg src)
  exact ⟨hok, htells, fun hnew => hrecv (fun hmem => hnew (hparty.heard tag r v src hmem))⟩

theorem tylerba_recv {q : Fin N} {m : Int} (h : (tylerba file next coin f vi).recv p s q m = some (s', out)) :
    s.recv = .running ∧ onMsg f q m s = (s', out) := by
  change (if s.recv = .running then some (onMsg f q m s) else none) = some (s', out) at h
  split at h
  · rename_i hrun
    exact ⟨hrun, Option.some.inj h⟩
  · cases h

theorem tylerba_preserved (file : TylerFile) (coin : Nat → Except Exn Int) (hN : 2 * f < N)
    (hnext : ∀ S : Finset Int, S.Nonempty → next S ∈ S) (hvi : ∀ p, Bit (vi p)) :
    Net.Preserved (tylerba file next coin f vi) ∅ (Fits file f) Grow
      (fun loc hist p => PartyOk f (SentAuxset loc) hist p (loc p)) (MsgOk f) where
  grow_refl := fun _ _ _ h => h
  grow_wake := fun _ _ _ _ _ h => (mainStep_keeps h).grow
  grow_recv := by
    intro p s q m s' out h
    obtain ⟨-, heq⟩ := tylerba_recv h
    have hsent := (onMsg_frame (f := f) q m s).1
    rw [heq] at hsent
    exact fun r v hv => by rw [hsent]; exact hv
  local_mono := by
    intro loc loc' hist hist' p hg hsub _ hp h
    rw [hp]
    exact h.mono (fun q => hg q) hsub
  msg_mono := fun _ _ _ hg h => h.mono hg
  init := fun p _ => partyOk_init _ p
  wake := by
    intro c p t s out loc' hok hp hL h hloc hg
    have hself : loc' p = s := by rw [hloc, Function.update_self]
    obtain ⟨hparty, htells⟩ := wake_ok hN hnext (hvi p) (hL p hp) hok h hg
    rw [hself]
    refine ⟨hparty, Tells.msgOk (s := c.loc p) ?_⟩
    rw [hself]
    exact htells
  recv := by
    intro c e s out loc' _ hp hL hW h hloc hg
    have hself : loc' e.dst = s := by rw [hloc, Function.update_self]
    obtain ⟨-, heq⟩ := tylerba_recv h
    obtain ⟨hparty, htells, -⟩ := recv_ok (hL e.dst hp) (hW (Finset.notMem_empty _)) hg
    rw [heq] at hparty htells
    rw [hself]
    refine ⟨hparty, Tells.msgOk (s := c.loc e.dst) ?_⟩
    rw [hself]
    exact htells

/-- **No message of `tylerba` is sent twice.** -/
theorem tylerba_once (hN : 2 * f < N) (hnext : ∀ S : Finset Int, S.Nonempty → next S ∈ S) (hvi : ∀ p, Bit (vi p)) :
    Net.Once (tylerba file next coin f vi) (Fits file f)
      (Net.Holds ∅ (fun loc hist p => PartyOk f (SentAuxset loc) hist p (loc p)) (MsgOk f)) Sent where
  wake := by
    intro c p t s out hI hok h
    have hg := (tylerba_preserved file coin hN hnext hvi).grow_update c.loc p s (mainStep_keeps h).grow
    exact (wake_ok hN hnext (hvi p) (hI.loc p (Finset.notMem_empty p)) hok h hg).2.fresh
  recv := by
    intro c e s out hI _ he h
    have hpres := tylerba_preserved file coin hN hnext hvi
    have hg := hpres.grow_update c.loc e.dst s (hpres.grow_recv _ _ _ _ _ _ h)
    obtain ⟨-, heq⟩ := tylerba_recv h
    have hmsg := recv_ok (hI.loc e.dst (Finset.notMem_empty _)) (hI.net e he (Finset.notMem_empty _)) hg
    rw [heq] at hmsg
    exact hmsg.2.1.fresh

/-- **No `_recv` raises**: what is in flight has not been delivered, so it is not recorded. -/
theorem recv_never_raised (hN : 2 * f < N) (hnext : ∀ S : Finset Int, S.Nonempty → next S ∈ S) (hvi : ∀ p, Bit (vi p))
    (hc : Net.Run (tylerba file next coin f vi) ∅ (Fits file f) c) (p : Fin N) (e : Exn) :
    (c.loc p).recv ≠ .raised e := by
  have hpres := tylerba_preserved file coin hN hnext hvi
  induction hc generalizing p e with
  | start => nofun
  | @step c c' l hc hok hs ih =>
    cases hs with
    | @wake q t s out hq h =>
      show (Function.update c.loc q s p).recv ≠ .raised e
      by_cases hp : p = q
      · subst hp
        rw [Function.update_self]
        intro hraised
        rcases (mainStep_keeps h).recv with hrecv | hrecv
        · exact ih p e (hrecv ▸ hraised)
        · rw [hrecv] at hraised
          cases hph : (c.loc p).recv with
          | running   => rw [hph] at hraised; cases hraised
          | killed    => rw [hph] at hraised; cases hraised
          | raised e' => exact ih p e' hph
      · rw [Function.update_of_ne hp]
        exact ih p e
    | @recv x rest s out hx hperm h =>
      show (Function.update c.loc x.dst s p).recv ≠ .raised e
      by_cases hp : p = x.dst
      · subst hp
        rw [Function.update_self]
        have hmem : x ∈ c.net := (hperm.mem_iff).2 List.mem_cons_self
        have hall := hpres.run hc
        have hnew := ((tylerba_once hN hnext hvi).run (fun _ h => hpres.run h) hc).notMem_hist hmem
        have hg := hpres.grow_update c.loc x.dst s (hpres.grow_recv _ _ _ _ _ _ h)
        obtain ⟨-, -, hrecv⟩ := recv_ok (hall.loc x.dst hx) (hall.net x hmem (Finset.notMem_empty _)) hg
        obtain ⟨-, heq⟩ := tylerba_recv h
        have hsame := hrecv hnew
        rw [heq] at hsame
        intro hraised
        exact ih x.dst e (hsame ▸ hraised)
      · rw [Function.update_of_ne hp]
        exact ih p e
    | inject he => exact absurd he (Finset.notMem_empty _)

/-- **What is decided is of the file's kind**, in every run. -/
theorem decisions_kind {byz : Finset (Fin N)} (hc : Net.Reachable (tylerba file next coin f vi) byz c) (hp : p ∉ byz) :
    ∀ d ∈ (c.loc p).decisions, ∃ v, d = file.decision v := by
  have hpres : Net.Preserved (tylerba file next coin f vi) byz (fun _ _ => True) (fun _ _ => True)
      (fun loc _ p => ∀ d ∈ (loc p).decisions, ∃ v, d = file.decision v) (fun _ _ => True) := by
    refine ⟨fun _ => trivial, fun _ _ _ _ _ _ => trivial, fun _ _ _ _ _ _ _ => trivial, ?_, fun _ _ _ _ _ => trivial,
      fun _ _ => nofun, ?_, ?_⟩
    · intro loc loc' hist hist' p _ _ _ hloc h
      rw [hloc]
      exact h
    · intro c p t s out loc' _ hp hL h hloc _
      refine ⟨?_, fun _ _ => trivial⟩
      rw [hloc, Function.update_self]
      rcases (mainStep_keeps h).decided with hdec | ⟨v, hdec⟩
      · rw [hdec]
        exact hL p hp
      · rw [hdec]
        intro d hd
        rcases List.mem_cons.1 hd with rfl | hd
        · exact ⟨v, rfl⟩
        · exact hL p hp d hd
    · intro c e s out loc' _ hp hL _ h hloc _
      refine ⟨?_, fun _ _ => trivial⟩
      obtain ⟨-, heq⟩ := tylerba_recv h
      have hdec := (onMsg_frame (f := f) e.src e.msg (c.loc e.dst)).2
      rw [heq] at hdec
      rw [hloc, Function.update_self, hdec]
      exact hL e.dst hp
  exact (hpres.run hc).loc p hp

/-- **A party of `tylerba_beacon` that has decided is not consistent.** -/
theorem beacon_not_consistent {sid : String} {byz : Finset (Fin N)}
    (hc : Net.Reachable (tylerba (.beacon sid) next coin f vi) byz c) (hp : p ∉ byz) (hd : (c.loc p).decisions ≠ []) :
    ¬ Consistent (c.loc p) := by
  intro h
  obtain ⟨d, hmem⟩ := List.exists_mem_of_ne_nil _ hd
  obtain ⟨v, rfl⟩ := decisions_kind hc hp d hmem
  exact (h.decisions _ hmem).elim nofun nofun

end Run

end Tyler

open Tyler

/-- The least element; of small numbers it is the one a set iterates over first. -/
def smallest (S : Finset Int) : Int := if h : S.Nonempty then S.min' h else 0

theorem smallest_mem (S : Finset Int) (h : S.Nonempty) : smallest S ∈ S := by
  rw [smallest, dif_pos h]
  exact S.min'_mem h

/-- **The phases of `tylerba` fit together** while no party takes the third exit of the wait for `AUXSET`s and, in
`tylerba_beacon`, none decides. -/
theorem tylerba_consistent {N f : Nat} {file : TylerFile} {next : Finset Int → Int} {coin : Nat → Except Exn Int}
    {vi : Fin N → Int} {c : Net.Conf (Fin N) (TylerState N) Int} (hN : 2 * f < N)
    (hnext : ∀ S : Finset Int, S.Nonempty → next S ∈ S) (hvi : ∀ p, vi p = 0 ∨ vi p = 1)
    (hc : Net.Run (tylerba file next coin f vi) ∅ (Fits file f) c) (p : Fin N) : Consistent (c.loc p) := by
  have hparty := ((tylerba_preserved file coin hN hnext hvi).run hc).loc p (Finset.notMem_empty p)
  exact ⟨recv_never_raised hN hnext hvi hc p, hparty.alive, hparty.started, hparty.decisions⟩

/-- All inputs are 1: what three parties send in a phase is taken by `p₀`, which then decides. -/
def decidingRun (p₀ p₁ p₂ : Fin 4) : List (Net.Act (Fin 4) Unit Int) :=
  [.wake p₀ (), .wake p₁ (), .wake p₂ (), .recv 8, .recv 4, .recv 0, .recv 6, .recv 3, .recv 0, .recv 4, .recv 2,
    .recv 0, .wake p₀ (), .wake p₁ (), .wake p₂ (), .recv 8, .recv 4, .recv 0, .recv 6, .recv 3, .recv 0, .recv 4,
    .recv 2, .recv 0, .wake p₀ (), .wake p₁ (), .wake p₂ (), .recv 8, .recv 4, .recv 0, .recv 6, .recv 3, .recv 0,
    .recv 4, .recv 2, .recv 0, .wake p₀ (), .wake p₁ (), .wake p₂ (), .recv 8, .recv 4, .recv 0, .recv 6, .recv 3,
    .recv 0, .recv 4, .recv 2, .recv 0, .wake p₀ (), .wake p₁ (), .wake p₂ (), .recv 8, .recv 4, .recv 0, .wake p₀ ()]

/-- All inputs are 1: party 0 has decided in the first round. -/
theorem tylerba_consistent_four : ∃ c, Net.Run (tylerba .tylerba2 smallest (fun _ => .ok 0) 1 (fun _ : Fin 4 => 1)) ∅
    (Fits .tylerba2 1) c ∧ (c.loc 0).decisions = [.value 1] ∧ Consistent (c.loc 0) := by
  have hrun : (Net.exec (tylerba .tylerba2 smallest (fun _ => .ok 0) 1 (fun _ : Fin 4 => 1)) ∅
      (fun c l => decide (Fits .tylerba2 1 c l)) (decidingRun 0 1 2)
      (tylerba .tylerba2 smallest (fun _ => .ok 0) 1 (fun _ => 1)).start).any
        (fun c => decide ((c.loc 0).decisions = [.value 1])) = true := by
    decide +kernel
  obtain ⟨c, hc, hres⟩ := Net.exists_run_of_exec hrun (fun _ _ h => of_decide_eq_true h)
  exact ⟨c, hc, of_decide_eq_true hres,
    tylerba_consistent (by decide) smallest_mem (fun _ => Or.inr rfl) hc 0⟩

/-- With inputs 0, 0, 1 and 1 three parties send both bits in `AUXSET`, and party 1 hears an `EST2` with `2`; with all
inputs 1 party 0 of `tylerba_beacon` decides a pair. -/
theorem tylerba_consistent_counterexample :
    (¬ ∀ c, Net.Reachable (tylerba .tylerba2 smallest (fun _ => .ok 0) 1 ![0, 0, 1, 1]) ∅ c →
      ∀ p, Consistent (c.loc p)) ∧
    ¬ ∀ c, Net.Reachable (tylerba (.beacon "sid") smallest (fun _ => .ok 0) 1 (fun _ : Fin 4 => 1)) ∅ c →
      ∀ p, Consistent (c.loc p) := by
  constructor
  · intro h
    have hrun : (Net.exec (tylerba .tylerba2 smallest (fun _ => .ok 0) 1 ![0, 0, 1, 1]) ∅ (fun _ _ => true)
        [.wake 0 (), .wake 1 (), .wake 2 (), .wake 3 (), .recv 14, .recv 10, .recv 8, .recv 4, .recv 12, .recv 9,
          .recv 2, .wake 2 (), .recv 18, .recv 15, .recv 7, .wake 0 (), .recv 20, .recv 18, .recv 11, .wake 1 (),
          .recv 12, .recv 18, .recv 16, .recv 16, .recv 17, .recv 8, .recv 4, .recv 10, .wake 0 (), .recv 11, .recv 8,
          .recv 12, .wake 1 (), .recv 14, .recv 12, .recv 14, .wake 2 (), .recv 8, .recv 4, .recv 0, .wake 0 (),
          .recv 1]
        (tylerba .tylerba2 smallest (fun _ => .ok 0) 1 ![0, 0, 1, 1]).start).any
          (fun c => decide ((c.loc 1).recv = .raised .assertionError)) = true := by
      decide +kernel
    obtain ⟨c, hc, hres⟩ := Net.exists_run_of_exec hrun (fun _ _ _ => trivial)
    exact (h c hc 1).recv _ (of_decide_eq_true hres)
  · intro h
    have hrun : (Net.exec (tylerba (.beacon "sid") smallest (fun _ => .ok 0) 1 (fun _ : Fin 4 => 1)) ∅
        (fun _ _ => true) (decidingRun 0 1 2)
        (tylerba (.beacon "sid") smallest (fun _ => .ok 0) 1 (fun _ => 1)).start).any
          (fun c => decide ((c.loc 0).decisions = [.pair "sid" 1])) = true := by
      decide +kernel
    obtain ⟨c, hc, hres⟩ := Net.exists_run_of_exec hrun (fun _ _ _ => trivial)
    have hdec := (h c hc 0).decisions (.pair "sid" 1)
      (of_decide_eq_true hres ▸ List.mem_cons_self)
    exact hdec.elim nofun nofun

end Dpid
