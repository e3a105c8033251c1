import Dpid.AbaInv
import Dpid.NetOnce
import Dpid.Quorum
import Dpid.Tyler
import Mathlib
/-!
# TylerInv — what a step of `tylerba` may do while no wait for `AUXSET`s returns `2`

Then the estimate of the second broadcast is a bit that `N - f` parties sent in `AUXSET` (`Support`).  A party sends one
`AUXSET` in a round, so it is the same bit for all parties, and the second broadcast ends with that bit alone.
-/
namespace Dpid
namespace Tyler

open Aba (set2 set2_apply mem_set2_insert)

variable {N f : Nat} {file : TylerFile} {next : Finset Int → Int} {coin : Nat → Except Exn Int}

/-- `v in (0, 1)`. -/
def Bit (v : Int) : Prop := v = 0 ∨ v = 1

/-- A bit was given to `decide`. -/
def BitDecision (d : Decision) : Prop := d = .value 0 ∨ d = .value 1

/-- `N - f` parties have sent `v` in `AUXSET`. -/
def Support (f : Nat) (R : Fin N → Int → Int → Prop) (r v : Int) : Prop :=
  ∃ S : Finset (Fin N), N - f ≤ S.card ∧ ∀ q ∈ S, R q r v

theorem Support.mono {R R' : Fin N → Int → Int → Prop} (hR : ∀ q r v, R q r v → R' q r v) {r v : Int}
    (h : Support f R r v) : Support f R' r v := by
  obtain ⟨S, hcard, hS⟩ := h
  exact ⟨S, hcard, fun q hq => hR q r v (hS q hq)⟩

/-- **One value has support.** -/
theorem Support.unique (hN : 2 * f < N) {R : Fin N → Int → Int → Prop}
    (hR : ∀ q r v v', R q r v → R q r v' → v = v') {r v v' : Int} (h : Support f R r v) (h' : Support f R r v') :
    v = v' := by
  obtain ⟨S, hcard, hS⟩ := h
  obtain ⟨S', hcard', hS'⟩ := h'
  obtain ⟨q, hq, hq', -⟩ := Quorum.exists_good_inter ∅
    (show Fintype.card (Fin N) + (∅ : Finset (Fin N)).card < S.card + S'.card by
      rw [Fintype.card_fin, Finset.card_empty]
      omega)
  exact hR q r v v' (hS q hq) (hS' q hq')

/-! ## Messages -/

/-- **A message is read back**, if its value is one digit. -/
theorem parseMsg_encodeMsg (tag : ABAMsgType) {v : Int} (h0 : 0 ≤ v) (h9 : v ≤ 9) (r : Int) :
    parseMsg (encodeMsg tag v r) = (tag.code, v, r) := by
  have htag : 0 ≤ tag.code ∧ tag.code ≤ 9 := by cases tag <;> decide
  unfold parseMsg encodeMsg
  refine Prod.ext ?_ (Prod.ext ?_ ?_)
  · show (r * 100 + v * 10 + tag.code) % 10 = tag.code
    omega
  · show (r * 100 + v * 10 + tag.code) / 10 % 10 = v
    omega
  · show (r * 100 + v * 10 + tag.code) / 10 / 10 = r
    omega

theorem encodeMsg_inj {tag tag' : ABAMsgType} {v v' r r' : Int} (h0 : 0 ≤ v) (h9 : v ≤ 9) (h0' : 0 ≤ v') (h9' : v' ≤ 9)
    (h : encodeMsg tag v r = encodeMsg tag' v' r') : tag = tag' ∧ v = v' ∧ r = r' := by
  have hparse := (parseMsg_encodeMsg tag h0 h9 r).symm.trans (h ▸ parseMsg_encodeMsg tag' h0' h9' r')
  obtain ⟨hcode, hv, hr⟩ := Prod.mk.inj hparse |>.imp id Prod.mk.inj
  refine ⟨?_, hv, hr⟩
  cases tag <;> cases tag' <;> first | rfl | cases hcode

/-- The senders recorded for a tag. -/
def table (s : TylerState N) : ABAMsgType → Int → Int → Finset (Fin N)
  | .aux    => s.auxValues
  | .aux2   => s.auxValues2
  | .est    => s.bv.values
  | .est2   => s.bv2.values
  | .auxset => s.auxsetValues

/-- The place of a wait in its round. -/
def place : TylerWait → Nat
  | .bin    => 0
  | .aux    => 1
  | .auxset => 2
  | .bin2   => 3
  | .aux2   => 4
  | .coin   => 5

/-- The main task has come to the wait `w` of round `r`. -/
def Reached (w : TylerWait) (r : Int) : TylerPhase → Prop
  | .input     => False
  | .wait R w' => r < R ∨ (r = R ∧ place w ≤ place w')
  | _          => True

/-- What a party in state `s` has sent. -/
def Told (s : TylerState N) (tag : ABAMsgType) (v r : Int) : Prop :=
  match tag with
  | .aux    => Reached .aux r s.phase
  | .aux2   => Reached .aux2 r s.phase
  | .est    => s.bv.sent r v = true
  | .est2   => s.bv2.sent r v = true
  | .auxset => (s.auxsetSent r).isSome

/-- What a message of a party in state `s` stands for. -/
def Means (f : Nat) (R : Fin N → Int → Int → Prop) (s : TylerState N) (tag : ABAMsgType) (v r : Int) : Prop :=
  match tag with
  | .aux    => Bit v
  | .aux2   => Bit v
  | .est    => Bit v
  | .est2   => Bit v ∧ Support f R r v
  | .auxset => (Bit v ∨ v = 2) ∧ s.auxsetSent r = some v

/-- A step sends at most one message; it is new, and stands for what it says. -/
structure Tells (f : Nat) (R : Fin N → Int → Int → Prop) (s s' : TylerState N) (out : List (Fin N × Int)) : Prop where
  keeps : ∀ tag v r, Told s tag v r → Told s' tag v r
  sends : out = [] ∨ ∃ tag v r, out = broadcast (encodeMsg tag v r) ∧ Means f R s' tag v r ∧ ¬ Told s tag v r ∧
    Told s' tag v r

/-- The invariant of a party. -/
structure PartyOk (f : Nat) (R : Fin N → Int → Int → Prop) (hist : List (Net.Envelope (Fin N) Int)) (p : Fin N)
    (s : TylerState N) : Prop where
  started : ∀ x ∈ s.started, Bit x.2
  decisions : ∀ d ∈ s.decisions, BitDecision d
  bins : ∀ r, ∀ v ∈ s.bv.bin r, Bit v
  bins2 : ∀ r, ∀ v ∈ s.bv2.bin r, Bit v ∧ Support f R r v
  values2 : ∀ r v, ∀ q ∈ s.bv2.values r v, Support f R r v
  auxsets : ∀ r v, ∀ q ∈ s.auxsetValues r v, R q r v
  auxsetSent : ∀ r v, s.auxsetSent r = some v → Reached .auxset r s.phase
  heard : ∀ tag r v, ∀ q ∈ table s tag r v, ⟨q, p, encodeMsg tag v r⟩ ∈ hist
  noCoin : ∀ r, s.phase ≠ .wait r .coin
  alive : ∀ e, s.phase ≠ .raised e
  recv : ∀ e, s.recv = .raised e → e = .redundantMessageError

section Party

variable {R R' : Fin N → Int → Int → Prop} {hist hist' : List (Net.Envelope (Fin N) Int)} {p q : Fin N}
  {s s' : TylerState N} {r : Nat}

theorem Means.digit {tag : ABAMsgType} {v r : Int} (h : Means f R s tag v r) : 0 ≤ v ∧ v ≤ 9 := by
  have hsmall : Bit v ∨ v = 2 := by
    cases tag with
    | aux    => exact Or.inl h
    | aux2   => exact Or.inl h
    | est    => exact Or.inl h
    | est2   => exact Or.inl h.1
    | auxset => exact h.1
  rcases hsmall with (rfl | rfl) | rfl <;> decide

theorem partyOk_init (R : Fin N → Int → Int → Prop) (p : Fin N) : PartyOk f R [] p init where
  started := nofun
  decisions := nofun
  bins := fun _ _ hv => absurd hv (Finset.notMem_empty _)
  bins2 := fun _ _ hv => absurd hv (Finset.notMem_empty _)
  values2 := fun _ _ _ hq => absurd hq (Finset.notMem_empty _)
  auxsets := fun _ _ _ hq => absurd hq (Finset.notMem_empty _)
  auxsetSent := nofun
  heard := by
    intro tag r v q hq
    cases tag <;> exact absurd hq (Finset.notMem_empty _)
  noCoin := nofun
  alive := nofun
  recv := nofun

theorem PartyOk.mono (h : PartyOk f R hist p s) (hR : ∀ q r v, R q r v → R' q r v) (hsub : ∀ e ∈ hist, e ∈ hist') :
    PartyOk f R' hist' p s :=
  { h with
    bins2 := fun r v hv => ⟨(h.bins2 r v hv).1, (h.bins2 r v hv).2.mono hR⟩
    values2 := fun r v q hq => (h.values2 r v q hq).mono hR
    auxsets := fun r v q hq => hR q r v (h.auxsets r v q hq)
    heard := fun tag r v q hq => hsub _ (h.heard tag r v q hq) }

/-! ## The main task -/

/-- What `_recv` has written. -/
def received (s : TylerState N) :=
  (s.bv.values, s.bv.bin, s.bv2.values, s.bv2.bin, s.auxValues, s.auxValues2, s.auxsetValues)

theorem PartyOk.frame (h : PartyOk f R hist p s) (hrec : received s' = received s) (hstarted : ∀ x ∈ s'.started, Bit x.2)
    (hdecisions : ∀ d ∈ s'.decisions, BitDecision d) (hrecv : s'.recv = s.recv ∨ s'.recv = cancel s.recv)
    (hsent : ∀ r v, s'.auxsetSent r = some v → Reached .auxset r s'.phase) (hcoin : ∀ r, s'.phase ≠ .wait r .coin)
    (halive : ∀ e, s'.phase ≠ .raised e) : PartyOk f R hist p s' := by
  simp only [received, Prod.mk.injEq] at hrec
  obtain ⟨h1, h2, h3, h4, h5, h6, h7⟩ := hrec
  have htable : table s' = table s := by
    funext tag
    cases tag with
    | aux    => exact h5
    | aux2   => exact h6
    | est    => exact h1
    | est2   => exact h3
    | auxset => exact h7
  refine ⟨hstarted, hdecisions, ?_, ?_, ?_, ?_, hsent, ?_, hcoin, halive, ?_⟩
  · rw [h2]
    exact h.bins
  · rw [h4]
    exact h.bins2
  · rw [h3]
    exact h.values2
  · rw [h7]
    exact h.auxsets
  · rw [htable]
    exact h.heard
  · intro e he
    rcases hrecv with hrecv | hrecv
    · exact h.recv e (hrecv ▸ he)
    · rw [hrecv] at he
      cases hph : s.recv with
      | running   => rw [hph] at he; cases he
      | killed    => rw [hph] at he; cases he
      | raised e' =>
        rw [hph] at he
        cases he
        exact h.recv e hph

theorem pyIndex_bit {n : Nat} (hn : 2 ≤ n) {v : Int} (h : Bit v) : ∃ k : Nat, pyIndex n v = .ok k ∧ (k : Int) = v := by
  rcases h with rfl | rfl
  · exact ⟨0, pyIndex_natCast (k := 0) (by omega), rfl⟩
  · exact ⟨1, pyIndex_natCast (k := 1) (by omega), rfl⟩

theorem Reached.le {w w' w'' : TylerWait} {r' : Int} (h : Reached w r' (.wait r w')) (hle : place w' ≤ place w'') :
    Reached w r' (.wait r w'') := by
  rcases h with h | ⟨h, hp⟩
  · exact Or.inl h
  · exact Or.inr ⟨h, hp.trans hle⟩

/-- **The head of a round**, entered with a bit after the rounds before it. -/
theorem startRound_ok (h : PartyOk f R hist p s) {est : Int} (hbit : Bit est)
    (hpast : ∀ w r', Reached w r' s.phase → r' < r) :
    PartyOk f R hist p (startRound r est s).1 ∧ Tells f R s (startRound r est s).1 (startRound r est s).2 := by
  obtain ⟨k, hk, hkv⟩ := pyIndex_bit (Nat.le_refl 2) hbit
  have hgo : ∀ s' : TylerState N, received s' = received s → s'.started = (r, est) :: s.started →
      s'.decisions = s.decisions → s'.recv = s.recv → s'.auxsetSent = s.auxsetSent → s'.phase = .wait r .bin →
      PartyOk f R hist p s' := by
    intro s' hrec hst hdec hrecv hsent hph
    refine h.frame hrec ?_ (hdec ▸ h.decisions) (Or.inl hrecv) ?_ (fun r => hph ▸ nofun) (fun e => hph ▸ nofun)
    · rw [hst]
      intro x hx
      rcases List.mem_cons.1 hx with rfl | hx
      · exact hbit
      · exact h.started x hx
    · rw [hsent, hph]
      exact fun r' v hv => Or.inl (hpast .auxset r' (h.auxsetSent r' v hv))
  have hkeep : ∀ w r', Reached w r' s.phase → Reached w r' (.wait r .bin) := fun w r' hr => Or.inl (hpast w r' hr)
  unfold startRound
  simp only [hk]
  split
  · refine ⟨hgo _ rfl rfl rfl rfl rfl rfl, ⟨fun tag v r' ht => ?_, Or.inl rfl⟩⟩
    cases tag with
    | aux | aux2          => exact hkeep _ r' ht
    | est | est2 | auxset => exact ht
  · rename_i hsent
    refine ⟨hgo _ rfl rfl rfl rfl rfl rfl, ⟨fun tag v r' ht => ?_, Or.inr ⟨.est, est, r, rfl, hbit, ?_, ?_⟩⟩⟩
    · cases tag with
      | aux | aux2    => exact hkeep _ r' ht
      | est2 | auxset => exact ht
      | est           =>
        show set2 s.bv.sent r k true r' v = true
        rw [set2_apply]
        split
        · rfl
        · exact ht
    · rw [← hkv]
      exact hsent
    · show set2 s.bv.sent r k true r est = true
      rw [set2_apply, if_pos ⟨rfl, hkv.symm⟩]

theorem PartyOk.later (h : PartyOk f R hist p s) {w w' : TylerWait} (hph : s.phase = .wait r w)
    (hle : place w ≤ place w') (hw : w' ≠ .coin) (hrec : received s' = received s) (hstarted : s'.started = s.started)
    (hdecisions : s'.decisions = s.decisions) (hrecv : s'.recv = s.recv) (hsent : s'.auxsetSent = s.auxsetSent)
    (hph' : s'.phase = .wait r w') : PartyOk f R hist p s' := by
  refine h.frame hrec (hstarted ▸ h.started) (hdecisions ▸ h.decisions) (Or.inl hrecv) ?_ (fun r' => ?_) (fun e => ?_)
  · intro r' v hv
    have hreached := h.auxsetSent r' v (hsent ▸ hv)
    rw [hph] at hreached
    rw [hph']
    exact hreached.le hle
  · rw [hph']
    intro heq
    cases heq
    exact hw rfl
  · rw [hph']
    nofun

theorem Told.later {w w' : TylerWait} (hph : s.phase = .wait r w) (hle : place w ≤ place w')
    (hest : ∀ r v, s.bv.sent r v = true → s'.bv.sent r v = true)
    (hest2 : ∀ r v, s.bv2.sent r v = true → s'.bv2.sent r v = true)
    (hauxset : ∀ r, (s.auxsetSent r).isSome → (s'.auxsetSent r).isSome) (hph' : s'.phase = .wait r w')
    (tag : ABAMsgType) (v r' : Int) (h : Told s tag v r') : Told s' tag v r' := by
  cases tag with
  | aux | aux2 =>
    simp only [Told, hph] at h
    simp only [Told, hph']
    exact h.le hle
  | est        => exact hest r' v h
  | est2       => exact hest2 r' v h
  | auxset     => exact hauxset r' h

theorem block_ok (h : PartyOk f R hist p s) {w : TylerWait} (hph : s.phase = .wait r w) :
    PartyOk f R hist p (block w s) ∧ Tells f R s (block w s) [] := by
  have hw : w ≠ .coin := by
    rintro rfl
    exact h.noCoin r hph
  have htold : ∀ tag v r', Told s tag v r' → Told (block w s) tag v r' := by
    intro tag v r' ht
    cases w <;> cases tag <;> exact ht
  refine ⟨?_, htold, Or.inl rfl⟩
  cases w with
  | bin | aux | auxset | bin2 | aux2 => exact h.later hph (Nat.le_refl _) hw rfl rfl rfl rfl rfl hph
  | coin                             => exact absurd rfl hw

/-- `AUX` carries a value that the first broadcast has given. -/
theorem onBin_ok (h : PartyOk f R hist p s) (hnext : ∀ S : Finset Int, S.Nonempty → next S ∈ S)
    (hph : s.phase = .wait r .bin) (hne : s.bv.bin r ≠ ∅) :
    PartyOk f R hist p (onBin next r s).1 ∧ Tells f R s (onBin next r s).1 (onBin next r s).2 := by
  have hle : place .bin ≤ place .aux := by decide
  refine ⟨h.later hph hle nofun rfl rfl rfl rfl rfl rfl,
    Told.later hph hle (fun _ _ hs => hs) (fun _ _ hs => hs) (fun _ hs => hs) rfl, Or.inr ⟨.aux, _, _, rfl, ?_, ?_, ?_⟩⟩
  · exact h.bins r _ (hnext _ (Finset.nonempty_iff_ne_empty.2 hne))
  · simp [Told, hph, Reached, place]
  · exact Or.inr ⟨rfl, Nat.le_refl _⟩

theorem auxsetCode_small (values : Finset Int) : Bit (auxsetCode values) ∨ auxsetCode values = 2 := by
  unfold auxsetCode
  split
  · exact Or.inl (Or.inr rfl)
  · split
    · exact Or.inr rfl
    · exact Or.inl (Or.inl rfl)

/-- `AUXSET` is sent once in a round. -/
theorem onAuxExit_ok (h : PartyOk f R hist p s) (hph : s.phase = .wait r .aux) (values : Finset Int) :
    PartyOk f R hist p (onAuxExit r values s).1 ∧ Tells f R s (onAuxExit r values s).1 (onAuxExit r values s).2 := by
  have hle : place .aux ≤ place .auxset := by decide
  have hnone : s.auxsetSent r = none := by
    cases hsent : s.auxsetSent r with
    | none   => rfl
    | some v =>
      have hreached := h.auxsetSent r v hsent
      rw [hph] at hreached
      simp [Reached, place] at hreached
  rw [onAuxExit, hnone, if_neg (by simp)]
  have hself : Function.update s.auxsetSent r (some (auxsetCode values)) r = some (auxsetCode values) :=
    Function.update_self _ _ _
  refine ⟨h.frame rfl h.started h.decisions (Or.inl rfl) ?_ nofun nofun, Told.later hph hle (fun _ _ hs => hs)
    (fun _ _ hs => hs) ?_ rfl, Or.inr ⟨.auxset, _, _, rfl, ⟨auxsetCode_small values, hself⟩, ?_, ?_⟩⟩
  · intro r' v hv
    by_cases hr : r' = r
    · subst hr
      exact Or.inr ⟨rfl, Nat.le_refl _⟩
    · have hv : Function.update s.auxsetSent r (some (auxsetCode values)) r' = some v := hv
      rw [Function.update_of_ne hr] at hv
      have hreached := h.auxsetSent r' v hv
      rw [hph] at hreached
      exact hreached.le hle
  · intro r' hs
    show (Function.update s.auxsetSent r (some (auxsetCode values)) r').isSome
    by_cases hr : r' = r
    · subst hr
      rw [hself]
      rfl
    · rw [Function.update_of_ne hr]
      exact hs
  · simp [Told, hnone]
  · show (Function.update s.auxsetSent r (some (auxsetCode values)) r).isSome
    rw [hself]
    rfl

/-- Unless it is `2`, what the wait for `AUXSET`s returns is a bit with support. -/
theorem auxsetExit_support (h : PartyOk f R hist p s) {est2 : Int} (he : auxsetExit f r s = some est2) (hne : est2 ≠ 2) :
    Bit est2 ∧ Support f R r est2 := by
  unfold auxsetExit at he
  split at he
  · rename_i hone
    cases he
    exact ⟨Or.inr rfl, _, hone.2, h.auxsets r 1⟩
  · split at he
    · rename_i hzero
      cases he
      exact ⟨Or.inl rfl, _, hzero.2, h.auxsets r 0⟩
    · split at he
      · cases he
        exact absurd rfl hne
      · cases he

/-- **`EST2` carries a bit with support.** -/
theorem onAuxsetExit_ok (h : PartyOk f R hist p s) (hph : s.phase = .wait r .auxset) {est2 : Int} (hbit : Bit est2)
    (hsupport : Support f R r est2) :
    PartyOk f R hist p (onAuxsetExit r est2 s).1 ∧
      Tells f R s (onAuxsetExit r est2 s).1 (onAuxsetExit r est2 s).2 := by
  have hle : place .auxset ≤ place .bin2 := by decide
  have hne : TylerWait.bin2 ≠ .coin := by decide
  obtain ⟨k, hk, hkv⟩ := pyIndex_bit (show 2 ≤ 3 by decide) hbit
  unfold onAuxsetExit
  simp only [hk]
  split
  · exact ⟨h.later hph hle hne rfl rfl rfl rfl rfl rfl,
      Told.later hph hle (fun _ _ hs => hs) (fun _ _ hs => hs) (fun _ hs => hs) rfl, Or.inl rfl⟩
  · rename_i hsent
    refine ⟨h.later hph hle hne rfl rfl rfl rfl rfl rfl,
      Told.later hph hle (fun _ _ hs => hs) (fun r' v hs => ?_) (fun _ hs => hs) rfl,
      Or.inr ⟨.est2, est2, r, rfl, ⟨hbit, hsupport⟩, ?_, ?_⟩⟩
    · show set2 s.bv2.sent r k true r' v = true
      rw [set2_apply]
      split
      · rfl
      · exact hs
    · rw [← hkv]
      exact hsent
    · show set2 s.bv2.sent r k true r est2 = true
      rw [set2_apply, if_pos ⟨rfl, hkv.symm⟩]

theorem onBin2_ok (h : PartyOk f R hist p s) (hnext : ∀ S : Finset Int, S.Nonempty → next S ∈ S)
    (hph : s.phase = .wait r .bin2) (hne : s.bv2.bin r ≠ ∅) :
    PartyOk f R hist p (onBin2 next r s).1 ∧ Tells f R s (onBin2 next r s).1 (onBin2 next r s).2 := by
  have hle : place .bin2 ≤ place .aux2 := by decide
  refine ⟨h.later hph hle nofun rfl rfl rfl rfl rfl rfl,
    Told.later hph hle (fun _ _ hs => hs) (fun _ _ hs => hs) (fun _ hs => hs) rfl, Or.inr ⟨.aux2, _, _, rfl, ?_, ?_, ?_⟩⟩
  · exact (h.bins2 r _ (hnext _ (Finset.nonempty_iff_ne_empty.2 hne))).1
  · simp [Told, hph, Reached, place]
  · exact Or.inr ⟨rfl, Nat.le_refl _⟩

/-- **The wait for `AUX2`s ends with one bit**, which `N - f` parties have sent. -/
theorem aux2Exit_bit (h : PartyOk f R hist p s) (hN : 2 * f < N) (hR : ∀ q r v v', R q r v → R q r v' → v = v')
    {x : Except Exn (Finset Int)} (he : aux2Exit f r s = some x) :
    ∃ v, Bit v ∧ (v ∈ s.bv2.bin r ∧ N - f ≤ (s.auxValues2 r v).card) ∧ x = .ok {v} := by
  unfold aux2Exit at he
  split at he
  · rename_i hone
    cases he
    exact ⟨1, Or.inr rfl, hone, rfl⟩
  · rename_i hone
    split at he
    · rename_i hzero
      cases he
      exact ⟨0, Or.inl rfl, hzero, rfl⟩
    · rename_i hzero
      split at he
      · rename_i htwo
        rcases (h.bins2 r 2 htwo.1).1 with h2 | h2 <;> cases h2
      · split at he
        · rename_i hsum
          exfalso
          -- the values of the second broadcast have support, so there is one at most
          rcases Finset.eq_empty_or_nonempty (s.bv2.bin r) with hempty | ⟨v, hv⟩
          · rw [hempty, Finset.sum_empty] at hsum
            omega
          · have hsingle : s.bv2.bin r = {v} := by
              apply Finset.eq_singleton_iff_unique_mem.2
              exact ⟨hv, fun v' hv' => Support.unique hN hR (h.bins2 r v' hv').2 (h.bins2 r v hv).2⟩
            rw [hsingle, Finset.sum_singleton] at hsum
            rcases (h.bins2 r v hv).1 with rfl | rfl
            · exact hzero ⟨hv, hsum⟩
            · exact hone ⟨hv, hsum⟩
        · cases he

/-- **The end of a round with a bit**; if the party has not decided yet, it gives the bit to `decide`. -/
theorem onValue_ok (h : PartyOk f R hist p s) (hph : s.phase = .wait r .aux2) {v : Int} (hbit : Bit v)
    (hfile : s.alreadyDecided = none → file.decision v = .value v) :
    PartyOk f R hist p (onValue file r v s).1 ∧ Tells f R s (onValue file r v s).1 (onValue file r v s).2 := by
  have hpast : ∀ w r', Reached w r' s.phase → r' < ((r + 1 : Nat) : Int) := by
    intro w r' hr
    rw [hph] at hr
    rcases hr with hr | ⟨hr, -⟩ <;> omega
  have hlast : ∀ {l : Option Int} {d : Option Int} {dec : List Decision}, (∀ x ∈ dec, BitDecision x) →
      PartyOk f R hist p { s with lastV := l, alreadyDecided := d, decisions := dec } :=
    fun hdec => h.frame rfl h.started hdec (Or.inl rfl) h.auxsetSent h.noCoin h.alive
  have htwo : v ≠ 2 := by
    rintro rfl
    rcases hbit with h2 | h2 <;> cases h2
  unfold onValue
  simp only
  rw [if_neg htwo]
  split
  · rename_i hnone
    have hdec : ∀ d ∈ file.decision v :: s.decisions, BitDecision d := by
      intro d hd
      rcases List.mem_cons.1 hd with rfl | hd
      · rw [hfile hnone]
        exact hbit.imp (congrArg _) (congrArg _)
      · exact h.decisions d hd
    obtain ⟨hok, htell⟩ := startRound_ok (hlast (l := some v) (d := some v) hdec) hbit hpast
    exact ⟨hok, htell.keeps, htell.sends⟩
  · rename_i d hd
    split
    · refine ⟨h.frame rfl h.started h.decisions (Or.inr rfl) (fun _ _ _ => trivial) nofun nofun, ?_, Or.inl rfl⟩
      intro tag v r' ht
      cases tag with
      | aux | aux2          => trivial
      | est | est2 | auxset => exact ht
    · obtain ⟨hok, htell⟩ := startRound_ok (hlast (l := some v) (d := s.alreadyDecided) h.decisions) hbit hpast
      exact ⟨hok, htell.keeps, htell.sends⟩

/-- **One step of the main task keeps the invariant**, unless it leaves the wait for `AUXSET`s with `2` or gives a pair to
`decide`. -/
theorem mainStep_ok (h : PartyOk f R hist p s) (hnext : ∀ S : Finset Int, S.Nonempty → next S ∈ S) (hN : 2 * f < N)
    (hR : ∀ q r v v', R q r v → R q r v' → v = v') {vi : Int} (hvi : Bit vi)
    (hbit : ∀ r, s.phase = .wait r .auxset → auxsetExit f r s ≠ some 2)
    (hfile : ∀ r v, s.phase = .wait r .aux2 → Bit v → v ∈ s.bv2.bin r ∧ N - f ≤ (s.auxValues2 r v).card →
      s.alreadyDecided = none → file.decision v = .value v) {out : List (Fin N × Int)}
    (hs : mainStep file next coin f vi s = some (s', out)) : PartyOk f R hist p s' ∧ Tells f R s s' out := by
  unfold mainStep at hs
  split at hs
  · rename_i hph
    rw [onInput, if_pos (show vi = 0 ∨ vi = 1 from hvi)] at hs
    have hstart := startRound_ok (r := 0) h hvi (fun w r' hr => by rw [hph] at hr; exact hr.elim)
    rw [Option.some.inj hs] at hstart
    exact hstart
  · rename_i r w hph
    split at hs
    · cases hs
    · have hs := Option.some.inj hs
      have hstay : ∀ {w'}, w' = w → onWait file next coin f r s w = (block w' s, []) →
          PartyOk f R hist p s' ∧ Tells f R s s' out := by
        rintro w' rfl heq
        obtain ⟨rfl, rfl⟩ := Prod.mk.inj (heq.symm.trans hs)
        exact block_ok h hph
      cases w with
      | bin    =>
        by_cases hempty : s.bv.bin r = ∅
        · exact hstay rfl (if_pos hempty)
        · have hbin := onBin_ok h hnext hph hempty
          rw [(if_neg hempty).symm.trans hs] at hbin
          exact hbin
      | aux    =>
        cases he : auxExit f r s with
        | none        => exact hstay rfl (by rw [onWait, he]; rfl)
        | some values =>
          have haux := onAuxExit_ok h hph values
          rw [onWait, he] at hs
          rw [show onAuxExit r values s = (s', out) from hs] at haux
          exact haux
      | auxset =>
        cases he : auxsetExit f r s with
        | none      => exact hstay rfl (by rw [onWait, he]; rfl)
        | some est2 =>
          obtain ⟨hb, hsupport⟩ := auxsetExit_support h he (fun htwo => hbit r hph (htwo ▸ he))
          have hauxset := onAuxsetExit_ok h hph hb hsupport
          rw [onWait, he] at hs
          rw [show onAuxsetExit r est2 s = (s', out) from hs] at hauxset
          exact hauxset
      | bin2   =>
        by_cases hempty : s.bv2.bin r = ∅
        · exact hstay rfl (if_pos hempty)
        · have hbin := onBin2_ok h hnext hph hempty
          rw [(if_neg hempty).symm.trans hs] at hbin
          exact hbin
      | aux2   =>
        cases he : aux2Exit f r s with
        | none   => exact hstay rfl (by rw [onWait, he]; rfl)
        | some x =>
          obtain ⟨v, hv, hsent, rfl⟩ := aux2Exit_bit h hN hR he
          have hvalue := onValue_ok h hph hv (hfile r v hph hv hsent)
          have hmem : next {v} = v := Finset.mem_singleton.1 (hnext _ (Finset.singleton_nonempty v))
          rw [onWait, he] at hs
          change onAux2Exit file next r (.ok {v}) s = (s', out) at hs
          rw [onAux2Exit] at hs
          simp only [Finset.card_singleton, if_true, hmem] at hs
          rw [hs] at hvalue
          exact hvalue
      | coin   => exact absurd hph (h.noCoin r)
  · cases hs

/-! ## `_recv` -/

/-- The message `msg` of `q` is recorded under `tag`, `r` and `v`, and nothing else is. -/
theorem heard_set2 {T : Int → Int → Finset (Fin N)} {tag : ABAMsgType}
    (h : ∀ r v, ∀ q ∈ T r v, (⟨q, p, encodeMsg tag v r⟩ : Net.Envelope (Fin N) Int) ∈ hist) (q : Fin N) (r v : Int) :
    ∀ r' v', ∀ q' ∈ set2 T r v (insert q (T r v)) r' v',
      (⟨q', p, encodeMsg tag v' r'⟩ : Net.Envelope (Fin N) Int) ∈ ⟨q, p, encodeMsg tag v r⟩ :: hist := by
  intro r' v' q' hq'
  rcases mem_set2_insert.1 hq' with ⟨rfl, rfl, rfl⟩ | hq'
  · exact List.mem_cons_self
  · exact List.mem_cons_of_mem _ (h r' v' q' hq')

theorem mem_addEst_bin {b : BvTables N} {r v r' v' : Int} (h : v' ∈ (addEst f q r v b).bin r') :
    (r' = r ∧ v' = v) ∨ v' ∈ b.bin r' := by
  unfold addEst at h
  simp only at h
  split at h
  · by_cases hr : r' = r
    · subst hr
      rw [Function.update_self] at h
      exact (Finset.mem_insert.1 h).imp (fun hv => ⟨rfl, hv⟩) id
    · rw [Function.update_of_ne hr] at h
      exact Or.inr h
  · exact Or.inr h

theorem addEst_sent {b : BvTables N} {r v r' v' : Int} (h : b.sent r' v' = true) :
    (addEst f q r v b).sent r' v' = true := by
  unfold addEst
  simp only
  split
  · rw [set2_apply]
    split
    · rfl
    · exact h
  · exact h

theorem addEst_relays {b : BvTables N} {r v : Int} (h : Relays f q r v b) : (addEst f q r v b).sent r v = true := by
  unfold addEst
  simp only
  rw [if_pos h, set2_apply, if_pos ⟨rfl, rfl⟩]

theorem onEst_eq (tag : ABAMsgType) {v r : Int} (hbit : Bit v) (b : BvTables N) :
    onEst f tag q v r b = if q ∈ b.values r v then .error .redundantMessageError
      else .ok (addEst f q r v b, if Relays f q r v b then broadcast (encodeMsg tag v r) else [],
        decide (Outputs f q r v b)) := by
  have hv : v = 0 ∨ v = 1 := hbit
  by_cases hold : q ∈ b.values r v
  · simp [onEst, hv, hold, bind, Except.bind, throw, throwThe, MonadExceptOf.throw]
  · simp [onEst, hv, hold, pure, Except.pure]

theorem onAux_eq {v r : Int} (hbit : Bit v) (T : Int → Int → Finset (Fin N)) :
    onAux q v r T =
      if q ∈ T r v then .error .redundantMessageError else .ok (set2 T r v (insert q (T r v))) := by
  have hv : v = 0 ∨ v = 1 := hbit
  by_cases hold : q ∈ T r v
  · simp [onAux, hv, hold, bind, Except.bind, throw, throwThe, MonadExceptOf.throw]
  · simp [onAux, hv, hold, pure, Except.pure]

theorem onAuxset_eq {v r : Int} (hv : Bit v ∨ v = 2) (T : Int → Int → Finset (Fin N)) :
    onAuxset q v r T =
      if q ∈ T r v then .error .redundantMessageError else .ok (set2 T r v (insert q (T r v))) := by
  have hv : v = 0 ∨ v = 1 ∨ v = 2 := or_assoc.1 hv
  by_cases hold : q ∈ T r v
  · simp [onAuxset, hv, hold, bind, Except.bind, throw, throwThe, MonadExceptOf.throw]
  · simp [onAuxset, hv, hold, pure, Except.pure]

theorem process_ok (h : PartyOk f R hist p s) {sq : TylerState N} {tag : ABAMsgType} {v r : Int}
    (hm : Means f R sq tag v r) (hR : ∀ r v, sq.auxsetSent r = some v → R q r v) (hnew : q ∉ table s tag r v) :
    ∃ s' out, process f q tag.code v r s = .ok (s', out) ∧
      PartyOk f R (⟨q, p, encodeMsg tag v r⟩ :: hist) p s' ∧ Tells f R s s' out ∧ s'.recv = s.recv := by
  have hother : ∀ tag' r' v', ∀ q' ∈ table s tag' r' v',
      (⟨q', p, encodeMsg tag' v' r'⟩ : Net.Envelope (Fin N) Int) ∈ ⟨q, p, encodeMsg tag v r⟩ :: hist :=
    fun tag' r' v' q' hq' => List.mem_cons_of_mem _ (h.heard tag' r' v' q' hq')
  cases tag with
  | est    =>
    refine ⟨{ s with bv := addEst f q r v s.bv, bvSignal := s.bvSignal || decide (Outputs f q r v s.bv) },
      if Relays f q r v s.bv then broadcast (encodeMsg .est v r) else [], ?_, ?_, ⟨?_, ?_⟩, rfl⟩
    · show (onEst f .est q v r s.bv).map _ = _
      rw [onEst_eq .est hm, if_neg (show q ∉ s.bv.values r v from hnew)]
      rfl
    · refine { h with bins := fun r' v' hv' => ?_, heard := fun tag' => ?_ }
      · rcases mem_addEst_bin hv' with ⟨-, rfl⟩ | hv'
        · exact hm
        · exact h.bins r' v' hv'
      · cases tag' with
        | est    => exact heard_set2 (h.heard .est) q r v
        | aux    => exact hother .aux
        | aux2   => exact hother .aux2
        | est2   => exact hother .est2
        | auxset => exact hother .auxset
    · intro tag' v' r' ht
      cases tag' with
      | est                        => exact addEst_sent ht
      | aux | aux2 | est2 | auxset => exact ht
    · by_cases hrelay : Relays f q r v s.bv
      · exact Or.inr ⟨.est, v, r, if_pos hrelay, hm, by simp [Told, hrelay.2], addEst_relays hrelay⟩
      · exact Or.inl (if_neg hrelay)
  | est2   =>
    refine ⟨{ s with bv2 := addEst f q r v s.bv2, bvSignal := s.bvSignal || decide (Outputs f q r v s.bv2) },
      if Relays f q r v s.bv2 then broadcast (encodeMsg .est2 v r) else [], ?_, ?_, ⟨?_, ?_⟩, rfl⟩
    · show (onEst f .est2 q v r s.bv2).map _ = _
      rw [onEst_eq .est2 hm.1, if_neg (show q ∉ s.bv2.values r v from hnew)]
      rfl
    · refine { h with bins2 := fun r' v' hv' => ?_, values2 := fun r' v' q' hq' => ?_, heard := fun tag' => ?_ }
      · rcases mem_addEst_bin hv' with ⟨rfl, rfl⟩ | hv'
        · exact hm
        · exact h.bins2 r' v' hv'
      · rcases mem_set2_insert.1 hq' with ⟨rfl, rfl, -⟩ | hq'
        · exact hm.2
        · exact h.values2 r' v' q' hq'
      · cases tag' with
        | est2   => exact heard_set2 (h.heard .est2) q r v
        | aux    => exact hother .aux
        | aux2   => exact hother .aux2
        | est    => exact hother .est
        | auxset => exact hother .auxset
    · intro tag' v' r' ht
      cases tag' with
      | est2                      => exact addEst_sent ht
      | aux | aux2 | est | auxset => exact ht
    · by_cases hrelay : Relays f q r v s.bv2
      · exact Or.inr ⟨.est2, v, r, if_pos hrelay, hm, by simp [Told, hrelay.2], addEst_relays hrelay⟩
      · exact Or.inl (if_neg hrelay)
  | aux    =>
    refine ⟨{ s with auxValues := set2 s.auxValues r v (insert q (s.auxValues r v)), bvSignal := true }, [],
      ?_, ?_, ⟨fun tag' v' r' ht => ?_, Or.inl rfl⟩, rfl⟩
    · show (onAux q v r s.auxValues).map _ = _
      rw [onAux_eq hm, if_neg (show q ∉ s.auxValues r v from hnew)]
      rfl
    · refine { h with heard := fun tag' => ?_ }
      cases tag' with
      | aux    => exact heard_set2 (h.heard .aux) q r v
      | aux2   => exact hother .aux2
      | est    => exact hother .est
      | est2   => exact hother .est2
      | auxset => exact hother .auxset
    · cases tag' <;> exact ht
  | aux2   =>
    refine ⟨{ s with auxValues2 := set2 s.auxValues2 r v (insert q (s.auxValues2 r v)), auxSignal := true }, [],
      ?_, ?_, ⟨fun tag' v' r' ht => ?_, Or.inl rfl⟩, rfl⟩
    · show (onAux q v r s.auxValues2).map _ = _
      rw [onAux_eq hm, if_neg (show q ∉ s.auxValues2 r v from hnew)]
      rfl
    · refine { h with heard := fun tag' => ?_ }
      cases tag' with
      | aux2   => exact heard_set2 (h.heard .aux2) q r v
      | aux    => exact hother .aux
      | est    => exact hother .est
      | est2   => exact hother .est2
      | auxset => exact hother .auxset
    · cases tag' <;> exact ht
  | auxset =>
    refine ⟨{ s with auxsetValues := set2 s.auxsetValues r v (insert q (s.auxsetValues r v)), auxsetSignal := true }, [],
      ?_, ?_, ⟨fun tag' v' r' ht => ?_, Or.inl rfl⟩, rfl⟩
    · show (onAuxset q v r s.auxsetValues).map _ = _
      rw [onAuxset_eq hm.1, if_neg (show q ∉ s.auxsetValues r v from hnew)]
      rfl
    · refine { h with auxsets := fun r' v' q' hq' => ?_, heard := fun tag' => ?_ }
      · rcases mem_set2_insert.1 hq' with ⟨rfl, rfl, rfl⟩ | hq'
        · exact hR r' v' hm.2
        · exact h.auxsets r' v' q' hq'
      · cases tag' with
        | auxset => exact heard_set2 (h.heard .auxset) q r v
        | aux    => exact hother .aux
        | aux2   => exact hother .aux2
        | est    => exact hother .est
        | est2   => exact hother .est2
    · cases tag' <;> exact ht

theorem process_recorded {sq : TylerState N} {tag : ABAMsgType} {v r : Int} (hm : Means f R sq tag v r)
    (hold : q ∈ table s tag r v) : process f q tag.code v r s = .error .redundantMessageError := by
  cases tag with
  | est    =>
    show (onEst f .est q v r s.bv).map _ = _
    rw [onEst_eq .est hm, if_pos (show q ∈ s.bv.values r v from hold)]
    rfl
  | est2   =>
    show (onEst f .est2 q v r s.bv2).map _ = _
    rw [onEst_eq .est2 hm.1, if_pos (show q ∈ s.bv2.values r v from hold)]
    rfl
  | aux    =>
    show (onAux q v r s.auxValues).map _ = _
    rw [onAux_eq hm, if_pos (show q ∈ s.auxValues r v from hold)]
    rfl
  | aux2   =>
    show (onAux q v r s.auxValues2).map _ = _
    rw [onAux_eq hm, if_pos (show q ∈ s.auxValues2 r v from hold)]
    rfl
  | auxset =>
    show (onAuxset q v r s.auxsetValues).map _ = _
    rw [onAuxset_eq hm.1, if_pos (show q ∈ s.auxsetValues r v from hold)]
    rfl

/-- **One pass of the loop of `_recv` keeps the invariant**; it raises on a message recorded before. -/
theorem onMsg_ok (h : PartyOk f R hist p s) {sq : TylerState N} {tag : ABAMsgType} {v r : Int}
    (hm : Means f R sq tag v r) (hR : ∀ r v, sq.auxsetSent r = some v → R q r v) :
    PartyOk f R (⟨q, p, encodeMsg tag v r⟩ :: hist) p (onMsg f q (encodeMsg tag v r) s).1 ∧
      Tells f R s (onMsg f q (encodeMsg tag v r) s).1 (onMsg f q (encodeMsg tag v r) s).2 ∧
      (q ∉ table s tag r v → (onMsg f q (encodeMsg tag v r) s).1.recv = s.recv) := by
  have hparse := parseMsg_encodeMsg tag hm.digit.1 hm.digit.2 r
  by_cases hold : q ∈ table s tag r v
  · rw [onMsg, hparse]
    simp only [process_recorded (f := f) hm hold]
    have hmono : PartyOk f R (⟨q, p, encodeMsg tag v r⟩ :: hist) p s :=
      h.mono (fun _ _ _ hr => hr) (fun e he => List.mem_cons_of_mem _ he)
    refine ⟨?_, ⟨fun tag' v' r' ht => ?_, Or.inl rfl⟩, fun hnew => absurd hold hnew⟩
    · refine { hmono with recv := fun e he => (RecvPhase.raised.inj he).symm, heard := fun tag' => ?_ }
      have hheard := hmono.heard tag'
      cases tag' <;> exact hheard
    · cases tag' <;> exact ht
  · obtain ⟨s', out, hproc, hok, htell, hrecv⟩ := process_ok h hm hR hold
    rw [onMsg, hparse]
    simp only [hproc]
    exact ⟨hok, htell, fun _ => hrecv⟩

end Party

end Tyler
end Dpid
