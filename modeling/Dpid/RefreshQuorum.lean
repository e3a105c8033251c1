import Dpid.RefreshStall
import Dpid.Slots
import Mathlib
/-!
# RefreshQuorum — the three thresholds of the committee refresh

`RELAY`s are counted in a table under the hash of their text, `ECHO`s and `FINAL`s by a counter beside an array with a
slot for each sender, and no branch looks whether the sender has been counted before; a `FINAL` that comes before the
hash list is recovered is checked against `""`.  While no sender is counted twice and no `FINAL` too early (`CountsOnce`)
every counter is a number of senders, and the thresholds mean what they say.
-/
namespace Dpid

namespace Committee

variable {H : Hash} {z : Zfec} {N : Nat} {key : Fin N → RsaKey} {f : Nat} {all : Bool} {target : List (Fin N)}
  {share : Fin N → Bytes} {proof : Fin N → List Bytes}

/-! ## Counting a sender once -/

/-- A message that the second loop is about to count. -/
def Counts (H : Hash) (key : Fin N → RsaKey) (s : CommitteeState N) (sender : Fin N) : CommitteeMsg → Prop
  | .val _ _                                => False
  | .relay _                                => s.echoSent = false
  | .echo hashStripe merkleProof merkleRoot => s.finalSent = false ∧ merkleRoot = H s.relayRoot ∧
      merkleVerify H N hashStripe s.relayRoot merkleProof sender = .ok true
  | .final sig                              => verifySignature H (key sender) (H s.merkleDecode) sig = true

/-- Its sender has been counted before, or there is no hash list yet to check its signature against. -/
def Miscounts (s : CommitteeState N) (sender : Fin N) : CommitteeMsg → Prop
  | .val _ _    => False
  | .relay r    => (sender, r) ∈ s.counted
  | .echo _ _ _ => s.echoHash[(sender : Nat)]? ≠ some none
  | .final _    => s.finalSent = false ∨ s.finalSig[(sender : Nat)]? ≠ some none

/-- No party in the second loop takes a message that it counts and should not. -/
def CountsOnce (H : Hash) (key : Fin N → RsaKey) (c : Net.Conf (Fin N) (CommitteeState N) CommitteeMsg) :
    Net.Label (Fin N) Thread CommitteeMsg → Prop
  | .recv e => (c.loc e.dst).phase = .second → Counts H key (c.loc e.dst) e.src e.msg →
      ¬ Miscounts (c.loc e.dst) e.src e.msg
  | _       => True

instance decidableCounts (H : Hash) (key : Fin N → RsaKey) (s : CommitteeState N) (q : Fin N) :
    ∀ msg, Decidable (Counts H key s q msg)
  | .val _ _    => inferInstanceAs (Decidable False)
  | .relay _    => inferInstanceAs (Decidable (_ = _))
  | .echo _ _ _ => inferInstanceAs (Decidable (_ ∧ _ ∧ _))
  | .final _    => inferInstanceAs (Decidable (_ = _))

instance decidableMiscounts (s : CommitteeState N) (q : Fin N) : ∀ msg, Decidable (Miscounts s q msg)
  | .val _ _    => inferInstanceAs (Decidable False)
  | .relay _    => inferInstanceAs (Decidable (_ ∈ _))
  | .echo _ _ _ => inferInstanceAs (Decidable (_ ≠ _))
  | .final _    => inferInstanceAs (Decidable (_ ∨ _))

instance decidableCountsOnce (H : Hash) (key : Fin N → RsaKey) (c : Net.Conf (Fin N) (CommitteeState N) CommitteeMsg) :
    ∀ l, Decidable (CountsOnce H key c l)
  | .wake _ _ => inferInstanceAs (Decidable True)
  | .recv _   => inferInstanceAs (Decidable (_ → _ → ¬ _))
  | .inject _ => inferInstanceAs (Decidable True)

/-! ## The invariant -/

/-- `hash_stripe` was verified for the place of its sender. -/
def Verified (H : Hash) (N : Nat) (root : Bytes) (k : Nat) (hashStripe : Bytes) : Prop :=
  ∃ merkleProof, merkleVerify H N hashStripe root merkleProof k = .ok true

/-- A `FINAL` was taken whose signature is its sender's on the hash list. -/
def Signed (H : Hash) (key : Fin N → RsaKey) (hist : List (Net.Envelope (Fin N) CommitteeMsg)) (p : Fin N) (m : Bytes)
    (k : Nat) (sig : Bytes) : Prop :=
  ∃ q : Fin N, (q : Nat) = k ∧ ⟨q, p, .final sig⟩ ∈ hist ∧ verifySignature H (key q) (H m) sig = true

/-- The counters of a party and what it has counted. -/
structure QuorumOk (H : Hash) (key : Fin N → RsaKey) (f : Nat) (hist : List (Net.Envelope (Fin N) CommitteeMsg))
    (p : Fin N) (s : CommitteeState N) : Prop where
  heard : ∀ q r, (q, r) ∈ s.counted → ⟨q, p, .relay r⟩ ∈ hist
  once : s.counted.Nodup
  counts : ∀ h, (s.relayMsg h).getD 0 = s.counted.countP (fun x => decide (H x.2.text = h))
  echo : s.echoSent = true → ∃ h, N - 2 * f ≤ s.counted.countP (fun x => decide (H x.2.text = h))
  unset : s.echoSent = false → s.relayRoot = []
  echoes : Slots.Tallied N (Verified H N s.relayRoot) s.echoHash s.echoCount
  final : s.finalSent = true → N - 2 * f ≤ s.echoCount
  unsigned : s.finalSent = false → ∀ (k : Nat) (sig : Bytes), s.finalSig[k]? ≠ some (some sig)
  finals : Slots.Tallied N (Signed H key hist p s.merkleDecode) s.finalSig s.finalCount
  returned : s.phase = .returned → N - 2 * f ≤ s.finalCount

/-- What the counting works on. -/
def tallies (s : CommitteeState N) :=
  (s.counted, s.relayMsg, s.relayRoot, s.echoSent, s.echoHash, s.echoCount, s.finalSent, s.merkleDecode, s.finalSig,
    s.finalCount)

section Invariant

variable {hist : List (Net.Envelope (Fin N) CommitteeMsg)} {p : Fin N} {s s' : CommitteeState N}

theorem QuorumOk.frame (h : QuorumOk H key f hist p s) (ht : tallies s' = tallies s) (hph : s'.phase ≠ .returned) :
    QuorumOk H key f hist p s' := by
  simp only [tallies, Prod.mk.injEq] at ht
  obtain ⟨h1, h2, h3, h4, h5, h6, h7, h8, h9, h10⟩ := ht
  exact { heard := by rw [h1]; exact h.heard
          once := by rw [h1]; exact h.once
          counts := by rw [h1, h2]; exact h.counts
          echo := by rw [h1, h4]; exact h.echo
          unset := by rw [h3, h4]; exact h.unset
          echoes := by rw [h3, h5, h6]; exact h.echoes
          final := by rw [h6, h7]; exact h.final
          unsigned := by rw [h7, h9]; exact h.unsigned
          finals := by rw [h8, h9, h10]; exact h.finals
          returned := fun hr => absurd hr hph }

theorem QuorumOk.hist_mono {hist' : List (Net.Envelope (Fin N) CommitteeMsg)} (h : QuorumOk H key f hist p s)
    (hsub : ∀ e ∈ hist, e ∈ hist') : QuorumOk H key f hist' p s :=
  { h with
    heard := fun q r hr => hsub _ (h.heard q r hr)
    finals := h.finals.mono (fun _ _ hk => by
      obtain ⟨q, hq, hmem, hv⟩ := hk
      exact ⟨q, hq, hsub _ hmem, hv⟩) }

theorem quorumOk_init (b : Bytes) : QuorumOk H key f [] p (init b : CommitteeState N) where
  heard := nofun
  once := List.nodup_nil
  counts := fun _ => rfl
  echo := nofun
  unset := fun _ => rfl
  echoes := Slots.tallied_replicate _ _
  final := nofun
  unsigned := fun _ k sig hk => (Slots.tallied_replicate N (fun _ (_ : Bytes) => False)).stored k sig hk
  finals := Slots.tallied_replicate _ _
  returned := nofun

/-- The `RELAY` counted. -/
def countRelay (H : Hash) (sender : Fin N) (r : Relay) (s : CommitteeState N) : CommitteeState N :=
  { s with
    counted := (sender, r) :: s.counted
    relayMsg := Function.update s.relayMsg (H r.text) (some ((s.relayMsg (H r.text)).getD 0 + 1)) }

theorem onRelay_cases (he : s.echoSent = false) (q : Fin N) (r : Relay) :
    onRelay H f q r s = (countRelay H q r s, []) ∨
      (N - 2 * f ≤ (s.relayMsg (H r.text)).getD 0 + 1 ∧ onRelay H f q r s =
        ({ countRelay H q r s with echoSent := true, relayRoot := r.merkleRoot },
          (List.finRange N).map (fun j => (j, .echo r.hashStripe r.merkleProof (H r.merkleRoot))))) := by
  unfold onRelay countRelay
  rw [he]
  cases hc : s.relayMsg (H r.text) with
  | none       =>
    left
    simp [hc]
  | some count =>
    simp only [hc, Option.getD_some, if_neg Bool.false_ne_true]
    by_cases hk : N - 2 * f ≤ count + 1
    · right
      exact ⟨hk, if_pos hk⟩
    · left
      exact if_neg hk

theorem countRelay_quorum (h : QuorumOk H key f hist p s) {q : Fin N} {r : Relay} (hmem : ⟨q, p, .relay r⟩ ∈ hist)
    (hph : s.phase = .second) (hnew : (q, r) ∉ s.counted) : QuorumOk H key f hist p (countRelay H q r s) :=
  { h with
    heard := by
      intro q' r' hr
      rcases List.mem_cons.1 hr with heq | hr
      · cases heq
        exact hmem
      · exact h.heard q' r' hr
    once := List.nodup_cons.2 ⟨hnew, h.once⟩
    counts := by
      intro b
      show (Function.update s.relayMsg (H r.text) _ b).getD 0 = ((q, r) :: s.counted).countP _
      rw [List.countP_cons]
      by_cases hb : b = H r.text
      · subst hb
        rw [Function.update_self, Option.getD_some, h.counts]
        simp
      · rw [Function.update_of_ne hb, h.counts]
        simp [Ne.symm hb]
    echo := by
      intro he
      obtain ⟨b, hb⟩ := h.echo he
      refine ⟨b, hb.trans ?_⟩
      show _ ≤ ((q, r) :: s.counted).countP _
      rw [List.countP_cons]
      exact Nat.le_add_right _ _
    returned := fun hr => by
      have hr : s.phase = .returned := hr
      rw [hph] at hr
      cases hr }

/-- **A `RELAY` keeps the invariant.** -/
theorem onRelay_quorum (h : QuorumOk H key f hist p s) {q : Fin N} {r : Relay} (hmem : ⟨q, p, .relay r⟩ ∈ hist)
    (hph : s.phase = .second) (hnew : s.echoSent = false → (q, r) ∉ s.counted) :
    QuorumOk H key f hist p (onRelay H f q r s).1 := by
  cases he : s.echoSent with
  | true  =>
    rw [onRelay, he]
    exact h
  | false =>
    have hcount := countRelay_quorum h hmem hph (hnew he)
    rcases onRelay_cases he q r (H := H) (f := f) with heq | ⟨hk, heq⟩
    · rw [heq]
      exact hcount
    · rw [heq]
      refine { hcount with echo := fun _ => ⟨H r.text, ?_⟩, unset := nofun, echoes := ?_ }
      · rw [← hcount.counts]
        show _ ≤ (Function.update s.relayMsg (H r.text) _ (H r.text)).getD 0
        rw [Function.update_self]
        exact hk
      · -- nothing was verified against `""`
        have hnone := h.echoes
        rw [h.unset he] at hnone
        exact hnone.mono (fun _ _ hv => hv.elim (fun _ hv => absurd hv (merkleVerify_nil _ _ _ _ _)))

/-- What an `ECHO` does: nothing, an exception from its branch, or one more filled slot. -/
theorem onEcho_cases (key : RsaKey) (q : Fin N) (hashStripe : Bytes) (merkleProof : List Bytes) (merkleRoot : Bytes)
    (s : CommitteeState N) :
    (∃ s', onEcho H z key f q hashStripe merkleProof merkleRoot s = (s', []) ∧
        (s' = s ∨ ∃ e, s' = raise e s)) ∨
      (s.finalSent = false ∧ merkleRoot = H s.relayRoot ∧
        merkleVerify H N hashStripe s.relayRoot merkleProof q = .ok true ∧
        (onEcho H z key f q hashStripe merkleProof merkleRoot s = (addEcho q hashStripe s, []) ∨
          (N - 2 * f ≤ s.echoCount + 1 ∧ onEcho H z key f q hashStripe merkleProof merkleRoot s =
            recover H z key f { addEcho q hashStripe s with finalSent := true }))) := by
  unfold onEcho
  cases hf : s.finalSent with
  | true  => exact Or.inl ⟨s, rfl, Or.inl rfl⟩
  | false =>
    rw [if_neg Bool.false_ne_true]
    by_cases hroot : merkleRoot = H s.relayRoot
    · rw [if_neg (not_not.2 hroot)]
      cases hv : merkleVerify H N hashStripe s.relayRoot merkleProof q with
      | error e => exact Or.inl ⟨_, rfl, Or.inr ⟨e, rfl⟩⟩
      | ok b    =>
        cases b with
        | false => exact Or.inl ⟨s, rfl, Or.inl rfl⟩
        | true  =>
          refine Or.inr ⟨rfl, hroot, rfl, ?_⟩
          by_cases hk : N - 2 * f ≤ s.echoCount + 1
          · exact Or.inr ⟨hk, if_pos hk⟩
          · exact Or.inl (if_neg hk)
    · rw [if_pos hroot]
      exact Or.inl ⟨s, rfl, Or.inl rfl⟩

theorem addEcho_quorum (h : QuorumOk H key f hist p s) (hph : s.phase = .second) {q : Fin N} {hashStripe : Bytes}
    (hnew : s.echoHash[(q : Nat)]? = some none) (hv : Verified H N s.relayRoot q hashStripe) :
    QuorumOk H key f hist p (addEcho q hashStripe s) :=
  { h with
    echoes := h.echoes.set hnew hv
    final := fun hf => (h.final hf).trans (Nat.le_succ _)
    returned := fun hr => by
      have hr : s.phase = .returned := hr
      rw [hph] at hr
      cases hr }

/-- **The recovered list keeps the invariant**: no signature was counted before. -/
theorem recover_quorum (h : QuorumOk H key f hist p s) (hf : s.finalSent = false)
    (hk : N - 2 * f ≤ s.echoCount) (key' : RsaKey) :
    QuorumOk H key f hist p (recover H z key' f { s with finalSent := true }).1 := by
  have hsent : QuorumOk H key f hist p { s with finalSent := true } := { h with final := fun _ => hk, unsigned := nofun }
  unfold recover
  split
  · exact hsent.frame rfl nofun
  · exact { hsent with
            unsigned := nofun
            finals := ⟨h.finals.length, h.finals.filled, fun k sig hs => absurd hs (h.unsigned hf k sig)⟩ }

/-- **An `ECHO` keeps the invariant.** -/
theorem onEcho_quorum (h : QuorumOk H key f hist p s) (hph : s.phase = .second) (key' : RsaKey) {q : Fin N} {hashStripe : Bytes}
    {merkleProof : List Bytes} {merkleRoot : Bytes}
    (hnew : Counts H key s q (.echo hashStripe merkleProof merkleRoot) → s.echoHash[(q : Nat)]? = some none) :
    QuorumOk H key f hist p (onEcho H z key' f q hashStripe merkleProof merkleRoot s).1 := by
  rcases onEcho_cases (H := H) (z := z) (f := f) key' q hashStripe merkleProof merkleRoot s with
    ⟨s', heq, rfl | ⟨e, rfl⟩⟩ | ⟨hf, hroot, hv, heq | ⟨hk, heq⟩⟩
  · rw [heq]
    exact h
  · rw [heq]
    exact h.frame rfl nofun
  · rw [heq]
    exact addEcho_quorum h hph (hnew ⟨hf, hroot, hv⟩) ⟨merkleProof, hv⟩
  · rw [heq]
    exact recover_quorum (addEcho_quorum h hph (hnew ⟨hf, hroot, hv⟩) ⟨merkleProof, hv⟩) hf hk key'

/-- **A `FINAL` keeps the invariant.** -/
theorem onFinal_quorum (h : QuorumOk H key f hist p s) (hph : s.phase = .second) {q : Fin N} {sig : Bytes} (hmem : ⟨q, p, .final sig⟩ ∈ hist)
    (hnew : Counts H key s q (.final sig) → s.finalSent = true ∧ s.finalSig[(q : Nat)]? = some none) :
    QuorumOk H key f hist p (onFinal H key f q sig s) := by
  have hnot : s.phase ≠ .returned := fun hr => by
    rw [hph] at hr
    cases hr
  unfold onFinal
  split
  · exact h
  · rename_i hv
    have hv : verifySignature H (key q) (H s.merkleDecode) sig = true := by simpa using hv
    obtain ⟨hsent, hslot⟩ := hnew hv
    have hadd : QuorumOk H key f hist p (addFinal q sig s) :=
      { h with
        unsigned := fun hf => absurd (hf.symm.trans hsent) Bool.false_ne_true
        finals := h.finals.set hslot ⟨q, rfl, hmem, hv⟩
        returned := fun hr => absurd hr hnot }
    simp only
    split
    · rename_i hk
      exact { hadd with returned := fun _ => hk }
    · exact hadd

/-! ## What the other branches leave alone -/

/-- An `ECHO`. -/
def IsEcho : CommitteeMsg → Prop
  | .echo _ _ _ => True
  | _           => False

instance decidableIsEcho : DecidablePred IsEcho
  | .val _ _    => inferInstanceAs (Decidable False)
  | .relay _    => inferInstanceAs (Decidable False)
  | .echo _ _ _ => inferInstanceAs (Decidable True)
  | .final _    => inferInstanceAs (Decidable False)

/-- A step that counts nothing and sends no `ECHO`. -/
def Idle (s : CommitteeState N) (r : CommitteeState N × List (Fin N × CommitteeMsg)) : Prop :=
  tallies r.1 = tallies s ∧ (r.1.phase = .returned → s.phase = .returned) ∧ ∀ o ∈ r.2, ¬ IsEcho o.2

theorem idle_silent {s₁ : CommitteeState N} (ht : tallies s₁ = tallies s) (hph : s₁.phase = .returned → s.phase = .returned) :
    Idle s (s₁, []) :=
  ⟨ht, hph, nofun⟩

theorem idle_all {s₁ : CommitteeState N} (ht : tallies s₁ = tallies s) (hph : s₁.phase = .returned → s.phase = .returned)
    {l : List (Fin N)} {g : Fin N → CommitteeMsg} (hg : ∀ j, ¬ IsEcho (g j)) : Idle s (s₁, l.map (fun j => (j, g j))) := by
  refine ⟨ht, hph, fun o ho => ?_⟩
  obtain ⟨j, -, rfl⟩ := List.mem_map.1 ho
  exact hg j

theorem takeVal_some {q : Fin N} {target : ValTarget} {val : Bytes} (h : takeVal H q target val s = .ok (some s')) :
    s' = addValue q val s := by
  unfold takeVal at h
  split at h
  · cases h
  · split at h
    · cases h
    · split at h
      · cases h
      · cases h
        rfl

theorem onFirst_idle (s : CommitteeState N) (q : Fin N) (msg : CommitteeMsg) : Idle s (onFirst H z f s q msg) := by
  unfold onFirst
  cases msg with
  | val target val =>
    simp only
    split
    · exact idle_silent rfl nofun
    · exact idle_silent rfl id
    · rename_i s₁ htake
      rw [takeVal_some htake]
      split
      · unfold sendRelays
        split
        · exact idle_silent rfl nofun
        · apply idle_all
          · rfl
          · intro hr
            cases hr
          · exact fun _ => id
      · exact idle_silent rfl id
  | relay r      => exact idle_silent rfl id
  | echo a b c   => exact idle_silent rfl id
  | final sig    => exact idle_silent rfl id

theorem onVal_idle (key : RsaKey) (s : CommitteeState N) (q : Fin N) (target : ValTarget) (val : Bytes) :
    Idle s (onVal H z key f q target val s) := by
  unfold onVal
  split
  · exact idle_silent rfl id
  · split
    · exact idle_silent rfl nofun
    · exact idle_silent rfl id
    · rename_i s₁ htake
      rw [takeVal_some htake]
      split
      · unfold signList
        split
        · exact idle_silent rfl nofun
        · apply idle_all
          · rfl
          · exact id
          · exact fun _ => id
      · exact idle_silent rfl id

theorem Idle.quorum {r : CommitteeState N × List (Fin N × CommitteeMsg)} (hi : Idle s r) (h : QuorumOk H key f hist p s)
    (hph : s.phase ≠ .returned) : QuorumOk H key f hist p r.1 :=
  h.frame hi.1 (fun hr => hph (hi.2.1 hr))

theorem Idle.echoSent {r : CommitteeState N × List (Fin N × CommitteeMsg)} (hi : Idle s r) : r.1.echoSent = s.echoSent := by
  have ht := hi.1
  simp only [tallies, Prod.mk.injEq] at ht
  exact ht.2.2.2.1

/-- **Whoever sends an `ECHO` has set `echo_sent`**, which stays set. -/
theorem onSecond_echo (key : Fin N → RsaKey) (p : Fin N) (s : CommitteeState N) (q : Fin N) (msg : CommitteeMsg) :
    (s.echoSent = true → (onSecond H z key f p s q msg).1.echoSent = true) ∧
      ∀ o ∈ (onSecond H z key f p s q msg).2, IsEcho o.2 → (onSecond H z key f p s q msg).1.echoSent = true := by
  have idle : ∀ {r : CommitteeState N × List (Fin N × CommitteeMsg)}, Idle s r →
      (s.echoSent = true → r.1.echoSent = true) ∧ ∀ o ∈ r.2, IsEcho o.2 → r.1.echoSent = true :=
    fun hi => ⟨fun h => hi.echoSent.trans h, fun o ho he => absurd he (hi.2.2 o ho)⟩
  unfold onSecond
  cases msg with
  | relay r =>
    cases he : s.echoSent with
    | true  =>
      have hidle : onRelay H f q r s = (s, []) := if_pos he
      simp only [hidle]
      exact ⟨fun _ => he, nofun⟩
    | false =>
      rcases onRelay_cases he q r (H := H) (f := f) with heq | ⟨-, heq⟩
      · simp only
        rw [heq]
        exact ⟨nofun, nofun⟩
      · simp only
        rw [heq]
        exact ⟨fun _ => rfl, fun _ _ _ => rfl⟩
  | echo hashStripe merkleProof merkleRoot =>
    simp only
    rcases onEcho_cases (H := H) (z := z) (f := f) (key p) q hashStripe merkleProof merkleRoot s with
      ⟨s', heq, rfl | ⟨e, rfl⟩⟩ | ⟨-, -, -, heq | ⟨-, heq⟩⟩
    · rw [heq]
      exact ⟨id, nofun⟩
    · rw [heq]
      exact ⟨id, nofun⟩
    · rw [heq]
      exact ⟨id, nofun⟩
    · rw [heq]
      unfold recover
      split
      · exact ⟨id, nofun⟩
      · refine ⟨id, fun o ho he => ?_⟩
        obtain ⟨j, -, rfl⟩ := List.mem_map.1 ho
        exact absurd he id
  | val target val => exact idle (onVal_idle _ _ _ _ _)
  | final sig      =>
    simp only [onFinal]
    split
    · exact ⟨id, nofun⟩
    · split
      · exact ⟨id, nofun⟩
      · exact ⟨id, nofun⟩

/-- **A message that the second loop does not miscount keeps the invariant.** -/
theorem onSecond_quorum (h : QuorumOk H key f hist p s) (hph : s.phase = .second) {q : Fin N} {msg : CommitteeMsg}
    (hmem : ⟨q, p, msg⟩ ∈ hist) (hnew : Counts H key s q msg → ¬ Miscounts s q msg) :
    QuorumOk H key f hist p (onSecond H z key f p s q msg).1 := by
  cases msg with
  | relay r                                => exact onRelay_quorum h hmem hph hnew
  | echo hashStripe merkleProof merkleRoot => exact onEcho_quorum h hph (key p) (fun hc => not_not.1 (hnew hc))
  | val target val                         =>
    apply (onVal_idle (key p) s q target val).quorum h
    intro hr
    rw [hph] at hr
    cases hr
  | final sig                              =>
    apply onFinal_quorum h hph hmem
    intro hc
    have hok : ¬ (s.finalSent = false ∨ s.finalSig[(q : Nat)]? ≠ some none) := hnew hc
    rw [not_or, not_not] at hok
    exact ⟨by simpa using hok.1, hok.2⟩

end Invariant

/-! ## Runs -/

theorem refresh_quorum_preserved (H : Hash) (z : Zfec) (key : Fin N → RsaKey) (f : Nat) (all : Bool) (target : List (Fin N))
    (share : Fin N → Bytes) (proof : Fin N → List Bytes) (byz : Finset (Fin N)) :
    Net.Preserved (refresh H z key f all target share proof) byz (CountsOnce H key)
      (fun s s' => s.echoSent = true → s'.echoSent = true) (fun loc hist p => QuorumOk H key f hist p (loc p))
      (fun loc e => IsEcho e.msg → (loc e.src).echoSent = true) where
  grow_refl := fun _ h => h
  grow_wake := by
    intro p t s s' out hw
    rcases refresh_wake hw with ⟨-, hs⟩ | ⟨-, rfl, -⟩
    · rw [Prod.mk.injEq] at hs
      exact fun h => hs.1 ▸ h
    · exact fun h => h
  grow_recv := by
    intro p s q msg s' out hr
    rcases refresh_recv hr with ⟨-, hs⟩ | ⟨-, hs⟩
    · intro h
      have hecho := (onFirst_idle (H := H) (z := z) (f := f) s q msg).echoSent
      rw [← hs] at hecho
      exact hecho.trans h
    · intro h
      have hecho := (onSecond_echo (H := H) (z := z) (f := f) key p s q msg).1 h
      rwa [← hs] at hecho
  local_mono := by
    intro loc loc' hist hist' p _ hsub _ hp h
    rw [hp]
    exact h.hist_mono hsub
  msg_mono := fun _ _ e hg h he => hg e.src (h he)
  init := fun p _ => quorumOk_init (share p)
  wake := by
    intro c p t s out loc' _ hp hL hw hloc _
    rw [hloc]
    refine ⟨?_, ?_⟩
    · rw [Function.update_self]
      rcases refresh_wake hw with ⟨-, hs⟩ | ⟨-, rfl, -⟩
      · rw [Prod.mk.injEq] at hs
        rw [hs.1]
        exact (hL p hp).frame rfl (by simp [sendShare])
      · apply (hL p hp).frame
        · rfl
        · rw [takeProof]
          split <;> simp
    · intro o ho he
      rcases refresh_wake hw with ⟨-, hs⟩ | ⟨-, -, rfl⟩
      · rw [Prod.mk.injEq] at hs
        rw [hs.2] at ho
        obtain ⟨j, -, rfl⟩ := List.mem_map.1 ho
        exact absurd he id
      · cases ho
  recv := by
    intro c e s out loc' hok hp hL _ hr hloc _
    have hdst := (hL e.dst hp).hist_mono (fun x hx => List.mem_cons_of_mem e hx)
    rw [hloc]
    refine ⟨?_, fun o ho he => ?_⟩
    · rw [Function.update_self]
      rcases refresh_recv hr with ⟨hph, hs⟩ | ⟨hph, hs⟩
      · have hidle := (onFirst_idle (H := H) (z := z) (f := f) (c.loc e.dst) e.src e.msg).quorum hdst (by simp [hph])
        rwa [← hs] at hidle
      · have hstep : QuorumOk H key f (e :: c.hist) e.dst (onSecond H z key f e.dst (c.loc e.dst) e.src e.msg).1 :=
          onSecond_quorum hdst hph List.mem_cons_self (hok hph)
        rwa [← hs] at hstep
    · show (Function.update c.loc e.dst s e.dst).echoSent = true
      rw [Function.update_self]
      rcases refresh_recv hr with ⟨-, hs⟩ | ⟨-, hs⟩
      · have hidle := onFirst_idle (H := H) (z := z) (f := f) (c.loc e.dst) e.src e.msg
        rw [← hs] at hidle
        exact absurd he (hidle.2.2 o ho)
      · have hecho := (onSecond_echo (H := H) (z := z) (f := f) key e.dst (c.loc e.dst) e.src e.msg).2
        rw [← hs] at hecho
        exact hecho o ho he

/-- **Equal hashes counted are equal `RELAY`s** from as many parties, or two of the texts collide. -/
theorem QuorumOk.exists_relays {hist : List (Net.Envelope (Fin N) CommitteeMsg)} {p : Fin N} {s : CommitteeState N}
    (h : QuorumOk H key f hist p s) (hcol : ¬ HashTree.Collide H (s.counted.map (fun x => x.2.text))) {b : Bytes} :
    ∃ (r : Relay) (S : Finset (Fin N)), S.card = s.counted.countP (fun x => decide (H x.2.text = b)) ∧
      ∀ q ∈ S, ⟨q, p, .relay r⟩ ∈ hist := by
  rw [List.countP_eq_length_filter]
  have hmem : ∀ x, x ∈ s.counted.filter (fun x => decide (H x.2.text = b)) ↔ x ∈ s.counted ∧ H x.2.text = b := by
    intro x
    rw [List.mem_filter, decide_eq_true_eq]
  cases hl : s.counted.filter (fun x => decide (H x.2.text = b)) with
  | nil      => exact ⟨⟨[], [], [], []⟩, ∅, rfl, nofun⟩
  | cons y l =>
    rw [← hl]
    obtain ⟨hy, hyb⟩ := (hmem y).1 (hl ▸ List.mem_cons_self)
    have heq : ∀ x ∈ s.counted.filter (fun x => decide (H x.2.text = b)), x.2 = y.2 := by
      intro x hx
      obtain ⟨hx, hxb⟩ := (hmem x).1 hx
      by_contra hne
      exact hcol ⟨_, List.mem_map.2 ⟨x, hx, rfl⟩, _, List.mem_map.2 ⟨y, hy, rfl⟩, fun ht => hne (Relay.text_inj ht),
        hxb.trans hyb.symm⟩
    obtain ⟨S, hcard, hS⟩ := Slots.exists_senders (h.once.filter _) heq
    exact ⟨y.2, S, hcard, fun q hq => h.heard q y.2 ((hmem _).1 (hS q hq)).1⟩

/-- What the thresholds are for. -/
structure Quorums (H : Hash) (key : Fin N → RsaKey) (f : Nat) (c : Net.Conf (Fin N) (CommitteeState N) CommitteeMsg)
    (p : Fin N) : Prop where
  echo : ∀ e, e ∈ c.net ∨ e ∈ c.hist → e.src = p → IsEcho e.msg →
    (∃ (r : Relay) (S : Finset (Fin N)), N - 2 * f ≤ S.card ∧ ∀ q ∈ S, ⟨q, p, .relay r⟩ ∈ c.hist) ∨
      HashTree.Collide H ((c.loc p).counted.map (fun x => x.2.text))
  decode : (c.loc p).finalSent = true → ∃ S : Finset (Fin N), N - 2 * f ≤ S.card ∧ ∀ q ∈ S, ∃ hashStripe,
    (c.loc p).echoHash[(q : Nat)]? = some (some hashStripe) ∧ Verified H N (c.loc p).relayRoot q hashStripe
  returned : (c.loc p).phase = .returned → ∃ S : Finset (Fin N), N - 2 * f ≤ S.card ∧ ∀ q ∈ S, ∃ sig,
    ⟨q, p, .final sig⟩ ∈ c.hist ∧ verifySignature H (key q) (H (c.loc p).merkleDecode) sig = true

end Committee

open Committee
open Refresh0 (plainKey stripesOfTwo)

section Quorums

variable {H : Hash} {z : Zfec} {N : Nat} {key : Fin N → RsaKey} {f : Nat} {all : Bool} {target : List (Fin N)}
  {share : Fin N → Bytes} {proof : Fin N → List Bytes} {byz : Finset (Fin N)}
  {c : Net.Conf (Fin N) (CommitteeState N) CommitteeMsg}

/-- **The quorums of the committee refresh**, while no sender is counted twice.  A good party sends its `ECHO` after
equal `RELAY`s from `K` parties, or two of the texts it hashed collide; it decodes once `K` slots of `echo_hash` hold
verified stripes; it returns after signatures from `K` parties on the list it decoded. -/
theorem refresh_quorums (hc : Net.Run (refresh H z key f all target share proof) byz (CountsOnce H key) c) {p : Fin N}
    (hp : p ∉ byz) : Quorums H key f c p := by
  have hall := (refresh_quorum_preserved H z key f all target share proof byz).run hc
  have hok := hall.loc p hp
  refine ⟨fun e he hsrc hecho => ?_, fun hf => ?_, fun hret => ?_⟩
  · have hsent : (c.loc p).echoSent = true := by
      rcases he with he | he
      · exact hsrc ▸ hall.net e he (hsrc ▸ hp) hecho
      · exact hsrc ▸ hall.hist e he (hsrc ▸ hp) hecho
    by_cases hcol : HashTree.Collide H ((c.loc p).counted.map (fun x => x.2.text))
    · exact Or.inr hcol
    · obtain ⟨b, hb⟩ := hok.echo hsent
      obtain ⟨r, S, hcard, hS⟩ := hok.exists_relays hcol (b := b)
      exact Or.inl ⟨r, S, hcard ▸ hb, hS⟩
  · obtain ⟨S, hcard, hS⟩ := hok.echoes.exists_senders
    exact ⟨S, hcard ▸ hok.final hf, hS⟩
  · obtain ⟨S, hcard, hS⟩ := hok.finals.exists_senders
    refine ⟨S, hcard ▸ hok.returned hret, fun q hq => ?_⟩
    obtain ⟨sig, -, q', hq', hmem, hv⟩ := hS q hq
    rw [Fin.ext hq'] at hmem hv
    exact ⟨sig, hmem, hv⟩

/-- The stripes of the hash list of `stripesOfTwo`. -/
def stripesOfHashes : List Bytes :=
  ((encode zfecTwo 2 4 (hashList sha256 stripesOfTwo)).toOption).getD []

/-- Party 0 sends its `ECHO` after the `RELAY`s of the two members, decodes after its own `ECHO` and that of member 1,
and returns after the `FINAL`s of member 1 and of party 3.  Member 1 signs because party 3 sent it a `VAL` that matches
the branch left in `proof`. -/
theorem refresh_quorums_four :
    ∃ c, Net.Run (fourCommittee false [1, 2]) {3} (CountsOnce sha256 (fun _ => plainKey)) c ∧
      (∃ e ∈ c.net, e.src = 0 ∧ IsEcho e.msg) ∧ (c.loc 0).finalSent = true ∧ (c.loc 0).phase = .returned ∧
      Quorums sha256 (fun _ => plainKey) 1 c 0 := by
  have hrun : (Net.exec (fourCommittee false [1, 2]) {3} (fun c l => decide (CountsOnce sha256 (fun _ => plainKey) c l))
      [.wake 0 .send, .wake 0 .add, .wake 1 .send, .wake 1 .add, .wake 2 .send, .wake 2 .add, .recv 2, .recv 0, .recv 4,
        .recv 4, .recv 0, .recv 3, .recv 4, .recv 6, .recv 0, .recv 3,
        .inject ⟨3, 1, .val (.int 0) (stripesOfHashes.getD 2 [])⟩, .recv 0, .recv 0,
        .inject ⟨3, 0, .final (signData sha256 plainKey (sha256 (hashList sha256 stripesOfTwo).encode))⟩, .recv 0]
      (fourCommittee false [1, 2]).start).any (fun c => c.net.any (fun e => decide (e.src = 0 ∧ IsEcho e.msg)) &&
        (c.loc 0).finalSent && decide ((c.loc 0).phase = .returned)) = true := by
    decide +kernel
  obtain ⟨c, hc, hres⟩ := Net.exists_run_of_exec hrun (fun _ _ h => of_decide_eq_true h)
  rw [Bool.and_eq_true, Bool.and_eq_true, List.any_eq_true] at hres
  obtain ⟨⟨⟨e, he, hecho⟩, hfinal⟩, hreturned⟩ := hres
  exact ⟨c, hc, ⟨e, he, of_decide_eq_true hecho⟩, hfinal, of_decide_eq_true hreturned,
    refresh_quorums hc (by decide)⟩

def shortRelay : Relay := ⟨[1], [2], [], [3]⟩

/-- Party 3 sends party 0 one `RELAY` twice. -/
theorem refresh_quorums_counterexample : ¬ ∀ c, Net.Reachable (fourCommittee false [1, 2]) {3} c →
    ∀ p ∉ ({3} : Finset (Fin 4)), Quorums sha256 (fun _ => plainKey) 1 c p := by
  intro h
  have hrun : (Net.exec (fourCommittee false [1, 2]) {3} (fun _ _ => true)
      [.wake 0 .send, .wake 0 .add, .inject ⟨3, 0, .relay shortRelay⟩, .recv 0, .inject ⟨3, 0, .relay shortRelay⟩,
        .recv 0] (fourCommittee false [1, 2]).start).any (fun c => c.hist.all (fun e => decide (e.src = 3)) &&
      (c.loc 0).counted.all (fun x => decide (x.2 = shortRelay)) &&
      c.net.any (fun e => decide (e.src = 0 ∧ e.msg = .echo [2] [] (sha256 [3])))) = true := by
    decide +kernel
  obtain ⟨c, hc, hres⟩ := Net.exists_run_of_exec hrun (fun _ _ _ => trivial)
  rw [Bool.and_eq_true, Bool.and_eq_true, List.all_eq_true, List.all_eq_true, List.any_eq_true] at hres
  obtain ⟨⟨hhist, hcounted⟩, e, he, hecho⟩ := hres
  obtain ⟨hsrc, hmsg⟩ := of_decide_eq_true hecho
  rcases (h c hc 0 (by decide)).echo e (Or.inl he) hsrc (by rw [hmsg]; trivial) with ⟨r, S, hcard, hS⟩ | hcol
  · -- the two senders are both party 3
    have hsub : S ⊆ {3} := fun q hq => Finset.mem_singleton.2 (of_decide_eq_true (hhist _ (hS q hq)))
    have hle := Finset.card_le_card hsub
    rw [Finset.card_singleton] at hle
    omega
  · obtain ⟨x, hx, y, hy, hne, -⟩ := hcol
    obtain ⟨a, ha, rfl⟩ := List.mem_map.1 hx
    obtain ⟨b, hb, rfl⟩ := List.mem_map.1 hy
    exact hne (by rw [of_decide_eq_true (hcounted a ha), of_decide_eq_true (hcounted b hb)])

end Quorums

end Dpid
