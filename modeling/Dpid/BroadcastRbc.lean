import Dpid.RbcInv
import Dpid.Refresh0Decode
import Mathlib
/-!
# BroadcastRbc — `reliablebroadcast` (`broadcast/reliablebroadcast.py`)

The function of `Dpid/Rbc.lean` but for one branch: the stripe of an `ECHO` is stored unverified, since `decode_output`
encodes what it decodes and compares the roots.  That check protects the result and not the party: one bad stripe among
the first `k` makes it fail, and the party raises.
`client_mode` is `False`, its default; nothing in the repository sets it.
-/
namespace Dpid
namespace Broadcast

open Rbc (decodeOutput decodeOutputHashed decodeOutput_eq_ok sendReady output addEcho addReady mem_broadcast)

variable {N : Nat}

/-- The stripe is stored whatever its branch. -/
def onEcho (H : Hash) (z : Zfec) (f : Nat) (sender : Fin N) (roothash : Bytes) (stripe : Bytes) (s : RbcState N) :
    RbcState N × List (Fin N × RbcMsg) :=
  if (s.stripes roothash sender).isSome ∨ sender ∈ s.echoSenders then (s, [])
  else
    let s := addEcho sender roothash stripe s
    let (s, out) := sendReady (N - f ≤ s.echoCounter roothash) roothash s
    (output H z f roothash s, out)

/-- One pass of the loop. -/
def onMsg (H : Hash) (z : Zfec) (f : Nat) (leader pid : Fin N) (s : RbcState N) (sender : Fin N) :
    RbcMsg → RbcState N × List (Fin N × RbcMsg)
  | .val roothash branch stripe => Rbc.onVal H leader pid sender roothash branch stripe s
  | .echo roothash _ stripe     => onEcho H z f sender roothash stripe s
  | .ready roothash             => Rbc.onReady H z f sender roothash s

/-- `reliablebroadcast` at all parties. -/
def reliablebroadcast (H : Hash) (z : Zfec) (f : Nat) (leader : Fin N) (input : Text) :
    Net.Proto (Fin N) Unit (RbcState N) RbcMsg where
  init := fun _ => Rbc.init
  wake := fun pid _ s => if s.phase = .input then some (Rbc.start H z f leader input pid s) else none
  recv := fun pid s sender msg => if s.phase = .loop then some (onMsg H z f leader pid s sender msg) else none

/-! ## What a counted message does -/

/-- The root a message is counted for and the state with the message counted; `none` if it is redundant or a `VAL`. -/
def counted (s : RbcState N) (sender : Fin N) : RbcMsg → Option (Bytes × RbcState N)
  | .val _ _ _      => none
  | .echo r _ b     =>
    if (s.stripes r sender).isSome ∨ sender ∈ s.echoSenders then none else some (r, addEcho sender r b s)
  | .ready r        => if sender ∈ s.ready r ∨ sender ∈ s.readySenders then none else some (r, addReady sender r s)

/-- The stripes that `decode` takes are the leader's. -/
def PicksGenuine (K : Nat) (S : List Bytes) (got : List (Option Bytes)) : Prop :=
  ∀ x ∈ (present 0 got).take K, S[x.1]? = some x.2

instance decidablePicksGenuine (K : Nat) (S : List Bytes) (got : List (Option Bytes)) :
    Decidable (PicksGenuine K S got) :=
  inferInstanceAs (Decidable (∀ x ∈ (present 0 got).take K, S[x.1]? = some x.2))

/-- A message that brings a party to `decode_output` finds the first `K` stripes there to be the leader's. -/
def PicksOk (f : Nat) (S : List Bytes) (c : Net.Conf (Fin N) (RbcState N) RbcMsg) : Net.Label (Fin N) Unit RbcMsg → Prop
  | .recv e => ∀ x ∈ counted (c.loc e.dst) e.src e.msg, 2 * f + 1 ≤ (x.2.ready x.1).card →
      N - 2 * f ≤ x.2.echoCounter x.1 → PicksGenuine (N - 2 * f) S (List.ofFn (x.2.stripes x.1))
  | _       => True

instance decidablePicksOk (f : Nat) (S : List Bytes) (c : Net.Conf (Fin N) (RbcState N) RbcMsg) :
    ∀ l, Decidable (PicksOk f S c l)
  | .wake _ _ => inferInstanceAs (Decidable True)
  | .recv e   => inferInstanceAs (Decidable (∀ x ∈ counted (c.loc e.dst) e.src e.msg, _ → _ → _))
  | .inject _ => inferInstanceAs (Decidable True)

section Steps

variable {H : Hash} {z : Zfec} {f : Nat} {leader : Fin N} {input : Text} {s : RbcState N}

/-- **An `ECHO` or `READY` is passed over, or counted**; then it may lead to a `READY` and to the output. -/
theorem onMsg_cases (pid sender : Fin N) (msg : RbcMsg) (hval : ∀ r branch b, msg ≠ .val r branch b) :
    onMsg H z f leader pid s sender msg = (s, []) ∨ ∃ r s₁, counted s sender msg = some (r, s₁) ∧
      ((msg = .ready r ∧ onMsg H z f leader pid s sender msg =
          (output H z f r (sendReady (f + 1 ≤ (s₁.ready r).card) r s₁).1, (sendReady (f + 1 ≤ (s₁.ready r).card) r s₁).2)) ∨
        ((∃ branch b, msg = .echo r branch b) ∧ onMsg H z f leader pid s sender msg =
          (output H z f r (sendReady (N - f ≤ s₁.echoCounter r) r s₁).1, (sendReady (N - f ≤ s₁.echoCounter r) r s₁).2))) := by
  cases msg with
  | val r branch b  => exact absurd rfl (hval r branch b)
  | echo r branch b =>
    by_cases hold : (s.stripes r sender).isSome ∨ sender ∈ s.echoSenders
    · left
      exact if_pos hold
    · right
      refine ⟨r, addEcho sender r b s, if_neg hold, Or.inr ⟨⟨branch, b, rfl⟩, ?_⟩⟩
      show onEcho H z f sender r b s = _
      rw [onEcho, if_neg hold]
  | ready r         =>
    by_cases hold : sender ∈ s.ready r ∨ sender ∈ s.readySenders
    · left
      exact if_pos hold
    · right
      refine ⟨r, addReady sender r s, if_neg hold, Or.inl ⟨rfl, ?_⟩⟩
      show Rbc.onReady H z f sender r s = _
      rw [Rbc.onReady, if_neg hold]

theorem reliablebroadcast_wake {p : Fin N} {t : Unit} {s' : RbcState N} {out : List (Fin N × RbcMsg)}
    (h : (reliablebroadcast H z f leader input).wake p t s = some (s', out)) :
    s.phase = .input ∧ (s', out) = Rbc.start H z f leader input p s := by
  simp only [reliablebroadcast, Option.ite_none_right_eq_some, Option.some.injEq] at h
  exact ⟨h.1, h.2.symm⟩

theorem reliablebroadcast_recv {p q : Fin N} {s' : RbcState N} {m : RbcMsg} {out : List (Fin N × RbcMsg)}
    (h : (reliablebroadcast H z f leader input).recv p s q m = some (s', out)) :
    s.phase = .loop ∧ (s', out) = onMsg H z f leader p s q m := by
  simp only [reliablebroadcast, Option.ite_none_right_eq_some, Option.some.injEq] at h
  exact ⟨h.1, h.2.symm⟩

theorem sendReady_same (cond : Prop) [Decidable cond] (r : Bytes) (s : RbcState N) :
    ∃ sent, (sendReady cond r s).1 = { s with readySent := sent } := by
  unfold sendReady
  split
  · exact ⟨true, rfl⟩
  · exact ⟨s.readySent, rfl⟩

end Steps

end Broadcast
end Dpid
