import Dpid.Multicast
import Dpid.Rbc
import Dpid.RbcVc
import Dpid.Refresh2
/-!
# InfoDispersal2 — `InfoDispersal2._run_round` (`dpid/core/info_dispersal_2.py`)

A round runs four protocols at each party, each starting when the one before it has returned there: the broadcast of
party 0, `rbc_vc_check`, and `multicast` of the commitment next to `refresh`, whose second half waits for the first.
`broadcast_receiver_loop` sorts the messages by their tag; a message whose protocol is not in its loop stays in flight.

A thread is killed only after it has returned.  The round returns what `refresh` returns.
-/
namespace Dpid
namespace InfoDispersal2

/-- The tags of the messages. -/
inductive RoundMsg where
  | acsRbc (m : RbcMsg)
  | verify (sig : Bytes)
  | add (m : Proof (Int × Int))
  | refresh (m : RefreshMsg)

/-- `rbc_thread`, `check_thread`, `add_thread` and `refresh_thread`. -/
inductive RoundThread where
  | rbc
  | check
  | add
  | refresh (t : Refresh.Thread)

structure RoundState (N : Nat) where
  rbc : RbcState N
  check : VcState N
  add : McState N (Int × Int)
  refresh : RefreshState N

def size : Nat := 160

section Round

variable (E : Curve) (H : Hash) (z : Zfec) (R : Rsa) {N : Nat} [NeZero N] (f : Nat) (input : Text)

def init : RoundState N := ⟨Rbc.init, RbcVc.init, Multicast.init, Refresh.init size⟩

/-- `send(k, (tag, pid, o))`. -/
def tagged {M : Type} (tag : M → RoundMsg) (out : List (Fin N × M)) : List (Fin N × RoundMsg) :=
  out.map (fun o => (o.1, tag o.2))

/-- The first step of a thread, and the second of `refresh`.  When the broadcast has raised, `rbc_vc_check` encodes
`None`. -/
def wake (pid : Fin N) (t : RoundThread) (s : RoundState N) : Option (RoundState N × List (Fin N × RoundMsg)) :=
  match t with
  | .rbc =>
    ((reliablebroadcast H z f 0 input).wake pid () s.rbc).map (fun r => ({ s with rbc := r.1 }, tagged .acsRbc r.2))
  | .check =>
    match s.rbc.phase, s.check.phase with
    | .decided _ (.ok target), .waiting =>
      let r := RbcVc.start E H z R size target s.check
      some ({ s with check := r.1 }, tagged .verify r.2)
    | .decided _ (.error _), .waiting => some ({ s with check := { s.check with phase := .raised .typeError } }, [])
    | .raised _, .waiting => some ({ s with check := { s.check with phase := .raised .typeError } }, [])
    | _, _ => none
  | .add =>
    match s.check.phase, s.add.phase with
    | .returned _, .input =>
      let r := Multicast.start pid s.check.commitment s.add
      some ({ s with add := r.1 }, tagged .add r.2)
    | _, _ => none
  | .refresh .send =>
    match s.check.phase, s.refresh.phase with
    | .returned share, .start =>
      let r := Refresh.sendShare 0 pid share s.refresh
      some ({ s with refresh := r.1 }, tagged .refresh r.2)
    | _, _ => none
  | .refresh .commit =>
    match s.add.phase, s.refresh.phase with
    | .returned commitment, .waiting => some ({ s with refresh := Refresh.takeCommitment 0 pid commitment s.refresh }, [])
    | _, _ => none

/-- One message taken from the queue of its tag. -/
def recv (pid : Fin N) (s : RoundState N) (sender : Fin N) (msg : RoundMsg) :
    Option (RoundState N × List (Fin N × RoundMsg)) :=
  match msg with
  | .acsRbc m =>
    ((reliablebroadcast H z f 0 input).recv pid s.rbc sender m).map (fun r => ({ s with rbc := r.1 }, tagged .acsRbc r.2))
  | .verify sig =>
    if s.check.phase = .loop then some ({ s with check := RbcVc.onVal E H R f size pid sender sig s.check }, []) else none
  | .add m =>
    match s.add.phase with
    | .loop v => some ({ s with add := Multicast.onProof f sender m v s.add }, [])
    | _       => none
  | .refresh m =>
    (Refresh.onMsg E H z size s.refresh sender m).map (fun r => ({ s with refresh := r.1 }, tagged .refresh r.2))

/-- One round at all `N` parties; `input` is the message of party 0. -/
def runRound : Net.Proto (Fin N) RoundThread (RoundState N) RoundMsg where
  init := fun _ => init
  wake := wake E H z R f input
  recv := recv E H z R f input

end Round

/-- An exception in one of the threads. -/
def Raised {N : Nat} (s : RoundState N) : Prop :=
  (∃ e, s.rbc.phase = .raised e) ∨ (∃ roothash e, s.rbc.phase = .decided roothash (.error e)) ∨
    (∃ e, s.check.phase = .raised e) ∨ ∃ e, s.refresh.phase = .raised e

/-- The round has returned `target`. -/
def Returned {N : Nat} (s : RoundState N) (target : List Entry) : Prop :=
  ∃ channel, s.refresh.phase = .returned target channel

end InfoDispersal2
end Dpid
