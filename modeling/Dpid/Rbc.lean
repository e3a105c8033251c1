import Dpid.Coding
import Dpid.Merkle
import Dpid.Net
import Mathlib.Data.Fintype.Card
import Mathlib.Data.List.OfFn
/-!
# Rbc — `reliablebroadcast` (`honeybadgerbft/core/reliablebroadcast.py`)

One party's state, the code before the main loop (`start`) and the three branches of the loop (`onVal`, `onEcho`,
`onReady`), and the protocol as a `Net.Proto`.  `stripes`, `echoCounter` and `ready` are `defaultdict`s: functions of
the root hash.  A party that has decided keeps the root it decided on and what `decode_output` gave, a value or an
exception.  `hashed` is history: the strings the party has hashed.
-/
namespace Dpid

inductive RbcMsg where
  | val (roothash : Bytes) (branch : List Bytes) (stripe : Bytes)
  | echo (roothash : Bytes) (branch : List Bytes) (stripe : Bytes)
  | ready (roothash : Bytes)
deriving DecidableEq

inductive RbcPhase where
  | input
  | loop
  | decided (roothash : Bytes) (m : Except Exn Bytes)
  | raised (e : Exn)
deriving DecidableEq

structure RbcState (N : Nat) where
  phase : RbcPhase
  fromLeader : Option Bytes
  stripes : Bytes → Fin N → Option Bytes
  echoCounter : Bytes → Nat
  echoSenders : Finset (Fin N)
  ready : Bytes → Finset (Fin N)
  readySent : Bool
  readySenders : Finset (Fin N)
  hashed : List Bytes

namespace Rbc

variable {N : Nat}

def init : RbcState N where
  phase := .input
  fromLeader := none
  stripes := fun _ _ => none
  echoCounter := fun _ => 0
  echoSenders := ∅
  ready := fun _ => ∅
  readySent := false
  readySenders := ∅
  hashed := []

/-- `for i in range(N): send(i, o)`. -/
def broadcast {M : Type} (o : M) : List (Fin N × M) := (List.finRange N).map (fun i => (i, o))

/-- `decode_output`, on the stripes stored for `roothash`. -/
def decodeOutput (H : Hash) (z : Zfec) (f : Nat) (stripes : Fin N → Option Bytes) (roothash : Bytes) :
    Except Exn Bytes := do
  let m ← decode z (N - 2 * f) N (List.ofFn stripes)
  let stripes' ← encode z (N - 2 * f) N (.bytes m)
  let mt ← merkleTree H stripes'
  if mt.getD 1 [] ≠ roothash then throw .assertionError
  return m

/-- The strings `decode_output` hashes. -/
def decodeOutputHashed (H : Hash) (z : Zfec) (f : Nat) (stripes : Fin N → Option Bytes) : List Bytes :=
  match decode z (N - 2 * f) N (List.ofFn stripes) with
  | .error _ => []
  | .ok m    =>
    match encode z (N - 2 * f) N (.bytes m) with
    | .error _     => []
    | .ok stripes' => merkleTreeHashed H stripes'

/-! ## The code before the loop -/

/-- The `VAL` of party `i`. -/
def valMsg (mt stripes : List Bytes) (i : Fin N) : RbcMsg :=
  .val (mt.getD 1 []) (getMerkleBranch i mt) (stripes.getD i [])

def start (H : Hash) (z : Zfec) (f : Nat) (leader : Fin N) (input : Text) (pid : Fin N) (s : RbcState N) :
    RbcState N × List (Fin N × RbcMsg) :=
  if ¬ 3 * f + 1 ≤ N then ({ s with phase := .raised .assertionError }, [])
  else if pid = leader then
    match encode z (N - 2 * f) N input with
    | .error e    => ({ s with phase := .raised e }, [])
    | .ok stripes =>
      match merkleTree H stripes with
      | .error e => ({ s with phase := .raised e }, [])
      | .ok mt   =>
        ({ s with phase := .loop, hashed := merkleTreeHashed H stripes ++ s.hashed },
          (List.finRange N).map (fun i => (i, valMsg mt stripes i)))
  else ({ s with phase := .loop }, [])

/-! ## The loop -/

/-- `if cond and not readySent: readySent = True; broadcast(('READY', roothash))`. -/
def sendReady (cond : Prop) [Decidable cond] (roothash : Bytes) (s : RbcState N) :
    RbcState N × List (Fin N × RbcMsg) :=
  if cond ∧ s.readySent = false then ({ s with readySent := true }, broadcast (.ready roothash)) else (s, [])

/-- `if len(ready[roothash]) >= OutputThreshold and echoCounter[roothash] >= K: return decode_output(roothash)`. -/
def output (H : Hash) (z : Zfec) (f : Nat) (roothash : Bytes) (s : RbcState N) : RbcState N :=
  if 2 * f + 1 ≤ (s.ready roothash).card ∧ N - 2 * f ≤ s.echoCounter roothash then
    { s with
      phase := .decided roothash (decodeOutput H z f (s.stripes roothash) roothash)
      hashed := decodeOutputHashed H z f (s.stripes roothash) ++ s.hashed }
  else s

def onVal (H : Hash) (leader pid sender : Fin N) (roothash : Bytes) (branch : List Bytes) (stripe : Bytes)
    (s : RbcState N) : RbcState N × List (Fin N × RbcMsg) :=
  match s.fromLeader with
  | some _ => (s, [])
  | none   =>
    if sender ≠ leader then (s, [])
    else
      let s := { s with hashed := merkleVerifyHashed H N stripe branch pid ++ s.hashed }
      match merkleVerify H N stripe roothash branch pid with
      | .ok true => ({ s with fromLeader := some roothash }, broadcast (.echo roothash branch stripe))
      | _        => (s, [])

/-- `stripes[roothash][sender] = stripe; echoSenders.add(sender); echoCounter[roothash] += 1`. -/
def addEcho (sender : Fin N) (roothash stripe : Bytes) (s : RbcState N) : RbcState N :=
  { s with
    stripes := Function.update s.stripes roothash (Function.update (s.stripes roothash) sender (some stripe))
    echoSenders := insert sender s.echoSenders
    echoCounter := Function.update s.echoCounter roothash (s.echoCounter roothash + 1) }

def onEcho (H : Hash) (z : Zfec) (f : Nat) (sender : Fin N) (roothash : Bytes) (branch : List Bytes) (stripe : Bytes)
    (s : RbcState N) : RbcState N × List (Fin N × RbcMsg) :=
  if (s.stripes roothash sender).isSome ∨ sender ∈ s.echoSenders then (s, [])
  else
    let s := { s with hashed := merkleVerifyHashed H N stripe branch sender ++ s.hashed }
    match merkleVerify H N stripe roothash branch sender with
    | .ok true =>
      let s := addEcho sender roothash stripe s
      let (s, out) := sendReady (N - f ≤ s.echoCounter roothash) roothash s
      (output H z f roothash s, out)
    | .ok false              => (s, [])
    | .error .assertionError => (s, [])
    | .error e               => ({ s with phase := .raised e }, [])

/-- `ready[roothash].add(sender); readySenders.add(sender)`. -/
def addReady (sender : Fin N) (roothash : Bytes) (s : RbcState N) : RbcState N :=
  { s with
    ready := Function.update s.ready roothash (insert sender (s.ready roothash))
    readySenders := insert sender s.readySenders }

def onReady (H : Hash) (z : Zfec) (f : Nat) (sender : Fin N) (roothash : Bytes) (s : RbcState N) :
    RbcState N × List (Fin N × RbcMsg) :=
  if sender ∈ s.ready roothash ∨ sender ∈ s.readySenders then (s, [])
  else
    let s := addReady sender roothash s
    let (s, out) := sendReady (f + 1 ≤ (s.ready roothash).card) roothash s
    (output H z f roothash s, out)

/-- One pass of the loop. -/
def onMsg (H : Hash) (z : Zfec) (f : Nat) (leader pid : Fin N) (s : RbcState N) (sender : Fin N) :
    RbcMsg → RbcState N × List (Fin N × RbcMsg)
  | .val roothash branch stripe  => onVal H leader pid sender roothash branch stripe s
  | .echo roothash branch stripe => onEcho H z f sender roothash branch stripe s
  | .ready roothash              => onReady H z f sender roothash s

end Rbc

open Rbc in
/-- `reliablebroadcast` at all `N` parties: a party in its loop takes one message a step. -/
def reliablebroadcast (H : Hash) (z : Zfec) {N : Nat} (f : Nat) (leader : Fin N) (input : Text) :
    Net.Proto (Fin N) Unit (RbcState N) RbcMsg where
  init := fun _ => init
  wake := fun pid _ s => if s.phase = .input then some (start H z f leader input pid s) else none
  recv := fun pid s sender msg => if s.phase = .loop then some (onMsg H z f leader pid s sender msg) else none

/-- The party has returned `m`. -/
def RbcState.Returned {N : Nat} (s : RbcState N) (m : Bytes) : Prop := ∃ roothash, s.phase = .decided roothash (.ok m)

end Dpid
