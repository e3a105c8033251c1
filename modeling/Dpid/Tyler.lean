import Dpid.Aba
import Mathlib
/-!
# Tyler — the two-level binary agreement `tylerba` (`broadcast/tylerba2.py`, `broadcast/tylerba_beacon.py`)

A round is two binary-value broadcasts.  The first ends with a set of bits, which is sent in `AUXSET`; what the wait for
`AUXSET`s returns, a bit or `2` for both, is the estimate of the second.  The set the second ends with decides, is the
next estimate, or asks for the coin.

A message is one number, `r*100 + v*10 + tag`.  `_recv` is a task beside the main one, which ends with it; an exception
ends it alone.  A step of the main task is one pass of the loop it stands in: if the condition of the loop does not hold
it clears the signal of the loop and waits for `_recv` to set it.  `_recv` runs only while the main task waits; here it
may run between any two passes.

`next(iter(..))` takes any element: a parameter, as is what `_coin` gives.  `AC` messages are not modelled: they are
sent from within `_coin` only.  The two files differ after a set that is not a single value: `tylerba2` calls `_coin`
with one argument too few, `tylerba_beacon` makes a coroutine that it does not run.  They differ in what they give to
`decide`, too: the one the value, the other the pair of `sid` and the value.

History: `started` is the rounds begun, each with its estimate, `decisions` what was given to `decide`; `auxsetSent`
keeps the value sent, too.
-/
namespace Dpid

inductive ABAMsgType where
  | aux
  | aux2
  | est
  | est2
  | auxset
deriving DecidableEq

def ABAMsgType.code : ABAMsgType → Int
  | .aux    => 1
  | .aux2   => 2
  | .est    => 3
  | .est2   => 4
  | .auxset => 5

inductive TylerFile where
  | tylerba2
  | beacon (sid : String)
deriving DecidableEq

/-- What `decide` is called with. -/
inductive Decision where
  | value (v : Int)
  | pair (sid : String) (v : Int)
deriving DecidableEq

/-- `decide(v)` in the one file, `decide((sid, v))` in the other. -/
def TylerFile.decision : TylerFile → Int → Decision
  | .tylerba2,   v => .value v
  | .beacon sid, v => .pair sid v

/-- The loops of a round in which the main task waits. -/
inductive TylerWait where
  | bin
  | aux
  | auxset
  | bin2
  | aux2
  | coin
deriving DecidableEq

inductive TylerPhase where
  | input
  | wait (r : Nat) (w : TylerWait)
  | returned
  | raised (e : Exn)
deriving DecidableEq

/-- The tables of a binary-value broadcast: `est_values`, `est_sent` and `bin_values`, or those with a `2`. -/
structure BvTables (N : Nat) where
  values : Int → Int → Finset (Fin N)
  sent : Int → Int → Bool
  bin : Int → Finset Int

structure TylerState (N : Nat) where
  phase : TylerPhase
  blocked : Bool
  recv : RecvPhase
  bv : BvTables N
  bv2 : BvTables N
  auxValues : Int → Int → Finset (Fin N)
  auxValues2 : Int → Int → Finset (Fin N)
  auxsetValues : Int → Int → Finset (Fin N)
  auxsetSent : Int → Option Int
  bvSignal : Bool
  auxSignal : Bool
  auxsetSignal : Bool
  lastV : Option Int
  alreadyDecided : Option Int
  started : List (Nat × Int)
  decisions : List Decision

namespace Tyler

open Aba (set2)

variable {N : Nat}

def emptyTables : BvTables N where
  values := fun _ _ => ∅
  sent := fun _ _ => false
  bin := fun _ => ∅

def init : TylerState N where
  phase := .input
  blocked := false
  recv := .running
  bv := emptyTables
  bv2 := emptyTables
  auxValues := fun _ _ => ∅
  auxValues2 := fun _ _ => ∅
  auxsetValues := fun _ _ => ∅
  auxsetSent := fun _ => none
  bvSignal := false
  auxSignal := false
  auxsetSignal := false
  lastV := none
  alreadyDecided := none
  started := []
  decisions := []

def parseMsg (msg : Int) : Int × Int × Int := (msg % 10, msg / 10 % 10, msg / 10 / 10)

def encodeMsg (tag : ABAMsgType) (v r : Int) : Int := r * 100 + v * 10 + tag.code

/-- `broadcast(o)`: to all of `node_ids`. -/
def broadcast (o : Int) : List (Fin N × Int) := (List.finRange N).map (fun i => (i, o))

/-! ## `_recv` -/

/-- The first threshold: the `EST` is passed on. -/
def Relays (f : Nat) (sender : Fin N) (r v : Int) (b : BvTables N) : Prop :=
  f + 1 ≤ (insert sender (b.values r v)).card ∧ b.sent r v = false

instance decidableRelays (f : Nat) (sender : Fin N) (r v : Int) (b : BvTables N) : Decidable (Relays f sender r v b) :=
  inferInstanceAs (Decidable (_ ∧ _))

/-- The second threshold. -/
def Outputs (f : Nat) (sender : Fin N) (r v : Int) (b : BvTables N) : Prop :=
  2 * f + 1 ≤ (insert sender (b.values r v)).card

instance decidableOutputs (f : Nat) (sender : Fin N) (r v : Int) (b : BvTables N) :
    Decidable (Outputs f sender r v b) :=
  inferInstanceAs (Decidable (_ ≤ _))

/-- `est_values[r][v].add(sender)` and the two thresholds. -/
def addEst (f : Nat) (sender : Fin N) (r v : Int) (b : BvTables N) : BvTables N where
  values := set2 b.values r v (insert sender (b.values r v))
  sent := if Relays f sender r v b then set2 b.sent r v true else b.sent
  bin := if Outputs f sender r v b then Function.update b.bin r (insert v (b.bin r)) else b.bin

/-- `EST` and `EST2`: the tables, the messages, and whether `bv_signal` is set. -/
def onEst (f : Nat) (tag : ABAMsgType) (sender : Fin N) (v r : Int) (b : BvTables N) :
    Except Exn (BvTables N × List (Fin N × Int) × Bool) := do
  if ¬ (v = 0 ∨ v = 1) then throw .assertionError
  if sender ∈ b.values r v then throw .redundantMessageError
  return (addEst f sender r v b, if Relays f sender r v b then broadcast (encodeMsg tag v r) else [],
    decide (Outputs f sender r v b))

/-- `AUX` and `AUX2`: the table. -/
def onAux (sender : Fin N) (v r : Int) (values : Int → Int → Finset (Fin N)) :
    Except Exn (Int → Int → Finset (Fin N)) := do
  if ¬ (v = 0 ∨ v = 1) then throw .assertionError
  if sender ∈ values r v then throw .redundantMessageError
  return set2 values r v (insert sender (values r v))

/-- `handle_auxset_messages`; `0`, `1` and `2` stand for the keys `(0,)`, `(1,)` and `(0, 1)`. -/
def onAuxset (sender : Fin N) (w r : Int) (values : Int → Int → Finset (Fin N)) :
    Except Exn (Int → Int → Finset (Fin N)) := do
  if ¬ (w = 0 ∨ w = 1 ∨ w = 2) then throw .assertionError
  if sender ∈ values r w then throw .redundantMessageError
  return set2 values r w (insert sender (values r w))

/-- What one message does; the tag of the coin's messages and any other leave the tables alone. -/
def process (f : Nat) (sender : Fin N) (tag v r : Int) (s : TylerState N) :
    Except Exn (TylerState N × List (Fin N × Int)) :=
  if tag = ABAMsgType.code .est then
    (onEst f .est sender v r s.bv).map (fun x => ({ s with bv := x.1, bvSignal := s.bvSignal || x.2.2 }, x.2.1))
  else if tag = ABAMsgType.code .aux then
    (onAux sender v r s.auxValues).map (fun x => ({ s with auxValues := x, bvSignal := true }, []))
  else if tag = ABAMsgType.code .auxset then
    (onAuxset sender v r s.auxsetValues).map (fun x => ({ s with auxsetValues := x, auxsetSignal := true }, []))
  else if tag = ABAMsgType.code .est2 then
    (onEst f .est2 sender v r s.bv2).map (fun x => ({ s with bv2 := x.1, bvSignal := s.bvSignal || x.2.2 }, x.2.1))
  else if tag = ABAMsgType.code .aux2 then
    (onAux sender v r s.auxValues2).map (fun x => ({ s with auxValues2 := x, auxSignal := true }, []))
  else .ok (s, [])

/-- One pass of the loop of `_recv`. -/
def onMsg (f : Nat) (sender : Fin N) (msg : Int) (s : TylerState N) : TylerState N × List (Fin N × Int) :=
  let (tag, v, r) := parseMsg msg
  match process f sender tag v r s with
  | .ok x    => x
  | .error e => ({ s with recv := .raised e }, [])

/-! ## The main task -/

/-- `_thread_recv.cancel()`. -/
def cancel : RecvPhase → RecvPhase
  | .running => .killed
  | t        => t

def raise (e : Exn) (s : TylerState N) : TylerState N := { s with phase := .raised e, recv := cancel s.recv }

/-- On to the next loop. -/
def goTo (r : Nat) (w : TylerWait) (s : TylerState N) : TylerState N := { s with phase := .wait r w, blocked := false }

/-- The head of the loop over the rounds, down to the wait for `bin_values`. -/
def startRound (r : Nat) (est : Int) (s : TylerState N) : TylerState N × List (Fin N × Int) :=
  let s := { s with started := (r, est) :: s.started }
  match pyIndex 2 est with
  | .error e => (raise e s, [])
  | .ok k    =>
    if s.bv.sent r k then (goTo r .bin s, [])
    else
      (goTo r .bin { s with bv := { s.bv with sent := set2 s.bv.sent r k true } },
        broadcast (encodeMsg .est est r))

def onInput (vi : Int) (s : TylerState N) : TylerState N × List (Fin N × Int) :=
  if vi = 0 ∨ vi = 1 then startRound 0 vi s else (raise .assertionError s, [])

/-- After the wait for `bin_values[r]`. -/
def onBin (next : Finset Int → Int) (r : Nat) (s : TylerState N) : TylerState N × List (Fin N × Int) :=
  (goTo r .aux s, broadcast (encodeMsg .aux (next (s.bv.bin r)) r))

/-- The set with which the wait for `AUX`s ends. -/
def auxExit (f : Nat) (r : Nat) (s : TylerState N) : Option (Finset Int) :=
  if 1 ∈ s.bv.bin r ∧ N - f ≤ (s.auxValues r 1).card then some {1}
  else if 0 ∈ s.bv.bin r ∧ N - f ≤ (s.auxValues r 0).card then some {0}
  else if N - f ≤ ∑ v ∈ s.bv.bin r, (s.auxValues r v).card then some {0, 1}
  else none

/-- The value of `AUXSET`. -/
def auxsetCode (values : Finset Int) : Int := if values = {1} then 1 else if values = {0, 1} then 2 else 0

/-- After the wait for `AUX`s, with `wait_for_auxset_values` down to its loop.  Were `auxset_sent[r]` set, `est2` would
be `None`, no list index. -/
def onAuxExit (r : Nat) (values : Finset Int) (s : TylerState N) : TylerState N × List (Fin N × Int) :=
  if (s.auxsetSent r).isSome then (raise .typeError s, [])
  else
    (goTo r .auxset { s with auxsetSent := Function.update s.auxsetSent r (some (auxsetCode values)) },
      broadcast (encodeMsg .auxset (auxsetCode values) r))

/-- `set(auxset_value)` of the three keys. -/
def auxsetKey (w : Int) : Finset Int := if w = 0 then {0} else if w = 1 then {1} else {0, 1}

/-- What `wait_for_auxset_values` returns. -/
def auxsetExit (f : Nat) (r : Nat) (s : TylerState N) : Option Int :=
  if 1 ∈ s.bv.bin r ∧ N - f ≤ (s.auxsetValues r 1).card then some 1
  else if 0 ∈ s.bv.bin r ∧ N - f ≤ (s.auxsetValues r 0).card then some 0
  else if N - f ≤ ((([0, 1, 2] : List Int).filter (fun w => auxsetKey w ⊆ s.bv.bin r)).map
      (fun w => (s.auxsetValues r w).card)).sum then some 2
  else none

/-- After the wait for `AUXSET`s. -/
def onAuxsetExit (r : Nat) (est2 : Int) (s : TylerState N) : TylerState N × List (Fin N × Int) :=
  match pyIndex 3 est2 with
  | .error e => (raise e s, [])
  | .ok k    =>
    if s.bv2.sent r k then (goTo r .bin2 s, [])
    else
      (goTo r .bin2 { s with bv2 := { s.bv2 with sent := set2 s.bv2.sent r k true } },
        broadcast (encodeMsg .est2 est2 r))

/-- After the wait for `bin_values2[r]`. -/
def onBin2 (next : Finset Int → Int) (r : Nat) (s : TylerState N) : TylerState N × List (Fin N × Int) :=
  (goTo r .aux2 s, broadcast (encodeMsg .aux2 (next (s.bv2.bin r)) r))

/-- `set(aux_values2[r][v])`, with `v` as the round before left it: a set of senders. -/
def senders2 (r : Nat) (s : TylerState N) : Except Exn (Finset Int) :=
  match s.lastV with
  | none   => .error .unboundLocalError
  | some v => (pyIndex 3 v).map (fun k => (s.auxValues2 r k).image (fun q : Fin N => (q.val : Int)))

/-- The set with which the wait for `AUX2`s ends. -/
def aux2Exit (f : Nat) (r : Nat) (s : TylerState N) : Option (Except Exn (Finset Int)) :=
  if 1 ∈ s.bv2.bin r ∧ N - f ≤ (s.auxValues2 r 1).card then some (.ok {1})
  else if 0 ∈ s.bv2.bin r ∧ N - f ≤ (s.auxValues2 r 0).card then some (.ok {0})
  else if 2 ∈ s.bv2.bin r ∧ N - f ≤ (s.auxValues2 r 0).card then some (.ok {-1})
  else if N - f ≤ ∑ v ∈ s.bv2.bin r, (s.auxValues2 r v).card then some (senders2 r s)
  else none

/-- The end of a round whose second broadcast gave the value `v` alone. -/
def onValue (file : TylerFile) (r : Nat) (v : Int) (s : TylerState N) : TylerState N × List (Fin N × Int) :=
  let s := { s with lastV := some v }
  if v = 2 then (goTo r .coin s, [])
  else
    match s.alreadyDecided with
    | none   =>
      startRound (r + 1) v { s with alreadyDecided := some v, decisions := file.decision v :: s.decisions }
    | some d => if d = v then ({ s with phase := .returned, recv := cancel s.recv }, []) else startRound (r + 1) v s

/-- The end of a round whose second broadcast gave no value or several. -/
def onValues (file : TylerFile) (next : Finset Int → Int) (r : Nat) (values2 : Finset Int) (s : TylerState N) :
    TylerState N × List (Fin N × Int) :=
  if values2 = ∅ then (raise .runtimeError s, [])
  else
    let s := { s with lastV := some (next values2) }
    match file with
    | .tylerba2 => (raise .typeError s, [])
    | .beacon _ => startRound (r + 1) (next values2) s

/-- After the wait for `AUX2`s. -/
def onAux2Exit (file : TylerFile) (next : Finset Int → Int) (r : Nat) (values2 : Except Exn (Finset Int))
    (s : TylerState N) : TylerState N × List (Fin N × Int) :=
  match values2 with
  | .error e => (raise e s, [])
  | .ok set  => if set.card = 1 then onValue file r (next set) s else onValues file next r set s

/-- `est = await _coin(r)`. -/
def onCoin (r : Nat) (coin : Except Exn Int) (s : TylerState N) : TylerState N × List (Fin N × Int) :=
  match coin with
  | .error e => (raise e s, [])
  | .ok b    => startRound (r + 1) b s

/-- The signal that a loop waits for. -/
def signal (w : TylerWait) (s : TylerState N) : Bool :=
  match w with
  | .bin | .aux | .bin2 => s.bvSignal
  | .auxset             => s.auxsetSignal
  | .aux2               => s.auxSignal
  | .coin               => true

/-- `signal.clear()`, and the wait. -/
def block (w : TylerWait) (s : TylerState N) : TylerState N :=
  match w with
  | .bin | .aux | .bin2 => { s with blocked := true, bvSignal := false }
  | .auxset             => { s with blocked := true, auxsetSignal := false }
  | .aux2               => { s with blocked := true, auxSignal := false }
  | .coin               => s

/-- One pass of the loop. -/
def onWait (file : TylerFile) (next : Finset Int → Int) (coin : Nat → Except Exn Int) (f : Nat) (r : Nat)
    (s : TylerState N) : TylerWait → TylerState N × List (Fin N × Int)
  | .bin    => if s.bv.bin r = ∅ then (block .bin s, []) else onBin next r s
  | .aux    => (auxExit f r s).elim (block .aux s, []) (fun values => onAuxExit r values s)
  | .auxset => (auxsetExit f r s).elim (block .auxset s, []) (fun est2 => onAuxsetExit r est2 s)
  | .bin2   => if s.bv2.bin r = ∅ then (block .bin2 s, []) else onBin2 next r s
  | .aux2   => (aux2Exit f r s).elim (block .aux2 s, []) (fun values2 => onAux2Exit file next r values2 s)
  | .coin   => onCoin r (coin r) s

/-- One step of the main task; `none` while it waits. -/
def mainStep (file : TylerFile) (next : Finset Int → Int) (coin : Nat → Except Exn Int) (f : Nat) (vi : Int)
    (s : TylerState N) : Option (TylerState N × List (Fin N × Int)) :=
  match s.phase with
  | .input    => some (onInput vi s)
  | .wait r w => if s.blocked ∧ signal w s = false then none else some (onWait file next coin f r s w)
  | _         => none

/-- `tylerba` at all parties. -/
def tylerba (file : TylerFile) (next : Finset Int → Int) (coin : Nat → Except Exn Int) (f : Nat) (vi : Fin N → Int) :
    Net.Proto (Fin N) Unit (TylerState N) Int where
  init := fun _ => init
  wake := fun pid _ s => mainStep file next coin f (vi pid) s
  recv := fun _ s sender msg => if s.recv = .running then some (onMsg f sender msg s) else none

end Tyler
end Dpid
