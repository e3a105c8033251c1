import Dpid.Net
import Dpid.PyVal
import Mathlib
/-!
# Aba — binary agreement, `binaryagreement` (`honeybadgerbft/core/binaryagreement.py`)

Two threads share the tables of a party.  `_recv` fills them from the messages; the main thread goes through its rounds:
it sends its estimate, waits for `bin_values`, sends `AUX`, waits for `N - f` of them, sends `CONF`, waits for `N - f` of
them, fetches the coin and sets its next estimate.  The tables are dicts keyed by whatever round a message names.

History: `started` is the rounds begun, each with its estimate; `auxs` the `AUX` and `confs` the `CONF` sent, `rets` the
sets returned by the wait for `CONF`s, `coins` the coins, `decisions` the calls of `decide`, each with its round.
-/
namespace Dpid

inductive AbaTag where
  | est
  | aux
  | conf
deriving DecidableEq

/-- The message `(tag, r, v)`. -/
structure AbaMsg where
  tag : AbaTag
  r : PyVal
  v : PyVal
deriving DecidableEq

/-- Where the main thread stands. -/
inductive AbaPhase where
  | input
  | bin (r : Nat)
  | aux (r : Nat)
  | conf (r : Nat)
  | coin (r : Nat) (values : Finset Bool)
  | returned
  | raised (e : Exn)
deriving DecidableEq

inductive RecvPhase where
  | running
  | raised (e : Exn)
  | killed
deriving DecidableEq

structure AbaState (N : Nat) where
  phase : AbaPhase
  recv : RecvPhase
  estValues : PyVal → Bool → Finset (Fin N)
  auxValues : PyVal → Bool → Finset (Fin N)
  confValues : PyVal → Finset Bool → Finset (Fin N)
  estSent : PyVal → Bool → Bool
  confSent : PyVal → Finset Bool → Bool
  binValues : PyVal → Finset Bool
  alreadyDecided : Option Bool
  started : List (Nat × Bool)
  auxs : List (Nat × Bool)
  confs : List (Nat × Finset Bool)
  rets : List (Nat × Finset Bool)
  coins : List (Nat × PyVal)
  decisions : List (Nat × Bool)

namespace Aba

variable {N : Nat}

def init : AbaState N where
  phase := .input
  recv := .running
  estValues := fun _ _ => ∅
  auxValues := fun _ _ => ∅
  confValues := fun _ _ => ∅
  estSent := fun _ _ => false
  confSent := fun _ _ => false
  binValues := fun _ => ∅
  alreadyDecided := none
  started := []
  auxs := []
  confs := []
  rets := []
  coins := []
  decisions := []

/-- The entry `table[k][i]` set to `x`. -/
def set2 {α β γ : Type} [DecidableEq α] [DecidableEq β] (table : α → β → γ) (k : α) (i : β) (x : γ) : α → β → γ :=
  Function.update table k (Function.update (table k) i x)

/-- `for i in range(N): send(i, o)`. -/
def broadcast (o : AbaMsg) : List (Fin N × AbaMsg) := (List.finRange N).map (fun i => (i, o))

/-- `tuple(values)` of a set of bits, which comes in ascending order. -/
def toTuple (values : Finset Bool) : PyVal :=
  .tuple ((if false ∈ values then [.int 0] else []) ++ if true ∈ values then [.int 1] else [])

/-- The three keys of `conf_values[r]`. -/
def confKeys : List (Finset Bool) := [{false}, {true}, {false, true}]

/-- The key of `conf_values[r]` that the value equals: `v in ((0,), (1,), (0, 1))`. -/
def confKey (v : PyVal) : Option (Finset Bool) := confKeys.find? (fun values => v.key = toTuple values)

/-! ## `_recv` -/

/-- The first threshold: the `EST` is passed on. -/
def Relays (f : Nat) (sender : Fin N) (k : PyVal) (b : Bool) (s : AbaState N) : Prop :=
  f + 1 ≤ (insert sender (s.estValues k b)).card ∧ s.estSent k b = false

instance decidableRelays (f : Nat) (sender : Fin N) (k : PyVal) (b : Bool) (s : AbaState N) :
    Decidable (Relays f sender k b s) :=
  inferInstanceAs (Decidable (_ ∧ _))

/-- `est_values[r][v].add(sender)` and the two thresholds. -/
def addEst (f : Nat) (sender : Fin N) (k : PyVal) (b : Bool) (s : AbaState N) : AbaState N :=
  { s with
    estValues := set2 s.estValues k b (insert sender (s.estValues k b))
    estSent := if Relays f sender k b s then set2 s.estSent k b true else s.estSent
    binValues :=
      if 2 * f + 1 ≤ (insert sender (s.estValues k b)).card then
        Function.update s.binValues k (insert b (s.binValues k))
      else s.binValues }

def onEst (f : Nat) (sender : Fin N) (r v : PyVal) (s : AbaState N) :
    Except Exn (AbaState N × List (Fin N × AbaMsg)) := do
  if v.bit = none then throw .assertionError
  let k ← r.dictKey
  let b ← v.slot
  if sender ∈ s.estValues k b then return (s, [])
  return (addEst f sender k b s, if Relays f sender k b s then broadcast ⟨.est, r, v⟩ else [])

def onAux (sender : Fin N) (r v : PyVal) (s : AbaState N) : Except Exn (AbaState N) := do
  if v.bit = none then throw .assertionError
  let k ← r.dictKey
  let b ← v.slot
  if sender ∈ s.auxValues k b then throw .redundantMessageError
  return { s with auxValues := set2 s.auxValues k b (insert sender (s.auxValues k b)) }

/-- `handle_conf_messages`. -/
def onConf (sender : Fin N) (r v : PyVal) (s : AbaState N) : Except Exn (AbaState N) := do
  match confKey v with
  | none        => throw .assertionError
  | some values =>
    let k ← r.dictKey
    if sender ∈ s.confValues k values then throw .redundantMessageError
    return { s with confValues := set2 s.confValues k values (insert sender (s.confValues k values)) }

/-- What one message does to the tables and makes the thread send. -/
def process (f : Nat) (sender : Fin N) (msg : AbaMsg) (s : AbaState N) :
    Except Exn (AbaState N × List (Fin N × AbaMsg)) :=
  match msg.tag with
  | .est  => onEst f sender msg.r msg.v s
  | .aux  => (onAux sender msg.r msg.v s).map (·, [])
  | .conf => (onConf sender msg.r msg.v s).map (·, [])

/-- One pass of the loop; an exception ends the thread. -/
def onMsg (f : Nat) (sender : Fin N) (msg : AbaMsg) (s : AbaState N) : AbaState N × List (Fin N × AbaMsg) :=
  match process f sender msg s with
  | .ok r    => r
  | .error e => ({ s with recv := .raised e }, [])

/-! ## The main thread -/

/-- The head of the loop, down to the wait for `bin_values`. -/
def startRound (r : Nat) (est : PyVal) (s : AbaState N) : AbaState N × List (Fin N × AbaMsg) :=
  match est.slot with
  | .error e => ({ s with phase := .raised e }, [])
  | .ok b    =>
    let s := { s with phase := .bin r, started := (r, b) :: s.started }
    if s.estSent (.ofNat r) b then (s, [])
    else ({ s with estSent := set2 s.estSent (.ofNat r) b true }, broadcast ⟨.est, .ofNat r, est⟩)

def onInput (vi : PyVal) (s : AbaState N) : AbaState N × List (Fin N × AbaMsg) :=
  if vi.bit = none then ({ s with phase := .raised .assertionError }, []) else startRound 0 vi s

/-- `next(iter(bin_values[r]))`: of both bits `0` comes first. -/
def first (values : Finset Bool) : Bool := if false ∈ values then false else true

/-- The wait for `bin_values[r]`, and the broadcast of `AUX`. -/
def onBin (r : Nat) (s : AbaState N) : Option (AbaState N × List (Fin N × AbaMsg)) :=
  if s.binValues (.ofNat r) = ∅ then none
  else
    let w := first (s.binValues (.ofNat r))
    some ({ s with phase := .aux r, auxs := (r, w) :: s.auxs }, broadcast ⟨.aux, .ofNat r, .ofBit w⟩)

/-- The set with which the wait for `AUX`s ends. -/
def auxExit (f : Nat) (r : Nat) (s : AbaState N) : Option (Finset Bool) :=
  let bins := s.binValues (.ofNat r)
  if true ∈ bins ∧ N - f ≤ (s.auxValues (.ofNat r) true).card then some {true}
  else if false ∈ bins ∧ N - f ≤ (s.auxValues (.ofNat r) false).card then some {false}
  else if N - f ≤ ∑ v ∈ bins, (s.auxValues (.ofNat r) v).card then some {false, true}
  else none

/-- The set `wait_for_conf_values` returns. -/
def confExit (f : Nat) (r : Nat) (s : AbaState N) : Option (Finset Bool) :=
  let bins := s.binValues (.ofNat r)
  if true ∈ bins ∧ N - f ≤ (s.confValues (.ofNat r) {true}).card then some {true}
  else if false ∈ bins ∧ N - f ≤ (s.confValues (.ofNat r) {false}).card then some {false}
  else if N - f ≤ ((confKeys.filter (fun v => v ⊆ bins)).map (fun v => (s.confValues (.ofNat r) v).card)).sum then
    some {false, true}
  else none

/-- After the wait for `AUX`s: the broadcast of `CONF`, unless `conf_sent[r]` has it. -/
def onAuxExit (r : Nat) (values : Finset Bool) (s : AbaState N) : AbaState N × List (Fin N × AbaMsg) :=
  if s.confSent (.ofNat r) values then ({ s with phase := .coin r values, rets := (r, values) :: s.rets }, [])
  else
    ({ s with
        phase := .conf r
        confSent := set2 s.confSent (.ofNat r) values true
        confs := (r, s.binValues (.ofNat r)) :: s.confs },
      broadcast ⟨.conf, .ofNat r, toTuple (s.binValues (.ofNat r))⟩)

/-- `set_new_estimate`: the next estimate, or `none` for `AbandonedNodeError`. -/
def setNewEstimate (r : Nat) (values : Finset Bool) (c : PyVal) (s : AbaState N) : AbaState N × Option PyVal :=
  if values.card = 1 then
    let v := first values
    if c.key = .ofBit v then
      match s.alreadyDecided with
      | none   => ({ s with alreadyDecided := some v, decisions := (r, v) :: s.decisions }, some (.ofBit v))
      | some d => if d = v then (s, none) else (s, some (.ofBit v))
    else (s, some (.ofBit v))
  else (s, some c)

/-- The coin `c` and what follows: the next round, or the end of both threads. -/
def onCoin (r : Nat) (values : Finset Bool) (c : PyVal) (s : AbaState N) : AbaState N × List (Fin N × AbaMsg) :=
  let s := { s with coins := (r, c) :: s.coins }
  match setNewEstimate r values c s with
  | (s, some est) => startRound (r + 1) est s
  | (s, none)     => ({ s with phase := .returned, recv := .killed }, [])

/-- One step of the main thread; `none` while it waits. -/
def mainStep (f : Nat) (vi : PyVal) (coin : Nat → PyVal) (s : AbaState N) :
    Option (AbaState N × List (Fin N × AbaMsg)) :=
  match s.phase with
  | .input         => some (onInput vi s)
  | .bin r         => onBin r s
  | .aux r         => (auxExit f r s).map (fun values => onAuxExit r values s)
  | .conf r        =>
    (confExit f r s).map (fun values => ({ s with phase := .coin r values, rets := (r, values) :: s.rets }, []))
  | .coin r values => some (onCoin r values (coin r) s)
  | .returned      => none
  | .raised _      => none

end Aba

open Aba in
/-- `binaryagreement` at all `N` parties; `coin p r` is what `coin(r)` returns at `p`. -/
def binaryagreement {N : Nat} (f : Nat) (coin : Fin N → Nat → PyVal) (input : Fin N → PyVal) :
    Net.Proto (Fin N) Unit (AbaState N) AbaMsg where
  init := fun _ => init
  wake := fun pid _ s => mainStep f (input pid) (coin pid) s
  recv := fun _ s sender msg => if s.recv = .running then some (onMsg f sender msg s) else none

end Dpid
