import Dpid.RbcVc
/-!
# Refresh2 — `refresh` (`dpid/core/refresh_2.py`)

Every party sends the leader its entries `[data, proof, index]` and waits for the commitment from `multicast`.  The
leader stores the data whose proof verifies until it has counted `size / 3 + 1`, decodes, encodes again and sends every
party the entries of its interval.  A party returns the first `FINAL` it takes.

A proof is a pair of coordinates: the decimal text of a `VAL` and the pair of a `FINAL` are read alike.  The channel of
a returned list is history.
-/
namespace Dpid

inductive RefreshMsg where
  | val (sender : PyId) (val : List Entry)
  | final (targetData : List Entry)
  | complain (targetData : List Entry)
deriving DecidableEq

inductive RefreshPhase (N : Nat) where
  | start
  | waiting
  | collecting
  | final
  | returned (targetData : List Entry) (channel : Fin N)
  | raised (e : Exn)
deriving DecidableEq

structure RefreshState (N : Nat) where
  phase : RefreshPhase N
  commitment : Int × Int
  values : List (Option Bytes)
  prevSenders : Finset PyId
  counter : Nat
  originalMsg : Option Bytes

namespace Refresh

variable {N : Nat}

inductive Thread where
  | send
  | commit

def init (size : Nat) : RefreshState N where
  phase := .start
  commitment := (0, 0)
  values := List.replicate size none
  prevSenders := ∅
  counter := 0
  originalMsg := none

/-- `send(leader, ('VAL', pid, share))`. -/
def sendShare (leader pid : Fin N) (share : List Entry) (s : RefreshState N) :
    RefreshState N × List (Fin N × RefreshMsg) :=
  ({ s with phase := .waiting }, [(leader, .val (.int (pid : Nat)) share)])

/-- The multicast has returned. -/
def takeCommitment (leader pid : Fin N) (commitment : Int × Int) (s : RefreshState N) : RefreshState N :=
  { s with commitment := commitment, phase := if pid = leader then .collecting else .final }

/-! ## The leader -/

/-- `for v in val: …`: every entry whose proof verifies is counted and stored at its index. -/
def storeVal (E : Curve) (H : Hash) (commitment : Int × Int) :
    List Entry → Nat → List (Option Bytes) → Except Exn (Nat × List (Option Bytes))
  | [], counter, values        => .ok (counter, values)
  | v :: rest, counter, values => do
    if ← verify E commitment v.proof (sha256ToInt H v.data) v.index then
      let k ← pyIndex values.length v.index
      storeVal E H commitment rest (counter + 1) (values.set k (some v.data))
    else storeVal E H commitment rest counter values

/-- `[[stripes[i], proofs[i], i] for i in range(start_index, end_index)]`. -/
def targetData (size N : Nat) (stripes : List Bytes) (proofs : List (Int × Int)) (j : Nat) : List Entry :=
  (interval size N j).map (fun i => ⟨stripes.getD i [], proofs.getD i (0, 0), i⟩)

/-- The code between the loops: encode, prove, send. -/
def distribute (E : Curve) (H : Hash) (z : Zfec) (size : Nat) (commitment : Int × Int) (originalMsg : Bytes) :
    Except Exn (List (Fin N × RefreshMsg)) := do
  let stripes ← encode z (dataThreshold size) size (.bytes originalMsg)
  let proofs ← (List.range size).mapM (fun (i : Nat) =>
    generateProof E commitment (sha256ToInt H (stripes.getD i [])) i)
  return (List.finRange N).map (fun j => (j, .final (targetData size N stripes proofs j)))

/-- `if counter >= data_threshold: original_msg = decode(…); break`, and what follows the loop. -/
def finish (E : Curve) (H : Hash) (z : Zfec) (size : Nat) (s : RefreshState N) :
    RefreshState N × List (Fin N × RefreshMsg) :=
  if dataThreshold size ≤ s.counter then
    match decode z (dataThreshold size) size s.values with
    | .error e => ({ s with phase := .raised e }, [])
    | .ok m    =>
      match distribute E H z size s.commitment m with
      | .error e => ({ s with originalMsg := some m, phase := .raised e }, [])
      | .ok out  => ({ s with originalMsg := some m, phase := .final }, out)
  else (s, [])

def onVal (E : Curve) (H : Hash) (z : Zfec) (size : Nat) (sender : PyId) (val : List Entry) (s : RefreshState N) :
    RefreshState N × List (Fin N × RefreshMsg) :=
  if sender ∈ s.prevSenders then (s, [])
  else
    let s := { s with prevSenders := insert sender s.prevSenders }
    match storeVal E H s.commitment val s.counter s.values with
    | .error e           => ({ s with phase := .raised e }, [])
    | .ok (counter, values) => finish E H z size { s with counter := counter, values := values }

/-! ## The last loop -/

/-- `for v in target_data: … valid = False; break`. -/
def allValid (E : Curve) (H : Hash) (commitment : Int × Int) : List Entry → Except Exn Bool
  | []        => .ok true
  | v :: rest => do
    if ← verify E commitment v.proof (sha256ToInt H v.data) v.index then allValid E H commitment rest
    else return false

def onFinal (E : Curve) (H : Hash) (sender : Fin N) (target : List Entry) (s : RefreshState N) :
    RefreshState N × List (Fin N × RefreshMsg) :=
  match allValid E H s.commitment target with
  | .error e  => ({ s with phase := .raised e }, [])
  | .ok valid =>
    ({ s with phase := .returned target sender },
      if valid then [] else (List.finRange N).map (fun j => (j, .complain target)))

/-- One message taken in either loop; each ignores the other's. -/
def onMsg (E : Curve) (H : Hash) (z : Zfec) (size : Nat) (s : RefreshState N) (sender : Fin N) (msg : RefreshMsg) :
    Option (RefreshState N × List (Fin N × RefreshMsg)) :=
  match s.phase, msg with
  | .collecting, .val id val   => some (onVal E H z size id val s)
  | .collecting, _             => some (s, [])
  | .final, .final target      => some (onFinal E H sender target s)
  | .final, _                  => some (s, [])
  | _, _                       => none

end Refresh

open Refresh in
/-- `refresh` at all `N` parties; `multicast` gives party `p` the commitment `com p`. -/
def refresh2 (E : Curve) (H : Hash) (z : Zfec) {N : Nat} (size : Nat) (leader : Fin N) (share : Fin N → List Entry)
    (com : Fin N → Int × Int) : Net.Proto (Fin N) Thread (RefreshState N) RefreshMsg where
  init := fun _ => init size
  wake := fun pid t s =>
    match t, s.phase with
    | .send, .start     => some (sendShare leader pid (share pid) s)
    | .commit, .waiting => some (takeCommitment leader pid (com pid) s, [])
    | _, _              => none
  recv := fun _ s sender msg => onMsg E H z size s sender msg

end Dpid
