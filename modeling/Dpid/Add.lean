import Dpid.Coding
import Dpid.Net
import Dpid.Sha256
import Mathlib.Data.Finset.Card
import Mathlib.Data.Fintype.Basic
/-!
# Add — asynchronous data dissemination, `add` (`dpid/core/add.py`, `dpss/core/add.py`)

Every party sends each other one its stripe, sends on the stripe `f + 1` ids sent it, and decodes once `2 f + 1` stripes
have come.  `dispCounter` is a `defaultdict` keyed by the hash of a value.  Ids are those inside the messages: as text
for `ADD_VAL`, as a list index for `RECONST`, where a negative index counts from the end.

History: `dispFrom` is the channels of the counted values of a hash, the channel of an entry of `reconstCheck` the one
it came on, `hashed` the strings hashed.
-/
namespace Dpid

inductive AddMsg where
  | addVal (sender : PyId) (value : Bytes)
  | reconst (sender : PyId) (value : Bytes)
deriving DecidableEq

inductive AddPhase where
  | input
  | loop
  | returned (m : Bytes)
  | failed
  | raised (e : Exn)
deriving DecidableEq

/-- An entry `[sender, str(hash(value))]` of `reconstCheck`. -/
structure Share (N : Nat) where
  sender : Int
  hash : Bytes
  channel : Fin N

structure AddState (N : Nat) where
  phase : AddPhase
  dispCounter : Bytes → Finset String
  dispSenders : Finset String
  reconstructSent : Bool
  reconstSenders : Finset Int
  reconstCounter : List (Option Bytes)
  reconstCheck : List (Share N)
  count : Nat
  dispFrom : Bytes → Finset (Fin N)
  hashed : List Bytes

namespace Dissem

variable {N : Nat}

def init : AddState N where
  phase := .input
  dispCounter := fun _ => ∅
  dispSenders := ∅
  reconstructSent := false
  reconstSenders := ∅
  reconstCounter := List.replicate N none
  reconstCheck := []
  count := 0
  dispFrom := fun _ => ∅
  hashed := []

def start (z : Zfec) (f : Nat) (m : Text) (pid : Fin N) (s : AddState N) : AddState N × List (Fin N × AddMsg) :=
  match encode z (N - 2 * f) N m with
  | .error e    => ({ s with phase := .raised e }, [])
  | .ok stripes =>
    ({ s with phase := .loop },
      (List.finRange N).map (fun i => (i, .addVal (.int (pid : Nat)) (stripes.getD i []))))

/-- `dispCounter[hash_val].add(sender); dispSenders.add(sender)`. -/
def addDisp (H : Hash) (target : Fin N) (sender : String) (value : Bytes) (s : AddState N) : AddState N :=
  { s with
    dispCounter := Function.update s.dispCounter (H value) (insert sender (s.dispCounter (H value)))
    dispSenders := insert sender s.dispSenders
    dispFrom := Function.update s.dispFrom (H value) (insert target (s.dispFrom (H value)))
    hashed := value :: s.hashed }

def onAddVal (H : Hash) (f : Nat) (pid target : Fin N) (sender : PyId) (value : Bytes) (s : AddState N) :
    AddState N × List (Fin N × AddMsg) :=
  if sender.str ∈ s.dispSenders then (s, [])
  else
    let s := addDisp H target sender.str value s
    if f + 1 ≤ (s.dispCounter (H value)).card ∧ s.reconstructSent = false then
      ({ s with reconstructSent := true }, (List.finRange N).map (fun i => (i, .reconst (.int (pid : Nat)) value)))
    else (s, [])

/-- The loop over `reconstCheck`: whether `2 f + 1` entries agree with `check_share`. -/
def tally (H : Hash) (f : Nat) (share : List Bytes) : List (Share N) → Nat → Except Exn Bool
  | [], _            => .ok false
  | i :: rest, counter => do
    let k ← pyIndex share.length i.sender
    let counter := if H (share.getD k []) = i.hash then counter + 1 else counter
    if 2 * f + 1 ≤ counter then return true
    tally H f share rest counter

/-- The strings that loop hashes. -/
def tallyHashed (H : Hash) (f : Nat) (share : List Bytes) : List (Share N) → Nat → List Bytes
  | [], _            => []
  | i :: rest, counter =>
    match pyIndex share.length i.sender with
    | .error _ => []
    | .ok k    =>
      let counter := if H (share.getD k []) = i.hash then counter + 1 else counter
      share.getD k [] :: if 2 * f + 1 ≤ counter then [] else tallyHashed H f share rest counter

/-- The block under `if count >= OutputThreshold`: the next phase and the strings hashed. -/
def reconstruct (H : Hash) (z : Zfec) (f : Nat) (s : AddState N) : AddPhase × List Bytes :=
  match decode z (N - 2 * f) N s.reconstCounter with
  | .error e => (.raised e, [])
  | .ok m    =>
    match encode z (N - 2 * f) N (.bytes m) with
    | .error e   => (.raised e, [])
    | .ok share  =>
      (match tally H f share s.reconstCheck 0 with
        | .error e   => .raised e
        | .ok true   => .returned m
        | .ok false  => if N ≤ s.count then .failed else .loop,
        tallyHashed H f share s.reconstCheck 0)

/-- `reconstCounter[sender] = value; count += 1; …` at the place `k` of the index `sender`. -/
def addShare (H : Hash) (target : Fin N) (sender : Int) (k : Nat) (value : Bytes) (s : AddState N) : AddState N :=
  { s with
    reconstCounter := s.reconstCounter.set k (some value)
    count := s.count + 1
    reconstCheck := s.reconstCheck ++ [⟨sender, H value, target⟩]
    reconstSenders := insert sender s.reconstSenders
    hashed := value :: s.hashed }

def onReconst (H : Hash) (z : Zfec) (f : Nat) (target : Fin N) (sender : PyId) (value : Bytes) (s : AddState N) :
    AddState N :=
  match sender with
  | .text _ => { s with phase := .raised .typeError }
  | .int i   =>
    if i ∈ s.reconstSenders then s
    else
      match pyIndex s.reconstCounter.length i with
      | .error e => { s with phase := .raised e }
      | .ok k    =>
        let s := addShare H target i k value s
        if 2 * f + 1 ≤ s.count then
          { s with phase := (reconstruct H z f s).1, hashed := (reconstruct H z f s).2 ++ s.hashed }
        else s

def onMsg (H : Hash) (z : Zfec) (f : Nat) (pid : Fin N) (s : AddState N) (target : Fin N) :
    AddMsg → AddState N × List (Fin N × AddMsg)
  | .addVal sender value  => onAddVal H f pid target sender value s
  | .reconst sender value => (onReconst H z f target sender value s, [])

end Dissem

open Dissem in
/-- `add` at all `N` parties with the common input `m`. -/
def add (H : Hash) (z : Zfec) {N : Nat} (f : Nat) (m : Text) : Net.Proto (Fin N) Unit (AddState N) AddMsg where
  init := fun _ => init
  wake := fun pid _ s => if s.phase = .input then some (start z f m pid s) else none
  recv := fun pid s target msg => if s.phase = .loop then some (onMsg H z f pid s target msg) else none

end Dpid
