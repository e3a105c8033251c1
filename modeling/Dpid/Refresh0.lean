import Dpid.Coding
import Dpid.HashList
import Dpid.Net
/-!
# Refresh0 — `refresh0` (`dpid/core/refresh_0.py`)

Every party sends its stripe to all, or to the parties of `target`, and waits for the hash list from `add`.  It stores
the stripes whose hash the list holds until it has counted `f + 1`, decodes, encodes again and sends all a signature of
the hash list it found.  A party returns after `f + 1` signatures of the list from `add`.

`add` gives the text of a list, and `literal_eval` reads the list back; the model is given the list.  `data_signed` is
unbound until a party has decoded, `share` is set to `""` before the loop, and `ready` is keyed by texts and by byte
strings.  The keys are files: a parameter.
`hashed` is history: the strings the party has hashed.
-/
namespace Dpid

/-! ## Signatures (`myexperiements/sig.py`) -/

/-- An RSA key as `pkcs1_15` uses it on a digest; `verify` tells whether the call returns. -/
structure RsaKey where
  sign : Bytes → Bytes
  verify : Bytes → Bytes → Bool

/-- The key verifies what it signs. -/
def RsaKey.Lawful (key : RsaKey) : Prop := ∀ digest, key.verify digest (key.sign digest) = true

def signData (H : Hash) (key : RsaKey) (data : Bytes) : Bytes := key.sign (H data)

def verifySignature (H : Hash) (key : RsaKey) (data signature : Bytes) : Bool := key.verify (H data) signature

/-! ## The protocol -/

inductive Refresh0Msg where
  | val (target : Int) (val : Bytes)
  | final (sig : Bytes)
deriving DecidableEq

inductive Refresh0Phase where
  | start
  | waiting
  | loop
  | returned (share : Text) (proofStr : Bytes)
  | raised (e : Exn)
deriving DecidableEq

structure Refresh0State (N : Nat) where
  phase : Refresh0Phase
  share : Text
  proof : List Bytes
  proofStr : Bytes
  proofHash : Bytes
  values : List (Option Bytes)
  valuesSenders : Finset (Fin N)
  counter : Nat
  readySent : Bool
  originalMsg : Option Bytes
  dataSigned : Option Bytes
  ready : Text → Finset (Fin N)
  readySenders : Finset (Fin N)
  hashed : List Bytes

namespace Refresh0

variable {N : Nat}

inductive Thread where
  | send
  | add

def init (share : Bytes) : Refresh0State N where
  phase := .start
  share := .bytes share
  proof := []
  proofStr := []
  proofHash := []
  values := List.replicate N none
  valuesSenders := ∅
  counter := 0
  readySent := false
  originalMsg := none
  dataSigned := none
  ready := fun _ => ∅
  readySenders := ∅
  hashed := []

/-- `send(i, ('VAL', pid, share))` to the parties of `target`, or to all. -/
def sendShare (all : Bool) (target : List (Fin N)) (pid : Fin N) (s : Refresh0State N) :
    Refresh0State N × List (Fin N × Refresh0Msg) :=
  ({ s with phase := .waiting },
    (if all then List.finRange N else target).map (fun i => (i, .val (pid : Nat) s.share.encode)))

/-- `add` has returned the text of `proof`; the code up to the loop. -/
def takeProof (H : Hash) (proof : List Bytes) (s : Refresh0State N) : Refresh0State N :=
  let proofStr := (Text.str (strList proof)).encode
  { s with
    phase := .loop, share := .str [], proof := proof, proofStr := proofStr, proofHash := H proofStr
    hashed := proofStr :: s.hashed }

/-! ## The loop -/

/-- `counter += 1; values[sender] = val; valuesSenders.add(sender)`. -/
def addValue (sender : Fin N) (val : Bytes) (s : Refresh0State N) : Refresh0State N :=
  { s with
    counter := s.counter + 1
    values := s.values.set sender (some val)
    valuesSenders := insert sender s.valuesSenders }

/-- The code after `decode`: encode, hash, sign, send. -/
def announce (H : Hash) (z : Zfec) (key : RsaKey) (f : Nat) (originalMsg : Bytes) (s : Refresh0State N) :
    Refresh0State N × List (Fin N × Refresh0Msg) :=
  match encode z (N - 2 * f) N (.bytes originalMsg) with
  | .error e    => ({ s with phase := .raised e }, [])
  | .ok stripes =>
    let hashList := (Text.str (strList (hashes H stripes))).encode
    let dataSigned := H hashList
    ({ s with dataSigned := some dataSigned, hashed := hashList :: stripes ++ s.hashed },
      (List.finRange N).map (fun j => (j, .final (signData H key dataSigned))))

/-- `if (counter >= ReadyThreshold) and (readySent == False): …`. -/
def amplify (H : Hash) (z : Zfec) (key : RsaKey) (f : Nat) (s : Refresh0State N) :
    Refresh0State N × List (Fin N × Refresh0Msg) :=
  if f + 1 ≤ s.counter ∧ s.readySent = false then
    match decode z (N - 2 * f) N s.values with
    | .error e => ({ s with readySent := true, phase := .raised e }, [])
    | .ok m    => announce H z key f m { s with readySent := true, originalMsg := some m }
  else (s, [])

/-- The hash is the one listed at the index in the message; the value is stored at the sender's. -/
def onVal (H : Hash) (z : Zfec) (key : RsaKey) (f : Nat) (sender : Fin N) (target : Int) (val : Bytes)
    (s : Refresh0State N) : Refresh0State N × List (Fin N × Refresh0Msg) :=
  if s.readySent then (s, [])
  else
    let s := { s with hashed := val :: s.hashed }
    match pyIndex s.proof.length target with
    | .error e => ({ s with phase := .raised e }, [])
    | .ok k    =>
      if H val ≠ s.proof.getD k [] then (s, [])
      else if sender ∈ s.valuesSenders then (s, [])
      else amplify H z key f (addValue sender val s)

/-- `ready[identifier].add(sender); readySenders.add(sender)`. -/
def addReady (sender : Fin N) (identifier : Text) (s : Refresh0State N) : Refresh0State N :=
  { s with
    ready := Function.update s.ready identifier (insert sender (s.ready identifier))
    readySenders := insert sender s.readySenders }

/-- `identifier = str(proof_hash)`. -/
def identifier (s : Refresh0State N) : Text := .str (reprBytes s.proofHash)

def onFinal (H : Hash) (key : RsaKey) (f : Nat) (sender : Fin N) (sig : Bytes) (s : Refresh0State N) :
    Refresh0State N :=
  match s.dataSigned with
  | none            => { s with phase := .raised .unboundLocalError }
  | some dataSigned =>
    if sender ∈ s.ready (.bytes dataSigned) ∨ sender ∈ s.readySenders then s
    else if verifySignature H key s.proofHash sig = false then s
    else
      let s := addReady sender (identifier s) s
      if f + 1 ≤ (s.ready (identifier s)).card then { s with phase := .returned s.share s.proofStr } else s

/-- One pass of the loop. -/
def onMsg (H : Hash) (z : Zfec) (key : RsaKey) (f : Nat) (s : Refresh0State N) (sender : Fin N) :
    Refresh0Msg → Refresh0State N × List (Fin N × Refresh0Msg)
  | .val target val => onVal H z key f sender target val s
  | .final sig      => (onFinal H key f sender sig s, [])

end Refresh0

open Refresh0 in
/-- `refresh0` at all `N` parties; `add` gives party `p` the text of the list `proof p`. -/
def refresh0 (H : Hash) (z : Zfec) (key : RsaKey) {N : Nat} (f : Nat) (all : Bool) (target : List (Fin N))
    (share : Fin N → Bytes) (proof : Fin N → List Bytes) : Net.Proto (Fin N) Thread (Refresh0State N) Refresh0Msg where
  init := fun pid => init (share pid)
  wake := fun pid t s =>
    match t, s.phase with
    | .send, .start  => some (sendShare all target pid s)
    | .add, .waiting => some (takeProof H (proof pid) s, [])
    | _, _           => none
  recv := fun _ s sender msg => if s.phase = .loop then some (onMsg H z key f s sender msg) else none

end Dpid
