import Dpid.Net
import Dpid.PyVal
import Dpid.Sha256
import Dpid.ThreshSig
import Mathlib
/-!
# CommonCoin — `shared_coin` (`honeybadgerbft/core/commoncoin.py`)

`getCoin` sends the party's share for a round and waits for the round's item.  `_recv` keeps the shares it takes under
the round, and of the first `f + 1` makes the item: the text of the members that the signature selects.

`received` and `outputQueue` are dicts, which look a round up as Python's `==` has it, while the hash signed is that of
the round's text.
-/
namespace Dpid

/-- The message `('COIN', r, raw_sig)`. -/
structure CoinMsg where
  r : PyVal
  rawSig : Bytes
deriving DecidableEq

/-- What the parties of an instance share: the libraries, `str((sid, r))` and the public key. -/
structure CoinSetup (F G1 G2 GT : Type) [Field F] [AddCommGroup G1] [Module F G1] [AddCommGroup G2] [Module F G2]
    [AddCommGroup GT] [Module F GT] where
  group : PairingGroup F G1 G2 GT
  H : Hash
  str : PyVal → List Char
  /-- `random.sample(participants, k)` after `random.seed(seed)`. -/
  sample : Nat → List Nat → Nat → List Nat
  PK : TBLSPublicKey G2

/-- History: `puts` is the items put into the queues, each with its round. -/
structure CoinState (N : Nat) (G1 : Type) where
  received : PyVal → List (Fin N × GroupElement G1)
  outputQueue : PyVal → Option String
  raised : Option Exn
  waiting : List PyVal
  raisedCalls : List (PyVal × Exn)
  puts : List (PyVal × String)

namespace Coin

variable {F G1 G2 GT : Type} [Field F] [AddCommGroup G1] [Module F G1] [AddCommGroup G2] [Module F G2]
  [AddCommGroup GT] [Module F GT] [DecidableEq GT] {N : Nat}

def init : CoinState N G1 where
  received := fun _ => []
  outputQueue := fun _ => none
  raised := none
  waiting := []
  raisedCalls := []
  puts := []

/-- `PK.hash_message(str((sid, r)))`. -/
def hashRound (E : CoinSetup F G1 G2 GT) (r : PyVal) : G1 :=
  TBLSPublicKey.hashMessage E.group (.str (E.str r))

/-! ## `_recv` -/

def deterministicSelectMembers (E : CoinSetup F G1 G2 GT) (n k : Nat) (byteString : Bytes) : Except Exn (List Nat) :=
  if n < k then .error (.valueError "Sample larger than population or is negative")
  else .ok (E.sample (bytesToNat (E.H byteString)) (List.range n) k)

def members (N : Nat) : Nat := if N = 4 then 3 else if N = 16 then 11 else if N = 31 then 21 else 3

/-- `str(result)` of a list of numbers. -/
def strList (l : List Nat) : String := "[" ++ ", ".intercalate (l.map (fun i => (PyId.int i).str)) ++ "]"

/-- The item of a signature. -/
def itemOf (E : CoinSetup F G1 G2 GT) (N : Nat) (sig : G1) : Except Exn String :=
  (deterministicSelectMembers E N (members N) (E.H (E.group.serialize sig))).map strList

/-- The item of `f + 1` shares. -/
def output (E : CoinSetup F G1 G2 GT) (sigs : List (Fin N × GroupElement G1)) (h : G1) : Except Exn String := do
  let sig ← TBLSPublicKey.combineShares (F := F) E.PK (sigs.map (fun e => (e.1.val, e.2)))
  E.PK.verifySignature E.group sig h
  itemOf E N sig

/-- The check of a share that is not the party's own; `false` is the `continue` of a failed assertion. -/
def checkShare (E : CoinSetup F G1 G2 GT) (pid sender : Fin N) (sig : GroupElement G1) (h : G1) : Except Exn Bool :=
  if sender = pid then .ok true
  else
    match E.PK.verifyShare E.group sig sender h with
    | .ok _                  => .ok true
    | .error .assertionError => .ok false
    | .error e               => .error e

/-- `received[r][i] = sig`, and with `f + 1` shares the item. -/
def store (E : CoinSetup F G1 G2 GT) (f : Nat) (sender : Fin N) (sig : GroupElement G1) (k : PyVal) (h : G1)
    (s : CoinState N G1) : Except Exn (CoinState N G1) :=
  let sigs := s.received k ++ [(sender, sig)]
  let s := { s with received := Function.update s.received k sigs }
  if sigs.length = f + 1 then do
    let item ← output E (sigs.take (f + 1)) h
    if s.outputQueue k ≠ none then throw .full
    return { s with outputQueue := Function.update s.outputQueue k (some item), puts := (k, item) :: s.puts }
  else .ok s

def onShare (E : CoinSetup F G1 G2 GT) (f : Nat) (pid sender : Fin N) (msg : CoinMsg) (s : CoinState N G1) :
    Except Exn (CoinState N G1) :=
  match E.group.deserialize msg.rawSig with
  | none     => .error (.valueError "deserialize")
  | some sig => do
    let k ← msg.r.dictKey
    if sender ∈ (s.received k).map Prod.fst then return s
    let ok ← checkShare E pid sender sig (hashRound E msg.r)
    if ok then store E f sender sig k (hashRound E msg.r) s else return s

/-- One pass of the loop; an exception ends the thread. -/
def onMsg (E : CoinSetup F G1 G2 GT) (f : Nat) (pid sender : Fin N) (msg : CoinMsg) (s : CoinState N G1) :
    CoinState N G1 :=
  match onShare E f pid sender msg s with
  | .ok s    => s
  | .error e => { s with raised := some e }

/-! ## `getCoin` -/

/-- The check of the party's own share, and the key of the queue; an exception goes to the caller. -/
def openCall (E : CoinSetup F G1 G2 GT) (SK : TBLSPrivateKey F G2) (pid : Fin N) (round : PyVal) : Except Exn PyVal := do
  E.PK.verifyShare E.group (.g1 (SK.sign (hashRound E round))) pid (hashRound E round)
  round.dictKey

/-- `getCoin(round)` down to the wait for the item. -/
def getCoin (E : CoinSetup F G1 G2 GT) (SK : TBLSPrivateKey F G2) (pid : Fin N) (round : PyVal) (s : CoinState N G1) :
    CoinState N G1 × List (Fin N × CoinMsg) :=
  (match openCall E SK pid round with
    | .ok k    => { s with waiting := k :: s.waiting }
    | .error e => { s with raisedCalls := (round, e) :: s.raisedCalls },
    (List.finRange N).map (fun i => (i, ⟨round, E.group.serialize (SK.sign (hashRound E round))⟩)))

/-- `outputQueue[round].get()` of a call that waits. -/
def get (k : PyVal) (s : CoinState N G1) : Option (String × CoinState N G1) :=
  if k ∈ s.waiting then
    (s.outputQueue k).map (fun item =>
      (item, { s with outputQueue := Function.update s.outputQueue k none, waiting := s.waiting.erase k }))
  else none

end Coin

inductive CoinCall where
  | getCoin (round : PyVal)
  | get (k : PyVal)

open Coin in
/-- `shared_coin` at all `N` parties, `getCoin` called at any time with any round. -/
def sharedCoin {F G1 G2 GT : Type} [Field F] [AddCommGroup G1] [Module F G1] [AddCommGroup G2] [Module F G2]
    [AddCommGroup GT] [Module F GT] [DecidableEq GT] {N : Nat} (E : CoinSetup F G1 G2 GT) (f : Nat)
    (SK : Fin N → TBLSPrivateKey F G2) : Net.Proto (Fin N) CoinCall (CoinState N G1) CoinMsg where
  init := fun _ => init
  wake := fun pid call s =>
    match call with
    | .getCoin round => some (getCoin E (SK pid) pid round s)
    | .get k         => (get k s).map (fun x => (x.2, []))
  recv := fun pid s sender msg => if s.raised = none then some (onMsg E f pid sender msg s, []) else none

end Dpid
