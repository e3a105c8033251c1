import Dpid.Merkle
import Dpid.Refresh0
import Mathlib
/-!
# RefreshCommittee — `refresh` (`dpid/core/refresh.py`)

The committee variant: every party sends its stripe to the members of the committee.  A member takes stripes in a first
loop until it has counted `f + 1`, decodes, encodes again, commits to the codeword of the hash list with a Merkle tree
and sends every party its two stripes in a `RELAY`.  In the second loop, which all parties run, equal `RELAY`s lead to
an `ECHO`, verified `ECHO`s to the hash list and its signature, and `FINAL` signatures to the end.

`VAL` is one tag with two shapes: the target is a party's number in the first and the recovered hash list in the second.
`add` gives the text of a list, and `literal_eval` reads the list back; the model is given the list.  `relay_root` and
`merkle_decode` start as `""`, whose hash is that of the empty byte string and which equals no digest.  The keys are
files: a parameter.  `counted` is history: the `RELAY`s counted, each with its sender.
-/
namespace Dpid

/-! ## Messages -/

/-- What follows the tag of a `RELAY`. -/
structure Relay where
  stripe : Bytes
  hashStripe : Bytes
  merkleProof : List Bytes
  merkleRoot : Bytes
deriving DecidableEq

/-- What stands for the index in a `VAL`. -/
inductive ValTarget where
  | int (i : Int)
  | bytes (b : Bytes)
deriving DecidableEq

inductive CommitteeMsg where
  | val (target : ValTarget) (val : Bytes)
  | relay (r : Relay)
  | echo (hashStripe : Bytes) (merkleProof : List Bytes) (merkleRoot : Bytes)
  | final (sig : Bytes)
deriving DecidableEq

/-- `str(msg)` of a `RELAY`. -/
def Relay.str (r : Relay) : List Char :=
  ['(', apostrophe, 'R', 'E', 'L', 'A', 'Y', apostrophe, ',', ' '] ++ reprBytes r.stripe ++ [',', ' '] ++
    reprBytes r.hashStripe ++ [',', ' '] ++ strList r.merkleProof ++ [',', ' '] ++ reprBytes r.merkleRoot ++ [')']

/-- The string hashed for a `RELAY`. -/
def Relay.text (r : Relay) : Bytes := (Text.str r.str).encode

/-- **A `RELAY` is read back from its text.** -/
theorem Relay.text_inj {r r' : Relay} (h : r.text = r'.text) : r = r' := by
  have hstr : r.str = r'.str := Text.encode_str_inj h
  obtain ⟨a, b, l, c⟩ := r
  obtain ⟨a', b', l', c'⟩ := r'
  simp only [Relay.str, List.append_assoc] at hstr
  obtain ⟨ha, hstr⟩ := reprBytes_append_inj (List.append_cancel_left hstr)
  obtain ⟨hb, hstr⟩ := reprBytes_append_inj (List.append_cancel_left hstr)
  obtain ⟨hl, hstr⟩ := strList_append_inj (List.append_cancel_left hstr)
  obtain ⟨hc, -⟩ := reprBytes_append_inj (List.append_cancel_left hstr)
  rw [ha, hb, hl, hc]

/-! ## The state -/

inductive CommitteePhase where
  | start
  | waiting
  | first
  | second
  | returned
  | raised (e : Exn)
deriving DecidableEq

structure CommitteeState (N : Nat) where
  phase : CommitteePhase
  share : Bytes
  proof : List Bytes
  values : List (Option Bytes)
  valuesSenders : Finset (Fin N)
  counter : Nat
  relayMsg : Bytes → Option Nat
  relayRoot : Bytes
  echoSent : Bool
  echoHash : List (Option Bytes)
  echoCount : Nat
  finalSent : Bool
  finalSig : List (Option Bytes)
  finalCount : Nat
  merkleDecode : Bytes
  readySent : Bool
  counted : List (Fin N × Relay)

namespace Committee

variable {N : Nat}

inductive Thread where
  | send
  | add

def init (share : Bytes) : CommitteeState N where
  phase := .start
  share := share
  proof := []
  values := List.replicate N none
  valuesSenders := ∅
  counter := 0
  relayMsg := fun _ => none
  relayRoot := []
  echoSent := false
  echoHash := List.replicate N none
  echoCount := 0
  finalSent := false
  finalSig := List.replicate N none
  finalCount := 0
  merkleDecode := []
  readySent := false
  counted := []

/-- The parties a share is sent to, which are those that run the first loop. -/
def members (all : Bool) (target : List (Fin N)) : List (Fin N) := if all then List.finRange N else target

/-- `send(i, ('VAL', pid, share))`. -/
def sendShare (all : Bool) (target : List (Fin N)) (pid : Fin N) (s : CommitteeState N) :
    CommitteeState N × List (Fin N × CommitteeMsg) :=
  ({ s with phase := .waiting }, (members all target).map (fun i => (i, .val (.int (pid : Nat)) s.share)))

/-- `add` has returned the text of `proof`; the code up to the first receive. -/
def takeProof (all : Bool) (target : List (Fin N)) (pid : Fin N) (proof : List Bytes) (s : CommitteeState N) :
    CommitteeState N :=
  { s with phase := if pid ∈ members all target then .first else .second, proof := proof }

def raise (e : Exn) (s : CommitteeState N) : CommitteeState N := { s with phase := .raised e }

/-! ## The two loops -/

/-- `proof[target]`. -/
def proofAt (proof : List Bytes) : ValTarget → Except Exn Bytes
  | .int i   => (pyIndex proof.length i).map (fun k => proof.getD k [])
  | .bytes _ => .error .typeError

/-- `counter += 1; values[sender] = val; valuesSenders.add(sender)`. -/
def addValue (sender : Fin N) (val : Bytes) (s : CommitteeState N) : CommitteeState N :=
  { s with
    counter := s.counter + 1
    values := s.values.set sender (some val)
    valuesSenders := insert sender s.valuesSenders }

/-- The checks on a `VAL` and the update, the same in both loops; `none` is `continue`. -/
def takeVal (H : Hash) (sender : Fin N) (target : ValTarget) (val : Bytes) (s : CommitteeState N) :
    Except Exn (Option (CommitteeState N)) :=
  match proofAt s.proof target with
  | .error e => .error e
  | .ok h    =>
    if H val ≠ h then .ok none
    else if sender ∈ s.valuesSenders then .ok none
    else .ok (some (addValue sender val s))

/-- `str([hash(piece) for piece in stripes])`. -/
def hashList (H : Hash) (stripes : List Bytes) : Text := .str (strList (hashes H stripes))

/-- The stripes of the message, those of their hash list, and the tree over the latter. -/
def commitTo (H : Hash) (z : Zfec) (K N : Nat) (originalMsg : Bytes) :
    Except Exn (List Bytes × List Bytes × List Bytes) := do
  let stripes ← encode z K N (.bytes originalMsg)
  let hashStripes ← encode z K N (hashList H stripes)
  let vectorCommitment ← merkleTree H hashStripes
  return (stripes, hashStripes, vectorCommitment)

def relayFor (stripes hashStripes vectorCommitment : List Bytes) (j : Nat) : Relay where
  stripe := stripes.getD j []
  hashStripe := hashStripes.getD j []
  merkleProof := getMerkleBranch j vectorCommitment
  merkleRoot := vectorCommitment.getD 1 []

/-- The `for` loop over the parties leaves its last branch in `proof`. -/
def enterSecond (vectorCommitment : List Bytes) (s : CommitteeState N) : CommitteeState N :=
  { s with phase := .second, proof := getMerkleBranch (N - 1) vectorCommitment }

/-- The code from `decode` to the second loop. -/
def sendRelays (H : Hash) (z : Zfec) (f : Nat) (s : CommitteeState N) : CommitteeState N × List (Fin N × CommitteeMsg) :=
  match (decode z (N - 2 * f) N s.values).bind (commitTo H z (N - 2 * f) N) with
  | .error e                                     => (raise e s, [])
  | .ok (stripes, hashStripes, vectorCommitment) =>
    (enterSecond vectorCommitment s,
      (List.finRange N).map (fun j => (j, .relay (relayFor stripes hashStripes vectorCommitment j))))

/-- One pass of the first loop. -/
def onFirst (H : Hash) (z : Zfec) (f : Nat) (s : CommitteeState N) (sender : Fin N) :
    CommitteeMsg → CommitteeState N × List (Fin N × CommitteeMsg)
  | .val target val =>
    match takeVal H sender target val s with
    | .error e     => (raise e s, [])
    | .ok none     => (s, [])
    | .ok (some s) => if f + 1 ≤ s.counter then sendRelays H z f s else (s, [])
  | _               => (s, [])

/-- A `RELAY` is counted under the hash of its text; the first of a kind does not reach the threshold. -/
def onRelay (H : Hash) (f : Nat) (sender : Fin N) (r : Relay) (s : CommitteeState N) :
    CommitteeState N × List (Fin N × CommitteeMsg) :=
  if s.echoSent then (s, [])
  else
    let msgHash := H r.text
    let s := { s with counted := (sender, r) :: s.counted }
    match s.relayMsg msgHash with
    | none       => ({ s with relayMsg := Function.update s.relayMsg msgHash (some 1) }, [])
    | some count =>
      let s := { s with relayMsg := Function.update s.relayMsg msgHash (some (count + 1)) }
      if N - 2 * f ≤ count + 1 then
        ({ s with echoSent := true, relayRoot := r.merkleRoot },
          (List.finRange N).map (fun j => (j, .echo r.hashStripe r.merkleProof (H r.merkleRoot))))
      else (s, [])

/-- The code after `final_sent = True`. -/
def recover (H : Hash) (z : Zfec) (key : RsaKey) (f : Nat) (s : CommitteeState N) :
    CommitteeState N × List (Fin N × CommitteeMsg) :=
  match decode z (N - 2 * f) N s.echoHash with
  | .error e => (raise e s, [])
  | .ok m    =>
    ({ s with merkleDecode := m }, (List.finRange N).map (fun j => (j, .val (.bytes m) (signData H key (H m)))))

/-- `echo_hash[sender] = hash_stripe; echo_count += 1`. -/
def addEcho (sender : Fin N) (hashStripe : Bytes) (s : CommitteeState N) : CommitteeState N :=
  { s with echoHash := s.echoHash.set sender (some hashStripe), echoCount := s.echoCount + 1 }

def onEcho (H : Hash) (z : Zfec) (key : RsaKey) (f : Nat) (sender : Fin N) (hashStripe : Bytes)
    (merkleProof : List Bytes) (merkleRoot : Bytes) (s : CommitteeState N) :
    CommitteeState N × List (Fin N × CommitteeMsg) :=
  if s.finalSent then (s, [])
  else if merkleRoot ≠ H s.relayRoot then (s, [])
  else
    match merkleVerify H N hashStripe s.relayRoot merkleProof sender with
    | .error e   => (raise e s, [])
    | .ok false  => (s, [])
    | .ok true   =>
      let s := addEcho sender hashStripe s
      if N - 2 * f ≤ s.echoCount then recover H z key f { s with finalSent := true } else (s, [])

/-- The code after `readySent = True`. -/
def signList (H : Hash) (z : Zfec) (key : RsaKey) (f : Nat) (s : CommitteeState N) :
    CommitteeState N × List (Fin N × CommitteeMsg) :=
  match (decode z (N - 2 * f) N s.values).bind (fun m => encode z (N - 2 * f) N (.bytes m)) with
  | .error e    => (raise e s, [])
  | .ok stripes =>
    (s, (List.finRange N).map (fun j => (j, .final (signData H key (H (hashList H stripes).encode)))))

def onVal (H : Hash) (z : Zfec) (key : RsaKey) (f : Nat) (sender : Fin N) (target : ValTarget) (val : Bytes)
    (s : CommitteeState N) : CommitteeState N × List (Fin N × CommitteeMsg) :=
  if s.readySent then (s, [])
  else
    match takeVal H sender target val s with
    | .error e     => (raise e s, [])
    | .ok none     => (s, [])
    | .ok (some s) => if f + 1 ≤ s.counter then signList H z key f { s with readySent := true } else (s, [])

/-- `final_count += 1; final_sig[sender] = sig_recv`. -/
def addFinal (sender : Fin N) (sig : Bytes) (s : CommitteeState N) : CommitteeState N :=
  { s with finalCount := s.finalCount + 1, finalSig := s.finalSig.set sender (some sig) }

/-- The signature is checked against the hash list recovered so far. -/
def onFinal (H : Hash) (key : Fin N → RsaKey) (f : Nat) (sender : Fin N) (sig : Bytes) (s : CommitteeState N) :
    CommitteeState N :=
  if verifySignature H (key sender) (H s.merkleDecode) sig = false then s
  else
    let s := addFinal sender sig s
    if N - 2 * f ≤ s.finalCount then { s with phase := .returned } else s

/-- One pass of the second loop. -/
def onSecond (H : Hash) (z : Zfec) (key : Fin N → RsaKey) (f : Nat) (pid : Fin N) (s : CommitteeState N)
    (sender : Fin N) : CommitteeMsg → CommitteeState N × List (Fin N × CommitteeMsg)
  | .relay r                                => onRelay H f sender r s
  | .echo hashStripe merkleProof merkleRoot => onEcho H z (key pid) f sender hashStripe merkleProof merkleRoot s
  | .val target val                         => onVal H z (key pid) f sender target val s
  | .final sig                              => (onFinal H key f sender sig s, [])

end Committee

open Committee in
/-- `refresh` at all `N` parties; `add` gives party `p` the text of the list `proof p`. -/
def refresh (H : Hash) (z : Zfec) {N : Nat} (key : Fin N → RsaKey) (f : Nat) (all : Bool) (target : List (Fin N))
    (share : Fin N → Bytes) (proof : Fin N → List Bytes) : Net.Proto (Fin N) Thread (CommitteeState N) CommitteeMsg where
  init := fun pid => init (share pid)
  wake := fun pid t s =>
    match t, s.phase with
    | .send, .start  => some (sendShare all target pid s)
    | .add, .waiting => some (takeProof all target pid (proof pid) s, [])
    | _, _           => none
  recv := fun pid s sender msg =>
    match s.phase with
    | .first  => some (onFirst H z f s sender msg)
    | .second => some (onSecond H z key f pid s sender msg)
    | _       => none

namespace Committee

section Steps

variable {H : Hash} {z : Zfec} {N : Nat} {key : Fin N → RsaKey} {f : Nat} {all : Bool} {target : List (Fin N)}
  {share : Fin N → Bytes} {proof : Fin N → List Bytes} {p q : Fin N} {s s' : CommitteeState N} {msg : CommitteeMsg}
  {out : List (Fin N × CommitteeMsg)}

theorem refresh_recv_first (h : s.phase = .first) :
    (refresh H z key f all target share proof).recv p s q msg = some (onFirst H z f s q msg) := by
  simp only [refresh, h]

theorem refresh_recv_second (h : s.phase = .second) :
    (refresh H z key f all target share proof).recv p s q msg = some (onSecond H z key f p s q msg) := by
  simp only [refresh, h]

theorem refresh_wake {t : Thread} (h : (refresh H z key f all target share proof).wake p t s = some (s', out)) :
    (s.phase = .start ∧ (s', out) = sendShare all target p s) ∨
      (s.phase = .waiting ∧ s' = takeProof all target p (proof p) s ∧ out = []) := by
  simp only [refresh] at h
  split at h
  · rename_i hph
    exact Or.inl ⟨hph, (Option.some.inj h).symm⟩
  · rename_i hph
    cases h
    exact Or.inr ⟨hph, rfl, rfl⟩
  · cases h

theorem refresh_recv (h : (refresh H z key f all target share proof).recv p s q msg = some (s', out)) :
    (s.phase = .first ∧ (s', out) = onFirst H z f s q msg) ∨
      (s.phase = .second ∧ (s', out) = onSecond H z key f p s q msg) := by
  simp only [refresh] at h
  split at h
  · rename_i hph
    exact Or.inl ⟨hph, (Option.some.inj h).symm⟩
  · rename_i hph
    exact Or.inr ⟨hph, (Option.some.inj h).symm⟩
  · cases h

end Steps

end Committee

end Dpid
