import Dpid.Coding
import Dpid.Net
import Dpid.Sha256
import Dpid.VectorCommit
import Mathlib.Data.Finset.Card
/-!
# RbcVc — `rbc_vc_check` (`dpid/core/rbc_vc.py`)

From the value of the broadcast a party computes `size` stripes and their vector commitment, signs it with the one
shared key, and returns its interval of stripes with proofs once `f + 1` parties have sent a signature that verifies.
RSA is the parameter `Rsa`.
-/
namespace Dpid

/-- `sign_data` and `verify_signature` under the shared key pair. -/
structure Rsa where
  sign : Bytes → Bytes
  verify : Bytes → Bytes → Bool

/-- A signature made with the key verifies. -/
def Rsa.Lawful (R : Rsa) : Prop := ∀ data, R.verify data (R.sign data) = true

/-- `[data, proof, index]`; a proof is a pair of coordinates, as text or as a pair. -/
structure Entry where
  data : Bytes
  proof : Int × Int
  index : Int
deriving DecidableEq

/-- `sha256_to_int`. -/
def sha256ToInt (H : Hash) (data : Bytes) : Int := bytesToNat (H data)

/-- `int(size / 3) + 1`. -/
def dataThreshold (size : Nat) : Nat := size / 3 + 1

/-- `int(j * size / N)`, the first index of party `j`. -/
def startIndex (size N j : Nat) : Nat := j * size / N

/-- The indices of party `j`. -/
def interval (size N j : Nat) : List Nat :=
  List.range' (startIndex size N j) (startIndex size N (j + 1) - startIndex size N j)

theorem mem_interval {size N j i : Nat} :
    i ∈ interval size N j ↔ startIndex size N j ≤ i ∧ i < startIndex size N (j + 1) := by
  rw [interval, List.mem_range'_1]
  omega

theorem lt_of_mem_interval {size N : Nat} {j : Fin N} {i : Nat} (h : i ∈ interval size N j) : i < size := by
  have hle : startIndex size N (j + 1) ≤ size :=
    Nat.div_le_of_le_mul (Nat.mul_le_mul_right size (Nat.succ_le_of_lt j.isLt))
  exact Nat.lt_of_lt_of_le (mem_interval.1 h).2 hle

inductive VcPhase where
  | waiting
  | loop
  | returned (share : List Entry)
  | raised (e : Exn)
deriving DecidableEq

/-- `ready` has the one key `data_signed`. -/
structure VcState (N : Nat) where
  phase : VcPhase
  messages : List Bytes
  commitment : Int × Int
  ready : Finset (Fin N)
  readySenders : Finset (Fin N)

namespace RbcVc

variable {N : Nat}

def init : VcState N := ⟨.waiting, [], (0, 0), ∅, ∅⟩

/-- `data_signed = hash(str(x) + str(y))`. -/
def dataSigned (H : Hash) (C : Int × Int) : Bytes := H (Text.str (C.1.repr ++ C.2.repr).toList).encode

/-- `ints`. -/
def ints (H : Hash) (size : Nat) (messages : List Bytes) : List Int :=
  (List.range size).map (fun i => sha256ToInt H (messages.getD i []))

/-- The stripes of `target` and their commitment. -/
def prepare (E : Curve) (H : Hash) (z : Zfec) (size : Nat) (target : Bytes) : Except Exn (List Bytes × (Int × Int)) := do
  let messages ← encode z (dataThreshold size) size (.bytes target)
  let C ← commit E (ints H size messages)
  return (messages, C)

/-- The broadcast has returned `target`. -/
def start (E : Curve) (H : Hash) (z : Zfec) (R : Rsa) (size : Nat) (target : Bytes) (s : VcState N) :
    VcState N × List (Fin N × Bytes) :=
  match prepare E H z size target with
  | .error e          => ({ s with phase := .raised e }, [])
  | .ok (messages, C) =>
    ({ s with phase := .loop, messages := messages, commitment := C },
      (List.finRange N).map (fun j => (j, R.sign (dataSigned H C))))

/-- `[[messages[index], str(generate_proof(…)), index] for index in range(start_index, end_index)]`. -/
def ownShare (E : Curve) (H : Hash) (C : Int × Int) (messages : List Bytes) (size N pid : Nat) :
    Except Exn (List Entry) :=
  (interval size N pid).mapM (fun (index : Nat) => do
    let proof ← generateProof E C (sha256ToInt H (messages.getD index [])) index
    return ⟨messages.getD index [], proof, index⟩)

/-- `ready[data_signed].add(sender); readySenders.add(sender)`. -/
def addReady (sender : Fin N) (s : VcState N) : VcState N :=
  { s with ready := insert sender s.ready, readySenders := insert sender s.readySenders }

/-- One pass of the loop. -/
def onVal (E : Curve) (H : Hash) (R : Rsa) (f size : Nat) (pid sender : Fin N) (sig : Bytes) (s : VcState N) : VcState N :=
  if sender ∈ s.ready ∨ sender ∈ s.readySenders then s
  else if R.verify (dataSigned H s.commitment) sig = false then s
  else
    let s := addReady sender s
    if f + 1 ≤ s.ready.card then
      match ownShare E H s.commitment s.messages size N pid with
      | .error e  => { s with phase := .raised e }
      | .ok share => { s with phase := .returned share }
    else s

/-! ## What a party returns -/

section Share

variable {E : Curve} {H : Hash} {C : Int × Int} {messages : List Bytes} {size N pid : Nat}

theorem mem_ownShare {share : List Entry}
    (h : ownShare E H C messages size N pid = .ok share) {v : Entry} (hv : v ∈ share) : ∃ i ∈ interval size N pid,
    generateProof E C (sha256ToInt H v.data) v.index = .ok v.proof ∧ v.data = messages.getD i [] ∧ v.index = i := by
  obtain ⟨i, hi, hv⟩ := exists_of_mem_mapM h hv
  cases hp : generateProof E C (sha256ToInt H (messages.getD i [])) i with
  | error e => rw [hp] at hv; cases hv
  | ok proof =>
    rw [hp] at hv
    cases hv
    exact ⟨i, hi, hp, rfl, rfl⟩

theorem ownShare_index {share : List Entry}
    (h : ownShare E H C messages size N pid = .ok share) :
    share.map Entry.index = (interval size N pid).map (fun (i : Nat) => (i : Int)) := by
  refine map_eq_of_mapM h (fun i v hv => ?_)
  cases hp : generateProof E C (sha256ToInt H (messages.getD i [])) i with
  | error e => rw [hp] at hv; cases hv
  | ok proof => rw [hp] at hv; cases hv; rfl

theorem exists_ownShare (h : ∀ i ∈ interval size N pid,
    ∃ proof, generateProof E C (sha256ToInt H (messages.getD i [])) (i : Nat) = .ok proof) :
    ∃ share, ownShare E H C messages size N pid = .ok share :=
  exists_mapM_ok (fun i hi => by
    obtain ⟨proof, hp⟩ := h i hi
    exact ⟨_, by rw [hp]; rfl⟩)

/-- **Where no point met is at infinity, `prepare` returns** and every position has a proof. -/
theorem prepare_isOk {z : Zfec} {m : Text} (hE : E.Lawful) (hsize : 0 < size) (hcount : size ≤ gCount)
    (hS : encode z (dataThreshold size) size m = .ok messages)
    (hinf : ∀ i < size, NoInfinity E (ints H size messages) (sha256ToInt H (messages.getD i [])) i) :
    ∃ com, E.xy (commitSum E 0 (ints H size messages)) = some com ∧ commit E (ints H size messages) = .ok com ∧
      prepare E H z size m.encode = .ok (messages, com) ∧
      ∀ i < size, ∃ proof, generateProof E com (sha256ToInt H (messages.getD i [])) (i : Nat) = .ok proof := by
  obtain ⟨com, hcom⟩ := hE.exists_xy (hinf 0 hsize).commitment
  have hcommit : commit E (ints H size messages) = .ok com := by
    rw [commit_eq, jacobiToAffine_eq hcom]
    · exact List.ne_nil_of_length_pos (by rw [ints, List.length_map, List.length_range]; exact hsize)
    · rw [ints, List.length_map, List.length_range]; exact hcount
  refine ⟨com, hcom, hcommit, ?_, fun i hi => ?_⟩
  · rw [prepare, encode_bytes, hS]
    simp only [bind, Except.bind, hcommit]
    rfl
  · obtain ⟨proof, hp, -⟩ := verify_generateProof hE hcom (Nat.lt_of_lt_of_le hi hcount) (hinf i hi).term (hinf i hi).proof
    exact ⟨proof, hp⟩

end Share

end RbcVc

open RbcVc in
/-- `rbc_vc_check` at all `N` parties; the broadcast gives party `p` the string `target p`. -/
def rbcVcCheck (E : Curve) (H : Hash) (z : Zfec) (R : Rsa) {N : Nat} (f size : Nat) (target : Fin N → Bytes) :
    Net.Proto (Fin N) Unit (VcState N) Bytes where
  init := fun _ => init
  wake := fun pid _ s => if s.phase = .waiting then some (start E H z R size (target pid) s) else none
  recv := fun pid s sender sig => if s.phase = .loop then some (onVal E H R f size pid sender sig s, []) else none

end Dpid
