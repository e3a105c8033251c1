import Dpid.Rbc
import Dpid.ZfecTwo
/-!
# RbcAny — `reliablebroadcast` on messages of any values (`honeybadgerbft/core/reliablebroadcast.py`)

The loop of `Dpid/Rbc.lean` again, its messages not yet known to hold byte strings: `merkleVerify` on any Python values,
and which of its failures the handlers catch.  On byte strings it is the loop of `Dpid/Rbc.lean` (`onMsg_ofRbc`).  The
`VAL` handler catches every exception, the `ECHO` handler only `AssertionError`: `onMsg_rejected_iff` says which bad
messages the loop drops.
-/
namespace Dpid

/-- A Python value; a text by its code points.  An `other` is one of any further class (a dict, a set, a range), by its
class under `==`, with what it iterates over if it is `sized`; it is no `str` and has no sum with bytes. -/
inductive PyAny where
  | none
  | bool (b : Bool)
  | int (i : Int)
  | float (x : Rat)
  | str (s : List Nat)
  | bytes (b : Bytes)
  | bytearray (b : Bytes)
  | list (l : List PyAny)
  | tuple (l : List PyAny)
  | other (id : Nat) (hashable sized : Bool) (items : List PyAny)

/-- What `==` compares of a value that is no list and no tuple. -/
inductive PyFlat where
  | none
  | num (x : Rat)
  | str (s : List Nat)
  | bytes (b : Bytes)
  | other (id : Nat)
deriving DecidableEq

namespace PyAny

mutual

def hashable : PyAny → Bool
  | .bytearray _ | .list _ => false
  | .tuple l               => allHashable l
  | .other _ h _ _         => h
  | _                      => true

def allHashable : List PyAny → Bool
  | []     => true
  | x :: l => x.hashable && allHashable l

end

def flat : PyAny → Option PyFlat
  | .none                    => some .none
  | .bool b                  => some (.num b.toNat)
  | .int i                   => some (.num i)
  | .float x                 => some (.num x)
  | .str s                   => some (.str s)
  | .bytes b | .bytearray b  => some (.bytes b)
  | .list _ | .tuple _       => Option.none
  | .other id _ _ _          => some (.other id)

mutual

/-- `v == w`. -/
def eq : PyAny → PyAny → Bool
  | .list l, .list l'   => eqs l l'
  | .tuple l, .tuple l' => eqs l l'
  | v, w                => v.flat.isSome && v.flat == w.flat

def eqs : List PyAny → List PyAny → Bool
  | [], []          => true
  | x :: l, y :: l' => x.eq y && eqs l l'
  | _, _            => false

end

/-- `isinstance(v, (str, bytes))`. -/
def isText : PyAny → Bool
  | .str _ | .bytes _ => true
  | _                 => false

/-- What a sum with bytes takes: the bytes of a byte string. -/
def buffer : PyAny → Option Bytes
  | .bytes b | .bytearray b => some b
  | _                       => Option.none

/-- `len(v)`. -/
def len : PyAny → Except Exn Nat
  | .str s                  => .ok s.length
  | .bytes b | .bytearray b => .ok b.length
  | .list l | .tuple l      => .ok l.length
  | .other _ _ sized items  => if sized then .ok items.length else .error .typeError
  | _                       => .error .typeError

/-- What `for br in v` goes through. -/
def items : PyAny → List PyAny
  | .str s                  => s.map fun c => .str [c]
  | .bytes b | .bytearray b => b.map fun x => .int x.toNat
  | .list l | .tuple l      => l
  | .other _ _ _ items      => items
  | _                       => []

def isSurrogate (c : Nat) : Bool := 0xd800 ≤ c && c ≤ 0xdfff

/-- `v.encode()`, a byte string staying what it is: half of a surrogate pair has no encoding. -/
def encode : PyAny → Except Exn Bytes
  | .str s                  => if s.any isSurrogate then .error .unicodeEncodeError else .ok (s.flatMap chrEncode)
  | .bytes b | .bytearray b => .ok b
  | _                       => .error .typeError

/-- `d[k] = v`. -/
def set {α : Type} (d : PyAny → α) (k : PyAny) (v : α) : PyAny → α := fun x => if x.eq k then v else d x

end PyAny

inductive AnyMsg where
  | val (roothash branch stripe : PyAny)
  | echo (roothash branch stripe : PyAny)
  | ready (roothash : PyAny)

inductive AnyPhase where
  | loop
  | decided (roothash : PyAny) (m : Except Exn Bytes)
  | raised (e : Exn)

structure AnyState (N : Nat) where
  phase : AnyPhase
  fromLeader : Option PyAny
  stripes : PyAny → Fin N → Option PyAny
  echoCounter : PyAny → Nat
  echoSenders : Finset (Fin N)
  ready : PyAny → Finset (Fin N)
  readySent : Bool
  readySenders : Finset (Fin N)

namespace RbcAny

/-! ## The verifier -/

def hash (H : Hash) (x : PyAny) : Except Exn Bytes := x.encode.map H

def verifyFrom (H : Hash) : Nat → Bytes → List PyAny → Except Exn Bytes
  | _, tmp, []              => .ok tmp
  | tindex, tmp, br :: rest =>
    match br.buffer with
    | some br => verifyFrom H (tindex >>> 1) (H (pyAndOr (tindex &&& 1) (br ++ tmp) (tmp ++ br))) rest
    | none    => .error .typeError

/-- `merkleVerify`; `stdout` says which `roothash` and `branch` the `print` of a mismatch can write. -/
def merkleVerify (H : Hash) (stdout : PyAny → PyAny → Bool) (N : Nat) (val roothash branch : PyAny) (index : Nat) :
    Except Exn Bool := do
  if ¬ index < N then throw .assertionError
  if val.isText = false then throw .assertionError
  let depth ← branch.len
  if depth ≠ Nat.clog 2 N then throw .assertionError
  let leaf ← hash H val
  let tmp ← verifyFrom H index leaf branch.items
  if (PyAny.bytes tmp).eq roothash then return true
  if stdout roothash branch then return false else throw .unicodeEncodeError

/-! ## The loop -/

variable {N : Nat}

/-- `decode(K, N, stripes)`: zfec takes no text. -/
def decode (z : Zfec) (K N : Nat) (stripes : List (Option PyAny)) : Except Exn Bytes :=
  let blocks := (stripes.filterMap id).take K
  if blocks.length = K ∧ blocks.any (fun b => b.buffer.isNone) then do
    zfecInit K N
    throw .typeError
  else Dpid.decode z K N (stripes.map fun b => b.bind PyAny.buffer)

def decodeOutput (H : Hash) (z : Zfec) (f : Nat) (stripes : Fin N → Option PyAny) (roothash : PyAny) :
    Except Exn Bytes := do
  let m ← decode z (N - 2 * f) N (List.ofFn stripes)
  let stripes' ← encode z (N - 2 * f) N (.bytes m)
  let mt ← merkleTree H stripes'
  if (PyAny.bytes (mt.getD 1 [])).eq roothash = false then throw .assertionError
  return m

/-- `if cond and not readySent: readySent = True; broadcast(('READY', roothash))`. -/
def sendReady (cond : Prop) [Decidable cond] (roothash : PyAny) (s : AnyState N) : AnyState N × List (Fin N × AnyMsg) :=
  if cond ∧ s.readySent = false then ({ s with readySent := true }, Rbc.broadcast (.ready roothash)) else (s, [])

/-- `if len(ready[roothash]) >= OutputThreshold and echoCounter[roothash] >= K: return decode_output(roothash)`. -/
def output (H : Hash) (z : Zfec) (f : Nat) (roothash : PyAny) (s : AnyState N) : AnyState N :=
  if 2 * f + 1 ≤ (s.ready roothash).card ∧ N - 2 * f ≤ s.echoCounter roothash then
    { s with phase := .decided roothash (decodeOutput H z f (s.stripes roothash) roothash) }
  else s

def onVal (H : Hash) (stdout : PyAny → PyAny → Bool) (leader pid sender : Fin N) (roothash branch stripe : PyAny)
    (s : AnyState N) : AnyState N × List (Fin N × AnyMsg) :=
  match s.fromLeader with
  | some _ => (s, [])
  | none   =>
    if sender ≠ leader then (s, [])
    else
      match merkleVerify H stdout N stripe roothash branch pid with
      | .ok true => ({ s with fromLeader := some roothash }, Rbc.broadcast (.echo roothash branch stripe))
      -- `except Exception`
      | _        => (s, [])

/-- `stripes[roothash][sender] = stripe; echoSenders.add(sender); echoCounter[roothash] += 1`. -/
def addEcho (sender : Fin N) (roothash stripe : PyAny) (s : AnyState N) : AnyState N :=
  { s with
    stripes := PyAny.set s.stripes roothash (Function.update (s.stripes roothash) sender (some stripe))
    echoSenders := insert sender s.echoSenders
    echoCounter := PyAny.set s.echoCounter roothash (s.echoCounter roothash + 1) }

def onEcho (H : Hash) (stdout : PyAny → PyAny → Bool) (z : Zfec) (f : Nat) (sender : Fin N)
    (roothash branch stripe : PyAny) (s : AnyState N) : AnyState N × List (Fin N × AnyMsg) :=
  -- `roothash in stripes`
  if roothash.hashable = false then ({ s with phase := .raised .typeError }, [])
  else if (s.stripes roothash sender).isSome ∨ sender ∈ s.echoSenders then (s, [])
  else
    match merkleVerify H stdout N stripe roothash branch sender with
    | .ok true =>
      let s := addEcho sender roothash stripe s
      let (s, out) := sendReady (N - f ≤ s.echoCounter roothash) roothash s
      (output H z f roothash s, out)
    | .ok false              => (s, [])
    -- `except AssertionError`
    | .error .assertionError => (s, [])
    | .error e               => ({ s with phase := .raised e }, [])

/-- `ready[roothash].add(sender); readySenders.add(sender)`. -/
def addReady (sender : Fin N) (roothash : PyAny) (s : AnyState N) : AnyState N :=
  { s with
    ready := PyAny.set s.ready roothash (insert sender (s.ready roothash))
    readySenders := insert sender s.readySenders }

def onReady (H : Hash) (z : Zfec) (f : Nat) (sender : Fin N) (roothash : PyAny) (s : AnyState N) :
    AnyState N × List (Fin N × AnyMsg) :=
  -- `ready[roothash]`
  if roothash.hashable = false then ({ s with phase := .raised .typeError }, [])
  else if sender ∈ s.ready roothash ∨ sender ∈ s.readySenders then (s, [])
  else
    let s := addReady sender roothash s
    let (s, out) := sendReady (f + 1 ≤ (s.ready roothash).card) roothash s
    (output H z f roothash s, out)

def onMsg (H : Hash) (stdout : PyAny → PyAny → Bool) (z : Zfec) (f : Nat) (leader pid : Fin N) (s : AnyState N)
    (sender : Fin N) : AnyMsg → AnyState N × List (Fin N × AnyMsg)
  | .val roothash branch stripe  => onVal H stdout leader pid sender roothash branch stripe s
  | .echo roothash branch stripe => onEcho H stdout z f sender roothash branch stripe s
  | .ready roothash              => onReady H z f sender roothash s

/-! ## How the verifier fails -/

theorem verifyFrom_eq (H : Hash) : ∀ (l : List PyAny) (tindex : Nat) (tmp : Bytes), verifyFrom H tindex tmp l =
    if l.all (fun br => br.buffer.isSome) then .ok (Dpid.verifyFrom H tindex tmp (l.filterMap PyAny.buffer))
    else .error .typeError
  | [], _, _               => rfl
  | br :: rest, tindex, tmp => by
    rw [verifyFrom, List.all_cons, List.filterMap_cons]
    cases hbr : br.buffer with
    | none   => rfl
    | some b => exact verifyFrom_eq H rest (tindex >>> 1) _

variable {H : Hash} {stdout : PyAny → PyAny → Bool} {val roothash branch : PyAny} {index : Nat}

theorem merkleVerify_eq (hindex : index < N) (htext : val.isText = true) (hlen : branch.len = .ok (Nat.clog 2 N)) :
    merkleVerify H stdout N val roothash branch index = (hash H val).bind fun leaf =>
      (verifyFrom H index leaf branch.items).bind fun tmp =>
        if (PyAny.bytes tmp).eq roothash then .ok true
        else if stdout roothash branch then .ok false else .error .unicodeEncodeError := by
  unfold merkleVerify
  rw [if_neg (not_not.2 hindex), if_neg (by rw [htext]; nofun), hlen]
  exact if_neg (not_not.2 rfl)

theorem merkleVerify_assertion (hindex : index < N)
    (h : val.isText = false ∨ ∃ depth, branch.len = .ok depth ∧ depth ≠ Nat.clog 2 N) :
    merkleVerify H stdout N val roothash branch index = .error .assertionError := by
  unfold merkleVerify
  rw [if_neg (not_not.2 hindex)]
  by_cases htext : val.isText = false
  · rw [if_pos htext]
    rfl
  · obtain ⟨depth, hlen, hdepth⟩ := h.resolve_left htext
    rw [if_neg htext, hlen]
    exact if_pos hdepth

@[simp] theorem bytes_eq (a b : Bytes) : (PyAny.bytes a).eq (.bytes b) = (a == b) := by
  simp [PyAny.eq, PyAny.flat, Bool.beq_eq_decide_eq]

@[simp] theorem set_bytes {α : Type} (d : PyAny → α) (r r' : Bytes) (v : α) :
    PyAny.set d (.bytes r) v (.bytes r') = if r' = r then v else d (.bytes r') := by
  simp [PyAny.set]

theorem verifyFrom_bytes (H : Hash) : ∀ (l : List Bytes) (tindex : Nat) (tmp : Bytes),
    verifyFrom H tindex tmp (l.map .bytes) = .ok (Dpid.verifyFrom H tindex tmp l)
  | [], _, _             => rfl
  | _ :: rest, tindex, _ => verifyFrom_bytes H rest (tindex >>> 1) _

/-- `print` can write a tuple of byte strings. -/
def PrintsBytes (stdout : PyAny → PyAny → Bool) : Prop :=
  ∀ (roothash : Bytes) (branch : List Bytes), stdout (.bytes roothash) (.list (branch.map .bytes)) = true

theorem merkleVerify_bytes (hstdout : PrintsBytes stdout) (val roothash : Bytes) (branch : List Bytes) (index : Nat) :
    merkleVerify H stdout N (.bytes val) (.bytes roothash) (.list (branch.map .bytes)) index =
      Dpid.merkleVerify H N val roothash branch index := by
  by_cases hindex : index < N
  · have hlen : (PyAny.list (branch.map .bytes)).len = .ok branch.length := by rw [PyAny.len, List.length_map]
    by_cases hdepth : branch.length = Nat.clog 2 N
    · rw [merkleVerify_eq hindex rfl (hlen.trans (by rw [hdepth]))]
      unfold Dpid.merkleVerify
      rw [if_neg (not_not.2 hindex), if_neg (not_not.2 hdepth)]
      show (verifyFrom H index (H val) (branch.map .bytes)).bind _ = _
      rw [verifyFrom_bytes]
      simp only [Except.bind, bytes_eq, hstdout roothash branch, if_true]
      cases Dpid.verifyFrom H index (H val) branch == roothash <;> rfl
    · rw [merkleVerify_assertion hindex (Or.inr ⟨_, hlen, hdepth⟩)]
      unfold Dpid.merkleVerify
      rw [if_neg (not_not.2 hindex), if_pos hdepth]
      rfl
  · unfold merkleVerify Dpid.merkleVerify
    rw [if_pos hindex, if_pos hindex]
    rfl

theorem decode_bytes (z : Zfec) (K N : Nat) (stripes : List (Option Bytes)) :
    decode z K N (stripes.map (Option.map .bytes)) = Dpid.decode z K N stripes := by
  have hblocks : ((stripes.map (Option.map PyAny.bytes)).filterMap id).take K =
      ((stripes.filterMap id).take K).map PyAny.bytes := by
    rw [List.filterMap_map, List.map_take, List.map_filterMap]
    rfl
  have hstripes : (stripes.map (Option.map PyAny.bytes)).map (fun b => b.bind PyAny.buffer) = stripes := by
    rw [List.map_map]
    conv_rhs => rw [← List.map_id stripes]
    exact List.map_congr_left fun b _ => by cases b <;> rfl
  unfold decode
  simp only
  rw [hblocks, hstripes, if_neg]
  rintro ⟨-, h⟩
  rw [List.any_map] at h
  obtain ⟨b, -, hb⟩ := List.any_eq_true.1 h
  cases hb

def ofMsg : RbcMsg → AnyMsg
  | .val roothash branch stripe  => .val (.bytes roothash) (.list (branch.map .bytes)) (.bytes stripe)
  | .echo roothash branch stripe => .echo (.bytes roothash) (.list (branch.map .bytes)) (.bytes stripe)
  | .ready roothash              => .ready (.bytes roothash)

def ofPhase : RbcPhase → AnyPhase
  | .input | .loop       => .loop
  | .decided roothash m  => .decided (.bytes roothash) m
  | .raised e            => .raised e

/-- The two states hold the same at byte strings. -/
structure Agrees (s : RbcState N) (t : AnyState N) : Prop where
  phase : t.phase = ofPhase s.phase
  fromLeader : t.fromLeader = s.fromLeader.map .bytes
  stripes : ∀ r i, t.stripes (.bytes r) i = (s.stripes r i).map .bytes
  echoCounter : ∀ r, t.echoCounter (.bytes r) = s.echoCounter r
  echoSenders : t.echoSenders = s.echoSenders
  ready : ∀ r, t.ready (.bytes r) = s.ready r
  readySent : t.readySent = s.readySent
  readySenders : t.readySenders = s.readySenders

/-- What one pass does to both, and what it sends. -/
def AgreesOut (x : RbcState N × List (Fin N × RbcMsg)) (y : AnyState N × List (Fin N × AnyMsg)) : Prop :=
  Agrees x.1 y.1 ∧ y.2 = x.2.map (fun o => (o.1, ofMsg o.2))

variable {z : Zfec} {f : Nat} {leader pid sender : Fin N}

theorem broadcast_ofMsg (msg : RbcMsg) :
    Rbc.broadcast (N := N) (ofMsg msg) = (Rbc.broadcast msg).map (fun o => (o.1, ofMsg o.2)) := by
  rw [Rbc.broadcast, Rbc.broadcast, List.map_map]
  rfl

namespace Agrees

variable {s : RbcState N} {t : AnyState N}

theorem decodeOutput (h : Agrees s t) (r : Bytes) :
    decodeOutput H z f (t.stripes (.bytes r)) (.bytes r) = Rbc.decodeOutput H z f (s.stripes r) r := by
  have hstripes : List.ofFn (t.stripes (.bytes r)) = (List.ofFn (s.stripes r)).map (Option.map .bytes) := by
    rw [List.map_ofFn]
    exact congrArg List.ofFn (funext (h.stripes r))
  unfold RbcAny.decodeOutput Rbc.decodeOutput
  rw [hstripes, decode_bytes]
  simp only [bytes_eq, beq_eq_false_iff_ne, ne_eq]

theorem output (h : Agrees s t) (r : Bytes) : Agrees (Rbc.output H z f r s) (output H z f (.bytes r) t) := by
  unfold RbcAny.output Rbc.output
  rw [h.ready, h.echoCounter, h.decodeOutput]
  split
  · exact { h with phase := rfl }
  · exact h

theorem sendReady (h : Agrees s t) (cond : Prop) [Decidable cond] (r : Bytes) :
    AgreesOut (Rbc.sendReady cond r s) (sendReady cond (.bytes r) t) := by
  unfold RbcAny.sendReady Rbc.sendReady
  rw [h.readySent]
  split
  · exact ⟨{ h with readySent := rfl }, broadcast_ofMsg (.ready r)⟩
  · exact ⟨h, rfl⟩

theorem onVal (h : Agrees s t) (hstdout : PrintsBytes stdout) (r : Bytes) (br : List Bytes) (b : Bytes) :
    AgreesOut (Rbc.onVal H leader pid sender r br b s)
      (onVal H stdout leader pid sender (.bytes r) (.list (br.map .bytes)) (.bytes b) t) := by
  have hsame : Agrees { s with hashed := merkleVerifyHashed H N b br pid ++ s.hashed } t := { h with }
  have hfrom := h.fromLeader
  unfold RbcAny.onVal Rbc.onVal
  rw [merkleVerify_bytes hstdout]
  cases hs : s.fromLeader with
  | some _ =>
    rw [hs] at hfrom
    rw [hfrom]
    exact ⟨h, rfl⟩
  | none   =>
    rw [hs] at hfrom hsame
    rw [hfrom]
    simp only [Option.map_none]
    split
    · exact ⟨h, rfl⟩
    · cases Dpid.merkleVerify H N b r br pid with
      | error e => exact ⟨hsame, rfl⟩
      | ok c    =>
        cases c
        · exact ⟨hsame, rfl⟩
        · exact ⟨{ h with fromLeader := rfl }, broadcast_ofMsg (.echo r br b)⟩

theorem addEcho (h : Agrees s t) (sender : Fin N) (r b : Bytes) :
    Agrees (Rbc.addEcho sender r b s) (addEcho sender (.bytes r) (.bytes b) t) where
  phase := h.phase
  fromLeader := h.fromLeader
  stripes := by
    intro r' i
    simp only [RbcAny.addEcho, Rbc.addEcho, set_bytes, Function.update_apply]
    split
    · simp only [Function.update_apply]
      split
      · rfl
      · exact h.stripes r i
    · exact h.stripes r' i
  echoCounter := by
    intro r'
    simp only [RbcAny.addEcho, Rbc.addEcho, set_bytes, Function.update_apply, h.echoCounter]
  echoSenders := congrArg (insert sender) h.echoSenders
  ready := h.ready
  readySent := h.readySent
  readySenders := h.readySenders

theorem addReady (h : Agrees s t) (sender : Fin N) (r : Bytes) :
    Agrees (Rbc.addReady sender r s) (addReady sender (.bytes r) t) where
  phase := h.phase
  fromLeader := h.fromLeader
  stripes := h.stripes
  echoCounter := h.echoCounter
  echoSenders := h.echoSenders
  ready := by
    intro r'
    simp only [RbcAny.addReady, Rbc.addReady, set_bytes, Function.update_apply, h.ready]
  readySent := h.readySent
  readySenders := congrArg (insert sender) h.readySenders

theorem sendOutput (h : Agrees s t) (cond : Prop) [Decidable cond] (r : Bytes) :
    AgreesOut (Rbc.output H z f r (Rbc.sendReady cond r s).1, (Rbc.sendReady cond r s).2)
      (RbcAny.output H z f (.bytes r) (RbcAny.sendReady cond (.bytes r) t).1, (RbcAny.sendReady cond (.bytes r) t).2) :=
  ⟨(h.sendReady cond r).1.output r, (h.sendReady cond r).2⟩

theorem onEcho (h : Agrees s t) (hstdout : PrintsBytes stdout) (r : Bytes) (br : List Bytes) (b : Bytes) :
    AgreesOut (Rbc.onEcho H z f sender r br b s)
      (onEcho H stdout z f sender (.bytes r) (.list (br.map .bytes)) (.bytes b) t) := by
  have hsame : Agrees { s with hashed := merkleVerifyHashed H N b br sender ++ s.hashed } t := { h with }
  unfold RbcAny.onEcho Rbc.onEcho
  rw [if_neg (show ¬ (PyAny.bytes r).hashable = false from nofun), h.stripes, Option.isSome_map,
    merkleVerify_bytes hstdout]
  have hredundant : (((s.stripes r sender).isSome = true ∨ sender ∈ t.echoSenders) ↔
      ((s.stripes r sender).isSome = true ∨ sender ∈ s.echoSenders)) := by rw [h.echoSenders]
  by_cases hold : (s.stripes r sender).isSome = true ∨ sender ∈ s.echoSenders
  · rw [if_pos (hredundant.2 hold), if_pos hold]
    exact ⟨h, rfl⟩
  · rw [if_neg (fun h => hold (hredundant.1 h)), if_neg hold]
    cases Dpid.merkleVerify H N b r br sender with
    | error e =>
      cases e with
      | assertionError => exact ⟨hsame, rfl⟩
      | _              => exact ⟨{ h with phase := rfl }, rfl⟩
    | ok c    =>
      cases c
      · exact ⟨hsame, rfl⟩
      · have hadd := hsame.addEcho sender r b
        simp only [hadd.echoCounter]
        exact hadd.sendOutput _ r

theorem onReady (h : Agrees s t) (r : Bytes) :
    AgreesOut (Rbc.onReady H z f sender r s) (onReady H z f sender (.bytes r) t) := by
  unfold RbcAny.onReady Rbc.onReady
  rw [if_neg (show ¬ (PyAny.bytes r).hashable = false from nofun), h.ready, h.readySenders]
  split
  · exact ⟨h, rfl⟩
  · have hadd := h.addReady sender r
    simp only [hadd.ready]
    exact hadd.sendOutput _ r

end Agrees

/-- **On byte strings the two loops do the same.** -/
theorem onMsg_ofRbc {s : RbcState N} {t : AnyState N} (h : Agrees s t) (hstdout : PrintsBytes stdout) (msg : RbcMsg) :
    AgreesOut (Rbc.onMsg H z f leader pid s sender msg) (onMsg H stdout z f leader pid t sender (ofMsg msg)) := by
  cases msg with
  | val r br b  => exact h.onVal hstdout r br b
  | echo r br b => exact h.onEcho hstdout r br b
  | ready r     => exact h.onReady r

/-! ## Bad proofs -/

variable {z : Zfec} {f : Nat} {leader pid sender : Fin N} {s : AnyState N} {msg : AnyMsg}

def init : AnyState N where
  phase := .loop
  fromLeader := none
  stripes := fun _ _ => none
  echoCounter := fun _ => 0
  echoSenders := ∅
  ready := fun _ => ∅
  readySent := false
  readySenders := ∅

/-- `sender, msg = receive()` and the pass that takes it; a party that has left the loop takes nothing. -/
def receive (H : Hash) (stdout : PyAny → PyAny → Bool) (z : Zfec) (f : Nat) (leader pid : Fin N) (s : AnyState N)
    (m : Fin N × AnyMsg) : AnyState N × List (Fin N × AnyMsg) :=
  match s.phase with
  | .loop => onMsg H stdout z f leader pid s m.1 m.2
  | _     => (s, [])

/-- The loop on the messages `l`, and all it sends. -/
def run (H : Hash) (stdout : PyAny → PyAny → Bool) (z : Zfec) (f : Nat) (leader pid : Fin N) (s : AnyState N) :
    List (Fin N × AnyMsg) → AnyState N × List (Fin N × AnyMsg)
  | []     => (s, [])
  | m :: l =>
    let r := receive H stdout z f leader pid s m
    let r' := run H stdout z f leader pid r.1 l
    (r'.1, r.2 ++ r'.2)

end RbcAny
end Dpid
