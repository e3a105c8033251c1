import Dpid.HashList
import Dpid.Net
import Dpid.Slots
import Mathlib
/-!
# OptQrbc — `optqrbc` (`broadcast/optqrbc.py`)

Reliable broadcast with a fast path: the leader sends the whole proposal, the parties of `ids` run Bracha's protocol on
its hash, and a party that commits to a hash without the proposal asks the others for stripes (`ADD_TRIGGER`,
`ADD_DISPERSE`, `ADD_RECONSTRUCT`).

`stripes` is a list from its first assignment on.  So `stripes is None` is never true and `encode` is not called, the
stripes that are sent are the `None`s of that list, and `decode`, which takes a dict, fails at `stripes.values()`.
`predicate` and the constructor of `RSCodec`, which may raise, are parameters.  A `ValueError` leaves the loop, any
other exception the function.

`outputs` are the calls of `output`, the last one first.  `hashed` and `triggered` are history: the strings hashed, and
whether an `ADD_TRIGGER` was sent.
-/
namespace Dpid

/-- A stripe as the messages carry it; an array has no hash. -/
inductive Stripe where
  | none
  | bytes (b : Bytes)
  | array (b : Bytes)
deriving DecidableEq

def Stripe.hashable : Stripe → Bool
  | .array _ => false
  | _        => true

inductive OptMsg where
  | propose (m : Text)
  | echo (digest : Bytes)
  | ready (digest : Bytes)
  | terminate
  | addTrigger
  | addDisperse (myStripe senderStripe : Stripe)
  | addReconstruct (stripe : Stripe)
deriving DecidableEq

inductive OptPhase where
  | start
  | loop
  | returned
  | raised (e : Exn)
deriving DecidableEq

structure OptState (ι : Type) where
  phase : OptPhase
  stripes : List Stripe
  echoCounter : Bytes → Nat
  readyCounter : Bytes → Nat
  echoSenders : Finset ι
  readySenders : Finset ι
  readySent : Bool
  leaderHash : Option Bytes
  reconstructedHash : Option Bytes
  leaderMsg : Option Text
  reconstructedMsg : Option Bytes
  addReadySent : Bool
  terminateSenders : Finset ι
  addTriggerSenders : Finset ι
  addDisperseSenders : Finset ι
  addReconstructSenders : Finset ι
  addDisperseCounter : Stripe → Nat
  committedHash : Option Bytes
  committed : Bool
  outputs : List (Option Text)
  hashed : List Bytes
  triggered : Bool

namespace OptQrbc

variable {ι : Type}

def init (ids : List ι) : OptState ι where
  phase := .start
  stripes := List.replicate ids.length .none
  echoCounter := fun _ => 0
  readyCounter := fun _ => 0
  echoSenders := ∅
  readySenders := ∅
  readySent := false
  leaderHash := none
  reconstructedHash := none
  leaderMsg := none
  reconstructedMsg := none
  addReadySent := false
  terminateSenders := ∅
  addTriggerSenders := ∅
  addDisperseSenders := ∅
  addReconstructSenders := ∅
  addDisperseCounter := fun _ => 0
  committedHash := none
  committed := false
  outputs := []
  hashed := []
  triggered := false

/-- `for id in ids: send(id, o)`. -/
def broadcast (ids : List ι) (o : OptMsg) : List (ι × OptMsg) := ids.map (fun id => (id, o))

/-- An exception in the loop. -/
def stop (e : Exn) (s : OptState ι) : OptState ι :=
  { s with phase := match e with | .valueError _ => .returned | e => .raised e }

/-- `decode`, called with a list; what follows `stripes.values()` is not reached. -/
def decode (codec : Int → Except Exn Unit) (k n : Nat) (_stripes : List Stripe) : Except Exn Bytes := do
  codec (n - k)
  throw .attributeError

section Code

variable [DecidableEq ι]

/-- `relative_idxs[id]`: the last place of an id that occurs twice. -/
def relativeIdxs (ids : List ι) (id : ι) : Except Exn Nat :=
  if id ∈ ids then .ok (ids.length - 1 - ids.reverse.idxOf id) else .error .keyError

/-! ## The seven branches -/

/-- `PROPOSE`, while there is no `leader_hash`. -/
def onPropose (H : Hash) (predicate : Text → Except Exn Bool) (ids : List ι) (leader sender : ι) (m : Text)
    (s : OptState ι) : OptState ι × List (ι × OptMsg) :=
  let s := { s with leaderMsg := some m }
  if sender ≠ leader then (s, [])
  else
    match predicate m with
    | .error e   => (stop e s, [])
    | .ok false  => (s, [])
    | .ok true   =>
      let digest := H m.encode
      let s := { s with leaderHash := some digest, hashed := m.encode :: s.hashed }
      (s, broadcast ids (.echo digest) ++ if some digest = s.committedHash then broadcast ids .terminate else [])

/-- `echo_senders.add(sender); echo_counter[_digest] += 1`. -/
def addEcho (sender : ι) (digest : Bytes) (s : OptState ι) : OptState ι :=
  { s with
    echoSenders := insert sender s.echoSenders
    echoCounter := Function.update s.echoCounter digest (s.echoCounter digest + 1) }

/-- `ready_senders.add(sender); ready_counter[_digest] += 1`. -/
def addReady (sender : ι) (digest : Bytes) (s : OptState ι) : OptState ι :=
  { s with
    readySenders := insert sender s.readySenders
    readyCounter := Function.update s.readyCounter digest (s.readyCounter digest + 1) }

/-- Broadcast `READY`, once. -/
def sendReady (cond : Prop) [Decidable cond] (ids : List ι) (digest : Bytes) (s : OptState ι) :
    OptState ι × List (ι × OptMsg) :=
  if cond ∧ s.readySent = false then ({ s with readySent := true }, broadcast ids (.ready digest)) else (s, [])

def onEcho (ids : List ι) (f : Nat) (sender : ι) (digest : Bytes) (s : OptState ι) : OptState ι × List (ι × OptMsg) :=
  if sender ∈ s.echoSenders then (s, [])
  else
    let s := addEcho sender digest s
    sendReady (2 * f + 1 ≤ s.echoCounter digest) ids digest s

/-- `committed = True; output(m)`, and `TERMINATE`. -/
def deliver (ids : List ι) (m : Option Text) (s : OptState ι) : OptState ι × List (ι × OptMsg) :=
  ({ s with committed := true, outputs := m :: s.outputs }, broadcast ids .terminate)

/-- The code after `committed_hash = _digest`. -/
def commit (ids : List ι) (digest : Bytes) (s : OptState ι) : OptState ι × List (ι × OptMsg) :=
  let s := { s with committedHash := some digest }
  if some digest = s.leaderHash then deliver ids s.leaderMsg s
  else if some digest = s.reconstructedHash then deliver ids (s.reconstructedMsg.map .bytes) s
  else ({ s with triggered := true }, broadcast ids .addTrigger)

def onReady (ids : List ι) (f : Nat) (sender : ι) (digest : Bytes) (s : OptState ι) : OptState ι × List (ι × OptMsg) :=
  if sender ∈ s.readySenders then (s, [])
  else
    let s := addReady sender digest s
    let (s, out) := sendReady (f + 1 ≤ s.readyCounter digest) ids digest s
    if s.readyCounter digest = 2 * f + 1 then ((commit ids digest s).1, out ++ (commit ids digest s).2) else (s, out)

def onTerminate (ids : List ι) (sender : ι) (s : OptState ι) : OptState ι :=
  if sender ∈ s.terminateSenders then s
  else
    let s := { s with terminateSenders := insert sender s.terminateSenders }
    if s.terminateSenders.card = ids.length then { s with phase := .returned } else s

/-- `(ADD_DISPERSE, stripes[relative_idxs[sender]], stripes[relative_idxs[pid]])`. -/
def disperse (ids : List ι) (pid sender : ι) (stripes : List Stripe) : Except Exn OptMsg := do
  let i ← relativeIdxs ids sender
  let j ← relativeIdxs ids pid
  return .addDisperse (stripes.getD i .none) (stripes.getD j .none)

def onAddTrigger (ids : List ι) (pid sender : ι) (s : OptState ι) : OptState ι × List (ι × OptMsg) :=
  if sender ∈ s.addTriggerSenders then (s, [])
  else
    let s := { s with addTriggerSenders := insert sender s.addTriggerSenders }
    if s.committed then
      match disperse ids pid sender s.stripes with
      | .error e => (stop e s, [])
      | .ok msg  => (s, [(sender, msg)])
    else (s, [])

/-- `stripes[relative_idxs[sender]] = stripe`. -/
def storeStripe (ids : List ι) (sender : ι) (stripe : Stripe) (s : OptState ι) : Except Exn (OptState ι) :=
  (relativeIdxs ids sender).map (fun i => { s with stripes := s.stripes.set i stripe })

def onAddDisperse (ids : List ι) (f : Nat) (sender : ι) (myStripe senderStripe : Stripe) (s : OptState ι) :
    OptState ι × List (ι × OptMsg) :=
  if s.committed then (s, [])
  else if sender ∈ s.addDisperseSenders then (s, [])
  else
    let s := { s with
      addDisperseSenders := insert sender s.addDisperseSenders
      addReconstructSenders := insert sender s.addReconstructSenders }
    if myStripe.hashable = false then (stop .typeError s, [])
    else
      let s := { s with
        addDisperseCounter := Function.update s.addDisperseCounter myStripe (s.addDisperseCounter myStripe + 1) }
      match storeStripe ids sender senderStripe s with
      | .error e => (stop e s, [])
      | .ok s    =>
        if f + 1 ≤ s.addDisperseCounter myStripe ∧ s.addReadySent = false then
          ({ s with addReadySent := true }, broadcast ids (.addReconstruct myStripe))
        else (s, [])

/-- `reconstructed_msg = decode(..)` and what follows. -/
def reconstruct (H : Hash) (codec : Int → Except Exn Unit) (ids : List ι) (f : Nat) (s : OptState ι) :
    OptState ι × List (ι × OptMsg) :=
  match decode codec (f + 1) ids.length s.stripes with
  | .error e => (stop e s, [])
  | .ok m    =>
    let s := { s with reconstructedMsg := some m, reconstructedHash := some (H m), hashed := m :: s.hashed }
    if s.reconstructedHash = s.committedHash then deliver ids (some (.bytes m)) s else (s, [])

def onAddReconstruct (H : Hash) (codec : Int → Except Exn Unit) (ids : List ι) (f : Nat) (sender : ι) (stripe : Stripe)
    (s : OptState ι) : OptState ι × List (ι × OptMsg) :=
  if s.committed then (s, [])
  else if sender ∈ s.addReconstructSenders then (s, [])
  else
    let s := { s with addReconstructSenders := insert sender s.addReconstructSenders }
    match storeStripe ids sender stripe s with
    | .error e => (stop e s, [])
    | .ok s    => if 2 * f + 1 ≤ s.addReconstructSenders.card then reconstruct H codec ids f s else (s, [])

/-! ## The protocol -/

/-- One pass of the loop; a `PROPOSE` after the first valid one falls through. -/
def onMsg (H : Hash) (predicate : ι → Text → Except Exn Bool) (codec : Int → Except Exn Unit) (ids : List ι) (f : Nat)
    (leader pid : ι) (s : OptState ι) (sender : ι) : OptMsg → OptState ι × List (ι × OptMsg)
  | .propose m                         =>
    if s.leaderHash = none then onPropose H (predicate pid) ids leader sender m s else (s, [])
  | .echo digest                       => onEcho ids f sender digest s
  | .ready digest                      => onReady ids f sender digest s
  | .terminate                         => (onTerminate ids sender s, [])
  | .addTrigger                        => onAddTrigger ids pid sender s
  | .addDisperse myStripe senderStripe => onAddDisperse ids f sender myStripe senderStripe s
  | .addReconstruct stripe             => onAddReconstruct H codec ids f sender stripe s

/-- The code before the loop; a leader that is not one of `ids` returns. -/
def start (ids : List ι) (leader pid : ι) (input : Text) (s : OptState ι) : OptState ι × List (ι × OptMsg) :=
  ({ s with phase := if pid ∈ ids then .loop else .returned },
    if pid = leader then broadcast ids (.propose input) else [])

/-- `optqrbc` at the parties of `ids` and the leader. -/
def optqrbc (H : Hash) (predicate : ι → Text → Except Exn Bool) (codec : Int → Except Exn Unit) (ids : List ι) (f : Nat)
    (leader : ι) (input : Text) : Net.Proto ι Unit (OptState ι) OptMsg where
  init := fun _ => init ids
  wake := fun pid _ s =>
    if s.phase = .start ∧ (pid ∈ ids ∨ pid = leader) then some (start ids leader pid input s) else none
  recv := fun pid s sender msg =>
    if s.phase = .loop then some (onMsg H predicate codec ids f leader pid s sender msg) else none

end Code

/-! ## What a step may do -/

/-- What decides the output. -/
def verdict (s : OptState ι) :=
  (s.leaderHash, s.leaderMsg, s.reconstructedHash, s.committedHash, s.committed, s.outputs, s.hashed, s.triggered)

/-- What the thresholds count. -/
def tallies (s : OptState ι) := (s.echoSenders, s.echoCounter, s.readySenders, s.readyCounter)

/-- A message of the fallback, but for the one that asks for it. -/
def IsReply : OptMsg → Prop
  | .addDisperse _ _   => True
  | .addReconstruct _  => True
  | _                  => False

instance decidableIsReply : ∀ msg, Decidable (IsReply msg)
  | .addDisperse _ _ | .addReconstruct _                           => inferInstanceAs (Decidable True)
  | .propose _ | .echo _ | .ready _ | .terminate | .addTrigger     => inferInstanceAs (Decidable False)

/-- A step that neither counts nor decides. -/
def Quiet (s : OptState ι) (r : OptState ι × List (ι × OptMsg)) : Prop :=
  verdict r.1 = verdict s ∧ tallies r.1 = tallies s ∧ ∀ o ∈ r.2, IsReply o.2

theorem mem_broadcast {ids : List ι} {msg : OptMsg} {o : ι × OptMsg} (h : o ∈ broadcast ids msg) : o.2 = msg := by
  obtain ⟨i, -, rfl⟩ := List.mem_map.1 h
  rfl

theorem quiet_silent {s s₁ : OptState ι} (hv : verdict s₁ = verdict s) (ht : tallies s₁ = tallies s) :
    Quiet s (s₁, []) :=
  ⟨hv, ht, nofun⟩

theorem decode_eq_error (codec : Int → Except Exn Unit) (k n : Nat) (stripes : List Stripe) :
    ∃ e, decode codec k n stripes = .error e := by
  unfold decode
  cases codec (n - k) with
  | error e => exact ⟨e, rfl⟩
  | ok u    => exact ⟨.attributeError, rfl⟩

theorem sendReady_same (cond : Prop) [Decidable cond] (ids : List ι) (digest : Bytes) (s : OptState ι) :
    (∃ sent, (sendReady cond ids digest s).1 = { s with readySent := sent }) ∧
      ∀ o ∈ (sendReady cond ids digest s).2, o.2 = .ready digest ∧ cond := by
  unfold sendReady
  split
  · rename_i hc
    exact ⟨⟨true, rfl⟩, fun o ho => ⟨mem_broadcast ho, hc.1⟩⟩
  · exact ⟨⟨s.readySent, rfl⟩, nofun⟩

section Steps

variable [DecidableEq ι] {H : Hash} {predicate : ι → Text → Except Exn Bool} {codec : Int → Except Exn Unit}
  {ids : List ι} {f : Nat} {leader : ι} {input : Text} {pid sender : ι} {s : OptState ι}

theorem onTerminate_quiet : Quiet s (onTerminate ids sender s, []) := by
  unfold onTerminate
  split
  · exact quiet_silent rfl rfl
  · simp only
    split
    · exact quiet_silent rfl rfl
    · exact quiet_silent rfl rfl

theorem onAddTrigger_quiet : Quiet s (onAddTrigger ids pid sender s) := by
  unfold onAddTrigger
  split
  · exact quiet_silent rfl rfl
  · simp only
    split
    · split
      · exact quiet_silent rfl rfl
      · rename_i msg hmsg
        refine ⟨rfl, rfl, fun o ho => ?_⟩
        obtain ⟨i, -, hj⟩ := bind_eq_ok.1 hmsg
        obtain ⟨j, -, hmsg⟩ := bind_eq_ok.1 hj
        cases hmsg
        rw [List.mem_singleton.1 ho]
        trivial
    · exact quiet_silent rfl rfl

theorem storeStripe_same {stripe : Stripe} {s' : OptState ι} (h : storeStripe ids sender stripe s = .ok s') :
    ∃ stripes, s' = { s with stripes := stripes } := by
  unfold storeStripe at h
  cases hi : relativeIdxs ids sender with
  | error e =>
    rw [hi] at h
    cases h
  | ok i    =>
    rw [hi] at h
    exact ⟨_, (Except.ok.inj h).symm⟩

theorem onAddDisperse_quiet {myStripe senderStripe : Stripe} :
    Quiet s (onAddDisperse ids f sender myStripe senderStripe s) := by
  unfold onAddDisperse
  split
  · exact quiet_silent rfl rfl
  · split
    · exact quiet_silent rfl rfl
    · simp only
      split
      · exact quiet_silent rfl rfl
      · split
        · exact quiet_silent rfl rfl
        · rename_i s₁ hs
          obtain ⟨stripes, rfl⟩ := storeStripe_same hs
          split
          · refine ⟨rfl, rfl, fun o ho => ?_⟩
            rw [mem_broadcast ho]
            trivial
          · exact quiet_silent rfl rfl

theorem onAddReconstruct_quiet {stripe : Stripe} : Quiet s (onAddReconstruct H codec ids f sender stripe s) := by
  unfold onAddReconstruct
  split
  · exact quiet_silent rfl rfl
  · split
    · exact quiet_silent rfl rfl
    · simp only
      split
      · exact quiet_silent rfl rfl
      · rename_i s₁ hs
        obtain ⟨stripes, rfl⟩ := storeStripe_same hs
        split
        · obtain ⟨e, he⟩ := decode_eq_error codec (f + 1) ids.length stripes
          rw [reconstruct, he]
          exact quiet_silent rfl rfl
        · exact quiet_silent rfl rfl

/-- The state and the messages once a new `READY` is counted, before the threshold for the output. -/
def afterReady (ids : List ι) (f : Nat) (sender : ι) (digest : Bytes) (s : OptState ι) :
    OptState ι × List (ι × OptMsg) :=
  sendReady (f + 1 ≤ (addReady sender digest s).readyCounter digest) ids digest (addReady sender digest s)

theorem onReady_eq {digest : Bytes} (hnew : sender ∉ s.readySenders) :
    onReady ids f sender digest s =
      if s.readyCounter digest = 2 * f then
        ((commit ids digest (afterReady ids f sender digest s).1).1,
          (afterReady ids f sender digest s).2 ++ (commit ids digest (afterReady ids f sender digest s).1).2)
      else afterReady ids f sender digest s := by
  obtain ⟨sent, hsent⟩ := (sendReady_same (f + 1 ≤ (addReady sender digest s).readyCounter digest) ids digest
    (addReady sender digest s)).1
  have hcount : (afterReady ids f sender digest s).1.readyCounter digest = s.readyCounter digest + 1 := by
    rw [afterReady, hsent]
    exact Function.update_self _ _ _
  have hiff : s.readyCounter digest + 1 = 2 * f + 1 ↔ s.readyCounter digest = 2 * f := Nat.add_right_cancel_iff
  rw [onReady, if_neg hnew]
  show (if (afterReady ids f sender digest s).1.readyCounter digest = 2 * f + 1 then _ else _) = _
  rw [hcount, if_congr hiff rfl rfl]
  rfl

/-- **A message is one of four**: a `PROPOSE` with no proposal yet, a new `ECHO`, a new `READY`, or quiet. -/
theorem onMsg_cases (H : Hash) (predicate : ι → Text → Except Exn Bool) (codec : Int → Except Exn Unit) (ids : List ι)
    (f : Nat) (leader pid : ι) (s : OptState ι) (sender : ι) (msg : OptMsg) :
    (∃ m, msg = .propose m ∧ s.leaderHash = none ∧
        onMsg H predicate codec ids f leader pid s sender msg = onPropose H (predicate pid) ids leader sender m s) ∨
      (∃ digest, msg = .echo digest ∧ sender ∉ s.echoSenders ∧ onMsg H predicate codec ids f leader pid s sender msg =
        sendReady (2 * f + 1 ≤ (addEcho sender digest s).echoCounter digest) ids digest (addEcho sender digest s)) ∨
      (∃ digest, msg = .ready digest ∧ sender ∉ s.readySenders ∧
        onMsg H predicate codec ids f leader pid s sender msg = onReady ids f sender digest s) ∨
      Quiet s (onMsg H predicate codec ids f leader pid s sender msg) := by
  cases msg with
  | propose m =>
    by_cases hnone : s.leaderHash = none
    · exact Or.inl ⟨m, rfl, hnone, if_pos hnone⟩
    · right; right; right
      show Quiet s (if s.leaderHash = none then _ else _)
      rw [if_neg hnone]
      exact quiet_silent rfl rfl
  | echo digest =>
    by_cases hold : sender ∈ s.echoSenders
    · right; right; right
      show Quiet s (onEcho ids f sender digest s)
      rw [onEcho, if_pos hold]
      exact quiet_silent rfl rfl
    · exact Or.inr (Or.inl ⟨digest, rfl, hold, if_neg hold⟩)
  | ready digest =>
    by_cases hold : sender ∈ s.readySenders
    · right; right; right
      show Quiet s (onReady ids f sender digest s)
      rw [onReady, if_pos hold]
      exact quiet_silent rfl rfl
    · exact Or.inr (Or.inr (Or.inl ⟨digest, rfl, hold, rfl⟩))
  | terminate                        => exact Or.inr (Or.inr (Or.inr onTerminate_quiet))
  | addTrigger                       => exact Or.inr (Or.inr (Or.inr onAddTrigger_quiet))
  | addDisperse my other             => exact Or.inr (Or.inr (Or.inr onAddDisperse_quiet))
  | addReconstruct stripe            => exact Or.inr (Or.inr (Or.inr onAddReconstruct_quiet))

theorem optqrbc_wake {t : Unit} {s' : OptState ι} {out : List (ι × OptMsg)}
    (h : (optqrbc H predicate codec ids f leader input).wake pid t s = some (s', out)) :
    s.phase = .start ∧ (s', out) = start ids leader pid input s := by
  simp only [optqrbc, Option.ite_none_right_eq_some, Option.some.injEq] at h
  exact ⟨h.1.1, h.2.symm⟩

theorem optqrbc_recv {s' : OptState ι} {msg : OptMsg} {out : List (ι × OptMsg)}
    (h : (optqrbc H predicate codec ids f leader input).recv pid s sender msg = some (s', out)) :
    s.phase = .loop ∧ (s', out) = onMsg H predicate codec ids f leader pid s sender msg := by
  simp only [optqrbc, Option.ite_none_right_eq_some, Option.some.injEq] at h
  exact ⟨h.1, h.2.symm⟩

end Steps

end OptQrbc
end Dpid
