import Dpid.Demux
import Dpid.PyVal
import Mathlib
/-!
# Dispatch — `broadcast_receiver_loop` (`dpid/core/info_dispersal_2.py`, `dpss/core/info_dispersal.py`)

All messages of a round come through one queue, as `(sender, (tag, j, msg))` if the sender is honest; another may send
any object, and one that is no iterable of three items raises where the loop unpacks it.  The loop puts each message into
the queue of its tag.  `DPSS` has one queue for each instance number `j`; `ACSS` has a list of queues, too, but the loop
does not index it.  The list has no `put_nowait`, and the handler of the `AttributeError` raises in its turn: it passes the
exception to `print_exc` as `limit`.

A tag that is no member of `BroadcastTag` raises, and so ends the loop (`Dispatched`).  The tags that the sub-protocols
of `InfoDispersal2` send under are members; `rbc_send` of `InfoDPSS` sends under `ACS_RBC`, which is none there.
-/
namespace Dpid
namespace Dispatch

/-- What a peer has sent, as `(tag, j, msg) = ..` sees it: an iterable of three items, or of another number, or none. -/
inductive Payload (M : Type) where
  | three (tag j : PyVal) (msg : M)
  | items (n : Nat) (h : n ≠ 3)
  | notIterable
deriving DecidableEq

/-- What `recv_func` returns. -/
structure Arrival (M : Type) where
  sender : Nat
  payload : Payload M
deriving DecidableEq

/-- The error of an unpacking into three of `n` items. -/
def countError (n : Nat) : Exn :=
  .valueError (if n < 3 then s!"not enough values to unpack (expected 3, got {n})"
    else "too many values to unpack (expected 3)")

/-- `(tag, j, msg) = ..`. -/
def Payload.unpack {M : Type} : Payload M → Except Exn (PyVal × PyVal × M)
  | .three tag j msg => .ok (tag, j, msg)
  | .items n _       => .error (countError n)
  | .notIterable     => .error .typeError

def strVal (name : String) : PyVal := .atom (.str name)

/-- A field of `BroadcastReceiverQueues`. -/
inductive RecvEntry (Q : Type) where
  | queue (q : Q)
  | queues (qs : List Q)

/-- `recv_queue.put_nowait(..)`: the queue it puts to. -/
def RecvEntry.put {Q : Type} : RecvEntry Q → Except Exn Q
  | .queue q  => .ok q
  | .queues _ => .error .typeError

/-- `recv_queue[j]`. -/
def RecvEntry.index {Q : Type} (j : PyVal) : RecvEntry Q → Except Exn (RecvEntry Q)
  | .queue _   => .error .typeError
  | .queues qs => do
    let i ← j.listIndex
    let k ← pyIndex qs.length i
    match qs[k]? with
    | some q => return .queue q
    | none   => throw .indexError

/-- The test of the tag, and `recv_queues._asdict()[tag]`: the tag's name and the field. -/
def lookup {Q : Type} (members : List String) (recvQueues : List (String × RecvEntry Q)) (tag : PyVal) :
    Except Exn (String × RecvEntry Q) := do
  let key ← tag.dictKey
  match members.find? (fun name => decide (key = strVal name)) with
  | none      => throw .unknownTagError
  | some name =>
    match recvQueues.lookup name with
    | none       => throw .keyError
    | some entry => return (name, entry)

/-- One pass of the loop: the queue and what is put into it. -/
def receive {Q M : Type} (route : PyVal → PyVal → Except Exn Q) (a : Arrival M) : Except Exn (Q × (Nat × M)) := do
  let (tag, j, msg) ← a.payload.unpack
  let recvQueue ← route tag j
  return (recvQueue, (a.sender, msg))

/-- The loop on the messages that arrive. -/
def broadcastReceiverLoop {Q M : Type} [DecidableEq Q] (route : PyVal → PyVal → Except Exn Q) (msgs : List (Arrival M)) :
    Demux.State Q (Nat × M) Exn :=
  Demux.run (receive route) msgs Demux.start

/-! ## `InfoDispersal2._run_round` -/

inductive DispersalQueue where
  | rbcRecv
  | vacsRecv
  | tpkeRecv
  | verifyRecv
  | addRecvs
  | refreshRecv
  | coinRecv
deriving DecidableEq

/-- `BroadcastTag` of `InfoDispersal2`. -/
def dispersalTags : List String := ["ACS_RBC", "ACS_VACS", "TPKE", "VERIFY", "ADD", "REFRESH", "COIN"]

def dispersalRecvQueues : List (String × RecvEntry DispersalQueue) :=
  [("ACS_RBC", .queue .rbcRecv), ("ACS_VACS", .queue .vacsRecv), ("TPKE", .queue .tpkeRecv),
    ("VERIFY", .queue .verifyRecv), ("ADD", .queue .addRecvs), ("REFRESH", .queue .refreshRecv),
    ("COIN", .queue .coinRecv)]

def dispersalRoute (tag _j : PyVal) : Except Exn DispersalQueue := do
  let (_, recvQueue) ← lookup dispersalTags dispersalRecvQueues tag
  recvQueue.put

/-- The threads that send and receive: `rbc_thread`, `check_thread`, `add_thread` and `refresh_thread`. -/
inductive DispersalThread where
  | rbc
  | check
  | add
  | refresh

/-- `rbc_send`, `verify_send`, `add_send` and `refresh_send` of party `pid`, as it arrives. -/
def dispersalSend {M : Type} (thread : DispersalThread) (pid : Nat) (o : M) : Arrival M :=
  match thread with
  | .rbc     => ⟨pid, .three (strVal "ACS_RBC") (.ofNat pid) o⟩
  | .check   => ⟨pid, .three (strVal "VERIFY") (.ofNat pid) o⟩
  | .add     => ⟨pid, .three (strVal "ADD") (.ofNat pid) o⟩
  | .refresh => ⟨pid, .three (strVal "REFRESH") (.ofNat pid) o⟩

/-- The queue whose `get` the thread is given. -/
def dispersalReads : DispersalThread → DispersalQueue
  | .rbc     => .rbcRecv
  | .check   => .verifyRecv
  | .add     => .addRecvs
  | .refresh => .refreshRecv

/-! ## `InfoDPSS._run_round` -/

inductive DpssQueue where
  | dpssRecvs (k : Nat)
  | acssRecvs (k : Nat)
  | abaRecv
  | rbcRecv
  | coinRecv
deriving DecidableEq

/-- `BroadcastTag` of `InfoDPSS`. -/
def dpssTags : List String := ["DPSS", "ACSS", "ABA", "RBC", "COIN"]

def dpssRecvQueues (N : Nat) : List (String × RecvEntry DpssQueue) :=
  [("DPSS", .queues ((List.range N).map .dpssRecvs)), ("ACSS", .queues ((List.range N).map .acssRecvs)),
    ("ABA", .queue .abaRecv), ("RBC", .queue .rbcRecv), ("COIN", .queue .coinRecv)]

def dpssRoute (N : Nat) (tag j : PyVal) : Except Exn DpssQueue := do
  let (name, recvQueue) ← lookup dpssTags (dpssRecvQueues N) tag
  let recvQueue ← if name = "DPSS" then recvQueue.index j else pure recvQueue
  recvQueue.put

/-- `rbc_send` of party `pid`, as it arrives; `rbc_thread` reads `rbc_recv`. -/
def dpssRbcSend {M : Type} (pid : Nat) (o : M) : Arrival M :=
  ⟨pid, .three (strVal "ACS_RBC") (.ofNat pid) o⟩

/-! ## What the queues are for -/

section Statements

variable {Q M : Type}

/-- Three items, under the tag `name`. -/
def Arrival.HasTag (name : String) (a : Arrival M) : Prop :=
  match a.payload with
  | .three tag _ _            => tag = strVal name
  | .items _ _ | .notIterable => False

instance decidableHasTag (name : String) (a : Arrival M) : Decidable (a.HasTag name) :=
  match a with
  | ⟨_, .three tag _ _⟩ => inferInstanceAs (Decidable (tag = strVal name))
  | ⟨_, .items _ _⟩     => isFalse id
  | ⟨_, .notIterable⟩   => isFalse id

/-- Three items, and the tag is a member of `BroadcastTag`. -/
def Known (members : List String) (a : Arrival M) : Prop := ∃ name ∈ members, a.HasTag name

instance decidableKnown (members : List String) (a : Arrival M) : Decidable (Known members a) :=
  inferInstanceAs (Decidable (∃ name ∈ members, a.HasTag name))

/-- What the loop raises on any other message. -/
def Payload.refusal : Payload M → Exn
  | .three tag _ _ => if tag.hashable then .unknownTagError else .typeError
  | .items n _     => countError n
  | .notIterable   => .typeError

/-- What a queue is given of a message: `(sender, msg)`. -/
def Arrival.item (a : Arrival M) : Option (Nat × M) :=
  match a.payload with
  | .three _ _ msg            => some (a.sender, msg)
  | .items _ _ | .notIterable => none

/-- The queue holds what arrives under its tag. -/
def DispersalQueue.tag : DispersalQueue → String
  | .rbcRecv     => "ACS_RBC"
  | .vacsRecv    => "ACS_VACS"
  | .tpkeRecv    => "TPKE"
  | .verifyRecv  => "VERIFY"
  | .addRecvs    => "ADD"
  | .refreshRecv => "REFRESH"
  | .coinRecv    => "COIN"

def DispersalQueue.Takes (q : DispersalQueue) (a : Arrival M) : Prop := a.HasTag q.tag

instance decidableDispersalTakes (q : DispersalQueue) (a : Arrival M) : Decidable (q.Takes a) :=
  inferInstanceAs (Decidable (a.HasTag _))

/-- The instance that `j` names, counted from the end when negative. -/
def instanceNumber (N : Nat) (j : PyVal) : Except Exn Nat := do
  let i ← j.listIndex
  pyIndex N i

/-- The message is for instance `k`. -/
def Arrival.ForInstance (N k : Nat) (a : Arrival M) : Prop :=
  match a.payload with
  | .three _ j _              => instanceNumber N j = .ok k
  | .items _ _ | .notIterable => False

instance decidableForInstance (N k : Nat) (a : Arrival M) : Decidable (a.ForInstance N k) :=
  match a with
  | ⟨_, .three _ j _⟩ => inferInstanceAs (Decidable (instanceNumber N j = .ok k))
  | ⟨_, .items _ _⟩   => isFalse id
  | ⟨_, .notIterable⟩ => isFalse id

/-- The queues of `DPSS` hold what arrives for their instance; those of `ACSS` hold nothing. -/
def DpssQueue.Takes (N : Nat) (q : DpssQueue) (a : Arrival M) : Prop :=
  match q with
  | .dpssRecvs k => a.HasTag "DPSS" ∧ a.ForInstance N k
  | .acssRecvs _ => False
  | .abaRecv     => a.HasTag "ABA"
  | .rbcRecv     => a.HasTag "RBC"
  | .coinRecv    => a.HasTag "COIN"

instance decidableDpssTakes (N : Nat) (q : DpssQueue) (a : Arrival M) : Decidable (q.Takes N a) :=
  match q with
  | .dpssRecvs _ => inferInstanceAs (Decidable (_ ∧ _))
  | .acssRecvs _ => inferInstanceAs (Decidable False)
  | .abaRecv | .rbcRecv | .coinRecv => inferInstanceAs (Decidable (a.HasTag _))

/-- A member's message that has a queue: none of `ACSS`, and of `DPSS` for an instance there is. -/
def HasQueue (N : Nat) (a : Arrival M) : Prop :=
  ¬ a.HasTag "ACSS" ∧ (a.HasTag "DPSS" → ∃ k < N, a.ForInstance N k)

/-- What the loop has done on `msgs`: it has put each message before the first that is no triple under a member's tag into
its queue, once and in the order of arrival, and it is still running if there is no such message. -/
structure Dispatched [DecidableEq Q] (members : List String) (takes : Q → Arrival M → Prop)
    [∀ q a, Decidable (takes q a)] (msgs : List (Arrival M)) (s : Demux.State Q (Nat × M) Exn) : Prop where
  running : s.error = none ↔ ∀ a ∈ msgs, Known members a
  raised : ∀ e, s.error = some e → ∃ pre a post, msgs = pre ++ a :: post ∧ (∀ x ∈ pre, Known members x) ∧
    ¬ Known members a ∧ e = a.payload.refusal
  once : ∀ a ∈ msgs, Known members a → ∃! q, takes q a
  queues : ∀ q, s.queues q = ((msgs.takeWhile (fun a => decide (Known members a))).filter
    (fun a => decide (takes q a))).filterMap Arrival.item

end Statements

/-! ## Tags -/

section Tags

variable {Q M : Type} {members : List String} {recvQueues : List (String × RecvEntry Q)}

theorem strVal_inj {s t : String} : strVal s = strVal t ↔ s = t := by
  rw [strVal, strVal, PyVal.atom.injEq, PyAtom.str.injEq]

theorem key_eq_strVal {v : PyVal} {name : String} : v.key = strVal name ↔ v = strVal name := by
  unfold strVal
  obtain ⟨a⟩ | ⟨l⟩ := v
  · cases a with
    | float x =>
      simp only [PyVal.key, PyAtom.key]
      split <;> simp
    | none | bool | int | str | object => simp [PyVal.key, PyAtom.key]
  · simp [PyVal.key]

theorem lookup_known {name : String} (hmem : name ∈ members) {entry : RecvEntry Q}
    (hentry : recvQueues.lookup name = some entry) : lookup members recvQueues (strVal name) = .ok (name, entry) := by
  have hfind : members.find? (fun n => decide (strVal name = strVal n)) = some name := by
    cases h : members.find? (fun n => decide (strVal name = strVal n)) with
    | none   => exact absurd (List.find?_eq_none.1 h name hmem) (by simp)
    | some n =>
      have heq := List.find?_some h
      simp only [strVal, PyVal.atom.injEq, PyAtom.str.injEq, decide_eq_true_eq] at heq
      rw [heq]
  unfold lookup
  simp [show (strVal name).dictKey = .ok (strVal name) from rfl, bind, Except.bind, hfind, hentry, pure, Except.pure]

theorem lookup_unknown {tag : PyVal} (h : ∀ name ∈ members, tag ≠ strVal name) :
    lookup members recvQueues tag = .error (if tag.hashable then .unknownTagError else .typeError) := by
  have hfind : members.find? (fun n => decide (tag.key = strVal n)) = none := by
    apply List.find?_eq_none.2
    intro n hn hdec
    exact h n hn (key_eq_strVal.1 (of_decide_eq_true hdec))
  unfold lookup
  by_cases hhash : tag.hashable
  · simp [PyVal.dictKey, hhash, bind, Except.bind, hfind, throw, throwThe, MonadExceptOf.throw]
  · simp [PyVal.dictKey, hhash, bind, Except.bind]

theorem takeWhile_congr {α : Type} {p q : α → Bool} : ∀ {l : List α}, (∀ a ∈ l, p a = q a) →
    l.takeWhile p = l.takeWhile q
  | [], _     => rfl
  | a :: l, h => by
    rw [List.takeWhile_cons, List.takeWhile_cons, h a List.mem_cons_self,
      takeWhile_congr (fun x hx => h x (List.mem_cons_of_mem a hx))]

theorem not_known_items {sender n : Nat} (h : n ≠ 3) : ¬ Known members (⟨sender, .items n h⟩ : Arrival M) := by
  rintro ⟨name, -, htag⟩
  exact htag

theorem not_known_notIterable {sender : Nat} : ¬ Known members (⟨sender, .notIterable⟩ : Arrival M) := by
  rintro ⟨name, -, htag⟩
  exact htag

end Tags

section Receive

variable {Q M : Type} {members : List String} {takes : Q → Arrival M → Prop} {route : PyVal → PyVal → Except Exn Q}
  {msgs : List (Arrival M)}

/-- What a table of queues has to do: a message of a known tag has the one queue that `route` gives, and no other tag
has any. -/
structure Routes (members : List String) (takes : Q → Arrival M → Prop) (route : PyVal → PyVal → Except Exn Q)
    (msgs : List (Arrival M)) : Prop where
  known : ∀ sender tag j msg, ⟨sender, .three tag j msg⟩ ∈ msgs → (∃ name ∈ members, tag = strVal name) →
    ∃ q, route tag j = .ok q ∧ ∀ q', takes q' ⟨sender, .three tag j msg⟩ ↔ q' = q
  unknown : ∀ tag j, (∀ name ∈ members, tag ≠ strVal name) →
    route tag j = .error (if tag.hashable then .unknownTagError else .typeError)

/-- **A known message is received**: one queue takes it. -/
theorem Routes.receive_known (h : Routes members takes route msgs) {a : Arrival M} (ha : a ∈ msgs)
    (hknown : Known members a) :
    ∃ q b, receive route a = .ok (q, b) ∧ a.item = some b ∧ ∀ q', takes q' a ↔ q' = q := by
  obtain ⟨sender, payload⟩ := a
  cases payload with
  | three tag j msg =>
    obtain ⟨q, hq, huniq⟩ := h.known sender tag j msg ha hknown
    refine ⟨q, (sender, msg), ?_, rfl, huniq⟩
    show (route tag j).bind (fun q => .ok (q, (sender, msg))) = _
    rw [hq]
    rfl
  | items n hn      => exact absurd hknown (not_known_items hn)
  | notIterable     => exact absurd hknown not_known_notIterable

/-- **Any other message is refused.** -/
theorem Routes.receive_unknown (h : Routes members takes route msgs) {a : Arrival M} (hunknown : ¬ Known members a) :
    receive route a = .error a.payload.refusal := by
  obtain ⟨sender, payload⟩ := a
  cases payload with
  | three tag j msg =>
    have hnone : ∀ name ∈ members, tag ≠ strVal name := fun name hname htag => hunknown ⟨name, hname, htag⟩
    show (route tag j).bind (fun q => .ok (q, (sender, msg))) = _
    rw [h.unknown tag j hnone]
    rfl
  | items n hn      => rfl
  | notIterable     => rfl

theorem Routes.routed_iff (h : Routes members takes route msgs) {a : Arrival M} (ha : a ∈ msgs) :
    Demux.Routed (receive route) a ↔ Known members a := by
  constructor
  · intro hrouted
    by_contra hnot
    exact Demux.not_routed (h.receive_unknown hnot) hrouted
  · intro hknown
    obtain ⟨q, b, hq, -⟩ := h.receive_known ha hknown
    exact Demux.routed_iff.2 ⟨q, b, hq⟩

variable [DecidableEq Q]

/-- **The loop ends at the first message that it refuses**, with the refusal. -/
theorem Routes.stops (h : Routes members takes route msgs) (hnot : ∃ a ∈ msgs, ¬ Known members a) :
    ∃ pre a post, msgs = pre ++ a :: post ∧ (∀ x ∈ pre, Known members x) ∧ ¬ Known members a ∧
      (broadcastReceiverLoop route msgs).error = some a.payload.refusal := by
  obtain ⟨a, ha, hnota⟩ := hnot
  obtain ⟨pre, x, post, e, hmsgs, hpre, he, hrun⟩ :=
    Demux.run_error_of_not_routed msgs Demux.start ⟨a, ha, fun hr => hnota ((h.routed_iff ha).1 hr)⟩
  have hx : x ∈ msgs := hmsgs ▸ List.mem_append_right pre List.mem_cons_self
  have hnotx : ¬ Known members x := fun hk => Demux.not_routed he ((h.routed_iff hx).2 hk)
  refine ⟨pre, x, post, hmsgs, fun y hy => ?_, hnotx, ?_⟩
  · exact (h.routed_iff (hmsgs ▸ List.mem_append_left _ hy)).1 (hpre y hy)
  · rw [h.receive_unknown hnotx] at he
    cases he
    exact hrun

/-- **The loop dispatches** what has a queue. -/
theorem Routes.dispatched [∀ q a, Decidable (takes q a)] (h : Routes members takes route msgs) :
    Dispatched members takes msgs (broadcastReceiverLoop route msgs) := by
  have hrunning : (∀ a ∈ msgs, Known members a) → (broadcastReceiverLoop route msgs).error = none := fun hall =>
    Demux.run_error_of_routed msgs Demux.start (fun a ha => (h.routed_iff ha).2 (hall a ha))
  have htakes : ∀ a ∈ msgs, ∀ q' b, receive route a = .ok (q', b) → a.item = some b ∧ ∀ q, takes q a ↔ q = q' := by
    intro a ha q' b hq'
    obtain ⟨q, b', hq, hitem, huniq⟩ := h.receive_known ha ((h.routed_iff ha).1 (Demux.routed_iff.2 ⟨q', b, hq'⟩))
    rw [hq] at hq'
    cases hq'
    exact ⟨hitem, huniq⟩
  refine ⟨⟨fun hnone => ?_, hrunning⟩, fun e he => ?_, fun a ha hknown => ?_, fun q => ?_⟩
  · by_contra hnot
    push Not at hnot
    obtain ⟨pre, a, post, -, -, -, herror⟩ := h.stops hnot
    rw [herror] at hnone
    cases hnone
  · have hnot : ∃ a ∈ msgs, ¬ Known members a := by
      by_contra hall
      push Not at hall
      rw [hrunning hall] at he
      cases he
    obtain ⟨pre, a, post, hmsgs, hpre, hnota, herror⟩ := h.stops hnot
    rw [herror] at he
    exact ⟨pre, a, post, hmsgs, hpre, hnota, (Option.some.inj he).symm⟩
  · obtain ⟨q, b, -, -, huniq⟩ := h.receive_known ha hknown
    exact ⟨q, (huniq q).2 rfl, fun q' hq' => (huniq q').1 hq'⟩
  · have hqueues := Demux.run_queues Arrival.item msgs Demux.start htakes q
    rw [broadcastReceiverLoop, hqueues, takeWhile_congr (fun a ha => decide_eq_decide.2 (h.routed_iff ha))]
    rfl

end Receive

/-! ## The queues of `InfoDispersal2` -/

theorem DispersalQueue.tag_injective : Function.Injective DispersalQueue.tag := by
  intro q q' h
  cases q <;> cases q' <;> first | rfl | exact absurd h (by decide)

theorem DispersalQueue.tag_mem (q : DispersalQueue) : q.tag ∈ dispersalTags := by
  cases q <;> decide

theorem exists_tag {name : String} (h : name ∈ dispersalTags) : ∃ q : DispersalQueue, q.tag = name := by
  simp only [dispersalTags, List.mem_cons, List.not_mem_nil, or_false] at h
  rcases h with rfl | rfl | rfl | rfl | rfl | rfl | rfl
  exacts [⟨.rbcRecv, rfl⟩, ⟨.vacsRecv, rfl⟩, ⟨.tpkeRecv, rfl⟩, ⟨.verifyRecv, rfl⟩, ⟨.addRecvs, rfl⟩, ⟨.refreshRecv, rfl⟩,
    ⟨.coinRecv, rfl⟩]

theorem dispersalRoute_tag (q : DispersalQueue) (j : PyVal) : dispersalRoute (strVal q.tag) j = .ok q := by
  have hentry : dispersalRecvQueues.lookup q.tag = some (.queue q) := by cases q <;> rfl
  rw [dispersalRoute, lookup_known q.tag_mem hentry]
  rfl

theorem dispersal_dispatched {M : Type} (msgs : List (Arrival M)) :
    Dispatched dispersalTags DispersalQueue.Takes msgs (broadcastReceiverLoop dispersalRoute msgs) := by
  apply Routes.dispatched
  constructor
  · rintro sender tag j msg - ⟨name, hname, rfl⟩
    obtain ⟨q, rfl⟩ := exists_tag hname
    refine ⟨q, dispersalRoute_tag q j, fun q' => ?_⟩
    show strVal q.tag = strVal q'.tag ↔ q' = q
    rw [strVal_inj, eq_comm]
    exact DispersalQueue.tag_injective.eq_iff
  · intro tag j hunknown
    rw [dispersalRoute, lookup_unknown hunknown]
    rfl

/-! ## The queues of `InfoDPSS` -/

theorem index_queues {N : Nat} {Q : Type} (mk : Nat → Q) {j : PyVal} {k : Nat} (h : instanceNumber N j = .ok k)
    (hk : k < N) : RecvEntry.index j (.queues ((List.range N).map mk)) = .ok (.queue (mk k)) := by
  unfold instanceNumber at h
  cases hi : j.listIndex with
  | error e =>
    rw [hi] at h
    cases h
  | ok i    =>
    rw [hi] at h
    have hpy : pyIndex N i = .ok k := h
    have hget : ((List.range N).map mk)[k]? = some (mk k) := by simp [hk]
    simp only [RecvEntry.index, hi, bind, Except.bind, List.length_map, List.length_range, hpy, hget]
    rfl

theorem dpssRoute_dpss {N k : Nat} {j : PyVal} (hinst : instanceNumber N j = .ok k) (hk : k < N) :
    dpssRoute N (strVal "DPSS") j = .ok (.dpssRecvs k) := by
  rw [dpssRoute, lookup_known (by decide) rfl]
  show (RecvEntry.index j (.queues ((List.range N).map DpssQueue.dpssRecvs))).bind RecvEntry.put = _
  rw [index_queues _ hinst hk]
  rfl

theorem dpssRoute_hasQueue {M : Type} {N sender : Nat} {tag j : PyVal} {msg : M}
    (hknown : ∃ name ∈ dpssTags, tag = strVal name) (h : HasQueue N ⟨sender, .three tag j msg⟩) :
    ∃ q, dpssRoute N tag j = .ok q ∧ ∀ q' : DpssQueue, q'.Takes N ⟨sender, .three tag j msg⟩ ↔ q' = q := by
  obtain ⟨name, hname, rfl⟩ := hknown
  simp only [dpssTags, List.mem_cons, List.not_mem_nil, or_false] at hname
  rcases hname with rfl | rfl | rfl | rfl | rfl
  · obtain ⟨k, hk, hinst⟩ := h.2 rfl
    have hinst : instanceNumber N j = .ok k := hinst
    refine ⟨_, dpssRoute_dpss hinst hk, fun q => ?_⟩
    cases q <;> simp [DpssQueue.Takes, Arrival.HasTag, Arrival.ForInstance, hinst, strVal_inj, eq_comm]
  · exact absurd rfl h.1
  · exact ⟨.abaRecv, rfl, fun q => by cases q <;> simp [DpssQueue.Takes, Arrival.HasTag, strVal_inj]⟩
  · exact ⟨.rbcRecv, rfl, fun q => by cases q <;> simp [DpssQueue.Takes, Arrival.HasTag, strVal_inj]⟩
  · exact ⟨.coinRecv, rfl, fun q => by cases q <;> simp [DpssQueue.Takes, Arrival.HasTag, strVal_inj]⟩

theorem dpss_dispatched {M : Type} (N : Nat) (msgs : List (Arrival M))
    (h : ∀ a ∈ msgs, Known dpssTags a → HasQueue N a) :
    Dispatched dpssTags (DpssQueue.Takes N) msgs (broadcastReceiverLoop (dpssRoute N) msgs) := by
  apply Routes.dispatched
  constructor
  · intro sender tag j msg hmem hknown
    exact dpssRoute_hasQueue hknown (h _ hmem hknown)
  · intro tag j hunknown
    rw [dpssRoute, lookup_unknown hunknown]
    rfl

/-- **A broadcast message of `InfoDPSS` ends the loop of its recipient**: `BroadcastTag` does not have its tag. -/
theorem dpssRbcSend_raises {M : Type} {N : Nat} {msgs : List (Arrival M)}
    (h : ∀ a ∈ msgs, Known dpssTags a → HasQueue N a) {pid : Nat} {o : M} (hmem : dpssRbcSend pid o ∈ msgs) :
    ∃ e, (broadcastReceiverLoop (dpssRoute N) msgs).error = some e := by
  apply Option.ne_none_iff_exists'.1
  intro hnone
  obtain ⟨name, hname, htag⟩ := (dpss_dispatched N msgs h).running.1 hnone _ hmem
  have heq : "ACS_RBC" = name := strVal_inj.1 htag
  rw [← heq] at hname
  exact absurd hname (by decide)

/-! ## Faithful dispatch -/

theorem dispersalSend_takes {M : Type} (thread : DispersalThread) (pid : Nat) (o : M) :
    Known dispersalTags (dispersalSend thread pid o) ∧
      (dispersalReads thread).Takes (dispersalSend thread pid o) := by
  cases thread <;> exact ⟨⟨_, by decide, rfl⟩, rfl⟩

/-- **The loops dispatch every message up to the first that is no triple under a member's tag.**  In `InfoDispersal2` all
that a thread sends goes to the queue that the thread reads. -/
theorem loops_dispatch :
    (∀ (M : Type) (msgs : List (Arrival M)),
      Dispatched dispersalTags DispersalQueue.Takes msgs (broadcastReceiverLoop dispersalRoute msgs)) ∧
    (∀ (M : Type) (thread : DispersalThread) (pid : Nat) (o : M), Known dispersalTags (dispersalSend thread pid o) ∧
      (dispersalReads thread).Takes (dispersalSend thread pid o)) ∧
    ∀ (M : Type) (N : Nat) (msgs : List (Arrival M)), (∀ a ∈ msgs, Known dpssTags a → HasQueue N a) →
      Dispatched dpssTags (DpssQueue.Takes N) msgs (broadcastReceiverLoop (dpssRoute N) msgs) :=
  ⟨fun _ => dispersal_dispatched, fun _ => dispersalSend_takes, fun _ => dpss_dispatched⟩

/-- A message for instance 2, one for the broadcast and one that is no tuple. -/
def threeArrivals : List (Arrival Unit) :=
  [⟨1, .three (strVal "DPSS") (.ofNat 2) ()⟩, ⟨3, .three (strVal "RBC") (.ofNat 9) ()⟩, ⟨2, .notIterable⟩]

theorem loops_dispatch_three : Dispatched dpssTags (DpssQueue.Takes 4) threeArrivals
    (broadcastReceiverLoop (dpssRoute 4) threeArrivals) := by
  apply loops_dispatch.2.2 Unit 4 threeArrivals
  intro a ha hknown
  simp only [threeArrivals, List.mem_cons, List.not_mem_nil, or_false] at ha
  rcases ha with rfl | rfl | rfl
  · exact ⟨by decide, fun _ => ⟨2, by decide, rfl⟩⟩
  · exact ⟨by decide, fun h => absurd h (by decide)⟩
  · exact absurd hknown not_known_notIterable

/-- An unknown tag ends the loop, and the share that comes after it is put nowhere. -/
theorem loops_dispatch_counterexample : ¬ ∀ msgs : List (Arrival Unit),
    (broadcastReceiverLoop dispersalRoute msgs).error = none ∧ ∀ thread pid, dispersalSend thread pid () ∈ msgs →
      (pid, ()) ∈ (broadcastReceiverLoop dispersalRoute msgs).queues (dispersalReads thread) := by
  intro h
  have herror := (h [⟨3, .three (strVal "PING") (.ofNat 0) ()⟩, dispersalSend .refresh 1 ()]).1
  cases herror

end Dispatch
end Dpid
