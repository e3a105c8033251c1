import Dpid.Bytes
import Dpid.Framing
/-!
# Socket — the connection between two nodes (`network/socket_client.py`, `network/socket_server.py`)

`NetworkClient._send` puts `SEP` after the pickle of each message, and with `s == 1` hands the stream to `sendall` in
pieces that never run over the budget `BYTES` (`send_flatten`).  The handler of `NetworkServer` cuts what it receives at
`SEP`.  A pickle holds the bytes of the message as they are, so nothing keeps `SEP` out of it: all messages arrive
exactly when none of their pickles has the separator inside (`socket_delivers_iff`).

pickle is the parameter `Pickle`.
-/
namespace Dpid

/-- `pickle.dumps` and `pickle.loads` on the messages `M`; `none` is an exception. -/
structure Pickle (M : Type) where
  dumps : M → Bytes
  loads : Bytes → Option M

/-- **What pickle does**: `loads` undoes `dumps` and raises on a part of a pickle, and a pickle ends with the opcode
`STOP`, which is `.`. -/
structure Pickle.Lawful {M : Type} (P : Pickle M) : Prop where
  loads_dumps : ∀ m, P.loads (P.dumps m) = some m
  loads_part : ∀ m part, part <+: P.dumps m → part ≠ P.dumps m → P.loads part = none
  dumps_stop : ∀ m, ∃ body, P.dumps m = body ++ [46]

/-- What ends the handler. -/
inductive HandlerExn where
  | valueError
  | unpicklingError
  | indexError
deriving DecidableEq

namespace Socket

/-- `'\r\nSEP\r\nSEP\r\nSEP\r\n'.encode('utf-8')`. -/
def SEP : Bytes := [13, 10, 83, 69, 80, 13, 10, 83, 69, 80, 13, 10, 83, 69, 80, 13, 10]

theorem SEP_ne_nil : SEP ≠ [] := List.cons_ne_nil 13 _

variable {M V : Type}

/-! ## The client -/

/-- The variables of `_send`, the messages still in its queue and the arguments of `sendall`. -/
structure SendState (M : Type) where
  cnt : Nat
  msg : Option Bytes
  queue : List M
  sent : List Bytes

/-- `msg` or what `cnt` lets through of it. -/
def sendPart (BYTES : Nat) (msg : Bytes) (s : SendState M) : SendState M :=
  let s :=
    if msg.length ≤ s.cnt then { s with cnt := s.cnt - msg.length, msg := none, sent := s.sent ++ [msg] }
    else { s with cnt := 0, msg := some (msg.drop s.cnt), sent := s.sent ++ [msg.take s.cnt] }
  if s.cnt = 0 then { s with cnt := BYTES } else s

/-- One pass of the loop for `s == 1`; `none` where it waits for the queue. -/
def pacedStep (P : Pickle M) (BYTES : Nat) (s : SendState M) : Option (SendState M) :=
  match s.msg, s.queue with
  | some msg, _      => some (sendPart BYTES msg s)
  | none, m :: queue => some (sendPart BYTES (P.dumps m ++ SEP) { s with queue := queue })
  | none, []         => none

/-- At most so many passes. -/
def pacedRun (P : Pickle M) (BYTES : Nat) : Nat → SendState M → SendState M
  | 0, s     => s
  | n + 1, s =>
    match pacedStep P BYTES s with
    | some s' => pacedRun P BYTES n s'
    | none    => s

/-- What `_send` hands to `sendall` for the messages `msgs`, in at most `passes` passes if it paces them. -/
def send (P : Pickle M) (BYTES : Nat) (s : Int) (passes : Nat) (msgs : List M) : List Bytes :=
  if s = 1 then (pacedRun P BYTES passes ⟨BYTES, none, msgs, []⟩).sent else msgs.map fun m => P.dumps m ++ SEP

/-! ## The server -/

/-- What the handler does with `data`, the bytes before a `SEP`; `o m` is the tuple of the message `m`, whose first
field the handler reads. -/
def onData (P : Pickle M) (o : M → List V) (jid : Int) (data : Bytes) : Except HandlerExn (Int × M) :=
  if data = [] then .error .valueError
  else
    match P.loads data with
    | none   => .error .unpicklingError
    | some m =>
      match o m with
      | []     => .error .indexError
      | _ :: _ => .ok (jid, m)

/-- `_handler` on the chunks that `recv` returns; `out` is what goes to `server_to_bft`. -/
def handler (P : Pickle M) (o : M → List V) (jid : Int) (chunks : List Bytes) :
    Framing.Reader UInt8 (Int × M) HandlerExn :=
  Framing.run SEP (onData P o jid) chunks

/-! ## The stream -/

/-- The bytes of the messages, each with its separator. -/
def stream (P : Pickle M) (msgs : List M) : Bytes := msgs.flatMap fun m => P.dumps m ++ SEP

/-- What is still to be sent. -/
def SendState.rest (P : Pickle M) (s : SendState M) : Bytes := s.msg.getD [] ++ stream P s.queue

/-- There is a budget, and no empty message waits. -/
structure SendState.Ok (s : SendState M) : Prop where
  cnt : 1 ≤ s.cnt
  msg : ∀ msg, s.msg = some msg → msg ≠ []

variable {P : Pickle M} {BYTES : Nat}

/-- **A pass sends a first part of the message, not empty.** -/
theorem sendPart_spec (hB : 1 ≤ BYTES) {msg : Bytes} (hmsg : msg ≠ []) {s : SendState M} (hs : 1 ≤ s.cnt) :
    (sendPart BYTES msg s).Ok ∧ ∃ part, part ≠ [] ∧ (sendPart BYTES msg s).sent = s.sent ++ [part] ∧
      msg ++ stream P s.queue = part ++ (sendPart BYTES msg s).rest P := by
  have hpos := List.length_pos_iff.2 hmsg
  unfold sendPart
  by_cases hle : msg.length ≤ s.cnt
  · rw [if_pos hle]
    refine ⟨?_, msg, hmsg, ?_, ?_⟩
    · simp only
      split
      · exact ⟨hB, nofun⟩
      · rename_i hcnt
        exact ⟨Nat.pos_of_ne_zero hcnt, nofun⟩
    · simp only
      split <;> rfl
    · simp only
      split <;> rfl
  · rw [if_neg hle, if_pos rfl]
    refine ⟨⟨hB, ?_⟩, msg.take s.cnt, ?_, rfl, ?_⟩
    · rintro _ ⟨⟩ hnil
      have hlen := congrArg List.length hnil
      simp only [List.length_drop, List.length_nil] at hlen
      omega
    · intro hnil
      have hlen := congrArg List.length hnil
      simp only [List.length_take, List.length_nil] at hlen
      omega
    · rw [SendState.rest, Option.getD_some, ← List.append_assoc, List.take_append_drop]

theorem pacedStep_some (hB : 1 ≤ BYTES) {s s' : SendState M} (hs : s.Ok) (h : pacedStep P BYTES s = some s') :
    s'.Ok ∧ ∃ part, part ≠ [] ∧ s'.sent = s.sent ++ [part] ∧ s.rest P = part ++ s'.rest P := by
  cases hmsg : s.msg with
  | some msg =>
    simp only [pacedStep, hmsg, Option.some.injEq] at h
    subst h
    rw [SendState.rest, hmsg]
    exact sendPart_spec hB (hs.msg msg hmsg) hs.cnt
  | none     =>
    cases hqueue : s.queue with
    | nil           =>
      simp only [pacedStep, hmsg, hqueue] at h
      cases h
    | cons m queue  =>
      simp only [pacedStep, hmsg, hqueue, Option.some.injEq] at h
      subst h
      rw [SendState.rest, hmsg, hqueue]
      exact @sendPart_spec M P BYTES hB _ (List.append_ne_nil_of_right_ne_nil _ SEP_ne_nil) { s with queue := queue } hs.cnt

theorem pacedStep_none {s : SendState M} (h : pacedStep P BYTES s = none) : s.rest P = [] := by
  unfold pacedStep at h
  split at h
  · cases h
  · cases h
  · rename_i hmsg hqueue
    rw [SendState.rest, hmsg, hqueue]
    rfl

/-- **With a pass for each byte the loop sends everything.** -/
theorem pacedRun_sent (hB : 1 ≤ BYTES) : ∀ (n : Nat) {s : SendState M}, s.Ok → (s.rest P).length ≤ n →
    (pacedRun P BYTES n s).sent.flatten = s.sent.flatten ++ s.rest P
  | 0, s, _, hn      => by
    rw [List.length_eq_zero_iff.1 (Nat.le_zero.1 hn), List.append_nil]
    rfl
  | n + 1, s, hs, hn => by
    unfold pacedRun
    cases hstep : pacedStep P BYTES s with
    | none    => rw [pacedStep_none hstep, List.append_nil]
    | some s' =>
      obtain ⟨hs', part, hpart, hsent, hrest⟩ := pacedStep_some hB hs hstep
      have hlen := congrArg List.length hrest
      have hpos := List.length_pos_iff.2 hpart
      rw [List.length_append] at hlen
      show (pacedRun P BYTES n s').sent.flatten = _
      rw [pacedRun_sent hB n hs' (by omega), hsent, hrest, List.flatten_append, List.flatten_singleton, List.append_assoc]

/-- **Both ways of sending give the same stream.** -/
theorem send_flatten (hB : 1 ≤ BYTES) (s : Int) (msgs : List M) {passes : Nat} (h : (stream P msgs).length ≤ passes) :
    (send P BYTES s passes msgs).flatten = stream P msgs := by
  unfold send
  split
  · exact pacedRun_sent hB passes ⟨hB, nofun⟩ h
  · rw [stream, List.flatMap_def]

/-! ## The messages -/

variable {o : M → List V} {jid : Int}

theorem dumps_ne_nil (hP : P.Lawful) (m : M) : P.dumps m ≠ [] := by
  obtain ⟨body, hbody⟩ := hP.dumps_stop m
  rw [hbody]
  exact List.concat_ne_nil 46 body

theorem onData_dumps (hP : P.Lawful) {m : M} (hm : o m ≠ []) : onData P o jid (P.dumps m) = .ok (jid, m) := by
  rw [onData, if_neg (dumps_ne_nil hP m), hP.loads_dumps]
  cases ho : o m with
  | nil      => exact absurd ho hm
  | cons _ _ => simp only [ho]

theorem onData_part (hP : P.Lawful) (m : M) {part : Bytes} (hpre : part <+: P.dumps m) (hne : part ≠ P.dumps m) :
    ∃ e, onData P o jid part = .error e := by
  unfold onData
  split
  · exact ⟨.valueError, rfl⟩
  · rw [hP.loads_part m part hpre hne]
    exact ⟨.unpicklingError, rfl⟩

theorem clean_dumps_iff (hP : P.Lawful) (m : M) : Framing.Clean SEP (P.dumps m) ↔ ¬ SEP <:+: P.dumps m := by
  obtain ⟨body, hbody⟩ := hP.dumps_stop m
  rw [hbody]
  exact Framing.clean_concat_iff SEP_ne_nil (by decide)

/-- **All messages arrive, in order and none twice, exactly when no pickle has the separator inside**, whatever the
pace, the budget and the chunks. -/
theorem socket_delivers_iff (hP : P.Lawful) (hB : 1 ≤ BYTES) (s : Int) {msgs : List M} (ho : ∀ m ∈ msgs, o m ≠ []) :
    ∃ n, ∀ passes ≥ n, ∀ chunks : List Bytes, chunks.flatten = (send P BYTES s passes msgs).flatten →
      ((handler P o jid chunks).out = msgs.map (fun m => (jid, m)) ↔ ∀ m ∈ msgs, ¬ SEP <:+: P.dumps m) := by
  refine ⟨(stream P msgs).length, fun passes hpasses chunks hchunks => ?_⟩
  rw [send_flatten hB s msgs hpasses] at hchunks
  have hframes := Framing.run_frames_iff SEP_ne_nil (fun m hm => @onData_dumps M V P o jid hP m (ho m hm))
    (fun m _ part hpre hne => onData_part hP m hpre hne) hchunks
  exact hframes.trans (forall₂_congr fun m _ => clean_dumps_iff hP m)

/-! ## Two messages -/

/-- `(0, (b'A',))` and `(0, (SEP,))`. -/
inductive Sample where
  | plain
  | separator
deriving DecidableEq

def Sample.tuple : Sample → List Bytes
  | .plain     => [[65]]
  | .separator => [SEP]

/-- Their pickles, protocol 4. -/
def Sample.dumps : Sample → Bytes
  | .plain     => [128, 4, 149, 11, 0, 0, 0, 0, 0, 0, 0, 75, 0, 67, 1, 65, 148, 133, 148, 134, 148, 46]
  | .separator =>
    [128, 4, 149, 27, 0, 0, 0, 0, 0, 0, 0, 75, 0, 67, 17] ++ SEP ++ [148, 133, 148, 134, 148, 46]

def samplePickle : Pickle Sample where
  dumps := Sample.dumps
  loads data :=
    if data = Sample.dumps .plain then some .plain else if data = Sample.dumps .separator then some .separator else none

theorem samplePickle_lawful : samplePickle.Lawful where
  loads_dumps m := by cases m <;> decide
  loads_part m part hpre hne := by
    have hpart : ∀ m : Sample, ∀ n ≤ 38, (samplePickle.dumps m).take n ≠ samplePickle.dumps m →
        samplePickle.loads ((samplePickle.dumps m).take n) = none := by
      rintro (_ | _) <;> decide
    have hlen : (samplePickle.dumps m).length ≤ 38 := by cases m <;> decide
    rw [List.prefix_iff_eq_take.1 hpre] at hne ⊢
    exact hpart m part.length (hpre.length_le.trans hlen) hne
  dumps_stop m := by
    cases m with
    | plain     => exact ⟨(Sample.dumps .plain).dropLast, by decide⟩
    | separator => exact ⟨(Sample.dumps .separator).dropLast, by decide⟩

/-- Twice the plain message, at most seven bytes at a time. -/
theorem socket_delivers_iff_plain : ∃ n, ∀ passes ≥ n, ∀ chunks : List Bytes,
    chunks.flatten = (send samplePickle 7 1 passes [.plain, .plain]).flatten →
      ((handler samplePickle Sample.tuple 3 chunks).out = [Sample.plain, .plain].map (fun m => (3, m)) ↔
        ∀ m ∈ [Sample.plain, .plain], ¬ SEP <:+: samplePickle.dumps m) :=
  socket_delivers_iff samplePickle_lawful (by decide) 1 (by decide)

/-- The message that holds the separator is lost, and the handler with it. -/
theorem socket_delivers_counterexample : ¬ ∀ (msgs : List Sample) (chunks : List Bytes), (∀ m ∈ msgs, m.tuple ≠ []) →
    chunks.flatten = (send samplePickle 7 0 0 msgs).flatten →
    (handler samplePickle Sample.tuple 3 chunks).out = msgs.map (fun m => (3, m)) := by
  intro h
  have hout := h [.separator] [stream samplePickle [.separator]] (by decide) (by decide)
  exact absurd hout (by decide)

end Socket
end Dpid
