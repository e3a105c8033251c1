import Dpid.AddReconst
import Dpid.NetFifo
import Mathlib
/-!
# AddTotal — `add` when every party follows it and some stop

All parties add one message, up to `f` of them stop, and channels keep their order.  Each party forwards its own stripe,
since every value it is sent is that one.  A party that returns has taken `2 f + 1` shares, so by order as many
`ADD_VAL`s, so it has forwarded its stripe before it stopped answering: all running parties' shares reach every laggard,
and `2 f + 1` of them suffice as long as `N ≤ 4 f + 1` (`add_progress_iff`).
-/
namespace Dpid

def AddMsg.isAddVal : AddMsg → Bool
  | .addVal _ _  => true
  | .reconst _ _ => false

def AddMsg.isReconst : AddMsg → Bool
  | .addVal _ _  => false
  | .reconst _ _ => true

namespace Dissem

variable {H : Hash} {z : Zfec} {N f : Nat} {m : Text} {p : Fin N} {s : AddState N} {stripes : List Bytes}
  {hist : List (Net.Envelope (Fin N) AddMsg)}

/-- A message of a party that follows the protocol. -/
def Genuine (z : Zfec) (f : Nat) (m : Text) (e : Net.Envelope (Fin N) AddMsg) : Prop :=
  match e.msg with
  | .addVal sender value  => sender = .int (e.src : Nat) ∧ value = stripeOf z f m e.dst
  | .reconst sender value => sender = .int (e.src : Nat) ∧ value = stripeOf z f m e.src

/-- `p` has taken a message of `q` of this kind. -/
def Took (kind : AddMsg → Bool) (hist : List (Net.Envelope (Fin N) AddMsg)) (p q : Fin N) : Prop :=
  ∃ e ∈ hist, e.src = q ∧ e.dst = p ∧ kind e.msg = true

/-- The `ADD_VAL`s party `p` has taken are those of `A`, all with its own stripe. -/
structure Disp (H : Hash) (z : Zfec) (f : Nat) (m : Text) (A : Finset (Fin N)) (p : Fin N) (s : AddState N) : Prop where
  senders : s.dispSenders = A.image (fun q : Fin N => (PyId.int (q : Nat)).str)
  counter : s.dispCounter (H (stripeOf z f m p)) = s.dispSenders
  sent : s.reconstructSent = true ↔ f + 1 ≤ A.card

/-- The shares party `p` has taken are `P`, each its sender's stripe. -/
structure Got (H : Hash) (z : Zfec) (f : Nat) (m : Text) (P : List (Fin N × Bytes)) (s : AddState N) : Prop
    extends Has H P s where
  nodup : (P.map Prod.fst).Nodup
  own : ∀ x ∈ P, x.2 = stripeOf z f m x.1
  few : s.phase = .input ∨ s.phase = .loop → P.length ≤ 2 * f
  enough : s.phase = .returned m.encode → 2 * f + 1 ≤ P.length

/-- The invariant of party `p`. -/
structure CrashOk (H : Hash) (z : Zfec) (f : Nat) (m : Text) (hist : List (Net.Envelope (Fin N) AddMsg)) (p : Fin N)
    (s : AddState N) : Prop where
  phase : s.phase = .input ∨ s.phase = .loop ∨ s.phase = .returned m.encode
  disp : ∃ A, Disp H z f m A p s ∧ ∀ q, q ∈ A ↔ Took AddMsg.isAddVal hist p q
  got : ∃ P, Got H z f m P s ∧ ∀ q, q ∈ P.map Prod.fst ↔ Took AddMsg.isReconst hist p q

/-! ## The steps -/

theorem took_cons {kind : AddMsg → Bool} {e : Net.Envelope (Fin N) AddMsg} {p q : Fin N} :
    Took kind (e :: hist) p q ↔ (e.src = q ∧ e.dst = p ∧ kind e.msg = true) ∨ Took kind hist p q := by
  simp [Took]

theorem init_crashOk : CrashOk H z f m [] p (init (N := N)) where
  phase := Or.inl rfl
  disp  := ⟨∅, ⟨rfl, rfl, by simp [init]⟩, fun q => by simp [Took]⟩
  got   := ⟨[], ⟨⟨rfl, rfl, by simp [init], rfl⟩, List.nodup_nil, by simp, fun _ => Nat.zero_le _, by simp [init]⟩,
    fun q => by simp [Took]⟩

/-- Of a genuine `ADD_VAL` a party makes its channel known, and forwards its stripe at the `f + 1`st. -/
theorem Disp.addVal {A : Finset (Fin N)} (h : Disp H z f m A p s) (q : Fin N) :
    Disp H z f m (insert q A) p (onAddVal H f p q (.int (q : Nat)) (stripeOf z f m p) s).1 ∧
      ∀ o ∈ (onAddVal H f p q (.int (q : Nat)) (stripeOf z f m p) s).2,
        o.2 = .reconst (.int (p : Nat)) (stripeOf z f m p) := by
  have hmem : (PyId.int (q : Nat)).str ∈ s.dispSenders ↔ q ∈ A := by
    rw [h.senders, Finset.mem_image]
    constructor
    · rintro ⟨i, hi, hstr⟩
      exact Fin.ext (PyId.str_natCast_inj hstr) ▸ hi
    · exact fun hq => ⟨q, hq, rfl⟩
  unfold onAddVal
  by_cases hq : q ∈ A
  · rw [if_pos (hmem.2 hq), Finset.insert_eq_of_mem hq]
    exact ⟨h, by simp⟩
  · rw [if_neg (fun hin => hq (hmem.1 hin))]
    have hsenders : (addDisp H q (PyId.int (q : Nat)).str (stripeOf z f m p) s).dispSenders =
        (insert q A).image (fun q : Fin N => (PyId.int (q : Nat)).str) := by
      rw [Finset.image_insert, ← h.senders]
      rfl
    have hcounter : (addDisp H q (PyId.int (q : Nat)).str (stripeOf z f m p) s).dispCounter (H (stripeOf z f m p)) =
        (addDisp H q (PyId.int (q : Nat)).str (stripeOf z f m p) s).dispSenders := by
      simp only [addDisp, Function.update_self, h.counter]
    have hcard : ((addDisp H q (PyId.int (q : Nat)).str (stripeOf z f m p) s).dispCounter (H (stripeOf z f m p))).card =
        (insert q A).card := by
      rw [hcounter, hsenders, Finset.card_image_of_injective _ (fun i j hij => Fin.ext (PyId.str_natCast_inj hij))]
    have hins : (insert q A).card = A.card + 1 := Finset.card_insert_of_notMem hq
    simp only [hcard]
    by_cases hc : f + 1 ≤ (insert q A).card ∧ s.reconstructSent = false
    · rw [if_pos (by simpa [addDisp] using hc)]
      constructor
      · exact ⟨hsenders, hcounter, by simp [hc.1]⟩
      · intro o ho
        obtain ⟨i, -, rfl⟩ := List.mem_map.1 ho
        rfl
    · rw [if_neg (by simpa [addDisp] using hc)]
      constructor
      · refine ⟨hsenders, hcounter, ?_⟩
        show s.reconstructSent = true ↔ _
        rw [h.sent]
        constructor
        · omega
        · intro hle
          by_contra hlt
          refine hc ⟨hle, ?_⟩
          rw [← Bool.not_eq_true, h.sent]
          exact hlt
      · simp

/-- **An attempt with `2 f + 1` genuine shares returns the message.** -/
theorem reconstruct_genuine (hz : z.IsMds (N - 2 * f) N) (hK : N - 2 * f ≤ 128) (hf : N ≤ 4 * f + 1)
    (hS : encode z (N - 2 * f) N m = .ok stripes) {P : List (Fin N × Bytes)} (h : Has H P s)
    (hnd : (P.map Prod.fst).Nodup) (hown : ∀ x ∈ P, x.2 = stripeOf z f m x.1) (hP : 2 * f + 1 ≤ P.length) :
    (reconstruct H z f s).1 = .returned m.encode := by
  obtain ⟨h1, h2, h3⟩ := ((encode_eq_ok _ _ _ _ _).1 hS).1
  have hlen := encode_length hz hS
  have hstripe : ∀ i : Fin N, stripeOf z f m i = stripes.getD i [] := fun i => by rw [stripeOf, hS]
  have hdec : decode z (N - 2 * f) N (place P) = .ok m.encode := by
    rw [decode_of_encode hz hS _ (place_length P), unpad_blocks _ h1 hK]
    · intro i b hb
      obtain ⟨x, hx, rfl, rfl⟩ := (mem_place hnd i b).1 hb
      rw [hown x hx, hstripe, List.getD_eq_getElem?_getD, List.getElem?_eq_getElem (by rw [hlen]; exact x.1.isLt)]
      rfl
    · rw [← present_length _ 0, (present_place_perm hnd).length_eq, List.length_map]
      omega
  have hcount : P.countP (fun x => decide (H (stripes.getD x.1 []) = H x.2)) = P.length := by
    refine List.countP_eq_length.2 (fun x hx => ?_)
    rw [hown x hx, hstripe]
    exact decide_eq_true rfl
  have henc : encode z (N - 2 * f) N (.bytes m.encode) = .ok stripes := by rw [encode_bytes, hS]
  unfold reconstruct
  simp only [h.slots, hdec, henc, tally_eq hlen h.check (Nat.zero_le _), Nat.zero_add, hcount, hP, decide_true]

/-- **Of a genuine `RECONST`** a party keeps the share, and returns the message at the `2 f + 1`st. -/
theorem Got.reconst (hz : z.IsMds (N - 2 * f) N) (hK : N - 2 * f ≤ 128) (hf : N ≤ 4 * f + 1)
    (hS : encode z (N - 2 * f) N m = .ok stripes) {P : List (Fin N × Bytes)} (h : Got H z f m P s) (hp : s.phase = .loop)
    (q : Fin N) : ∃ P', Got H z f m P' (onReconst H z f q (.int (q : Nat)) (stripeOf z f m q) s) ∧
      (∀ i, i ∈ P'.map Prod.fst ↔ i = q ∨ i ∈ P.map Prod.fst) ∧
      ((onReconst H z f q (.int (q : Nat)) (stripeOf z f m q) s).phase = .loop ∨
        (onReconst H z f q (.int (q : Nat)) (stripeOf z f m q) s).phase = .returned m.encode) := by
  by_cases hq : q ∈ P.map Prod.fst
  · have hsame : onReconst H z f q (.int (q : Nat)) (stripeOf z f m q) s = s := by
      rw [onReconst, if_pos ((h.senders q).2 hq)]
    rw [hsame]
    refine ⟨P, h, fun i => ?_, Or.inl hp⟩
    constructor
    · exact Or.inr
    · rintro (rfl | hi)
      · exact hq
      · exact hi
  · have hadd := h.toHas.addShare q (stripeOf z f m q)
    have hnd : ((P ++ [(q, stripeOf z f m q)]).map Prod.fst).Nodup := by
      rw [List.map_append]
      exact List.nodup_append_comm.1 (List.nodup_cons.2 ⟨hq, h.nodup⟩)
    have hown : ∀ x ∈ P ++ [(q, stripeOf z f m q)], x.2 = stripeOf z f m x.1 := by
      intro x hx
      rcases List.mem_append.1 hx with hx | hx
      · exact h.own x hx
      · rw [List.mem_singleton.1 hx]
    have hmem : ∀ i, i ∈ (P ++ [(q, stripeOf z f m q)]).map Prod.fst ↔ i = q ∨ i ∈ P.map Prod.fst := by
      intro i
      rw [List.map_append, List.mem_append, List.map_singleton, List.mem_singleton, or_comm]
    have hfew := h.few (Or.inr hp)
    have hlen : (P ++ [(q, stripeOf z f m q)]).length = P.length + 1 := by simp
    refine ⟨P ++ [(q, stripeOf z f m q)], ?_⟩
    rw [h.toHas.onReconst hq]
    by_cases hc : 2 * f + 1 ≤ P.length + 1
    · rw [if_pos hc]
      have hret := reconstruct_genuine hz hK hf hS hadd hnd hown (by omega)
      refine ⟨⟨⟨hadd.slots, hadd.count, hadd.senders, hadd.check⟩, hnd, hown, fun hphase => ?_, fun _ => by omega⟩, hmem,
        Or.inr hret⟩
      rw [hret] at hphase
      rcases hphase with hphase | hphase <;> cases hphase
    · rw [if_neg hc]
      refine ⟨⟨hadd, hnd, hown, fun _ => by omega, fun hphase => ?_⟩, hmem, Or.inl hp⟩
      rw [show (addShare H q (q : Nat) q (stripeOf z f m q) s).phase = s.phase from rfl, hp] at hphase
      cases hphase

/-- A `RECONST` leaves the counting of `ADD_VAL`s alone. -/
theorem onReconst_frame (q : Fin N) (sender : PyId) (value : Bytes) :
    (onReconst H z f q sender value s).dispSenders = s.dispSenders ∧
      (onReconst H z f q sender value s).dispCounter = s.dispCounter ∧
      (onReconst H z f q sender value s).reconstructSent = s.reconstructSent := by
  unfold onReconst
  split
  · exact ⟨rfl, rfl, rfl⟩
  · split
    · exact ⟨rfl, rfl, rfl⟩
    · split
      · exact ⟨rfl, rfl, rfl⟩
      · simp only
        split <;> exact ⟨rfl, rfl, rfl⟩

theorem Disp.reconst {A : Finset (Fin N)} (h : Disp H z f m A p s) (q : Fin N) (sender : PyId) (value : Bytes) :
    Disp H z f m A p (onReconst H z f q sender value s) := by
  obtain ⟨hsenders, hcounter, hsent⟩ := onReconst_frame (H := H) (z := z) (f := f) (s := s) q sender value
  exact ⟨hsenders.trans h.senders, by rw [hcounter, hsenders, h.counter], by rw [hsent, h.sent]⟩

/-- **One genuine message.** -/
theorem CrashOk.recv (hz : z.IsMds (N - 2 * f) N) (hK : N - 2 * f ≤ 128) (hf : N ≤ 4 * f + 1)
    (hS : encode z (N - 2 * f) N m = .ok stripes) {src dst : Fin N} {msg : AddMsg} (h : CrashOk H z f m hist dst s)
    (hp : s.phase = .loop) (he : Genuine z f m ⟨src, dst, msg⟩) :
    CrashOk H z f m (⟨src, dst, msg⟩ :: hist) dst (onMsg H z f dst s src msg).1 ∧
      ∀ o ∈ (onMsg H z f dst s src msg).2, Genuine z f m ⟨dst, o.1, o.2⟩ := by
  obtain ⟨A, hdisp, hA⟩ := h.disp
  obtain ⟨P, hgot, hP⟩ := h.got
  cases msg with
  | addVal sender value =>
    obtain ⟨rfl, rfl⟩ : sender = .int (src : Nat) ∧ value = stripeOf z f m dst := he
    obtain ⟨hdisp', hout⟩ := hdisp.addVal src
    have hat : At H P s := ⟨hgot.toHas, hp⟩
    have hat' : At H P (onMsg H z f dst s src (.addVal (.int (src : Nat)) (stripeOf z f m dst))).1 := hat.addVal src _ _
    constructor
    · refine ⟨Or.inr (Or.inl hat'.phase), ⟨_, hdisp', fun q => ?_⟩, ⟨P, ⟨hat'.toHas, hgot.nodup, hgot.own,
        fun _ => hgot.few (Or.inr hp), fun hphase => ?_⟩, fun q => ?_⟩⟩
      · rw [Finset.mem_insert, hA, took_cons]
        simp [AddMsg.isAddVal, eq_comm]
      · rw [hat'.phase] at hphase
        cases hphase
      · rw [hP, took_cons]
        simp [AddMsg.isReconst]
    · intro o ho
      have ho' := hout o ho
      obtain ⟨i, msg⟩ := o
      subst ho'
      exact ⟨rfl, rfl⟩
  | reconst sender value =>
    obtain ⟨rfl, rfl⟩ : sender = .int (src : Nat) ∧ value = stripeOf z f m src := he
    obtain ⟨P', hgot', hP', hphase⟩ := hgot.reconst hz hK hf hS hp src
    constructor
    · refine ⟨Or.inr hphase, ⟨A, hdisp.reconst src (.int (src : Nat)) (stripeOf z f m src), fun q => ?_⟩, ⟨P', hgot', fun q => ?_⟩⟩
      · rw [hA, took_cons]
        simp [AddMsg.isAddVal]
      · rw [hP', hP, took_cons]
        simp [AddMsg.isReconst, eq_comm]
    · simp [onMsg]

theorem CrashOk.start (hS : encode z (N - 2 * f) N m = .ok stripes) (h : CrashOk H z f m hist p s)
    (hp : s.phase = .input) :
    CrashOk H z f m hist p (start z f m p s).1 ∧ ∀ o ∈ (start z f m p s).2, Genuine z f m ⟨p, o.1, o.2⟩ := by
  obtain ⟨A, hdisp, hA⟩ := h.disp
  obtain ⟨P, hgot, hP⟩ := h.got
  unfold Dissem.start
  rw [hS]
  constructor
  · exact ⟨Or.inr (Or.inl rfl), ⟨A, ⟨hdisp.senders, hdisp.counter, hdisp.sent⟩, hA⟩,
      ⟨P, ⟨⟨hgot.slots, hgot.count, hgot.senders, hgot.check⟩, hgot.nodup, hgot.own, fun _ => hgot.few (Or.inl hp),
        by simp⟩, hP⟩⟩
  · intro o ho
    obtain ⟨i, -, rfl⟩ := List.mem_map.1 ho
    refine ⟨rfl, ?_⟩
    rw [stripeOf, hS]

theorem crash_preserved (hz : z.IsMds (N - 2 * f) N) (hK : N - 2 * f ≤ 128) (hf : N ≤ 4 * f + 1)
    (hS : encode z (N - 2 * f) N m = .ok stripes) :
    Net.Preserved (add (N := N) H z f m) ∅ (fun _ _ => True) (fun _ _ => True)
      (fun loc hist p => CrashOk H z f m hist p (loc p)) (fun _ e => Genuine z f m e) where
  grow_refl := fun _ => trivial
  grow_wake := fun _ _ _ _ _ _ => trivial
  grow_recv := fun _ _ _ _ _ _ _ => trivial
  local_mono := by
    intro loc loc' hist hist' p _ hsub hback hp h
    have htook : ∀ kind q, Took kind hist' p q ↔ Took kind hist p q := by
      intro kind q
      constructor
      · rintro ⟨e, he, hsrc, hdst, hkind⟩
        exact ⟨e, hback e he hdst, hsrc, hdst, hkind⟩
      · rintro ⟨e, he, hsrc, hdst, hkind⟩
        exact ⟨e, hsub e he, hsrc, hdst, hkind⟩
    rw [hp]
    obtain ⟨A, hdisp, hA⟩ := h.disp
    obtain ⟨P, hgot, hP⟩ := h.got
    exact ⟨h.phase, ⟨A, hdisp, fun q => by rw [hA, htook]⟩, ⟨P, hgot, fun q => by rw [hP, htook]⟩⟩
  msg_mono := fun _ _ _ _ h => h
  init := fun p _ => init_crashOk
  wake := by
    intro c p t s out loc' _ hp hL h hloc _
    obtain ⟨hin, rfl, rfl⟩ := add_wake h
    rw [hloc, Function.update_self]
    exact (hL p hp).start hS hin
  recv := by
    intro c e s out loc' _ hp hL hW h hloc _
    obtain ⟨hloop, rfl, rfl⟩ := add_recv h
    rw [hloc, Function.update_self]
    exact (hL e.dst hp).recv hz hK hf hS hloop (hW (Finset.notMem_empty _))

/-! ## What is sent -/

theorem filter_finRange (q : Fin N) : (List.finRange N).filter (fun i => decide (i = q)) = [q] := by
  refine List.perm_singleton.1 ((List.perm_ext_iff_of_nodup ((List.nodup_finRange N).filter _)
    (List.nodup_singleton q)).2 (fun i => ?_))
  simp [List.mem_filter]

theorem filter_broadcast (q : Fin N) (msg : Fin N → AddMsg) :
    ((List.finRange N).map (fun i => (i, msg i))).filter (fun o => decide (o.1 = q)) = [(q, msg q)] := by
  rw [List.filter_map, show ((fun o : Fin N × AddMsg => decide (o.1 = q)) ∘ fun i => (i, msg i)) =
    fun i => decide (i = q) from rfl, filter_finRange]
  rfl

/-- Only an `ADD_VAL` makes a party send, and then what it forwards is counted as sent. -/
theorem onMsg_out (target : Fin N) (msg : AddMsg) :
    (onMsg H z f p s target msg).2 = [] ∧ (onMsg H z f p s target msg).1.reconstructSent = s.reconstructSent ∨
      ∃ value, (onMsg H z f p s target msg).2 = (List.finRange N).map (fun i => (i, .reconst (.int (p : Nat)) value)) ∧
        s.reconstructSent = false ∧ (onMsg H z f p s target msg).1.reconstructSent = true := by
  cases msg with
  | addVal sender value =>
    simp only [onMsg, onAddVal]
    split
    · exact Or.inl ⟨rfl, rfl⟩
    · split
      · rename_i hc
        exact Or.inr ⟨value, rfl, hc.2, rfl⟩
      · exact Or.inl ⟨rfl, rfl⟩
  | reconst sender value => exact Or.inl ⟨rfl, (onReconst_frame target sender value).2.2⟩

theorem onMsg_ne_input (hp : s.phase = .loop) (target : Fin N) (msg : AddMsg) :
    (onMsg H z f p s target msg).1.phase ≠ .input := by
  cases msg with
  | addVal sender value =>
    simp only [onMsg, onAddVal]
    split
    · simp [hp]
    · split <;> simp [addDisp, hp]
  | reconst sender value =>
    simp only [onMsg, onReconst]
    split
    · simp
    · split
      · simp [hp]
      · split
        · simp
        · split
          · exact reconstruct_ne_input
          · simp [addShare, hp]

theorem add_leads (hS : encode z (N - 2 * f) N m = .ok stripes) :
    Net.Leads (add (N := N) H z f m) (fun msg => msg.isAddVal = true) (fun s => s.phase ≠ .input) where
  init := fun _ h => h rfl
  wake := by
    intro p t s s' out h
    obtain ⟨hin, rfl, rfl⟩ := add_wake h
    right
    refine ⟨fun hne => hne hin, ?_, fun q => ?_⟩
    · simp [start, hS]
    · refine ⟨.addVal (.int (p : Nat)) (stripes.getD q []), [], ?_, rfl⟩
      simp only [start, hS]
      exact filter_broadcast q _
  recv := by
    intro p s q msg s' out h
    obtain ⟨hloop, rfl, rfl⟩ := add_recv h
    constructor
    · rw [hloop]
      simp
    · exact onMsg_ne_input hloop q msg

theorem countP_broadcast (q : Fin N) (sender : PyId) (value : Bytes) :
    ((List.finRange N).map (fun i => (i, AddMsg.reconst sender value))).countP
      (fun o => decide (o.1 = q ∧ o.2.isReconst = true)) = 1 := by
  have hkind : ∀ o ∈ (List.finRange N).map (fun i => (i, AddMsg.reconst sender value)),
      decide (o.1 = q ∧ o.2.isReconst = true) = true ↔ decide (o.1 = q) = true := by
    intro o ho
    obtain ⟨i, -, rfl⟩ := List.mem_map.1 ho
    simp [AddMsg.isReconst]
  rw [List.countP_congr hkind, List.countP_eq_length_filter, filter_broadcast]
  rfl

theorem add_rations : Net.Rations (add (N := N) H z f m) AddMsg.isReconst
    (fun s _ => if s.reconstructSent = true then 1 else 0) where
  wake := by
    intro p t s s' out q h
    obtain ⟨-, rfl, rfl⟩ := add_wake h
    cases hS : encode z (N - 2 * f) N m with
    | error e    => simp [start, hS]
    | ok stripes => simp [start, hS, AddMsg.isReconst]
  recv := by
    intro p s r msg s' out q h
    obtain ⟨-, rfl, rfl⟩ := add_recv h
    obtain ⟨hout, hsame⟩ | ⟨value, hout, hbefore, hafter⟩ := onMsg_out (H := H) (z := z) (f := f) (p := p) (s := s) r msg
    · rw [hout, hsame, List.countP_nil]
      exact le_rfl
    · rw [hout, hbefore, hafter, countP_broadcast]
      exact le_rfl

/-- A party pays for its own start, for its `ADD_VAL`s and for its `RECONST`s. -/
theorem add_bounded : Net.Bounded (add (N := N) H z f m)
    (fun s => (if s.phase = .input then N + 1 else 0) + if s.reconstructSent = true then 0 else N) where
  wake := by
    intro p t s s' out h
    obtain ⟨hin, rfl, rfl⟩ := add_wake h
    rw [if_pos hin]
    cases hS : encode z (N - 2 * f) N m with
    | error e    => simp [start, hS]
    | ok stripes =>
      simp [start, hS]
      omega
  recv := by
    intro p s q msg s' out h
    obtain ⟨hloop, rfl, rfl⟩ := add_recv h
    have hin : s.phase ≠ .input := by rw [hloop]; simp
    obtain ⟨hout, hsame⟩ | ⟨value, hout, hbefore, hafter⟩ := onMsg_out (H := H) (z := z) (f := f) (p := p) (s := s) q msg
    · simp [onMsg_ne_input hloop q msg, hin, hout, hsame]
    · simp [onMsg_ne_input hloop q msg, hin, hout, hbefore, hafter]

/-- What a party in its state has sent. -/
def Sent (z : Zfec) (f : Nat) (m : Text) (p : Fin N) (s : AddState N) (q : Fin N) (msg : AddMsg) : Prop :=
  (s.phase ≠ .input ∧ msg = .addVal (.int (p : Nat)) (stripeOf z f m q)) ∨
    (s.reconstructSent = true ∧ msg = .reconst (.int (p : Nat)) (stripeOf z f m p))

theorem add_delivers (hz : z.IsMds (N - 2 * f) N) (hK : N - 2 * f ≤ 128) (hf : N ≤ 4 * f + 1)
    (hS : encode z (N - 2 * f) N m = .ok stripes) (faulty : Finset (Fin N)) :
    Net.Delivers (add (N := N) H z f m) faulty (Sent z f m) where
  init := by
    rintro p q msg (⟨hne, -⟩ | ⟨hsent, -⟩)
    · exact hne rfl
    · cases hsent
  wake := by
    intro c p t s out q msg _ h hsent
    obtain ⟨-, rfl, rfl⟩ := add_wake h
    simp only [Dissem.start, hS] at hsent ⊢
    rcases hsent with ⟨-, rfl⟩ | hsent
    · right
      refine List.mem_map.2 ⟨q, List.mem_finRange q, ?_⟩
      rw [stripeOf, hS]
    · exact Or.inl (Or.inr hsent)
  recv := by
    intro c e s out q msg hc he h hsent
    obtain ⟨hloop, rfl, rfl⟩ := add_recv h
    have hholds := (crash_preserved (H := H) hz hK hf hS).crashRun hc
    have hgenuine := ((hholds.loc e.dst (Finset.notMem_empty _)).recv hz hK hf hS hloop
      (hholds.net e he (Finset.notMem_empty _))).2
    rcases hsent with ⟨-, rfl⟩ | ⟨hsent, rfl⟩
    · left
      left
      exact ⟨by rw [hloop]; simp, rfl⟩
    · obtain ⟨-, hsame⟩ | ⟨value, hout, -, -⟩ := onMsg_out (H := H) (z := z) (f := f) (p := e.dst) (s := c.loc e.dst)
        e.src e.msg
      · left
        right
        exact ⟨hsame ▸ hsent, rfl⟩
      · right
        have hq : (q, AddMsg.reconst (.int (e.dst : Nat)) value) ∈ (onMsg H z f e.dst (c.loc e.dst) e.src e.msg).2 := by
          rw [hout]
          exact List.mem_map.2 ⟨q, List.mem_finRange q, rfl⟩
        have hvalue : value = stripeOf z f m e.dst := (hgenuine _ hq).2
        rwa [hvalue] at hq

/-! ## Too many parties -/

/-- While more than `4 f + 1` parties take part. -/
structure Short (f : Nat) (s : AddState N) : Prop where
  slots : s.reconstCounter.countP Option.isSome ≤ s.count
  few : s.phase = .input ∨ s.phase = .loop → s.count ≤ 2 * f
  never : ∀ m', s.phase ≠ .returned m'

theorem Short.onReconst (hN : 4 * f + 2 ≤ N) (h : Short f s) (hp : s.phase = .loop) (q : Fin N) (sender : PyId)
    (value : Bytes) : Short f (onReconst H z f q sender value s) := by
  have hraised : ∀ e, Short f { s with phase := .raised e } := fun e => ⟨h.slots, by simp, by simp⟩
  cases sender with
  | text t => exact hraised _
  | int i  =>
    rw [Dissem.onReconst]
    by_cases hi : i ∈ s.reconstSenders
    · rw [if_pos hi]
      exact h
    · rw [if_neg hi]
      cases hk : pyIndex s.reconstCounter.length i with
      | error e => exact hraised e
      | ok k    =>
        have hslots : (addShare H q i k value s).reconstCounter.countP Option.isSome ≤ s.count + 1 :=
          (countP_set_le _ _ _).trans (Nat.succ_le_succ h.slots)
        have hfew := h.few (Or.inr hp)
        simp only
        by_cases hc : 2 * f + 1 ≤ (addShare H q i k value s).count
        · rw [if_pos hc]
          -- with `2 f + 1` shares there is nothing to decode
          have hno : ¬ ((reconstruct H z f (addShare H q i k value s)).1 = .loop ∨
              ∃ m', (reconstruct H z f (addShare H q i k value s)).1 = .returned m') := by
            intro hor
            have hle := reconstruct_le (by omega) hslots hor
            omega
          rw [not_or, not_exists] at hno
          refine ⟨hslots, fun hphase => ?_, hno.2⟩
          rcases hphase with hphase | hphase
          · exact absurd hphase reconstruct_ne_input
          · exact absurd hphase hno.1
        · rw [if_neg hc]
          exact ⟨hslots, fun _ => Nat.lt_succ_iff.1 (Nat.lt_of_not_le hc), h.never⟩

theorem short_preserved (H : Hash) (z : Zfec) (m : Text) (hN : 4 * f + 2 ≤ N) :
    Net.Preserved (add (N := N) H z f m) ∅ (fun _ _ => True) (fun _ _ => True) (fun loc _ p => Short f (loc p))
      (fun _ _ => True) where
  grow_refl := fun _ => trivial
  grow_wake := fun _ _ _ _ _ _ => trivial
  grow_recv := fun _ _ _ _ _ _ _ => trivial
  local_mono := fun _ _ _ _ _ _ _ _ hp h => hp ▸ h
  msg_mono := fun _ _ _ _ h => h
  init := fun _ _ => ⟨by simp [add, init, List.countP_replicate], fun _ => Nat.zero_le _, by simp [add, init]⟩
  wake := by
    intro c p t s out loc' _ hp hL h hloc _
    obtain ⟨hin, rfl, rfl⟩ := add_wake h
    have hs := hL p hp
    rw [hloc, Function.update_self]
    refine ⟨?_, fun o _ => trivial⟩
    cases hS : encode z (N - 2 * f) N m with
    | error e    => simp only [start, hS]; exact ⟨hs.slots, by simp, by simp⟩
    | ok stripes => simp only [start, hS]; exact ⟨hs.slots, fun _ => hs.few (Or.inl hin), by simp⟩
  recv := by
    intro c e s out loc' _ hp hL hW h hloc _
    obtain ⟨hloop, rfl, rfl⟩ := add_recv h
    have hs := hL e.dst hp
    rw [hloc, Function.update_self]
    refine ⟨?_, fun o _ => trivial⟩
    cases e.msg with
    | reconst sender value => exact hs.onReconst hN hloop e.src sender value
    | addVal sender value  =>
      simp only [onMsg, onAddVal]
      split
      · exact hs
      · split <;> exact ⟨hs.slots, hs.few, hs.never⟩

end Dissem

open Dissem

/-- Progress of `add` with at most `f` of its parties stopping at any point and channels that keep their order: no
running party raises, each sends `RECONST` at most once to everyone and only with its own stripe, and when no step is
left every running party has returned the common input. -/
def AddProgress (H : Hash) (z : Zfec) (N f : Nat) (m : Text) : Prop :=
  ∀ faulty : Finset (Fin N), faulty.card ≤ f → ∀ c, Net.FifoReachable (add H z f m) faulty c →
    (∀ p ∉ c.stopped, ∀ e, (c.loc p).phase ≠ .raised e) ∧
    (∀ p ∉ c.stopped, ∀ q, Net.sentCount AddMsg.isReconst c.net c.hist p q ≤ 1) ∧
    (∀ e ∈ c.net ++ c.hist, e.src ∉ c.stopped → ∀ sender value, e.msg = .reconst sender value →
      value = stripeOf z f m e.src) ∧
    (Net.FifoQuiescent (add H z f m) c → ∀ p ∉ c.stopped, (c.loc p).phase = .returned m.encode)

section Progress

variable {H : Hash} {z : Zfec} {N f : Nat} {m : Text} {stripes : List Bytes} {faulty : Finset (Fin N)}
  {c : Net.CrashConf (Fin N) (AddState N) AddMsg}

/-- A message between running parties is taken before rest, if its receiver is in its loop. -/
theorem took_of_quiescent (hz : z.IsMds (N - 2 * f) N) (hK : N - 2 * f ≤ 128) (hf : N ≤ 4 * f + 1)
    (hS : encode z (N - 2 * f) N m = .ok stripes) (hc : Net.FifoReachable (add H z f m) faulty c)
    (hquiet : Net.FifoQuiescent (add H z f m) c) {p q : Fin N} (hp : p ∉ c.stopped) (hq : q ∉ c.stopped)
    (hloop : (c.loc p).phase = .loop) {msg : AddMsg} (hsent : Sent z f m q (c.loc q) p msg) :
    ⟨q, p, msg⟩ ∈ c.hist := by
  rcases (add_delivers (H := H) hz hK hf hS faulty).fifo_net_or_hist hc hq hsent with hnet | hhist
  · obtain ⟨e, rest, hold, hsrc, hdst⟩ := Net.exists_oldest hnet
    have hnone := hquiet.2 e rest hold (hdst ▸ hp)
    rw [show e.dst = p from hdst] at hnone
    simp [add, hloop] at hnone
  · exact hhist

/-- **Every running party that rests has forwarded its stripe.** -/
theorem sent_of_quiescent (hN : 3 * f + 1 ≤ N) (hz : z.IsMds (N - 2 * f) N) (hK : N - 2 * f ≤ 128) (hf : N ≤ 4 * f + 1)
    (hS : encode z (N - 2 * f) N m = .ok stripes) (hfaulty : faulty.card ≤ f)
    (hc : Net.FifoReachable (add H z f m) faulty c) (hquiet : Net.FifoQuiescent (add H z f m) c) {p : Fin N}
    (hp : p ∉ c.stopped) : (c.loc p).reconstructSent = true := by
  have hok := ((crash_preserved (H := H) hz hK hf hS).fifoRun hc).loc
  have hinput : ∀ q ∉ c.stopped, (c.loc q).phase ≠ .input := by
    intro q hq hin
    have hnone := hquiet.1 q hq ()
    simp [add, hin] at hnone
  obtain ⟨A, hdisp, hA⟩ := (hok p (Finset.notMem_empty p)).disp
  rw [hdisp.sent]
  rcases (hok p (Finset.notMem_empty p)).phase with hphase | hphase | hphase
  · exact absurd hphase (hinput p hp)
  · -- it has taken the `ADD_VAL` of every running party
    have hsub : Finset.univ.filter (· ∉ c.stopped) ⊆ A := by
      intro q hq
      have hq := (Finset.mem_filter.1 hq).2
      rw [hA]
      exact ⟨_, took_of_quiescent hz hK hf hS hc hquiet hp hq hphase (Or.inl ⟨hinput q hq, rfl⟩), rfl, rfl, rfl⟩
    have hcard := Quorum.card_univ_le c.stopped
    have hle := Finset.card_le_card hsub
    have hstop := (Finset.card_le_card hc.stopped_subset).trans hfaulty
    rw [Fintype.card_fin] at hcard
    omega
  · -- it has taken `2 f + 1` shares, and before each an `ADD_VAL` of the same party
    obtain ⟨P, hgot, hP⟩ := (hok p (Finset.notMem_empty p)).got
    have hsub : (P.map Prod.fst).toFinset ⊆ A := by
      intro q hq
      obtain ⟨e, he, rfl, hdst, -⟩ := (hP q).1 (List.mem_toFinset.1 hq)
      obtain ⟨e', he', hsrc', hdst', hkind⟩ := (add_leads hS).taken hc he
      rw [hA]
      exact ⟨e', he', hsrc', hdst'.trans hdst, hkind⟩
    have hle := Finset.card_le_card hsub
    have henough := hgot.enough hphase
    rw [List.toFinset_card_of_nodup hgot.nodup, List.length_map] at hle
    omega

theorem add_progress_of_le (hN : 3 * f + 1 ≤ N) (hz : z.IsMds (N - 2 * f) N) (hK : N - 2 * f ≤ 128)
    (hf : N ≤ 4 * f + 1) (hN' : N ≤ 256) : AddProgress H z N f m := by
  obtain ⟨stripes, hS, -⟩ := encode_isOk hz (by omega) (Nat.sub_le _ _) hN' m
  intro faulty hfaulty c hc
  have hholds := (crash_preserved (H := H) hz hK hf hS).fifoRun hc
  have hok := fun p => hholds.loc p (Finset.notMem_empty p)
  refine ⟨fun p _ e he => ?_, fun p _ q => ?_, fun e he _ sender value hmsg => ?_, fun hquiet p hp => ?_⟩
  · rcases (hok p).phase with h | h | h <;> rw [he] at h <;> cases h
  · have hle := add_rations.fifo_sentCount_le hc p q
    split at hle <;> omega
  · have hgenuine : Genuine z f m e := by
      rcases List.mem_append.1 he with he | he
      · exact hholds.net e he (Finset.notMem_empty _)
      · exact hholds.hist e he (Finset.notMem_empty _)
    rw [Genuine, hmsg] at hgenuine
    exact hgenuine.2
  · rcases (hok p).phase with hphase | hphase | hphase
    · have hnone := hquiet.1 p hp ()
      simp [add, hphase] at hnone
    · -- the shares of all running parties have come
      obtain ⟨P, hgot, hP⟩ := (hok p).got
      have hsub : Finset.univ.filter (· ∉ c.stopped) ⊆ (P.map Prod.fst).toFinset := by
        intro q hq
        have hq := (Finset.mem_filter.1 hq).2
        rw [List.mem_toFinset, hP]
        have hsent := sent_of_quiescent hN hz hK hf hS hfaulty hc hquiet hq
        exact ⟨_, took_of_quiescent hz hK hf hS hc hquiet hp hq hphase (Or.inr ⟨hsent, rfl⟩), rfl, rfl, rfl⟩
      have hcard := Quorum.card_univ_le c.stopped
      have hle := Finset.card_le_card hsub
      have hstop := (Finset.card_le_card hc.stopped_subset).trans hfaulty
      have hfew := hgot.few (Or.inr hphase)
      rw [Fintype.card_fin] at hcard
      rw [List.toFinset_card_of_nodup hgot.nodup, List.length_map] at hle
      omega
    · exact hphase

/-- zfec codes no more than 256 stripes. -/
theorem AddProgress.le_zfec (h : AddProgress H z N f m) (hN : 1 ≤ N) : N ≤ 256 := by
  by_contra hlt
  have hzero : ((add (N := N) H z f m).start.loc ⟨0, hN⟩).phase = .input := rfl
  cases hS : encode z (N - 2 * f) N m with
  | ok stripes => exact hlt ((encode_eq_ok _ _ _ _ _).1 hS).1.2.2
  | error e    =>
    have hwake : (add (N := N) H z f m).wake ⟨0, hN⟩ () ((add (N := N) H z f m).start.loc ⟨0, hN⟩) =
        some (start z f m ⟨0, hN⟩ ((add (N := N) H z f m).start.loc ⟨0, hN⟩)) := by
      simp only [add] at hzero ⊢
      rw [if_pos hzero]
    refine (h ∅ (Nat.zero_le _) _ (.step .start (.wake (Finset.notMem_empty _) hwake))).1 ⟨0, hN⟩ (Finset.notMem_empty _) e ?_
    simp [hS]

/-- With more than `4 f + 1` parties none returns, though every run comes to rest. -/
theorem AddProgress.le_parties (h : AddProgress H z N f m) : N ≤ 4 * f + 1 := by
  by_contra hlt
  have hN : 4 * f + 2 ≤ N := by omega
  have hstart : Net.FifoReachable (add (N := N) H z f m) ∅ ⟨(add H z f m).start, ∅⟩ := .start
  obtain ⟨c, hc, hquiet, hstop⟩ := add_bounded.exists_fifoQuiescent hstart
  have hrun : (⟨0, by omega⟩ : Fin N) ∉ c.stopped := by
    rw [hstop]
    exact Finset.notMem_empty _
  have hshort := ((short_preserved H z m hN).fifoRun hc).loc ⟨0, by omega⟩ (Finset.notMem_empty _)
  exact hshort.never _ ((h ∅ (Nat.zero_le _) c hc).2.2.2 hquiet _ hrun)

/-- **When `add` makes progress**: with at most `4 f + 1` parties, and no more than zfec codes for. -/
theorem add_progress_iff (H : Hash) (m : Text) (hN : 3 * f + 1 ≤ N) (hK : N - 2 * f ≤ 128)
    (hz : N ≤ 256 → z.IsMds (N - 2 * f) N) : AddProgress H z N f m ↔ N ≤ 4 * f + 1 ∧ N ≤ 256 := by
  constructor
  · intro h
    exact ⟨h.le_parties, h.le_zfec (by omega)⟩
  · rintro ⟨hf, hN'⟩
    exact add_progress_of_le hN (hz hN') hK hf hN'

theorem add_progress_iff_four : AddProgress sha256 reedSolomonEq 4 1 (.bytes []) ↔ 4 ≤ 5 ∧ 4 ≤ 256 :=
  add_progress_iff sha256 (.bytes []) (by decide) (by decide)
    (fun _ => reedSolomonEq_isMds (by decide) (by decide) (by decide))

/-- Two parties, none of them faulty: of two blocks each share is one, and the first share is decoded alone. -/
theorem add_progress_counterexample : ¬ AddProgress sha256 reedSolomonEq 2 0 (.bytes []) :=
  fun h => absurd h.le_parties (by decide)

end Progress

end Dpid
