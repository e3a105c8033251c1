import Dpid.NetStuck
import Dpid.Refresh0Decode
/-!
# Refresh0Total — what `refresh0` returns, and when all return

The variable `share` is the stripe until it has been sent and `""` from then on, so `""` is what every party returns
(`refresh0_result`).

A party that takes a `FINAL` before it has decoded raises: `data_signed` is unbound.  Of `N = 3 f + 1` good parties, each
holding its stripe, none raises while every `FINAL` waits until its receiver is ready, and all have returned once only
such messages are left (`refresh0_completes`).
-/
namespace Dpid
namespace Refresh0

open Refresh (SlotsGenuine decode_genuine)

variable {H : Hash} {z : Zfec} {key : RsaKey} {N f : Nat} {all : Bool} {target : List (Fin N)} {share : Fin N → Bytes}
  {proof : Fin N → List Bytes} {byz : Finset (Fin N)}

/-! ## The result -/

/-- The text of the list that `add` gives. -/
def proofText (L : List Bytes) : Bytes := (Text.str (strList L)).encode

/-- What a party holds of its share and of the list from `add`. -/
structure ResultOk (share : Bytes) (L : List Bytes) (s : Refresh0State N) : Prop where
  start : s.phase = .start → s.share = .bytes share
  loop : s.phase = .loop → s.share = .str [] ∧ s.proofStr = proofText L
  returned : ∀ sh pr, s.phase = .returned sh pr → sh = .str [] ∧ pr = proofText L

/-- A step in the loop keeps the share and the text, and goes on, raises or returns them. -/
structure Frame (s s' : Refresh0State N) : Prop where
  share : s'.share = s.share
  proofStr : s'.proofStr = s.proofStr
  readySent : s.readySent = true → s'.readySent = true
  phase : s'.phase = s.phase ∨ (∃ e, s'.phase = .raised e) ∨ s'.phase = .returned s.share s.proofStr

theorem onFinal_frame (s : Refresh0State N) (sender : Fin N) (sig : Bytes) :
    Frame s (onFinal H key f sender sig s) := by
  unfold onFinal
  split
  · exact ⟨rfl, rfl, id, Or.inr (Or.inl ⟨_, rfl⟩)⟩
  · split
    · exact ⟨rfl, rfl, id, Or.inl rfl⟩
    · split
      · exact ⟨rfl, rfl, id, Or.inl rfl⟩
      · simp only
        split
        · exact ⟨rfl, rfl, id, Or.inr (Or.inr rfl)⟩
        · exact ⟨rfl, rfl, id, Or.inl rfl⟩

theorem onVal_frame (s : Refresh0State N) (sender : Fin N) (target : Int) (val : Bytes) :
    Frame s (onVal H z key f sender target val s).1 := by
  rcases onVal_cases H z key f s sender target val with
    ⟨-, h⟩ | ⟨hr, ⟨e, -, h⟩ | ⟨-, h⟩ | ⟨-, -, h⟩⟩
  · rw [h]
    exact ⟨rfl, rfl, id, Or.inl rfl⟩
  · rw [h]
    exact ⟨rfl, rfl, id, Or.inr (Or.inl ⟨e, rfl⟩)⟩
  · rw [h]
    exact ⟨rfl, rfl, id, Or.inl rfl⟩
  · rw [h]
    rcases amplify_cases H z key f
      (s := addValue sender val { s with hashed := val :: s.hashed }) hr with ⟨-, h⟩ | ⟨-, ⟨e, -, h⟩ | ⟨m, -, h⟩⟩
    · rw [h]
      exact ⟨rfl, rfl, id, Or.inl rfl⟩
    · rw [h]
      exact ⟨rfl, rfl, fun _ => rfl, Or.inr (Or.inl ⟨e, rfl⟩)⟩
    · rw [h]
      rcases announce_cases H z key f m
        { addValue sender val { s with hashed := val :: s.hashed } with readySent := true, originalMsg := some m }
        with ⟨e, -, h⟩ | ⟨stripes, -, h⟩
      · rw [h]
        exact ⟨rfl, rfl, fun _ => rfl, Or.inr (Or.inl ⟨e, rfl⟩)⟩
      · rw [h]
        exact ⟨rfl, rfl, fun _ => rfl, Or.inl rfl⟩

theorem onMsg_frame (s : Refresh0State N) (sender : Fin N) (msg : Refresh0Msg) :
    Frame s (onMsg H z key f s sender msg).1 := by
  cases msg with
  | val target val => exact onVal_frame s sender target val
  | final sig      => exact onFinal_frame s sender sig

theorem onMsg_result {share : Bytes} {L : List Bytes} {s : Refresh0State N} (hok : ResultOk share L s)
    (hph : s.phase = .loop) {sender : Fin N} {msg : Refresh0Msg} :
    ResultOk share L (onMsg H z key f s sender msg).1 := by
  obtain ⟨hshare, hproof⟩ := hok.loop hph
  have hframe : Frame s (onMsg H z key f s sender msg).1 := onMsg_frame _ _ _
  refine ⟨fun hst => ?_, fun _ => ⟨hframe.share.trans hshare, hframe.proofStr.trans hproof⟩, fun sh pr hret => ?_⟩
  · rcases hframe.phase with h | ⟨_, h⟩ | h
    · exact absurd (hst.symm.trans (h.trans hph)) (by simp)
    · exact absurd (hst.symm.trans h) (by simp)
    · exact absurd (hst.symm.trans h) (by simp)
  · rcases hframe.phase with h | ⟨_, h⟩ | h
    · exact absurd (hret.symm.trans (h.trans hph)) (by simp)
    · exact absurd (hret.symm.trans h) (by simp)
    · cases hret.symm.trans h
      exact ⟨hshare, hproof⟩

/-- **The share is lost before the loop**, whoever is bad. -/
theorem refresh0_result_preserved (H : Hash) (z : Zfec) (key : RsaKey) (f : Nat) (all : Bool) (target : List (Fin N))
    (share : Fin N → Bytes) (proof : Fin N → List Bytes) (byz : Finset (Fin N)) :
    Net.Preserved (refresh0 H z key f all target share proof) byz (fun _ _ => True) (fun _ _ => True)
      (fun loc _ p => ResultOk (share p) (proof p) (loc p)) (fun _ _ => True) where
  grow_refl := fun _ => trivial
  grow_wake := fun _ _ _ _ _ _ => trivial
  grow_recv := fun _ _ _ _ _ _ _ => trivial
  local_mono := fun loc loc' hist hist' p _ _ _ hp hs => by rw [hp]; exact hs
  msg_mono := fun _ _ _ _ h => h
  init := fun p _ => ⟨fun _ => rfl, nofun, nofun⟩
  wake := by
    intro c p t s out loc' _ hp hL h hloc _
    refine ⟨?_, fun _ _ => trivial⟩
    rw [hloc, Function.update_self]
    rcases refresh0_wake h with ⟨-, -, hs⟩ | ⟨-, -, rfl, -⟩
    · rw [Prod.mk.injEq] at hs
      obtain ⟨rfl, -⟩ := hs
      exact ⟨nofun, nofun, nofun⟩
    · exact ⟨nofun, fun _ => ⟨rfl, rfl⟩, nofun⟩
  recv := by
    intro c e s out loc' _ hp hL _ h hloc _
    refine ⟨?_, fun _ _ => trivial⟩
    rw [hloc, Function.update_self]
    obtain ⟨hph, hs⟩ := refresh0_recv h
    rw [Prod.mk.injEq] at hs
    obtain ⟨rfl, -⟩ := hs
    exact onMsg_result (hL e.dst hp) hph

/-! ## Good parties -/

/-- A `FINAL` is taken by a party that is ready. -/
def FinalsWait (c : Net.Conf (Fin N) (Refresh0State N) Refresh0Msg) : Net.Label (Fin N) Thread Refresh0Msg → Prop
  | .recv ⟨_, dst, .final _⟩ => (c.loc dst).readySent = true
  | _                        => True

/-- The code at `N = 3 f + 1` and the stripes of a message. -/
structure Encoded (z : Zfec) (N f : Nat) (m : Text) (S : List Bytes) : Prop where
  size : N = 3 * f + 1
  mds : z.IsMds (N - 2 * f) N
  stripes : encode z (N - 2 * f) N m = .ok S

/-- The party has taken the message, or no longer waits for it. -/
def Taken (s : Refresh0State N) (e : Net.Envelope (Fin N) Refresh0Msg) : Prop :=
  match e.msg with
  | .val _ _ => s.readySent = true ∨ e.src ∈ s.valuesSenders
  | .final _ => e.src ∈ s.readySenders ∨ ∃ sh pr, s.phase = .returned sh pr

/-- The key of `ready` under which good signatures are counted. -/
def listKey (H : Hash) (S : List Bytes) : Text := .str (reprBytes (H (listText H S)))

/-- The invariant of a party when all are good. -/
structure TotalOk (H : Hash) (f : Nat) (S : List Bytes) (hist : List (Net.Envelope (Fin N) Refresh0Msg)) (p : Fin N)
    (s : Refresh0State N) : Prop where
  filled : Filled (fun k b => S[k]? = some b) s
  proof : s.phase = .loop → s.proof = hashes H S ∧ s.proofHash = H (listText H S)
  not_raised : ∀ e, s.phase ≠ .raised e
  unready : s.readySent = false → s.counter < f + 1 ∧ ∀ sh pr, s.phase ≠ .returned sh pr
  signed : s.readySent = true → s.dataSigned = some (H (listText H S))
  ready : ∀ t, s.ready t = if t = listKey H S then s.readySenders else ∅
  few : (∀ sh pr, s.phase ≠ .returned sh pr) → s.readySenders.card < f + 1
  taken : ∀ e ∈ hist, e.dst = p → Taken s e

/-- A message of a good party. -/
def GoodMsg (H : Hash) (key : RsaKey) (S : List Bytes) (e : Net.Envelope (Fin N) Refresh0Msg) : Prop :=
  e.msg = .val (e.src : Nat) (S.getD e.src []) ∨ e.msg = .final (signData H key (H (listText H S)))

section Step

variable {m : Text} {S : List Bytes} {hist : List (Net.Envelope (Fin N) Refresh0Msg)} {s : Refresh0State N}
  {e : Net.Envelope (Fin N) Refresh0Msg}

theorem Encoded.length (h : Encoded z N f m S) : S.length = N := encode_length h.mds h.stripes

theorem Encoded.getElem? (h : Encoded z N f m S) (q : Fin N) : S[(q : Nat)]? = some (S.getD q []) := by
  have hq : (q : Nat) < S.length := h.length ▸ q.isLt
  rw [List.getD_eq_getElem?_getD, List.getElem?_eq_getElem hq]
  rfl

/-- A good party's stripe has the hash listed at its index. -/
theorem Encoded.listed (h : Encoded z N f m S) (q : Fin N) : Listed H (hashes H S) (q : Nat) (S.getD q []) := by
  have hq : (q : Nat) < (hashes H S).length := by rw [hashes_length, h.length]; exact q.isLt
  have hget : (hashes H S).getD q [] = H (S.getD q []) := by
    rw [List.getD_eq_getElem?_getD, hashes_getElem?, h.getElem? q]
    rfl
  exact ⟨q, pyIndex_natCast hq, hget.symm⟩

/-- Slots enough that hold stripes decode to the message. -/
theorem Encoded.decode (h : Encoded z N f m S) (hs : Filled (fun k b => S[k]? = some b) s) (hf : f + 1 ≤ s.counter) :
    decode z (N - 2 * f) N s.values = .ok m.encode := by
  have hbound := ((encode_eq_ok _ _ _ _ _).1 h.stripes).1
  have hN := h.size
  have hgenuine : SlotsGenuine S s.values := ⟨hs.length.trans h.length.symm, hs.stored⟩
  exact decode_genuine h.mds h.stripes (by omega) hgenuine (by rw [hs.filled]; omega)

/-- **A stored stripe keeps the invariant**: a party that is ready signs the list. -/
theorem amplify_total (h : Encoded z N f m S) (hs : TotalOk H f S hist e.dst s) (hloop : s.phase = .loop)
    (hr : s.readySent = false) (hnew : e.src ∉ s.valuesSenders) (hmsg : e.msg = .val (e.src : Nat) (S.getD e.src [])) :
    TotalOk H f S (e :: hist) e.dst
      (amplify H z key f (addValue e.src (S.getD e.src []) { s with hashed := S.getD e.src [] :: s.hashed })).1 := by
  have hbase : Filled (fun k b => S[k]? = some b) { s with hashed := S.getD e.src [] :: s.hashed } := { hs.filled with }
  have hfilled := hbase.addValue hnew (h.getElem? e.src)
  have hnret : ∀ sh pr, s.phase ≠ .returned sh pr := fun sh pr => by rw [hloop]; nofun
  have htaken : ∀ t : Refresh0State N, t.phase = s.phase → t.readySenders = s.readySenders →
      t.readySent = true ∨ t.valuesSenders = insert e.src s.valuesSenders → ∀ x ∈ e :: hist, x.dst = e.dst → Taken t x := by
    intro t hph hrs ht x hx hdst
    unfold Taken
    rcases List.mem_cons.1 hx with rfl | hx
    · rw [hmsg]
      refine ht.imp_right (fun hv => ?_)
      rw [hv]
      exact Finset.mem_insert_self _ _
    · have hold := hs.taken x hx hdst
      unfold Taken at hold
      split at hold
      · refine ht.imp_right (fun hv => ?_)
        rw [hr] at hold
        rw [hv]
        exact Finset.mem_insert_of_mem (hold.resolve_left Bool.false_ne_true)
      · rw [hrs, hph]
        exact hold
  rcases amplify_cases H z key f
    (s := addValue e.src (S.getD e.src []) { s with hashed := S.getD e.src [] :: s.hashed }) hr with
    ⟨hlt, h'⟩ | ⟨hf, ⟨err, he, -⟩ | ⟨m', hm', h'⟩⟩
  · rw [h']
    exact ⟨hfilled, hs.proof, hs.not_raised, fun _ => ⟨hlt, hnret⟩, hs.signed, hs.ready, hs.few,
      htaken _ rfl rfl (Or.inr rfl)⟩
  · exact absurd (he.symm.trans (h.decode hfilled hf)) (by simp)
  · have hm : m' = m.encode := Except.ok.inj (hm'.symm.trans (h.decode hfilled hf))
    have hS : encode z (N - 2 * f) N (.bytes m') = .ok S := by rw [hm, encode_bytes]; exact h.stripes
    rw [h']
    rcases announce_cases H z key f m'
      { addValue e.src (S.getD e.src []) { s with hashed := S.getD e.src [] :: s.hashed } with
        readySent := true, originalMsg := some m' } with ⟨err, herr, -⟩ | ⟨stripes, hstripes, h''⟩
    · exact absurd (herr.symm.trans hS) (by simp)
    · obtain rfl := Except.ok.inj (hstripes.symm.trans hS)
      rw [h'']
      exact ⟨{ hfilled with }, hs.proof, hs.not_raised, fun hr' => absurd hr' (by simp), fun _ => rfl, hs.ready, hs.few,
        htaken _ rfl rfl (Or.inl rfl)⟩

/-- **A `VAL` of a good party.** -/
theorem onVal_total (h : Encoded z N f m S) (hs : TotalOk H f S hist e.dst s) (hloop : s.phase = .loop)
    (hmsg : e.msg = .val (e.src : Nat) (S.getD e.src [])) :
    TotalOk H f S (e :: hist) e.dst (onVal H z key f e.src (e.src : Nat) (S.getD e.src []) s).1 := by
  have hlisted : Listed H s.proof (e.src : Nat) (S.getD e.src []) := by rw [(hs.proof hloop).1]; exact h.listed e.src
  have hold : ∀ t : Refresh0State N, t.phase = s.phase → t.readySenders = s.readySenders → t.readySent = s.readySent →
      t.valuesSenders = s.valuesSenders → s.readySent = true ∨ e.src ∈ s.valuesSenders →
      ∀ x ∈ e :: hist, x.dst = e.dst → Taken t x := by
    intro t hph hrs hr hv ht x hx hdst
    unfold Taken
    rw [hph, hrs, hr, hv]
    rcases List.mem_cons.1 hx with rfl | hx
    · rw [hmsg]
      exact ht
    · exact hs.taken x hx hdst
  rcases onVal_cases H z key f s e.src (e.src : Nat) (S.getD e.src []) with
    ⟨hr, h'⟩ | ⟨hr, ⟨err, herr, -⟩ | ⟨hno, h'⟩ | ⟨-, hnew, h'⟩⟩
  · rw [h']
    exact { hs with taken := hold s rfl rfl rfl rfl (Or.inl hr) }
  · obtain ⟨k, hk, -⟩ := hlisted
    exact absurd (herr.symm.trans hk) (by simp)
  · rw [h']
    exact ⟨{ hs.filled with }, hs.proof, hs.not_raised, hs.unready, hs.signed, hs.ready, hs.few,
      hold _ rfl rfl rfl rfl (Or.inr (hno.resolve_left (fun hn => hn hlisted)))⟩
  · rw [h']
    exact amplify_total h hs hloop hr hnew hmsg

/-- **A `FINAL` of a good party**, taken by one that is ready. -/
theorem onFinal_total (hkey : key.Lawful) (hs : TotalOk H f S hist e.dst s) (hloop : s.phase = .loop)
    (hr : s.readySent = true) (hmsg : e.msg = .final (signData H key (H (listText H S)))) :
    TotalOk H f S (e :: hist) e.dst (onFinal H key f e.src (signData H key (H (listText H S))) s) := by
  have hhash := (hs.proof hloop).2
  have hid : identifier s = listKey H S := by rw [identifier, hhash]; rfl
  have hverify : verifySignature H key s.proofHash (signData H key (H (listText H S))) = true := by
    rw [hhash]
    exact hkey _
  have hempty : s.ready (.bytes (H (listText H S))) = ∅ := by rw [hs.ready, if_neg (by simp [listKey])]
  have hfinal : ∀ t : Refresh0State N, t.readySent = s.readySent → t.valuesSenders = s.valuesSenders →
      (∀ q ∈ s.readySenders, q ∈ t.readySenders) → e.src ∈ t.readySenders → ∀ x ∈ e :: hist, x.dst = e.dst → Taken t x := by
    intro t hr' hv hsub hmem x hx hdst
    unfold Taken
    rcases List.mem_cons.1 hx with rfl | hx
    · rw [hmsg]
      exact Or.inl hmem
    · have hold := hs.taken x hx hdst
      unfold Taken at hold
      split at hold
      · rw [hr', hv]
        exact hold
      · refine Or.inl (hsub _ (hold.resolve_right ?_))
        rintro ⟨sh, pr, hret⟩
        rw [hloop] at hret
        cases hret
  unfold onFinal
  rw [hs.signed hr]
  simp only [hempty, Finset.notMem_empty, false_or, hverify, Bool.true_eq_false, if_false]
  split
  · rename_i hin
    exact { hs with taken := hfinal s rfl rfl (fun _ hq => hq) hin }
  · have hready : ∀ t, Function.update s.ready (identifier s) (insert e.src (s.ready (identifier s))) t =
        if t = listKey H S then insert e.src s.readySenders else ∅ := by
      intro t
      rw [hid]
      by_cases ht : t = listKey H S
      · rw [ht, Function.update_self, if_pos rfl, hs.ready, if_pos rfl]
      · rw [Function.update_of_ne ht, if_neg ht, hs.ready, if_neg ht]
    have hcard : ((addReady e.src (identifier s) s).ready (identifier (addReady e.src (identifier s) s))) =
        insert e.src s.readySenders := by
      have h := hready (identifier s)
      rw [hid, if_pos rfl] at h
      rw [← h, ← hid]
      rfl
    rw [hcard]
    have hsub : ∀ q ∈ s.readySenders, q ∈ insert e.src s.readySenders := fun q hq => Finset.mem_insert_of_mem hq
    split
    · exact ⟨{ hs.filled with }, nofun, nofun, fun hr' => absurd (hr.symm.trans hr') (by simp), hs.signed, hready,
        fun hn => absurd rfl (hn _ _), hfinal _ rfl rfl hsub (Finset.mem_insert_self _ _)⟩
    · rename_i hlt
      exact ⟨{ hs.filled with }, hs.proof, hs.not_raised, fun hr' => absurd (hr.symm.trans hr') (by simp), hs.signed,
        hready, fun _ => Nat.lt_of_not_le hlt, hfinal _ rfl rfl hsub (Finset.mem_insert_self _ _)⟩

end Step

/-! ## Runs -/

section Runs

variable {m : Text} {S : List Bytes}

/-- All parties good, each with its stripe and the list of the stripes' hashes. -/
def shared (H : Hash) (z : Zfec) (key : RsaKey) (f : Nat) (target : List (Fin N)) (S : List Bytes) :
    Net.Proto (Fin N) Thread (Refresh0State N) Refresh0Msg :=
  refresh0 H z key f true target (fun p => S.getD p []) (fun _ => hashes H S)

theorem onMsg_total (h : Encoded z N f m S) (hkey : key.Lawful) {s : Refresh0State N}
    {hist : List (Net.Envelope (Fin N) Refresh0Msg)} {e : Net.Envelope (Fin N) Refresh0Msg}
    (hs : TotalOk H f S hist e.dst s) (hloop : s.phase = .loop) (hmsg : GoodMsg H key S e)
    (hready : ∀ sig, e.msg = .final sig → s.readySent = true) :
    TotalOk H f S (e :: hist) e.dst (onMsg H z key f s e.src e.msg).1 := by
  rcases hmsg with hmsg | hmsg
  · rw [hmsg]
    exact onVal_total h hs hloop hmsg
  · rw [hmsg]
    exact onFinal_total hkey hs hloop (hready _ hmsg) hmsg

/-- What a good party signs is the list of the stripes' hashes. -/
theorem onMsg_goodMsg {s : Refresh0State N} {p sender : Fin N} {msg : Refresh0Msg}
    {hist : List (Net.Envelope (Fin N) Refresh0Msg)} (hs : TotalOk H f S hist p (onMsg H z key f s sender msg).1) :
    ∀ o ∈ (onMsg H z key f s sender msg).2, GoodMsg H key S ⟨p, o.1, o.2⟩ := by
  intro o ho
  rcases onMsg_signs H z key f s sender msg with ⟨-, h⟩ | ⟨d, hd, hr, -, h⟩
  · rw [h] at ho
    exact absurd ho List.not_mem_nil
  · rw [h] at ho
    obtain ⟨j, -, rfl⟩ := List.mem_map.1 ho
    obtain rfl := Option.some.inj ((hs.signed hr).symm.trans hd)
    exact Or.inr rfl

/-- **The invariant of `refresh0` when all are good** and each `FINAL` waits. -/
theorem refresh0_total (h : Encoded z N f m S) (hkey : key.Lawful) (target : List (Fin N)) :
    Net.Preserved (shared H z key f target S) ∅ FinalsWait (fun _ _ => True)
      (fun loc hist p => ResultOk (S.getD p []) (hashes H S) (loc p) ∧ TotalOk H f S hist p (loc p))
      (fun _ e => GoodMsg H key S e) where
  grow_refl := fun _ => trivial
  grow_wake := fun _ _ _ _ _ _ => trivial
  grow_recv := fun _ _ _ _ _ _ _ => trivial
  local_mono := by
    intro loc loc' hist hist' p _ _ hh hp hs
    rw [hp]
    exact ⟨hs.1, { hs.2 with taken := fun e he hdst => hs.2.taken e (hh e he hdst) hdst }⟩
  msg_mono := fun _ _ _ _ h => h
  init := by
    intro p _
    refine ⟨⟨fun _ => rfl, nofun, nofun⟩, init_filled _ _, nofun, nofun, fun _ => ⟨Nat.succ_pos f, nofun⟩, nofun,
      fun t => ?_, fun _ => Nat.succ_pos f, nofun⟩
    split <;> rfl
  wake := by
    intro c p t s out loc' _ hp hL hw hloc _
    obtain ⟨hres, hok⟩ := hL p hp
    rw [hloc, Function.update_self]
    rcases refresh0_wake hw with ⟨-, hph, hs⟩ | ⟨-, hph, rfl, rfl⟩
    · rw [Prod.mk.injEq] at hs
      obtain ⟨rfl, rfl⟩ := hs
      have htaken : ∀ e ∈ c.hist, e.dst = p → Taken { c.loc p with phase := .waiting } e := by
        intro e he hdst
        have hold := hok.taken e he hdst
        unfold Taken at hold ⊢
        split at hold
        · exact hold
        · rcases hold with hin | ⟨sh, pr, hret⟩
          · exact Or.inl hin
          · rw [hph] at hret
            cases hret
      refine ⟨⟨⟨nofun, nofun, nofun⟩, { hok.filled with }, nofun, nofun, fun hr => ⟨(hok.unready hr).1, nofun⟩, hok.signed,
        hok.ready, fun _ => hok.few (by rw [hph]; nofun), htaken⟩, fun o ho => ?_⟩
      obtain ⟨i, -, rfl⟩ := List.mem_map.1 ho
      refine Or.inl ?_
      show Refresh0Msg.val _ (c.loc p).share.encode = _
      rw [hres.start hph]
      rfl
    · have htaken : ∀ e ∈ c.hist, e.dst = p → Taken (takeProof H (hashes H S) (c.loc p)) e := by
        intro e he hdst
        have hold := hok.taken e he hdst
        unfold Taken at hold ⊢
        split at hold
        · exact hold
        · rcases hold with hin | ⟨sh, pr, hret⟩
          · exact Or.inl hin
          · rw [hph] at hret
            cases hret
      exact ⟨⟨⟨nofun, fun _ => ⟨rfl, rfl⟩, nofun⟩, { hok.filled with }, fun _ => ⟨rfl, rfl⟩, nofun,
        fun hr => ⟨(hok.unready hr).1, nofun⟩, hok.signed, hok.ready, fun _ => hok.few (by rw [hph]; nofun), htaken⟩,
        fun o ho => absurd ho List.not_mem_nil⟩
  recv := by
    intro c e s out loc' hwait hp hL hW hr hloc _
    obtain ⟨hph, hs⟩ := refresh0_recv hr
    rw [Prod.mk.injEq] at hs
    obtain ⟨rfl, rfl⟩ := hs
    rw [hloc, Function.update_self]
    obtain ⟨hres, hok⟩ := hL e.dst hp
    have htotal : TotalOk H f S (e :: c.hist) e.dst (onMsg H z key f (c.loc e.dst) e.src e.msg).1 := by
      refine onMsg_total h hkey hok hph (hW (Finset.notMem_empty _)) (fun sig hsig => ?_)
      obtain ⟨src, dst, msg⟩ := e
      subst hsig
      exact hwait
    exact ⟨⟨onMsg_result hres hph, htotal⟩, onMsg_goodMsg htotal⟩

/-- What a party has sent. -/
def Sent (H : Hash) (key : RsaKey) (S : List Bytes) (p : Fin N) (s : Refresh0State N) (_ : Fin N) (msg : Refresh0Msg) :
    Prop :=
  (s.phase ≠ .start ∧ msg = .val (p : Nat) (S.getD p [])) ∨
    ∃ d, s.dataSigned = some d ∧ msg = .final (signData H key d)

theorem refresh0_delivers (H : Hash) (z : Zfec) (key : RsaKey) (f : Nat) (target : List (Fin N)) (S : List Bytes) (faulty : Finset (Fin N)) :
    Net.Delivers (shared H z key f target S) faulty (Sent H key S) where
  init := by
    rintro p q msg (⟨hs, -⟩ | ⟨d, hd, -⟩)
    · exact hs rfl
    · cases hd
  wake := by
    intro c p t s out q msg hc hw hs
    have hres := ((refresh0_result_preserved H z key f true target (fun p => S.getD p []) (fun _ => hashes H S) ∅).crashRun
      hc).loc p (Finset.notMem_empty p)
    rcases refresh0_wake hw with ⟨-, hph, hout⟩ | ⟨-, hph, rfl, rfl⟩
    · rw [Prod.mk.injEq] at hout
      obtain ⟨rfl, rfl⟩ := hout
      rcases hs with ⟨-, rfl⟩ | hs
      · refine Or.inr (List.mem_map.2 ⟨q, List.mem_finRange q, ?_⟩)
        rw [hres.start hph]
        rfl
      · exact Or.inl (Or.inr hs)
    · rcases hs with ⟨-, rfl⟩ | hs
      · exact Or.inl (Or.inl ⟨by rw [hph]; nofun, rfl⟩)
      · exact Or.inl (Or.inr hs)
  recv := by
    intro c e s out q msg _ _ hr hs
    obtain ⟨hph, hout⟩ := refresh0_recv hr
    rw [Prod.mk.injEq] at hout
    obtain ⟨rfl, rfl⟩ := hout
    rcases hs with ⟨-, rfl⟩ | ⟨d, hd, rfl⟩
    · exact Or.inl (Or.inl ⟨by rw [hph]; nofun, rfl⟩)
    · rcases onMsg_signs H z key f (c.loc e.dst) e.src e.msg with
        ⟨hold, -⟩ | ⟨d', hd', -, -, hsends⟩
      · exact Or.inl (Or.inr ⟨d, hold.symm.trans hd, rfl⟩)
      · obtain rfl := Option.some.inj (hd'.symm.trans hd)
        refine Or.inr ?_
        rw [hsends]
        exact List.mem_map.2 ⟨q, List.mem_finRange q, rfl⟩

/-- **Stuck while every `FINAL` waits, all have returned.** -/
theorem returned_of_stuck (h : Encoded z N f m S) (hkey : key.Lawful) {target : List (Fin N)}
    {c : Net.Conf (Fin N) (Refresh0State N) Refresh0Msg} (hc : Net.Run (shared H z key f target S) ∅ FinalsWait c)
    (hstuck : Net.Stuck (shared H z key f target S) ∅ FinalsWait c) (p : Fin N) :
    ∃ sh pr, (c.loc p).phase = .returned sh pr := by
  have hok : ∀ q, TotalOk H f S c.hist q (c.loc q) := fun q =>
    (((refresh0_total h hkey target).run hc).loc q (Finset.notMem_empty q)).2
  have hdelivers := refresh0_delivers H z key f target S ∅
  have hN := h.size
  have hloop : ∀ q, (c.loc q).phase = .loop ∨ ∃ sh pr, (c.loc q).phase = .returned sh pr := by
    intro q
    cases hph : (c.loc q).phase with
    | start =>
      have := hstuck.wake (Finset.notMem_empty q) (t := .send) trivial
      simp [shared, refresh0, hph] at this
    | waiting =>
      have := hstuck.wake (Finset.notMem_empty q) (t := .add) trivial
      simp [shared, refresh0, hph] at this
    | loop           => exact Or.inl rfl
    | returned sh pr => exact Or.inr ⟨sh, pr, rfl⟩
    | raised e       => exact absurd hph ((hok q).not_raised e)
  have htake : ∀ q r (msg : Refresh0Msg), (c.loc q).phase = .loop →
      (shared H z key f target S).recv q (c.loc q) r msg ≠ none := by
    intro q r msg hph
    simp [shared, refresh0, hph]
  -- a party in its loop has taken every stripe, and is ready
  have hready : ∀ q, (c.loc q).readySent = true := by
    intro q
    by_contra hr
    have hr : (c.loc q).readySent = false := by simpa using hr
    obtain ⟨hfew, hnret⟩ := (hok q).unready hr
    have hph : (c.loc q).phase = .loop := by
      rcases hloop q with h | ⟨sh, pr, hret⟩
      · exact h
      · exact absurd hret (hnret sh pr)
    have hall : ∀ r, r ∈ (c.loc q).valuesSenders := by
      intro r
      have hsent : Sent H key S r (c.loc r) q (.val (r : Nat) (S.getD r [])) := by
        refine Or.inl ⟨?_, rfl⟩
        rcases hloop r with h | ⟨sh, pr, h⟩
        · simp [h]
        · simp [h]
      have ht : Taken (c.loc q) _ := (hok q).taken _ (hdelivers.of_stuck hc hstuck hsent trivial (htake q r _ hph)) rfl
      exact ht.resolve_left (by rw [hr]; exact Bool.false_ne_true)
    have hcard : (c.loc q).valuesSenders.card = N := by
      rw [Finset.eq_univ_iff_forall.2 hall, Finset.card_univ, Fintype.card_fin]
    have := (hok q).filled.card
    omega
  -- so it has taken every signature
  refine (hloop p).resolve_left (fun hph => ?_)
  have hnret : ∀ sh pr, (c.loc p).phase ≠ .returned sh pr := fun sh pr => by simp [hph]
  have hall : ∀ r, r ∈ (c.loc p).readySenders := by
    intro r
    have hsent : Sent H key S r (c.loc r) p (.final (signData H key (H (listText H S)))) :=
      Or.inr ⟨_, (hok r).signed (hready r), rfl⟩
    have ht : Taken (c.loc p) _ := (hok p).taken _ (hdelivers.of_stuck hc hstuck hsent (hready p) (htake p r _ hph)) rfl
    rcases ht with hin | ⟨sh, pr, hret⟩
    · exact hin
    · exact absurd hret (hnret sh pr)
  have hcard : (c.loc p).readySenders.card = N := by
    rw [Finset.eq_univ_iff_forall.2 hall, Finset.card_univ, Fintype.card_fin]
  have := (hok p).few hnret
  omega

/-- What a party may still send, and its steps before the loop. -/
def fuel (s : Refresh0State N) : Nat :=
  match s.phase with
  | .start   => 2 * N + 3
  | .waiting => N + 2
  | .loop    => if s.readySent then 0 else N
  | _        => 0

theorem refresh0_bounded (target : List (Fin N)) (S : List Bytes) : Net.Bounded (shared H z key f target S) fuel where
  wake := by
    intro p t s s' out hw
    rcases refresh0_wake hw with ⟨-, hph, hs⟩ | ⟨-, hph, rfl, rfl⟩
    · rw [Prod.mk.injEq] at hs
      obtain ⟨rfl, rfl⟩ := hs
      simp only [fuel, hph, sendShare, List.length_map, if_true, List.length_finRange]
      omega
    · cases hr : s.readySent <;> simp [fuel, hph, takeProof, hr]
  recv := by
    intro p s q msg s' out hr
    obtain ⟨hph, hs⟩ := refresh0_recv hr
    rw [Prod.mk.injEq] at hs
    obtain ⟨rfl, rfl⟩ := hs
    have hframe : Frame s (onMsg H z key f s q msg).1 := onMsg_frame _ _ _
    have hfuel : fuel (onMsg H z key f s q msg).1 ≤ fuel s ∧
        ((onMsg H z key f s q msg).1.readySent = true → fuel (onMsg H z key f s q msg).1 = 0) := by
      rcases hframe.phase with h | ⟨_, h⟩ | h
      · cases hr : s.readySent with
        | true  => simp [fuel, h, hph, hframe.readySent hr]
        | false => cases hr' : (onMsg H z key f s q msg).1.readySent <;> simp [fuel, h, hph, hr, hr']
      · simp [fuel, h]
      · simp [fuel, h]
    rcases onMsg_signs H z key f s q msg with ⟨-, h⟩ | ⟨d, -, hr', hr, h⟩
    · rw [h, List.length_nil]
      exact hfuel.1
    · rw [h, hfuel.2 hr', List.length_map, List.length_finRange]
      simp [fuel, hph, hr]

end Runs

end Refresh0

open Refresh0

section CompletionResult

variable {H : Hash} {z : Zfec} {key : RsaKey} {N f : Nat} {all : Bool} {target : List (Fin N)} {share : Fin N → Bytes}
  {proof : Fin N → List Bytes} {byz : Finset (Fin N)} {c : Net.Conf (Fin N) (Refresh0State N) Refresh0Msg}

/-- **Good parties raise nothing and all return**, while every `FINAL` waits until its receiver is ready. -/
theorem refresh0_completes (hN : N = 3 * f + 1) (hkey : key.Lawful) (hz : z.IsMds (N - 2 * f) N) {m : Text}
    {S : List Bytes} (hS : encode z (N - 2 * f) N m = .ok S)
    (hc : Net.Run (refresh0 H z key f true target (fun p => S.getD p []) (fun _ => hashes H S)) ∅ FinalsWait c) :
    (∀ p e, (c.loc p).phase ≠ .raised e) ∧
    (Net.Stuck (refresh0 H z key f true target (fun p => S.getD p []) (fun _ => hashes H S)) ∅ FinalsWait c →
      ∀ p, ∃ sh pr, (c.loc p).phase = .returned sh pr) :=
  ⟨fun p => (((refresh0_total ⟨hN, hz, hS⟩ hkey target).run hc).loc p (Finset.notMem_empty p)).2.not_raised,
    fun hstuck => returned_of_stuck ⟨hN, hz, hS⟩ hkey hc hstuck⟩

/-- Four parties run until they are stuck. -/
theorem refresh0_completes_four : ∃ c, Net.Run fourRefresh0 ∅ FinalsWait c ∧ Net.Stuck fourRefresh0 ∅ FinalsWait c ∧
    ∀ p, ∃ sh pr, (c.loc p).phase = .returned sh pr := by
  have hbounded : Net.Bounded fourRefresh0 fuel := refresh0_bounded [] stripesOfTwo
  obtain ⟨c, hc, hstuck⟩ := hbounded.exists_stuck (Net.Run.start : Net.Run fourRefresh0 ∅ FinalsWait _)
  exact ⟨c, hc, hstuck, (refresh0_completes rfl plainKey_lawful zfecTwo_isMds encode_two hc).2 hstuck⟩

/-- Party 1 is ready with its own stripe and party 2's; party 0 takes its `FINAL` before any `VAL`, and raises. -/
theorem refresh0_completes_counterexample : ¬ ∀ c, Net.Reachable fourRefresh0 ∅ c →
    (∀ p e, (c.loc p).phase ≠ .raised e) ∧
    (Net.Stuck fourRefresh0 ∅ (fun _ _ => True) c → ∀ p, ∃ sh pr, (c.loc p).phase = .returned sh pr) := by
  intro h
  have hrun : (Net.exec fourRefresh0 ∅ (fun _ _ => true) [.wake 1 .send, .wake 1 .add, .recv 1, .wake 2 .send, .recv 1,
      .wake 0 .send, .wake 0 .add, .recv 4] fourRefresh0.start).any
        (fun c => decide ((c.loc 0).phase = .raised .unboundLocalError)) = true := by
    decide +kernel
  obtain ⟨c, hc, hraised⟩ := Net.exists_run_of_exec hrun (fun _ _ _ => trivial)
  exact (h c hc).1 0 _ (of_decide_eq_true hraised)

/-- **No good party returns its stripe**: the first component is `""`, the second the text from `add`. -/
theorem refresh0_result {S : List Bytes}
    (hc : Net.Reachable (refresh0 H z key f all target share (fun _ => hashes H S)) byz c) {p : Fin N} (hp : p ∉ byz)
    {sh : Text} {pr : Bytes} (hret : (c.loc p).phase = .returned sh pr) :
    sh = .str [] ∧ pr = proofText (hashes H S) ∧ ¬ (sh = .bytes (S.getD p []) ∧ pr = proofText (hashes H S) ∧
      (hashes H S)[(p : Nat)]? = some (H sh.encode)) := by
  obtain ⟨rfl, rfl⟩ := (((refresh0_result_preserved H z key f all target share _ byz).run hc).loc p hp).returned sh pr hret
  refine ⟨rfl, rfl, ?_⟩
  rintro ⟨hsh, -⟩
  cases hsh

/-- Party 2 of four good parties that have run until they are stuck. -/
theorem refresh0_result_four : ∃ c sh pr, Net.Reachable fourRefresh0 ∅ c ∧ (c.loc 2).phase = .returned sh pr ∧
    sh = .str [] ∧ pr = proofText (hashes sha256 stripesOfTwo) ∧ ¬ (sh = .bytes [4] ∧
      pr = proofText (hashes sha256 stripesOfTwo) ∧ (hashes sha256 stripesOfTwo)[2]? = some (sha256 sh.encode)) := by
  have hbounded : Net.Bounded fourRefresh0 fuel := refresh0_bounded [] stripesOfTwo
  obtain ⟨c, hc, hstuck⟩ := hbounded.exists_stuck (Net.Run.start : Net.Run fourRefresh0 ∅ FinalsWait _)
  obtain ⟨sh, pr, hret⟩ := returned_of_stuck ⟨rfl, zfecTwo_isMds, encode_two⟩ plainKey_lawful hc hstuck 2
  exact ⟨c, sh, pr, hc.reachable, hret, refresh0_result hc.reachable (Finset.notMem_empty 2) hret⟩

/-- The same run: party 2 returns, and not its stripe. -/
theorem refresh0_result_counterexample : ¬ ∀ c, Net.Reachable fourRefresh0 ∅ c → ∀ (p : Fin 4) sh pr,
    (c.loc p).phase = .returned sh pr → sh = .bytes (stripesOfTwo.getD p []) ∧
      pr = proofText (hashes sha256 stripesOfTwo) ∧
      (hashes sha256 stripesOfTwo)[(p : Nat)]? = some (sha256 sh.encode) := by
  intro h
  have hbounded : Net.Bounded fourRefresh0 fuel := refresh0_bounded [] stripesOfTwo
  obtain ⟨c, hc, hstuck⟩ := hbounded.exists_stuck (Net.Run.start : Net.Run fourRefresh0 ∅ FinalsWait _)
  obtain ⟨sh, pr, hret⟩ := returned_of_stuck ⟨rfl, zfecTwo_isMds, encode_two⟩ plainKey_lawful hc hstuck 2
  have hsh := ((((refresh0_total ⟨rfl, zfecTwo_isMds, encode_two⟩ plainKey_lawful []).run hc).loc 2
    (Finset.notMem_empty 2)).1.returned sh pr hret).1
  exact nomatch hsh.symm.trans (h c hc.reachable 2 sh pr hret).1

end CompletionResult

end Dpid
