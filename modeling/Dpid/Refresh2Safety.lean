import Dpid.Refresh2Inv
/-!
# Refresh2Safety — what the leader recovers and what a party returns

While every entry that the leader accepts is the stripe of its index, what it decodes is the message
(`refresh2_recovers`).  What an honest leader sends verifies against its commitment; while a party takes from bad
channels only lists the leader could have sent, it returns its interval, verified (`refresh2_authentic`).
-/
namespace Dpid
namespace Refresh

variable {E : Curve} {H : Hash} {z : Zfec} {N size : Nat} {leader : Fin N} {share : Fin N → List Entry}
  {com : Fin N → Int × Int} {byz : Finset (Fin N)}

/-! ## Invariants of one party -/

/-- **The rule for an invariant of a party's own state**, beside `PhaseOk` and what a good party sends. -/
theorem refresh2_preserved (hE : E.Lawful) (hcom : ∀ p ∉ byz, ∃ C, E.xy C = some (com p))
    {ok : Net.Conf (Fin N) (RefreshState N) RefreshMsg → Net.Label (Fin N) Thread RefreshMsg → Prop}
    {Q : Fin N → RefreshState N → Prop} (hinit : ∀ p, Q p ((refresh2 E H z size leader share com).init p))
    (hwake : ∀ p t s s' out, Q p s → (refresh2 E H z size leader share com).wake p t s = some (s', out) → Q p s')
    (hrecv : ∀ (c : Net.Conf (Fin N) (RefreshState N) RefreshMsg) e s out, ok c (.recv e) →
      PhaseOk leader com e.dst (c.loc e.dst) → Q e.dst (c.loc e.dst) →
      (e.src ∉ byz → MsgOk E H size leader share com e) →
      onMsg E H z size (c.loc e.dst) e.src e.msg = some (s, out) → Q e.dst s) :
    Net.Preserved (refresh2 E H z size leader share com) byz ok (fun _ _ => True)
      (fun loc _ p => PhaseOk leader com p (loc p) ∧ Q p (loc p))
      (fun _ e => MsgOk E H size leader share com e) where
  grow_refl := fun _ => trivial
  grow_wake := fun _ _ _ _ _ _ => trivial
  grow_recv := fun _ _ _ _ _ _ _ => trivial
  local_mono := fun loc loc' _ _ p _ _ _ hp h => by rw [hp]; exact h
  msg_mono := fun _ _ _ _ h => h
  init := fun p _ => ⟨init_ok p, hinit p⟩
  wake := by
    intro c p t s out loc' _ hp hL h hloc _
    rw [hloc, Function.update_self]
    exact ⟨⟨(wake_ok h).1, hwake p t _ s out (hL p hp).2 h⟩, (wake_ok h).2⟩
  recv := by
    intro c e s out loc' hok hp hL hW h hloc _
    obtain ⟨C, hC⟩ := hcom e.dst hp
    have hstep : PhaseOk leader com e.dst s ∧ ∀ o ∈ out, MsgOk E H size leader share com ⟨e.dst, o.1, o.2⟩ :=
      onMsg_ok hE hC (hL e.dst hp).1 h
    rw [hloc, Function.update_self]
    exact ⟨⟨hstep.1, hrecv c e s out hok (hL e.dst hp).1 (hL e.dst hp).2 hW h⟩, hstep.2⟩

/-! ## Recovery -/

/-- An entry from a bad channel that the leader would accept is the stripe of its index. -/
def GenuineVals (E : Curve) (H : Hash) (byz : Finset (Fin N)) (S : List Bytes)
    (c : Net.Conf (Fin N) (RefreshState N) RefreshMsg) : Net.Label (Fin N) Thread RefreshMsg → Prop
  | .recv ⟨src, dst, .val sender val⟩ => src ∈ byz → (c.loc dst).phase = .collecting → sender ∉ (c.loc dst).prevSenders →
      ∀ v ∈ val, Accepted E H (c.loc dst).commitment v → Genuine S v
  | _ => True

/-- The invariant of the leader's slots. -/
structure Recovers (m : Text) (S : List Bytes) (s : RefreshState N) : Prop where
  slots : SlotsGenuine S s.values
  original : ∀ m', s.originalMsg = some m' → m' = m.encode

/-- **One message keeps the slots genuine**, and what is decoded from them is the message. -/
theorem onMsg_recovers (hz : z.IsMds (dataThreshold size) size) {m : Text} {S : List Bytes}
    (hS : encode z (dataThreshold size) size m = .ok S) {s s' : RefreshState N} (hs : Recovers m S s) {sender : Fin N}
    {msg : RefreshMsg} {out : List (Fin N × RefreshMsg)}
    (hmsg : ∀ id val, msg = .val id val → s.phase = .collecting → id ∉ s.prevSenders →
      ∀ v ∈ val, Accepted E H s.commitment v → Genuine S v)
    (h : onMsg E H z size s sender msg = some (s', out)) : Recovers m S s' := by
  have hbound := ((encode_eq_ok _ _ _ _ _).1 hS).1
  have hK : dataThreshold size ≤ 128 := by unfold dataThreshold; omega
  unfold onMsg at h
  split at h
  · rename_i id val hcol
    have h : onVal E H z size id val s = (s', out) := Option.some.inj h
    rw [onVal] at h
    split at h
    · cases h; exact hs
    · rename_i hnew
      simp only at h
      cases hst : storeVal E H s.commitment val s.counter s.values with
      | error e => rw [hst] at h; cases h; exact ⟨hs.slots, hs.original⟩
      | ok r =>
        obtain ⟨counter, values⟩ := r
        have hslots := storeVal_genuine val _ _ (hmsg id val rfl hcol hnew) hs.slots hst
        rw [hst] at h
        unfold finish at h
        simp only at h
        split at h
        · cases hd : decode z (dataThreshold size) size values with
          | error e => rw [hd] at h; cases h; exact ⟨hslots, hs.original⟩
          | ok m' =>
            have hm' : m' = m.encode := Except.ok.inj
              (hd.symm.trans (decode_genuine hz hS hK hslots (le_countP_of_decode hbound.1 hd)))
            rw [hd] at h
            simp only at h
            split at h
            · cases h
              exact ⟨hslots, fun m'' hm'' => (Option.some.inj hm'') ▸ hm'⟩
            · cases h
              exact ⟨hslots, fun m'' hm'' => (Option.some.inj hm'') ▸ hm'⟩
        · cases h; exact ⟨hslots, hs.original⟩
  · cases h; exact hs
  · rename_i target hfin
    have h : onFinal E H sender target s = (s', out) := Option.some.inj h
    rw [onFinal] at h
    split at h
    · cases h; exact ⟨hs.slots, hs.original⟩
    · cases h; exact ⟨hs.slots, hs.original⟩
  · cases h; exact hs
  · cases h

theorem refresh2_recovers_preserved (hE : E.Lawful) (hcom : ∀ p ∉ byz, ∃ C, E.xy C = some (com p))
    (hz : z.IsMds (dataThreshold size) size) {m : Text} {S : List Bytes}
    (hS : encode z (dataThreshold size) size m = .ok S) (hshare : ∀ p ∉ byz, ∀ v ∈ share p, Genuine S v) :
    Net.Preserved (refresh2 E H z size leader share com) byz (GenuineVals E H byz S) (fun _ _ => True)
      (fun loc _ p => PhaseOk leader com p (loc p) ∧ Recovers m S (loc p))
      (fun _ e => MsgOk E H size leader share com e) := by
  apply refresh2_preserved (Q := fun _ s => Recovers m S s) hE hcom
  · refine fun p => ⟨⟨by simp [refresh2, init, encode_length hz hS], fun k b hb => ?_⟩, nofun⟩
    simp only [refresh2, init, List.getElem?_replicate] at hb
    split at hb <;> simp at hb
  · intro p t s s' out hrec h
    rcases refresh2_wake h with ⟨-, rfl, -⟩ | ⟨-, rfl, -⟩
    · exact ⟨hrec.slots, hrec.original⟩
    · exact ⟨hrec.slots, hrec.original⟩
  · intro c e s out hok _ hrec hW h
    refine onMsg_recovers hz hS hrec (fun id val hmsg hcol hnew v hv hacc => ?_) h
    obtain ⟨src, dst, msg⟩ := e
    subst hmsg
    by_cases hb : src ∈ byz
    · exact hok hb hcol hnew v hv hacc
    · have hval : val = share src := hW hb
      exact hshare src hb v (hval ▸ hv)

/-! ## Authenticity -/

/-- A list taken in the last loop from a bad party, or from one that holds another commitment, comes from the leader,
names the party's interval and passes the check. -/
def AuthenticFinals (E : Curve) (H : Hash) (size : Nat) (leader : Fin N) (com : Fin N → Int × Int)
    (byz : Finset (Fin N)) (c : Net.Conf (Fin N) (RefreshState N) RefreshMsg) :
    Net.Label (Fin N) Thread RefreshMsg → Prop
  | .recv ⟨src, dst, .final target⟩ => src ∈ byz ∨ com src ≠ com dst → (c.loc dst).phase = .final →
      src = leader ∧ target.map Entry.index = (interval size N dst).map (fun (i : Nat) => (i : Int)) ∧
        allValid E H (c.loc dst).commitment target = .ok true
  | _ => True

/-- What a party has returned came from the leader and is authentic. -/
def ReturnedOk (E : Curve) (H : Hash) (size : Nat) (leader : Fin N) (com : Fin N → Int × Int) (p : Fin N)
    (s : RefreshState N) : Prop :=
  ∀ target channel, s.phase = .returned target channel → channel = leader ∧ Authentic E H size N (com p) p target

theorem onMsg_returned {p sender : Fin N} {s s' : RefreshState N} {msg : RefreshMsg}
    {out : List (Fin N × RefreshMsg)}
    (hmsg : ∀ target, msg = .final target → s.phase = .final → sender = leader ∧ Authentic E H size N (com p) p target)
    (h : onMsg E H z size s sender msg = some (s', out)) : ReturnedOk E H size leader com p s' := by
  intro target channel hret
  unfold onMsg at h
  split at h
  · rename_i id val hcol
    have h : onVal E H z size id val s = (s', out) := Option.some.inj h
    rw [onVal] at h
    split at h
    · cases h; rw [hcol] at hret; cases hret
    · simp only at h
      split at h
      · cases h; cases hret
      · unfold finish at h
        simp only at h
        split at h
        · split at h
          · cases h; cases hret
          · split at h <;> (cases h; cases hret)
        · cases h
          rw [hcol] at hret
          cases hret
  · rename_i hcol _
    cases h
    rw [hcol] at hret
    cases hret
  · rename_i target' hfin
    have h : onFinal E H sender target' s = (s', out) := Option.some.inj h
    rw [onFinal] at h
    split at h
    · cases h; cases hret
    · cases h
      cases hret
      exact hmsg _ rfl hfin
  · rename_i hfin _
    cases h
    rw [hfin] at hret
    cases hret
  · cases h

theorem refresh2_authentic_preserved (hE : E.Lawful) (hcom : ∀ p ∉ byz, ∃ C, E.xy C = some (com p)) :
    Net.Preserved (refresh2 E H z size leader share com) byz (AuthenticFinals E H size leader com byz) (fun _ _ => True)
      (fun loc _ p => PhaseOk leader com p (loc p) ∧ ReturnedOk E H size leader com p (loc p))
      (fun _ e => MsgOk E H size leader share com e) := by
  apply refresh2_preserved (Q := ReturnedOk E H size leader com) hE hcom
  · exact fun _ => nofun
  · intro p t s s' out _ h target channel hret
    rcases refresh2_wake h with ⟨-, rfl, -⟩ | ⟨-, rfl, -⟩
    · cases hret
    · simp only [takeCommitment] at hret
      split at hret <;> cases hret
  · intro c e s out hok hph _ hW h
    refine onMsg_returned (fun target hmsg hfin => ?_) h
    obtain ⟨src, dst, msg⟩ := e
    subst hmsg
    by_cases hb : src ∈ byz ∨ com src ≠ com dst
    · obtain ⟨hsrc, hidx, hvalid⟩ := hok hb hfin
      rw [hph.2 (Or.inr hfin)] at hvalid
      exact ⟨hsrc, hidx, (allValid_eq_true target).1 hvalid⟩
    · simp only [not_or, not_not] at hb
      obtain ⟨hsrc, hauth⟩ := hW hb.1
      subst hsrc
      exact ⟨rfl, hb.2 ▸ hauth⟩

/-! ## Runs of four parties

Party 3 is bad.  The message is empty, and so its stripes are equal. -/

/-- A party that waits for its list takes one from a bad party. -/
theorem final_run {E : Curve} {H : Hash} (z : Zfec) {N : Nat} (size : Nat) (leader : Fin N) {p q : Fin N}
    (share : Fin N → List Entry) (com : Fin N → Int × Int) {byz : Finset (Fin N)} (hpl : p ≠ leader) (hp : p ∉ byz)
    (hq : q ∈ byz) (target : List Entry) (hvalid : allValid E H (com p) target = .ok true)
    (ok : Net.Conf (Fin N) (RefreshState N) RefreshMsg → Net.Label (Fin N) Thread RefreshMsg → Prop)
    (hwake : ∀ c t, ok c (.wake p t)) (hinject : ∀ c e, ok c (.inject e))
    (hrecv : ∀ c, (c.loc p).commitment = com p → ok c (.recv ⟨q, p, .final target⟩)) :
    ∃ c, Net.Run (refresh2 E H z size leader share com) byz ok c ∧ (c.loc p).phase = .returned target q := by
  have hstart : Net.Run (refresh2 E H z size leader share com) byz ok (refresh2 E H z size leader share com).start := .start
  obtain ⟨c₁, hc₁, hs₁⟩ := hstart.wake_loc hp (hwake _ .send) rfl
  obtain ⟨c₂, hc₂, hs₂⟩ := hc₁.wake_loc hp (hwake _ .commit) (by rw [hs₁]; rfl)
  have hphase : (c₂.loc p).phase = .final := by
    rw [hs₂, takeCommitment, if_neg hpl]
  have hcom : (c₂.loc p).commitment = com p := by rw [hs₂]; rfl
  have hstep : onMsg E H z size (c₂.loc p) q (.final target) = some ({ c₂.loc p with phase := .returned target q }, []) := by
    unfold onMsg
    rw [hphase]
    simp only [onFinal, hcom, hvalid, if_true]
  obtain ⟨c₃, hc₃, hs₃⟩ := hc₂.inject_loc ⟨q, p, .final target⟩ hq hp (hinject _ _) (hrecv _ hcom) hstep
  exact ⟨c₃, hc₃, by rw [hs₃]⟩

/-- 54 entries with the data `b`. -/
def fourVal (b : Bytes) (proof : Nat → Int × Int) : List Entry := (List.range 54).map (fun (i : Nat) => ⟨b, proof i, i⟩)

/-- Party 3 sends the leader 54 entries that it accepts, and the leader decodes them. -/
theorem fourVal_run (share : Fin 4 → List Entry) (com : Fin 4 → Int × Int) {b m : Bytes} {S : List Bytes}
    (hz : z.IsMds 54 160) (hS : encode z 54 160 (.bytes m) = .ok S)
    (hSb : S = List.replicate 160 b) {proof : Nat → Int × Int}
    (hacc : ∀ i < 54, Accepted E H (com 0) ⟨b, proof i, (i : Nat)⟩)
    (ok : Net.Conf (Fin 4) (RefreshState 4) RefreshMsg → Net.Label (Fin 4) Thread RefreshMsg → Prop)
    (hwake : ∀ c t, ok c (.wake 0 t)) (hinject : ∀ c e, ok c (.inject e))
    (hrecv : ∀ c, ok c (.recv ⟨3, 0, .val (.int 3) (fourVal b proof)⟩)) :
    ∃ c, Net.Run (refresh2 E H z 160 (0 : Fin 4) share com) {3} ok c ∧ (c.loc 0).originalMsg = some m := by
  have hval : ∀ v ∈ fourVal b proof, Accepted E H (com 0) v ∧ 0 ≤ v.index ∧ v.index < 160 ∧ v.data = b := by
    intro v hv
    obtain ⟨i, hi, rfl⟩ := List.mem_map.1 hv
    have hi := List.mem_range.1 hi
    exact ⟨hacc i hi, Int.natCast_nonneg i, by simp only; omega, rfl⟩
  have hstore := storeVal_accepted (fourVal b proof) 0 (List.replicate 160 none) (fun v hv => by
    rw [List.length_replicate]
    exact ⟨(hval v hv).1, (hval v hv).2.1, (hval v hv).2.2.1⟩)
  have hnd : ((fourVal b proof).map Entry.index).Nodup := by
    rw [fourVal, List.map_map]
    exact List.nodup_range.map (fun i j h => Int.ofNat_inj.1 h)
  have hcount := storeAll_count (fourVal b proof) (List.replicate 160 none) hnd (fun v hv => by
    rw [List.getElem?_replicate, if_pos (by have := hval v hv; omega)]
    exact ⟨(hval v hv).2.1, rfl⟩)
  have hgen : SlotsGenuine S (storeAll (fourVal b proof) (List.replicate 160 none)) := by
    refine storeVal_genuine (fourVal b proof) 0 _ (fun v hv _ => ?_) ?_ hstore
    · obtain ⟨-, h0, hlt, rfl⟩ := hval v hv
      refine ⟨v.index.toNat, ?_, ?_⟩
      · rw [hSb, List.length_replicate, pyIndex, if_pos ⟨h0, hlt⟩]
      · rw [hSb, List.getElem?_replicate, if_pos (by omega)]
    · refine ⟨by rw [hSb, List.length_replicate, List.length_replicate], fun k b' hk => ?_⟩
      rw [List.getElem?_replicate] at hk
      split at hk <;> simp at hk
  have hdec := decode_genuine hz hS (by decide) hgen (by rw [hcount, fourVal, List.length_map]; simp)
  have hstart : Net.Run (refresh2 E H z 160 0 share com) {3} ok (refresh2 E H z 160 0 share com).start := .start
  obtain ⟨c₁, hc₁, hs₁⟩ := hstart.wake_loc (p := 0) (by decide) (hwake _ .send) rfl
  obtain ⟨c₂, hc₂, hs₂⟩ := hc₁.wake_loc (p := 0) (by decide) (hwake _ .commit) (by rw [hs₁]; rfl)
  have hm : (onVal E H z 160 (.int 3) (fourVal b proof) (c₂.loc 0)).1.originalMsg = some m := by
    rw [hs₂]
    exact onVal_originalMsg (Finset.notMem_empty _) hstore (by rw [fourVal, List.length_map, List.length_range]; decide) hdec
  have hrecv' : onMsg E H z 160 (c₂.loc 0) 3 (.val (.int 3) (fourVal b proof)) =
      some (onVal E H z 160 (.int 3) (fourVal b proof) (c₂.loc 0)) := by
    rw [hs₂]
    rfl
  obtain ⟨c₃, hc₃, hs₃⟩ := hc₂.inject_loc ⟨3, 0, .val (.int 3) (fourVal b proof)⟩ (Finset.mem_singleton_self 3)
    (show (0 : Fin 4) ∉ ({3} : Finset (Fin 4)) by decide) (hinject _ _) (hrecv _) hrecv'
  exact ⟨c₃, hc₃, by rw [hs₃]; exact hm⟩

/-- The 160 stripes of the empty message. -/
def emptyStripes : List Bytes := List.replicate 160 [0]

theorem encode_empty : encode reedSolomonEq 54 160 (.bytes []) = .ok emptyStripes := by decide +kernel
theorem encode_one : encode reedSolomonEq 54 160 (.bytes [1]) = .ok (List.replicate 160 [1]) := by decide +kernel

theorem emptyStripes_getD {i : Nat} (hi : i < 160) : emptyStripes.getD i [] = [0] := by
  rw [emptyStripes, List.getD_eq_getElem?_getD, List.getElem?_replicate, if_pos hi]
  rfl

theorem emptyStripes_ints : RbcVc.ints sha256 160 emptyStripes = List.replicate 160 (sha256ToInt sha256 [0]) := by
  refine List.eq_replicate_iff.2 ⟨by simp [RbcVc.ints], fun x hx => ?_⟩
  obtain ⟨i, hi, rfl⟩ := List.mem_map.1 hx
  rw [emptyStripes_getD (List.mem_range.1 hi)]

/-- No point met in opening a position of the stripes' commitment to either byte is at infinity. -/
theorem emptyStripes_noInfinity {b : Bytes} (hb : b = [0] ∨ b = [1]) {i : Nat} (hi : i < 160) :
    NoInfinity secp256k1 (RbcVc.ints sha256 160 emptyStripes) (sha256ToInt sha256 b) i := by
  have h0 : sha256ToInt sha256 [0] = 49846369543417741186729467304575255505141344055555831574636310663216789168157 := by
    decide +kernel
  have h1 : sha256ToInt sha256 [1] = 34356466678672179216206944866734405838331831190171667647615530531663699592602 := by
    decide +kernel
  have key : ∀ v ∈ [(49846369543417741186729467304575255505141344055555831574636310663216789168157 : Int),
      34356466678672179216206944866734405838331831190171667647615530531663699592602], ∀ i < 160,
      ¬ (secp256k1.order : Int) ∣ v * ((i : Nat) + 1) ∧ ¬ (secp256k1.order : Int) ∣ commitScalar 0 (List.replicate 160
        49846369543417741186729467304575255505141344055555831574636310663216789168157) - v * ((i : Nat) + 1) := by
    decide +kernel
  rw [emptyStripes_ints, h0]
  rcases hb with rfl | rfl
  · rw [h0]
    exact noInfinity_secp256k1 (by decide +kernel) (key _ (by simp) i hi).1 (key _ (by simp) i hi).2
  · rw [h1]
    exact noInfinity_secp256k1 (by decide +kernel) (key _ (by simp) i hi).1 (key _ (by simp) i hi).2

/-- The commitment, the parties' shares, and proofs of either byte at every position. -/
theorem emptyStripes_opened : ∃ (C : secp256k1.Pt) (com : Int × Int) (share : Fin 4 → List Entry),
    commit secp256k1 (RbcVc.ints sha256 160 emptyStripes) = .ok com ∧ secp256k1.xy C = some com ∧
    (∀ p : Fin 4, RbcVc.ownShare secp256k1 sha256 com emptyStripes 160 4 p = .ok (share p)) ∧
    ∀ b, b = [0] ∨ b = [1] → ∃ proof : Nat → Int × Int, ∀ i < 160, Accepted secp256k1 sha256 com ⟨b, proof i, (i : Nat)⟩ := by
  have hgen := fun (b : Bytes) (hb : b = [0] ∨ b = [1]) (i : Nat) (hi : i < 160) => emptyStripes_noInfinity hb hi
  obtain ⟨com, hcom, hcommit, -, hown⟩ := RbcVc.prepare_isOk secp256k1_lawful (by decide) le_rfl encode_empty
    (fun i hi => by rw [emptyStripes_getD hi]; exact hgen [0] (Or.inl rfl) i hi)
  have hproof : ∀ b, b = [0] ∨ b = [1] → ∀ i < 160, ∃ proof,
      verify secp256k1 com proof (sha256ToInt sha256 b) (i : Nat) = .ok true := fun b hb i hi =>
    (verify_generateProof secp256k1_lawful hcom hi (hgen b hb i hi).term (hgen b hb i hi).proof).imp (fun _ => And.right)
  have hshare : ∀ p : Fin 4, ∃ share, RbcVc.ownShare secp256k1 sha256 com emptyStripes 160 4 p = .ok share :=
    fun p => RbcVc.exists_ownShare (fun i hi => hown i (lt_of_mem_interval hi))
  choose share hshare using hshare
  refine ⟨_, com, share, hcommit, hcom, hshare, fun b hb => ?_⟩
  choose proof hp using hproof b hb
  refine ⟨fun i => if hi : i < 160 then proof i hi else (0, 0), fun i hi => ?_⟩
  simp only [dif_pos hi]
  exact hp i hi

end Refresh

open Refresh

section RecoveryAuthentic

variable {E : Curve} {H : Hash} {z : Zfec} {N size : Nat} {leader : Fin N} {share : Fin N → List Entry}
  {com : Fin N → Int × Int} {byz : Finset (Fin N)} {c : Net.Conf (Fin N) (RefreshState N) RefreshMsg}

/-- **What an honest leader decodes is the message**, while every entry it accepts from a bad channel is genuine. -/
theorem refresh2_recovers (hE : E.Lawful) (hz : z.IsMds (dataThreshold size) size)
    (hcom : ∀ p ∉ byz, ∃ C, E.xy C = some (com p)) {m : Text} {S : List Bytes}
    (hS : encode z (dataThreshold size) size m = .ok S) (hshare : ∀ p ∉ byz, ∀ v ∈ share p, Genuine S v)
    (hc : Net.Run (refresh2 E H z size leader share com) byz (GenuineVals E H byz S) c) (hleader : leader ∉ byz)
    {m' : Bytes} (hm' : (c.loc leader).originalMsg = some m') : m' = m.encode :=
  (((refresh2_recovers_preserved hE hcom hz hS hshare).run hc).loc leader hleader).2.original m' hm'

/-- Party 3 sends the leader 54 genuine entries. -/
theorem refresh2_recovers_four : ∃ com share c,
    commit secp256k1 (RbcVc.ints sha256 160 emptyStripes) = .ok com ∧
    (∀ p : Fin 4, RbcVc.ownShare secp256k1 sha256 com emptyStripes 160 4 p = .ok (share p)) ∧
    Net.Run (refresh2 secp256k1 sha256 reedSolomonEq 160 (0 : Fin 4) share (fun _ => com)) {3}
      (GenuineVals secp256k1 sha256 {3} emptyStripes) c ∧
    ∃ m', (c.loc 0).originalMsg = some m' ∧ m' = [] := by
  have hz : reedSolomonEq.IsMds 54 160 := reedSolomonEq_isMds (by decide) (by decide) (by decide)
  obtain ⟨C, com, share, hcommit, hC, hshare, hopen⟩ := emptyStripes_opened
  obtain ⟨proof, hacc⟩ := hopen [0] (Or.inl rfl)
  have hgenuine : ∀ (v : Entry) (i : Nat), i < 160 → v.data = [0] → v.index = i → Genuine emptyStripes v := by
    intro v i hi hd hv
    refine ⟨i, by rw [hv, emptyStripes, List.length_replicate]; exact pyIndex_natCast hi, ?_⟩
    rw [emptyStripes, List.getElem?_replicate, if_pos hi, hd]
  obtain ⟨c, hc, hm⟩ := fourVal_run share (fun _ => com) hz encode_empty rfl (fun i hi => hacc i (by omega))
    (GenuineVals secp256k1 sha256 {3} emptyStripes) (fun _ _ => trivial) (fun _ _ => trivial) (fun c _ _ _ v hv _ => by
      obtain ⟨i, hi, rfl⟩ := List.mem_map.1 hv
      exact hgenuine _ i (by have := List.mem_range.1 hi; omega) rfl rfl)
  refine ⟨com, share, c, hcommit, hshare, hc, [], hm, ?_⟩
  refine refresh2_recovers secp256k1_lawful hz (fun _ _ => ⟨C, hC⟩) encode_empty (fun p _ v hv => ?_) hc (by decide) hm
  obtain ⟨i, hi, -, hd, hv⟩ := RbcVc.mem_ownShare (hshare p) hv
  have hi := lt_of_mem_interval hi
  exact hgenuine v i hi (by rw [hd, emptyStripes_getD hi]) hv

/-- Party 3 sends the leader 54 forged entries, and the leader decodes them. -/
theorem refresh2_recovers_counterexample : ¬ ∀ com share c,
    commit secp256k1 (RbcVc.ints sha256 160 emptyStripes) = .ok com →
    (∀ p : Fin 4, RbcVc.ownShare secp256k1 sha256 com emptyStripes 160 4 p = .ok (share p)) →
    Net.Reachable (refresh2 secp256k1 sha256 reedSolomonEq 160 (0 : Fin 4) share (fun _ => com)) {3} c →
    ∀ m', (c.loc 0).originalMsg = some m' → m' = [] := by
  intro h
  obtain ⟨C, com, share, hcommit, hC, hshare, hopen⟩ := emptyStripes_opened
  obtain ⟨proof, hacc⟩ := hopen [1] (Or.inr rfl)
  obtain ⟨c, hc, hm⟩ := fourVal_run share (fun _ => com)
    (reedSolomonEq_isMds (by decide) (by decide) (by decide)) encode_one rfl (fun i hi => hacc i (by omega))
    (fun _ _ => True) (fun _ _ => trivial) (fun _ _ => trivial) (fun _ => trivial)
  cases h com share c hcommit hshare hc [1] hm

/-- **What an honest party returns came from the leader, is its interval and verifies**, while it takes from bad channels
only what the leader could have sent. -/
theorem refresh2_authentic (hE : E.Lawful) (hcom : ∀ p ∉ byz, ∃ C, E.xy C = some (com p))
    (hc : Net.Run (refresh2 E H z size leader share com) byz (AuthenticFinals E H size leader com byz) c) {p : Fin N}
    (hp : p ∉ byz) {target : List Entry} {channel : Fin N} (hret : (c.loc p).phase = .returned target channel) :
    channel = leader ∧ target.map Entry.index = (interval size N p).map (fun (i : Nat) => (i : Int)) ∧
      ∀ v ∈ target, verify E (com p) v.proof (sha256ToInt H v.data) v.index = .ok true := by
  obtain ⟨hch, hauth⟩ := (((refresh2_authentic_preserved hE hcom).run hc).loc p hp).2 target channel hret
  exact ⟨hch, hauth.indices, hauth.accepted⟩

/-- Party 3 leads, and sends party 1 its list. -/
theorem refresh2_authentic_four : ∃ com share c,
    commit secp256k1 (RbcVc.ints sha256 160 emptyStripes) = .ok com ∧
    Net.Run (refresh2 secp256k1 sha256 reedSolomonEq 160 (3 : Fin 4) share (fun _ => com)) {3}
      (AuthenticFinals secp256k1 sha256 160 3 (fun _ => com) {3}) c ∧ (c.loc 1).phase = .returned (share 1) 3 ∧
    (share 1).map Entry.index = (interval 160 4 1).map (fun (i : Nat) => (i : Int)) ∧
    ∀ v ∈ share 1, verify secp256k1 com v.proof (sha256ToInt sha256 v.data) v.index = .ok true := by
  obtain ⟨C, com, share, hcommit, hC, hshare, -⟩ := emptyStripes_opened
  have hvalid : allValid secp256k1 sha256 com (share 1) = .ok true := (allValid_eq_true _).2 (fun v hv => by
    obtain ⟨i, -, hp, -, hi⟩ := RbcVc.mem_ownShare (hshare 1) hv
    rw [hi] at hp
    rw [Accepted, hi]
    exact verify_of_generateProof secp256k1_lawful hC hp)
  obtain ⟨c, hc, hret⟩ := final_run reedSolomonEq 160 (3 : Fin 4) (p := 1) (q := 3) share (fun _ => com)
    (by decide) (by decide) (Finset.mem_singleton_self 3) (share 1) hvalid (AuthenticFinals secp256k1 sha256 160 3 (fun _ => com) {3}) (fun _ _ => trivial) (fun _ _ => trivial)
    (fun c hcom _ _ => ⟨rfl, RbcVc.ownShare_index (hshare 1), by rw [hcom]; exact hvalid⟩)
  have hauth := refresh2_authentic secp256k1_lawful (fun _ _ => ⟨C, hC⟩) hc (show (1 : Fin 4) ∉ {3} by decide) hret
  exact ⟨com, share, c, hcommit, hc, hret, hauth.2⟩

/-- Party 3 does not lead and sends party 1 an empty list, which party 1 returns. -/
theorem refresh2_authentic_counterexample : ¬ ∀ com share c,
    commit secp256k1 (RbcVc.ints sha256 160 emptyStripes) = .ok com →
    (∀ p : Fin 4, RbcVc.ownShare secp256k1 sha256 com emptyStripes 160 4 p = .ok (share p)) →
    Net.Reachable (refresh2 secp256k1 sha256 reedSolomonEq 160 (0 : Fin 4) share (fun _ => com)) {3} c →
    ∀ p ∉ ({3} : Finset (Fin 4)), ∀ target channel, (c.loc p).phase = .returned target channel →
      channel = 0 ∧ target.map Entry.index = (interval 160 4 p).map (fun (i : Nat) => (i : Int)) ∧
        ∀ v ∈ target, verify secp256k1 com v.proof (sha256ToInt sha256 v.data) v.index = .ok true := by
  intro h
  obtain ⟨C, com, share, hcommit, hC, hshare, -⟩ := emptyStripes_opened
  obtain ⟨c, hc, hret⟩ := final_run (E := secp256k1) (H := sha256) reedSolomonEq 160 (0 : Fin 4) (p := 1) (q := 3)
    share (fun _ => com) (by decide) (by decide) (Finset.mem_singleton_self 3) [] rfl (fun _ _ => True) (fun _ _ => trivial) (fun _ _ => trivial) (fun _ _ => trivial)
  have hch := (h com share c hcommit hshare hc 1 (by decide) [] 3 hret).1
  exact absurd hch (by decide)

end RecoveryAuthentic

end Dpid
