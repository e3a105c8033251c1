import Dpid.Refresh2
/-!
# Refresh2Inv — what the messages of `refresh` do and what its parties send

The leader's slots hold stripes as long as the entries it accepts are stripes (`storeVal_genuine`), and slots enough
that hold stripes decode to the message (`decode_genuine`).  A good party sends its own share or what `distribute`
gives, entries that verify against the leader's commitment (`onMsg_ok`).
-/
namespace Dpid
namespace Refresh

variable {E : Curve} {H : Hash} {z : Zfec} {N size : Nat} {leader : Fin N} {share : Fin N → List Entry}
  {com : Fin N → Int × Int} {byz : Finset (Fin N)}

/-- `verify` accepts the entry. -/
def Accepted (E : Curve) (H : Hash) (commitment : Int × Int) (v : Entry) : Prop :=
  verify E commitment v.proof (sha256ToInt H v.data) v.index = .ok true

/-- The entry's data is the stripe of its index. -/
def Genuine (S : List Bytes) (v : Entry) : Prop := ∃ k, pyIndex S.length v.index = .ok k ∧ S[k]? = some v.data

/-- Every slot that is filled holds the stripe of its place. -/
def SlotsGenuine (S : List Bytes) (values : List (Option Bytes)) : Prop :=
  values.length = S.length ∧ ∀ (k : Nat) (b : Bytes), values[k]? = some (some b) → S[k]? = some b

/-! ## The collection loop -/

/-- **Storing entries that are genuine where accepted keeps the slots genuine.** -/
theorem storeVal_genuine {S : List Bytes} {commitment : Int × Int} : ∀ (val : List Entry) (counter : Nat)
    (values : List (Option Bytes)) {counter' : Nat} {values' : List (Option Bytes)},
    (∀ v ∈ val, Accepted E H commitment v → Genuine S v) → SlotsGenuine S values →
    storeVal E H commitment val counter values = .ok (counter', values') → SlotsGenuine S values'
  | [], counter, values, counter', values', _, hs, h => by
    cases h
    exact hs
  | v :: rest, counter, values, counter', values', hv, hs, h => by
    have hrest : ∀ w ∈ rest, Accepted E H commitment w → Genuine S w := fun w hw => hv w (List.mem_cons_of_mem _ hw)
    rw [storeVal] at h
    cases hver : verify E commitment v.proof (sha256ToInt H v.data) v.index with
    | error e => simp [hver, bind, Except.bind] at h
    | ok b =>
      cases b with
      | false =>
        simp only [hver, bind, Except.bind, Bool.false_eq_true, if_false] at h
        exact storeVal_genuine rest counter values hrest hs h
      | true =>
        obtain ⟨k, hk, hS⟩ := hv v List.mem_cons_self hver
        simp only [hver, bind, Except.bind, if_true, hs.1, hk] at h
        refine storeVal_genuine rest (counter + 1) _ hrest ⟨by rw [List.length_set]; exact hs.1, fun j b hj => ?_⟩ h
        rw [List.getElem?_set] at hj
        split at hj
        · rename_i hkj
          subst hkj
          split at hj
          · cases hj
            exact hS
          · cases hj
        · exact hs.2 j b hj

/-- Every entry stored at its index. -/
def storeAll (val : List Entry) (values : List (Option Bytes)) : List (Option Bytes) :=
  val.foldl (fun values v => values.set v.index.toNat (some v.data)) values

/-- **Entries that are all accepted are all counted and stored.** -/
theorem storeVal_accepted {commitment : Int × Int} : ∀ (val : List Entry) (counter : Nat) (values : List (Option Bytes)),
    (∀ v ∈ val, Accepted E H commitment v ∧ 0 ≤ v.index ∧ v.index < values.length) →
    storeVal E H commitment val counter values = .ok (counter + val.length, storeAll val values)
  | [], counter, values, _          => rfl
  | v :: rest, counter, values, hval => by
    obtain ⟨hacc, h0, hlt⟩ := hval v List.mem_cons_self
    have hk : pyIndex values.length v.index = .ok v.index.toNat := by rw [pyIndex, if_pos ⟨h0, hlt⟩]
    rw [storeVal, hacc]
    simp only [bind, Except.bind, if_true, hk]
    rw [storeVal_accepted rest (counter + 1) _ (fun w hw => ?_), List.length_cons, Nat.add_assoc, Nat.add_comm 1]
    · rfl
    · rw [List.length_set]
      exact hval w (List.mem_cons_of_mem _ hw)

/-- **Entries of distinct empty slots fill one slot each.** -/
theorem storeAll_count : ∀ (val : List Entry) (values : List (Option Bytes)), (val.map Entry.index).Nodup →
    (∀ v ∈ val, 0 ≤ v.index ∧ values[v.index.toNat]? = some none) →
    (storeAll val values).countP Option.isSome = values.countP Option.isSome + val.length
  | [], values, _, _ => rfl
  | v :: rest, values, hnd, hval => by
    rw [List.map_cons, List.nodup_cons] at hnd
    obtain ⟨hv0, hv⟩ := hval v List.mem_cons_self
    obtain ⟨hlt, hnone⟩ := List.getElem?_eq_some_iff.1 hv
    have hrest := storeAll_count rest (values.set v.index.toNat (some v.data)) hnd.2 (fun w hw => by
      obtain ⟨hw0, hwnone⟩ := hval w (List.mem_cons_of_mem _ hw)
      have hne : v.index ≠ w.index := fun h => hnd.1 (h ▸ List.mem_map_of_mem hw)
      exact ⟨hw0, by rw [List.getElem?_set_ne (by omega)]; exact hwnone⟩)
    rw [List.countP_set hlt, hnone] at hrest
    rw [List.length_cons]
    change (storeAll rest (values.set v.index.toNat (some v.data))).countP Option.isSome = _
    rw [hrest]
    simp only [Option.isSome_none, Option.isSome_some, Bool.false_eq_true, if_false, if_true]
    omega

/-- **Genuine slots decode to the message.** -/
theorem decode_genuine {K : Nat} (hz : z.IsMds K size) {m : Text} {S : List Bytes} (hS : encode z K size m = .ok S)
    (hK : K ≤ 128) {values : List (Option Bytes)} (hs : SlotsGenuine S values)
    (hcount : K ≤ values.countP Option.isSome) : decode z K size values = .ok m.encode := by
  have hbound := ((encode_eq_ok _ _ _ _ _).1 hS).1
  have hdec := decode_of_encode hz hS values (hs.1.trans (encode_length hz hS)) hs.2 hcount
  rwa [unpad_blocks K hbound.1 hK] at hdec

/-- The leader that has counted enough decodes. -/
theorem onVal_originalMsg {id : PyId} {val : List Entry} {s : RefreshState N} (hnew : id ∉ s.prevSenders) {counter : Nat}
    {values : List (Option Bytes)} (hst : storeVal E H s.commitment val s.counter s.values = .ok (counter, values))
    (hcount : dataThreshold size ≤ counter) {m : Bytes} (hm : decode z (dataThreshold size) size values = .ok m) :
    (onVal E H z size id val s).1.originalMsg = some m := by
  rw [onVal, if_neg hnew]
  simp only [hst, finish, if_pos hcount, hm]
  split <;> rfl

/-! ## What the parties send -/

/-- What the leader may send party `j`: the entries of its interval, each accepted. -/
structure Authentic (E : Curve) (H : Hash) (size N : Nat) (commitment : Int × Int) (j : Nat) (target : List Entry) :
    Prop where
  indices : target.map Entry.index = (interval size N j).map (fun (i : Nat) => (i : Int))
  accepted : ∀ v ∈ target, Accepted E H commitment v

/-- A message of a good party: its own share, or what the leader may send. -/
def MsgOk (E : Curve) (H : Hash) (size : Nat) (leader : Fin N) (share : Fin N → List Entry) (com : Fin N → Int × Int)
    (e : Net.Envelope (Fin N) RefreshMsg) : Prop :=
  match e.msg with
  | .val _ val    => val = share e.src
  | .final target => e.src = leader ∧ Authentic E H size N (com leader) e.dst target
  | .complain _   => True

/-- A party in a loop holds the commitment of its multicast, and only the leader collects. -/
def PhaseOk (leader : Fin N) (com : Fin N → Int × Int) (p : Fin N) (s : RefreshState N) : Prop :=
  (s.phase = .collecting → p = leader) ∧ (s.phase = .collecting ∨ s.phase = .final → s.commitment = com p)

/-- **What `distribute` sends is authentic.** -/
theorem distribute_authentic (hE : E.Lawful) {C : E.Pt} {commitment : Int × Int} (hC : E.xy C = some commitment)
    {m : Bytes} {out : List (Fin N × RefreshMsg)} (h : distribute E H z size commitment m = .ok out) :
    ∀ o ∈ out, ∃ target, o.2 = .final target ∧ Authentic E H size N commitment o.1 target := by
  unfold distribute at h
  cases hS : encode z (dataThreshold size) size (.bytes m) with
  | error e => simp [hS, bind, Except.bind] at h
  | ok stripes =>
    cases hp : (List.range size).mapM (fun (i : Nat) =>
        generateProof E commitment (sha256ToInt H (stripes.getD i [])) i) with
    | error e =>
      simp only [hS, hp, bind, Except.bind] at h
      cases h
    | ok proofs =>
      simp only [hS, hp, bind, Except.bind, pure, Except.pure, Except.ok.injEq] at h
      have hall := (mapM_eq_ok _ _ _).1 hp
      intro o ho
      rw [← h] at ho
      obtain ⟨j, -, rfl⟩ := List.mem_map.1 ho
      refine ⟨_, rfl, ?_, fun v hv => ?_⟩
      · rw [targetData, List.map_map]
        rfl
      · obtain ⟨i, hi, rfl⟩ := List.mem_map.1 hv
        have hi := lt_of_mem_interval hi
        have hlen : i < proofs.length := by rw [← hall.length_eq, List.length_range]; exact hi
        have hgen := hall.get (by rw [List.length_range]; exact hi) hlen
        simp only [List.get_eq_getElem, List.getElem_range] at hgen
        show verify E commitment (proofs.getD i (0, 0)) _ _ = _
        rw [List.getD_eq_getElem?_getD, List.getElem?_eq_getElem hlen]
        exact verify_of_generateProof hE hC hgen

/-- **One message**: a party stays as it must be, and what it sends is authentic. -/
theorem onMsg_ok (hE : E.Lawful) {p : Fin N} {C : E.Pt} (hC : E.xy C = some (com p)) {s s' : RefreshState N}
    (hs : PhaseOk leader com p s) {sender : Fin N} {msg : RefreshMsg} {out : List (Fin N × RefreshMsg)}
    (h : onMsg E H z size s sender msg = some (s', out)) :
    PhaseOk leader com p s' ∧ ∀ o ∈ out, MsgOk E H size leader share com ⟨p, o.1, o.2⟩ := by
  have hnil : ∀ o ∈ ([] : List (Fin N × RefreshMsg)), MsgOk E H size leader share com ⟨p, o.1, o.2⟩ := fun o ho =>
    absurd ho List.not_mem_nil
  unfold onMsg at h
  split at h
  · rename_i id val hcol
    have h : onVal E H z size id val s = (s', out) := Option.some.inj h
    have hp := hs.1 hcol
    have hcom := hs.2 (Or.inl hcol)
    subst hp
    rw [onVal] at h
    split at h
    · cases h; exact ⟨hs, hnil⟩
    · simp only at h
      split at h
      · cases h; exact ⟨⟨nofun, nofun⟩, hnil⟩
      · unfold finish at h
        simp only at h
        split at h
        · split at h
          · cases h; exact ⟨⟨nofun, nofun⟩, hnil⟩
          · split at h
            · cases h; exact ⟨⟨nofun, nofun⟩, hnil⟩
            · rename_i hdist
              cases h
              refine ⟨⟨nofun, fun _ => hcom⟩, fun o ho => ?_⟩
              obtain ⟨target, ht, hauth⟩ := distribute_authentic hE (hcom ▸ hC) hdist o ho
              obtain ⟨j, msg⟩ := o
              cases ht
              exact ⟨rfl, hcom ▸ hauth⟩
        · cases h; exact ⟨⟨fun _ => rfl, fun _ => hcom⟩, hnil⟩
  · cases h; exact ⟨hs, hnil⟩
  · rename_i target hfin
    have h : onFinal E H sender target s = (s', out) := Option.some.inj h
    rw [onFinal] at h
    split at h
    · cases h; exact ⟨⟨nofun, nofun⟩, hnil⟩
    · cases h
      refine ⟨⟨nofun, nofun⟩, fun o ho => ?_⟩
      split at ho
      · exact absurd ho List.not_mem_nil
      · obtain ⟨j, -, rfl⟩ := List.mem_map.1 ho
        trivial
  · cases h; exact ⟨hs, hnil⟩
  · cases h

theorem init_ok (p : Fin N) : PhaseOk leader com p (init size : RefreshState N) := ⟨nofun, nofun⟩

theorem refresh2_wake {p : Fin N} {t : Thread} {s s' : RefreshState N} {out : List (Fin N × RefreshMsg)}
    (h : (refresh2 E H z size leader share com).wake p t s = some (s', out)) :
    (s.phase = .start ∧ s' = (sendShare leader p (share p) s).1 ∧
      out = [(leader, .val (.int (p : Nat)) (share p))]) ∨
    (s.phase = .waiting ∧ s' = takeCommitment leader p (com p) s ∧ out = []) := by
  simp only [refresh2] at h
  split at h
  · rename_i hph
    cases h
    exact Or.inl ⟨hph, rfl, rfl⟩
  · rename_i hph
    cases h
    exact Or.inr ⟨hph, rfl, rfl⟩
  · cases h

theorem wake_ok {p : Fin N} {t : Thread} {s s' : RefreshState N} {out : List (Fin N × RefreshMsg)}
    (h : (refresh2 E H z size leader share com).wake p t s = some (s', out)) :
    PhaseOk leader com p s' ∧ ∀ o ∈ out, MsgOk E H size leader share com ⟨p, o.1, o.2⟩ := by
  rcases refresh2_wake h with ⟨-, rfl, rfl⟩ | ⟨-, rfl, rfl⟩
  · refine ⟨⟨nofun, nofun⟩, fun o ho => ?_⟩
    obtain rfl := List.mem_singleton.1 ho
    rfl
  · refine ⟨⟨fun hcol => ?_, fun _ => rfl⟩, fun o ho => absurd ho List.not_mem_nil⟩
    by_contra hp
    simp [takeCommitment, hp] at hcol

/-! ## The last loop -/

theorem allValid_eq_true {commitment : Int × Int} : ∀ (target : List Entry),
    allValid E H commitment target = .ok true ↔ ∀ v ∈ target, Accepted E H commitment v
  | []        => by simp [allValid]
  | v :: rest => by
    rw [allValid, List.forall_mem_cons, ← allValid_eq_true rest, Accepted]
    cases hv : verify E commitment v.proof (sha256ToInt H v.data) v.index with
    | error e => simp [bind, Except.bind]
    | ok b    => cases b <;> simp [bind, Except.bind, pure, Except.pure]

end Refresh
end Dpid
