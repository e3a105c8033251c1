import Dpid.Refresh0
import Dpid.Refresh2Inv
import Dpid.ZfecTwo
/-!
# Refresh0Decode — what `refresh0` decodes

The hash of a `VAL` is looked up at the index in the message, the value stored at the sender's.  While what a party
takes from a bad channel has the hash listed for that channel too, every slot filled holds its own stripe; for
`N = 3 f + 1` the `f + 1` slots filled are the `N - 2 f` that `decode` needs, and it gives the message
(`refresh0_decode`).
-/
namespace Dpid
namespace Refresh0

open Refresh (SlotsGenuine decode_genuine)

variable {H : Hash} {z : Zfec} {key : RsaKey} {N f : Nat} {all : Bool} {target : List (Fin N)} {share : Fin N → Bytes}
  {proof : Fin N → List Bytes} {byz : Finset (Fin N)}

/-! ## One message -/

/-- `hash(val) == proof[target]`. -/
def Listed (H : Hash) (proof : List Bytes) (target : Int) (val : Bytes) : Prop :=
  ∃ k, pyIndex proof.length target = .ok k ∧ H val = proof.getD k []

theorem Listed.getElem? {L : List Bytes} {q : Nat} {val : Bytes} (h : Listed H L (q : Int) val) : L[q]? = some (H val) := by
  obtain ⟨k, hk, hval⟩ := h
  by_cases hq : q < L.length
  · rw [pyIndex_natCast hq] at hk
    obtain rfl := Except.ok.inj hk
    rw [hval, List.getD_eq_getElem?_getD, List.getElem?_eq_getElem hq]
    rfl
  · have hneg : ¬ ((q : Int) < 0 ∧ -(L.length : Int) ≤ q) := by omega
    have hge : ¬ (0 ≤ (q : Int) ∧ (q : Int) < L.length) := by omega
    rw [pyIndex, if_neg hge, if_neg hneg] at hk
    cases hk

/-- **What a `VAL` does**: it is ignored, raises, or its value is stored. -/
theorem onVal_cases (H : Hash) (z : Zfec) (key : RsaKey) (f : Nat) (s : Refresh0State N) (sender : Fin N) (target : Int) (val : Bytes) :
    (s.readySent = true ∧ onVal H z key f sender target val s = (s, [])) ∨
    (s.readySent = false ∧
      ((∃ e, pyIndex s.proof.length target = .error e ∧
          onVal H z key f sender target val s = ({ s with hashed := val :: s.hashed, phase := .raised e }, [])) ∨
        ((¬ Listed H s.proof target val ∨ sender ∈ s.valuesSenders) ∧
          onVal H z key f sender target val s = ({ s with hashed := val :: s.hashed }, [])) ∨
        (Listed H s.proof target val ∧ sender ∉ s.valuesSenders ∧ onVal H z key f sender target val s =
          amplify H z key f (addValue sender val { s with hashed := val :: s.hashed })))) := by
  unfold onVal
  cases hr : s.readySent with
  | true  => exact Or.inl ⟨rfl, rfl⟩
  | false =>
    refine Or.inr ⟨rfl, ?_⟩
    simp only [Bool.false_eq_true, if_false]
    cases hk : pyIndex s.proof.length target with
    | error e => exact Or.inl ⟨e, rfl, rfl⟩
    | ok k    =>
      refine Or.inr ?_
      simp only
      split
      · rename_i hne
        refine Or.inl ⟨Or.inl ?_, rfl⟩
        rintro ⟨k', hk', heq⟩
        rw [hk] at hk'
        cases hk'
        exact hne heq
      · rename_i heq
        have hlisted : Listed H s.proof target val := ⟨k, hk, not_not.1 heq⟩
        split
        · rename_i hold
          exact Or.inl ⟨Or.inr hold, rfl⟩
        · rename_i hnew
          exact Or.inr ⟨hlisted, hnew, rfl⟩

/-- **What follows a stored value**: nothing, or the party has become ready; it raises or sends what it signed. -/
theorem amplify_cases (H : Hash) (z : Zfec) (key : RsaKey) (f : Nat) {s : Refresh0State N} (hs : s.readySent = false) :
    (s.counter < f + 1 ∧ amplify H z key f s = (s, [])) ∨
    (f + 1 ≤ s.counter ∧
      ((∃ e, decode z (N - 2 * f) N s.values = .error e ∧
          amplify H z key f s = ({ s with readySent := true, phase := .raised e }, [])) ∨
        (∃ m, decode z (N - 2 * f) N s.values = .ok m ∧
          amplify H z key f s = announce H z key f m { s with readySent := true, originalMsg := some m }))) := by
  unfold amplify
  by_cases hf : f + 1 ≤ s.counter
  · rw [if_pos ⟨hf, hs⟩]
    refine Or.inr ⟨hf, ?_⟩
    cases hd : decode z (N - 2 * f) N s.values with
    | error e => exact Or.inl ⟨e, rfl, rfl⟩
    | ok m    => exact Or.inr ⟨m, rfl, rfl⟩
  · rw [if_neg (fun h => hf h.1)]
    exact Or.inl ⟨Nat.lt_of_not_le hf, rfl⟩

/-- The text of the hash list of `stripes`. -/
def listText (H : Hash) (stripes : List Bytes) : Bytes := (Text.str (strList (hashes H stripes))).encode

/-- **What follows decoding**: the party raises or signs the list of what it encodes. -/
theorem announce_cases (H : Hash) (z : Zfec) (key : RsaKey) (f : Nat) (m : Bytes) (s : Refresh0State N) :
    (∃ e, encode z (N - 2 * f) N (.bytes m) = .error e ∧ announce H z key f m s = ({ s with phase := .raised e }, [])) ∨
    (∃ stripes, encode z (N - 2 * f) N (.bytes m) = .ok stripes ∧ announce H z key f m s =
      ({ s with dataSigned := some (H (listText H stripes)), hashed := listText H stripes :: stripes ++ s.hashed },
        (List.finRange N).map (fun j => (j, .final (signData H key (H (listText H stripes))))))) := by
  unfold announce
  cases hS : encode z (N - 2 * f) N (.bytes m) with
  | error e    => exact Or.inl ⟨e, rfl, rfl⟩
  | ok stripes => exact Or.inr ⟨stripes, rfl, rfl⟩

/-! ## The slots -/

/-- One slot is filled for each sender counted, with a value that `R` allows there. -/
structure Filled (R : Nat → Bytes → Prop) (s : Refresh0State N) : Prop where
  length : s.values.length = N
  empty : ∀ q ∉ s.valuesSenders, s.values[(q : Nat)]? = some none
  filled : s.values.countP Option.isSome = s.counter
  card : s.valuesSenders.card = s.counter
  stored : ∀ k b, s.values[k]? = some (some b) → R k b

theorem init_filled (R : Nat → Bytes → Prop) (share : Bytes) : Filled R (init share : Refresh0State N) where
  length := List.length_replicate
  empty q _ := by rw [init, List.getElem?_replicate, if_pos q.isLt]
  filled := by simp [init, List.countP_replicate]
  card := Finset.card_empty
  stored k b h := by
    rw [init, List.getElem?_replicate] at h
    split at h <;> simp at h

theorem Filled.mono {R R' : Nat → Bytes → Prop} {s : Refresh0State N} (h : Filled R s) (hR : ∀ k b, R k b → R' k b) :
    Filled R' s :=
  { h with stored := fun k b hb => hR k b (h.stored k b hb) }

/-- **A value that `R` allows at its sender's slot is counted and stored.** -/
theorem Filled.addValue {R : Nat → Bytes → Prop} {s : Refresh0State N} (h : Filled R s) {sender : Fin N} {val : Bytes}
    (hnew : sender ∉ s.valuesSenders) (hR : R sender val) : Filled R (addValue sender val s) := by
  have hnone := h.empty sender hnew
  obtain ⟨hlt, hslot⟩ := List.getElem?_eq_some_iff.1 hnone
  refine ⟨by rw [Refresh0.addValue, List.length_set]; exact h.length, fun q hq => ?_, ?_, ?_, fun k b hb => ?_⟩
  · have hne : sender ≠ q := fun heq => hq (heq ▸ Finset.mem_insert_self _ _)
    rw [Refresh0.addValue, List.getElem?_set_ne (fun heq => hne (Fin.ext heq))]
    exact h.empty q (fun hm => hq (Finset.mem_insert_of_mem hm))
  · have hset : (s.values.set sender (some val)).countP Option.isSome = s.counter + 1 := by
      rw [List.countP_set hlt, hslot, h.filled]
      simp
    exact hset
  · rw [Refresh0.addValue, Finset.card_insert_of_notMem hnew, h.card]
  · rw [Refresh0.addValue, List.getElem?_set] at hb
    split at hb
    · rename_i hk
      subst hk
      cases hb
      exact hR
    · exact h.stored k b hb

/-! ## The invariant -/

/-- The value was hashed, and the list holds its hash at `k`. -/
def Checked (H : Hash) (L : List Bytes) (hashed : List Bytes) (k : Nat) (b : Bytes) : Prop :=
  b ∈ hashed ∧ L[k]? = some (H b)

/-- The invariant of a party: what it stored has the hash of its slot, and it has decoded what it stored. -/
structure DecodeOk (H : Hash) (z : Zfec) (f : Nat) (L : List Bytes) (s : Refresh0State N) : Prop where
  filled : Filled (Checked H L s.hashed) s
  proof : s.phase = .loop → s.proof = L
  ready : s.readySent = true → f + 1 ≤ s.counter ∧ ∀ m, decode z (N - 2 * f) N s.values = .ok m → s.originalMsg = some m

theorem Filled.hashed {L hashed hashed' : List Bytes} {s : Refresh0State N} (h : Filled (Checked H L hashed) s)
    (hsub : ∀ x ∈ hashed, x ∈ hashed') : Filled (Checked H L hashed') s :=
  h.mono (fun _ _ hb => ⟨hsub _ hb.1, hb.2⟩)

/-- **What follows a stored value keeps the invariant.** -/
theorem amplify_ok {L : List Bytes} {s : Refresh0State N} (hs : s.readySent = false)
    (hfilled : Filled (Checked H L s.hashed) s) (hproof : s.proof = L) :
    DecodeOk H z f L (amplify H z key f s).1 := by
  rcases amplify_cases H z key f hs with ⟨-, h⟩ | ⟨hf, ⟨e, he, h⟩ | ⟨m, hm, h⟩⟩
  · rw [h]
    exact ⟨hfilled, fun _ => hproof, fun hr => absurd (hs.symm.trans hr) Bool.false_ne_true⟩
  · rw [h]
    refine ⟨{ hfilled with }, fun _ => hproof, fun _ => ⟨hf, fun m hm => ?_⟩⟩
    exact absurd (he.symm.trans hm) (by simp)
  · have hready : ∀ m', decode z (N - 2 * f) N s.values = .ok m' → some m = some m' := fun m' hm' =>
      congrArg some (Except.ok.inj (hm.symm.trans hm'))
    rw [h]
    rcases announce_cases H z key f m { s with readySent := true, originalMsg := some m }
      with ⟨e, -, ha⟩ | ⟨stripes, -, ha⟩
    · rw [ha]
      exact ⟨{ hfilled with }, fun _ => hproof, fun _ => ⟨hf, hready⟩⟩
    · rw [ha]
      have hsub : ∀ x ∈ s.hashed, x ∈ listText H stripes :: stripes ++ s.hashed := fun x hx =>
        List.mem_append_right _ hx
      exact ⟨{ hfilled.hashed hsub with }, fun _ => hproof, fun _ => ⟨hf, hready⟩⟩

/-- **One message keeps the invariant**, if a value that is stored has the hash of its slot. -/
theorem onMsg_ok {L : List Bytes} {s : Refresh0State N} (hs : DecodeOk H z f L s) (hloop : s.phase = .loop)
    {sender : Fin N} {msg : Refresh0Msg}
    (hmsg : ∀ target val, msg = .val target val → s.readySent = false → sender ∉ s.valuesSenders →
      Listed H s.proof target val → s.proof[(sender : Nat)]? = some (H val)) :
    DecodeOk H z f L (onMsg H z key f s sender msg).1 := by
  have hproof := hs.proof hloop
  cases msg with
  | val target val =>
    have hsub : ∀ x ∈ s.hashed, x ∈ val :: s.hashed := fun x hx => List.mem_cons_of_mem _ hx
    have hfilled := hs.filled.hashed hsub
    change DecodeOk H z f L (onVal H z key f sender target val s).1
    rcases onVal_cases H z key f s sender target val with
      ⟨-, h⟩ | ⟨hr, ⟨e, -, h⟩ | ⟨-, h⟩ | ⟨hlisted, hnew, h⟩⟩
    · rw [h]
      exact hs
    · rw [h]
      exact ⟨{ hfilled with }, nofun, hs.ready⟩
    · rw [h]
      exact ⟨{ hfilled with }, hs.proof, hs.ready⟩
    · rw [h]
      have hval : Checked H L (val :: s.hashed) sender val :=
        ⟨List.mem_cons_self, hproof ▸ hmsg target val rfl hr hnew hlisted⟩
      have hfilled' : Filled (Checked H L (val :: s.hashed)) { s with hashed := val :: s.hashed } := { hfilled with }
      exact amplify_ok hr (hfilled'.addValue hnew hval) hproof
  | final sig =>
    change DecodeOk H z f L (onFinal H key f sender sig s)
    unfold onFinal
    split
    · exact ⟨{ hs.filled with }, nofun, hs.ready⟩
    · split
      · exact hs
      · split
        · exact hs
        · simp only
          split
          · exact ⟨{ hs.filled with }, nofun, hs.ready⟩
          · exact ⟨{ hs.filled with }, hs.proof, hs.ready⟩

/-! ## Runs -/

/-- A `VAL` from a bad channel that a party would store has the hash listed for that channel. -/
def InPlace (H : Hash) (byz : Finset (Fin N)) (c : Net.Conf (Fin N) (Refresh0State N) Refresh0Msg) :
    Net.Label (Fin N) Thread Refresh0Msg → Prop
  | .recv ⟨src, dst, .val target val⟩ => src ∈ byz → (c.loc dst).readySent = false → src ∉ (c.loc dst).valuesSenders →
      Listed H (c.loc dst).proof target val → (c.loc dst).proof[(src : Nat)]? = some (H val)
  | _ => True

/-- A good party's `VAL` names its own index. -/
def MsgOk (e : Net.Envelope (Fin N) Refresh0Msg) : Prop :=
  ∀ target val, e.msg = .val target val → target = (e.src : Nat)

theorem refresh0_wake {p : Fin N} {t : Thread} {s s' : Refresh0State N} {out : List (Fin N × Refresh0Msg)}
    (h : (refresh0 H z key f all target share proof).wake p t s = some (s', out)) :
    (t = .send ∧ s.phase = .start ∧ (s', out) = sendShare all target p s) ∨
    (t = .add ∧ s.phase = .waiting ∧ s' = takeProof H (proof p) s ∧ out = []) := by
  simp only [refresh0] at h
  split at h
  · rename_i hph
    exact Or.inl ⟨rfl, hph, (Option.some.inj h).symm⟩
  · rename_i hph
    cases h
    exact Or.inr ⟨rfl, hph, rfl, rfl⟩
  · cases h

theorem refresh0_recv {p q : Fin N} {s s' : Refresh0State N} {msg : Refresh0Msg} {out : List (Fin N × Refresh0Msg)}
    (h : (refresh0 H z key f all target share proof).recv p s q msg = some (s', out)) :
    s.phase = .loop ∧ (s', out) = onMsg H z key f s q msg := by
  simp only [refresh0] at h
  split at h
  · rename_i hph
    exact ⟨hph, (Option.some.inj h).symm⟩
  · cases h

/-- **What a message makes a party sign it sends to all**; it sends nothing else. -/
theorem onMsg_signs (H : Hash) (z : Zfec) (key : RsaKey) (f : Nat) (s : Refresh0State N) (sender : Fin N) (msg : Refresh0Msg) :
    ((onMsg H z key f s sender msg).1.dataSigned = s.dataSigned ∧ (onMsg H z key f s sender msg).2 = []) ∨
    (∃ d, (onMsg H z key f s sender msg).1.dataSigned = some d ∧ (onMsg H z key f s sender msg).1.readySent = true ∧
      s.readySent = false ∧
      (onMsg H z key f s sender msg).2 = (List.finRange N).map (fun j => (j, .final (signData H key d)))) := by
  cases msg with
  | final sig =>
    refine Or.inl ⟨?_, rfl⟩
    change (onFinal H key f sender sig s).dataSigned = s.dataSigned
    unfold onFinal
    split
    · rfl
    · split
      · rfl
      · split
        · rfl
        · simp only
          split <;> rfl
  | val target val =>
    change ((onVal H z key f sender target val s).1.dataSigned = s.dataSigned ∧ _) ∨ _
    rcases onVal_cases H z key f s sender target val with
      ⟨-, h⟩ | ⟨hr, ⟨e, -, h⟩ | ⟨-, h⟩ | ⟨-, -, h⟩⟩
    · exact Or.inl (by simp only [onMsg, h, and_self])
    · exact Or.inl (by simp only [onMsg, h, and_self])
    · exact Or.inl (by simp only [onMsg, h, and_self])
    · rcases amplify_cases H z key f
        (s := addValue sender val { s with hashed := val :: s.hashed }) hr with ⟨-, h'⟩ | ⟨-, ⟨e, -, h'⟩ | ⟨m, -, h'⟩⟩
      · exact Or.inl (by simp only [onMsg, h.trans h', addValue, and_self])
      · exact Or.inl (by simp only [onMsg, h.trans h', addValue, and_self])
      · rcases announce_cases H z key f m
          { addValue sender val { s with hashed := val :: s.hashed } with readySent := true, originalMsg := some m }
          with ⟨e, -, h''⟩ | ⟨stripes, -, h''⟩
        · exact Or.inl (by simp only [onMsg, (h.trans h').trans h'', addValue, and_self])
        · exact Or.inr ⟨H (listText H stripes), by simp only [onMsg, (h.trans h').trans h'', hr, and_self]⟩

/-- What a party sends in its loop are signatures. -/
theorem onMsg_sends {s : Refresh0State N} {sender : Fin N} {msg : Refresh0Msg} {o : Fin N × Refresh0Msg}
    (ho : o ∈ (onMsg H z key f s sender msg).2) : ∃ sig, o.2 = .final sig := by
  rcases onMsg_signs H z key f s sender msg with ⟨-, h⟩ | ⟨d, -, -, -, h⟩
  · rw [h] at ho
    exact absurd ho List.not_mem_nil
  · rw [h] at ho
    obtain ⟨j, -, rfl⟩ := List.mem_map.1 ho
    exact ⟨_, rfl⟩

/-- **The invariant of `refresh0`**, while what is stored is in its place. -/
theorem refresh0_preserved (H : Hash) (z : Zfec) (key : RsaKey) (f : Nat) (all : Bool) (target : List (Fin N))
    (share : Fin N → Bytes) (proof : Fin N → List Bytes) (byz : Finset (Fin N)) :
    Net.Preserved (refresh0 H z key f all target share proof) byz (InPlace H byz) (fun _ _ => True)
      (fun loc _ p => DecodeOk H z f (proof p) (loc p)) (fun _ e => MsgOk e) where
  grow_refl := fun _ => trivial
  grow_wake := fun _ _ _ _ _ _ => trivial
  grow_recv := fun _ _ _ _ _ _ _ => trivial
  local_mono := fun loc loc' hist hist' p _ _ _ hp hs => by rw [hp]; exact hs
  msg_mono := fun _ _ _ _ h => h
  init := fun p _ => ⟨init_filled _ _, nofun, fun hr => absurd hr Bool.false_ne_true⟩
  wake := by
    intro c p t s out loc' _ hp hL h hloc _
    have hok := hL p hp
    rw [hloc, Function.update_self]
    rcases refresh0_wake h with ⟨-, -, hs⟩ | ⟨-, -, rfl, rfl⟩
    · rw [Prod.mk.injEq] at hs
      obtain ⟨rfl, rfl⟩ := hs
      refine ⟨⟨{ hok.filled with }, nofun, hok.ready⟩, fun o ho => ?_⟩
      obtain ⟨i, -, rfl⟩ := List.mem_map.1 ho
      intro target val hm
      cases hm
      rfl
    · have hsub : ∀ x ∈ (c.loc p).hashed, x ∈ (takeProof H (proof p) (c.loc p)).hashed := fun x hx =>
        List.mem_cons_of_mem _ hx
      exact ⟨⟨{ hok.filled.hashed hsub with }, fun _ => rfl, hok.ready⟩, fun o ho => absurd ho List.not_mem_nil⟩
  recv := by
    intro c e s out loc' hplace hp hL hW h hloc _
    obtain ⟨hph, hs⟩ := refresh0_recv h
    rw [Prod.mk.injEq] at hs
    obtain ⟨rfl, rfl⟩ := hs
    rw [hloc, Function.update_self]
    refine ⟨onMsg_ok (hL e.dst hp) hph (fun target val hm hr hnew hlisted => ?_), fun o ho target val hm => ?_⟩
    · by_cases hb : e.src ∈ byz
      · obtain ⟨src, dst, msg⟩ := e
        subst hm
        exact hplace hb hr hnew hlisted
      · have htarget : target = (e.src : Nat) := hW hb target val hm
        rw [htarget] at hlisted
        exact hlisted.getElem?
    · obtain ⟨sig, hsig⟩ := onMsg_sends ho
      cases hsig.symm.trans hm

theorem inPlace_of_eq {c : Net.Conf (Fin N) (Refresh0State N) Refresh0Msg} {l : Net.Label (Fin N) Thread Refresh0Msg}
    (h : ∀ e target val, l = .recv e → e.msg = .val target val → target = (e.src : Nat)) : InPlace H byz c l := by
  unfold InPlace
  split
  · rename_i src dst target val
    intro _ _ _ hlisted
    rw [h _ target val rfl rfl] at hlisted
    exact hlisted.getElem?
  · trivial

/-! ## Four parties -/

/-- A key that signs a digest with itself. -/
def plainKey : RsaKey := ⟨fun digest => digest, fun digest sig => decide (digest = sig)⟩

theorem plainKey_lawful : plainKey.Lawful := fun _ => decide_eq_true rfl

/-- The stripes of the message `[2]`. -/
def stripesOfTwo : List Bytes := [[2], [1], [4], [14]]

theorem encode_two : encode zfecTwo 2 4 (.bytes [2]) = .ok stripesOfTwo := by decide +kernel

/-- Four parties with these stripes. -/
def fourRefresh0 : Net.Proto (Fin 4) Thread (Refresh0State 4) Refresh0Msg :=
  refresh0 sha256 zfecTwo plainKey 1 true [] (fun p => stripesOfTwo.getD p []) (fun _ => hashes sha256 stripesOfTwo)

/-- A `VAL` names its channel. -/
def namesChannel : Net.Label (Fin N) Thread Refresh0Msg → Bool
  | .recv ⟨src, _, .val target _⟩ => decide (target = (src : Nat))
  | _                             => true

theorem injOn_of_nodup {L : List Bytes} (hL : (L.map H).Nodup) {X : Set Bytes} (hX : ∀ x ∈ X, x ∈ L) : Set.InjOn H X :=
  fun _ hx _ hy hxy => List.inj_on_of_nodup_map hL (hX _ hx) (hX _ hy) hxy

end Refresh0

open Refresh (SlotsGenuine decode_genuine)
open Refresh0

section Decode

variable {H : Hash} {z : Zfec} {key : RsaKey} {N f : Nat} {all : Bool} {target : List (Fin N)} {share : Fin N → Bytes}
  {byz : Finset (Fin N)} {c : Net.Conf (Fin N) (Refresh0State N) Refresh0Msg}

/-- **What `refresh0` decodes is the message**: for `N = 3 f + 1`, while every value stored is in its place. -/
theorem refresh0_decode (hN : N = 3 * f + 1) (hz : z.IsMds (N - 2 * f) N) {m : Text} {S : List Bytes}
    (hS : encode z (N - 2 * f) N m = .ok S)
    (hc : Net.Run (refresh0 H z key f all target share (fun _ => hashes H S)) byz (InPlace H byz) c)
    (hH : Set.InjOn H ({ x | x ∈ S } ∪ hashedInRun byz (fun p => (c.loc p).hashed))) {p : Fin N} (hp : p ∉ byz)
    (hready : (c.loc p).readySent = true) :
    N - 2 * f ≤ (c.loc p).values.countP Option.isSome ∧
      (∀ (k : Nat) (b : Bytes), (c.loc p).values[k]? = some (some b) → S[k]? = some b) ∧
      (c.loc p).originalMsg = some m.encode := by
  have hok := ((refresh0_preserved H z key f all target share _ byz).run hc).loc p hp
  have hbound := ((encode_eq_ok _ _ _ _ _).1 hS).1
  obtain ⟨hcounter, horiginal⟩ := hok.ready hready
  have hcount : N - 2 * f ≤ (c.loc p).values.countP Option.isSome := by
    rw [hok.filled.filled]
    omega
  have hslots : ∀ (k : Nat) (b : Bytes), (c.loc p).values[k]? = some (some b) → S[k]? = some b := by
    intro k b hb
    obtain ⟨hhashed, hlisted⟩ := hok.filled.stored k b hb
    exact stripe_of_hash hH (fun x hx => Or.inl hx) (Or.inr ⟨p, hp, hhashed⟩) hlisted
  have hgenuine : SlotsGenuine S (c.loc p).values := ⟨by rw [hok.filled.length, encode_length hz hS], hslots⟩
  exact ⟨hcount, hslots, horiginal _ (decode_genuine hz hS (by omega) hgenuine hcount)⟩

/-- Party 0 decodes its own stripe and party 3's. -/
theorem refresh0_decode_four : ∃ c, Net.Run fourRefresh0 {3} (InPlace sha256 {3}) c ∧ (c.loc 0).readySent = true ∧
    4 - 2 * 1 ≤ (c.loc 0).values.countP Option.isSome ∧
    (∀ (k : Nat) (b : Bytes), (c.loc 0).values[k]? = some (some b) → stripesOfTwo[k]? = some b) ∧
    (c.loc 0).originalMsg = some [2] := by
  have hrun : (Net.exec fourRefresh0 {3} (fun _ l => namesChannel l)
      [.wake 0 .send, .wake 0 .add, .inject ⟨3, 0, .val 3 [14]⟩, .recv 0, .recv 0] fourRefresh0.start).any (fun c => decide ((c.loc 0).readySent = true) &&
        [0, 1, 2].all (fun p => (c.loc p).hashed.all (fun x =>
          decide (x ∈ listText sha256 stripesOfTwo :: stripesOfTwo)))) = true := by
    decide +kernel
  obtain ⟨c, hc, hready⟩ := Net.exists_run_of_exec (R := InPlace sha256 {3}) hrun
    (fun c l hl => inPlace_of_eq (fun e target val he hm => by
      obtain ⟨src, dst, msg⟩ := e
      subst he
      subst hm
      exact of_decide_eq_true hl))
  rw [Bool.and_eq_true, decide_eq_true_eq, List.all_eq_true] at hready
  obtain ⟨hready, hhashed⟩ := hready
  have hnodup : ((listText sha256 stripesOfTwo :: stripesOfTwo).map sha256).Nodup := by decide +kernel
  have hgood : ∀ p : Fin 4, p ∉ ({3} : Finset (Fin 4)) → p ∈ [0, 1, 2] := by decide
  refine ⟨c, hc, hready, refresh0_decode (f := 1) rfl zfecTwo_isMds encode_two hc (injOn_of_nodup hnodup ?_) (by decide) hready⟩
  rintro x (hx | ⟨p, hp, hx⟩)
  · exact List.mem_cons_of_mem _ hx
  · exact of_decide_eq_true (List.all_eq_true.1 (hhashed p (hgood p hp)) x hx)

/-- Party 3 sends party 0 the stripe of party 0, which stores it at index 3 and decodes the empty message. -/
theorem refresh0_decode_counterexample : ¬ ∀ c, Net.Reachable fourRefresh0 {3} c →
    Set.InjOn sha256 ({ x | x ∈ stripesOfTwo } ∪ hashedInRun {3} (fun p => (c.loc p).hashed)) →
    ∀ p ∉ ({3} : Finset (Fin 4)), (c.loc p).readySent = true →
      4 - 2 * 1 ≤ (c.loc p).values.countP Option.isSome ∧
      (∀ (k : Nat) (b : Bytes), (c.loc p).values[k]? = some (some b) → stripesOfTwo[k]? = some b) ∧
      (c.loc p).originalMsg = some [2] := by
  intro h
  have hrun : (Net.exec fourRefresh0 {3} (fun _ _ => true)
      [.wake 0 .send, .wake 0 .add, .inject ⟨3, 0, .val 0 [2]⟩, .recv 0, .recv 0] fourRefresh0.start).any (fun c =>
      decide ((c.loc 0).readySent = true ∧ (c.loc 0).originalMsg = some []) && [0, 1, 2].all (fun p =>
        (c.loc p).hashed.all (fun x => decide (x ∈ listText sha256 stripesOfTwo ::
          listText sha256 [[0], [0], [0], [0]] :: [0] :: stripesOfTwo)))) = true := by
    decide +kernel
  obtain ⟨c, hc, hres⟩ := Net.exists_run_of_exec hrun (fun _ _ _ => trivial)
  rw [Bool.and_eq_true, decide_eq_true_eq, List.all_eq_true] at hres
  obtain ⟨⟨hready, hmsg⟩, hhashed⟩ := hres
  have hnodup : ((listText sha256 stripesOfTwo :: listText sha256 [[0], [0], [0], [0]] :: [0] :: stripesOfTwo).map
      sha256).Nodup := by
    decide +kernel
  have hgood : ∀ p : Fin 4, p ∉ ({3} : Finset (Fin 4)) → p ∈ [0, 1, 2] := by decide
  have hinj : Set.InjOn sha256 ({ x | x ∈ stripesOfTwo } ∪ hashedInRun {3} (fun p => (c.loc p).hashed)) := by
    refine injOn_of_nodup hnodup ?_
    rintro x (hx | ⟨p, hp, hx⟩)
    · exact List.mem_cons_of_mem _ (List.mem_cons_of_mem _ (List.mem_cons_of_mem _ hx))
    · exact of_decide_eq_true (List.all_eq_true.1 (hhashed p (hgood p hp)) x hx)
  obtain ⟨-, -, horiginal⟩ := h c hc hinj 0 (by decide) hready
  exact absurd (hmsg.symm.trans horiginal) (by decide)

end Decode

end Dpid
