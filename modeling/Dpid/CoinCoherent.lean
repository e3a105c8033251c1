import Dpid.CommonCoin
import Mathlib
/-!
# CoinCoherent — the items of `shared_coin`

A share that is kept verifies for the hash of the round it names, or is the party's own.  While that is also the hash
of the key it is kept under, all the shares of a key combine to the one signature of its hash, whichever `f + 1` of them
came first (`shared_coin_coherent`).
-/
namespace Dpid
namespace Coin

open Polynomial

variable {F G1 G2 GT : Type} [Field F] [AddCommGroup G1] [Module F G1] [AddCommGroup G2] [Module F G2]
  [AddCommGroup GT] [Module F GT] {N f : Nat} {E : CoinSetup F G1 G2 GT} {P : F[X]}

/-! ## The invariant -/

/-- The shares kept are those of their key's hash, and the items made are those of the signature. -/
structure CoinOk (E : CoinSetup F G1 G2 GT) (P : F[X]) (f : Nat) (s : CoinState N G1) : Prop where
  raised : s.raised ≠ some .assertionError
  senders : ∀ k, ((s.received k).map Prod.fst).Nodup
  shares : ∀ k, ∀ e ∈ (s.received k).take (f + 1), e.2 = .g1 (P.eval (shareNode e.1) • hashRound E k)
  early : ∀ x ∈ s.puts, f + 1 ≤ (s.received x.1).length
  once : (s.puts.map Prod.fst).Nodup
  items : ∀ x ∈ s.puts, itemOf E N (P.eval 0 • hashRound E x.1) = .ok x.2
  queue : ∀ k item, s.outputQueue k = some item → (k, item) ∈ s.puts

theorem init_ok (E : CoinSetup F G1 G2 GT) (P : F[X]) (f : Nat) : CoinOk E P f (init (N := N)) := by
  constructor <;> simp [init]

theorem CoinOk.raise {s : CoinState N G1} (hs : CoinOk E P f s) {e : Exn} (he : e ≠ .assertionError) :
    CoinOk E P f { s with raised := some e } :=
  ⟨by simpa using he, hs.senders, hs.shares, hs.early, hs.once, hs.items, hs.queue⟩

theorem CoinOk.keep {s : CoinState N G1} (hs : CoinOk E P f s) {sender : Fin N} {sig : GroupElement G1} {k : PyVal}
    (hmem : sender ∉ (s.received k).map Prod.fst)
    (hshare : (s.received k).length ≤ f → sig = .g1 (P.eval (shareNode sender) • hashRound E k)) :
    CoinOk E P f { s with received := Function.update s.received k (s.received k ++ [(sender, sig)]) } := by
  have hcases : ∀ k', Function.update s.received k (s.received k ++ [(sender, sig)]) k' = s.received k' ∨
      k' = k ∧ Function.update s.received k (s.received k ++ [(sender, sig)]) k' = s.received k ++ [(sender, sig)] := by
    intro k'
    by_cases hk : k' = k
    · subst hk
      exact Or.inr ⟨rfl, Function.update_self _ _ _⟩
    · exact Or.inl (Function.update_of_ne hk _ _)
  refine ⟨hs.raised, fun k' => ?_, fun k' e he => ?_, fun x hx => ?_, hs.once, hs.items, hs.queue⟩
  · simp only
    rcases hcases k' with hk | ⟨rfl, hk⟩
    · rw [hk]
      exact hs.senders k'
    · rw [hk, List.map_append, List.map_singleton, List.nodup_append_comm, List.singleton_append, List.nodup_cons]
      exact ⟨hmem, hs.senders k'⟩
  · simp only at he
    rcases hcases k' with hk | ⟨rfl, hk⟩
    · rw [hk] at he
      exact hs.shares k' e he
    · rw [hk] at he
      by_cases hlen : (s.received k').length ≤ f
      · rcases List.mem_append.1 (List.mem_of_mem_take he) with he | he
        · exact hs.shares k' e (by rwa [List.take_of_length_le (by omega)])
        · obtain rfl := List.mem_singleton.1 he
          exact hshare hlen
      · rw [List.take_append_of_le_length (by omega)] at he
        exact hs.shares k' e he
  · have hlen := hs.early x hx
    simp only
    rcases hcases x.1 with hk | ⟨hx, hk⟩
    · rwa [hk]
    · rw [hk, ← hx, List.length_append]
      omega

theorem CoinOk.put {s : CoinState N G1} (hs : CoinOk E P f s) {k : PyVal} {item : String}
    (hlen : f + 1 ≤ (s.received k).length) (hfresh : ∀ x ∈ s.puts, x.1 ≠ k)
    (hitem : itemOf E N (P.eval 0 • hashRound E k) = .ok item) :
    CoinOk E P f { s with outputQueue := Function.update s.outputQueue k (some item), puts := (k, item) :: s.puts } := by
  refine ⟨hs.raised, hs.senders, hs.shares, fun x hx => ?_, ?_, fun x hx => ?_, fun k' item' hq => ?_⟩
  · rcases List.mem_cons.1 hx with rfl | hx
    · exact hlen
    · exact hs.early x hx
  · rw [List.map_cons, List.nodup_cons]
    refine ⟨fun hk => ?_, hs.once⟩
    obtain ⟨x, hx, hxk⟩ := List.mem_map.1 hk
    exact hfresh x hx hxk
  · rcases List.mem_cons.1 hx with rfl | hx
    · exact hitem
    · exact hs.items x hx
  · by_cases hk : k' = k
    · subst hk
      simp only [Function.update_self, Option.some.injEq] at hq
      exact hq ▸ List.mem_cons_self
    · simp only [Function.update_of_ne hk] at hq
      exact List.mem_cons_of_mem _ (hs.queue k' item' hq)

/-! ## One share -/

theorem itemOf_error {sig : G1} {e : Exn} (h : itemOf E N sig = .error e) : e ≠ .assertionError ∧ N < members N := by
  unfold itemOf deterministicSelectMembers at h
  split at h
  · rename_i hlt
    cases h
    exact ⟨by simp, hlt⟩
  · cases h

variable [DecidableEq GT]

/-- **The item of any `f + 1` shares** is that of the signature. -/
theorem output_eq (hd : Dealt E.group P E.PK) (hk : E.PK.k = f + 1) (hl : E.PK.l = N)
    (hN : Set.InjOn (Nat.cast : Nat → F) (Set.Iic N)) {sigs : List (Fin N × GroupElement G1)} {h : G1}
    (hlen : sigs.length = f + 1) (hnodup : (sigs.map Prod.fst).Nodup)
    (hsigs : ∀ e ∈ sigs, e.2 = .g1 (P.eval (shareNode e.1) • h)) : output E sigs h = itemOf E N (P.eval 0 • h) := by
  have hcombine : TBLSPublicKey.combineShares (F := F) E.PK (sigs.map (fun e => (e.1.val, e.2))) =
      .ok (P.eval 0 • h) := by
    refine hd.combineShares_eq (by rwa [hl]) (by rw [List.length_map, hlen, hk]) ?_ (fun x hx => ?_)
    · have := hnodup.map Fin.val_injective
      rwa [List.map_map] at this ⊢
    · obtain ⟨e, he, rfl⟩ := List.mem_map.1 hx
      exact ⟨by rw [hl]; exact e.1.isLt, hsigs e he⟩
  rw [output, hcombine]
  simp only [bind, Except.bind, hd.verifySignature_eq]

theorem checkShare_true (hd : Dealt E.group P E.PK) (hl : E.PK.l = N) {pid sender : Fin N} {sig : GroupElement G1} {h : G1}
    (hc : checkShare E pid sender sig h = .ok true) (hself : sender ≠ pid) :
    sig = .g1 (P.eval (shareNode sender) • h) := by
  rw [checkShare, if_neg hself] at hc
  refine (hd.verifyShare_iff (by rw [hl]; exact sender.isLt) sig h).1 ?_
  split at hc
  · assumption
  · cases hc
  · cases hc

theorem checkShare_error {pid sender : Fin N} {sig : GroupElement G1} {h : G1} {e : Exn}
    (hc : checkShare E pid sender sig h = .error e) : e ≠ .assertionError := by
  rintro rfl
  rw [checkShare] at hc
  split at hc
  · cases hc
  · split at hc
    · cases hc
    · cases hc
    · rename_i hne hverify
      cases hc
      exact hne rfl

/-- **What the loop does with a share**: it drops it, raises what is no `AssertionError`, or keeps it. -/
theorem onShare_cases (E : CoinSetup F G1 G2 GT) (f : Nat) (pid sender : Fin N) (msg : CoinMsg) (s : CoinState N G1) :
    onShare E f pid sender msg s = .ok s ∨
    (∃ e, e ≠ .assertionError ∧ onShare E f pid sender msg s = .error e) ∨
    ∃ sig, E.group.deserialize msg.rawSig = some sig ∧ sender ∉ (s.received msg.r.key).map Prod.fst ∧
      checkShare E pid sender sig (hashRound E msg.r) = .ok true ∧
      onShare E f pid sender msg s = store E f sender sig msg.r.key (hashRound E msg.r) s := by
  unfold onShare
  cases hsig : E.group.deserialize msg.rawSig with
  | none => exact Or.inr (Or.inl ⟨_, by simp, rfl⟩)
  | some sig =>
    simp only [bind, Except.bind, pure, Except.pure, PyVal.dictKey]
    by_cases hr : msg.r.hashable = true
    · simp only [hr, if_true]
      by_cases hmem : sender ∈ (s.received msg.r.key).map Prod.fst
      · simp only [hmem, if_true, true_or]
      · rw [if_neg hmem]
        cases hc : checkShare E pid sender sig (hashRound E msg.r) with
        | error e => exact Or.inr (Or.inl ⟨e, checkShare_error hc, rfl⟩)
        | ok b =>
          cases b with
          | false => exact Or.inl rfl
          | true  => exact Or.inr (Or.inr ⟨sig, rfl, hmem, hc, rfl⟩)
    · simp only [hr]
      exact Or.inr (Or.inl ⟨_, by simp, rfl⟩)

/-- **Keeping a share**, and making the item of `f + 1`; it raises where there are fewer parties than the item names. -/
theorem CoinOk.store (hd : Dealt E.group P E.PK) (hk : E.PK.k = f + 1) (hl : E.PK.l = N)
    (hN : Set.InjOn (Nat.cast : Nat → F) (Set.Iic N)) {s : CoinState N G1} (hs : CoinOk E P f s) {sender : Fin N}
    {sig : GroupElement G1} {k : PyVal} {h : G1} (hmem : sender ∉ (s.received k).map Prod.fst)
    (hshare : (s.received k).length ≤ f → h = hashRound E k ∧ sig = .g1 (P.eval (shareNode sender) • h)) :
    (∃ s', store E f sender sig k h s = .ok s' ∧ CoinOk E P f s' ∧ s'.raised = s.raised) ∨
      ∃ e, e ≠ .assertionError ∧ store E f sender sig k h s = .error e ∧ N < members N ∧ (s.received k).length = f := by
  have hkept := hs.keep hmem (fun hlen => (hshare hlen).1 ▸ (hshare hlen).2)
  unfold Coin.store
  by_cases hlen : (s.received k ++ [(sender, sig)]).length = f + 1
  · have hshort : (s.received k).length ≤ f := by
      rw [List.length_append, List.length_singleton] at hlen
      omega
    obtain ⟨rfl, -⟩ := hshare hshort
    have hfresh : ∀ x ∈ s.puts, x.1 ≠ k := by
      rintro x hx rfl
      have := hs.early x hx
      omega
    have hqueue : s.outputQueue k = none := by
      cases hq : s.outputQueue k with
      | none      => rfl
      | some item => exact absurd rfl (hfresh _ (hs.queue k item hq))
    have hself : ({ s with received := Function.update s.received k (s.received k ++ [(sender, sig)]) } :
        CoinState N G1).received k = s.received k ++ [(sender, sig)] := Function.update_self _ _ _
    have hout : output E (s.received k ++ [(sender, sig)]) (hashRound E k) = itemOf E N (P.eval 0 • hashRound E k) := by
      refine output_eq hd hk hl hN hlen (hself ▸ hkept.senders k) (fun e he => ?_)
      exact hkept.shares k e (by rwa [hself, List.take_of_length_le hlen.le])
    simp only [hlen, if_true, List.take_of_length_le hlen.le, hout]
    cases hitem : itemOf E N (P.eval 0 • hashRound E k) with
    | error e =>
      refine Or.inr ⟨e, (itemOf_error hitem).1, rfl, (itemOf_error hitem).2, ?_⟩
      rw [List.length_append, List.length_singleton] at hlen
      omega
    | ok item =>
      refine Or.inl ⟨_, ?_, hkept.put (by rw [hself, hlen]) hfresh hitem, rfl⟩
      simp only [bind, Except.bind, pure, Except.pure, hqueue, ne_eq, not_true_eq_false, if_false]
  · simp only [hlen, if_false]
    exact Or.inl ⟨_, rfl, hkept, rfl⟩

/-! ## Runs -/

/-- The share is among the `f + 1` that are kept for the key of its round. -/
def Kept (E : CoinSetup F G1 G2 GT) (f : Nat) (pid sender : Fin N) (msg : CoinMsg) (s : CoinState N G1) : Prop :=
  (s.received msg.r.key).length ≤ f ∧ sender ∉ (s.received msg.r.key).map Prod.fst ∧
    ∃ sig, E.group.deserialize msg.rawSig = some sig ∧ checkShare E pid sender sig (hashRound E msg.r) = .ok true

/-- A share that is kept names a round with the text of its key. -/
def Plain (E : CoinSetup F G1 G2 GT) (f : Nat) (c : Net.Conf (Fin N) (CoinState N G1) CoinMsg) :
    Net.Label (Fin N) CoinCall CoinMsg → Prop
  | .recv e => Kept E f e.dst e.src e.msg (c.loc e.dst) → E.str e.msg.r = E.str e.msg.r.key
  | _       => True

/-- The text that a share names its round with is that of the key. -/
def plainText (E : CoinSetup F G1 G2 GT) : Net.Label (Fin N) CoinCall CoinMsg → Bool
  | .recv e => decide (E.str e.msg.r = E.str e.msg.r.key)
  | _       => true

theorem kept_share (hd : Dealt E.group P E.PK) (hl : E.PK.l = N) {s : CoinState N G1} {pid sender : Fin N} {msg : CoinMsg}
    (hplain : Kept E f pid sender msg s → E.str msg.r = E.str msg.r.key)
    (hown : sender = pid → msg.rawSig = E.group.serialize (P.eval (shareNode sender) • hashRound E msg.r))
    {sig : GroupElement G1} (hsig : E.group.deserialize msg.rawSig = some sig)
    (hmem : sender ∉ (s.received msg.r.key).map Prod.fst)
    (hc : checkShare E pid sender sig (hashRound E msg.r) = .ok true) (hlen : (s.received msg.r.key).length ≤ f) :
    hashRound E msg.r = hashRound E msg.r.key ∧ sig = .g1 (P.eval (shareNode sender) • hashRound E msg.r) := by
  refine ⟨by rw [hashRound, hashRound, hplain ⟨hlen, hmem, sig, hsig, hc⟩], ?_⟩
  by_cases hself : sender = pid
  · rw [hown hself, E.group.deserialize_serialize, Option.some.injEq] at hsig
    exact hsig.symm
  · exact checkShare_true hd hl hc hself

/-- **A share taken**: for the key's hash if it is kept, and if it is the party's own then signed with its key. -/
theorem CoinOk.onMsg (hd : Dealt E.group P E.PK) (hk : E.PK.k = f + 1) (hl : E.PK.l = N)
    (hN : Set.InjOn (Nat.cast : Nat → F) (Set.Iic N)) {s : CoinState N G1} (hs : CoinOk E P f s) {pid sender : Fin N}
    {msg : CoinMsg} (hplain : Kept E f pid sender msg s → E.str msg.r = E.str msg.r.key)
    (hown : sender = pid → msg.rawSig = E.group.serialize (P.eval (shareNode sender) • hashRound E msg.r)) :
    CoinOk E P f (onMsg E f pid sender msg s) := by
  unfold Coin.onMsg
  rcases onShare_cases E f pid sender msg s with h | ⟨e, he, h⟩ | ⟨sig, hsig, hmem, hc, h⟩
  · rw [h]
    exact hs
  · rw [h]
    exact hs.raise he
  · rcases hs.store hd hk hl hN hmem (kept_share hd hl hplain hown hsig hmem hc) with
      ⟨s', hstore, hok, -⟩ | ⟨e, he, hstore, -⟩
    · rw [h, hstore]
      exact hok
    · rw [h, hstore]
      exact hs.raise he

theorem getCoin_sends {SK : TBLSPrivateKey F G2} {pid : Fin N} (hSK : SK.SK = P.eval (shareNode pid)) (round : PyVal)
    (s : CoinState N G1) : ∀ o ∈ (getCoin E SK pid round s).2,
      o.2.rawSig = E.group.serialize (P.eval (shareNode pid) • hashRound E o.2.r) := by
  intro o ho
  obtain ⟨i, -, rfl⟩ := List.mem_map.1 ho
  rw [TBLSPrivateKey.sign, hSK]

theorem CoinOk.getCoin {s : CoinState N G1} (hs : CoinOk E P f s) (SK : TBLSPrivateKey F G2) (pid : Fin N) (round : PyVal) :
    CoinOk E P f (getCoin E SK pid round s).1 := by
  simp only [Coin.getCoin]
  split
  · exact ⟨hs.raised, hs.senders, hs.shares, hs.early, hs.once, hs.items, hs.queue⟩
  · exact ⟨hs.raised, hs.senders, hs.shares, hs.early, hs.once, hs.items, hs.queue⟩

omit [DecidableEq GT] in
theorem CoinOk.get {s s' : CoinState N G1} (hs : CoinOk E P f s) {k : PyVal} {item : String}
    (h : get k s = some (item, s')) : CoinOk E P f s' ∧ (k, item) ∈ s.puts := by
  unfold Coin.get at h
  split at h
  · obtain ⟨item', hq, heq⟩ := Option.map_eq_some_iff.1 h
    cases heq
    refine ⟨⟨hs.raised, hs.senders, hs.shares, hs.early, hs.once, hs.items, fun k' x hx => ?_⟩, hs.queue k item hq⟩
    by_cases hk : k' = k
    · subst hk
      simp only [Function.update_self] at hx
      cases hx
    · simp only [Function.update_of_ne hk] at hx
      exact hs.queue k' x hx
  · cases h

theorem coin_preserved (hd : Dealt E.group P E.PK) (hk : E.PK.k = f + 1) (hl : E.PK.l = N)
    (hN : Set.InjOn (Nat.cast : Nat → F) (Set.Iic N)) {SK : Fin N → TBLSPrivateKey F G2}
    (hSK : ∀ p, (SK p).SK = P.eval (shareNode p)) (byz : Finset (Fin N)) :
    Net.Preserved (sharedCoin E f SK) byz (Plain E f) (fun _ _ => True) (fun loc _ p => CoinOk E P f (loc p))
      (fun _ e => e.msg.rawSig = E.group.serialize (P.eval (shareNode e.src) • hashRound E e.msg.r)) where
  grow_refl := fun _ => trivial
  grow_wake := fun _ _ _ _ _ _ => trivial
  grow_recv := fun _ _ _ _ _ _ _ => trivial
  local_mono := by
    intro loc loc' hist hist' p _ _ _ hp h
    rw [hp]
    exact h
  msg_mono := fun _ _ _ _ h => h
  init := fun p _ => init_ok E P f
  wake := by
    intro conf p t s out loc' _ hp hL h hloc _
    have hself : loc' p = s := by rw [hloc, Function.update_self]
    rw [hself]
    cases t with
    | getCoin round =>
      simp only [sharedCoin, Option.some.injEq] at h
      have hsends := getCoin_sends (E := E) (hSK p) round (conf.loc p)
      have hok := (hL p hp).getCoin (SK p) p round
      rw [h] at hsends hok
      exact ⟨hok, hsends⟩
    | get k =>
      simp only [sharedCoin, Option.map_eq_some_iff] at h
      obtain ⟨⟨item, s'⟩, hget, heq⟩ := h
      cases heq
      exact ⟨((hL p hp).get hget).1, by simp⟩
  recv := by
    intro conf e s out loc' hok hp hL hW h hloc _
    have hself : loc' e.dst = s := by rw [hloc, Function.update_self]
    simp only [sharedCoin] at h
    split at h
    · simp only [Option.some.injEq, Prod.mk.injEq] at h
      obtain ⟨rfl, rfl⟩ := h
      rw [hself]
      exact ⟨(hL e.dst hp).onMsg hd hk hl hN hok (fun hown => hW (hown ▸ hp)), by simp⟩
    · cases h

/-! ## Runs in which no loop raises -/

/-- A share that the loop of an honest party survives: its round has a hash, it deserializes, if its sender is new it is an
element of `G1`, and if it is kept it names a round with the text of its key. -/
structure Usable (E : CoinSetup F G1 G2 GT) (f : Nat) (pid sender : Fin N) (msg : CoinMsg) (s : CoinState N G1) :
    Prop where
  round : msg.r.hashable = true
  share : ∃ sig, E.group.deserialize msg.rawSig = some sig ∧
    (sender ∉ (s.received msg.r.key).map Prod.fst → ∃ x, sig = .g1 x)
  text : Kept E f pid sender msg s → E.str msg.r = E.str msg.r.key

/-- The last of `f + 1` shares is kept only where the item names no more members than there are, and a Byzantine party's
share is usable. -/
structure Taken (E : CoinSetup F G1 G2 GT) (f : Nat) (byz : Finset (Fin N)) (pid sender : Fin N) (msg : CoinMsg)
    (s : CoinState N G1) : Prop where
  members : Kept E f pid sender msg s → (s.received msg.r.key).length = f → members N ≤ N
  usable : sender ∈ byz → Usable E f pid sender msg s

/-- `getCoin` is called with a number, and what is delivered is taken. -/
def Quiet (E : CoinSetup F G1 G2 GT) (f : Nat) (byz : Finset (Fin N)) (loc : Fin N → CoinState N G1) :
    Net.Label (Fin N) CoinCall CoinMsg → Prop
  | .wake _ (.getCoin round) => ∃ n, round = .ofNat n
  | .wake _ (.get _)         => True
  | .recv e                  => Taken E f byz e.dst e.src e.msg (loc e.dst)
  | .inject _                => True

theorem checkShare_g1 (hd : Dealt E.group P E.PK) (hl : E.PK.l = N) (pid sender : Fin N) (x h : G1) :
    ∃ b, checkShare E pid sender (.g1 x) h = .ok b := by
  unfold checkShare
  split
  · exact ⟨true, rfl⟩
  · have hnode : sender.val < E.PK.l := by
      rw [hl]
      exact sender.isLt
    have hverify : E.PK.verifyShare E.group (.g1 x) sender h = .ok () ∨
        E.PK.verifyShare E.group (.g1 x) sender h = .error .assertionError := by
      simp only [TBLSPublicKey.verifyShare, if_neg (Nat.not_le.2 hnode), hd.VKs _ hnode, TBLSPublicKey.pairSig, bind,
        Except.bind, pure, Except.pure, throw, throwThe, MonadExceptOf.throw]
      split
      · exact Or.inr rfl
      · exact Or.inl rfl
    rcases hverify with hverify | hverify
    · exact ⟨true, by rw [hverify]⟩
    · exact ⟨false, by rw [hverify]⟩

/-- **A usable share is dropped or kept.** -/
theorem Usable.onShare (hd : Dealt E.group P E.PK) (hl : E.PK.l = N) {pid sender : Fin N} {msg : CoinMsg}
    {s : CoinState N G1} (h : Usable E f pid sender msg s) :
    onShare E f pid sender msg s = .ok s ∨
    ∃ sig, E.group.deserialize msg.rawSig = some sig ∧ sender ∉ (s.received msg.r.key).map Prod.fst ∧
      checkShare E pid sender sig (hashRound E msg.r) = .ok true ∧
      onShare E f pid sender msg s = store E f sender sig msg.r.key (hashRound E msg.r) s := by
  obtain ⟨sig, hsig, hg1⟩ := h.share
  unfold Coin.onShare
  simp only [hsig, bind, Except.bind, pure, Except.pure, PyVal.dictKey, h.round, if_true]
  by_cases hmem : sender ∈ (s.received msg.r.key).map Prod.fst
  · exact Or.inl (if_pos hmem)
  · obtain ⟨x, rfl⟩ := hg1 hmem
    obtain ⟨b, hb⟩ := checkShare_g1 hd hl pid sender x (hashRound E msg.r)
    rw [if_neg hmem, hb]
    cases b with
    | false => exact Or.inl rfl
    | true  => exact Or.inr ⟨_, rfl, hmem, hb, rfl⟩

/-- **The loop does not raise** on a usable share. -/
theorem CoinOk.onMsg_quiet (hd : Dealt E.group P E.PK) (hk : E.PK.k = f + 1) (hl : E.PK.l = N)
    (hN : Set.InjOn (Nat.cast : Nat → F) (Set.Iic N)) {s : CoinState N G1} (hs : CoinOk E P f s) {pid sender : Fin N}
    {msg : CoinMsg} (husable : Usable E f pid sender msg s)
    (hmembers : Kept E f pid sender msg s → (s.received msg.r.key).length = f → members N ≤ N)
    (hown : sender = pid → msg.rawSig = E.group.serialize (P.eval (shareNode sender) • hashRound E msg.r)) :
    (Coin.onMsg E f pid sender msg s).raised = s.raised := by
  unfold Coin.onMsg
  rcases husable.onShare hd hl with h | ⟨sig, hsig, hmem, hc, h⟩
  · rw [h]
  · rcases hs.store hd hk hl hN hmem (kept_share hd hl husable.text hown hsig hmem hc) with
      ⟨s', hstore, -, hraised⟩ | ⟨e, -, hstore, hlt, hlen⟩
    · rw [h, hstore]
      exact hraised
    · exact absurd (hmembers ⟨hlen.le, hmem, sig, hsig, hc⟩ hlen) (Nat.not_le.2 hlt)

/-- **No loop raises** in a quiet run; what an honest party sends is its share of a numbered round. -/
theorem quiet_preserved (hd : Dealt E.group P E.PK) (hk : E.PK.k = f + 1) (hl : E.PK.l = N)
    (hN : Set.InjOn (Nat.cast : Nat → F) (Set.Iic N)) {SK : Fin N → TBLSPrivateKey F G2}
    (hSK : ∀ p, (SK p).SK = P.eval (shareNode p)) (byz : Finset (Fin N)) :
    Net.Preserved (sharedCoin E f SK) byz (fun c l => Quiet E f byz c.loc l) (fun _ _ => True)
      (fun loc _ p => CoinOk E P f (loc p) ∧ (loc p).raised = none)
      (fun _ e => (∃ n, e.msg.r = .ofNat n) ∧
        e.msg.rawSig = E.group.serialize (P.eval (shareNode e.src) • hashRound E e.msg.r)) where
  grow_refl := fun _ => trivial
  grow_wake := fun _ _ _ _ _ _ => trivial
  grow_recv := fun _ _ _ _ _ _ _ => trivial
  local_mono := by
    intro loc loc' hist hist' p _ _ _ hp h
    rw [hp]
    exact h
  msg_mono := fun _ _ _ _ h => h
  init := fun p _ => ⟨init_ok E P f, rfl⟩
  wake := by
    intro conf p t s out loc' hok hp hL h hloc _
    have hself : loc' p = s := by rw [hloc, Function.update_self]
    rw [hself]
    obtain ⟨hcoin, hnone⟩ := hL p hp
    cases t with
    | getCoin round =>
      simp only [sharedCoin, Option.some.injEq] at h
      obtain ⟨n, rfl⟩ := hok
      have hsends := getCoin_sends (E := E) (hSK p) (.ofNat n) (conf.loc p)
      have hkeep := hcoin.getCoin (SK p) p (.ofNat n)
      have hraised : (Coin.getCoin E (SK p) p (.ofNat n) (conf.loc p)).1.raised = none := by
        simp only [Coin.getCoin]
        split <;> exact hnone
      have hround : ∀ o ∈ (Coin.getCoin E (SK p) p (.ofNat n) (conf.loc p)).2, ∃ m, o.2.r = .ofNat m := by
        intro o ho
        obtain ⟨i, -, rfl⟩ := List.mem_map.1 ho
        exact ⟨n, rfl⟩
      rw [h] at hsends hkeep hraised hround
      exact ⟨⟨hkeep, hraised⟩, fun o ho => ⟨hround o ho, hsends o ho⟩⟩
    | get k =>
      simp only [sharedCoin, Option.map_eq_some_iff] at h
      obtain ⟨⟨item, s'⟩, hget, heq⟩ := h
      cases heq
      have hraised : s'.raised = none := by
        unfold Coin.get at hget
        split at hget
        · obtain ⟨item', -, heq⟩ := Option.map_eq_some_iff.1 hget
          cases heq
          exact hnone
        · cases hget
      exact ⟨⟨(hcoin.get hget).1, hraised⟩, by simp⟩
  recv := by
    intro conf e s out loc' hok hp hL hW h hloc _
    have hself : loc' e.dst = s := by rw [hloc, Function.update_self]
    obtain ⟨hcoin, hnone⟩ := hL e.dst hp
    have htaken : Taken E f byz e.dst e.src e.msg (conf.loc e.dst) := hok
    have husable : Usable E f e.dst e.src e.msg (conf.loc e.dst) := by
      by_cases hsrc : e.src ∈ byz
      · exact htaken.usable hsrc
      · -- an honest party's share is of a numbered round, and its own
        obtain ⟨⟨n, hr⟩, hsig⟩ := hW hsrc
        refine ⟨by rw [hr]; rfl, ⟨.g1 (P.eval (shareNode e.src) • hashRound E e.msg.r), ?_, fun _ => ⟨_, rfl⟩⟩,
          fun _ => by rw [hr]; rfl⟩
        rw [hsig]
        exact E.group.deserialize_serialize _
    have hown : e.src = e.dst → e.msg.rawSig = E.group.serialize (P.eval (shareNode e.src) • hashRound E e.msg.r) :=
      fun heq => (hW (heq ▸ hp)).2
    simp only [sharedCoin, hnone, if_true, Option.some.injEq, Prod.mk.injEq] at h
    obtain ⟨rfl, rfl⟩ := h
    rw [hself]
    refine ⟨⟨hcoin.onMsg hd hk hl hN husable.text hown, ?_⟩, by simp⟩
    rw [hcoin.onMsg_quiet hd hk hl hN husable htaken.members hown]
    exact hnone

/-- One item a round, no failed assertion, and the same items at all honest parties. -/
structure Coherent (byz : Finset (Fin N)) (c : Net.Conf (Fin N) (CoinState N G1) CoinMsg) : Prop where
  once : ∀ p ∉ byz, ((c.loc p).puts.map Prod.fst).Nodup
  verified : ∀ p ∉ byz, (c.loc p).raised ≠ some .assertionError
  equal : ∀ p ∉ byz, ∀ q ∉ byz, ∀ k x y, (k, x) ∈ (c.loc p).puts → (k, y) ∈ (c.loc q).puts → x = y

end Coin

open Coin

/-- **Coherence of the coin** in every run in which each share kept names a round with the text of its key. -/
theorem shared_coin_coherent {F G1 G2 GT : Type} [Field F] [DecidableEq F] [AddCommGroup G1] [Module F G1]
    [AddCommGroup G2] [Module F G2] [AddCommGroup GT] [Module F GT] [DecidableEq GT] {N f players k : Nat}
    {E : CoinSetup F G1 G2 GT} {a : List F} {SKs : List (TBLSPrivateKey F G2)} {SK : Fin N → TBLSPrivateKey F G2}
    (hN : Set.InjOn (Nat.cast : Nat → F) (Set.Iic N)) (hdeal : dealer E.group players k a = .ok (E.PK, SKs))
    (hk : E.PK.k = f + 1) (hl : E.PK.l = N) (hSK : ∀ p : Fin N, SKs[p.val]? = some (SK p)) {byz : Finset (Fin N)}
    {c : Net.Conf (Fin N) (CoinState N G1) CoinMsg} (hc : Net.Run (sharedCoin E f SK) byz (Plain E f) c) :
    Coherent byz c := by
  obtain ⟨hd, hSK'⟩ := dealer_keys hdeal hl hSK
  have hok := ((coin_preserved hd hk hl hN hSK' byz).run hc).loc
  refine ⟨fun p hp => (hok p hp).once, fun p hp => (hok p hp).raised, fun p hp q hq k x y hx hy => ?_⟩
  have hitem : .ok x = itemOf E N ((Shamir.poly a).eval 0 • hashRound E k) := ((hok p hp).items (k, x) hx).symm
  exact Except.ok.inj (hitem.trans ((hok q hq).items (k, y) hy))

/-! ## Four parties -/

/-- `str((sid, r))` with an empty `sid`, for the rounds below. -/
def str13 : PyVal → List Char
  | .atom (.int i)     => "('', ".toList ++ (PyId.int i).str.toList ++ [')']
  | .atom (.bool true) => "('', True)".toList
  | _                  => []

/-- The public key to the polynomial `3 + 5 x`. -/
def keys13 : TBLSPublicKey (ZMod 13) := ⟨4, 2, 3, [8, 0, 5, 10]⟩

def share13 (p : Fin 4) : TBLSPrivateKey (ZMod 13) (ZMod 13) := ⟨keys13, 3 + 5 * (p.val + 1), p⟩

def setup13 : CoinSetup (ZMod 13) (ZMod 13) (ZMod 13) (ZMod 13) where
  group := group13
  H := sha256
  str := str13
  sample := fun seed l k => (l.rotate seed).take k
  PK := keys13

/-- The share of party `p` for a round. -/
def msg13 (p : Fin 4) (r : PyVal) : CoinMsg :=
  ⟨r, group13.serialize ((share13 p).sign (hashRound setup13 r))⟩

theorem dealer13 : dealer setup13.group 4 2 [3, 5] = .ok (setup13.PK, (List.finRange 4).map share13) := by
  decide +kernel

theorem natCast_injOn13 : Set.InjOn (Nat.cast : Nat → ZMod 13) (Set.Iic 4) := by
  intro i hi j hj h
  have hmod := (ZMod.natCast_eq_natCast_iff' i j 13).1 h
  rwa [Nat.mod_eq_of_lt (by have := Set.mem_Iic.1 hi; omega), Nat.mod_eq_of_lt (by have := Set.mem_Iic.1 hj; omega)] at hmod

/-- Party 0 makes the item of round 1 of the shares of 3 and 0, party 1 of those of 0 and 1. -/
theorem shared_coin_coherent_four : ∃ c, Net.Run (sharedCoin setup13 1 share13) {3} (Plain setup13 1) c ∧
    ((c.loc 0).received (.ofNat 1)).map Prod.fst = [3, 0] ∧ ((c.loc 1).received (.ofNat 1)).map Prod.fst = [0, 1] ∧
    (c.loc 0).puts.length = 1 ∧ (c.loc 1).puts.length = 1 ∧ Coherent {3} c := by
  have hrun : (Net.exec (sharedCoin setup13 1 share13) {3} (fun _ => plainText setup13)
      [.wake 0 (.getCoin (.ofNat 1)), .inject ⟨3, 0, msg13 3 (.ofNat 1)⟩, .recv 0, .recv 0, .recv 0,
        .wake 1 (.getCoin (.ofNat 1)), .recv 1]
      (sharedCoin setup13 1 share13).start).any (fun c => decide
        (((c.loc 0).received (.ofNat 1)).map Prod.fst = [3, 0] ∧ ((c.loc 1).received (.ofNat 1)).map Prod.fst = [0, 1] ∧
          (c.loc 0).puts.length = 1 ∧ (c.loc 1).puts.length = 1)) = true := by
    decide +kernel
  obtain ⟨c, hplain, hout⟩ := Net.exists_run_of_exec (R := Plain setup13 1) hrun (fun c l hl => by
    cases l with
    | recv e   => exact fun _ => of_decide_eq_true hl
    | wake p t => trivial
    | inject e => trivial)
  obtain ⟨h0, h1, hput0, hput1⟩ := of_decide_eq_true hout
  refine ⟨c, hplain, h0, h1, hput0, hput1, ?_⟩
  exact shared_coin_coherent natCast_injOn13 dealer13 rfl rfl (by decide) hplain

/-- Party 3 signs for the round `True`, which party 0 looks up as round 1: the shares it combines are of two hashes. -/
theorem shared_coin_counterexample : ¬ ∀ c, Net.Reachable (sharedCoin setup13 1 share13) {3} c → Coherent {3} c := by
  intro h
  have hrun : (Net.exec (sharedCoin setup13 1 share13) {3} (fun _ _ => true)
      [.wake 0 (.getCoin (.ofNat 1)), .inject ⟨3, 0, msg13 3 (.atom (.bool true))⟩, .recv 0, .recv 0]
      (sharedCoin setup13 1 share13).start).any (fun c => decide ((c.loc 0).raised = some .assertionError)) = true := by
    decide +kernel
  obtain ⟨c, hc, hout⟩ := Net.exists_run_of_exec hrun (fun _ _ _ => trivial)
  exact (h c hc).verified 0 (by decide) (of_decide_eq_true hout)

end Dpid
