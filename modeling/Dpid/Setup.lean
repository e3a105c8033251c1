import Dpid.AbaBits
import Dpid.CoinCoherent
import Mathlib
/-!
# Setup — `binaryagreement` with the coin of `_setup` (`honeybadgerbft/core/honeybadger.py`)

`_setup(j)` passes the `getCoin` of a `shared_coin` to `binaryagreement` as `coin`, each of the two with a queue of its
own.  The items of that coin are texts of lists of members; `binaryagreement` compares its coin with `0` and `1` and
takes it as an estimate.
-/
namespace Dpid

/-- The messages `('ACS_COIN', j, o)` and `('ACS_ABA', j, o)` of one `j`. -/
inductive SetupMsg where
  | coin (o : CoinMsg)
  | aba (o : AbaMsg)

structure SetupState (N : Nat) (G1 : Type) where
  aba : AbaState N
  coin : CoinState N G1

namespace Setup

variable {F G1 G2 GT : Type} [Field F] [AddCommGroup G1] [Module F G1] [AddCommGroup G2] [Module F G2]
  [AddCommGroup GT] [Module F GT] [DecidableEq GT] {N : Nat}

/-- `coin_bcast` and `aba_send`. -/
def send (out : List (Fin N × AbaMsg)) : List (Fin N × SetupMsg) := out.map (fun o => (o.1, .aba o.2))

def coinBcast (out : List (Fin N × CoinMsg)) : List (Fin N × SetupMsg) := out.map (fun o => (o.1, .coin o.2))

/-- The call `coin(r)`: the share is sent, and once the item is there the call returns it. -/
def coinStep (E : CoinSetup F G1 G2 GT) (SK : TBLSPrivateKey F G2) (pid : Fin N) (r : Nat) (values : Finset Bool)
    (s : SetupState N G1) : Option (SetupState N G1 × List (Fin N × SetupMsg)) :=
  if .ofNat r ∈ s.coin.waiting then
    (Coin.get (.ofNat r) s.coin).map (fun x =>
      (⟨(Aba.onCoin r values (.atom (.str x.1)) s.aba).1, x.2⟩,
        send (Aba.onCoin r values (.atom (.str x.1)) s.aba).2))
  else
    let x := Coin.getCoin E SK pid (.ofNat r) s.coin
    match Coin.openCall E SK pid (.ofNat r) with
    | .ok _    => some (⟨s.aba, x.1⟩, coinBcast x.2)
    | .error e => some (⟨{ s.aba with phase := .raised e }, x.1⟩, coinBcast x.2)

/-- One step of the main thread of `binaryagreement`. -/
def mainStep (E : CoinSetup F G1 G2 GT) (f : Nat) (SK : TBLSPrivateKey F G2) (pid : Fin N) (vi : PyVal)
    (s : SetupState N G1) : Option (SetupState N G1 × List (Fin N × SetupMsg)) :=
  match s.aba.phase with
  | .coin r values => coinStep E SK pid r values s
  | _              => (Aba.mainStep f vi (fun _ => .atom .none) s.aba).map (fun x => (⟨x.1, s.coin⟩, send x.2))

/-- The queue of each thread. -/
def onMsg (E : CoinSetup F G1 G2 GT) (f : Nat) (pid sender : Fin N) (msg : SetupMsg) (s : SetupState N G1) :
    Option (SetupState N G1 × List (Fin N × SetupMsg)) :=
  match msg with
  | .coin o => if s.coin.raised = none then some (⟨s.aba, Coin.onMsg E f pid sender o s.coin⟩, []) else none
  | .aba o  =>
    if s.aba.recv = .running then some (⟨(Aba.onMsg f sender o s.aba).1, s.coin⟩, send (Aba.onMsg f sender o s.aba).2)
    else none

end Setup

/-- `_setup(j)` at all `N` parties, for one `j`; `input p` is what `aba_inputs[j].get()` returns at `p`. -/
def setup {F G1 G2 GT : Type} [Field F] [AddCommGroup G1] [Module F G1] [AddCommGroup G2] [Module F G2]
    [AddCommGroup GT] [Module F GT] [DecidableEq GT] {N : Nat} (E : CoinSetup F G1 G2 GT) (f : Nat)
    (SK : Fin N → TBLSPrivateKey F G2) (input : Fin N → Bool) :
    Net.Proto (Fin N) Unit (SetupState N G1) SetupMsg where
  init := fun _ => ⟨Aba.init, Coin.init⟩
  wake := fun pid _ s => Setup.mainStep E f (SK pid) pid (.ofBit (input pid)) s
  recv := fun pid s sender msg => Setup.onMsg E f pid sender msg s

namespace Setup

open Aba

variable {F G1 G2 GT : Type} [Field F] [AddCommGroup G1] [Module F G1] [AddCommGroup G2] [Module F G2]
  [AddCommGroup GT] [Module F GT] [DecidableEq GT] {N f : Nat} {byz : Finset (Fin N)} {E : CoinSetup F G1 G2 GT}
  {SK : Fin N → TBLSPrivateKey F G2} {input : Fin N → Bool}

/-- What the honest parties' coins, sent `EST`s and `AUX`s and threads are like within bits; `coin` is the receive loop of
`shared_coin`. -/
structure Within (byz : Finset (Fin N)) (c : Net.Conf (Fin N) (SetupState N G1) SetupMsg) : Prop where
  coins : ∀ p ∉ byz, ∀ x ∈ (c.loc p).aba.coins, x.2.bit ≠ none
  sent : ∀ e ∈ c.net ++ c.hist, e.src ∉ byz → ∀ o, e.msg = .aba o → o.tag ≠ .conf → o.v.bit ≠ none
  main : ∀ p ∉ byz, ∀ e, (c.loc p).aba.phase ≠ .raised e
  recv : ∀ p ∉ byz, ∀ e, (c.loc p).aba.recv ≠ .raised e
  coin : ∀ p ∉ byz, (c.loc p).coin.raised = none

/-- No call of the coin returns, and what is taken is such that the two receive loops survive it. -/
def Coinless (E : CoinSetup F G1 G2 GT) (f : Nat) (byz : Finset (Fin N))
    (c : Net.Conf (Fin N) (SetupState N G1) SetupMsg) : Net.Label (Fin N) Unit SetupMsg → Prop
  | .wake p _ => ∀ r V, (c.loc p).aba.phase = .coin r V → .ofNat r ∉ (c.loc p).coin.waiting
  | .recv e   => (e.src ∈ byz → ∀ o, e.msg = .aba o → Accepted e.src o (c.loc e.dst).aba) ∧
      ∀ o, e.msg = .coin o → Coin.Taken E f byz e.dst e.src o (c.loc e.dst).coin
  | .inject _ => True

/-! ## The part of `binaryagreement` -/

/-- The messages of `binaryagreement`. -/
def abaMsg : SetupMsg → Option AbaMsg
  | .coin _ => none
  | .aba o  => some o

theorem seen_send (out : List (Fin N × AbaMsg)) : Net.seen abaMsg (send out) = out := by
  simp [Net.seen, send, List.filterMap_map, abaMsg]

theorem seen_coinBcast (out : List (Fin N × CoinMsg)) : Net.seen abaMsg (coinBcast out) = [] := by
  simp [Net.seen, coinBcast, List.filterMap_map, abaMsg]

/-- **While no coin returns the part is a `binaryagreement` whose coin is never asked.** -/
theorem setup_projects {P : Polynomial F} (hd : Dealt E.group P E.PK) (hl : E.PK.l = N)
    (hSK : ∀ p, (SK p).SK = P.eval (shareNode p)) :
    Net.RunProjects (setup E f SK input) byz (Coinless E f byz)
      (binaryagreement f (fun _ _ => .atom .none) (fun p => .ofBit (input p)))
      (OnBits byz (fun _ _ => .atom .none)) SetupState.aba abaMsg where
  init := fun _ => rfl
  wake := by
    intro c p t s out _ hok hp h
    have hopen : ∀ r, Coin.openCall E (SK p) p (.ofNat r) = .ok (.ofNat r) := by
      intro r
      have hverify := (hd.verifyShare_iff (by rw [hl]; exact p.isLt)
        (.g1 ((SK p).sign (Coin.hashRound E (.ofNat r)))) (Coin.hashRound E (.ofNat r))).2
          (by rw [TBLSPrivateKey.sign, hSK])
      rw [Coin.openCall, hverify]
      rfl
    cases hphase : (c.loc p).aba.phase with
    | coin r values =>
      left
      simp only [setup, mainStep, hphase, coinStep, if_neg (hok r values hphase), hopen, Option.some.injEq,
        Prod.mk.injEq] at h
      obtain ⟨rfl, rfl⟩ := h
      exact ⟨rfl, seen_coinBcast _⟩
    | input | bin | aux | conf | returned | raised =>
      right
      simp only [setup, mainStep, hphase, Option.map_eq_some_iff] at h
      obtain ⟨x, hx, heq⟩ := h
      cases heq
      exact ⟨(), by rw [seen_send]; exact hx, fun r V hV => by rw [hphase] at hV; cases hV⟩
  recv := by
    intro c e s out hok hp h
    obtain ⟨src, dst, msg⟩ := e
    cases msg with
    | coin o =>
      left
      simp only [setup, onMsg, Option.ite_none_right_eq_some, Option.some.injEq, Prod.mk.injEq] at h
      obtain ⟨-, rfl, rfl⟩ := h
      exact ⟨rfl, rfl, rfl⟩
    | aba o =>
      right
      simp only [setup, onMsg, Option.ite_none_right_eq_some, Option.some.injEq, Prod.mk.injEq] at h
      obtain ⟨hrun, rfl, rfl⟩ := h
      refine ⟨o, rfl, ?_, fun hsrc => hok.1 hsrc o rfl⟩
      simp only [binaryagreement, hrun, if_true, seen_send]
  inject := fun _ _ => trivial

/-! ## The part of `shared_coin` -/

/-- The messages of `shared_coin`. -/
def coinMsg : SetupMsg → Option CoinMsg
  | .coin o => some o
  | .aba _  => none

theorem seenCoin_send (out : List (Fin N × AbaMsg)) : Net.seen coinMsg (send out) = [] := by
  simp [Net.seen, send, List.filterMap_map, coinMsg]

theorem seenCoin_coinBcast (out : List (Fin N × CoinMsg)) : Net.seen coinMsg (coinBcast out) = out := by
  simp [Net.seen, coinBcast, List.filterMap_map, coinMsg]

/-- **While no coin returns the part is a `shared_coin` whose `getCoin` is called with numbers.** -/
theorem setup_projects_coin (E : CoinSetup F G1 G2 GT) (f : Nat) (SK : Fin N → TBLSPrivateKey F G2)
    (input : Fin N → Bool) (byz : Finset (Fin N)) :
    Net.RunProjects (setup E f SK input) byz (Coinless E f byz) (sharedCoin E f SK) (Coin.Quiet E f byz) SetupState.coin
      coinMsg where
  init := fun _ => rfl
  wake := by
    intro c p t s out _ hok hp h
    cases hphase : (c.loc p).aba.phase with
    | coin r values =>
      right
      have hget : (sharedCoin E f SK).wake p (.getCoin (.ofNat r)) (c.loc p).coin = some (s.coin, Net.seen coinMsg out) := by
        simp only [setup, mainStep, hphase, coinStep, if_neg (hok r values hphase)] at h
        split at h
        · cases h
          rw [seenCoin_coinBcast]
          rfl
        · cases h
          rw [seenCoin_coinBcast]
          rfl
      exact ⟨.getCoin (.ofNat r), hget, r, rfl⟩
    | input | bin | aux | conf | returned | raised =>
      left
      simp only [setup, mainStep, hphase, Option.map_eq_some_iff] at h
      obtain ⟨x, -, heq⟩ := h
      cases heq
      exact ⟨rfl, seenCoin_send _⟩
  recv := by
    intro c e s out hok hp h
    obtain ⟨src, dst, msg⟩ := e
    cases msg with
    | coin o =>
      right
      simp only [setup, onMsg, Option.ite_none_right_eq_some, Option.some.injEq, Prod.mk.injEq] at h
      obtain ⟨hrun, rfl, rfl⟩ := h
      refine ⟨o, rfl, ?_, hok.2 o rfl⟩
      simp only [sharedCoin, hrun, if_true]
      rfl
    | aba o =>
      left
      simp only [setup, onMsg, Option.ite_none_right_eq_some, Option.some.injEq, Prod.mk.injEq] at h
      obtain ⟨-, rfl, rfl⟩ := h
      exact ⟨rfl, rfl, seenCoin_send _⟩
  inject := fun _ _ => trivial

/-! ## The coins -/

theorem startRound_coins (r : Nat) (est : PyVal) (s : AbaState N) : (startRound r est s).1.coins = s.coins := by
  unfold startRound
  split
  · rfl
  · simp only
    split <;> rfl

theorem mainStep_coins {vi : PyVal} {coin : Nat → PyVal} {s s' : AbaState N} {out : List (Fin N × AbaMsg)}
    (h : Aba.mainStep f vi coin s = some (s', out)) :
    s'.coins = s.coins ∨ ∃ r values, s.phase = .coin r values ∧ s'.coins = (r, coin r) :: s.coins := by
  cases mainStep_cases h with
  | refuse hp hv => exact Or.inl rfl
  | enter hp hv  => exact Or.inl (startRound_coins _ _ _)
  | aux hp hb    => exact Or.inl rfl
  | conf hp hv   =>
    left
    unfold onAuxExit
    split <;> rfl
  | coin hp hv   => exact Or.inl rfl
  | @next r values est s₁ hp hest =>
    refine Or.inr ⟨r, values, hp, ?_⟩
    rw [startRound_coins, setNewEstimate_frame hest]
  | @abandon r values hp => exact Or.inr ⟨r, values, hp, rfl⟩

theorem onMsg_coins (q : Fin N) (msg : AbaMsg) (s : AbaState N) : (Aba.onMsg f q msg s).1.coins = s.coins := by
  unfold Aba.onMsg
  cases h : process f q msg s with
  | error e => rfl
  | ok x =>
    obtain ⟨s', out⟩ := x
    obtain ⟨rfl, -⟩ | ⟨-, b, -, rfl, -⟩ | ⟨-, b, -, -, -, rfl⟩ | ⟨-, C, -, -, -, rfl⟩ := process_cases h <;> rfl

/-- **A coin that returns is a text.** -/
theorem mainStep_coin {pid : Fin N} {key : TBLSPrivateKey F G2} {vi : PyVal} {s s' : SetupState N G1}
    {out : List (Fin N × SetupMsg)} (h : mainStep E f key pid vi s = some (s', out)) :
    s'.aba.coins = s.aba.coins ∨ ∃ r item, s'.aba.coins = (r, .atom (.str item)) :: s.aba.coins := by
  cases hphase : s.aba.phase with
  | coin r values =>
    simp only [mainStep, hphase, coinStep] at h
    split at h
    · obtain ⟨x, -, heq⟩ := Option.map_eq_some_iff.1 h
      cases heq
      have hstep : Aba.mainStep f vi (fun _ => .atom (.str x.1)) s.aba =
          some (Aba.onCoin r values (.atom (.str x.1)) s.aba) := by
        rw [Aba.mainStep, hphase]
      rcases mainStep_coins hstep with hsame | ⟨r', -, -, hcons⟩
      · exact Or.inl hsame
      · exact Or.inr ⟨r', x.1, hcons⟩
    · split at h <;> cases h <;> exact Or.inl rfl
  | input | bin | aux | conf | returned | raised =>
    simp only [mainStep, hphase, Option.map_eq_some_iff] at h
    obtain ⟨⟨s₁, out₁⟩, hx, heq⟩ := h
    cases heq
    rcases mainStep_coins hx with hsame | ⟨r, values, hcoin, -⟩
    · exact Or.inl hsame
    · rw [hphase] at hcoin
      cases hcoin

/-- **The coin of a reachable configuration is a text.** -/
theorem coins_preserved (E : CoinSetup F G1 G2 GT) (f : Nat) (SK : Fin N → TBLSPrivateKey F G2) (input : Fin N → Bool)
    (byz : Finset (Fin N)) :
    Net.Preserved (setup E f SK input) byz (fun _ _ => True) (fun _ _ => True)
      (fun loc _ p => ∀ x ∈ (loc p).aba.coins, x.2.bit = none) (fun _ _ => True) where
  grow_refl := fun _ => trivial
  grow_wake := fun _ _ _ _ _ _ => trivial
  grow_recv := fun _ _ _ _ _ _ _ => trivial
  local_mono := by
    intro loc loc' hist hist' p _ _ _ hp h
    rw [hp]
    exact h
  msg_mono := fun _ _ _ _ h => h
  init := fun p _ => by simp [setup, Aba.init]
  wake := by
    intro conf p t s out loc' _ hp hL h hloc _
    have hself : loc' p = s := by rw [hloc, Function.update_self]
    rw [hself]
    refine ⟨?_, fun _ _ => trivial⟩
    rcases mainStep_coin h with hcoins | ⟨r, item, hcoins⟩
    · rw [hcoins]
      exact hL p hp
    · rw [hcoins]
      intro x hx
      rcases List.mem_cons.1 hx with rfl | hx
      · rfl
      · exact hL p hp x hx
  recv := by
    intro conf e s out loc' _ hp hL _ h hloc _
    have hself : loc' e.dst = s := by rw [hloc, Function.update_self]
    rw [hself]
    refine ⟨?_, fun _ _ => trivial⟩
    obtain ⟨src, dst, msg⟩ := e
    cases msg with
    | coin o =>
      simp only [setup, onMsg, Option.ite_none_right_eq_some, Option.some.injEq, Prod.mk.injEq] at h
      obtain ⟨-, rfl, -⟩ := h
      exact hL dst hp
    | aba o =>
      simp only [setup, onMsg, Option.ite_none_right_eq_some, Option.some.injEq, Prod.mk.injEq] at h
      obtain ⟨-, rfl, -⟩ := h
      rw [onMsg_coins]
      exact hL dst hp

/-- **Once a coin has returned** the run is not within bits. -/
theorem not_within {c : Net.Conf (Fin N) (SetupState N G1) SetupMsg} (hc : Net.Reachable (setup E f SK input) byz c)
    {p : Fin N} (hp : p ∉ byz) (hcoins : (c.loc p).aba.coins ≠ []) : ¬ Within byz c := by
  intro h
  obtain ⟨x, hx⟩ := List.exists_mem_of_ne_nil _ hcoins
  exact h.coins p hp x hx (((coins_preserved E f SK input byz).run hc).loc p hp x hx)

end Setup

open Setup

/-- **Within bits while no coin returns**: in every run in which no call of the coin returns to an honest party and each
message taken is one that the receive loops survive. -/
theorem setup_within {F G1 G2 GT : Type} [Field F] [DecidableEq F] [AddCommGroup G1] [Module F G1] [AddCommGroup G2]
    [Module F G2] [AddCommGroup GT] [Module F GT] [DecidableEq GT] {N f players k : Nat} {E : CoinSetup F G1 G2 GT}
    {a : List F} {SKs : List (TBLSPrivateKey F G2)} {SK : Fin N → TBLSPrivateKey F G2} {input : Fin N → Bool}
    (hN : Set.InjOn (Nat.cast : Nat → F) (Set.Iic N)) (hdeal : dealer E.group players k a = .ok (E.PK, SKs))
    (hk : E.PK.k = f + 1) (hl : E.PK.l = N) (hSK : ∀ p : Fin N, SKs[p.val]? = some (SK p)) {byz : Finset (Fin N)}
    {c : Net.Conf (Fin N) (SetupState N G1) SetupMsg} (hc : Net.Run (setup E f SK input) byz (Coinless E f byz) c) :
    Within byz c := by
  obtain ⟨hd, hSK'⟩ := dealer_keys hdeal hl hSK
  obtain ⟨net, hnet, hrun⟩ := (setup_projects hd hl hSK').exists_run hc
  obtain ⟨netCoin, -, hcoin⟩ := (setup_projects_coin E f SK input byz).exists_run hc
  have hholds := binaryagreement_bits (fun p _ => ⟨input p, Or.inl rfl⟩) hrun
  refine ⟨fun p hp x hx => ?_, fun e he hsrc o ho htag => ?_, fun p hp => (hholds.loc p hp).2.main,
    fun p hp => (hholds.loc p hp).2.recv, fun p hp => ?_⟩
  · obtain ⟨b, hb⟩ := (hholds.loc p hp).2.coins x hx
    simp [Aba.bit_of_isBit hb]
  · have hwf : Aba.WellFormed o := by
      have hseen : ∀ {l : List (Net.Envelope (Fin N) SetupMsg)}, e ∈ l → ⟨e.src, e.dst, o⟩ ∈ Net.seenNet abaMsg l :=
        fun {l} hl => List.mem_filterMap.2 ⟨e, hl, by rw [ho]; rfl⟩
      rcases List.mem_append.1 he with he | he
      · exact hholds.net _ (hnet.mem_iff.2 (hseen he)) hsrc
      · exact hholds.hist _ (hseen he) hsrc
    obtain ⟨tag, r, v⟩ := o
    cases tag with
    | est =>
      obtain ⟨-, b, hb⟩ := hwf
      simp [Aba.bit_of_isBit hb]
    | aux =>
      obtain ⟨n, b, -, rfl⟩ := hwf
      simp
    | conf => exact absurd rfl htag
  · exact (((Coin.quiet_preserved hd hk hl hN hSK' byz).run hcoin).loc p hp).2

/-! ## Four parties -/

/-- What `Coinless` asks of a step, for the keys of four parties. -/
def survives13 (c : Net.Conf (Fin 4) (SetupState 4 (ZMod 13)) SetupMsg) : Net.Label (Fin 4) Unit SetupMsg → Bool
  | .wake p _ =>
    match (c.loc p).aba.phase with
    | .coin r _ => decide (.ofNat r ∉ (c.loc p).coin.waiting)
    | _         => true
  | .recv e   =>
    match e.msg with
    | .aba o  => (Aba.process 1 e.src o (c.loc e.dst).aba).isOk
    | .coin o => o.r.hashable && (group13.deserialize o.rawSig).any (fun sig => decide (sig ≠ .other)) &&
        decide (str13 o.r = str13 o.r.key)
  | .inject _ => true

theorem coinless_of_survives13 {c : Net.Conf (Fin 4) (SetupState 4 (ZMod 13)) SetupMsg}
    {l : Net.Label (Fin 4) Unit SetupMsg} (h : survives13 c l = true) : Coinless setup13 1 {3} c l := by
  cases l with
  | wake p t =>
    intro r V hV
    simp only [survives13, hV, decide_eq_true_eq] at h
    exact h
  | recv e =>
    obtain ⟨src, dst, msg⟩ := e
    refine ⟨fun _ o ho => ?_, fun o ho => ?_⟩
    · cases ho
      have hok : (Aba.process 1 src o (c.loc dst).aba).isOk = true := h
      cases hproc : Aba.process 1 src o (c.loc dst).aba with
      | ok x    => exact Aba.process_isOk_iff.1 ⟨x, hproc⟩
      | error e =>
        rw [hproc] at hok
        cases hok
    · cases ho
      simp only [survives13, Bool.and_eq_true, decide_eq_true_eq] at h
      obtain ⟨⟨hround, hshare⟩, htext⟩ := h
      obtain ⟨sig, hsig, hg1⟩ := Option.any_eq_true _ _ |>.1 hshare
      have hg1 := of_decide_eq_true hg1
      refine ⟨fun _ _ => by decide, fun _ => ⟨hround, ⟨sig, hsig, fun _ => ?_⟩, fun _ => htext⟩⟩
      cases sig with
      | g1 x  => exact ⟨x, rfl⟩
      | other => exact absurd rfl hg1
  | inject e => trivial

/-- `p₀`, `p₁` and a Byzantine party agree on `0` in round 0, and `p₀` makes the item of that round's coin of the Byzantine
share and its own. -/
def coinRun (p₀ p₁ bad : Fin 4) : List (Net.Act (Fin 4) Unit SetupMsg) :=
  [.wake p₀ (), .wake p₁ (), .inject ⟨bad, p₀, .aba ⟨.est, .ofNat 0, .ofBit false⟩⟩, .recv 0,
    .inject ⟨bad, p₁, .aba ⟨.est, .ofNat 0, .ofBit false⟩⟩, .recv 0, .recv 4, .recv 0, .recv 3, .recv 0,
    .wake p₀ (), .wake p₁ (), .inject ⟨bad, p₀, .aba ⟨.aux, .ofNat 0, .ofBit false⟩⟩, .recv 0,
    .inject ⟨bad, p₁, .aba ⟨.aux, .ofNat 0, .ofBit false⟩⟩, .recv 0, .recv 4, .recv 0, .recv 3, .recv 0,
    .wake p₀ (), .wake p₁ (), .inject ⟨bad, p₀, .aba ⟨.conf, .ofNat 0, Aba.toTuple {false}⟩⟩, .recv 0, .recv 4, .recv 0,
    .wake p₀ (), .wake p₀ (), .inject ⟨bad, p₀, .coin (msg13 bad (.ofNat 0))⟩, .recv 0, .recv 0]

/-- Party 0 waits for the item of round 0, which is there. -/
theorem setup_within_four : ∃ c, Net.Run (setup setup13 1 share13 (fun _ => false)) {3} (Coinless setup13 1 {3}) c ∧
    ((c.loc 0).coin.received (.ofNat 0)).map Prod.fst = [3, 0] ∧ (c.loc 0).coin.puts.length = 1 ∧ Within {3} c := by
  have hrun : (Net.exec (setup setup13 1 share13 (fun _ => false)) {3} survives13 (coinRun 0 1 3)
      (setup setup13 1 share13 (fun _ => false)).start).any (fun c =>
        decide (((c.loc 0).coin.received (.ofNat 0)).map Prod.fst = [3, 0] ∧ (c.loc 0).coin.puts.length = 1)) = true := by
    decide +kernel
  obtain ⟨c, hcoinless, hout⟩ := Net.exists_run_of_exec hrun (fun c l hl => coinless_of_survives13 hl)
  obtain ⟨hreceived, hputs⟩ := of_decide_eq_true hout
  exact ⟨c, hcoinless, hreceived, hputs, setup_within natCast_injOn13 dealer13 rfl rfl (by decide) hcoinless⟩

/-- The next step of party 0: the coin of round 0 is a text. -/
theorem setup_within_counterexample : ¬ ∀ c, Net.Reachable (setup setup13 1 share13 (fun _ => false)) {3} c →
    Within {3} c := by
  intro h
  have hrun : (Net.exec (setup setup13 1 share13 (fun _ => false)) {3} (fun _ _ => true) (coinRun 0 1 3 ++ [.wake 0 ()])
      (setup setup13 1 share13 (fun _ => false)).start).any (fun c => decide ((c.loc 0).aba.coins ≠ [])) = true := by
    decide +kernel
  obtain ⟨c, hreach, hout⟩ := Net.exists_run_of_exec hrun (fun _ _ _ => trivial)
  exact not_within hreach (by decide) (of_decide_eq_true hout) (h c hreach)

end Dpid
