import Dpid.Bytes
import Dpid.Net
import Dpid.Quorum
import Mathlib
/-!
# CommonSubset — the common subset, `commonsubset` (`honeybadgerbft/core/commonsubset.py`)

A party runs one thread for each broadcast, one for each agreement, and the main thread.  A greenlet runs until it
blocks, so that a step of a thread is what it does between two blocking calls; which thread goes on, and when the
sub-protocols return, is arbitrary.  The sub-protocols are an environment: `SubProtocols` says what they may return.

History: `rbcOuts` and `abaOuts` are what `rbc_out[j]()` and `aba_out[j]()` returned, `abaIns` the calls of `aba_in[j]`.
-/
namespace Dpid

inductive RThread where
  | waiting
  | done
  | killed
deriving DecidableEq

/-- Where the main thread stands; in `collecting j` it has entries `0 .. j - 1`. -/
inductive CsPhase (N : Nat) (V : Type) where
  | joining
  | collecting (j : Nat)
  | returned (result : Fin N → Option V)
  | raised (e : Exn)

structure CsState (N : Nat) (V : Type) where
  phase : CsPhase N V
  abaInputted : Fin N → Bool
  abaValues : Fin N → Bool
  rbcValues : Fin N → Option V
  rThreads : Fin N → RThread
  aThreads : Fin N → Bool
  rbcOuts : Fin N → Option V
  abaOuts : Fin N → Option Bool
  abaIns : List (Fin N × Bool)

/-- One step: a broadcast returns `v` to its thread, an agreement `b` to its own, or the main thread goes on. -/
inductive CsStep (N : Nat) (V : Type) where
  | rbc (j : Fin N) (v : V)
  | aba (j : Fin N) (b : Bool)
  | main

namespace Cs

variable {N : Nat} {V : Type}

def init : CsState N V where
  phase := .joining
  abaInputted := fun _ => false
  abaValues := fun _ => false
  rbcValues := fun _ => none
  rThreads := fun _ => .waiting
  aThreads := fun _ => false
  rbcOuts := fun _ => none
  abaOuts := fun _ => none
  abaIns := []

/-- `if not aba_inputted[j]: aba_inputted[j] = True; aba_in[j](b)`. -/
def abaIn (j : Fin N) (b : Bool) (s : CsState N V) : CsState N V :=
  if s.abaInputted j then s
  else { s with abaInputted := Function.update s.abaInputted j true, abaIns := (j, b) :: s.abaIns }

/-- `_recv_rbc(j)` from the return of `rbc_out[j]()` on. -/
def recvRbc (j : Fin N) (v : V) (s : CsState N V) : CsState N V :=
  abaIn j true { s with
    rbcValues := Function.update s.rbcValues j (some v)
    rThreads := Function.update s.rThreads j .done
    rbcOuts := Function.update s.rbcOuts j (some v) }

/-- `sum(aba_values)`. -/
def sum (s : CsState N V) : Nat := ∑ j, (s.abaValues j).toNat

/-- `_recv_aba(j)` from the return of `aba_out[j]()` on. -/
def recvAba (f : Nat) (j : Fin N) (b : Bool) (s : CsState N V) : CsState N V :=
  let s := { s with
    abaValues := Function.update s.abaValues j b
    aThreads := Function.update s.aThreads j true
    abaOuts := Function.update s.abaOuts j (some b) }
  if N - f ≤ sum s then (List.finRange N).foldl (fun s k => abaIn k false s) s else s

/-- Entry `j` of the result: `join` for an agreement on `1`, else `kill`. -/
def collect (j : Fin N) (s : CsState N V) : Option (CsState N V) :=
  if s.abaValues j then
    match s.rThreads j with
    | .waiting => none
    | _        => some { s with phase := if (s.rbcValues j).isSome then .collecting (j + 1) else .raised .assertionError }
  else some { s with
    phase := .collecting (j + 1)
    rThreads := if s.rThreads j = .waiting then Function.update s.rThreads j .killed else s.rThreads
    rbcValues := Function.update s.rbcValues j none }

/-- One step of the main thread; `none` while it waits. -/
def mainStep (f : Nat) (s : CsState N V) : Option (CsState N V) :=
  match s.phase with
  | .joining      =>
    if ∀ j, s.aThreads j then
      some { s with phase := if N - f ≤ sum s then .collecting 0 else .raised .assertionError }
    else none
  | .collecting j =>
    if h : j < N then collect ⟨j, h⟩ s else some { s with phase := .returned s.rbcValues }
  | .returned _   => none
  | .raised _     => none

end Cs

open Cs in
/-- `commonsubset` at all `N` parties. -/
def commonsubset {V : Type} (N f : Nat) : Net.Proto (Fin N) (CsStep N V) (CsState N V) Empty where
  init := fun _ => init
  wake := fun _ t s =>
    match t with
    | .rbc j v => if s.rThreads j = .waiting then some (recvRbc j v s, []) else none
    | .aba j b => if s.aThreads j = false then some (recvAba f j b s, []) else none
    | .main    => (mainStep f s).map (fun s => (s, []))
  recv := fun _ _ _ _ => none

namespace Cs

variable {N f : Nat} {V : Type} {byz : Finset (Fin N)}

/-- What the sub-protocols return: a broadcast the same to all honest parties, an agreement the same to all and a value
that an honest party has put in. -/
def SubProtocols (byz : Finset (Fin N)) (c : Net.Conf (Fin N) (CsState N V) Empty) :
    Net.Label (Fin N) (CsStep N V) Empty → Prop
  | .wake _ (.rbc j v) => ∀ q ∉ byz, ∀ w, (c.loc q).rbcOuts j = some w → w = v
  | .wake _ (.aba j b) =>
    (∀ q ∉ byz, ∀ d, (c.loc q).abaOuts j = some d → d = b) ∧ ∃ q ∉ byz, (j, b) ∈ (c.loc q).abaIns
  | _                  => True

/-- The agreements that have returned `1`. -/
def ones (s : CsState N V) : Finset (Fin N) := Finset.univ.filter (fun k => s.abaOuts k = some true)

/-! ## One party -/

/-- How many entries the main thread has. -/
def collected (s : CsState N V) : Nat :=
  match s.phase with
  | .joining      => 0
  | .collecting j => j
  | .returned _   => N
  | .raised _     => 0

/-- Entry `i` once the main thread has it. -/
def Entered (s : CsState N V) (i : Fin N) : Prop :=
  if s.abaValues i then ∃ v, s.rbcValues i = some v ∧ s.rbcOuts i = some v
  else s.rbcValues i = none ∧ s.rThreads i ≠ .waiting

/-- Entry `i` before. -/
def Open (s : CsState N V) (i : Fin N) : Prop :=
  s.rbcValues i = s.rbcOuts i ∧ (s.rThreads i ≠ .waiting → s.rbcOuts i ≠ none)

/-- The invariant of a party. -/
structure PartyOk (f : Nat) (s : CsState N V) : Prop where
  inputted : ∀ j, s.abaInputted j = true ↔ j ∈ s.abaIns.map Prod.fst
  once : (s.abaIns.map Prod.fst).Nodup
  zero : ∀ j, (j, false) ∈ s.abaIns → N - f ≤ (ones s).card
  one : ∀ j, (j, true) ∈ s.abaIns → s.rbcOuts j ≠ none
  aba : ∀ j, s.abaOuts j = if s.aThreads j then some (s.abaValues j) else none
  unset : ∀ j, s.aThreads j = false → s.abaValues j = false
  waiting : ∀ j, s.rThreads j = .waiting → s.rbcOuts j = none
  entered : ∀ i : Fin N, i.val < collected s → Entered s i
  rest : ∀ i : Fin N, collected s ≤ i.val → Open s i
  joined : s.phase ≠ .joining → (∀ j, s.aThreads j = true) ∧ N - f ≤ sum s
  result : ∀ res, s.phase = .returned res → res = s.rbcValues
  safe : ∀ e, s.phase ≠ .raised e

theorem init_ok (f : Nat) : PartyOk f (init : CsState N V) := by
  constructor <;> simp [init, collected, Open]

theorem abaOuts_true {s : CsState N V} (h : PartyOk f s) (j : Fin N) : s.abaOuts j = some true ↔ s.abaValues j = true := by
  rw [h.aba]
  cases ht : s.aThreads j with
  | true  => simp
  | false => simp [h.unset j ht]

theorem sum_eq_card {s : CsState N V} (h : PartyOk f s) : sum s = (ones s).card := by
  rw [sum, ones, Finset.card_filter]
  refine Finset.sum_congr rfl (fun j _ => ?_)
  simp only [abaOuts_true h]
  cases s.abaValues j <;> rfl

/-! ### `aba_in` -/

theorem abaIn_frame (j : Fin N) (b : Bool) (s : CsState N V) :
    abaIn j b s = { s with abaInputted := (abaIn j b s).abaInputted, abaIns := (abaIn j b s).abaIns } := by
  unfold abaIn
  split <;> rfl

/-- **A call of `aba_in`** is the first one, and with `0` comes after `N - f` agreements on `1`. -/
theorem PartyOk.abaIn {s : CsState N V} (h : PartyOk f s) (j : Fin N) {b : Bool} (hzero : b = false → N - f ≤ (ones s).card)
    (hone : b = true → s.rbcOuts j ≠ none) : PartyOk f (abaIn j b s) := by
  unfold Cs.abaIn
  cases hj : s.abaInputted j with
  | true  => simpa using h
  | false =>
    simp only [Bool.false_eq_true, if_false]
    have hfresh : j ∉ s.abaIns.map Prod.fst := by
      rw [← h.inputted, hj]
      simp
    refine ⟨fun k => ?_, ?_, fun k hk => ?_, fun k hk => ?_, h.aba, h.unset, h.waiting, h.entered, h.rest, h.joined, h.result, h.safe⟩
    · rw [List.map_cons, List.mem_cons, ← h.inputted]
      by_cases hk : k = j
      · subst hk
        simp
      · simp [hk]
    · rw [List.map_cons, List.nodup_cons]
      exact ⟨hfresh, h.once⟩
    · rcases List.mem_cons.1 hk with hk | hk
      · simp only [Prod.mk.injEq] at hk
        exact hzero hk.2.symm
      · exact h.zero k hk
    · rcases List.mem_cons.1 hk with hk | hk
      · simp only [Prod.mk.injEq] at hk
        exact hk.1 ▸ hone hk.2.symm
      · exact h.one k hk

theorem mem_abaIn {j : Fin N} {b : Bool} {s : CsState N V} {x : Fin N × Bool} (hx : x ∈ s.abaIns) :
    x ∈ (Cs.abaIn j b s).abaIns := by
  unfold Cs.abaIn
  split
  · exact hx
  · exact List.mem_cons_of_mem _ hx

theorem PartyOk.abaIns {s : CsState N V} (h : PartyOk f s) (hones : N - f ≤ (ones s).card) (l : List (Fin N)) :
    PartyOk f (l.foldl (fun s k => Cs.abaIn k false s) s) ∧
      (l.foldl (fun s k => Cs.abaIn k false s) s).rbcOuts = s.rbcOuts ∧
      (l.foldl (fun s k => Cs.abaIn k false s) s).abaOuts = s.abaOuts ∧
      ∀ x ∈ s.abaIns, x ∈ (l.foldl (fun s k => Cs.abaIn k false s) s).abaIns := by
  induction l generalizing s with
  | nil => exact ⟨h, rfl, rfl, fun _ hx => hx⟩
  | cons k l ih =>
    have hframe := abaIn_frame k false s
    have hout : (Cs.abaIn k false s).abaOuts = s.abaOuts := by rw [hframe]
    have hrbc : (Cs.abaIn k false s).rbcOuts = s.rbcOuts := by rw [hframe]
    have hcard : N - f ≤ (ones (Cs.abaIn k false s)).card := by rwa [ones, hout]
    obtain ⟨hok, h1, h2, h3⟩ := ih (h.abaIn k (fun _ => hones) (fun hb => by cases hb)) hcard
    exact ⟨hok, h1.trans hrbc, h2.trans hout, fun x hx => h3 x (mem_abaIn hx)⟩

/-! ### Steps of the threads -/

theorem PartyOk.recvRbc {s : CsState N V} (h : PartyOk f s) {j : Fin N} (hj : s.rThreads j = .waiting) (v : V) :
    PartyOk f (recvRbc j v s) := by
  -- the main thread does not have the entry of a thread that waits
  have hlate : collected s ≤ j.val := by
    by_contra hlt
    have hent := h.entered j (by omega)
    unfold Entered at hent
    split at hent
    · obtain ⟨w, -, hw⟩ := hent
      rw [h.waiting j hj] at hw
      cases hw
    · exact hent.2 hj
  have hok : PartyOk f { s with
      rbcValues := Function.update s.rbcValues j (some v)
      rThreads := Function.update s.rThreads j .done
      rbcOuts := Function.update s.rbcOuts j (some v) } := by
    refine ⟨h.inputted, h.once, h.zero, fun i hi => ?_, h.aba, h.unset, fun i hi => ?_, fun i hi => ?_, fun i hi => ?_,
      h.joined, fun res hres => ?_, h.safe⟩
    · by_cases hij : i = j
      · subst hij
        simp
      · simp only [Function.update_of_ne hij]
        exact h.one i hi
    · by_cases hij : i = j
      · subst hij
        simp at hi
      · simp only [Function.update_of_ne hij] at hi ⊢
        exact h.waiting i hi
    · have hij : i ≠ j := by
        rintro rfl
        exact absurd hi (Nat.not_lt.2 hlate)
      have hent := h.entered i hi
      simpa only [Entered, Function.update_of_ne hij] using hent
    · by_cases hij : i = j
      · subst hij
        simp [Open]
      · have hopen := h.rest i hi
        simpa only [Open, Function.update_of_ne hij] using hopen
    · have hall : collected s = N := by rw [collected, hres]
      omega
  exact hok.abaIn j (fun hb => by cases hb) (fun _ => by simp)

/-- The agreements that have returned `1` are still those, and the new one if it returned `1`. -/
theorem ones_mono {s : CsState N V} {j : Fin N} (hj : s.abaOuts j = none) (b : Bool) :
    ones s ⊆ Finset.univ.filter (fun k => Function.update s.abaOuts j (some b) k = some true) := by
  intro k hk
  obtain ⟨-, hk⟩ := Finset.mem_filter.1 hk
  have hkj : k ≠ j := by
    rintro rfl
    rw [hj] at hk
    cases hk
  exact Finset.mem_filter.2 ⟨Finset.mem_univ k, by rw [Function.update_of_ne hkj, hk]⟩

theorem PartyOk.recvAba {s : CsState N V} (h : PartyOk f s) {j : Fin N} (hj : s.aThreads j = false) (b : Bool) :
    PartyOk f (recvAba f j b s) ∧ (recvAba f j b s).rbcOuts = s.rbcOuts ∧
      (recvAba f j b s).abaOuts = Function.update s.abaOuts j (some b) ∧
      ∀ x ∈ s.abaIns, x ∈ (recvAba f j b s).abaIns := by
  have hphase : s.phase = .joining := by
    by_contra hne
    have := (h.joined hne).1 j
    rw [hj] at this
    cases this
  have hnone : s.abaOuts j = none := by rw [h.aba, hj]; rfl
  -- the state before the zeros are provided
  have hok : PartyOk f { s with
      abaValues := Function.update s.abaValues j b
      aThreads := Function.update s.aThreads j true
      abaOuts := Function.update s.abaOuts j (some b) } := by
    refine ⟨h.inputted, h.once, fun k hk => ?_, h.one, fun k => ?_, fun k hk => ?_, h.waiting, fun i hi => ?_, h.rest,
      fun hne => absurd hphase hne, h.result, h.safe⟩
    · exact (h.zero k hk).trans (Finset.card_le_card (ones_mono hnone b))
    · by_cases hkj : k = j
      · subst hkj
        simp
      · simp only [Function.update_of_ne hkj]
        exact h.aba k
    · by_cases hkj : k = j
      · subst hkj
        simp at hk
      · simp only [Function.update_of_ne hkj] at hk ⊢
        exact h.unset k hk
    · simp [collected, hphase] at hi
  unfold Cs.recvAba
  by_cases hsum : N - f ≤ sum { s with
      abaValues := Function.update s.abaValues j b
      aThreads := Function.update s.aThreads j true
      abaOuts := Function.update s.abaOuts j (some b) }
  · simp only [hsum, if_true]
    rw [sum_eq_card hok] at hsum
    exact hok.abaIns hsum _
  · rw [if_neg hsum]
    exact ⟨hok, rfl, rfl, fun _ hx => hx⟩

/-- **One more entry.** -/
theorem PartyOk.collect {s s' : CsState N V} (h : PartyOk f s) {m : Nat} (hm : m < N) (hphase : s.phase = .collecting m)
    (hs : collect ⟨m, hm⟩ s = some s') :
    PartyOk f s' ∧ s'.rbcOuts = s.rbcOuts ∧ s'.abaOuts = s.abaOuts ∧ s'.abaIns = s.abaIns := by
  have hcol : collected s = m := by rw [collected, hphase]
  have hjoined := h.joined (by simp [hphase])
  have hopen := h.rest ⟨m, hm⟩ hcol.le
  unfold Cs.collect at hs
  cases haba : s.abaValues ⟨m, hm⟩ with
  | true =>
    simp only [haba, if_true] at hs
    split at hs
    · cases hs
    · rename_i hthread
      cases hs
      obtain ⟨v, hv⟩ := Option.ne_none_iff_exists'.1 (hopen.2 hthread)
      have hval : s.rbcValues ⟨m, hm⟩ = some v := hopen.1.trans hv
      rw [if_pos (by rw [hval]; rfl)]
      refine ⟨⟨h.inputted, h.once, h.zero, h.one, h.aba, h.unset, h.waiting, fun i hi => ?_, fun i hi => ?_, fun _ => hjoined,
        by simp, by simp⟩, rfl, rfl, rfl⟩
      · rcases Nat.lt_succ_iff_lt_or_eq.1 hi with hlt | heq
        · exact h.entered i (by omega)
        · obtain rfl : i = ⟨m, hm⟩ := Fin.ext heq
          rw [Entered, if_pos haba]
          exact ⟨v, hval, hv⟩
      · exact h.rest i (by simp only [collected] at hi; omega)
  | false =>
    simp only [haba, Bool.false_eq_true, if_false, Option.some.injEq] at hs
    subst hs
    have hthreads : ∀ i, (if s.rThreads ⟨m, hm⟩ = .waiting then Function.update s.rThreads ⟨m, hm⟩ .killed
        else s.rThreads) i = .waiting ↔ i ≠ ⟨m, hm⟩ ∧ s.rThreads i = .waiting := by
      intro i
      by_cases him : i = ⟨m, hm⟩
      · subst him
        split <;> simp_all
      · split <;> simp [him]
    refine ⟨⟨h.inputted, h.once, h.zero, h.one, h.aba, h.unset, fun i hi => h.waiting i ((hthreads i).1 hi).2, fun i hi => ?_,
      fun i hi => ?_, fun _ => hjoined, by simp, by simp⟩, rfl, rfl, rfl⟩
    · rcases Nat.lt_succ_iff_lt_or_eq.1 hi with hlt | heq
      · have him : i ≠ ⟨m, hm⟩ := by
          rintro rfl
          exact absurd hlt (Nat.lt_irrefl _)
        have hent := h.entered i (by omega)
        simp only [Entered, Function.update_of_ne him, ne_eq, hthreads, him, not_false_eq_true, true_and] at hent ⊢
        exact hent
      · obtain rfl : i = ⟨m, hm⟩ := Fin.ext heq
        rw [Entered]
        simp only [haba, Bool.false_eq_true, if_false, Function.update_self, ne_eq, hthreads, not_true_eq_false,
          false_and, not_false_eq_true, and_self]
    · have hi : m + 1 ≤ i.val := hi
      have him : i ≠ ⟨m, hm⟩ := by
        rintro rfl
        exact absurd hi (Nat.not_succ_le_self _)
      have hrest := h.rest i (by omega)
      simp only [Open, Function.update_of_ne him, ne_eq, hthreads, him, not_false_eq_true, true_and] at hrest ⊢
      exact hrest

theorem PartyOk.mainStep {s s' : CsState N V} (h : PartyOk f s)
    (hsum : (∀ j, s.aThreads j = true) → N - f ≤ sum s) (hs : mainStep f s = some s') :
    PartyOk f s' ∧ s'.rbcOuts = s.rbcOuts ∧ s'.abaOuts = s.abaOuts ∧ s'.abaIns = s.abaIns := by
  unfold Cs.mainStep at hs
  cases hphase : s.phase with
  | joining =>
    simp only [hphase, Option.ite_none_right_eq_some, Option.some.injEq] at hs
    obtain ⟨hall, rfl⟩ := hs
    rw [if_pos (hsum hall)]
    have hzero : collected s = 0 := by rw [collected, hphase]
    exact ⟨⟨h.inputted, h.once, h.zero, h.one, h.aba, h.unset, h.waiting, fun i hi => absurd hi (Nat.not_lt_zero _),
      fun i hi => h.rest i (by omega), fun _ => ⟨hall, hsum hall⟩, by simp, by simp⟩, rfl, rfl, rfl⟩
  | collecting m =>
    simp only [hphase] at hs
    have hm : collected s = m := by rw [collected, hphase]
    split at hs
    · rename_i hlt
      exact h.collect hlt hphase hs
    · simp only [Option.some.injEq] at hs
      subst hs
      exact ⟨⟨h.inputted, h.once, h.zero, h.one, h.aba, h.unset, h.waiting, fun i hi => h.entered i (by omega),
        fun i hi => absurd i.isLt (Nat.not_lt.2 hi), fun _ => h.joined (by simp [hphase]), by simp [eq_comm], by simp⟩,
        rfl, rfl, rfl⟩
  | returned res => simp [hphase] at hs
  | raised e => exact absurd hphase (h.safe e)

theorem recvRbc_frame (j : Fin N) (v : V) (s : CsState N V) :
    (recvRbc j v s).rbcOuts = Function.update s.rbcOuts j (some v) ∧ (recvRbc j v s).abaOuts = s.abaOuts ∧
      ∀ x ∈ s.abaIns, x ∈ (recvRbc j v s).abaIns := by
  refine ⟨?_, ?_, fun x hx => ?_⟩
  · rw [Cs.recvRbc, abaIn_frame]
  · rw [Cs.recvRbc, abaIn_frame]
  · exact mem_abaIn hx

/-! ## All parties -/

/-- Honest parties have the same output of each instance. -/
def Agree {α : Type} (byz : Finset (Fin N)) (out : Fin N → Fin N → Option α) : Prop :=
  ∀ p ∉ byz, ∀ q ∉ byz, ∀ j x y, out p j = some x → out q j = some y → x = y

theorem Agree.update {α : Type} {out : Fin N → Fin N → Option α} (h : Agree byz out) (p : Fin N) {j : Fin N} {x : α}
    (hx : ∀ q ∉ byz, ∀ y, out q j = some y → y = x) :
    Agree byz (Function.update out p (Function.update (out p) j (some x))) := by
  -- an output in the new table is an old one or `x` for `j`
  have hnew : ∀ q k y, Function.update out p (Function.update (out p) j (some x)) q k = some y →
      out q k = some y ∨ k = j ∧ y = x := by
    intro q k y hy
    by_cases hq : q = p
    · subst hq
      rw [Function.update_self] at hy
      by_cases hk : k = j
      · subst hk
        rw [Function.update_self, Option.some.injEq] at hy
        exact Or.inr ⟨rfl, hy.symm⟩
      · rw [Function.update_of_ne hk] at hy
        exact Or.inl hy
    · rw [Function.update_of_ne hq] at hy
      exact Or.inl hy
  intro q hq r hr k y z hy hz
  rcases hnew q k y hy with hold | ⟨rfl, rfl⟩
  · rcases hnew r k z hz with hold' | ⟨rfl, rfl⟩
    · exact h q hq r hr k y z hold hold'
    · exact hx q hq y hold
  · rcases hnew r k z hz with hold' | ⟨-, rfl⟩
    · exact (hx r hr z hold').symm
    · rfl

/-- The invariant of a run. -/
structure Inv (f : Nat) (byz : Finset (Fin N)) (loc : Fin N → CsState N V) : Prop where
  party : ∀ p ∉ byz, PartyOk f (loc p)
  rbc : Agree byz (fun p => (loc p).rbcOuts)
  aba : Agree byz (fun p => (loc p).abaOuts)
  valid : ∀ p ∉ byz, ∀ j b, (loc p).abaOuts j = some b → ∃ q ∉ byz, (j, b) ∈ (loc q).abaIns

/-- **With all agreements returned `N - f` of them have returned `1`**: one that returned `0` had a `0` put in by an
honest party, after `N - f` that returned `1` to it. -/
theorem Inv.le_sum {loc : Fin N → CsState N V} (h : Inv f byz loc) {p : Fin N} (hp : p ∉ byz)
    (hall : ∀ j, (loc p).aThreads j = true) : N - f ≤ sum (loc p) := by
  have hok := h.party p hp
  rw [sum_eq_card hok]
  by_cases hone : ∀ j, (loc p).abaOuts j = some true
  · have hfull : ones (loc p) = Finset.univ := Finset.filter_true_of_mem (fun j _ => hone j)
    rw [hfull, Finset.card_univ, Fintype.card_fin]
    exact Nat.sub_le N f
  · obtain ⟨j, hj⟩ := not_forall.1 hone
    have hzero : (loc p).abaOuts j = some false := by
      rw [hok.aba, hall j, if_pos rfl] at hj ⊢
      cases hb : (loc p).abaValues j with
      | true  => exact absurd (by rw [hb]) hj
      | false => rfl
    obtain ⟨q, hq, hin⟩ := h.valid p hp j false hzero
    refine ((h.party q hq).zero j hin).trans (Finset.card_le_card (fun k hk => ?_))
    obtain ⟨-, hk⟩ := Finset.mem_filter.1 hk
    refine Finset.mem_filter.2 ⟨Finset.mem_univ k, ?_⟩
    have hout : (loc p).abaOuts k = some ((loc p).abaValues k) := by rw [hok.aba, hall k, if_pos rfl]
    rw [hout, h.aba q hq p hp k _ _ hk hout]

theorem Inv.update {loc : Fin N → CsState N V} (h : Inv f byz loc) {p : Fin N} {s : CsState N V} (hs : PartyOk f s)
    (hrbc : Agree byz (Function.update (fun q => (loc q).rbcOuts) p s.rbcOuts))
    (haba : Agree byz (Function.update (fun q => (loc q).abaOuts) p s.abaOuts)) (hins : ∀ x ∈ (loc p).abaIns, x ∈ s.abaIns)
    (hvalid : ∀ j b, s.abaOuts j = some b → (loc p).abaOuts j = some b ∨ ∃ q ∉ byz, (j, b) ∈ (loc q).abaIns) :
    Inv f byz (Function.update loc p s) := by
  have hmono : ∀ q x, x ∈ (loc q).abaIns → x ∈ (Function.update loc p s q).abaIns := by
    intro q x hx
    by_cases hq : q = p
    · subst hq
      rw [Function.update_self]
      exact hins x hx
    · rwa [Function.update_of_ne hq]
  refine ⟨fun q hq => ?_, ?_, ?_, fun q hq j b hout => ?_⟩
  · by_cases hqp : q = p
    · subst hqp
      rwa [Function.update_self]
    · rw [Function.update_of_ne hqp]
      exact h.party q hq
  · have hcomp : (fun q => (Function.update loc p s q).rbcOuts) = _ :=
      Function.comp_update (fun s : CsState N V => s.rbcOuts) loc p s
    rw [hcomp]
    exact hrbc
  · have hcomp : (fun q => (Function.update loc p s q).abaOuts) = _ :=
      Function.comp_update (fun s : CsState N V => s.abaOuts) loc p s
    rw [hcomp]
    exact haba
  · have hold : (loc q).abaOuts j = some b ∨ ∃ r ∉ byz, (j, b) ∈ (loc r).abaIns := by
      by_cases hqp : q = p
      · subst hqp
        rw [Function.update_self] at hout
        exact hvalid j b hout
      · rw [Function.update_of_ne hqp] at hout
        exact Or.inl hout
    rcases hold with hold | ⟨r, hr, hin⟩
    · obtain ⟨r, hr, hin⟩ := h.valid q hq j b hold
      exact ⟨r, hr, hmono r _ hin⟩
    · exact ⟨r, hr, hmono r _ hin⟩

/-- **The invariant holds in every run.** -/
theorem inv_run {c : Net.Conf (Fin N) (CsState N V) Empty}
    (hc : Net.Run (commonsubset N f) byz (SubProtocols byz) c) : Inv f byz c.loc := by
  induction hc with
  | start =>
    refine ⟨fun _ _ => init_ok f, ?_, ?_, ?_⟩
    · intro p hp q hq j x y hx
      cases hx
    · intro p hp q hq j x y hx
      cases hx
    · intro p hp j b hb
      cases hb
  | @step c c' l _ hok hs ih =>
    cases hs with
    | @wake p t s out hp hw =>
      cases t with
      | rbc j v =>
        simp only [commonsubset, Option.ite_none_right_eq_some, Option.some.injEq, Prod.mk.injEq] at hw
        obtain ⟨hj, rfl, -⟩ := hw
        obtain ⟨hrbc, haba, hins⟩ := recvRbc_frame j v (c.loc p)
        refine ih.update ((ih.party p hp).recvRbc hj v) ?_ ?_ hins (fun k b hb => Or.inl (by rwa [haba] at hb))
        · rw [hrbc]
          exact ih.rbc.update p hok
        · rw [haba, Function.update_eq_self]
          exact ih.aba
      | aba j b =>
        simp only [commonsubset, Option.ite_none_right_eq_some, Option.some.injEq, Prod.mk.injEq] at hw
        obtain ⟨hj, rfl, -⟩ := hw
        obtain ⟨hparty, hrbc, haba, hins⟩ := (ih.party p hp).recvAba hj b
        refine ih.update hparty ?_ ?_ hins (fun k d hd => ?_)
        · rw [hrbc, Function.update_eq_self]
          exact ih.rbc
        · rw [haba]
          exact ih.aba.update p hok.1
        · rw [haba] at hd
          by_cases hk : k = j
          · subst hk
            rw [Function.update_self, Option.some.injEq] at hd
            exact Or.inr (hd ▸ hok.2)
          · rw [Function.update_of_ne hk] at hd
            exact Or.inl hd
      | main =>
        simp only [commonsubset, Option.map_eq_some_iff, Prod.mk.injEq] at hw
        obtain ⟨s', hs', rfl, -⟩ := hw
        obtain ⟨hparty, hrbc, haba, hins⟩ := (ih.party p hp).mainStep (ih.le_sum hp) hs'
        refine ih.update hparty ?_ ?_ (fun x hx => by rwa [hins]) (fun k d hd => Or.inl (by rwa [haba] at hd))
        · rw [hrbc, Function.update_eq_self]
          exact ih.rbc
        · rw [haba, Function.update_eq_self]
          exact ih.aba
    | @recv e => exact e.msg.elim
    | @inject e => exact e.msg.elim

end Cs

open Cs

/-- What a common subset is to the honest parties. -/
structure CommonSubset {N : Nat} {V : Type} (f : Nat) (byz : Finset (Fin N)) (c : Net.Conf (Fin N) (CsState N V) Empty) :
    Prop where
  once : ∀ p ∉ byz, ((c.loc p).abaIns.map Prod.fst).Nodup
  zero : ∀ p ∉ byz, ∀ j, (j, false) ∈ (c.loc p).abaIns → N - f ≤ (ones (c.loc p)).card
  safe : ∀ p ∉ byz, ∀ e, (c.loc p).phase ≠ .raised e
  result : ∀ p ∉ byz, ∀ res, (c.loc p).phase = .returned res → ∀ j,
    (c.loc p).abaOuts j = some true ∧ (∃ v, (c.loc p).rbcOuts j = some v ∧ res j = some v) ∨
      (c.loc p).abaOuts j = some false ∧ res j = none
  size : ∀ p ∉ byz, ∀ res, (c.loc p).phase = .returned res → N - f ≤ (Finset.univ.filter (fun j => (res j).isSome)).card
  equal : ∀ p ∉ byz, ∀ q ∉ byz, ∀ res res', (c.loc p).phase = .returned res → (c.loc q).phase = .returned res' → res = res'

/-- **The common subset** in every run over sub-protocols that agree. -/
theorem commonsubset_correct {N f : Nat} {V : Type} {byz : Finset (Fin N)} {c : Net.Conf (Fin N) (CsState N V) Empty}
    (hc : Net.Run (commonsubset N f) byz (SubProtocols byz) c) : CommonSubset f byz c := by
  have hinv := inv_run hc
  have hresult : ∀ p ∉ byz, ∀ res, (c.loc p).phase = .returned res → ∀ j,
      (c.loc p).abaOuts j = some true ∧ (∃ v, (c.loc p).rbcOuts j = some v ∧ res j = some v) ∨
        (c.loc p).abaOuts j = some false ∧ res j = none := by
    intro p hp res hres j
    have hok := hinv.party p hp
    obtain rfl := hok.result res hres
    have hent := hok.entered j (by rw [collected, hres]; exact j.isLt)
    rw [hok.aba, (hok.joined (by simp [hres])).1 j, if_pos rfl]
    unfold Entered at hent
    cases hb : (c.loc p).abaValues j with
    | true =>
      rw [hb, if_pos rfl] at hent
      obtain ⟨v, hv, hout⟩ := hent
      exact Or.inl ⟨rfl, v, hout, hv⟩
    | false =>
      rw [hb, if_neg (by simp)] at hent
      exact Or.inr ⟨rfl, hent.1⟩
  refine ⟨fun p hp => (hinv.party p hp).once, fun p hp => (hinv.party p hp).zero, fun p hp => (hinv.party p hp).safe,
    hresult, fun p hp res hres => ?_, fun p hp q hq res res' hres hres' => ?_⟩
  · have hok := hinv.party p hp
    refine (hok.joined (by simp [hres])).2.trans ((sum_eq_card hok).le.trans (Finset.card_le_card (fun j hj => ?_)))
    obtain ⟨-, hj⟩ := Finset.mem_filter.1 hj
    refine Finset.mem_filter.2 ⟨Finset.mem_univ j, ?_⟩
    rcases hresult p hp res hres j with ⟨-, v, -, hv⟩ | ⟨hfalse, -⟩
    · rw [hv]
      rfl
    · rw [hj] at hfalse
      cases hfalse
  · funext j
    rcases hresult p hp res hres j with ⟨hb, v, hv, hr⟩ | ⟨hb, hr⟩
    · rcases hresult q hq res' hres' j with ⟨-, w, hw, hr'⟩ | ⟨hb', -⟩
      · rw [hr, hr', hinv.rbc p hp q hq j v w hv hw]
      · exact absurd (hinv.aba p hp q hq j true false hb hb') (by simp)
    · rcases hresult q hq res' hres' j with ⟨hb', -⟩ | ⟨-, hr'⟩
      · exact absurd (hinv.aba p hp q hq j false true hb hb') (by simp)
      · rw [hr, hr']

/-- **A broadcast that is waited for** has returned at an honest party. -/
theorem commonsubset_awaited {N f : Nat} {V : Type} {byz : Finset (Fin N)} {c : Net.Conf (Fin N) (CsState N V) Empty}
    (hc : Net.Run (commonsubset N f) byz (SubProtocols byz) c) {p : Fin N} (hp : p ∉ byz) {j : Fin N}
    (hj : (c.loc p).abaOuts j = some true) : ∃ q ∉ byz, (c.loc q).rbcOuts j ≠ none := by
  obtain ⟨q, hq, hin⟩ := (inv_run hc).valid p hp j true hj
  exact ⟨q, hq, ((inv_run hc).party q hq).one j hin⟩

/-- Parties 0 and 1 take broadcasts 0, 1 and 2 in different orders; agreement 3 is on the `0` they put in. -/
theorem commonsubset_correct_four : ∃ c, Net.Run (commonsubset (V := String) 4 1) {3} (SubProtocols {3}) c ∧
    (∃ res, (c.loc 0).phase = .returned res ∧ res 2 = some "c" ∧ res 3 = none) ∧
    (∃ res, (c.loc 1).phase = .returned res ∧ res 2 = some "c" ∧ res 3 = none) ∧ CommonSubset 1 {3} c := by
  have hrun : (Net.exec (commonsubset (V := String) 4 1) {3} (fun c l =>
      match l with
      | .wake _ (.rbc j v) => decide (∀ q, (c.loc q).rbcOuts j = none ∨ (c.loc q).rbcOuts j = some v)
      | .wake _ (.aba j b) => decide ((∀ q, (c.loc q).abaOuts j = none ∨ (c.loc q).abaOuts j = some b) ∧
          ∃ q, q ∉ ({3} : Finset (Fin 4)) ∧ (j, b) ∈ (c.loc q).abaIns)
      | _                  => true)
      [.wake 0 (.rbc 0 "a"), .wake 0 (.rbc 1 "b"), .wake 0 (.rbc 2 "c"), .wake 1 (.rbc 1 "b"), .wake 1 (.aba 0 true),
        .wake 0 (.aba 1 true), .wake 0 (.aba 0 true), .wake 1 (.aba 2 true), .wake 0 (.aba 2 true), .wake 0 (.aba 3 false),
        .wake 0 .main, .wake 0 .main, .wake 0 .main, .wake 0 .main, .wake 0 .main, .wake 0 .main, .wake 1 (.aba 3 false),
        .wake 1 (.aba 1 true), .wake 1 .main, .wake 1 (.rbc 2 "c"), .wake 1 (.rbc 0 "a"), .wake 1 .main, .wake 1 .main,
        .wake 1 .main, .wake 1 .main, .wake 1 .main]
      (commonsubset (V := String) 4 1).start).any (fun c =>
        [0, 1].all (fun p =>
          match (c.loc p).phase with
          | .returned res => decide (res 2 = some "c" ∧ res 3 = none)
          | _             => false)) = true := by
    decide +kernel
  obtain ⟨c, hc, hout⟩ := Option.any_eq_true _ _ |>.1 hrun
  have hsub : Net.Run (commonsubset (V := String) 4 1) {3} (SubProtocols {3}) c := by
    refine Net.exec_run (fun c l hl => ?_) _ .start hc
    cases l with
    | wake p t =>
      cases t with
      | rbc j v =>
        intro q hq w hw
        rcases of_decide_eq_true hl q with h | h
        · rw [hw] at h
          cases h
        · rw [hw] at h
          exact Option.some.inj h
      | aba j b =>
        obtain ⟨hagree, hvalid⟩ := of_decide_eq_true hl
        refine ⟨fun q hq w hw => ?_, hvalid⟩
        rcases hagree q with h | h
        · rw [hw] at h
          cases h
        · rw [hw] at h
          exact Option.some.inj h
      | main => trivial
    | recv e   => trivial
    | inject e => trivial
  have hreturned : ∀ p ∈ [0, 1], ∃ res, (c.loc p).phase = .returned res ∧ res 2 = some "c" ∧ res 3 = none := by
    intro p hp
    have hp := List.all_eq_true.1 hout p hp
    split at hp
    · rename_i res hres
      exact ⟨res, hres, of_decide_eq_true hp⟩
    · cases hp
  exact ⟨c, hsub, hreturned 0 (by simp), hreturned 1 (by simp), commonsubset_correct hsub⟩

end Dpid
