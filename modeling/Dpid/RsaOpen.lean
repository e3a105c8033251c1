import Dpid.RsaCommit
import Mathlib.Algebra.BigOperators.Group.Finset.Basic
import Mathlib.Algebra.Order.BigOperators.Ring.Finset
import Mathlib.Data.Int.GCD
/-!
# RsaOpen — the plain generator and opening beside the fast ones, `vc.py`

`s_gen` and `slow_open` raise the base to every exponent they do not skip, in nested loops; `fast_gen` and `open` halve
the list.  Messages are integers here: a negative one inverts the power it is applied to, or raises.
-/
namespace Dpid
namespace RsaCommit

open LeaveOneOut

/-- `pow(x, k, n)` for any integer `k`: a negative one takes the inverse of `x`. -/
def powInt (x : Int) (k n : Int) : Except Exn Int :=
  match k with
  | .ofNat k   => .ok (powMod x k n)
  | .negSucc k =>
    if Int.gcd x n = 1 then .ok (powMod (Int.gcdA x n) (k + 1) n)
    else .error (.valueError "base is not invertible for the given modulus")

/-- The inner loop of `s_gen` and of `slow_open`: `alt` to the power of every `e[j]` that is not skipped. -/
def altLoop (e : List Nat) (n : Int) (skip : Nat → Bool) : List Nat → Int → Except Exn Int
  | [], alt      => .ok alt
  | j :: js, alt =>
    if skip j then altLoop e n skip js alt
    else match e[j]? with
      | none    => .error .indexError
      | some ej => altLoop e n skip js (powMod alt ej n)

def sGen (messages : List Int) (e : List Nat) (a n : Int) : Except Exn (List Int) :=
  (List.range messages.length).mapM
    (fun i => altLoop e n (fun j => j == i) (List.range messages.length) a)

/-- The loop of `slow_open`, at `messages[j:]`; `num` is the number of messages. -/
def slowOpenLoop (e : List Nat) (a n : Int) (i num : Nat) : List (Int × Nat) → Int → Except Exn Int
  | [], prod          => .ok prod
  | (m, j) :: l, prod =>
    if j = i then slowOpenLoop e a n i num l prod
    else do
      let part ← altLoop e n (fun k => k == i || k == j) (List.range num) a
      let x ← powInt part m n
      slowOpenLoop e a n i num l (prod * x % n)

def slowOpen (messages : List Int) (e : List Nat) (a n : Int) (i : Nat) : Except Exn Int :=
  slowOpenLoop e a n i messages.length messages.zipIdx 1

/-- The loop of `open`, at `fgen[j:]`. -/
def openIntLoop (messages : List Int) (n : Int) (i : Nat) : List Int → Nat → Int → Except Exn Int
  | [], _, prod             => .ok prod
  | s :: fgen, messageInc, prod =>
    let messageInc := if messageInc = i then messageInc + 1 else messageInc
    match messages[messageInc]? with
    | none   => .error .indexError
    | some m => do
      let x ← powInt s m n
      openIntLoop messages n i fgen (messageInc + 1) (prod * x % n)

/-- `open(messages, e, a, n, i)` for messages of either sign. -/
def openInt (messages : List Int) (e : List Nat) (a n : Int) (i : Nat) : Except Exn Int :=
  match e[i]? with
  | none    => .error .indexError
  | some ei => do
    let fgen ← fastGen n (e.erase ei) a
    openIntLoop messages n i fgen 0 1

/-- Both calls return, and modulo `n` the same; or both raise the same. -/
def SameModulo (n : Int) : Except Exn Int → Except Exn Int → Prop
  | .ok r, .ok r'       => r ≡ r' [ZMOD n]
  | .error x, .error x' => x = x'
  | _, _                => False

/-! ## The messages that are not negative -/

theorem openIntLoop_natCast (messages : List Nat) (n : Int) (i : Nat) : ∀ (fgen : List Int) (messageInc : Nat)
    (prod : Int), openIntLoop (messages.map Int.ofNat) n i fgen messageInc prod =
      openLoop messages n i fgen messageInc prod
  | [], _, _                  => rfl
  | s :: fgen, messageInc, prod => by
    simp only [openIntLoop, openLoop, List.getElem?_map]
    cases messages[if messageInc = i then messageInc + 1 else messageInc]? with
    | none   => rfl
    | some m => exact openIntLoop_natCast messages n i fgen _ _

theorem openInt_natCast (messages e : List Nat) (a n : Int) (i : Nat) :
    openInt (messages.map Int.ofNat) e a n i = openAt messages e a n i := by
  unfold openInt openAt
  cases e[i]? with
  | none    => rfl
  | some ei =>
    cases hgen : fastGen n (e.erase ei) a with
    | error x => simp only [hgen, bind, Except.bind]
    | ok fgen => simp only [hgen, bind, Except.bind, openIntLoop_natCast]

/-! ## Powers -/

/-- Inverses modulo `n` of congruent numbers are congruent. -/
theorem gcdA_modEq {x y n : Int} (h : x ≡ y [ZMOD n]) (hx : Int.gcd x n = 1) (hy : Int.gcd y n = 1) :
    Int.gcdA x n ≡ Int.gcdA y n [ZMOD n] := by
  have hinv : ∀ z : Int, Int.gcd z n = 1 → z * Int.gcdA z n ≡ 1 [ZMOD n] := by
    intro z hz
    have hbez := Int.gcd_eq_gcd_ab z n
    rw [hz] at hbez
    exact (Int.modEq_iff_dvd.2 ⟨Int.gcdB z n, by rw [Nat.cast_one] at hbez; omega⟩)
  calc Int.gcdA x n = Int.gcdA x n * 1 := (mul_one _).symm
    _ ≡ Int.gcdA x n * (y * Int.gcdA y n) [ZMOD n] := (hinv y hy).symm.mul_left _
    _ ≡ Int.gcdA x n * (x * Int.gcdA y n) [ZMOD n] := (h.symm.mul_right _).mul_left _
    _ = x * Int.gcdA x n * Int.gcdA y n := by ring
    _ ≡ 1 * Int.gcdA y n [ZMOD n] := (hinv x hx).mul_right _
    _ = Int.gcdA y n := one_mul _

theorem powInt_congr {x y n : Int} (h : x ≡ y [ZMOD n]) (k : Int) : powInt x k n = powInt y k n := by
  unfold powInt
  cases k with
  | ofNat k   => exact congrArg Except.ok (h.pow k)
  | negSucc k =>
    have hgcd : Int.gcd x n = Int.gcd y n := by
      obtain ⟨t, rfl⟩ := Int.modEq_iff_add_fac.1 h
      exact (Int.gcd_add_mul_left_left n x t).symm
    by_cases hx : Int.gcd x n = 1
    · have hy : Int.gcd y n = 1 := hgcd ▸ hx
      simp only [hx, hy, if_true]
      exact congrArg Except.ok ((gcdA_modEq h hx hy).pow (k + 1))
    · have hy : ¬Int.gcd y n = 1 := hgcd ▸ hx
      simp only [hx, hy, if_false]

/-! ## The generators -/

/-- The product of the exponents that are not skipped. -/
def kept (e : List Nat) (skip : Nat → Bool) (js : List Nat) : Nat :=
  (js.map (fun j => if skip j then 1 else e.getD j 1)).prod

/-- **The inner loop raises to every exponent it keeps.** -/
theorem altLoop_spec {e : List Nat} {n : Int} {skip : Nat → Bool} : ∀ {js : List Nat}, (∀ j ∈ js, j < e.length) →
    ∀ alt : Int, ∃ r, altLoop e n skip js alt = .ok r ∧ r ≡ alt ^ kept e skip js [ZMOD n] ∧ (alt % n = alt → r % n = r)
  | [], _, alt      => ⟨alt, rfl, by simp [kept, Int.ModEq.refl], id⟩
  | j :: js, h, alt => by
    have hj : j < e.length := h j List.mem_cons_self
    have hjs : ∀ j' ∈ js, j' < e.length := fun j' hj' => h j' (List.mem_cons_of_mem j hj')
    cases hskip : skip j with
    | true =>
      obtain ⟨r, hr, hmod, hrange⟩ := altLoop_spec hjs alt
      refine ⟨r, by rw [altLoop, if_pos hskip, hr], ?_, hrange⟩
      simpa [kept, hskip] using hmod
    | false =>
      obtain ⟨r, hr, hmod, hrange⟩ := altLoop_spec hjs (powMod alt e[j] n)
      refine ⟨r, ?_, ?_, fun _ => hrange (Int.emod_emod_of_dvd _ dvd_rfl)⟩
      · rw [altLoop, if_neg (by simp [hskip]), List.getElem?_eq_getElem hj]
        exact hr
      · have hkept : kept e skip (j :: js) = e[j] * kept e skip js := by
          simp [kept, hskip, List.getElem?_eq_getElem hj]
        rw [hkept, pow_mul]
        exact hmod.trans ((powMod_modEq alt _ n).pow _)

theorem kept_range (e : List Nat) (skip : Nat → Bool) (num : Nat) :
    kept e skip (List.range num) = ∏ j ∈ Finset.range num, if skip j then 1 else e.getD j 1 := rfl

theorem prod_eq_range (e : List Nat) : e.prod = ∏ j ∈ Finset.range e.length, e.getD j 1 := by
  have hlist : e = (List.range e.length).map (fun j => e.getD j 1) :=
    List.ext_getElem (by simp) (fun j hj _ => by simp [List.getElem?_eq_getElem hj])
  calc e.prod = ((List.range e.length).map (fun j => e.getD j 1)).prod := by rw [← hlist]
    _ = ∏ j ∈ Finset.range e.length, e.getD j 1 := rfl

theorem mul_kept_one {e : List Nat} {i : Nat} (hi : i < e.length) :
    e[i] * kept e (fun j => j == i) (List.range e.length) = e.prod := by
  have hmem : i ∈ Finset.range e.length := Finset.mem_range.2 hi
  rw [kept_range, prod_eq_range, ← Finset.mul_prod_erase _ _ hmem, ← Finset.mul_prod_erase _ _ hmem]
  have hrest : ∀ j ∈ (Finset.range e.length).erase i, (if (j == i) = true then 1 else e.getD j 1) = e.getD j 1 :=
    fun j hj => if_neg (by simp [Finset.ne_of_mem_erase hj])
  rw [Finset.prod_congr rfl hrest]
  simp [List.getElem?_eq_getElem hi]

theorem mul_kept_two {e : List Nat} {i j : Nat} (hi : i < e.length) (hj : j < e.length) (hij : j ≠ i) :
    e[i] * (e[j] * kept e (fun k => k == i || k == j) (List.range e.length)) = e.prod := by
  have hmem : j ∈ Finset.range e.length := Finset.mem_range.2 hj
  rw [← mul_kept_one hi, kept_range, kept_range, ← Finset.mul_prod_erase _ _ hmem, ← Finset.mul_prod_erase _ _ hmem]
  have hrest : ∀ k ∈ (Finset.range e.length).erase j, (if (k == i || k == j) = true then 1 else e.getD k 1) =
      if (k == i) = true then 1 else e.getD k 1 := by
    intro k hk
    simp [Finset.ne_of_mem_erase hk]
  rw [Finset.prod_congr rfl hrest]
  simp [List.getElem?_eq_getElem hj, hij]

/-- What `fast_gen` gives is reduced when its base is. -/
theorem fastGen_reduced (n : Int) : ∀ (primes : List Nat) (a : Int) (S : List Int), fastGen n primes a = .ok S →
    a % n = a → ∀ s ∈ S, s % n = s
  | [], a, S, h, _             => by rw [fastGen] at h; cases h
  | [p], a, S, h, ha           => by
    rw [fastGen] at h
    cases h
    simpa using ha
  | p :: q :: l, a, S, h, ha => by
    have hfold : ∀ (ks : List Nat) (x : Int), x % n = x → ks.foldl (fun x k => powMod x k n) x % n =
        ks.foldl (fun x k => powMod x k n) x := by
      intro ks
      induction ks with
      | nil          => exact fun x hx => hx
      | cons k ks ih => exact fun x _ => ih (powMod x k n) (Int.emod_emod_of_dvd _ dvd_rfl)
    rw [fastGen] at h
    obtain ⟨R1, h1, h⟩ := bind_eq_ok.1 h
    obtain ⟨R2, h2, h⟩ := bind_eq_ok.1 h
    cases h
    intro s hs
    rcases List.mem_append.1 hs with hs | hs
    · exact fastGen_reduced n _ _ R1 h1 (hfold _ a ha) s hs
    · exact fastGen_reduced n _ _ R2 h2 (hfold _ a ha) s hs
termination_by primes => primes.length
decreasing_by all_goals simp only [List.length_take, List.length_drop, List.length_cons]; omega

/-- **The halving generator is the plain one**, for every length. -/
theorem fastGen_eq_sGen_of {messages : List Int} {e : List Nat} {a n : Int} (hmessages : messages ≠ [])
    (he : e.length = messages.length) (hpos : ∀ k ∈ e, 0 < k) (ha : a % n = a) :
    fastGen n e a = sGen messages e a n := by
  have hne : e ≠ [] := List.ne_nil_of_length_pos (he ▸ List.length_pos_of_ne_nil hmessages)
  obtain ⟨S, hS, hpow⟩ := fastGen_spec n e hne a
  have hred := fastGen_reduced n e a S hS ha
  have hlen : S.length = e.length := by rw [hpow.length_eq, length_others]
  rw [hS, sGen, ← he]
  refine Eq.symm ((mapM_eq_ok _ _ _).2 (List.forall₂_iff_get.2 ⟨by rw [List.length_range, hlen], ?_⟩))
  intro i hi hiS
  rw [List.length_range] at hi
  obtain ⟨r, hr, hmod, hrange⟩ := @altLoop_spec e n (fun j => j == i) (List.range e.length)
    (fun j hj => List.mem_range.1 hj) a
  rw [List.get_eq_getElem, List.get_eq_getElem, List.getElem_range, hr]
  have hkept : kept e (fun j => j == i) (List.range e.length) = (e.eraseIdx i).prod := by
    have hpi : 0 < e[i] := hpos _ (List.getElem_mem hi)
    exact Nat.eq_of_mul_eq_mul_left hpi
      ((mul_kept_one hi).trans (List.CommMonoid.mul_prod_eraseIdx hi).symm)
  have hSi : S[i] ≡ a ^ (e.eraseIdx i).prod [ZMOD n] := by
    have h := (List.forall₂_iff_get.1 hpow).2 i hiS (by rw [length_others]; exact hi)
    rwa [List.get_eq_getElem, List.get_eq_getElem, others_getElem] at h
  have heq : r % n = S[i] % n := (hmod.trans (hkept ▸ hSi.symm))
  rw [hrange ha, hred _ (List.getElem_mem hiS)] at heq
  rw [heq]

/-! ## The openings -/

/-- The product both openings form, of the powers they take with the messages. -/
def mulPowers (n : Int) : List (Int × Int) → Int → Except Exn Int
  | [], prod          => .ok prod
  | (s, m) :: l, prod => do
    let x ← powInt s m n
    mulPowers n l (prod * x % n)

theorem mulPowers_congr {n : Int} {l l' : List (Int × Int)}
    (h : List.Forall₂ (fun p q => p.1 ≡ q.1 [ZMOD n] ∧ p.2 = q.2) l l') (prod : Int) :
    mulPowers n l prod = mulPowers n l' prod := by
  induction h generalizing prod with
  | nil => rfl
  | @cons p q l l' hpq _ ih =>
    obtain ⟨s, m⟩ := p
    obtain ⟨s', m'⟩ := q
    obtain ⟨hs, rfl⟩ := hpq
    simp only [mulPowers, powInt_congr hs m, ih]

/-- **`open` takes the messages but the one at `i`, in order.** -/
theorem openIntLoop_eq (messages : List Int) (n : Int) (i : Nat) : ∀ (fgen : List Int) (j : Nat) (prod : Int),
    fgen.length = ((messages.eraseIdx i).drop j).length →
      openIntLoop messages n i fgen (if j ≤ i then j else j + 1) prod =
        mulPowers n (fgen.zip ((messages.eraseIdx i).drop j)) prod
  | [], j, prod, _           => rfl
  | s :: fgen, j, prod, hlen => by
    have hj : j < (messages.eraseIdx i).length := by rw [List.length_cons, List.length_drop] at hlen; omega
    have hread : messages[if (if j ≤ i then j else j + 1) = i then (if j ≤ i then j else j + 1) + 1
        else if j ≤ i then j else j + 1]? = some (messages.eraseIdx i)[j] := by
      rw [← List.getElem?_eq_getElem hj, List.getElem?_eraseIdx]
      split_ifs <;> first | rfl | omega
    have hnext : (if (if j ≤ i then j else j + 1) = i then (if j ≤ i then j else j + 1) + 1
        else if j ≤ i then j else j + 1) + 1 = if j + 1 ≤ i then j + 1 else j + 1 + 1 := by
      split_ifs <;> omega
    rw [List.drop_eq_getElem_cons hj, List.length_cons, List.length_cons] at hlen
    rw [List.drop_eq_getElem_cons hj, List.zip_cons_cons]
    simp only [openIntLoop, mulPowers, hread, hnext, openIntLoop_eq messages n i fgen (j + 1) _ (Nat.succ.inj hlen)]

/-- `slow_open` leaves out the message at `i`. -/
theorem slowOpenLoop_eraseIdx (e : List Nat) (a n : Int) (i num : Nat) : ∀ (l : List Int) (k d : Nat) (prod : Int),
    i = k + d → slowOpenLoop e a n i num (l.zipIdx k) prod = slowOpenLoop e a n i num ((l.zipIdx k).eraseIdx d) prod
  | [], k, d, prod, _        => by rw [List.zipIdx_nil, List.eraseIdx_nil]
  | m :: l, k, 0, prod, h    => by
    have hik : k = i := h.symm
    rw [List.zipIdx_cons, List.eraseIdx_cons_zero, slowOpenLoop, if_pos hik]
  | m :: l, k, d + 1, prod, h => by
    have hik : k ≠ i := by omega
    rw [List.zipIdx_cons, List.eraseIdx_cons_succ]
    simp only [slowOpenLoop, if_neg hik,
      slowOpenLoop_eraseIdx e a n i num l (k + 1) d _ (by omega : i = k + 1 + d)]

theorem slowOpenLoop_eq {e : List Nat} {a n : Int} {i num : Nat} {part : Nat → Int} : ∀ {l : List (Int × Nat)},
    (∀ p ∈ l, p.2 ≠ i ∧ altLoop e n (fun k => k == i || k == p.2) (List.range num) a = .ok (part p.2)) →
      ∀ prod : Int, slowOpenLoop e a n i num l prod = mulPowers n (l.map (fun p => (part p.2, p.1))) prod
  | [], _, _               => rfl
  | (m, j) :: l, h, prod => by
    obtain ⟨hj, hpart⟩ := h (m, j) List.mem_cons_self
    simp only [slowOpenLoop, if_neg hj, hpart, List.map_cons, mulPowers]
    exact bind_congr (fun x => slowOpenLoop_eq (fun p hp => h p (List.mem_cons_of_mem _ hp)) _)

theorem getElem_eraseIdx_skip {α : Type} {l : List α} {i t : Nat} (ht : t < (l.eraseIdx i).length)
    (hl : (if t < i then t else t + 1) < l.length) : (l.eraseIdx i)[t] = l[if t < i then t else t + 1] := by
  rw [List.getElem_eraseIdx]
  split_ifs <;> rfl

/-- **The fast opening is the plain one** as soon as an exponent is left when one is taken out. -/
theorem openInt_eq_slowOpen {messages : List Int} {e : List Nat} {a n : Int} (hmessages : 2 ≤ messages.length)
    (he : e.length = messages.length) (hpos : ∀ k ∈ e, 0 < k) (hnodup : e.Nodup) {i : Nat} (hi : i < messages.length) :
    openInt messages e a n i = slowOpen messages e a n i := by
  have hie : i < e.length := he ▸ hi
  have herase : (e.eraseIdx i).length = (messages.eraseIdx i).length := by
    rw [List.length_eraseIdx_of_lt hie, List.length_eraseIdx_of_lt hi, he]
  obtain ⟨fgen, hfgen, hpow⟩ := fastGen_spec n (e.eraseIdx i)
    (List.ne_nil_of_length_pos (by rw [List.length_eraseIdx_of_lt hie]; omega)) a
  have hflen : fgen.length = (messages.eraseIdx i).length := by rw [hpow.length_eq, length_others, herase]
  have hopen : openInt messages e a n i = mulPowers n (fgen.zip (messages.eraseIdx i)) 1 := by
    have hloop := openIntLoop_eq messages n i fgen 0 1 (by rw [List.drop_zero, hflen])
    rw [if_pos (Nat.zero_le i), List.drop_zero] at hloop
    rw [openInt, List.getElem?_eq_getElem hie]
    simp only [hnodup.erase_getElem i hie, hfgen, bind, Except.bind]
    exact hloop
  -- the parts that `slow_open` computes, one for each other position
  have hparts : ∀ j, ∃ r, altLoop e n (fun k => k == i || k == j) (List.range messages.length) a = .ok r ∧
      r ≡ a ^ kept e (fun k => k == i || k == j) (List.range e.length) [ZMOD n] := by
    intro j
    obtain ⟨r, hr, hmod, -⟩ := @altLoop_spec e n (fun k => k == i || k == j) (List.range e.length)
      (fun k hk => List.mem_range.1 hk) a
    exact ⟨r, he ▸ hr, hmod⟩
  choose part hpart hpmod using hparts
  have hslow : slowOpen messages e a n i =
      mulPowers n ((messages.zipIdx.eraseIdx i).map (fun p => (part p.2, p.1))) 1 := by
    rw [slowOpen, slowOpenLoop_eraseIdx e a n i messages.length messages 0 i 1 (by omega)]
    refine slowOpenLoop_eq (fun p hp => ⟨?_, hpart p.2⟩) 1
    obtain ⟨t, ht, rfl⟩ := List.getElem_of_mem hp
    rw [List.getElem_eraseIdx]
    split <;> simp <;> omega
  rw [hopen, hslow]
  refine mulPowers_congr (List.forall₂_iff_get.2 ⟨?_, ?_⟩) 1
  · rw [List.length_zip, hflen, Nat.min_self, List.length_map, List.length_eraseIdx, List.length_eraseIdx,
      List.length_zipIdx]
  intro t ht ht'
  rw [List.length_zip, hflen, Nat.min_self] at ht
  have hte : t < (e.eraseIdx i).length := herase ▸ ht
  have htf : t < fgen.length := hflen ▸ ht
  rw [List.length_eraseIdx_of_lt hi] at ht
  have hskip : (if t < i then t else t + 1) ≠ i := by split_ifs <;> omega
  have hlt : (if t < i then t else t + 1) < e.length := by split_ifs <;> omega
  have hfge : fgen[t] ≡ a ^ ((e.eraseIdx i).eraseIdx t).prod [ZMOD n] := by
    have h := (List.forall₂_iff_get.1 hpow).2 t htf (by rw [length_others]; exact hte)
    rwa [List.get_eq_getElem, List.get_eq_getElem, others_getElem] at h
  have hkept : ((e.eraseIdx i).eraseIdx t).prod =
      kept e (fun k => k == i || k == if t < i then t else t + 1) (List.range e.length) := by
    have htwo := mul_kept_two hie hlt hskip
    rw [← getElem_eraseIdx_skip hte hlt, ← List.CommMonoid.mul_prod_eraseIdx hie,
      ← List.CommMonoid.mul_prod_eraseIdx hte] at htwo
    have hpt : 0 < (e.eraseIdx i)[t] := hpos _ (List.mem_of_mem_eraseIdx (List.getElem_mem hte))
    exact (Nat.eq_of_mul_eq_mul_left hpt (Nat.eq_of_mul_eq_mul_left (hpos _ (List.getElem_mem hie)) htwo)).symm
  have hltm : (if t < i then t else t + 1) < messages.length := he ▸ hlt
  rw [List.get_eq_getElem, List.get_eq_getElem, List.getElem_zip, List.getElem_map, getElem_eraseIdx_skip _ hltm,
    getElem_eraseIdx_skip _ (by rw [List.length_zipIdx]; exact hltm), List.getElem_zipIdx]
  refine ⟨?_, rfl⟩
  rw [Nat.zero_add]
  exact hfge.trans (hkept ▸ (hpmod _).symm)

/-- **Where the fast generator and opening agree with the plain ones**: on two messages or more.  With one, `open` runs
`fast_gen` on the empty list. -/
theorem fast_agrees_iff {messages : List Int} {e : List Nat} (hmessages : messages ≠ [])
    (he : e.length = messages.length) (hpos : ∀ k ∈ e, 0 < k) (hnodup : e.Nodup) (a : Int) {n : Int} (_hn : 2 ≤ n)
    {i : Nat} (hi : i < messages.length) :
    (a % n = a → fastGen n e a = sGen messages e a n) ∧
      SameModulo n (openInt messages e a n i) (slowOpen messages e a n i) ↔ 2 ≤ messages.length := by
  constructor
  · rintro ⟨-, hopen⟩
    by_contra hlt
    have hone : messages.length = 1 := by have := List.length_pos_of_ne_nil hmessages; omega
    obtain ⟨m, rfl⟩ := List.length_eq_one_iff.1 hone
    obtain ⟨k, rfl⟩ := List.length_eq_one_iff.1 (he.trans hone)
    obtain rfl : i = 0 := by rw [hone] at hi; omega
    have hempty : openInt [m] [k] a n 0 = .error .runtimeError := by simp [openInt, fastGen, bind, Except.bind]
    rw [hempty] at hopen
    exact hopen
  · intro htwo
    refine ⟨fastGen_eq_sGen_of hmessages he hpos, ?_⟩
    rw [openInt_eq_slowOpen htwo he hpos hnodup hi]
    cases slowOpen messages e a n i with
    | ok r    => exact Int.ModEq.refl r
    | error x => rfl

theorem fast_agrees_three : (17 % 35 = (17 : Int) → fastGen 35 [3, 5, 7] 17 = sGen [4, 0, -6] [3, 5, 7] 17 35) ∧
    SameModulo 35 (openInt [4, 0, -6] [3, 5, 7] 17 35 1) (slowOpen [4, 0, -6] [3, 5, 7] 17 35 1) ↔
      2 ≤ [4, 0, (-6 : Int)].length :=
  @fast_agrees_iff [4, 0, -6] [3, 5, 7] (by decide) (by decide) (by decide) (by decide) 17 35 (by decide) 1 (by decide)

/-- One message: `slow_open` returns `1`, `open` never returns. -/
theorem fast_differs_one : ¬∀ (messages : List Int) (e : List Nat) (a n : Int) (i : Nat), messages ≠ [] →
    e.length = messages.length → (∀ k ∈ e, 0 < k) → e.Nodup → 2 ≤ n → i < messages.length →
      (a % n = a → fastGen n e a = sGen messages e a n) ∧
        SameModulo n (openInt messages e a n i) (slowOpen messages e a n i) := by
  intro h
  have hopen := (h [7] [3] 2 35 0 (by decide) (by decide) (by decide) (by decide) (by decide) (by decide)).2
  have hempty : openInt [7] [3] 2 35 0 = .error .runtimeError := by simp [openInt, fastGen, bind, Except.bind]
  have hone : slowOpen [7] [3] 2 35 0 = .ok 1 := rfl
  rw [hempty, hone] at hopen
  exact hopen

end RsaCommit
end Dpid
