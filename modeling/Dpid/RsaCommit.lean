import Dpid.Bytes
import Dpid.LeaveOneOut
import Mathlib.Data.Int.ModEq
import Mathlib.Data.List.Nodup
import Mathlib.Tactic.Ring
/-!
# RsaCommit — the RSA vector commitment, `vc.py`

The key has a base `a`, a modulus `n` and one exponent for each position; `S[i]` is `a` raised to all exponents but
`e[i]`.  `fast_gen` computes the `S[i]` by halving the list, `open` the same for the list without `e[i]`, so that its
`e[i]`th power and the message at `i` give back the commitment.
-/
namespace Dpid
namespace RsaCommit

open LeaveOneOut

/-- `pow(x, k, n)`. -/
def powMod (x : Int) (k : Nat) (n : Int) : Int := x ^ k % n

/-- `fast_gen(primes, partial_a, n)`; on the empty list it calls itself without end. -/
def fastGen (n : Int) : List Nat → Int → Except Exn (List Int)
  | [], _             => .error .runtimeError
  | [_], partialA     => .ok [partialA]
  | p :: q :: l, partialA => do
    let half := (p :: q :: l).length / 2
    let A1 := (p :: q :: l).take half
    let A2 := (p :: q :: l).drop half
    let R1 ← fastGen n A1 (A2.foldl (fun x k => powMod x k n) partialA)
    let R2 ← fastGen n A2 (A1.foldl (fun x k => powMod x k n) partialA)
    return R1 ++ R2
termination_by primes => primes.length
decreasing_by all_goals simp only [List.length_take, List.length_drop, List.length_cons]; omega

/-- The loop of `commit`, at `messages[i:]` and `S[i:]`. -/
def commitLoop (n : Int) : List Nat → List Int → Int → Except Exn Int
  | [], _, c           => .ok c
  | _ :: _, [], _      => .error .indexError
  | m :: messages, s :: S, c => commitLoop n messages S (c * powMod s m n % n)

def commit (messages : List Nat) (S : List Int) (n : Int) : Except Exn Int := commitLoop n messages S 1

/-- The loop of `open`, at `fgen[j:]`. -/
def openLoop (messages : List Nat) (n : Int) (i : Nat) : List Int → Nat → Int → Except Exn Int
  | [], _, prod             => .ok prod
  | s :: fgen, messageInc, prod =>
    let messageInc := if messageInc = i then messageInc + 1 else messageInc
    match messages[messageInc]? with
    | none   => .error .indexError
    | some m => openLoop messages n i fgen (messageInc + 1) (prod * powMod s m n % n)

def openAt (messages e : List Nat) (a n : Int) (i : Nat) : Except Exn Int :=
  match e[i]? with
  | none    => .error .indexError
  | some ei => do
    let fgen ← fastGen n (e.erase ei) a
    openLoop messages n i fgen 0 1

def verify (C : Int) (m i : Nat) (A : Int) (S : List Int) (e : List Nat) (n : Int) : Except Exn Nat :=
  match e[i]?, S[i]? with
  | some ei, some Si =>
    let AtoE := powMod A ei n
    let newC := AtoE * powMod Si m n % n
    .ok (if C = newC then 1 else 0)
  | _, _             => .error .indexError

/-! ## Powers -/

theorem powMod_modEq (x : Int) (k : Nat) (n : Int) : powMod x k n ≡ x ^ k [ZMOD n] := Int.mod_modEq _ _

theorem powMod_congr {x y n : Int} (h : x ≡ y [ZMOD n]) (k : Nat) : powMod x k n ≡ y ^ k [ZMOD n] :=
  (powMod_modEq x k n).trans (h.pow k)

theorem foldl_powMod (n : Int) : ∀ (l : List Nat) (x : Int), l.foldl (fun x k => powMod x k n) x ≡ x ^ l.prod [ZMOD n]
  | [], x     => by simp [Int.ModEq.refl]
  | k :: l, x => by
    rw [List.foldl_cons, List.prod_cons, pow_mul]
    exact (foldl_powMod n l _).trans ((powMod_modEq x k n).pow l.prod)

/-! ## The generators -/

/-- The entries of `S` are the powers of `a` by `ks`. -/
def Powers (a n : Int) (S : List Int) (ks : List Nat) : Prop := List.Forall₂ (fun s k => s ≡ a ^ k [ZMOD n]) S ks

theorem Powers.of_base {a b n : Int} {c : Nat} (hb : b ≡ a ^ c [ZMOD n]) {S : List Int} {ks : List Nat}
    (h : Powers b n S ks) : Powers a n S (ks.map (c * ·)) := by
  refine List.forall₂_map_right_iff.2 (h.imp (fun s k hs => ?_))
  rw [pow_mul]
  exact hs.trans (hb.pow k)

/-- **`fast_gen` raises the base to all exponents but one**, for every length and split. -/
theorem fastGen_spec (n : Int) : ∀ (primes : List Nat), primes ≠ [] → ∀ a : Int,
    ∃ S, fastGen n primes a = .ok S ∧ Powers a n S (others primes)
  | [], h, _              => absurd rfl h
  | [p], _, a             => ⟨[a], by rw [fastGen], by simp [Powers, others, Int.ModEq.refl]⟩
  | p :: q :: l, _, a => by
    have hsplit := List.take_append_drop ((p :: q :: l).length / 2) (p :: q :: l)
    generalize htake : (p :: q :: l).take ((p :: q :: l).length / 2) = A1 at hsplit
    generalize hdrop : (p :: q :: l).drop ((p :: q :: l).length / 2) = A2 at hsplit
    have hlen1 : A1.length = (l.length + 2) / 2 := by
      rw [← htake, List.length_take, List.length_cons, List.length_cons]; omega
    have hlen2 : A2.length = l.length + 2 - (l.length + 2) / 2 := by
      rw [← hdrop, List.length_drop, List.length_cons, List.length_cons]
    obtain ⟨R1, h1, hR1⟩ := fastGen_spec n A1 (List.ne_nil_of_length_pos (by omega))
      (A2.foldl (fun x k => powMod x k n) a)
    obtain ⟨R2, h2, hR2⟩ := fastGen_spec n A2 (List.ne_nil_of_length_pos (by omega))
      (A1.foldl (fun x k => powMod x k n) a)
    refine ⟨R1 ++ R2, ?_, ?_⟩
    · rw [fastGen]
      simp only [htake, hdrop, h1, h2, bind, Except.bind, pure, Except.pure]
    · rw [← hsplit, others_append]
      exact List.rel_append (hR1.of_base (foldl_powMod n A2 a)) (hR2.of_base (foldl_powMod n A1 a))
termination_by primes => primes.length

/-! ## The loops -/

/-- **The product of powers that `commit` forms.** -/
theorem commitLoop_spec {a n : Int} : ∀ {messages : List Nat} {S : List Int} {ks : List Nat}, Powers a n S ks →
    messages.length ≤ S.length → ∀ c : Int,
      ∃ c', commitLoop n messages S c = .ok c' ∧ c' ≡ c * a ^ dot messages ks [ZMOD n] ∧ (c % n = c → c' % n = c')
  | [], S, ks, _, _, c => ⟨c, by rw [commitLoop], by simp [Int.ModEq.refl], id⟩
  | m :: messages, _, _, .nil, hlen, c => absurd hlen (by simp)
  | m :: messages, s :: S, k :: ks, .cons hs h, hlen, c => by
    obtain ⟨c', hc', hmod, hrange⟩ := commitLoop_spec h (Nat.le_of_succ_le_succ hlen) (c * powMod s m n % n)
    refine ⟨c', hc', ?_, fun _ => hrange (Int.emod_emod_of_dvd _ dvd_rfl)⟩
    calc c' ≡ c * powMod s m n % n * a ^ dot messages ks [ZMOD n] := hmod
      _ ≡ c * powMod s m n * a ^ dot messages ks [ZMOD n] := (Int.mod_modEq _ _).mul_right _
      _ ≡ c * (a ^ k) ^ m * a ^ dot messages ks [ZMOD n] := ((powMod_congr hs m).mul_left c).mul_right _
      _ = c * a ^ dot (m :: messages) (k :: ks) := by rw [dot_cons]; ring

/-- The messages `open` has yet to take. -/
def remaining (messages : List Nat) (i messageInc : Nat) : List Nat :=
  if messageInc ≤ i then (messages.drop messageInc).eraseIdx (i - messageInc) else messages.drop messageInc

theorem remaining_zero (messages : List Nat) (i : Nat) : remaining messages i 0 = messages.eraseIdx i := by
  simp [remaining]

theorem remaining_cons {messages : List Nat} {i messageInc : Nat} {m : Nat} {rest : List Nat}
    (h : remaining messages i messageInc = m :: rest) :
    messages[if messageInc = i then messageInc + 1 else messageInc]? = some m ∧
      remaining messages i ((if messageInc = i then messageInc + 1 else messageInc) + 1) = rest := by
  unfold remaining at h ⊢
  have hdrop : ∀ k, messages.drop k = [] ∨ ∃ x, messages[k]? = some x ∧ messages.drop k = x :: messages.drop (k + 1) := by
    intro k
    rcases Nat.lt_or_ge k messages.length with hk | hk
    · exact .inr ⟨messages[k], List.getElem?_eq_getElem hk, List.drop_eq_getElem_cons hk⟩
    · exact .inl (List.drop_eq_nil_of_le hk)
  by_cases heq : messageInc = i
  · subst heq
    rw [if_pos (Nat.le_refl _), Nat.sub_self] at h
    rw [if_pos rfl, if_neg (by omega)]
    have htail : (messages.drop messageInc).eraseIdx 0 = messages.drop (messageInc + 1) := by
      rcases hdrop messageInc with hnil | ⟨x, -, hcons⟩
      · rw [hnil, ← List.drop_drop, hnil]; rfl
      · rw [hcons]; rfl
    rw [htail] at h
    rcases hdrop (messageInc + 1) with hnil | ⟨x, hx, hcons⟩
    · rw [hnil] at h; cases h
    · rw [hcons] at h
      cases h
      exact ⟨hx, rfl⟩
  · rw [if_neg heq]
    rcases hdrop messageInc with hnil | ⟨x, hx, hcons⟩
    · rw [hnil] at h
      split at h <;> cases h
    · rw [hcons] at h
      by_cases hle : messageInc ≤ i
      · obtain ⟨d, hd⟩ := Nat.exists_eq_add_of_lt (Nat.lt_of_le_of_ne hle heq)
        rw [if_pos hle, show i - messageInc = d + 1 by omega, List.eraseIdx_cons_succ] at h
        cases h
        exact ⟨hx, by rw [if_pos (by omega), show i - (messageInc + 1) = d by omega]⟩
      · rw [if_neg hle] at h
        cases h
        exact ⟨hx, by rw [if_neg (by omega)]⟩

/-- **`open` forms the product that `commit` forms of the other messages.** -/
theorem openLoop_eq (messages : List Nat) (n : Int) (i : Nat) : ∀ (fgen : List Int) (messageInc : Nat) (prod : Int),
    fgen.length = (remaining messages i messageInc).length →
      openLoop messages n i fgen messageInc prod = commitLoop n (remaining messages i messageInc) fgen prod
  | [], messageInc, prod, hlen        => by
    rw [List.length_eq_zero_iff.1 hlen.symm, openLoop, commitLoop]
  | s :: fgen, messageInc, prod, hlen => by
    cases hrest : remaining messages i messageInc with
    | nil           => rw [hrest] at hlen; cases hlen
    | cons m rest =>
      obtain ⟨hm, hrem⟩ := remaining_cons hrest
      rw [hrest] at hlen
      simp only [openLoop, commitLoop, hm]
      rw [openLoop_eq messages n i fgen _ _ (by rw [hrem]; exact Nat.succ.inj hlen), hrem]

/-! ## Completeness -/

/-- **What is opened verifies**: at every position, for every length of the list and every split of it. -/
theorem verify_openAt {messages e : List Nat} {a n : Int} (hmessages : 2 ≤ messages.length)
    (he : e.length = messages.length) (hnodup : e.Nodup) (hn : 2 ≤ n) {i : Nat} (hi : i < messages.length) :
    ∃ S C A, fastGen n e a = .ok S ∧ commit messages S n = .ok C ∧ openAt messages e a n i = .ok A ∧
      verify C messages[i] i A S e n = .ok 1 := by
  have hie : i < e.length := he ▸ hi
  obtain ⟨S, hS, hSpow⟩ := fastGen_spec n e (List.ne_nil_of_length_pos (by omega)) a
  have hSlen : S.length = e.length := by rw [hSpow.length_eq, length_others]
  obtain ⟨C, hC, hCmod, hCrange⟩ := @commitLoop_spec a n messages S _ hSpow (by omega) 1
  have herase : (e.eraseIdx i).length = (messages.eraseIdx i).length := by
    rw [List.length_eraseIdx_of_lt hie, List.length_eraseIdx_of_lt hi, he]
  obtain ⟨fgen, hfgen, hfpow⟩ := fastGen_spec n (e.eraseIdx i)
    (List.ne_nil_of_length_pos (by rw [List.length_eraseIdx_of_lt hie]; omega)) a
  have hflen : fgen.length = (messages.eraseIdx i).length := by rw [hfpow.length_eq, length_others, herase]
  obtain ⟨A, hA, hAmod, -⟩ := commitLoop_spec hfpow hflen.ge 1
  have hopen : openAt messages e a n i = .ok A := by
    rw [openAt, List.getElem?_eq_getElem hie]
    simp only [hnodup.erase_getElem i hie, hfgen, bind, Except.bind]
    rw [openLoop_eq messages n i fgen 0 1 (by rw [remaining_zero, hflen]), remaining_zero, hA]
  have hiS : i < S.length := hSlen ▸ hie
  have hSi : S[i] ≡ a ^ (e.eraseIdx i).prod [ZMOD n] := by
    have h := List.forall₂_iff_get.1 hSpow
    have hSi := h.2 i hiS (by rw [length_others]; exact hie)
    rwa [List.get_eq_getElem, List.get_eq_getElem, others_getElem] at hSi
  refine ⟨S, C, A, hS, hC, hopen, ?_⟩
  have hnewC : powMod A e[i] n * powMod (S[i]) messages[i] n ≡ C [ZMOD n] := by
    calc powMod A e[i] n * powMod (S[i]) messages[i] n
      _ ≡ (1 * a ^ dot (messages.eraseIdx i) (others (e.eraseIdx i))) ^ e[i] *
          (a ^ (e.eraseIdx i).prod) ^ messages[i] [ZMOD n] := (powMod_congr hAmod _).mul (powMod_congr hSi _)
      _ = 1 * a ^ dot messages (others e) := by rw [dot_others_eraseIdx messages e i hi hie]; ring
      _ ≡ C [ZMOD n] := hCmod.symm
  have hone : (1 : Int) % n = 1 := Int.emod_eq_of_lt (by omega) (by omega)
  rw [verify, List.getElem?_eq_getElem hie, List.getElem?_eq_getElem hiS]
  simp only [hnewC.eq, hCrange hone, if_true]

theorem verify_openAt_three : ∃ S C A, fastGen 35 [3, 5, 7] 2 = .ok S ∧ commit [4, 0, 6] S 35 = .ok C ∧
    openAt [4, 0, 6] [3, 5, 7] 2 35 1 = .ok A ∧ verify C 0 1 A S [3, 5, 7] 35 = .ok 1 :=
  @verify_openAt [4, 0, 6] [3, 5, 7] 2 35 (by decide) (by decide) (by decide) (by decide) 1 (by decide)

end RsaCommit
end Dpid
