import Dpid.Zfec
import Mathlib.Data.Fintype.Card
import Mathlib.Data.List.Forall2
import Mathlib.Data.List.OfFn
/-!
# Coding — `encode` and `decode` over zfec (`honeybadgerbft/core/reliablebroadcast.py`)

`encode` pads a message to a multiple of `K` bytes, cuts it into `K` blocks and hands them to zfec; `decode` takes the
first `K` stripes that are present, has zfec recover the blocks and cuts the padding off.  `broadcast/reliablebroadcast.py`
has the same two functions.

zfec itself is the parameter `Zfec`.  The main result is `decode_erased_iff`: the round trip holds exactly when the last
padding byte is the length of the message modulo `K`, which from a residue of 128 on it seldom is.
-/
namespace Dpid

def zfecResult : Option (List Bytes) → Except Exn (List Bytes)
  | some r => .ok r
  | none   => .error .zfecError

/-! ## `encode` -/

/-- `m += padlen * chr(K-padlen).encode()`: from `K - padlen = 128` on a character is two bytes long. -/
def pad (K : Nat) (m : Bytes) : Bytes :=
  let padlen := K - m.length % K
  m ++ (List.replicate padlen (chrEncode (K - padlen))).flatten

/-- `[m[i*step: (i+1)*step] for i in range(K)]`, with `step = len(m)//K`. -/
def blocks (K : Nat) (m : Bytes) : List Bytes :=
  let step := m.length / K
  (List.range K).map (fun i => slice m (i * step) ((i + 1) * step))

def encode (z : Zfec) (K N : Nat) (m : Text) : Except Exn (List Bytes) := do
  let m := m.encode
  zfecInit K N
  if ¬ K ≤ 256 then throw .assertionError
  zfecResult (z.encode K N (blocks K (pad K m)))

/-! ## `decode` -/

/-- The loop that collects blocks and their numbers; `none` is its `else`, reached when fewer than `K` are there. -/
def collect (K : Nat) : Nat → List (Option Bytes) → List (Nat × Bytes) → Option (List (Nat × Bytes))
  | _, [], _             => none
  | i, none :: rest, got => collect K (i + 1) rest got
  | i, some b :: rest, got =>
    if (got ++ [(i, b)]).length = K then some (got ++ [(i, b)]) else collect K (i + 1) rest (got ++ [(i, b)])

/-- `padlen = K - m[-1]; m = m[:-padlen]`. -/
def unpad (K : Nat) (m : Bytes) : Except Exn Bytes :=
  match m.getLast? with
  | none   => .error .indexError
  | some b => .ok (sliceTo m (-((K : Int) - b.toNat)))

def decode (z : Zfec) (K N : Nat) (stripes : List (Option Bytes)) : Except Exn Bytes := do
  if stripes.length ≠ N then throw .assertionError
  match collect K 0 stripes [] with
  | none => throw (.valueError "Too few to recover")
  | some got =>
    zfecInit K N
    let recd ← zfecResult (z.decode K N (got.map Prod.snd) (got.map Prod.fst))
    unpad K recd.flatten

/-! ## What the collecting loop gathers -/

/-- The stripes that are present, with their numbers, in order. -/
def present : Nat → List (Option Bytes) → List (Nat × Bytes)
  | _, []             => []
  | i, none :: rest   => present (i + 1) rest
  | i, some b :: rest => (i, b) :: present (i + 1) rest

/-- **The loop gathers the first `K` present stripes**, or runs out of them. -/
theorem collect_eq (K : Nat) : ∀ (l : List (Option Bytes)) (i : Nat) (got : List (Nat × Bytes)), got.length < K →
    collect K i l got = if K ≤ got.length + (present i l).length then some (got ++ (present i l).take (K - got.length))
      else none
  | [], i, got, h => by simp [collect, present]; omega
  | none :: rest, i, got, h => by
    rw [collect, collect_eq K rest (i + 1) got h]
    rfl
  | some b :: rest, i, got, h => by
    rw [collect, present]
    simp only [List.length_append, List.length_cons, List.length_nil]
    by_cases hK : got.length + 1 = K
    · have hd : K - got.length = 1 := by omega
      rw [if_pos (by omega), if_pos (by omega), hd, List.take_succ_cons, List.take_zero]
    · have hd : K - got.length = (K - (got.length + 1)) + 1 := by omega
      rw [if_neg (by omega), collect_eq K rest (i + 1) _ (by simp; omega), hd, List.take_succ_cons]
      simp only [List.length_append, List.length_cons, List.length_nil, List.append_assoc, List.singleton_append]
      have hc : (K ≤ got.length + 1 + (present (i + 1) rest).length) ↔
          (K ≤ got.length + ((present (i + 1) rest).length + 1)) := by omega
      simp only [Nat.zero_add, hc]

theorem mem_present : ∀ (l : List (Option Bytes)) (i j : Nat) (b : Bytes),
    (j, b) ∈ present i l ↔ i ≤ j ∧ l[j - i]? = some (some b)
  | [], i, j, b => by simp [present]
  | none :: rest, i, j, b => by
    rw [present, mem_present rest (i + 1) j b]
    by_cases hj : j = i
    · subst hj; simp
    · have : ∀ h : i < j, j - i = (j - (i + 1)) + 1 := fun h => by omega
      constructor
      · rintro ⟨hle, hb⟩
        refine ⟨by omega, ?_⟩
        rw [this (by omega)]; simpa using hb
      · rintro ⟨hle, hb⟩
        refine ⟨by omega, ?_⟩
        rw [this (by omega)] at hb; simpa using hb
  | some c :: rest, i, j, b => by
    rw [present, List.mem_cons, mem_present rest (i + 1) j b]
    by_cases hj : j = i
    · subst hj
      have hne : ¬ j + 1 ≤ j := by omega
      simp [hne, eq_comm]
    · have : ∀ h : i < j, j - i = (j - (i + 1)) + 1 := fun h => by omega
      constructor
      · rintro (hb | ⟨hle, hb⟩)
        · cases hb; exact absurd rfl hj
        · refine ⟨by omega, ?_⟩
          rw [this (by omega)]; simpa using hb
      · rintro ⟨hle, hb⟩
        refine Or.inr ⟨by omega, ?_⟩
        rw [this (by omega)] at hb; simpa using hb

theorem present_length : ∀ (l : List (Option Bytes)) (i : Nat), (present i l).length = l.countP Option.isSome
  | [], i => rfl
  | none :: rest, i => by rw [present, present_length rest (i + 1)]; simp
  | some b :: rest, i => by rw [present, List.length_cons, present_length rest (i + 1)]; simp

theorem present_sorted : ∀ (l : List (Option Bytes)) (i : Nat), ((present i l).map Prod.fst).Pairwise (· < ·)
  | [], i => List.Pairwise.nil
  | none :: rest, i => present_sorted rest (i + 1)
  | some b :: rest, i => by
    refine List.Pairwise.cons (fun j hj => ?_) (present_sorted rest (i + 1))
    obtain ⟨⟨j', c⟩, hp, rfl⟩ := List.mem_map.1 hj
    have := ((mem_present rest (i + 1) j' c).1 hp).1
    exact this

/-! ## The blocks of a padded message -/

theorem blocks_length (K : Nat) (m : Bytes) : (blocks K m).length = K := by simp [blocks]

theorem length_of_mem_blocks (K : Nat) (m b : Bytes) (hb : b ∈ blocks K m) : b.length = m.length / K := by
  obtain ⟨i, hi, rfl⟩ := List.mem_map.1 hb
  have hi : i < K := List.mem_range.1 hi
  have hle : (i + 1) * (m.length / K) ≤ m.length :=
    Nat.le_trans (Nat.mul_le_mul_right _ hi) (Nat.mul_div_le _ _)
  rw [slice_length m _ _ hle, Nat.succ_mul, Nat.add_sub_cancel_left]

theorem flatten_blocks (K : Nat) (m : Bytes) : (blocks K m).flatten = m.take (K * (m.length / K)) := by
  rw [blocks, flatten_slices m _ K (Nat.mul_div_le _ _)]

/-! ## The two calls, unpacked -/

theorem encode_eq_ok (z : Zfec) (K N : Nat) (m : Text) (stripes : List Bytes) :
    encode z K N m = .ok stripes ↔
      (1 ≤ K ∧ K ≤ N ∧ N ≤ 256) ∧ z.encode K N (blocks K (pad K m.encode)) = some stripes := by
  unfold encode zfecInit
  by_cases h : 1 ≤ K ∧ K ≤ N ∧ N ≤ 256
  · have hK : K ≤ 256 := Nat.le_trans h.2.1 h.2.2
    simp only [h, hK, bind, Except.bind, and_self, if_true, not_true, if_false, true_and]
    cases z.encode K N (blocks K (pad K m.encode)) <;> simp [zfecResult]
  · simp [h, bind, Except.bind]

theorem encode_bytes (z : Zfec) (K N : Nat) (m : Text) : encode z K N (.bytes m.encode) = encode z K N m := rfl

theorem encode_isOk {z : Zfec} {K N : Nat} (hz : z.IsMds K N) (h1 : 1 ≤ K) (h2 : K ≤ N) (h3 : N ≤ 256) (m : Text) :
    ∃ stripes, encode z K N m = .ok stripes ∧ stripes.length = N := by
  obtain ⟨stripes, hs, hl⟩ := hz.encode_isSome _ _ (blocks_length K _) (length_of_mem_blocks K (pad K m.encode))
  exact ⟨stripes, (encode_eq_ok z K N m stripes).2 ⟨⟨h1, h2, h3⟩, hs⟩, hl⟩

theorem encode_length {z : Zfec} {K N : Nat} (hz : z.IsMds K N) {m : Text} {stripes : List Bytes}
    (h : encode z K N m = .ok stripes) : stripes.length = N := by
  obtain ⟨⟨h1, h2, h3⟩, -⟩ := (encode_eq_ok z K N m stripes).1 h
  obtain ⟨s, hs, hl⟩ := encode_isOk hz h1 h2 h3 m
  rw [h] at hs
  cases hs
  exact hl

/-- **`decode` gives the blocks of the codeword on which the first `K` present stripes lie**, their padding cut off. -/
theorem decode_of_word {z : Zfec} {K N L : Nat} (hz : z.IsMds K N) (h1 : 1 ≤ K) (h2 : K ≤ N) (h3 : N ≤ 256)
    {bl stripes : List Bytes} (hbl : bl.length = K) (hL : ∀ b ∈ bl, b.length = L)
    (hs : z.encode K N bl = some stripes) {got : List (Option Bytes)} (hlen : got.length = N)
    (hcnt : K ≤ (present 0 got).length) (hsub : ∀ p ∈ (present 0 got).take K, stripes[p.1]? = some p.2) :
    decode z K N got = unpad K bl.flatten := by
  have hc : collect K 0 got [] = some ((present 0 got).take K) := by
    rw [collect_eq K got 0 [] h1]
    simp [hcnt]
  have hlt : ∀ p ∈ (present 0 got).take K, p.1 < N := by
    rintro ⟨j, b⟩ hj
    have hj := ((mem_present got 0 j b).1 (List.mem_of_mem_take hj)).2
    rcases Nat.lt_or_ge j got.length with h | h
    · exact hlen ▸ h
    · rw [List.getElem?_eq_none (by simpa using h)] at hj; cases hj
  have hrec : ((present 0 got).take K).map Prod.snd =
      (((present 0 got).take K).map Prod.fst).filterMap (stripes[·]?) := by
    rw [List.filterMap_map, ← List.filterMap_eq_map]
    exact List.filterMap_congr (fun p hp => (hsub p hp).symm)
  have hnd : (((present 0 got).take K).map Prod.fst).Nodup := by
    rw [List.map_take]
    exact ((present_sorted got 0).imp (fun h => Nat.ne_of_lt h)).sublist (List.take_sublist _ _)
  have hdec := hz.decode_encode _ _ stripes _ hbl hL hs (by rw [List.length_map, List.length_take]; omega) hnd
    (fun i hi => by
      obtain ⟨p, hp, rfl⟩ := List.mem_map.1 hi
      exact hlt p hp)
  unfold decode zfecInit
  simp only [hlen, not_true, if_false, hc, hrec, bind, Except.bind, hdec, zfecResult, ne_eq, h1, h2, h3, and_self,
    if_true]

/-- **Any `K` stripes of a codeword decode to its blocks**, whichever they are. -/
theorem decode_of_encode {z : Zfec} {K N : Nat} (hz : z.IsMds K N) {m : Text} {stripes : List Bytes}
    (hm : encode z K N m = .ok stripes) (got : List (Option Bytes)) (hlen : got.length = N)
    (hsub : ∀ (i : Nat) (b : Bytes), got[i]? = some (some b) → stripes[i]? = some b) (hcnt : K ≤ got.countP Option.isSome) :
    decode z K N got = unpad K (blocks K (pad K m.encode)).flatten := by
  obtain ⟨⟨h1, h2, h3⟩, hs⟩ := (encode_eq_ok z K N m stripes).1 hm
  refine decode_of_word hz h1 h2 h3 (blocks_length K _) (length_of_mem_blocks K (pad K m.encode)) hs hlen
    (by rw [present_length]; exact hcnt) (fun p hp => ?_)
  exact hsub p.1 p.2 (by simpa using ((mem_present got 0 p.1 p.2).1 (List.mem_of_mem_take hp)).2)

theorem countP_ofFn_isSome {N : Nat} (g : Fin N → Option Bytes) :
    (List.ofFn g).countP Option.isSome = (Finset.univ.filter (fun i => (g i).isSome)).card := by
  rw [List.ofFn_eq_map, List.countP_map, Fin.univ_def, Finset.card_def, Finset.filter_val]
  simp [List.countP_eq_length_filter, Function.comp_def]

/-- **Messages whose codewords agree in `K` places decode alike.** -/
theorem unpad_eq_of_agree {z : Zfec} {K N : Nat} (hz : z.IsMds K N) {m m' : Text} {S S' : List Bytes}
    (hS : encode z K N m = .ok S) (hS' : encode z K N m' = .ok S') {A : Finset (Fin N)} (hA : K ≤ A.card)
    (h : ∀ i ∈ A, S.getD i [] = S'.getD i []) :
    unpad K (blocks K (pad K m.encode)).flatten = unpad K (blocks K (pad K m'.encode)).flatten := by
  -- both decode from the places of `A` alone
  let g : Fin N → Option Bytes := fun i => if i ∈ A then some (S.getD i []) else none
  have hget : ∀ (T : List Bytes), T.length = N → (∀ i ∈ A, S.getD i [] = T.getD i []) →
      ∀ (i : Nat) (b : Bytes), (List.ofFn g)[i]? = some (some b) → T[i]? = some b := by
    intro T hT hST i b hb
    rw [List.getElem?_ofFn] at hb
    split at hb
    · rename_i hi
      have hb : (if (⟨i, hi⟩ : Fin N) ∈ A then some (S.getD i []) else none) = some b := Option.some.inj hb
      split at hb
      · rename_i hmem
        have hb := Option.some.inj hb
        rw [hST _ hmem, List.getD_eq_getElem?_getD, List.getElem?_eq_getElem (by rw [hT]; exact hi)] at hb
        rw [List.getElem?_eq_getElem (by rw [hT]; exact hi), ← hb]
        rfl
      · cases hb
    · cases hb
  have hcnt : K ≤ (List.ofFn g).countP Option.isSome := by
    have hA' : Finset.univ.filter (fun i => (g i).isSome) = A := by
      ext i
      by_cases hi : i ∈ A <;> simp [g, hi]
    rw [countP_ofFn_isSome, hA']
    exact hA
  rw [← decode_of_encode hz hS _ List.length_ofFn (hget S (encode_length hz hS) (fun _ _ => rfl)) hcnt,
    ← decode_of_encode hz hS' _ List.length_ofFn (hget S' (encode_length hz hS') h) hcnt]

theorem le_countP_of_decode {z : Zfec} {K N : Nat} (hK : 1 ≤ K) {got : List (Option Bytes)} {m : Bytes}
    (h : decode z K N got = .ok m) : K ≤ got.countP Option.isSome := by
  unfold decode at h
  rw [collect_eq K got 0 [] hK] at h
  by_cases hlen : got.length ≠ N
  · simp [hlen, bind, Except.bind, throw, throwThe, MonadExceptOf.throw] at h
  · rw [← present_length got 0]
    by_contra hlt
    have hif : ¬ K ≤ ([] : List (Nat × Bytes)).length + (present 0 got).length := by simpa using hlt
    simp only [hif, hlen, bind, Except.bind, if_false, throw, throwThe, MonadExceptOf.throw] at h
    simp at h

/-! ## The last padding byte

`chr(K-padlen).encode()` is one byte up to 127 and two from 128 on.  The padding is cut back to `padlen` bytes with the
blocks, so from 128 on its last byte is the first or the second of the two, as `padlen` is odd or even. -/

theorem chrEncode_of_lt {r : Nat} (h : r < 128) : chrEncode r = [UInt8.ofNat r] := by
  have : ∀ r < 128, chrEncode r = [UInt8.ofNat r] := by decide +kernel
  exact this r h

theorem chrEncode_of_ge {r : Nat} (h : 128 ≤ r) (h' : r < 256) :
    chrEncode r = [UInt8.ofNat (192 + r / 64), UInt8.ofNat (128 + r % 64)] := by
  have : ∀ r < 256, 128 ≤ r → chrEncode r = [UInt8.ofNat (192 + r / 64), UInt8.ofNat (128 + r % 64)] := by
    decide +kernel
  exact this r h' h

/-- The last byte of a message of length `r` modulo `K`, padded and cut into `K` blocks. -/
def lastPad (K r : Nat) : Nat :=
  if r < 128 then r else if (K - r) % 2 = 0 then 128 + r % 64 else 192 + r / 64

/-- When the last padding byte is the residue `r` itself. -/
def PadOk (K r : Nat) : Prop := r < 128 ∨ (r ≤ 191 ∧ (K - r) % 2 = 0) ∨ (r = 195 ∧ K % 2 = 0)

instance (K r : Nat) : Decidable (PadOk K r) := by unfold PadOk; infer_instance

theorem lastPad_lt (K r : Nat) (h : r < 256) : lastPad K r < 256 := by
  unfold lastPad
  split
  · omega
  · split <;> omega

theorem lastPad_eq_iff (K r : Nat) (hr : r < K) (hK : K ≤ 256) : lastPad K r = r ↔ PadOk K r := by
  unfold lastPad PadOk
  split
  · omega
  · split <;> omega

theorem flatten_replicate_pair (a b : UInt8) : ∀ (p i : Nat), i < 2 * p →
    (List.replicate p [a, b]).flatten[i]? = some (if i % 2 = 0 then a else b)
  | 0, i, h => by omega
  | p + 1, 0, _ => by simp [List.replicate_succ]
  | p + 1, 1, _ => by simp [List.replicate_succ]
  | p + 1, i + 2, h => by
    have hi : (i + 2) % 2 = i % 2 := by omega
    rw [List.replicate_succ, List.flatten_cons, hi, ← flatten_replicate_pair a b p i (by omega)]
    simp

/-- **A padded message cut into blocks is the message and `K - r` more bytes, the last of them `lastPad K r`.** -/
theorem flatten_blocks_pad (K : Nat) (h1 : 1 ≤ K) (hK : K ≤ 256) (m : Bytes) :
    ∃ t : Bytes, (blocks K (pad K m)).flatten = m ++ t ∧ t.length = K - m.length % K ∧
      t.getLast? = some (UInt8.ofNat (lastPad K (m.length % K))) := by
  have hr : m.length % K < K := Nat.mod_lt _ h1
  have hm : m.length = K * (m.length / K) + m.length % K := (Nat.div_add_mod _ _).symm
  rw [flatten_blocks]
  generalize hrr : m.length % K = r at *
  generalize m.length / K = q at *
  have hsub : K - (K - r) = r := by omega
  simp only [pad, hrr, hsub]
  by_cases h : r < 128
  · have hpl : (List.replicate (K - r) [UInt8.ofNat r]).flatten = List.replicate (K - r) (UInt8.ofNat r) := by simp
    rw [chrEncode_of_lt h, hpl]
    have hlen : (m ++ List.replicate (K - r) (UInt8.ofNat r)).length = K * (q + 1) := by
      rw [List.length_append, List.length_replicate, hm, Nat.mul_succ]; omega
    refine ⟨List.replicate (K - r) (UInt8.ofNat r), ?_, by simp, ?_⟩
    · rw [hlen, Nat.mul_div_cancel_left _ h1, ← hlen, List.take_length]
    · rw [List.getLast?_replicate, if_neg (by omega), lastPad, if_pos h]
  · rw [chrEncode_of_ge (by omega) (by omega)]
    generalize hP : (List.replicate (K - r) [UInt8.ofNat (192 + r / 64), UInt8.ofNat (128 + r % 64)]).flatten = P
    have hPl : P.length = 2 * (K - r) := by rw [← hP]; simp [Nat.mul_comm]
    have hlen : (m ++ P).length = K * (q + 1) + (K - r) := by
      rw [List.length_append, hPl, hm, Nat.mul_succ]; omega
    have hdiv : (K * (q + 1) + (K - r)) / K = q + 1 := by
      rw [Nat.mul_add_div h1, Nat.div_eq_of_lt (by omega)]
    refine ⟨P.take (K - r), ?_, by rw [List.length_take, hPl]; omega, ?_⟩
    · have hcut : K * (q + 1) = m.length + (K - r) := by rw [hm, Nat.mul_succ]; omega
      rw [hlen, hdiv, hcut, List.take_length_add_append]
    · have hget : P[K - r - 1]? = some (if (K - r - 1) % 2 = 0 then UInt8.ofNat (192 + r / 64)
          else UInt8.ofNat (128 + r % 64)) := by
        rw [← hP]; exact flatten_replicate_pair _ _ _ _ (by omega)
      have hmin : min (K - r) P.length - 1 = K - r - 1 := by rw [hPl]; omega
      rw [List.getLast?_eq_getElem?, List.length_take, hmin, List.getElem?_take, if_pos (by omega), hget, lastPad,
        if_neg h]
      by_cases he : (K - r) % 2 = 0
      · rw [if_pos he, if_neg (by omega)]
      · rw [if_neg he, if_pos (by omega)]

/-- **Cutting the padding off gives the message back exactly when the last byte is the residue.** -/
theorem unpad_append_iff (K : Nat) (m t : Bytes) (hK : K ≤ 256) (h1 : 1 ≤ K) (ht : t.length = K - m.length % K) (b : Nat)
    (hb : b < 256) (hb' : 128 ≤ m.length % K ∨ b = m.length % K) (hlast : t.getLast? = some (UInt8.ofNat b)) :
    unpad K (m ++ t) = .ok m ↔ b = m.length % K := by
  have hr : m.length % K < K := Nat.mod_lt _ h1
  have hm : m.length = K * (m.length / K) + m.length % K := (Nat.div_add_mod _ _).symm
  generalize m.length % K = r at *
  generalize hq : K * (m.length / K) = q at *
  have hx : (m ++ t).length = q + K := by rw [List.length_append, ht]; omega
  have hprefix : ∀ n, (m ++ t).take n = m ↔ min n (q + K) = q + r := by
    intro n
    rw [← hx, ← List.length_take, ← hm]
    refine ⟨fun h => by rw [h], fun h => ?_⟩
    have hp : (m ++ t).take n <+: m ++ t := List.take_prefix _ _
    exact (List.prefix_of_prefix_length_le hp (List.prefix_append m t) (by omega)).eq_of_length h
  have hgl : (m ++ t).getLast? = some (UInt8.ofNat b) := by
    rw [List.getLast?_append, hlast]; rfl
  have hbn : (UInt8.ofNat b).toNat = b := by simp; omega
  simp only [unpad, hgl, Except.ok.injEq, sliceTo, hbn]
  by_cases hle : b < K
  · rw [if_neg (by omega), hprefix, hx]
    omega
  · rw [if_pos (by omega), hprefix]
    omega

/-- **What decoding a codeword of `m` gives, compared with `m`.** -/
theorem unpad_blocks_iff (K : Nat) (h1 : 1 ≤ K) (hK : K ≤ 256) (m : Bytes) :
    unpad K (blocks K (pad K m)).flatten = .ok m ↔ PadOk K (m.length % K) := by
  obtain ⟨t, ht, htl, htb⟩ := flatten_blocks_pad K h1 hK m
  have hr : m.length % K < K := Nat.mod_lt _ h1
  rw [ht, unpad_append_iff K m t hK h1 htl _ (lastPad_lt K _ (by omega)) ?_ htb, lastPad_eq_iff K _ hr hK]
  unfold lastPad
  split <;> omega

/-! ## The round trip -/

/-- A list the stripes of `encode(K, N, m)` become when at most `N - K` entries are replaced by `None`. -/
def ErasedFrom (z : Zfec) (K N : Nat) (m : Text) (got : List (Option Bytes)) : Prop :=
  ∃ stripes, encode z K N m = .ok stripes ∧
    List.Forall₂ (fun s o => o = none ∨ o = some s) stripes got ∧ got.count none ≤ N - K

/-- A list that holds at least `K` stripes of `m` at their places, and nothing else, decodes to `m`'s blocks. -/
theorem decode_erased {z : Zfec} {K N : Nat} (hz : z.IsMds K N) (hKN : K ≤ N) {m : Text} {got : List (Option Bytes)}
    (hgot : ErasedFrom z K N m got) : decode z K N got = unpad K (blocks K (pad K m.encode)).flatten := by
  obtain ⟨stripes, hm, hrel, hcnt⟩ := hgot
  have hlen : got.length = N := by rw [← hrel.length_eq, encode_length hz hm]
  have hsub : ∀ (i : Nat) (b : Bytes), got[i]? = some (some b) → stripes[i]? = some b := by
    intro i b hi
    have hlt : i < got.length := (List.getElem?_eq_some_iff.1 hi).1
    have hrel' := hrel.get (hrel.length_eq ▸ hlt) hlt
    simp only [List.get_eq_getElem, (List.getElem?_eq_some_iff.1 hi).2, reduceCtorEq, Option.some.injEq, false_or] at hrel'
    rw [hrel']
    exact List.getElem?_eq_getElem (hrel.length_eq ▸ hlt)
  have hpres : K ≤ got.countP Option.isSome := by
    have := List.length_eq_countP_add_countP Option.isSome (l := got)
    have hnone : got.countP (fun a => ¬ Option.isSome a = true) = got.count none := by
      rw [List.count]
      exact List.countP_congr (fun o _ => by cases o <;> simp)
    omega
  exact decode_of_encode hz hm got hlen hsub hpres

/-- **The erasure-coding round trip holds exactly when the residue of the length survives the padding**: up to 127, at
an even distance from `K` up to 191, and at 195 for an even `K`. -/
theorem decode_erased_iff {z : Zfec} {K N : Nat} (hz : z.IsMds K N) (hK : 1 ≤ K) (hKN : K ≤ N) (hN : N ≤ 256) (m : Bytes)
    (got : List (Option Bytes)) (hgot : ErasedFrom z K N (.bytes m) got) :
    decode z K N got = .ok m ↔ PadOk K (m.length % K) := by
  rw [decode_erased hz hKN hgot]
  exact unpad_blocks_iff K hK (Nat.le_trans hKN hN) m

theorem decode_erased_iff_two_of_four :
    ErasedFrom reedSolomon 2 4 (.bytes [1]) [none, some [1], none, some [1]] ∧
      (decode reedSolomon 2 4 [none, some [1], none, some [1]] = .ok [1] ↔ PadOk 2 1) := by
  have h : ErasedFrom reedSolomon 2 4 (.bytes [1]) [none, some [1], none, some [1]] := by
    refine ⟨List.replicate 4 [1], (encode_eq_ok _ _ _ _ _).2 ⟨by decide, ?_⟩, by decide, by decide⟩
    have hb : blocks 2 (pad 2 (Text.bytes [1]).encode) = List.replicate 2 [1] := by decide
    rw [hb, reedSolomon_const (by decide) (by decide)]
  exact ⟨h, decode_erased_iff (reedSolomon_isMds (by decide) (by decide) (by decide)) (by decide) (by decide)
    (by decide) [1] _ h⟩

theorem erasedFrom_self {z : Zfec} {K N : Nat} {m : Text} {stripes : List Bytes} (hm : encode z K N m = .ok stripes) :
    ErasedFrom z K N m (stripes.map some) := by
  refine ⟨stripes, hm, ?_, ?_⟩
  · rw [List.forall₂_map_right_iff, List.forall₂_same]
    exact fun _ _ => Or.inr rfl
  · have : (stripes.map some).count none = 0 := List.count_eq_zero.2 (by simp)
    omega

/-- 128 zero bytes at `K = 129` come back as 65: the last padding byte is the first of `chr(128).encode()`, 194, so
`padlen` is `-65` and `m[:-padlen]` keeps 65 bytes. -/
theorem decode_erased_counterexample :
    ¬ ∀ got, ErasedFrom reedSolomon 129 256 (.bytes (List.replicate 128 0)) got →
      decode reedSolomon 129 256 got = .ok (List.replicate 128 0) := by
  intro h
  have hz : reedSolomon.IsMds 129 256 := reedSolomon_isMds (by decide) (by decide) (by decide)
  obtain ⟨stripes, hs, -⟩ := encode_isOk hz (by decide) (by decide) (by decide) (.bytes (List.replicate 128 0))
  have hself := erasedFrom_self hs
  have h65 : unpad 129 (blocks 129 (pad 129 (List.replicate 128 0))).flatten = .ok (List.replicate 65 0) := by
    decide +kernel
  have hdec := decode_erased hz (by decide) hself
  rw [h _ hself, Text.encode, h65] at hdec
  exact absurd hdec (by decide)

/-- `decode(encode(m))` is `m`, as bytes. -/
def RoundTrip (z : Zfec) (K N : Nat) (m : Text) : Prop :=
  ∀ stripes, encode z K N m = .ok stripes → decode z K N (stripes.map some) = .ok m.encode

theorem unpad_of_roundTrip {z : Zfec} {K N : Nat} (hz : z.IsMds K N) {m : Text} (hrt : RoundTrip z K N m)
    {stripes : List Bytes} (hm : encode z K N m = .ok stripes) :
    unpad K (blocks K (pad K m.encode)).flatten = .ok m.encode := by
  have hKN := ((encode_eq_ok z K N m stripes).1 hm).1.2.1
  rw [← decode_erased hz hKN (erasedFrom_self hm)]
  exact hrt stripes hm

/-- Up to `K = 128` every residue is below 128. -/
theorem unpad_blocks (K : Nat) (h1 : 1 ≤ K) (hK : K ≤ 128) (m : Bytes) :
    unpad K (blocks K (pad K m)).flatten = .ok m :=
  (unpad_blocks_iff K h1 (by omega) m).2 (Or.inl (Nat.lt_of_lt_of_le (Nat.mod_lt _ h1) hK))

theorem roundTrip_of_le {z : Zfec} {K N : Nat} (hz : z.IsMds K N) (hK : K ≤ 128) (m : Text) : RoundTrip z K N m := by
  intro stripes hm
  have hbound := ((encode_eq_ok z K N m stripes).1 hm).1
  rw [decode_erased hz hbound.2.1 (erasedFrom_self hm)]
  exact unpad_blocks K hbound.1 hK m.encode

end Dpid
