import Dpid.Scalar
/-!
# Recoding — scalars in signed digits (`scalar.rs`)

`non_adjacent_form` gives odd digits at least `w` places apart, `to_radix_16` and `to_radix_2w` one digit a place between
`-2 ^ (w - 1)` and `2 ^ (w - 1)`.  All need the top bit of the scalar to be zero: it is where the last carry goes.
-/
namespace Dpid
namespace Curve25519
namespace Scalar

open Checked LittleEndian Buckets
open Pairing (asI8 addDigit digitsCount recode limbs)

/-! ## The functions -/

/-- `LittleEndian::read_u64_into`. -/
def words (s : Scalar) : List UInt64 := (List.range 4).map fun i => UInt64.ofNat (load8 (s.bytes.toList.drop (8 * i)))

/-- `bit_buf` at the bit `pos`, for five words. -/
def bitBuf (xU64 : List UInt64) (w pos : Nat) : Option UInt64 :=
  let u64Idx := pos / 64
  let bitIdx := pos % 64
  if bitIdx < 64 - w then xU64[u64Idx]?.map (· >>> UInt64.ofNat bitIdx)
  else do
    let x ← xU64[u64Idx]?
    let y ← xU64[1 + u64Idx]?
    return x >>> UInt64.ofNat bitIdx ||| y <<< UInt64.ofNat (64 - bitIdx)

/-- The loop of `non_adjacent_form`, for at most so many rounds. -/
def nafLoop (xU64 : List UInt64) (w : Nat) : Nat → Nat → Nat → List Int → Option (List Int)
  | 0, pos, _, naf               => if pos < 256 then none else some naf
  | rounds + 1, pos, carry, naf =>
    if pos < 256 then do
      let width := 2 ^ w
      let buf ← bitBuf xU64 w pos
      let window := carry + (buf &&& UInt64.ofNat (width - 1)).toNat
      if window &&& 1 = 0 then nafLoop xU64 w rounds (pos + 1) carry naf
      else if window < width / 2 then nafLoop xU64 w rounds (pos + w) 0 (naf.set pos (asI8 window))
      else nafLoop xU64 w rounds (pos + w) 1 (naf.set pos (asI8 (asI8 window - asI8 width)))
    else some naf

def nonAdjacentForm (s : Scalar) (w : Nat) : Option (List Int) := do
  guard (w ≥ 2)
  guard (w ≤ 8)
  nafLoop (s.words ++ [0]) w 256 0 0 (List.replicate 256 0)

/-- An `i8` sum, `none` where it overflows. -/
def i8 (n : Int) : Option Int := if -128 ≤ n ∧ n < 128 then some n else none

def botHalf (x : UInt8) : UInt8 := x >>> 0 &&& 15

def topHalf (x : UInt8) : UInt8 := x >>> 4 &&& 15

/-- The digits from 0 to 15. -/
def nibbles (s : Scalar) : List Int :=
  s.bytes.toList.flatMap fun x => [asI8 (botHalf x).toNat, asI8 (topHalf x).toNat]

/-- The loop that recenters the digits, but not the last; `carry` is what came from the digit below. -/
def recenter : Int → List Int → Option (List Int)
  | _, []               => some []
  | carry, [d]          => do
    let d ← i8 (d + carry)
    return [d]
  | carry, d :: e :: ds => do
    let d ← i8 (d + carry)
    let t ← i8 (d + 8)
    let carry := t / 16
    let d ← i8 (d - carry * 16)
    let rest ← recenter carry (e :: ds)
    return d :: rest

def toRadix16 (s : Scalar) : Option (List Int) := do
  guard (getElem s.bytes 31 last_lt ≤ 127)
  recenter 0 s.nibbles

def toRadix2wSizeHint (w : Nat) : Option Nat :=
  match w with
  | 4 => some (digitsCount 4)
  | 5 => some (digitsCount 5)
  | 6 => some (digitsCount 6)
  | 7 => some (digitsCount 7)
  -- one more for the terminal carry
  | 8 => some (digitsCount 8 + 1)
  | _ => none

def toRadix2w (s : Scalar) (w : Nat) : Option (List Int) := do
  guard (w ≥ 4)
  guard (w ≤ 8)
  if w = 4 then toRadix16 s
  else do
    let (raw, carry) ← recode s.words w (digitsCount w) 0 0
    -- `[0i8; 64]`, the first of them written
    let digits := raw.map asI8 ++ List.replicate (64 - digitsCount w) 0
    match w with
    | 8 => addDigit digits (digitsCount 8) (asI8 carry)
    | _ => addDigit digits (digitsCount w - 1) (asI8 (carry * 2 ^ w : Nat))

/-! ## Windows -/

theorem words_eq (s : Scalar) : s.words = limbs 4 s.val := by
  have hword : ∀ i, UInt64.ofNat (load8 (s.bytes.toList.drop (8 * i))) = UInt64.ofNat (s.val / 2 ^ (64 * i)) := by
    intro i
    have h := Scalar52.word_eq s.bytes.toList i
    rw [Scalar52.word] at h
    rw [h, ← UInt64.toNat_inj, UInt64.toNat_ofNat', UInt64.toNat_ofNat', Nat.mod_mod]
    rfl
  refine List.ext_getElem? (fun i => ?_)
  by_cases hi : i < 4
  · rw [Pairing.limbs_getElem? hi, words, List.getElem?_map, List.getElem?_range hi, Option.map_some, hword]
  · rw [List.getElem?_eq_none, List.getElem?_eq_none]
    · have hlen : ∀ k n : Nat, (limbs k n).length = k := by
        intro k
        induction k with
        | zero   => exact fun _ => rfl
        | succ k ih => exact fun n => congrArg Nat.succ (ih _)
      rw [hlen]
      exact Nat.le_of_not_lt hi
    · rw [words, List.length_map, List.length_range]
      exact Nat.le_of_not_lt hi

theorem val_lt (s : Scalar) : s.val < 2 ^ 256 := Scalar52.leVal_lt_256 s.bytes

/-- The fifth word is zero. -/
theorem words_append (s : Scalar) : s.words ++ [0] = limbs 5 s.val := by
  have htop : s.val / 2 ^ 64 / 2 ^ 64 / 2 ^ 64 / 2 ^ 64 = 0 := by
    have := val_lt s
    omega
  rw [words_eq]
  simp only [limbs, List.cons_append, List.nil_append, htop]
  rfl

/-- **A window is read right wherever it lies**, also from the last word. -/
theorem bitBuf_mask {n w pos : Nat} (hw : 2 ≤ w) (h₈ : w ≤ 8) (hpos : pos < 256) :
    ∃ buf, bitBuf (limbs 5 n) w pos = some buf ∧ (buf &&& UInt64.ofNat (2 ^ w - 1)).toNat = n / 2 ^ pos % 2 ^ w := by
  have hidx : pos / 64 < 5 := by omega
  have ht : pos % 64 < 64 := Nat.mod_lt _ (by decide)
  have hoff : n / 2 ^ pos = n / 2 ^ (64 * (pos / 64)) / 2 ^ (pos % 64) := by
    rw [Nat.div_div_eq_div_mul, ← Nat.pow_add, Nat.div_add_mod]
  unfold bitBuf
  dsimp only
  by_cases hone : pos % 64 < 64 - w
  · rw [if_pos hone, Pairing.limbs_getElem? hidx]
    refine ⟨_, rfl, ?_⟩
    rw [Pairing.toNat_and_mask _ (by omega), Pairing.toNat_shiftRight _ ht, UInt64.toNat_ofNat', hoff]
    exact Pairing.mod_div_mod (by omega)
  · have hnext : n / 2 ^ (64 * (1 + pos / 64)) = n / 2 ^ (64 * (pos / 64)) / 2 ^ 64 := by
      rw [Nat.div_div_eq_div_mul, ← Nat.pow_add]
      congr 2
      omega
    rw [if_neg hone, Pairing.limbs_getElem? hidx, Pairing.limbs_getElem? (by omega : 1 + pos / 64 < 5)]
    refine ⟨_, rfl, ?_⟩
    rw [Pairing.toNat_and_mask _ (by omega), UInt64.toNat_or, Pairing.toNat_shiftRight _ ht,
      Pairing.toNat_shiftLeft _ (by omega), UInt64.toNat_ofNat', UInt64.toNat_ofNat', hnext,
      Pairing.or_mod (by omega) (by omega), hoff]

/-! ## The non-adjacent form -/

/-- A digit is zero, or odd and smaller than `2 ^ (w - 1)`. -/
def NafDigit (w : Nat) (d : Int) : Prop := d = 0 ∨ d % 2 = 1 ∧ -2 ^ (w - 1) < d ∧ d < 2 ^ (w - 1)

/-- **The non-adjacent form** of `n`: of any `w` digits in a row, at most one is not zero. -/
structure Naf (w n : Nat) (naf : List Int) : Prop where
  length : naf.length = 256
  value : digitsVal 1 naf = n
  digit : ∀ i, NafDigit w (naf.getD i 0)
  spaced : ∀ i j, i < j → j < i + w → naf.getD i 0 ≠ 0 → naf.getD j 0 = 0

/-- What the loop has at the bit `pos`: the digits below it are those of the bits below it, but for the carry. -/
structure NafUpTo (w n pos carry : Nat) (naf : List Int) : Prop where
  length : naf.length = 256
  value : digitsVal 1 naf + carry * 2 ^ pos = (n % 2 ^ pos : Nat)
  digit : ∀ i, NafDigit w (naf.getD i 0)
  spaced : ∀ i j, i < j → j < i + w → naf.getD i 0 ≠ 0 → naf.getD j 0 = 0
  reach : ∀ i, naf.getD i 0 ≠ 0 → i + w ≤ pos
  carry_le : carry ≤ 1
  top : 256 ≤ pos → carry = 0

theorem getD_set {l : List Int} {i : Nat} (h : i < l.length) (d : Int) (j : Nat) :
    (l.set i d).getD j 0 = if i = j then d else l.getD j 0 := by
  rw [List.getD_eq_getElem?_getD, List.getD_eq_getElem?_getD, List.getElem?_set]
  by_cases hij : i = j
  · rw [if_pos hij, if_pos hij, if_pos h]
    rfl
  · rw [if_neg hij, if_neg hij]

/-- One digit replaced. -/
theorem digitsVal_set (w : Nat) : ∀ {l : List Int} {i : Nat} (_ : i < l.length) (d : Int),
    digitsVal w (l.set i d) + 2 ^ (w * i) * l.getD i 0 = digitsVal w l + 2 ^ (w * i) * d
  | x :: l, 0, _, d     => by
    rw [List.set_cons_zero, digitsVal, digitsVal, List.getD_cons_zero, Nat.mul_zero, pow_zero]
    ring
  | x :: l, i + 1, h, d => by
    have ih := digitsVal_set w (Nat.lt_of_succ_lt_succ h) d
    rw [List.set_cons_succ, digitsVal, digitsVal, List.getD_cons_succ, Nat.mul_succ, add_comm (w * i), pow_add]
    linear_combination 2 ^ w * ih

theorem mod_two_pow_add (n pos w : Nat) : n % 2 ^ (pos + w) = n % 2 ^ pos + 2 ^ pos * (n / 2 ^ pos % 2 ^ w) := by
  rw [Nat.pow_add, Nat.mod_mul]

theorem NafUpTo.zero (w n : Nat) : NafUpTo w n 0 0 (List.replicate 256 0) := by
  have hget : ∀ i, (List.replicate 256 (0 : Int)).getD i 0 = 0 := by
    intro i
    rw [List.getD_eq_getElem?_getD, List.getElem?_replicate]
    by_cases hi : i < 256
    · rw [if_pos hi]; rfl
    · rw [if_neg hi]; rfl
  have hval : ∀ k : Nat, digitsVal 1 (List.replicate k 0) = 0 := by
    intro k
    induction k with
    | zero      => rfl
    | succ k ih => rw [List.replicate_succ, digitsVal, ih]; rfl
  refine ⟨List.length_replicate, ?_, fun i => Or.inl (hget i), fun i j _ _ h => absurd (hget i) h,
    fun i h => absurd (hget i) h, Nat.zero_le 1, fun _ => rfl⟩
  rw [hval, Nat.pow_zero, Nat.mod_one]
  rfl

/-- **A bit that gives no digit**: its carry goes on. -/
theorem NafUpTo.skip {w n pos carry : Nat} {naf : List Int} (h : NafUpTo w n pos carry naf) (hw : 1 ≤ w) (hn : n < 2 ^ 255)
    (heven : (carry + n / 2 ^ pos % 2 ^ w) % 2 = 0) : NafUpTo w n (pos + 1) carry naf := by
  have hcarry := h.carry_le
  have hbit : n / 2 ^ pos % 2 ^ 1 = carry := by
    have hpow : 2 ∣ 2 ^ w := dvd_pow_self 2 (by omega)
    have hmod : n / 2 ^ pos % 2 ^ w % 2 = n / 2 ^ pos % 2 := Nat.mod_mod_of_dvd _ hpow
    omega
  refine ⟨h.length, ?_, h.digit, h.spaced, fun i hi => Nat.le_succ_of_le (h.reach i hi), hcarry, fun htop => ?_⟩
  · have hval := h.value
    rw [mod_two_pow_add, hbit, Nat.cast_add, ← hval, pow_succ]
    push_cast
    ring
  · by_cases h256 : 256 ≤ pos
    · exact h.top h256
    · have hpos : pos = 255 := by omega
      rw [hpos, Nat.div_eq_of_lt hn] at hbit
      exact hbit.symm

/-- **A bit that gives a digit**, and the `w - 1` bits after it. -/
theorem NafUpTo.emit {w n pos carry carry' : Nat} {naf : List Int} {d : Int} (h : NafUpTo w n pos carry naf)
    (hpos : pos < 256) (hw : 1 ≤ w) (hodd : NafDigit w d) (hd : d + 2 ^ w * carry' = carry + (n / 2 ^ pos % 2 ^ w : Nat))
    (hcarry : carry' ≤ 1) (htop : 256 ≤ pos + w → carry' = 0) : NafUpTo w n (pos + w) carry' (naf.set pos d) := by
  have hlen : pos < naf.length := by rwa [h.length]
  have hget := getD_set hlen d
  have hzero : naf.getD pos 0 = 0 := by
    by_contra hne
    have := h.reach pos hne
    omega
  refine ⟨by rw [List.length_set, h.length], ?_, fun i => ?_, fun i j hij hjw hi => ?_, fun i hi => ?_, hcarry, htop⟩
  · have hset := digitsVal_set 1 hlen d
    have hval := h.value
    rw [hzero, Nat.one_mul] at hset
    rw [mod_two_pow_add, Nat.cast_add, ← hval, Nat.cast_mul, pow_add]
    push_cast at hd ⊢
    linear_combination hset + 2 ^ pos * hd
  · rw [hget]
    by_cases hi : pos = i
    · rwa [if_pos hi]
    · rw [if_neg hi]
      exact h.digit i
  · rw [hget] at hi ⊢
    by_cases hip : pos = i
    · -- nothing is written above the digit
      rw [if_neg (by omega)]
      by_contra hne
      have := h.reach j hne
      omega
    · rw [if_neg hip] at hi
      have hreach := h.reach i hi
      rw [if_neg (by omega)]
      exact h.spaced i j hij hjw hi
  · rw [hget] at hi
    by_cases hip : pos = i
    · omega
    · rw [if_neg hip] at hi
      have := h.reach i hi
      omega

/-- `window as i8`, where the window is small. -/
theorem asI8_window {w window : Nat} (h₈ : w ≤ 8) (h : window < 2 ^ (w - 1)) : asI8 window = window := by
  refine Pairing.asI8_eq h₈ ⟨?_, by exact_mod_cast h⟩
  have hpos : (0 : Int) < 2 ^ (w - 1) := by positivity
  omega

/-- `(window as i8).wrapping_sub(width as i8)`, where it is large. -/
theorem asI8_window_sub {w window : Nat} (hw : 1 ≤ w) (h₈ : w ≤ 8) (hge : 2 ^ (w - 1) ≤ window) (hlt : window < 2 ^ w) :
    asI8 (asI8 window - asI8 (2 ^ w : Nat)) = window - 2 ^ w := by
  have hmod : asI8 (asI8 window - asI8 (2 ^ w : Nat)) = asI8 (window - (2 ^ w : Nat)) := by
    unfold asI8
    rw [Int.sub_bmod_bmod, Int.bmod_sub_bmod]
  have hhalf := Pairing.two_pow_pred hw
  have hge' : (2 ^ (w - 1) : Int) ≤ window := by exact_mod_cast hge
  have hlt' : (window : Int) < 2 ^ w := by exact_mod_cast hlt
  have hhalf' : (2 : Int) ^ w = 2 * 2 ^ (w - 1) := by exact_mod_cast hhalf
  rw [hmod, Nat.cast_pow, Nat.cast_two]
  refine Pairing.asI8_eq h₈ ⟨by omega, by omega⟩

/-- **The loop finds the form** in as many rounds as there are bits left. -/
theorem nafLoop_returns {w n : Nat} (hw : 2 ≤ w) (h₈ : w ≤ 8) (hn : n < 2 ^ 255) :
    ∀ {rounds pos carry : Nat} {naf : List Int}, 256 ≤ pos + rounds → NafUpTo w n pos carry naf →
      Returns (nafLoop (limbs 5 n) w rounds pos carry naf) (Naf w n) := by
  intro rounds
  have hdone : ∀ {pos carry : Nat} {naf : List Int}, 256 ≤ pos → NafUpTo w n pos carry naf → Naf w n naf := by
    intro pos carry naf hpos h
    have hval := h.value
    have hlt : n < 2 ^ pos := Nat.lt_of_lt_of_le hn (Nat.pow_le_pow_right (by decide) (by omega))
    rw [h.top hpos, Nat.mod_eq_of_lt hlt, Nat.cast_zero, zero_mul, add_zero] at hval
    exact ⟨h.length, hval, h.digit, h.spaced⟩
  induction rounds with
  | zero           =>
    intro pos carry naf hpos h
    rw [nafLoop, if_neg (by omega)]
    exact Returns.ret (hdone (by omega) h)
  | succ rounds ih =>
    intro pos carry naf hrounds h
    rw [nafLoop]
    by_cases hpos : pos < 256
    · obtain ⟨buf, hbuf, hmask⟩ := bitBuf_mask (n := n) hw h₈ hpos
      have hcarry := h.carry_le
      have hwin : n / 2 ^ pos % 2 ^ w < 2 ^ w := Nat.mod_lt _ (Nat.two_pow_pos w)
      have hhalf := Pairing.two_pow_pred (w := w) (by omega)
      have hdiv : 2 ^ w / 2 = 2 ^ (w - 1) := by omega
      have heven : 2 ^ (w - 1) % 2 = 0 := Nat.mod_eq_zero_of_dvd (dvd_pow_self 2 (by omega))
      rw [if_pos hpos, hbuf, Option.bind_eq_bind, Option.bind_some]
      dsimp only
      rw [hmask, Nat.and_one_is_mod, hdiv]
      by_cases hzero : (carry + n / 2 ^ pos % 2 ^ w) % 2 = 0
      · rw [if_pos hzero]
        exact ih (by omega) (h.skip (by omega) hn hzero)
      · have hpow : (0 : Int) < 2 ^ (w - 1) := by positivity
        have hhalf' : (2 : Int) ^ w = 2 * 2 ^ (w - 1) := by exact_mod_cast hhalf
        rw [if_neg hzero]
        generalize hwindow : carry + n / 2 ^ pos % 2 ^ w = window at *
        by_cases hsmall : window < 2 ^ (w - 1)
        · have hsmall' : (window : Int) < 2 ^ (w - 1) := by exact_mod_cast hsmall
          rw [if_pos hsmall, asI8_window h₈ hsmall]
          refine ih (by omega) (h.emit hpos (by omega) (Or.inr ⟨by omega, by omega, hsmall'⟩) ?_ (Nat.zero_le 1)
            (fun _ => rfl))
          rw [← hwindow]
          push_cast
          ring
        · have hge : (2 ^ (w - 1) : Int) ≤ window := by exact_mod_cast Nat.le_of_not_lt hsmall
          have hlt : window < 2 ^ w := by omega
          have hlt' : (window : Int) < 2 ^ w := by exact_mod_cast hlt
          have heven' : (2 : Int) ^ (w - 1) % 2 = 0 := by exact_mod_cast heven
          rw [if_neg hsmall, asI8_window_sub (by omega) h₈ (Nat.le_of_not_lt hsmall) hlt]
          refine ih (by omega) (h.emit hpos (by omega) (Or.inr ⟨by omega, by omega, by omega⟩) ?_ (Nat.le_refl 1) ?_)
          · rw [← hwindow]
            push_cast
            ring
          · -- the top bit is zero: the last window is small
            intro htop
            have hbits : n / 2 ^ pos < 2 ^ (w - 1) := by
              refine Nat.div_lt_of_lt_mul ?_
              rw [← Nat.pow_add]
              exact Nat.lt_of_lt_of_le hn (Nat.pow_le_pow_right (by decide) (by omega))
            have hle := Nat.mod_le (n / 2 ^ pos) (2 ^ w)
            omega
    · rw [if_neg hpos]
      exact Returns.ret (hdone (by omega) h)

theorem nonAdjacentForm_returns {s : Scalar} {w : Nat} (hs : s.val < 2 ^ 255) (hw : 2 ≤ w) (h₈ : w ≤ 8) :
    Returns (nonAdjacentForm s w) (Naf w s.val) := by
  unfold nonAdjacentForm
  refine guard_bind hw (guard_bind h₈ ?_)
  rw [words_append]
  exact nafLoop_returns hw h₈ hs (by decide) (NafUpTo.zero w s.val)

/-! ## One digit a place -/

/-- **The digits to the base `2 ^ w`**, none of them larger than half of it, and none above those that `hint` counts. -/
structure Radix (w hint n : Nat) (digits : List Int) : Prop where
  length : digits.length = 64
  value : digitsVal w digits = n
  bounded : ∀ d ∈ digits, -2 ^ (w - 1) ≤ d ∧ d ≤ 2 ^ (w - 1)
  lt_word : ∀ d ∈ digits, d < 128
  above : ∀ i, hint ≤ i → digits.getD i 0 = 0

theorem i8_bind {α : Type} {n : Int} {f : Int → Option α} {Q : α → Prop} (h : -128 ≤ n ∧ n < 128) (hf : Returns (f n) Q) :
    Returns (i8 n >>= f) Q := by
  rw [i8, if_pos h]
  exact hf

/-- What is left of the digits after the carries: the number, and digits between `-8` and `8`. -/
theorem recenter_returns : ∀ {l : List Int} {carry : Int}, l ≠ [] → (∀ d ∈ l, 0 ≤ d ∧ d < 16) →
    (∀ d ∈ l.getLast?, d < 8) → 0 ≤ carry → carry ≤ 1 →
      Returns (recenter carry l) (fun r => r.length = l.length ∧ digitsVal 4 r = digitsVal 4 l + carry ∧
        ∀ d ∈ r, -2 ^ (4 - 1) ≤ d ∧ d ≤ 2 ^ (4 - 1))
  | [], _, hne, _, _, _, _               => absurd rfl hne
  | [d], carry, _, hl, hlast, h0, h1     => by
    have hd := hl d List.mem_cons_self
    have htop := hlast d rfl
    rw [recenter]
    refine i8_bind (by omega) (Returns.ret ⟨rfl, ?_, ?_⟩)
    · simp only [digitsVal]
      ring
    · intro x hx
      rw [List.mem_singleton.1 hx]
      exact ⟨by omega, by omega⟩
  | d :: e :: ds, carry, _, hl, hlast, h0, h1 => by
    have hd := hl d List.mem_cons_self
    have hsplit := Int.emod_add_mul_ediv (d + carry + 8) 16
    have hmod := Int.emod_nonneg (d + carry + 8) (by decide : (16 : Int) ≠ 0)
    have hmod' := Int.emod_lt_of_pos (d + carry + 8) (by decide : (0 : Int) < 16)
    rw [recenter]
    refine i8_bind (by omega) (i8_bind (by omega) (i8_bind (by omega) ?_))
    generalize (d + carry + 8) / 16 = c at *
    refine (recenter_returns (List.cons_ne_nil e ds) (fun x hx => hl x (List.mem_cons_of_mem d hx)) hlast (by omega)
      (by omega)).bind (fun r hr => Returns.ret ⟨?_, ?_, ?_⟩)
    · exact congrArg Nat.succ hr.1
    · have hcons : digitsVal 4 (d :: e :: ds) = d + 2 ^ 4 * digitsVal 4 (e :: ds) := rfl
      rw [digitsVal, hr.2.1, hcons]
      ring
    · intro x hx
      rcases List.mem_cons.1 hx with rfl | hx
      · exact ⟨by omega, by omega⟩
      · exact hr.2.2 x hx

theorem toNat_botHalf (x : UInt8) : (botHalf x).toNat = x.toNat % 16 := by
  have h : (botHalf x).toNat = (x.toNat >>> 0) &&& 15 := by
    rw [botHalf, UInt8.toNat_and, UInt8.toNat_shiftRight]
    rfl
  rw [h, Nat.shiftRight_zero]
  exact Nat.and_two_pow_sub_one_eq_mod x.toNat 4

theorem toNat_topHalf (x : UInt8) : (topHalf x).toNat = x.toNat / 16 := by
  have h : (topHalf x).toNat = (x.toNat >>> 4) &&& 15 := by
    rw [topHalf, UInt8.toNat_and, UInt8.toNat_shiftRight]
    rfl
  have hlt := x.toNat_lt
  have hmod : x.toNat >>> 4 &&& 15 = x.toNat >>> 4 % 2 ^ 4 := Nat.and_two_pow_sub_one_eq_mod _ 4
  rw [h, hmod, Nat.shiftRight_eq_div_pow]
  omega

theorem asI8_nibble {n : Nat} (h : n < 16) : asI8 n = n := Int.bmod_eq_of_le (by omega) (by omega)

/-- The two halves of every byte. -/
theorem nibbles_spec (l : List UInt8) :
    digitsVal 4 (l.flatMap fun x => [asI8 (botHalf x).toNat, asI8 (topHalf x).toNat]) = leVal l ∧
      (l.flatMap fun x => [asI8 (botHalf x).toNat, asI8 (topHalf x).toNat]).length = 2 * l.length ∧
      ∀ d ∈ l.flatMap fun x => [asI8 (botHalf x).toNat, asI8 (topHalf x).toNat], 0 ≤ d ∧ d < 16 := by
  induction l with
  | nil         => exact ⟨rfl, rfl, fun d hd => absurd hd List.not_mem_nil⟩
  | cons x l ih =>
    obtain ⟨hval, hlen, hall⟩ := ih
    have hlt := x.toNat_lt
    have hbot : (botHalf x).toNat < 16 := by rw [toNat_botHalf]; omega
    have htop : (topHalf x).toNat < 16 := by rw [toNat_topHalf]; omega
    rw [List.flatMap_cons, asI8_nibble hbot, asI8_nibble htop]
    refine ⟨?_, ?_, ?_⟩
    · rw [List.cons_append, List.cons_append, List.nil_append, digitsVal, digitsVal, hval, leVal, toNat_botHalf,
        toNat_topHalf]
      push_cast
      omega
    · rw [List.length_append, hlen, List.length_cons, List.length_cons, List.length_nil, List.length_cons]
      omega
    · intro d hd
      rcases List.mem_append.1 hd with hd | hd
      · rcases List.mem_pair.1 hd with rfl | rfl
        · omega
        · omega
      · exact hall d hd

/-- The digits of the last byte are the last. -/
theorem nibbles_getLast (s : Scalar) : s.nibbles.getLast? = some (asI8 (topHalf (getElem s.bytes 31 last_lt)).toNat) := by
  have hlen : s.bytes.toList.length = 32 := Vector.length_toList
  have hlast : s.bytes.toList = s.bytes.toList.take 31 ++ [s.bytes[31]] := by
    have hdrop : s.bytes.toList.drop 31 = [s.bytes[31]] := by
      rw [List.drop_eq_getElem_cons (by omega), Vector.getElem_toList, List.drop_of_length_le (by omega)]
    rw [← hdrop, List.take_append_drop]
  rw [nibbles, hlast, List.flatMap_append, List.getLast?_append]
  rfl

theorem toRadix16_returns {s : Scalar} (hs : s.val < 2 ^ 255) : Returns (toRadix16 s) (Radix 4 64 s.val) := by
  obtain ⟨hval, hlen, hall⟩ := nibbles_spec s.bytes.toList
  have htop : s.bytes[31].toNat < 128 := by
    rw [toNat_top]
    unfold val at hs
    omega
  have hne : s.nibbles ≠ [] := by
    intro h
    have hgl := nibbles_getLast s
    rw [h] at hgl
    exact absurd hgl (Option.some_ne_none _).symm
  unfold toRadix16
  refine guard_bind (UInt8.le_iff_toNat_le.2 (Nat.le_of_lt_succ htop)) ?_
  refine (recenter_returns hne hall ?_ (by decide) (by decide)).mono (fun r hr => ?_)
  · intro d hd
    rw [nibbles_getLast, Option.mem_some_iff] at hd
    rw [← hd, toNat_topHalf, asI8_nibble (by omega)]
    omega
  · have h64 : r.length = 64 := by
      rw [hr.1, nibbles, hlen, Vector.length_toList]
    refine ⟨h64, ?_, hr.2.2, fun d hd => Int.lt_of_le_of_lt (hr.2.2 d hd).2 (by decide), fun i hi => ?_⟩
    · rw [hr.2.1, add_zero]
      exact hval
    · rw [List.getD_eq_getElem?_getD, List.getElem?_eq_none (h64 ▸ hi)]
      rfl

theorem getD_append_replicate (l : List Int) (k i : Nat) : (l ++ List.replicate k 0).getD i 0 = l.getD i 0 := by
  rw [List.getD_eq_getElem?_getD, List.getD_eq_getElem?_getD, List.getElem?_append]
  by_cases hi : i < l.length
  · rw [if_pos hi]
  · rw [if_neg hi, List.getElem?_eq_none (Nat.le_of_not_lt hi), List.getElem?_replicate]
    by_cases hk : i - l.length < k
    · rw [if_pos hk]; rfl
    · rw [if_neg hk]

theorem digitsVal_append_replicate (w : Nat) (l : List Int) (k : Nat) :
    digitsVal w (l ++ List.replicate k 0) = digitsVal w l := by
  have hn : l.length ≤ (l ++ List.replicate k (0 : Int)).length := by
    rw [List.length_append]
    exact Nat.le_add_right _ _
  rw [digitsVal_eq_sum w (Nat.le_refl _), digitsVal_eq_sum w hn]
  exact Finset.sum_congr rfl (fun j _ => by rw [getD_append_replicate])

theorem lt_digitsVal {w : Nat} (hw : 1 ≤ w) : ∀ {l : List Int}, (∀ d ∈ l, Pairing.Centered w d) →
    -2 ^ (w * l.length) < digitsVal w l
  | [], _     => by
    rw [digitsVal, List.length_nil, Nat.mul_zero, pow_zero]
    decide
  | d :: l, h => by
    have ih := lt_digitsVal hw (fun x hx => h x (List.mem_cons_of_mem d hx))
    have hd := (h d List.mem_cons_self).1
    have hhalf : (2 : Int) ^ w = 2 * 2 ^ (w - 1) := by exact_mod_cast Pairing.two_pow_pred hw
    have hpos : (0 : Int) < 2 ^ (w - 1) := by positivity
    have hmul : 2 ^ w * (-2 ^ (w * l.length) + 1) ≤ 2 ^ w * digitsVal w l :=
      mul_le_mul_of_nonneg_left (Int.add_one_le_of_lt ih) (by positivity)
    have hpow : (2 : Int) ^ (w * (l.length + 1)) = 2 ^ w * 2 ^ (w * l.length) := by rw [Nat.mul_succ, add_comm, pow_add]
    rw [digitsVal, List.length_cons, hpow]
    linarith

/-- **The windows of a scalar** of 255 bits, from five to eight bits wide, and the carry out of the last. -/
theorem recode_words {s : Scalar} (hs : s.val < 2 ^ 255) {w : Nat} (hw : 5 ≤ w) (h₈ : w ≤ 8) :
    ∃ raw last, recode s.words w (digitsCount w) 0 0 = some (raw, last) ∧ raw.length = digitsCount w ∧
      (∀ d ∈ raw, Pairing.Centered w d) ∧ digitsVal w raw + 2 ^ (w * digitsCount w) * last = s.val ∧ last ≤ 1 ∧
      (w ≠ 8 → last = 0) := by
  have hbounds : 1 ≤ digitsCount w ∧ (0 + digitsCount w - 1) * w < 256 ∧ 256 ≤ w * digitsCount w ∧ (w ≠ 8 →
      2 ^ 255 / 2 ^ (w * (digitsCount w - 1)) + 1 < 2 ^ (w - 1)) := by
    obtain rfl | rfl | rfl | rfl : w = 5 ∨ w = 6 ∨ w = 7 ∨ w = 8 := by omega
    · decide
    · decide
    · decide
    · decide
  obtain ⟨hone, hin, hall, htop⟩ := hbounds
  obtain ⟨raw, last, hrec, hraw⟩ := Pairing.recode_spec (by omega) h₈ (val_lt s) (digitsCount w) 0 0 (by decide) (.inr hin)
  rw [Nat.mul_zero, Nat.pow_zero, Nat.div_one] at hraw
  have hlt : s.val < 2 ^ (w * digitsCount w) :=
    Nat.lt_of_lt_of_le (val_lt s) (Nat.pow_le_pow_right (by decide) hall)
  have hval := hraw.value
  rw [Nat.mod_eq_of_lt hlt, Nat.cast_zero, zero_add] at hval
  refine ⟨raw, last, words_eq s ▸ hrec, hraw.length, hraw.centered, hval, ?_, fun hw8 => ?_⟩
  · have hlow := lt_digitsVal (by omega) hraw.centered
    rw [hraw.length] at hlow
    have hup : (s.val : Int) < 2 ^ (w * digitsCount w) := by exact_mod_cast hlt
    have hpos : (0 : Int) < 2 ^ (w * digitsCount w) := by positivity
    by_contra hgt
    have htwo : (2 : Int) ≤ last := by exact_mod_cast Nat.lt_of_not_le hgt
    have hmul := mul_le_mul_of_nonneg_left htwo hpos.le
    linarith
  · refine hraw.top hone (Nat.lt_of_le_of_lt ?_ (htop hw8))
    exact Nat.add_le_add_right (Nat.div_le_div_right hs.le) 1

theorem addDigit_eq {digits : List Int} {i : Nat} (hi : i < digits.length) {d : Int} (hzero : digits.getD i 0 = 0)
    (hd : -128 ≤ d ∧ d < 128) : addDigit digits i d = some (digits.set i d) := by
  rw [List.getD_eq_getElem?_getD, List.getElem?_eq_getElem hi, Option.getD_some] at hzero
  rw [addDigit, List.getElem?_eq_getElem hi, hzero]
  simp only [zero_add]
  rw [if_pos hd]

/-- **Any scalar of 255 bits**, at any width. -/
theorem toRadix2w_returns {s : Scalar} (hs : s.val < 2 ^ 255) {w : Nat} (hw : 4 ≤ w) (h₈ : w ≤ 8) :
    ∃ hint, toRadix2wSizeHint w = some hint ∧ hint ≤ 64 ∧ Returns (toRadix2w s w) (Radix w hint s.val) := by
  by_cases h4 : w = 4
  · subst h4
    refine ⟨64, rfl, Nat.le_refl 64, ?_⟩
    unfold toRadix2w
    refine guard_bind (by decide) (guard_bind (by decide) ?_)
    rw [if_pos rfl]
    exact toRadix16_returns hs
  · obtain ⟨raw, last, hrec, hlen, hcentered, hval, hlast, hlast8⟩ := recode_words hs (w := w) (by omega) h₈
    have hmap : raw.map asI8 = raw := by
      conv_rhs => rw [← List.map_id raw]
      exact List.map_congr_left (fun d hd => Pairing.asI8_eq h₈ (hcentered d hd))
    have hcount : digitsCount w ≤ 52 ∧ 1 ≤ digitsCount w := by
      obtain rfl | rfl | rfl | rfl : w = 5 ∨ w = 6 ∨ w = 7 ∨ w = 8 := by omega
      · decide
      · decide
      · decide
      · decide
    generalize hdigits : raw ++ List.replicate (64 - digitsCount w) (0 : Int) = digits
    have hlength : digits.length = 64 := by
      rw [← hdigits, List.length_append, List.length_replicate, hlen]
      omega
    have hget : ∀ i, digits.getD i 0 = raw.getD i 0 := fun i => by rw [← hdigits, getD_append_replicate]
    have habove : ∀ i, digitsCount w ≤ i → digits.getD i 0 = 0 := by
      intro i hi
      rw [hget, List.getD_eq_getElem?_getD, List.getElem?_eq_none (hlen ▸ hi)]
      rfl
    have hdval : digitsVal w digits = digitsVal w raw := by rw [← hdigits, digitsVal_append_replicate]
    have hall : ∀ d ∈ digits, Pairing.Centered w d := by
      intro d hd
      rw [← hdigits] at hd
      rcases List.mem_append.1 hd with hd | hd
      · exact hcentered d hd
      · rw [List.eq_of_mem_replicate hd]
        exact ⟨by simp, by positivity⟩
    have hbounded : ∀ d ∈ digits, -2 ^ (w - 1) ≤ d ∧ d ≤ 2 ^ (w - 1) := fun d hd => ⟨(hall d hd).1, (hall d hd).2.le⟩
    have hword : ∀ d ∈ digits, d < 128 := fun d hd => by
      have hpow : (2 : Int) ^ (w - 1) ≤ 2 ^ (8 - 1) := pow_le_pow_right₀ (by decide) (Nat.sub_le_sub_right h₈ 1)
      exact Int.lt_of_lt_of_le (hall d hd).2 hpow
    unfold toRadix2w
    rw [if_neg h4, hrec]
    simp only [Option.bind_eq_bind, Option.bind_some, hmap, hdigits]
    by_cases h8 : w = 8
    · subst h8
      have hlasti : asI8 (last : Int) = last := Int.bmod_eq_of_le (by omega) (by omega)
      refine ⟨33, rfl, by decide, guard_bind (by decide) (guard_bind (by decide) ?_)⟩
      have h32 : digitsCount 8 < digits.length := by
        rw [hlength]
        decide
      simp only [hlasti]
      rw [addDigit_eq h32 (habove _ (Nat.le_refl _)) ⟨by omega, by omega⟩]
      refine ⟨_, rfl, by rw [List.length_set, hlength], ?_, ?_, ?_, fun i hi => ?_⟩
      · have hset := digitsVal_set 8 h32 (last : Int)
        rw [habove _ (Nat.le_refl _), mul_zero, add_zero] at hset
        rw [hset, hdval, hval]
      · intro d hd
        rcases List.mem_or_eq_of_mem_set hd with hd | rfl
        · exact hbounded d hd
        · exact ⟨by omega, by omega⟩
      · intro d hd
        rcases List.mem_or_eq_of_mem_set hd with hd | rfl
        · exact hword d hd
        · omega
      · have h33 : digitsCount 8 < i := hi
        rw [getD_set h32, if_neg h33.ne]
        exact habove i h33.le
    · have hzero : last = 0 := hlast8 h8
      subst hzero
      have hadd := Pairing.addDigit_zero h₈ (i := digitsCount w - 1) (by omega) hall
      have hi8 : asI8 ((0 * 2 ^ w : Nat) : Int) = 0 := by rw [Nat.zero_mul]; rfl
      have hradix : Radix w (digitsCount w) s.val digits := by
        refine ⟨hlength, ?_, hbounded, hword, habove⟩
        rw [hdval, ← hval, Nat.cast_zero, mul_zero, add_zero]
      obtain rfl | rfl | rfl : w = 5 ∨ w = 6 ∨ w = 7 := by omega
      · refine ⟨_, rfl, by decide, guard_bind (by decide) (guard_bind (by decide) ?_)⟩
        simp only [hi8]
        exact ⟨digits, hadd, hradix⟩
      · refine ⟨_, rfl, by decide, guard_bind (by decide) (guard_bind (by decide) ?_)⟩
        simp only [hi8]
        exact ⟨digits, hadd, hradix⟩
      · refine ⟨_, rfl, by decide, guard_bind (by decide) (guard_bind (by decide) ?_)⟩
        simp only [hi8]
        exact ⟨digits, hadd, hradix⟩

end Scalar
end Curve25519
end Dpid
