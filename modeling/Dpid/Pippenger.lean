import Dpid.Buckets
import Dpid.FrRepr
import Mathlib.Tactic.LinearCombination
import Mathlib.Tactic.Positivity
/-!
# Pippenger — the multi-scalar product of `pairing/src/lib.rs`

A scalar is recoded into digits between `-2 ^ (w - 1)` and `2 ^ (w - 1)`, kept as `i8`; each place of all scalars is summed
by buckets, and the places from the highest down.  `none` is a panic: an index out of bounds, or an `i8` sum that
overflows.
-/
namespace Dpid
namespace Pairing

open Buckets

/-! ## The recoding -/

/-- `n as i8`. -/
def asI8 (n : Int) : Int := n.bmod 256

/-- `digits[i] += d`. -/
def addDigit (digits : List Int) (i : Nat) (d : Int) : Option (List Int) :=
  match digits[i]? with
  | none   => none
  | some x => if -128 ≤ x + d ∧ x + d < 128 then some (digits.set i (x + d)) else none

/-- `(256 + w - 1) / w`, the digits that the loop of `to_radix_2w` writes. -/
def digitsCount (w : Nat) : Nat := (256 + w - 1) / w

def toRadix2wSizeHint (w : Nat) : Option Nat :=
  match w with
  | 6 => some (digitsCount 6)
  | 7 => some (digitsCount 7)
  -- one more for the terminal carry
  | 8 => some (digitsCount 8 + 1)
  | _ => none

/-- `bit_buf` of the window `i`. -/
def bitBuf (scalar64x4 : List UInt64) (w i : Nat) : Option UInt64 :=
  let bitOffset := i * w
  let u64Idx := bitOffset / 64
  let bitIdx := bitOffset % 64
  if bitIdx < 64 - w ∨ u64Idx = 3 then scalar64x4[u64Idx]?.map (· >>> UInt64.ofNat bitIdx)
  else do
    let s ← scalar64x4[u64Idx]?
    let t ← scalar64x4[1 + u64Idx]?
    return s >>> UInt64.ofNat bitIdx ||| t <<< UInt64.ofNat (64 - bitIdx)

/-- The loop of `to_radix_2w` over `n` windows from `i` on: the digits before they become `i8`, and the last carry. -/
def recode (scalar64x4 : List UInt64) (w : Nat) : Nat → Nat → Nat → Option (List Int × Nat)
  | 0, _, carry     => some ([], carry)
  | n + 1, i, carry => do
    let radix := 2 ^ w
    let buf ← bitBuf scalar64x4 w i
    let coef := carry + (buf &&& UInt64.ofNat (radix - 1)).toNat
    let carry := (coef + radix / 2) / 2 ^ w
    let (digits, last) ← recode scalar64x4 w n (i + 1) carry
    return ((coef - carry * 2 ^ w : Int) :: digits, last)

def toRadix2w (scalar : FrField) (w : Nat) : Option (List Int) := do
  let (raw, carry) ← recode (intoRepr scalar) w (digitsCount w) 0 0
  -- `[0i8; 43]`, the first of them written
  let digits := raw.map asI8 ++ List.replicate (43 - digitsCount w) 0
  match w with
  | 8 => addDigit digits (digitsCount 8) (asI8 carry)
  | _ => addDigit digits (digitsCount w - 1) (asI8 (carry * 2 ^ w : Nat))

/-! ## The product -/

section

variable {G : Type} [AddCommGroup G]

/-- The loop over `scalars_points`: one point into its bucket. -/
def addToBucket (digitIndex : Nat) (buckets : List G) (sp : List Int × G) : Option (List G) := do
  let digit ← sp.1[digitIndex]?
  if 0 < digit then
    let b := (digit - 1).toNat
    let x ← buckets[b]?
    return buckets.set b (x + sp.2)
  else if digit < 0 then
    let b := (-digit - 1).toNat
    let x ← buckets[b]?
    return buckets.set b (x - sp.2)
  else some buckets

/-- `buckets_sum`, by the two running sums. -/
def bucketsSum (buckets : List G) : Option G :=
  match buckets.reverse with
  | []           => none
  | last :: rest =>
    some (rest.foldl (fun s x => (s.1 + x, s.2 + (s.1 + x))) (last, last)).2

/-- The column at `digit_index`. -/
def column (scalarsPoints : List (List Int × G)) (bucketsCount digitIndex : Nat) : Option G := do
  let buckets ← scalarsPoints.foldlM (addToBucket digitIndex) (List.replicate bucketsCount 0)
  bucketsSum buckets

def mulByPow2 (point : G) (k : Nat) : G :=
  let s := (fun s => s + s)^[k - 1] point
  s + s

/-- The width of the digits. -/
def digitWidth (size : Nat) : Nat := if size < 500 then 6 else if size < 800 then 7 else 8

def pippenger (points : List G) (scalars : List FrField) : Option G := do
  let w := digitWidth scalars.length
  let digitsCount ← toRadix2wSizeHint w
  let bucketsCount := 2 ^ w / 2
  let digits ← scalars.mapM (toRadix2w · w)
  let scalarsPoints := digits.zip points
  let columns ← (List.range digitsCount).reverse.mapM (column scalarsPoints bucketsCount)
  match columns with
  | []               => none
  | hiColumn :: rest => some (rest.foldl (fun total p => mulByPow2 total w + p) hiColumn)

end

/-! ## The windows -/

theorem limbs_getElem? : ∀ {k i : Nat}, i < k → ∀ n : Nat, (limbs k n)[i]? = some (UInt64.ofNat (n / 2 ^ (64 * i)))
  | k + 1, 0, _, n     => by rw [limbs, List.getElem?_cons_zero, Nat.mul_zero, Nat.pow_zero, Nat.div_one]
  | k + 1, i + 1, h, n => by
    rw [limbs, List.getElem?_cons_succ, limbs_getElem? (Nat.lt_of_succ_lt_succ h), Nat.div_div_eq_div_mul, ← Nat.pow_add,
      Nat.mul_succ, Nat.add_comm 64]

theorem toNat_shiftRight (a : UInt64) {t : Nat} (ht : t < 64) : (a >>> UInt64.ofNat t).toNat = a.toNat / 2 ^ t := by
  rw [UInt64.toNat_shiftRight, UInt64.toNat_ofNat', Nat.shiftRight_eq_div_pow]
  congr 2
  omega

theorem toNat_shiftLeft (a : UInt64) {t : Nat} (ht : t < 64) : (a <<< UInt64.ofNat t).toNat = a.toNat * 2 ^ t % 2 ^ 64 := by
  have hmod : (UInt64.ofNat t).toNat % 64 = t := by
    rw [UInt64.toNat_ofNat']
    omega
  rw [UInt64.toNat_shiftLeft, hmod, Nat.shiftLeft_eq]

theorem toNat_and_mask (a : UInt64) {w : Nat} (hw : w < 64) : (a &&& UInt64.ofNat (2 ^ w - 1)).toNat = a.toNat % 2 ^ w := by
  have hmask : (UInt64.ofNat (2 ^ w - 1)).toNat = 2 ^ w - 1 := by
    rw [UInt64.toNat_ofNat']
    exact Nat.mod_eq_of_lt (Nat.lt_of_le_of_lt (Nat.sub_le _ _) (Nat.pow_lt_pow_right (by decide) hw))
  rw [UInt64.toNat_and, hmask, Nat.and_two_pow_sub_one_eq_mod]

theorem mod_div_mod {A t w : Nat} (h : t + w ≤ 64) : A % 2 ^ 64 / 2 ^ t % 2 ^ w = A / 2 ^ t % 2 ^ w := by
  have hpow : 2 ^ 64 = 2 ^ t * 2 ^ (64 - t) := by rw [← Nat.pow_add]; congr 1; omega
  rw [hpow, Nat.mod_mul_right_div_self, Nat.mod_mod_of_dvd _ (Nat.pow_dvd_pow 2 (by omega))]

theorem or_mod {A t w : Nat} (ht : t ≤ 64) (hw : w ≤ 64) :
    (A % 2 ^ 64 / 2 ^ t ||| A / 2 ^ 64 % 2 ^ 64 * 2 ^ (64 - t) % 2 ^ 64) % 2 ^ w = A / 2 ^ t % 2 ^ w := by
  have hpow : 2 ^ 64 = 2 ^ t * 2 ^ (64 - t) := by rw [← Nat.pow_add]; congr 1; omega
  have hlow : A % 2 ^ 64 / 2 ^ t < 2 ^ (64 - t) := by
    rw [Nat.div_lt_iff_lt_mul (Nat.two_pow_pos t), Nat.mul_comm, ← hpow]
    exact Nat.mod_lt A (Nat.two_pow_pos 64)
  have hhigh : A / 2 ^ 64 % 2 ^ 64 * 2 ^ (64 - t) % 2 ^ 64 = A / 2 ^ 64 % 2 ^ t * 2 ^ (64 - t) := by
    have hdvd : 2 ^ t ∣ 2 ^ 64 := Nat.pow_dvd_pow 2 ht
    calc A / 2 ^ 64 % 2 ^ 64 * 2 ^ (64 - t) % 2 ^ 64
      _ = A / 2 ^ 64 % 2 ^ 64 * 2 ^ (64 - t) % (2 ^ t * 2 ^ (64 - t)) := by rw [← hpow]
      _ = A / 2 ^ 64 % 2 ^ t * 2 ^ (64 - t) := by rw [Nat.mul_mod_mul_right, Nat.mod_mod_of_dvd _ hdvd]
  have hor : A % 2 ^ 64 / 2 ^ t ||| A / 2 ^ 64 % 2 ^ t * 2 ^ (64 - t) =
      A / 2 ^ 64 % 2 ^ t * 2 ^ (64 - t) + A % 2 ^ 64 / 2 ^ t := by
    rw [Nat.or_comm, ← Nat.shiftLeft_eq, ← Nat.shiftLeft_add_eq_or_of_lt hlow]
  have hdiv : A / 2 ^ t = A / 2 ^ 64 * 2 ^ (64 - t) + A % 2 ^ 64 / 2 ^ t := by
    have hsplit : A = A % 2 ^ 64 + 2 ^ t * (A / 2 ^ 64 * 2 ^ (64 - t)) := by
      rw [Nat.mul_left_comm, ← hpow, Nat.mul_comm, Nat.mod_add_div]
    conv_lhs => rw [hsplit, Nat.add_mul_div_left _ _ (Nat.two_pow_pos t), Nat.add_comm]
  have hmul : A / 2 ^ 64 % 2 ^ t * 2 ^ (64 - t) = A / 2 ^ 64 * 2 ^ (64 - t) % 2 ^ 64 := by
    calc A / 2 ^ 64 % 2 ^ t * 2 ^ (64 - t)
      _ = A / 2 ^ 64 * 2 ^ (64 - t) % (2 ^ t * 2 ^ (64 - t)) := (Nat.mul_mod_mul_right _ _ _).symm
      _ = A / 2 ^ 64 * 2 ^ (64 - t) % 2 ^ 64 := by rw [← hpow]
  rw [hhigh, hor, hdiv, hmul, Nat.add_mod, Nat.mod_mod_of_dvd _ (Nat.pow_dvd_pow 2 hw), ← Nat.add_mod]

/-- **A window is read right wherever it lies**, also across two limbs. -/
theorem bitBuf_mask {n w i : Nat} (h₁ : 1 ≤ w) (h₈ : w ≤ 8) (hn : n < 2 ^ 256) (hi : i * w < 256) :
    ∃ buf, bitBuf (limbs 4 n) w i = some buf ∧
      (buf &&& UInt64.ofNat (2 ^ w - 1)).toNat = n / 2 ^ (w * i) % 2 ^ w := by
  have hidx : i * w / 64 < 4 := by omega
  have ht : i * w % 64 < 64 := Nat.mod_lt _ (by decide)
  have hoff : n / 2 ^ (w * i) = n / 2 ^ (64 * (i * w / 64)) / 2 ^ (i * w % 64) := by
    rw [Nat.div_div_eq_div_mul, ← Nat.pow_add, Nat.mul_comm w, Nat.div_add_mod]
  unfold bitBuf
  simp only
  split_ifs with hone
  · rw [limbs_getElem? hidx]
    refine ⟨_, rfl, ?_⟩
    rw [toNat_and_mask _ (by omega), toNat_shiftRight _ ht, UInt64.toNat_ofNat', hoff]
    rcases hone with hone | hone
    · exact mod_div_mod (by omega)
    · -- the last limb has no bits above it
      have hlast : n / 2 ^ (64 * (i * w / 64)) < 2 ^ 64 := by
        rw [hone]
        exact Nat.div_lt_of_lt_mul (by rw [← Nat.pow_add]; exact hn)
      rw [Nat.mod_eq_of_lt hlast]
  · rw [not_or, Nat.not_lt] at hone
    have hnext : n / 2 ^ (64 * (1 + i * w / 64)) = n / 2 ^ (64 * (i * w / 64)) / 2 ^ 64 := by
      rw [Nat.div_div_eq_div_mul, ← Nat.pow_add]
      congr 2
      omega
    rw [limbs_getElem? hidx, limbs_getElem? (by omega : 1 + i * w / 64 < 4)]
    refine ⟨_, rfl, ?_⟩
    rw [toNat_and_mask _ (by omega), UInt64.toNat_or, toNat_shiftRight _ ht, toNat_shiftLeft _ (by omega),
      UInt64.toNat_ofNat', UInt64.toNat_ofNat', hnext, or_mod (by omega) (by omega), hoff]

/-! ## The digits -/

/-- The digits are between `-2 ^ (w - 1)` and `2 ^ (w - 1)`. -/
def Centered (w : Nat) (d : Int) : Prop := -2 ^ (w - 1) ≤ d ∧ d < 2 ^ (w - 1)

/-- What the loop has from the window `i` on: with its carries, the number above that window. -/
structure Recoded (w v n carry : Nat) (digits : List Int) (last : Nat) : Prop where
  length : digits.length = n
  centered : ∀ d ∈ digits, Centered w d
  value : digitsVal w digits + 2 ^ (w * n) * last = carry + (v % 2 ^ (w * n) : Nat)
  top : 1 ≤ n → v / 2 ^ (w * (n - 1)) + 1 < 2 ^ (w - 1) → last = 0

theorem two_pow_pred {w : Nat} (h₁ : 1 ≤ w) : 2 ^ w = 2 * 2 ^ (w - 1) := by
  rw [← Nat.pow_succ', Nat.succ_eq_add_one, Nat.sub_add_cancel h₁]

/-- **The loop recodes**: digit and carry of one window, then the windows above it. -/
theorem recode_spec {N w : Nat} (h₁ : 1 ≤ w) (h₈ : w ≤ 8) (hN : N < 2 ^ 256) : ∀ (n i carry : Nat), carry ≤ 1 →
    (n = 0 ∨ (i + n - 1) * w < 256) →
      ∃ digits last, recode (limbs 4 N) w n i carry = some (digits, last) ∧
        Recoded w (N / 2 ^ (w * i)) n carry digits last
  | 0, i, carry, hc, _     => by
    refine ⟨[], carry, rfl, rfl, by simp, ?_, fun h => absurd h (by decide)⟩
    simp [digitsVal, Nat.mod_one]
  | n + 1, i, carry, hc, hi => by
    have hlast : (i + n) * w < 256 := by simpa using hi
    have hin : i * w < 256 := Nat.lt_of_le_of_lt (Nat.mul_le_mul_right w (Nat.le_add_right i n)) hlast
    obtain ⟨buf, hbuf, hmask⟩ := bitBuf_mask h₁ h₈ hN hin
    have hhalf := two_pow_pred h₁
    have hpos := Nat.two_pow_pos (w - 1)
    have hwin := Nat.mod_lt (N / 2 ^ (w * i)) (Nat.two_pow_pos w)
    have hdivmod := Nat.div_add_mod (N / 2 ^ (w * i)) (2 ^ w)
    have hnext : N / 2 ^ (w * (i + 1)) = N / 2 ^ (w * i) / 2 ^ w := by
      rw [Nat.div_div_eq_div_mul, ← Nat.pow_add, Nat.mul_succ]
    generalize hcoef : carry + N / 2 ^ (w * i) % 2 ^ w = coef
    have hdiv : 2 ^ w / 2 = 2 ^ (w - 1) := by omega
    generalize hcarry : (coef + 2 ^ w / 2) / 2 ^ w = carry'
    have hcases : coef < 2 ^ (w - 1) ∧ carry' = 0 ∨ 2 ^ (w - 1) ≤ coef ∧ carry' = 1 := by
      rw [hdiv] at hcarry
      rcases Nat.lt_or_ge coef (2 ^ (w - 1)) with hlt | hge
      · exact .inl ⟨hlt, by rw [← hcarry, Nat.div_eq_of_lt (by omega)]⟩
      · refine .inr ⟨hge, ?_⟩
        rw [← hcarry]
        exact Nat.div_eq_of_lt_le (by omega) (by omega)
    obtain ⟨digits, last, hrec, hrest⟩ := recode_spec h₁ h₈ hN n (i + 1) carry' (by omega) (by
      rcases Nat.eq_zero_or_pos n with hn | hn
      · exact .inl hn
      · exact .inr (by rw [show i + 1 + n - 1 = i + n by omega]; exact hlast))
    rw [hnext] at hrest
    refine ⟨((coef - carry' * 2 ^ w : Int)) :: digits, last, ?_, ?_, ?_, ?_, ?_⟩
    · simp only [recode, hbuf, hmask, hcoef, hcarry, hrec, Option.bind_eq_bind, Option.bind_some, Option.pure_def]
    · rw [List.length_cons, hrest.length]
    · intro d hd
      rcases List.mem_cons.1 hd with rfl | hd
      · have hcast : (2 : Int) ^ w = 2 * 2 ^ (w - 1) := by exact_mod_cast hhalf
        have hcoefle : coef ≤ 2 * 2 ^ (w - 1) := by omega
        have hcoefle' : (coef : Int) ≤ 2 * 2 ^ (w - 1) := by exact_mod_cast hcoefle
        unfold Centered
        rw [hcast]
        rcases hcases with ⟨hlt, rfl⟩ | ⟨hge, rfl⟩
        · have hlt' : (coef : Int) < 2 ^ (w - 1) := by exact_mod_cast hlt
          have hpos' : (0 : Int) < 2 ^ (w - 1) := by positivity
          constructor <;> push_cast <;> omega
        · have hge' : (2 ^ (w - 1) : Int) ≤ coef := by exact_mod_cast hge
          have hpos' : (0 : Int) < 2 ^ (w - 1) := by positivity
          constructor <;> push_cast <;> omega
      · exact hrest.centered d hd
    · have hval := hrest.value
      have hsplit : N / 2 ^ (w * i) % 2 ^ (w * (n + 1)) =
          N / 2 ^ (w * i) % 2 ^ w + 2 ^ w * (N / 2 ^ (w * i) / 2 ^ w % 2 ^ (w * n)) := by
        rw [Nat.mul_succ, Nat.add_comm, Nat.pow_add, Nat.mod_mul]
      have hpow : (2 : Int) ^ (w * (n + 1)) = 2 ^ w * 2 ^ (w * n) := by rw [Nat.mul_succ, add_comm, pow_add]
      rw [digitsVal, hsplit, hpow, ← hcoef]
      push_cast at hval ⊢
      linear_combination (2 : Int) ^ w * hval
    · intro _ htop
      rw [Nat.add_sub_cancel] at htop
      rcases Nat.eq_zero_or_pos n with rfl | hn
      · -- the window is the last, and its carry the terminal one
        have hnil := List.eq_nil_of_length_eq_zero hrest.length
        have hval := hrest.value
        rw [hnil, digitsVal, Nat.mul_zero, Nat.pow_zero, Nat.mod_one] at hval
        rw [Nat.mul_zero, Nat.pow_zero, Nat.div_one] at htop
        have := Nat.mod_le (N / 2 ^ (w * i)) (2 ^ w)
        omega
      · refine hrest.top hn ?_
        rw [Nat.div_div_eq_div_mul, ← Nat.pow_add, show w + w * (n - 1) = w * n by
          obtain ⟨m, rfl⟩ := Nat.exists_eq_succ_of_ne_zero hn.ne'
          rw [Nat.succ_sub_one, Nat.mul_succ, Nat.add_comm]]
        exact htop

theorem asI8_eq {w : Nat} (h₈ : w ≤ 8) {d : Int} (hd : Centered w d) : asI8 d = d := by
  have hle : (2 : Int) ^ (w - 1) ≤ 2 ^ 7 := pow_le_pow_right₀ (by decide) (by omega)
  obtain ⟨hlo, hhi⟩ := hd
  exact Int.bmod_eq_of_le (by omega) (by omega)

theorem addDigit_zero {w i : Nat} (h₈ : w ≤ 8) {digits : List Int} (hi : i < digits.length)
    (hd : ∀ d ∈ digits, Centered w d) : addDigit digits i 0 = some digits := by
  have hle : (2 : Int) ^ (w - 1) ≤ 2 ^ 7 := pow_le_pow_right₀ (by decide) (by omega)
  obtain ⟨hlo, hhi⟩ := hd _ (List.getElem_mem hi)
  rw [addDigit, List.getElem?_eq_getElem hi]
  simp only [add_zero]
  rw [if_pos ⟨by omega, by omega⟩, List.set_getElem_self]

theorem digitWidth_cases (size : Nat) : digitWidth size = 6 ∨ digitWidth size = 7 ∨ digitWidth size = 8 := by
  unfold digitWidth
  split_ifs <;> simp

theorem frModulus_lt_256 : frModulus < 2 ^ 256 := by decide

/-- **A scalar of `Fr` leaves no terminal carry**, at any of the widths. -/
theorem recode_intoRepr {w : Nat} (hw : w = 6 ∨ w = 7 ∨ w = 8) (x : FrField) :
    ∃ raw, recode (intoRepr x) w (digitsCount w) 0 0 = some (raw, 0) ∧ raw.length = digitsCount w ∧
      (∀ d ∈ raw, Centered w d) ∧ digitsVal w raw = x.val := by
  have hx := ZMod.val_lt x
  have hbounds : 1 ≤ w ∧ w ≤ 8 ∧ 1 ≤ digitsCount w ∧ (0 + digitsCount w - 1) * w < 256 ∧ 256 ≤ w * digitsCount w ∧
      frModulus / 2 ^ (w * (digitsCount w - 1)) + 1 < 2 ^ (w - 1) := by
    rcases hw with rfl | rfl | rfl <;> decide
  obtain ⟨h₁, h₈, hone, hin, hall, htop⟩ := hbounds
  obtain ⟨raw, last, hrec, hraw⟩ := recode_spec h₁ h₈ (Nat.lt_trans hx frModulus_lt_256) (digitsCount w) 0 0 (by decide)
    (.inr hin)
  rw [Nat.mul_zero, Nat.pow_zero, Nat.div_one] at hraw
  have hle : x.val / 2 ^ (w * (digitsCount w - 1)) ≤ frModulus / 2 ^ (w * (digitsCount w - 1)) :=
    Nat.div_le_div_right (Nat.le_of_lt hx)
  have hlast : last = 0 := hraw.top hone (Nat.lt_of_le_of_lt (Nat.add_le_add_right hle 1) htop)
  have hval := hraw.value
  have hlt : x.val < 2 ^ (w * digitsCount w) :=
    Nat.lt_of_lt_of_le (Nat.lt_trans hx frModulus_lt_256) (Nat.pow_le_pow_right (by decide) hall)
  rw [hlast, Nat.mod_eq_of_lt hlt] at hval
  subst hlast
  exact ⟨raw, hrec, hraw.length, hraw.centered, by simpa using hval⟩

/-- What `to_radix_2w` gives for a scalar. -/
structure RadixOk (w v : Nat) (digits : List Int) : Prop where
  length : digits.length = 43
  centered : ∀ d ∈ digits, Centered w d
  value : ∀ n, digitsCount w ≤ n → ∑ j ∈ Finset.range n, 2 ^ (w * j) * digits.getD j 0 = v

theorem toRadix2w_ok {w : Nat} (hw : w = 6 ∨ w = 7 ∨ w = 8) (x : FrField) :
    ∃ digits, toRadix2w x w = some digits ∧ RadixOk w x.val digits := by
  obtain ⟨raw, hrec, hlen, hcentered, hval⟩ := recode_intoRepr hw x
  have hbounds : w ≤ 8 ∧ digitsCount w ≤ 43 ∧ digitsCount w - 1 < 43 := by
    rcases hw with rfl | rfl | rfl <;> decide
  obtain ⟨h₈, hcount, hpred⟩ := hbounds
  have hmap : raw.map asI8 = raw := by
    conv_rhs => rw [← List.map_id raw]
    exact List.map_congr_left (fun d hd => asI8_eq h₈ (hcentered d hd))
  generalize hdigits : raw ++ List.replicate (43 - digitsCount w) (0 : Int) = digits
  have hlength : digits.length = 43 := by
    rw [← hdigits, List.length_append, List.length_replicate, hlen]
    omega
  have hall : ∀ d ∈ digits, Centered w d := by
    intro d hd
    rw [← hdigits] at hd
    rcases List.mem_append.1 hd with hd | hd
    · exact hcentered d hd
    · rw [List.eq_of_mem_replicate hd]
      exact ⟨by simp, by positivity⟩
  refine ⟨digits, ?_, hlength, hall, fun n hn => ?_⟩
  · have hzero : asI8 ((0 : Nat) : Int) = 0 := rfl
    unfold toRadix2w
    simp only [hrec, Option.bind_eq_bind, Option.bind_some, hmap, hdigits, Nat.zero_mul, hzero]
    rcases hw with rfl | rfl | rfl
    · exact addDigit_zero h₈ (by rw [hlength]; decide) hall
    · exact addDigit_zero h₈ (by rw [hlength]; decide) hall
    · exact addDigit_zero h₈ (by rw [hlength]; decide) hall
  · rw [← hval, digitsVal_eq_sum w (hlen.le.trans hn)]
    refine Finset.sum_congr rfl (fun j _ => ?_)
    congr 1
    rw [← hdigits, List.getD_eq_getElem?_getD, List.getD_eq_getElem?_getD, List.getElem?_append]
    split_ifs with hj
    · rfl
    · rw [List.getElem?_eq_none (Nat.le_of_not_lt hj), List.getElem?_replicate]
      split_ifs <;> rfl

/-! ## The columns -/

section

variable {G : Type} [AddCommGroup G]

/-- **A point is put where its digit says**, and no bucket is missing. -/
theorem addToBucket_spec {w j : Nat} {digits : List Int} (hj : j < digits.length)
    (hd : ∀ d ∈ digits, Centered w d) (pt : G) {buckets : List G} (hlen : buckets.length = 2 ^ (w - 1)) :
    ∃ buckets', addToBucket j buckets (digits, pt) = some buckets' ∧ buckets'.length = 2 ^ (w - 1) ∧
      weightedSum buckets' = weightedSum buckets + digits.getD j 0 • pt := by
  obtain ⟨hlo, hhi⟩ := hd _ (List.getElem_mem hj)
  have hget : digits.getD j 0 = digits[j] := by rw [List.getD_eq_getElem?_getD, List.getElem?_eq_getElem hj]; rfl
  have hpow : ((2 ^ (w - 1) : Nat) : Int) = 2 ^ (w - 1) := by push_cast; rfl
  rw [hget]
  unfold addToBucket
  simp only [List.getElem?_eq_getElem hj, Option.bind_eq_bind, Option.bind_some, Option.pure_def]
  generalize digits[j] = d at hlo hhi ⊢
  split_ifs with hpos hneg
  · have hb : (d - 1).toNat < buckets.length := by omega
    have hx := List.getElem?_eq_getElem hb
    have hmul : ((d - 1).toNat + 1) • pt = d • pt := by
      rw [← natCast_zsmul]
      congr 1
      omega
    rw [hx, Option.bind_some]
    exact ⟨_, rfl, by rw [List.length_set, hlen], by rw [weightedSum_set_add hx, hmul]⟩
  · have hb : (-d - 1).toNat < buckets.length := by omega
    have hx := List.getElem?_eq_getElem hb
    have hmul : ((-d - 1).toNat + 1) • -pt = d • pt := by
      rw [← natCast_zsmul, smul_neg, ← neg_smul]
      congr 1
      omega
    rw [hx, Option.bind_some]
    exact ⟨_, rfl, by rw [List.length_set, hlen], by rw [sub_eq_add_neg _ pt, weightedSum_set_add hx, hmul]⟩
  · have hzero : d = 0 := by omega
    exact ⟨buckets, rfl, hlen, by rw [hzero, zero_smul, add_zero]⟩

theorem bucketsSum_eq {buckets : List G} (h : buckets ≠ []) : bucketsSum buckets = some (weightedSum buckets) := by
  have hrun := foldl_runningSums buckets
  unfold bucketsSum
  cases hrev : buckets.reverse with
  | nil               => exact absurd (List.reverse_eq_nil_iff.1 hrev) h
  | cons last rest =>
    rw [hrev, List.foldl_cons] at hrun
    have hfirst : runningStep (0, 0) last = (last, last) := by simp [runningStep]
    rw [hfirst] at hrun
    exact congrArg (fun s => some s.2) hrun

/-- One place of all scalars. -/
def placeSum (scalarsPoints : List (List Int × G)) (j : Nat) : G :=
  (scalarsPoints.map (fun sp => sp.1.getD j 0 • sp.2)).sum

theorem foldlM_addToBucket {w j : Nat} : ∀ {scalarsPoints : List (List Int × G)},
    (∀ sp ∈ scalarsPoints, j < sp.1.length ∧ ∀ d ∈ sp.1, Centered w d) → ∀ {buckets : List G},
      buckets.length = 2 ^ (w - 1) → ∃ buckets', scalarsPoints.foldlM (addToBucket j) buckets = some buckets' ∧
        buckets'.length = 2 ^ (w - 1) ∧ weightedSum buckets' = weightedSum buckets + placeSum scalarsPoints j
  | [], _, buckets, hlen              => ⟨buckets, rfl, hlen, by simp [placeSum]⟩
  | (digits, pt) :: l, h, buckets, hlen => by
    obtain ⟨hj, hd⟩ := h (digits, pt) List.mem_cons_self
    obtain ⟨buckets₁, hadd, hlen₁, hsum₁⟩ := addToBucket_spec hj hd pt hlen
    obtain ⟨buckets₂, hfold, hlen₂, hsum₂⟩ := foldlM_addToBucket (fun sp hsp => h sp (List.mem_cons_of_mem _ hsp)) hlen₁
    refine ⟨buckets₂, ?_, hlen₂, ?_⟩
    · rw [List.foldlM_cons, hadd]
      exact hfold
    · rw [hsum₂, hsum₁, placeSum, placeSum, List.map_cons, List.sum_cons, add_assoc]

/-- **A column is the sum of its digits' multiples.** -/
theorem column_eq {w j : Nat} (h₁ : 1 ≤ w) {scalarsPoints : List (List Int × G)}
    (h : ∀ sp ∈ scalarsPoints, j < sp.1.length ∧ ∀ d ∈ sp.1, Centered w d) :
    column scalarsPoints (2 ^ w / 2) j = some (placeSum scalarsPoints j) := by
  have hcount : 2 ^ w / 2 = 2 ^ (w - 1) := by
    rw [two_pow_pred h₁, Nat.mul_div_cancel_left _ (by decide)]
  obtain ⟨buckets, hfold, hlen, hsum⟩ := foldlM_addToBucket h
    (List.length_replicate (n := 2 ^ (w - 1)) (a := (0 : G)))
  rw [column, hcount, hfold]
  rw [weightedSum_replicate, zero_add] at hsum
  rw [← hsum]
  exact bucketsSum_eq (List.ne_nil_of_length_pos (hlen ▸ Nat.two_pow_pos _))

theorem mulByPow2_eq (point : G) {k : Nat} (hk : 1 ≤ k) : mulByPow2 point k = 2 ^ k • point := by
  have hiter : ∀ n : Nat, (fun s => s + s)^[n] point = 2 ^ n • point := by
    intro n
    induction n with
    | zero      => simp
    | succ n ih => rw [Function.iterate_succ_apply', ih, ← two_nsmul, ← mul_nsmul', Nat.pow_succ']
  rw [mulByPow2, hiter, ← two_nsmul, ← mul_nsmul', ← two_pow_pred hk]

/-! ## The product -/

theorem mapM_toRadix2w {w : Nat} (hw : w = 6 ∨ w = 7 ∨ w = 8) : ∀ scalars : List FrField,
    ∃ digits, scalars.mapM (toRadix2w · w) = some digits ∧
      List.Forall₂ (fun (x : FrField) ds => RadixOk w x.val ds) scalars digits
  | []           => ⟨[], rfl, .nil⟩
  | x :: scalars => by
    obtain ⟨ds, hds, hok⟩ := toRadix2w_ok hw x
    obtain ⟨digits, hdigits, hall⟩ := mapM_toRadix2w hw scalars
    exact ⟨ds :: digits, by rw [List.mapM_cons, hds, hdigits]; rfl, .cons hok hall⟩

theorem radixOk_of_mem {w : Nat} {scalars : List FrField} {digits : List (List Int)}
    (h : List.Forall₂ (fun (x : FrField) ds => RadixOk w x.val ds) scalars digits) {ds : List Int} (hds : ds ∈ digits) :
    ∃ v, RadixOk w v ds := by
  induction h with
  | nil            => cases hds
  | cons hx _ ih =>
    rcases List.mem_cons.1 hds with rfl | hds
    · exact ⟨_, hx⟩
    · exact ih hds

/-- The sum of the multiples. -/
def dotSum (points : List G) (scalars : List FrField) : G :=
  (List.zipWith (fun (x : FrField) pt => x.val • pt) scalars points).sum

/-- The places of the digits, put together, are the scalars. -/
theorem sum_placeSum {w n : Nat} (hn : digitsCount w ≤ n) {scalars : List FrField} {digits : List (List Int)}
    (h : List.Forall₂ (fun (x : FrField) ds => RadixOk w x.val ds) scalars digits) : ∀ points : List G,
      ∑ j ∈ Finset.range n, 2 ^ (w * j) • placeSum (digits.zip points) j = dotSum points scalars := by
  induction h with
  | nil => intro points; simp [placeSum, dotSum]
  | @cons x ds scalars digits hx _ ih =>
    intro points
    cases points with
    | nil          => simp [placeSum, dotSum]
    | cons pt points =>
      have hone : ∀ j, 2 ^ (w * j) • placeSum ((ds :: digits).zip (pt :: points)) j =
          ((2 : Int) ^ (w * j) * ds.getD j 0) • pt + 2 ^ (w * j) • placeSum (digits.zip points) j := by
        intro j
        rw [placeSum, List.zip_cons_cons, List.map_cons, List.sum_cons, nsmul_add, ← placeSum, mul_smul, ← natCast_zsmul]
        push_cast
        rfl
      have hscalar : ∑ j ∈ Finset.range n, ((2 : Int) ^ (w * j) * ds.getD j 0) • pt = x.val • pt := by
        rw [← Finset.sum_smul, hx.value n hn, natCast_zsmul]
      rw [Finset.sum_congr rfl (fun j _ => hone j), Finset.sum_add_distrib, hscalar, ih points, dotSum, dotSum,
        List.zipWith_cons_cons, List.sum_cons]

/-- No digit of a scalar overflows an `i8`. -/
def NoOverflow (scalars : List FrField) : Prop :=
  ∀ x ∈ scalars, ∃ raw carry, recode (intoRepr x) (digitWidth scalars.length) (digitsCount (digitWidth scalars.length)) 0 0 =
    some (raw, carry) ∧ ∀ d ∈ raw, -128 ≤ d ∧ d < 128

/-- **`pippenger` computes the sum of the multiples**, for lists of every length and all scalars. -/
theorem pippenger_eq (points : List G) (scalars : List FrField) :
    pippenger points scalars = some (dotSum points scalars) ∧ NoOverflow scalars := by
  have hw := digitWidth_cases scalars.length
  constructor
  · obtain ⟨digits, hdigits, hall⟩ := mapM_toRadix2w hw scalars
    unfold pippenger
    generalize digitWidth scalars.length = w at hw hdigits hall
    obtain ⟨n, hhint, hcount, hle⟩ : ∃ n, toRadix2wSizeHint w = some (n + 1) ∧ digitsCount w ≤ n + 1 ∧ n + 1 ≤ 43 := by
      rcases hw with rfl | rfl | rfl
      · exact ⟨42, rfl, by decide, by decide⟩
      · exact ⟨36, rfl, by decide, by decide⟩
      · exact ⟨32, rfl, by decide, by decide⟩
    have h₁ : 1 ≤ w := by omega
    have hpairs : ∀ sp ∈ digits.zip points, sp.1.length = 43 ∧ ∀ d ∈ sp.1, Centered w d := by
      intro sp hsp
      obtain ⟨v, hx⟩ := radixOk_of_mem hall (List.of_mem_zip hsp).1
      exact ⟨hx.length, hx.centered⟩
    have hcolumns : (List.range (n + 1)).reverse.mapM (column (digits.zip points) (2 ^ w / 2)) =
        some ((List.range (n + 1)).reverse.map (placeSum (digits.zip points))) := by
      refine mapM_eq_map (fun j hj => column_eq h₁ (fun sp hsp => ?_))
      have hj' : j < n + 1 := List.mem_range.1 (List.mem_reverse.1 hj)
      obtain ⟨hlen, hd⟩ := hpairs sp hsp
      exact ⟨by omega, hd⟩
    have hhorner := foldl_horner w (placeSum (digits.zip points)) n (placeSum (digits.zip points) n)
    have hrange : (List.range (n + 1)).reverse.map (placeSum (digits.zip points)) =
        placeSum (digits.zip points) n :: (List.range n).reverse.map (placeSum (digits.zip points)) := by
      rw [List.range_succ, List.reverse_append, List.reverse_singleton, List.singleton_append, List.map_cons]
    simp only [hhint, hdigits, hcolumns, hrange, Option.bind_eq_bind, Option.bind_some, mulByPow2_eq _ h₁]
    rw [hhorner, add_comm, ← Finset.sum_range_succ (fun j => 2 ^ (w * j) • placeSum (digits.zip points) j),
      sum_placeSum hcount hall]
  · intro x _
    obtain ⟨raw, hrec, -, hcentered, -⟩ := recode_intoRepr hw x
    refine ⟨raw, 0, hrec, fun d hd => ?_⟩
    have hle : (2 : Int) ^ (digitWidth scalars.length - 1) ≤ 2 ^ 7 := pow_le_pow_right₀ (by decide) (by omega)
    obtain ⟨hlo, hhi⟩ := hcentered d hd
    omega

end

end Pairing
end Dpid
