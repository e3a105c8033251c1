import Dpid.BitCompare
import Dpid.FrRepr
import Dpid.PpMul
/-!
# LessThan — the comparison of two shares (`progs/mixins/share_comparison.py`)

A share stands for the field element it opens to, so an operation on shares is the field's.  The preprocessing gives two
values with their bits: `r` masks twice the difference, `s` the sum whose parity is the answer.
-/
namespace Dpid
namespace LessThan

open Pairing BitCompare

/-! ## The program -/

/-- The lowest `k` bits, the lowest first. -/
def bits : Nat → Nat → List Nat
  | 0, _     => []
  | k + 1, n => n % 2 :: bits k (n / 2)

/-- The digits of `"{0:0255b}".format(n)`, for a number of at most 255 bits. -/
def format0255b (n : Nat) : List Nat := (bits 255 n).reverse

/-- What `get_share_bits` returns. -/
structure ShareBits where
  share : FrField
  bits : List FrField

/-- The share of a number and of its bits. -/
def shareBits (n : Nat) : ShareBits := ⟨n, (bits 255 n).map Nat.cast⟩

def xorBits (a b : FrField) : FrField := a + b - 2 * a * b

def transformComparison (r : ShareBits) (aShare bShare : FrField) : List FrField × List FrField :=
  let z := aShare - bShare
  let c := 2 * z + r.share
  let cBits := (format0255b c.val).map Nat.cast
  (r.bits, cBits.reverse)

def computeX (rBits cBits : List FrField) : FrField :=
  let powerBits := List.zipWith (fun r c => 1 + xorBits r c) (rBits.drop 1) (cBits.drop 1)
  let powers := powerBits.reverse.foldl (fun powers b => b * powers.headD 0 :: powers) [1]
  (rBits.zip (cBits.zip powers)).foldl (fun x t => x + t.1 * (1 - t.2.1) * t.2.2) 0

/-- `p.bit_length()`. -/
def bitLength : Nat := frModulus.log2 + 1

/-- `d0 ^ (d < bound)`. -/
def xorBelow (d bound : Nat) : Nat := d % 2 ^^^ (if d < bound then 1 else 0)

def extractLsb (s : ShareBits) (x : FrField) : Option FrField := do
  let d := (s.share + x).val
  let s0 ← s.bits[0]?
  let s1 ← s.bits[bitLength - 1]?
  let s2 ← s.bits[bitLength - 2]?
  let sProd := s1 * s2
  let d0 : FrField := (d % 2 : Nat)
  let dXor1 : FrField := xorBelow d (2 ^ (bitLength - 1))
  let dXor2 : FrField := xorBelow d (2 ^ (bitLength - 2))
  let dXor12 : FrField := xorBelow d (2 ^ (bitLength - 1) + 2 ^ (bitLength - 2))
  return xorBits s0
    ((1 - s1 - s2 + sProd) * d0 + (s2 - sProd) * dXor2 + (s1 - sProd) * dXor1 + sProd * dXor12)

/-- `_prog`, with what the two calls of `get_share_bits` return. -/
def prog (r s : ShareBits) (aShare bShare : FrField) : Option FrField := do
  let (rBits, cBits) := transformComparison r aShare bShare
  let x0 ← extractLsb s (computeX rBits cBits)
  let c0 ← cBits[0]?
  let r0 ← rBits[0]?
  return xorBits (xorBits c0 r0) x0

/-! ## Bits -/

theorem bits_succ (k n : Nat) : bits (k + 1) n = n % 2 :: bits k (n / 2) := rfl

theorem bits_getElem? : ∀ {k i : Nat}, i < k → ∀ n : Nat, (bits k n)[i]? = some (n / 2 ^ i % 2)
  | k + 1, 0, _, n     => by rw [bits, List.getElem?_cons_zero, Nat.pow_zero, Nat.div_one]
  | k + 1, i + 1, h, n => by
    rw [bits, List.getElem?_cons_succ, bits_getElem? (Nat.lt_of_succ_lt_succ h), Nat.div_div_eq_div_mul, Nat.pow_succ']

/-- The exclusive or of two bits is the parity of their sum. -/
theorem xorBits_natCast {m n : Nat} (hm : m ≤ 1) (hn : n ≤ 1) :
    xorBits (m : FrField) (n : FrField) = ((m + n) % 2 : Nat) := by
  unfold xorBits
  obtain rfl | rfl : m = 0 ∨ m = 1 := by omega
  all_goals obtain rfl | rfl : n = 0 ∨ n = 1 := by omega
  all_goals norm_num

theorem xorBelow_eq (d bound : Nat) : xorBelow d bound = (d % 2 + if d < bound then 1 else 0) % 2 := by
  unfold xorBelow
  rcases Nat.mod_two_eq_zero_or_one d with h | h <;> rw [h] <;> split <;> rfl

/-! ## The sum -/

def powersOf (powerBits : List FrField) : List FrField :=
  powerBits.reverse.foldl (fun powers b => b * powers.headD 0 :: powers) [1]

theorem powersOf_cons (b : FrField) (l : List FrField) : powersOf (b :: l) = b * (powersOf l).headD 0 :: powersOf l := by
  rw [powersOf, List.reverse_cons, List.foldl_append]
  rfl

def powerBits (k r c : Nat) : List FrField :=
  List.zipWith (fun r c => 1 + xorBits r c) ((bits k r).map Nat.cast) ((bits k c).map Nat.cast)

/-- The factor of a bit: two where `r` and `c` differ. -/
theorem one_add_xorBits (r c : Nat) :
    1 + xorBits ((r % 2 : Nat) : FrField) ((c % 2 : Nat) : FrField) = 2 ^ (if r % 2 = c % 2 then 0 else 1) := by
  rw [xorBits_natCast (by omega) (by omega)]
  split_ifs with h
  · rw [h, show (c % 2 + c % 2) % 2 = 0 by omega, Nat.cast_zero, add_zero, pow_zero]
  · rw [show (r % 2 + c % 2) % 2 = 1 by omega, Nat.cast_one, pow_one]
    norm_num

theorem powerBits_succ (k r c : Nat) :
    powerBits (k + 1) r c = 2 ^ (if r % 2 = c % 2 then 0 else 1) :: powerBits k (r / 2) (c / 2) := by
  rw [powerBits, bits, bits, List.map_cons, List.map_cons, List.zipWith_cons_cons, one_add_xorBits]
  rfl

/-- The first power counts the bits that differ. -/
theorem headD_powersOf : ∀ k r c : Nat, (powersOf (powerBits k r c)).headD 0 = 2 ^ differing k r c
  | 0, _, _     => rfl
  | k + 1, r, c => by
    rw [powerBits_succ, powersOf_cons, List.headD_cons, headD_powersOf k, ← pow_add]
    rfl

theorem natCast_term (r c : Nat) :
    ((r % 2 : Nat) : FrField) * (1 - ((c % 2 : Nat) : FrField)) = ((r % 2 * (1 - c % 2) : Nat) : FrField) := by
  rw [Nat.cast_mul, Nat.cast_sub (by omega), Nat.cast_one]

theorem foldl_eq_weighted : ∀ (k r c : Nat) (x : FrField),
    (((bits (k + 1) r).map Nat.cast).zip (((bits (k + 1) c).map Nat.cast).zip
      (powersOf (powerBits k (r / 2) (c / 2))))).foldl (fun x t => x + t.1 * (1 - t.2.1) * t.2.2) x =
        x + (weighted (k + 1) r c : Nat)
  | 0, r, c, x     => by
    have hpow : powersOf (powerBits 0 (r / 2) (c / 2)) = [1] := rfl
    have hweighted : weighted (0 + 1) r c = r % 2 * (1 - c % 2) := by simp [weighted, differing]
    rw [hpow, hweighted, ← natCast_term]
    simp [bits]
  | k + 1, r, c, x => by
    have ih := foldl_eq_weighted k (r / 2) (c / 2) (x + ((r % 2 : Nat) : FrField) * (1 - ((c % 2 : Nat) : FrField)) *
      2 ^ differing (k + 1) (r / 2) (c / 2))
    have hweighted : weighted (k + 1 + 1) r c =
        r % 2 * (1 - c % 2) * 2 ^ differing (k + 1) (r / 2) (c / 2) + weighted (k + 1) (r / 2) (c / 2) := rfl
    have hhead := headD_powersOf (k + 1) (r / 2) (c / 2)
    rw [powerBits_succ, powersOf_cons, List.headD_cons] at hhead
    rw [bits_succ (k + 1) r, bits_succ (k + 1) c, powerBits_succ, powersOf_cons, hhead, List.map_cons, List.map_cons, List.zip_cons_cons,
      List.zip_cons_cons, List.foldl_cons, ih, hweighted, Nat.cast_add, Nat.cast_mul, ← natCast_term, Nat.cast_pow,
      Nat.cast_ofNat, add_assoc]

/-- **`_compute_x` is the weighted sum**, modulo `p`. -/
theorem computeX_eq (k r c : Nat) :
    computeX ((bits (k + 1) r).map Nat.cast) ((bits (k + 1) c).map Nat.cast) = (weighted (k + 1) r c : Nat) := by
  have h := foldl_eq_weighted k r c 0
  rw [zero_add] at h
  exact h

/-! ## The parity -/

theorem bitLength_eq : bitLength = 255 := by decide

/-- The part of the mask above its two highest bits' places. -/
theorem high_eq {s : Nat} (hs : s < 2 ^ 255) : s / 2 ^ 254 % 2 * 2 ^ 254 + s / 2 ^ 253 % 2 * 2 ^ 253 = s - s % 2 ^ 253 := by
  omega

theorem select_eq {u v : Nat} (hu : u ≤ 1) (hv : v ≤ 1) (d : Nat) :
    (1 - (u : FrField) - (v : FrField) + (u : FrField) * (v : FrField)) * ((d % 2 : Nat) : FrField) +
        ((v : FrField) - (u : FrField) * (v : FrField)) * (xorBelow d (2 ^ 253) : Nat) +
        ((u : FrField) - (u : FrField) * (v : FrField)) * (xorBelow d (2 ^ 254) : Nat) +
        (u : FrField) * (v : FrField) * (xorBelow d (2 ^ 254 + 2 ^ 253) : Nat) =
      (xorBelow d (u * 2 ^ 254 + v * 2 ^ 253) : Nat) := by
  have hzero : xorBelow d 0 = d % 2 := by simp [xorBelow]
  obtain rfl | rfl : u = 0 ∨ u = 1 := by omega
  all_goals obtain rfl | rfl : v = 0 ∨ v = 1 := by omega
  all_goals simp only [Nat.cast_zero, Nat.cast_one, Nat.zero_mul, Nat.one_mul, Nat.zero_add, Nat.add_zero, hzero]
  all_goals ring

/-- **`_extract_lsb` takes the opened sum for a wrapped one when it is below the mask's two highest bits.** -/
theorem extractLsb_eq {s : Nat} (hs : s < 2 ^ 255) (X : Nat) :
    extractLsb (shareBits s) (X : Nat) =
      some (((s % 2 + xorBelow ((s + X) % frModulus) (s - s % 2 ^ 253)) % 2 : Nat) : FrField) := by
  have hbit : ∀ i < 255, (shareBits s).bits[i]? = some ((s / 2 ^ i % 2 : Nat) : FrField) := by
    intro i hi
    rw [shareBits, List.getElem?_map, bits_getElem? hi]
    rfl
  have h₀ := hbit 0 (by decide)
  have h₁ := hbit 254 (by decide)
  have h₂ := hbit 253 (by decide)
  have hd : ((shareBits s).share + (X : FrField)).val = (s + X) % frModulus := by
    have hshare : (shareBits s).share = (s : FrField) := rfl
    rw [hshare, ← Nat.cast_add, ZMod.val_natCast]
  have hlast : bitLength - 1 = 254 := by rw [bitLength_eq]
  have hnext : bitLength - 2 = 253 := by rw [bitLength_eq]
  rw [Nat.pow_zero, Nat.div_one] at h₀
  unfold extractLsb
  rw [hd, hlast, hnext]
  generalize (shareBits s).bits = sBits at h₀ h₁ h₂
  simp only [h₀, h₁, h₂, Option.bind_eq_bind, Option.bind_some, Option.pure_def]
  rw [select_eq (by omega) (by omega), high_eq hs, xorBits_natCast (by omega) (by rw [xorBelow_eq]; omega)]

/-- What `_prog` returns, by the mask `r`, the opened `c` and the mask `s`. -/
theorem prog_eq {a b r s c : Nat} (hs : s < 2 ^ 255)
    (hc : (2 * ((a : FrField) - (b : FrField)) + (r : FrField)).val = c) :
    prog (shareBits r) (shareBits s) (a : FrField) (b : FrField) =
      some ((((c % 2 + r % 2) % 2 + (s % 2 + xorBelow ((s + weighted 255 r c) % frModulus) (s - s % 2 ^ 253)) % 2) % 2 :
        Nat) : FrField) := by
  have htransform : transformComparison (shareBits r) (a : FrField) (b : FrField) =
      ((bits 255 r).map Nat.cast, (bits 255 c).map Nat.cast) := by
    rw [transformComparison]
    simp only [format0255b]
    have hshare : (shareBits r).share = (r : FrField) := rfl
    rw [hshare, hc, List.map_reverse, List.reverse_reverse]
    rfl
  have hhead : ∀ n : Nat, ((bits 255 n).map Nat.cast : List FrField)[0]? = some ((n % 2 : Nat) : FrField) := fun n => rfl
  unfold prog
  rw [htransform]
  simp only [computeX_eq 254, extractLsb_eq hs, hhead, Option.bind_eq_bind, Option.bind_some, Option.pure_def]
  rw [xorBits_natCast (by omega) (by omega), xorBits_natCast (by omega) (by omega)]

/-! ## The answer -/

theorem frModulus_odd : frModulus % 2 = 1 := by decide

theorem lt_frModulus : 2 ^ 254 + 2 ^ 253 < frModulus := by decide

theorem transform_modEq {a b r c : Nat} (hc : (2 * ((a : FrField) - (b : FrField)) + (r : FrField)).val = c) :
    c + 2 * b ≡ 2 * a + r [MOD frModulus] := by
  rw [← ZMod.natCast_eq_natCast_iff, ← hc]
  push_cast
  rw [ZMod.natCast_zmod_val]
  ring

/-- **The sum reaches the modulus only where all bits of `r` and `c` differ**: there it is `r` read backwards. -/
theorem weighted_ge_iff {a b r s c : Nat} (hr : r < frModulus) (hc : c < frModulus)
    (h : c + 2 * b ≡ 2 * a + r [MOD frModulus]) :
    frModulus ≤ weighted 255 r c + s % 2 ^ 253 ↔ 2 ^ 255 ≤ r + frModulus ∧
      2 * (a + r) ≡ 2 * b + 2 ^ 255 - 1 [MOD frModulus] ∧ frModulus ≤ rev 255 r + s % 2 ^ 253 := by
  have hp := lt_frModulus
  have hp₂ := frModulus_lt
  have hlow := Nat.mod_lt s (Nat.two_pow_pos 253)
  have hr₂ : r < 2 ^ 255 := Nat.lt_trans hr hp₂
  have hc₂ : c < 2 ^ 255 := Nat.lt_trans hc hp₂
  constructor
  · intro hge
    have hall : differing 255 r c = 255 := by
      refine Nat.le_antisymm (differing_le 255 r c) (Nat.le_of_not_lt (fun hlt => ?_))
      have hsum := weighted_lt 255 r c
      have hpow := Nat.pow_le_pow_right (n := 2) (by decide) (Nat.le_of_lt_succ hlt)
      omega
    have hcompl := (differing_eq_width hr₂ hc₂).1 hall
    refine ⟨by omega, ?_, by rwa [← weighted_complement hcompl]⟩
    have hadd := (h.add_right r).symm
    rwa [show 2 * a + r + r = 2 * (a + r) by ring, show c + 2 * b + r = 2 * b + 2 ^ 255 - 1 by omega] at hadd
  · rintro ⟨hwide, hmod, hge⟩
    have hcompl : r + c + 1 = 2 ^ 255 := by
      have hsum : 2 ^ 255 - 1 - r + (2 * b + r) = 2 * b + 2 ^ 255 - 1 := by omega
      have hopened : c + (2 * b + r) ≡ 2 ^ 255 - 1 - r + (2 * b + r) [MOD frModulus] := by
        rw [hsum]
        refine Nat.ModEq.trans ?_ hmod
        have hadd := h.add_right r
        rwa [show 2 * a + r + r = 2 * (a + r) by ring, Nat.add_assoc] at hadd
      have heq := (Nat.ModEq.add_right_cancel' _ hopened).eq_of_lt_of_lt hc (by omega)
      omega
    rwa [weighted_complement hcompl]

/-- The answer is right as long as the sum and the low bits of `s` stay below the modulus. -/
theorem prog_eq_iff {a b r s c : Nat} (ha : a < (frModulus - 1) / 2) (hb : b < (frModulus - 1) / 2) (hr : r < frModulus)
    (hs : s < frModulus) (hc : (2 * ((a : FrField) - (b : FrField)) + (r : FrField)).val = c) :
    prog (shareBits r) (shareBits s) (a : FrField) (b : FrField) = some (if a < b then 1 else 0) ↔
      weighted 255 r c + s % 2 ^ 253 < frModulus := by
  have hcp : c < frModulus := hc ▸ ZMod.val_lt _
  have hmod := transform_modEq hc
  have hp := lt_frModulus
  have hp₂ := frModulus_lt
  have hr₂ : r < 2 ^ 255 := Nat.lt_trans hr hp₂
  have hc₂ : c < 2 ^ 255 := Nat.lt_trans hcp hp₂
  have hX : weighted 255 r c < 2 ^ 255 :=
    Nat.lt_of_lt_of_le (weighted_lt 255 r c) (Nat.pow_le_pow_right (by decide) (differing_le 255 r c))
  have hlow := Nat.mod_lt s (Nat.two_pow_pos 253)
  have hhigh : 2 * (s / 2 ^ 253 * 2 ^ 252) = s - s % 2 ^ 253 := by omega
  have hsplit : 2 * (s / 2 ^ 253 * 2 ^ 252) + s % 2 ^ 253 = s := by omega
  have hodd := weighted_odd hr₂ hc₂
  have hdiff := parity_difference frModulus_odd ha hb hr hcp hmod
  have hmask := parity_masked frModulus_odd (t := s / 2 ^ 253 * 2 ^ 252) (l := s % 2 ^ 253) (X := weighted 255 r c)
    (by omega) (by omega)
  rw [hsplit, hhigh, ← xorBelow_eq] at hmask
  rw [← hmask, prog_eq (Nat.lt_trans hs hp₂) hc, Option.some_inj]
  have hx0 : (s % 2 + xorBelow ((s + weighted 255 r c) % frModulus) (s - s % 2 ^ 253)) % 2 < 2 := Nat.mod_lt _ (by decide)
  generalize (s % 2 + xorBelow ((s + weighted 255 r c) % frModulus) (s - s % 2 ^ 253)) % 2 = x0 at hx0
  have hcast : ∀ (n : Nat), n ≤ 1 → ((n : FrField) = (if a < b then 1 else 0) ↔ n = if a < b then 1 else 0) := by
    intro n hn
    have hprime := frModulus_fact
    obtain rfl | rfl : n = 0 ∨ n = 1 := by omega
    all_goals split_ifs <;> simp
  rw [hcast _ (by omega), ← hdiff]
  split_ifs at hdiff ⊢ with hwrap <;> simp only [hwrap, iff_true, iff_false] at hodd <;> omega

/-- **When the answer is right**: unless the opened `c` is the complement of `r` and the bits of `r`, read backwards, reach
`p` with the low bits of `s`. -/
theorem prog_iff {a b r s : Nat} (ha : a < (frModulus - 1) / 2) (hb : b < (frModulus - 1) / 2) (hr : r < frModulus)
    (hs : s < frModulus) : prog (shareBits r) (shareBits s) (a : FrField) (b : FrField) = some (if a < b then 1 else 0) ↔
      ¬(2 ^ 255 ≤ r + frModulus ∧ 2 * (a + r) ≡ 2 * b + 2 ^ 255 - 1 [MOD frModulus] ∧
        frModulus ≤ rev 255 r + s % 2 ^ 253) := by
  rw [prog_eq_iff ha hb hr hs rfl, ← weighted_ge_iff hr (ZMod.val_lt _) (transform_modEq rfl), Nat.not_le]

/-- A small mask never is such a complement. -/
theorem prog_iff_small : prog (shareBits 5) (shareBits 9) (3 : Nat) (4 : Nat) = some (if 3 < 4 then 1 else 0) :=
  (prog_iff (by decide) (by decide) (by decide) (by decide)).2 (fun h => absurd h.1 (by decide))

/-- The `c` opened for zero and `(p - 2 ^ 254 - 1) / 2` is the complement of the mask `2 ^ 253 - 1`. -/
theorem prog_counterexample : ¬∀ a b r s : Nat, a < (frModulus - 1) / 2 → b < (frModulus - 1) / 2 → r < frModulus →
    s < frModulus →
      prog (shareBits r) (shareBits s) (a : FrField) (b : FrField) = some (if a < b then 1 else 0) := by
  intro h
  have hr : 2 ^ 253 - 1 < frModulus := by decide
  have hright := h 0 ((frModulus - 2 ^ 254 - 1) / 2) (2 ^ 253 - 1) 0 (by decide) (by decide) hr (by decide)
  rw [prog_eq_iff (by decide) (by decide) hr (by decide) rfl, ← Nat.not_le,
    weighted_ge_iff hr (ZMod.val_lt _) (transform_modEq rfl)] at hright
  exact hright ⟨by decide, by unfold Nat.ModEq; decide, by decide +kernel⟩

end LessThan
end Dpid
