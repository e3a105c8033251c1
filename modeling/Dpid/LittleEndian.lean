import Mathlib.Tactic.Ring
/-!
# LittleEndian — numbers as bytes, the lowest first

`leVal` is the number that bytes stand for and `leBytes` the bytes of a number.  A `u64` is read by or-ing eight bytes at
their places (`load8`), which is the window of 64 bits there.
-/
namespace LittleEndian

def leVal : List UInt8 → Nat
  | []     => 0
  | b :: l => b.toNat + 256 * leVal l

/-- The lowest `k` bytes. -/
def leBytes : Nat → Nat → List UInt8
  | 0, _     => []
  | k + 1, n => UInt8.ofNat n :: leBytes k (n / 256)

@[simp] theorem length_leBytes : ∀ k n : Nat, (leBytes k n).length = k
  | 0, _     => rfl
  | k + 1, n => by rw [leBytes, List.length_cons, length_leBytes k]

theorem leVal_leBytes : ∀ k n : Nat, leVal (leBytes k n) = n % 256 ^ k
  | 0, n     => (Nat.mod_one n).symm
  | k + 1, n => by
    have hmod : n % 256 ^ (k + 1) = n % 256 + 256 * (n / 256 % 256 ^ k) := by rw [Nat.pow_succ', Nat.mod_mul]
    rw [leBytes, leVal, leVal_leBytes k, UInt8.toNat_ofNat', hmod]

theorem leVal_lt : ∀ l : List UInt8, leVal l < 256 ^ l.length
  | []     => Nat.one_pos
  | b :: l => by
    have hl := leVal_lt l
    have hb := b.toNat_lt
    rw [leVal, List.length_cons, Nat.pow_succ']
    omega

/-- **The number determines the bytes.** -/
theorem leBytes_leVal : ∀ l : List UInt8, leBytes l.length (leVal l) = l
  | []     => rfl
  | b :: l => by
    have hb := b.toNat_lt
    have hmod : (b.toNat + 256 * leVal l) % 256 = b.toNat := by omega
    have hdiv : (b.toNat + 256 * leVal l) / 256 = leVal l := by omega
    have hhead : UInt8.ofNat (b.toNat + 256 * leVal l) = b := by
      rw [← UInt8.toNat_inj, UInt8.toNat_ofNat', hmod]
    rw [List.length_cons, leVal, leBytes, hdiv, leBytes_leVal l, hhead]

theorem leVal_injective {l l' : List UInt8} (hlen : l.length = l'.length) (h : leVal l = leVal l') : l = l' := by
  rw [← leBytes_leVal l, ← leBytes_leVal l', hlen, h]

theorem leVal_append : ∀ l l' : List UInt8, leVal (l ++ l') = leVal l + 256 ^ l.length * leVal l'
  | [], l'     => by rw [List.nil_append, leVal, List.length_nil, Nat.pow_zero, Nat.one_mul, Nat.zero_add]
  | b :: l, l' => by
    rw [List.cons_append, leVal, leVal, leVal_append l l', List.length_cons, Nat.pow_succ']
    ring

theorem leVal_take_drop (l : List UInt8) (i n : Nat) : leVal ((l.drop i).take n) = leVal l / 256 ^ i % 256 ^ n := by
  have htake : ∀ (l : List UInt8) (n : Nat), leVal (l.take n) = leVal l % 256 ^ n := by
    intro l n
    by_cases hn : n ≤ l.length
    · have hlen : (l.take n).length = n := List.length_take_of_le hn
      have hlt := leVal_lt (l.take n)
      rw [hlen] at hlt
      conv_rhs => rw [← List.take_append_drop n l, leVal_append, hlen, Nat.add_mul_mod_self_left, Nat.mod_eq_of_lt hlt]
    · have hle : l.length ≤ n := Nat.le_of_not_le hn
      have hpow : 256 ^ l.length ≤ 256 ^ n := Nat.pow_le_pow_right (by decide) hle
      rw [List.take_of_length_le hle, Nat.mod_eq_of_lt (Nat.lt_of_lt_of_le (leVal_lt l) hpow)]
  have hdrop : leVal (l.drop i) = leVal l / 256 ^ i := by
    by_cases hi : i ≤ l.length
    · have hlen : (l.take i).length = i := List.length_take_of_le hi
      have hlt := leVal_lt (l.take i)
      rw [hlen] at hlt
      conv_rhs => rw [← List.take_append_drop i l, leVal_append, hlen]
      rw [Nat.add_mul_div_left _ _ (Nat.pow_pos (by decide)), Nat.div_eq_of_lt hlt, Nat.zero_add]
    · have hle : l.length ≤ i := Nat.le_of_not_le hi
      have hpow : 256 ^ l.length ≤ 256 ^ i := Nat.pow_le_pow_right (by decide) hle
      rw [List.drop_of_length_le hle, Nat.div_eq_of_lt (Nat.lt_of_lt_of_le (leVal_lt l) hpow)]
      rfl
  rw [htake, hdrop]

theorem toNat_getElem {l : List UInt8} {i : Nat} (h : i < l.length) : l[i].toNat = leVal l / 256 ^ i % 256 := by
  have hone := leVal_take_drop l i 1
  rw [List.drop_eq_getElem_cons h, List.take_succ_cons, List.take_zero, leVal, leVal, Nat.mul_zero, Nat.add_zero,
    Nat.pow_one] at hone
  exact hone

/-- One byte replaced. -/
theorem leVal_set {l : List UInt8} {i : Nat} (h : i < l.length) (b : UInt8) :
    leVal (l.set i b) + 256 ^ i * l[i].toNat = leVal l + 256 ^ i * b.toNat := by
  have hlen : (l.take i).length = i := List.length_take_of_le h.le
  have hset : leVal (l.set i b) = leVal (l.take i) + 256 ^ i * (b.toNat + 256 * leVal (l.drop (i + 1))) := by
    rw [List.set_eq_take_append_cons_drop, if_pos h, leVal_append, hlen, leVal]
  have hself : leVal l = leVal (l.take i) + 256 ^ i * (l[i].toNat + 256 * leVal (l.drop (i + 1))) := by
    conv_lhs => rw [← List.take_append_drop i l, List.drop_eq_getElem_cons h, leVal_append, hlen, leVal]
  rw [hset, hself]
  ring

/-! ## Disjoint parts -/

/-- The or of a low part and a part above it is their sum. -/
theorem or_shiftLeft {a s : Nat} (h : a < 2 ^ s) (b : Nat) : a ||| b <<< s = a + b * 2 ^ s := by
  rw [Nat.or_comm, ← Nat.shiftLeft_add_eq_or_of_lt h, Nat.shiftLeft_eq, Nat.add_comm]

/-- The byte `k` of the input. -/
def byte (input : List UInt8) (k : Nat) : Nat := (input.getD k 0).toNat

def load8 (input : List UInt8) : Nat :=
  byte input 0 ||| byte input 1 <<< 8 ||| byte input 2 <<< 16 ||| byte input 3 <<< 24 ||| byte input 4 <<< 32 |||
    byte input 5 <<< 40 ||| byte input 6 <<< 48 ||| byte input 7 <<< 56

theorem byte_lt (input : List UInt8) (k : Nat) : byte input k < 2 ^ 8 := UInt8.toNat_lt _

theorem load8_eq_sum (input : List UInt8) : load8 input =
    byte input 0 + byte input 1 * 2 ^ 8 + byte input 2 * 2 ^ 16 + byte input 3 * 2 ^ 24 + byte input 4 * 2 ^ 32 +
      byte input 5 * 2 ^ 40 + byte input 6 * 2 ^ 48 + byte input 7 * 2 ^ 56 := by
  have h0 := byte_lt input 0
  have h1 := byte_lt input 1
  have h2 := byte_lt input 2
  have h3 := byte_lt input 3
  have h4 := byte_lt input 4
  have h5 := byte_lt input 5
  have h6 := byte_lt input 6
  unfold load8
  simp (disch := omega) only [or_shiftLeft]

theorem leVal_take_succ (input : List UInt8) (n : Nat) :
    leVal (input.take (n + 1)) = leVal (input.take n) + byte input n * 256 ^ n := by
  induction input generalizing n with
  | nil         => simp [leVal, byte]
  | cons b l ih =>
    cases n with
    | zero   => simp [leVal, byte]
    | succ n =>
      have hbyte : byte (b :: l) (n + 1) = byte l n := rfl
      rw [List.take_succ_cons, List.take_succ_cons, leVal, leVal, ih n, hbyte, Nat.pow_succ']
      ring

/-- **Eight bytes or-ed together** are their number. -/
theorem load8_eq (input : List UInt8) : load8 input = leVal (input.take 8) := by
  rw [load8_eq_sum, leVal_take_succ, leVal_take_succ, leVal_take_succ, leVal_take_succ, leVal_take_succ, leVal_take_succ,
    leVal_take_succ, leVal_take_succ, List.take_zero, leVal]
  omega

/-- A word read at the byte `i`. -/
theorem load8_drop (l : List UInt8) (i : Nat) : load8 (l.drop i) = leVal l / 256 ^ i % 2 ^ 64 := by
  rw [load8_eq, leVal_take_drop]
  rfl

end LittleEndian
