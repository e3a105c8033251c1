import Dpid.PpTable
import Mathlib.Algebra.Field.Rat
import Mathlib.Data.ZMod.Basic
import Mathlib.GroupTheory.OrderOfElement
import Mathlib.Tactic.IntervalCases
/-!
# PpMul — multiplying through the table

The loop of `ppmul` adds the windows of the number its binary text stands for, all but the last, whatever the table
(`scan_eq`).  The printed form `Fr(0x…)` has an `F` and a `0` before the digits, so that number is the scalar plus
`15 * 2 ^ 260`: which windows those bits fall into, and which one is never added, decides by the level alone when the
product is right (`ppmul_preprocess_iff`).
-/
namespace Dpid
namespace Pairing

open Windows

/-! ## The loop and the windows -/

def bitOf (c : Char) : Nat := if c = '1' then 1 else 0

/-- The number a text of bits stands for, the lowest first. -/
def bitsVal (cs : List Char) : Nat := Nat.ofDigits 2 (cs.map bitOf)

theorem bitsVal_cons (c : Char) (cs : List Char) : bitsVal (c :: cs) = bitOf c + 2 * bitsVal cs := by
  rw [bitsVal, List.map_cons, Nat.ofDigits_cons]
  rfl

theorem bitsVal_append (cs ds : List Char) : bitsVal (cs ++ ds) = bitsVal cs + 2 ^ cs.length * bitsVal ds := by
  rw [bitsVal, List.map_append, Nat.ofDigits_append, List.length_map]
  rfl

theorem bitOf_le (c : Char) : bitOf c ≤ 1 := by
  unfold bitOf
  split <;> decide

/-- What the loop has done before the bit `i`: `q` windows are behind it, and `buffer` is the begun one. -/
structure ScanInv (L v q i buffer : Nat) (cs : List Char) : Prop where
  begun : i = 0 ∧ q = 0 ∧ buffer = 0 ∨ L * q < i
  within : i ≤ L * (q + 1)
  buffer_lt : buffer < 2 ^ (i - L * q)
  value : v / 2 ^ (L * q) = buffer + 2 ^ (i - L * q) * bitsVal cs

section

variable {G : Type} [AddCommMonoid G] {L v q i buffer : Nat} {c : Char} {cs : List Char}

omit [AddCommMonoid G] in
theorem pushBit_eq (h : i % L < 64) (c : Char) (buffer : Nat) (out : G) :
    pushBit c L i buffer out = .ok (buffer + bitOf c * 2 ^ (i % L)) := by
  unfold pushBit bitOf
  split
  · rw [if_neg (Nat.not_le.2 h), Nat.one_mul]
  · rw [Nat.zero_mul, Nat.add_zero]

theorem mod_lt_64 (h₀ : 0 < L) (h₆₄ : L ≤ 64) (i : Nat) : i % L < 64 := Nat.lt_of_lt_of_le (Nat.mod_lt i h₀) h₆₄

theorem scan_cons_stay (h₀ : 0 < L) (h₆₄ : L ≤ 64) {pp : List G} {out : G} (h : ¬(i % L = 0 ∧ buffer ≠ 0)) :
    scan pp L (c :: cs) i buffer out = scan pp L cs (i + 1) (buffer + bitOf c * 2 ^ (i % L)) out := by
  rw [scan, if_neg h₀.ne', flush, if_neg h]
  simp only [bind, Except.bind, pushBit_eq (mod_lt_64 h₀ h₆₄ i)]

theorem scan_cons_flush (h₀ : 0 < L) (h₆₄ : L ≤ 64) {pp : List G} {out : G} (hb : buffer ≠ 0) :
    (scan pp L (c :: cs) (L * (q + 1)) buffer out).toOption =
      ((entry pp L q buffer).map (out + ·)).bind fun out => (scan pp L cs (L * (q + 1) + 1) (bitOf c) out).toOption := by
  have hmod : L * (q + 1) % L = 0 := Nat.mul_mod_right L (q + 1)
  have hdiv : L * (q + 1) / L - 1 = q := by
    rw [Nat.mul_div_cancel_left _ h₀, Nat.add_sub_cancel]
  rw [scan, if_neg h₀.ne', flush, if_pos ⟨hmod, hb⟩, hdiv]
  cases entry pp L q buffer with
  | none   => rfl
  | some x =>
    simp only [bind, Except.bind, pushBit_eq (mod_lt_64 h₀ h₆₄ (L * (q + 1))), hmod, Nat.pow_zero, Nat.mul_one,
      Nat.zero_add]
    rfl

theorem ScanInv.stay (h : ScanInv L v q i buffer (c :: cs)) (hlt : i < L * (q + 1)) :
    i % L = i - L * q ∧ ScanInv L v q (i + 1) (buffer + bitOf c * 2 ^ (i - L * q)) cs := by
  have hle : L * q ≤ i := by
    rcases h.begun with ⟨rfl, rfl, -⟩ | h'
    · exact Nat.le_refl _
    · exact Nat.le_of_lt h'
  have hmod : i % L = i - L * q := by
    rw [Nat.mul_succ] at hlt
    rw [← Nat.sub_mul_mod hle, Nat.mod_eq_of_lt (by omega)]
  have hsub : i + 1 - L * q = i - L * q + 1 := by omega
  have hbit : bitOf c * 2 ^ (i - L * q) ≤ 2 ^ (i - L * q) := by
    have := Nat.mul_le_mul_right (2 ^ (i - L * q)) (bitOf_le c)
    rwa [Nat.one_mul] at this
  refine ⟨hmod, Or.inr (Nat.lt_succ_of_le hle), hlt, ?_, ?_⟩
  · have := h.buffer_lt
    rw [hsub, Nat.pow_succ]
    omega
  · rw [h.value, bitsVal_cons, hsub, Nat.pow_succ, Nat.mul_add, Nat.mul_comm (2 ^ (i - L * q)) (bitOf c),
      Nat.mul_assoc (2 ^ (i - L * q)) 2, Nat.add_assoc]

/-- The bit that begins a window: the buffer is the window before. -/
theorem ScanInv.flush (hL : 0 < L) (h : ScanInv L v q (L * (q + 1)) buffer (c :: cs)) :
    digit L v q = buffer ∧ ScanInv L v (q + 1) (L * (q + 1) + 1) (bitOf c) cs := by
  have hsub : L * (q + 1) - L * q = L := by
    rw [Nat.mul_succ, Nat.add_sub_cancel_left]
  have hlt := h.buffer_lt
  have hval := h.value
  rw [hsub] at hlt hval
  refine ⟨?_, Or.inr (Nat.lt_succ_self _), ?_, ?_, ?_⟩
  · rw [digit, hval, Nat.add_mul_mod_self_left, Nat.mod_eq_of_lt hlt]
  · rw [Nat.mul_succ L (q + 1)]
    omega
  · rw [Nat.add_sub_cancel_left]
    exact Nat.lt_of_le_of_lt (bitOf_le c) (by decide)
  · rw [Nat.mul_succ L q, Nat.pow_add, ← Nat.div_div_eq_div_mul, hval, Nat.add_mul_div_left _ _ (Nat.two_pow_pos L),
      Nat.div_eq_of_lt hlt, Nat.zero_add, bitsVal_cons, Nat.add_sub_cancel_left]
    rfl

/-- **The loop adds the windows that end before the last bit.** -/
theorem scan_eq (pp : List G) (hL : 0 < L) (h₆₄ : L ≤ 64) : ∀ (cs : List Char) (q i buffer : Nat) (out : G),
    ScanInv L v q i buffer cs →
      (scan pp L cs i buffer out).toOption = addWindows (entry pp L) L v q ((i + cs.length - 1) / L - q) out
  | [], q, i, buffer, out, h      => by
    have hq : (i - 1) / L ≤ q := by
      have hwithin := h.within
      have hpos : 0 < L * (q + 1) := Nat.mul_pos hL q.succ_pos
      exact Nat.lt_succ_iff.1 (Nat.div_lt_of_lt_mul (by show i - 1 < L * (q + 1); omega))
    rw [List.length_nil, Nat.add_zero, Nat.sub_eq_zero_of_le hq]
    rfl
  | c :: cs, q, i, buffer, out, h => by
    have hlen : i + (c :: cs).length = i + 1 + cs.length := by
      rw [List.length_cons]
      omega
    rw [hlen]
    by_cases hi : i = L * (q + 1)
    · -- the window `q` is full
      subst hi
      obtain ⟨hdigit, hnext⟩ := h.flush hL
      have hcount : (L * (q + 1) + 1 + cs.length - 1) / L - q = (L * (q + 1) + 1 + cs.length - 1) / L - (q + 1) + 1 := by
        have : q + 1 ≤ (L * (q + 1) + 1 + cs.length - 1) / L := by
          rw [Nat.le_div_iff_mul_le hL, Nat.mul_comm]
          omega
        omega
      have ih := fun out => scan_eq pp hL h₆₄ cs (q + 1) (L * (q + 1) + 1) (bitOf c) out hnext
      rw [hcount, addWindows, addWindow, hdigit]
      by_cases hb : buffer = 0
      · have hmod : L * (q + 1) % L = 0 := Nat.mul_mod_right L (q + 1)
        rw [if_pos hb, Option.bind_some, scan_cons_stay hL h₆₄ (fun hc => hc.2 hb), hmod, hb, Nat.zero_add, Nat.pow_zero, Nat.mul_one,
          ih out]
      · rw [if_neg hb, scan_cons_flush hL h₆₄ hb]
        congr 1
        funext out'
        exact ih out'
    · obtain ⟨hmod, hnext⟩ := h.stay (Nat.lt_of_le_of_ne h.within hi)
      have hstay : ¬(i % L = 0 ∧ buffer ≠ 0) := by
        rintro ⟨h₀, hne⟩
        rcases h.begun with ⟨-, -, hzero⟩ | hlt
        · exact hne hzero
        · omega
      rw [scan_cons_stay hL h₆₄ hstay, hmod, scan_eq pp hL h₆₄ cs q (i + 1) _ out hnext]

end

/-! ## The number of the printed form -/

theorem hexBin_hexDigit {d : Nat} (h : d < 16) :
    (hexBin (hexDigit d)).length = 4 ∧ bitsVal (hexBin (hexDigit d)).reverse = d := by
  have hall : ∀ d : Fin 16, (hexBin (hexDigit d)).length = 4 ∧ bitsVal (hexBin (hexDigit d)).reverse = d := by decide
  exact hall ⟨d, h⟩

theorem hexDigits_flatMap : ∀ k n : Nat, ((hexDigits k n).flatMap hexBin).length = 4 * k ∧
    bitsVal ((hexDigits k n).flatMap hexBin).reverse = n % 16 ^ k
  | 0, n     => ⟨rfl, (Nat.mod_one n).symm⟩
  | k + 1, n => by
    obtain ⟨hlen, hval⟩ := hexDigits_flatMap k (n / 16)
    obtain ⟨hlen₁, hval₁⟩ := hexBin_hexDigit (Nat.mod_lt n (by decide : 16 > 0))
    have happ : (hexDigits (k + 1) n).flatMap hexBin = (hexDigits k (n / 16)).flatMap hexBin ++ hexBin (hexDigit (n % 16)) := by
      rw [hexDigits, List.flatMap_append, List.flatMap_singleton]
    constructor
    · rw [happ, List.length_append, hlen, hlen₁]
      omega
    · rw [happ, List.reverse_append, bitsVal_append, List.length_reverse, hlen₁, hval₁, hval, Nat.pow_succ' (m := 16), Nat.mod_mul]
      rfl

/-- The place of the `F` of `Fr(0x`: above it are the digits and a `0`. -/
def fBit : Nat := 260

/-- The number the loop reads. -/
def displayed (n : Fr) : Nat := n + 15 * 2 ^ fBit

theorem two_pow_fBit : 2 ^ fBit = 2 ^ 256 * 2 ^ 4 := by
  have h : fBit = 256 + 4 := rfl
  rw [h, Nat.pow_add]

theorem frModulus_lt : frModulus < 2 ^ 255 := by decide

theorem hexToBin_frDisplay (n : Fr) :
    ∃ binstr, hexToBin (frDisplay n) = some binstr ∧ binstr.length = 264 ∧ bitsVal binstr.reverse = displayed n := by
  obtain ⟨hlen, hval⟩ := hexDigits_flatMap 64 n
  have happ : (frDisplay n).flatMap hexBin = ['1', '1', '1', '1', '0', '0', '0', '0'] ++ (hexDigits 64 n).flatMap hexBin := by
    rw [frDisplay, List.flatMap_append, List.flatMap_append]
    exact List.append_nil _
  refine ⟨_, rfl, ?_, ?_⟩
  · show ((frDisplay n).flatMap hexBin).length = 264
    rw [happ, List.length_append, hlen]
    rfl
  · show bitsVal ((frDisplay n).flatMap hexBin).reverse = displayed n
    have hlt : (n : Nat) < 16 ^ 64 := Nat.lt_trans n.2 (by decide)
    have htop : bitsVal ['0', '0', '0', '0', '1', '1', '1', '1'] = 15 * 2 ^ 4 := by decide
    rw [happ, List.reverse_append, bitsVal_append, List.length_reverse, hlen, hval, Nat.mod_eq_of_lt hlt]
    show (n : Nat) + 2 ^ 256 * bitsVal ['0', '0', '0', '0', '1', '1', '1', '1'] = displayed n
    rw [htop, displayed, two_pow_fBit, Nat.mul_left_comm]

/-! ## The product -/

section

variable {G : Type} [AddCommMonoid G] {L : Nat}

theorem baseOf_eq (hL : L ≤ 16) : baseOf L = 2 ^ L := by
  rw [baseOf, Nat.mod_eq_of_lt (by omega)]

/-- The windows that are added. -/
def flushed (L : Nat) : Nat := 263 / L

omit [AddCommMonoid G] in
theorem toOption_setElem (out : PpObj G) (x : Except G G) :
    (setElem out x).toOption = x.toOption.map fun x => { out with elem := x } := by
  cases x <;> rfl

theorem ppmul_eq (h₁ : 1 ≤ L) (h₆₄ : L ≤ 64) (pp : List G) (hpp : pp ≠ []) (g : G) (n : Fr) (out : PpObj G) :
    ppmul ⟨g, pp, L⟩ n out =
      (addWindows (entry pp L) L (displayed n) 0 (flushed L) 0).map fun x => { out with elem := x } := by
  obtain ⟨binstr, hbin, hlen, hval⟩ := hexToBin_frDisplay n
  have hinv : ScanInv L (displayed n) 0 0 0 binstr.reverse := by
    refine ⟨Or.inl ⟨rfl, rfl, rfl⟩, Nat.zero_le _, Nat.two_pow_pos _, ?_⟩
    rw [hval, Nat.mul_zero, Nat.pow_zero, Nat.div_one, Nat.zero_add, Nat.one_mul]
  have hscan := scan_eq pp h₁ h₆₄ binstr.reverse 0 0 0 (0 • out.elem) hinv
  rw [List.length_reverse, hlen] at hscan
  rw [ppmul, ppmulInto, if_neg (fun h => hpp (List.eq_nil_of_length_eq_zero h)), hbin]
  dsimp only
  rw [toOption_setElem, hscan, zero_nsmul]
  rfl

/-- The table's length is that of `PyG1`, or what the other way to round gives; and it fits. -/
structure SizeOk (l : Layout) (L : Nat) : Prop where
  lo : (2 ^ L - 1) * ((254 + L) / L) ≤ l.size L
  hi : l.size L ≤ (2 ^ L - 1) * (254 + L) / L
  fits : ¬ l.Panics L

theorem PyG1.sizeOk (h₁ : 1 ≤ L) (hL : L ≤ 16) : SizeOk PyG1.layout L := by
  have h : PyG1.size L = (2 ^ L - 1) * ((254 + L) / L) := by
    rw [PyG1.size, baseOf_eq hL]
    congr 2
    omega
  have hle : PyG1.size L ≤ (2 ^ L - 1) * (254 + L) / L := h ▸ Nat.mul_div_le_mul_div_assoc _ _ _
  refine ⟨Nat.le_of_eq h.symm, hle, ?_⟩
  interval_cases L <;> decide

theorem PyG2.size_eq (hL : L ≤ 16) : PyG2.size L = (2 ^ L - 1) * (254 + L) / L := by
  rw [PyG2.size, baseOf_eq hL]
  congr 2
  omega

theorem PyG2.sizeOk (h₁ : 1 ≤ L) (hL : L ≤ 16) : SizeOk PyG2.layout L := by
  have h := PyG2.size_eq hL
  have hle : (2 ^ L - 1) * ((254 + L) / L) ≤ PyG2.size L := h ▸ Nat.mul_div_le_mul_div_assoc _ _ _
  refine ⟨hle, Nat.le_of_eq h, ?_⟩
  interval_cases L <;> decide

theorem PyFq12.sizeOk (h₁ : 1 ≤ L) (hL : L ≤ 16) : SizeOk PyFq12.layout L := by
  have h : PyFq12.size L = (2 ^ L - 1) * (254 + L) / L := PyG2.size_eq hL
  have hle : (2 ^ L - 1) * ((254 + L) / L) ≤ PyFq12.size L := h ▸ Nat.mul_div_le_mul_div_assoc _ _ _
  refine ⟨hle, Nat.le_of_eq h, ?_⟩
  interval_cases L <;> decide

/-- The table of `preprocess`. -/
def tableOf (size : Nat → Nat) (L : Nat) (g : G) : List G := (List.range (size L)).map (multipleAt g (2 ^ L))

variable {size : Nat → Nat} {l : Layout}

theorem SizeOk.block_le (h₁ : 1 ≤ L) (hsize : SizeOk l L) {b : Nat} (hb : b ≤ 254 / L) :
    (2 ^ L - 1) * (b + 1) ≤ l.size L := by
  have hdiv : (254 + L) / L = 254 / L + 1 := Nat.add_div_right 254 h₁
  exact Nat.le_trans (Nat.mul_le_mul_left _ (by omega)) hsize.lo

theorem two_le_pow (h₁ : 1 ≤ L) : 2 ≤ 2 ^ L := Nat.le_self_pow (by omega) 2

theorem tableOf_ne_nil (h₁ : 1 ≤ L) (hsize : SizeOk l L) {g : G} : tableOf l.size L g ≠ [] := by
  have hpow := two_le_pow h₁
  have hblock := hsize.block_le h₁ (Nat.zero_le (254 / L))
  rw [Ne, tableOf, List.map_eq_nil_iff, List.range_eq_nil]
  omega

theorem preprocess_of_le (h₁ : 1 ≤ L) (hL : L ≤ 16) (hfits : ¬ l.Panics L) (hsize : 2 ^ L - 1 ≤ l.size L) (o : PpObj G) :
    preprocess l o L = some ⟨o.elem, tableOf l.size L o.elem, L⟩ := by
  have hlen : 2 ^ L - 1 + (l.size L - (2 ^ L - 1)) = l.size L := Nat.add_sub_cancel' hsize
  rw [preprocess, if_neg hfits, baseOf_eq hL, fill_eq o.elem (two_le_pow h₁), hlen]
  rfl

theorem preprocess_eq (h₁ : 1 ≤ L) (hL : L ≤ 16) (hsize : SizeOk l L) (o : PpObj G) :
    preprocess l o L = some ⟨o.elem, tableOf l.size L o.elem, L⟩ := by
  refine preprocess_of_le h₁ hL hsize.fits ?_ o
  have := hsize.block_le h₁ (Nat.zero_le (254 / L))
  omega

omit [AddCommMonoid G] in
theorem entry_eq (hL : L ≤ 16) (pp : List G) (b d : Nat) : entry pp L b d = pp[(2 ^ L - 1) * b + (d - 1)]? := by
  rw [entry, if_neg (by omega), baseOf_eq hL]

theorem entry_tableOf (hL : L ≤ 16) {b d : Nat} {g : G} (hd : d ≠ 0) (hlt : d < 2 ^ L)
    (hidx : (2 ^ L - 1) * b + (d - 1) < size L) : IsMultiple (entry (tableOf size L g) L) L g b d := by
  rw [IsMultiple, entry_eq hL, tableOf, range_map_getElem? hidx, multipleAt_block g (by omega) (by omega), Nat.pow_mul]

theorem entry_tableOf_none (hL : L ≤ 16) {b d : Nat} {g : G} (hidx : size L ≤ (2 ^ L - 1) * b + (d - 1)) :
    entry (tableOf size L g) L b d = none := by
  rw [entry_eq hL, tableOf, List.getElem?_eq_none_iff, List.length_map, List.length_range]
  exact hidx

/-! ## The windows of the printed form -/

theorem displayed_mod (n : Fr) {k : Nat} (hk : k ≤ fBit) : displayed n % 2 ^ k = n % 2 ^ k := by
  have hpow : 2 ^ fBit = 2 ^ k * 2 ^ (fBit - k) := by
    rw [← Nat.pow_add, Nat.add_sub_cancel' hk]
  rw [displayed, hpow, Nat.mul_left_comm, Nat.add_mul_mod_self_left]

theorem digit_displayed (n : Fr) {b : Nat} (hb : L * (b + 1) ≤ fBit) : digit L (displayed n) b = digit L n b := by
  rw [Nat.mul_succ] at hb
  rw [digit, digit, ← Nat.mod_mul_right_div_self, ← Nat.mod_mul_right_div_self, ← Nat.pow_add, displayed_mod n hb]

theorem lt_of_ge_255 (n : Fr) {k : Nat} (hk : 255 ≤ k) : (n : Nat) < 2 ^ k :=
  Nat.lt_of_lt_of_le (Nat.lt_trans n.2 frModulus_lt) (Nat.pow_le_pow_right (by decide) hk)

/-- A window of the scalar that is not zero has a block in the table. -/
theorem le_of_digit_ne_zero (h₁ : 1 ≤ L) (n : Fr) {b : Nat} (hd : digit L n b ≠ 0) : b ≤ 254 / L := by
  refine Nat.le_of_not_lt (fun hlt => hd (digit_eq_zero (lt_of_ge_255 n ?_)))
  have := (Nat.div_lt_iff_lt_mul h₁).1 hlt
  rw [Nat.mul_comm] at this
  omega

/-- From level 4 on the windows of the prefix are zero, not added, or, at level 9, in the scalar's last block. -/
theorem flushed_le (h₄ : 4 ≤ L) (hL : L ≤ 16) : L * flushed L ≤ fBit ∨ flushed L ≤ 254 / L + 1 := by
  unfold flushed fBit
  interval_cases L <;> decide

/-- **From level 4 on the product is the multiple by the bits of the windows added.** -/
theorem ppmul_preprocess_eq (h₄ : 4 ≤ L) (hL : L ≤ 16) (hsize : SizeOk l L) (o out : PpObj G) (n : Fr) :
    (preprocess l o L).bind (ppmul · n out) =
      some { out with elem := (displayed n % 2 ^ (L * flushed L)) • o.elem } := by
  have h₁ : 1 ≤ L := by omega
  have hwindow : ∀ b, 0 ≤ b → b < 0 + flushed L → digit L (displayed n) b ≠ 0 →
      IsMultiple (entry (tableOf l.size L o.elem) L) L o.elem b (digit L (displayed n) b) := by
    intro b _ hb hd
    have hlt := digit_lt L (displayed n) b
    have hblock : b ≤ 254 / L := by
      rcases flushed_le h₄ hL with hfew | hlast
      · have hin : L * (b + 1) ≤ fBit := Nat.le_trans (Nat.mul_le_mul_left L (by omega)) hfew
        rw [digit_displayed n hin] at hd
        exact le_of_digit_ne_zero h₁ n hd
      · omega
    have hsucc := hsize.block_le h₁ hblock
    rw [Nat.mul_succ] at hsucc
    exact entry_tableOf hL hd hlt (by omega)
  have hadd := addWindows_eq (g := o.elem) (flushed L) 0 hwindow
  rw [Nat.mul_zero, Nat.pow_zero, Nat.mod_one, zero_nsmul, Nat.zero_add] at hadd
  rw [preprocess_eq h₁ hL hsize, Option.bind_some, ppmul_eq h₁ (by omega) _ (tableOf_ne_nil h₁ hsize), hadd]
  rfl

/-- The window the `F` begins in. -/
theorem digit_displayed_f (h₁ : 1 ≤ L) (h₃ : L ≤ 3) (n : Fr) :
    digit L (displayed n) (fBit / L) = 15 * 2 ^ (fBit % L) % 2 ^ L := by
  have hpow : 2 ^ fBit = 2 ^ (L * (fBit / L)) * 2 ^ (fBit % L) := by
    rw [← Nat.pow_add, Nat.div_add_mod]
  have hlt : (n : Nat) < 2 ^ (L * (fBit / L)) := by
    refine lt_of_ge_255 n ?_
    have := Nat.div_add_mod fBit L
    have := Nat.mod_lt fBit h₁
    have : fBit = 260 := rfl
    omega
  rw [digit, displayed, hpow, Nat.mul_left_comm, Nat.add_mul_div_left _ _ (Nat.two_pow_pos _), Nat.div_eq_of_lt hlt, Nat.zero_add]

/-- **Up to level 3 the window of the `F` is added, and has no entry.** -/
theorem ppmul_preprocess_none (h₁ : 1 ≤ L) (h₃ : L ≤ 3) (hsize : SizeOk l L) (o out : PpObj G) (n : Fr) :
    (preprocess l o L).bind (ppmul · n out) = none := by
  have hL : L ≤ 16 := by omega
  have hd := digit_displayed_f h₁ h₃ n
  have hnum : 15 * 2 ^ (fBit % L) % 2 ^ L ≠ 0 ∧ fBit / L < 0 + flushed L ∧ 254 / L + 1 ≤ fBit / L ∧
      (2 ^ L - 1) * (254 + L) / L ≤ (2 ^ L - 1) * (fBit / L) + (15 * 2 ^ (fBit % L) % 2 ^ L - 1) := by
    unfold flushed fBit
    interval_cases L <;> decide
  obtain ⟨hne, hlt, -, hidx⟩ := hnum
  have hentry : entry (tableOf l.size L o.elem) L (fBit / L) (digit L (displayed n) (fBit / L)) = none := by
    rw [hd]
    exact entry_tableOf_none hL (Nat.le_trans hsize.hi hidx)
  rw [preprocess_eq h₁ hL hsize, Option.bind_some, ppmul_eq h₁ (by omega) _ (tableOf_ne_nil h₁ hsize),
    addWindows_none (hd ▸ hne) hentry (flushed L) 0 0 (Nat.zero_le _) hlt]
  rfl

/-! ## When that is the scalar's multiple -/

theorem displayed_mod_nine (n : Fr) : displayed n % 2 ^ (9 * flushed 9) = n + 2 ^ fBit := by
  have hlt : (n : Nat) + 2 ^ fBit < 2 ^ (fBit + 1) := by
    have := lt_of_ge_255 n (k := fBit) (by decide)
    rw [Nat.pow_succ]
    omega
  have hsum : displayed n = n + 2 ^ fBit + 2 ^ (fBit + 1) * 7 := by
    rw [displayed, Nat.pow_succ]
    omega
  have hbits : 9 * flushed 9 = fBit + 1 := rfl
  rw [hbits, hsum, Nat.add_mul_mod_self_left, Nat.mod_eq_of_lt hlt]

/-- The product at a level is right for the scalar and the element. -/
structure Works (L : Nat) (n : Fr) (g : G) : Prop where
  level : 4 ≤ L
  -- the lowest bit of the `F` is added at level 9
  fBitZero : L = 9 → 2 ^ fBit • g = 0
  -- the scalar's last window is not added at these
  lastZero : L = 11 ∨ L = 12 ∨ L = 14 → ((n : Nat) - n % 2 ^ (L * flushed L)) • g = 0

theorem displayed_nsmul_iff (h₄ : 4 ≤ L) (hL : L ≤ 16) (n : Fr) {g : G} (hg : ∀ k : Nat, Function.Injective (k • g + ·)) :
    (displayed n % 2 ^ (L * flushed L)) • g = (n : Nat) • g ↔ Works L n g := by
  have hcases : L = 9 ∨ (L = 11 ∨ L = 12 ∨ L = 14) ∧ L * flushed L ≤ fBit ∨
      L ≠ 9 ∧ ¬(L = 11 ∨ L = 12 ∨ L = 14) ∧ L * flushed L ≤ fBit ∧ 255 ≤ L * flushed L := by
    unfold flushed fBit
    interval_cases L <;> decide
  rcases hcases with rfl | ⟨hlast, hfew⟩ | ⟨h₉, hlast, hfew, hall⟩
  · rw [displayed_mod_nine, add_nsmul]
    constructor
    · intro h
      exact ⟨h₄, fun _ => hg n (h.trans (add_zero _).symm), fun h => absurd h (by decide)⟩
    · intro h
      rw [h.fBitZero rfl, add_zero]
  · have hsplit : (n : Nat) • g = ((n : Nat) % 2 ^ (L * flushed L)) • g + ((n : Nat) - n % 2 ^ (L * flushed L)) • g := by
      rw [← add_nsmul, Nat.add_sub_cancel' (Nat.mod_le _ _)]
    rw [displayed_mod n hfew]
    constructor
    · intro h
      refine ⟨h₄, fun h₉ => absurd hlast (by subst h₉; decide), fun _ => ?_⟩
      rw [hsplit] at h
      exact (hg _ ((add_zero _).trans h)).symm
    · intro h
      rw [hsplit, h.lastZero hlast, add_zero]
  · rw [displayed_mod n hfew, Nat.mod_eq_of_lt (lt_of_ge_255 n hall)]
    exact ⟨fun _ => ⟨h₄, fun h => absurd h h₉, fun h => absurd h hlast⟩, fun _ => rfl⟩

/-- The orders of an element that two numbers without a common factor kill. -/
theorem eq_zero_of_coprime {g : G} {a b : Nat} (hab : Nat.Coprime a b) (ha : a • g = 0) (hb : b • g = 0) : g = 0 := by
  have hdvd := Nat.dvd_gcd (addOrderOf_dvd_of_nsmul_eq_zero ha) (addOrderOf_dvd_of_nsmul_eq_zero hb)
  rw [hab, Nat.dvd_one] at hdvd
  exact AddMonoid.addOrderOf_eq_one_iff.1 hdvd

theorem coprime_two_pow (k : Nat) : Nat.Coprime (2 ^ k) frModulus := Nat.Coprime.pow_left k (by decide)

/-- **In a group of the order of `Fr` level 9 is wrong for every element but zero**, and the levels 11, 12 and 14 are for
the scalars that reach their last window. -/
theorem works_iff (n : Fr) {g : G} (hg : g ≠ 0) (horder : frModulus • g = 0) :
    Works L n g ↔ 4 ≤ L ∧ L ≠ 9 ∧ (L = 11 ∨ L = 12 ∨ L = 14 → (n : Nat) < 2 ^ (L * flushed L)) := by
  constructor
  · intro h
    refine ⟨h.level, fun h₉ => hg (eq_zero_of_coprime (coprime_two_pow fBit) (h.fBitZero h₉) horder), fun hL => ?_⟩
    have hzero := h.lastZero hL
    have hk : (n : Nat) / 2 ^ (L * flushed L) < 8 := by
      have hbits : 252 ≤ L * flushed L := by
        rcases hL with rfl | rfl | rfl <;> decide
      refine Nat.div_lt_of_lt_mul (Nat.lt_of_lt_of_le (Nat.lt_trans n.2 frModulus_lt) ?_)
      calc 2 ^ 255 = 2 ^ 252 * 8 := rfl
        _ ≤ 2 ^ (L * flushed L) * 8 := Nat.mul_le_mul_right 8 (Nat.pow_le_pow_right (by decide) hbits)
    have hcoprime : ∀ k < 8, k ≠ 0 → Nat.Coprime k frModulus := by decide
    have hsplit : (n : Nat) - n % 2 ^ (L * flushed L) = 2 ^ (L * flushed L) * (n / 2 ^ (L * flushed L)) := by
      have := Nat.mod_add_div n (2 ^ (L * flushed L))
      omega
    refine Nat.lt_of_not_le (fun hle => hg (eq_zero_of_coprime ?_ hzero horder))
    rw [hsplit]
    exact Nat.Coprime.mul_left (coprime_two_pow _) (hcoprime _ hk (Nat.div_pos hle (Nat.two_pow_pos _)).ne')
  · rintro ⟨h₄, h₉, hlast⟩
    refine ⟨h₄, fun h => absurd h h₉, fun h => ?_⟩
    rw [Nat.mod_eq_of_lt (hlast h), Nat.sub_self, zero_nsmul]

/-- The object without its table. -/
def plain (o : PpObj G) : PpObj G := ⟨o.elem, [], 0⟩

theorem bind_ppmul_iff (h₁ : 1 ≤ L) (hL : L ≤ 16) (hsize : SizeOk l L) (n : Fr) (o out : PpObj G)
    (hg : ∀ k : Nat, Function.Injective (k • o.elem + ·)) :
    (preprocess l o L).bind (ppmul · n out) = ppmul (plain o) n out ↔ Works L n o.elem := by
  have hplain : ppmul (plain o) n out = some { out with elem := (n : Nat) • o.elem } := rfl
  by_cases h₄ : 4 ≤ L
  · rw [ppmul_preprocess_eq h₄ hL hsize, hplain, ← displayed_nsmul_iff h₄ hL n hg, Option.some_inj]
    constructor
    · intro h
      exact congrArg PpObj.elem h
    · intro h
      rw [h]
  · rw [ppmul_preprocess_none h₁ (by omega) hsize, hplain]
    constructor
    · intro h
      cases h
    · intro h
      exact absurd h.level h₄

end

/-- **The preprocessed product is the plain one exactly when the level is at least 4, the bit of the `F` added at level 9
gives zero, and so does what is above the windows added at 11, 12 and 14**: for `G1`, `G2` and the nonzero elements of
`Fq12`, whatever `out` and the table were before. -/
theorem ppmul_preprocess_iff {G₁ G₂ K : Type} [AddCommGroup G₁] [AddCommGroup G₂] [Field K] {L : Nat} (h₁ : 1 ≤ L)
    (hL : L ≤ 16) (n : Fr) :
    (∀ o out : PpObj G₁, (PyG1.preprocess o L).bind (PyG1.ppmul · n out) = PyG1.ppmul (plain o) n out ↔ Works L n o.elem) ∧
    (∀ o out : PpObj G₂, (PyG2.preprocess o L).bind (PyG2.ppmul · n out) = PyG2.ppmul (plain o) n out ↔ Works L n o.elem) ∧
    (∀ o out : PpObj (Additive K), o.elem.toMul ≠ 0 →
      ((PyFq12.preprocess o L).bind (PyFq12.pppow · n out) = PyFq12.pppow (plain o) n out ↔ Works L n o.elem)) := by
  refine ⟨fun o out => ?_, fun o out => ?_, fun o out hne => ?_⟩
  · exact bind_ppmul_iff h₁ hL (PyG1.sizeOk h₁ hL) n o out (fun k => add_right_injective _)
  · exact bind_ppmul_iff h₁ hL (PyG2.sizeOk h₁ hL) n o out (fun k => add_right_injective _)
  · have hpow : ∀ k : Nat, Function.Injective (o.elem.toMul ^ k * ·) := fun k => mul_right_injective₀ (pow_ne_zero k hne)
    exact bind_ppmul_iff h₁ hL (PyFq12.sizeOk h₁ hL) n o out hpow

/-- At level 4 every product is right. -/
theorem ppmul_preprocess_iff_four :
    let g : PpObj (ZMod frModulus) := ⟨1, [], 0⟩
    (PyG1.preprocess g 4).bind (PyG1.ppmul · ⟨5, by decide⟩ g) = PyG1.ppmul (plain g) ⟨5, by decide⟩ g :=
  ((@ppmul_preprocess_iff (ZMod frModulus) (ZMod frModulus) Rat _ _ _ 4 (by decide) (by decide) ⟨5, by decide⟩).1
    ⟨1, [], 0⟩ ⟨1, [], 0⟩).2 ⟨by decide, fun h => absurd h (by decide), fun h => absurd h (by decide)⟩

/-- At level 1 the table has 255 entries, and the bits of the `F` are looked up from 260 on. -/
theorem ppmul_preprocess_counterexample : ¬ ∀ (L : Nat) (n : Fr) (o out : PpObj (ZMod frModulus)), 1 ≤ L → L ≤ 16 →
    (PyG1.preprocess o L).bind (PyG1.ppmul · n out) = PyG1.ppmul (plain o) n out := by
  intro h
  let g : PpObj (ZMod frModulus) := ⟨1, [], 0⟩
  have hpanic := ppmul_preprocess_none (Nat.le_refl 1) (by decide) (PyG1.sizeOk (Nat.le_refl 1) (by decide)) g g ⟨1, by decide⟩
  have hsome : none = some _ := hpanic.symm.trans (h 1 ⟨1, by decide⟩ g g (Nat.le_refl 1) (by decide))
  cases hsome

end Pairing
end Dpid
