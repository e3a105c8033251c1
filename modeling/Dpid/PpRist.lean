import Dpid.PpFresh
/-!
# PpRist — multiplying a Ristretto point through its table (`pairing/src/lib.rs`: `PyRistG`)

The text of a scalar is its bytes alone, and the last window is added at the bit 255, so the loop adds every window.  The
table has a block for each window of 252 bits; the group order has one more.
-/
namespace Dpid
namespace Pairing

open Windows

/-- The order of the group. -/
def ristOrder : Nat := 2 ^ 252 + 27742317777372353535851937790883648493

theorem ristOrder_lt : ristOrder < 2 ^ 253 := by decide

/-! ## The text of a scalar -/

theorem length_hexDigits : ∀ k n : Nat, (hexDigits k n).length = k
  | 0, _     => rfl
  | k + 1, n => by rw [hexDigits, List.length_append, length_hexDigits k, List.length_singleton]

theorem hexDigit_ne_x (d : Nat) : hexDigit d ≠ 'x' := by
  unfold hexDigit
  split <;> decide

theorem ne_x_of_mem_hexDigits {c : Char} : ∀ {k n : Nat}, c ∈ hexDigits k n → c ≠ 'x'
  | 0, _, h     => absurd h List.not_mem_nil
  | k + 1, n, h => by
    rw [hexDigits] at h
    rcases List.mem_append.1 h with h | h
    · exact ne_x_of_mem_hexDigits h
    · rw [List.mem_singleton.1 h]
      exact hexDigit_ne_x _

/-- No digit is taken for the prefix `0x`. -/
theorem hexToBin_hexDigits {k : Nat} (hk : 2 ≤ k) (n : Nat) :
    hexToBin (hexDigits k n) = some ((hexDigits k n).flatMap hexBin) := by
  have hlt : 1 < (hexDigits k n).length := by rw [length_hexDigits]; exact hk
  have hne := ne_x_of_mem_hexDigits (List.getElem_mem hlt)
  unfold hexToBin
  rw [List.getElem?_eq_getElem hlt]
  simp only [bind, Option.bind, pure, if_neg hne]

/-! ## The loop -/

section

variable {G : Type} [AddCommMonoid G] {L v q i buffer : Nat} {c : Char} {cs : List Char}

/-- The second half of the loop's body, and the bits after it. -/
def ristFlush (pp : List G) (level : Nat) (cs : List Char) (i buffer : Nat) (out : G) : Except G G := do
  let (out, buffer) ← flush (i = 255 ∧ buffer ≠ 0) pp level (i / level) buffer out
  ristScan pp level cs (i + 1) buffer out

theorem ristScan_stay (h₀ : 0 < L) (h₆₄ : L ≤ 64) {pp : List G} {out : G} (h : ¬(i % L = 0 ∧ buffer ≠ 0)) :
    ristScan pp L (c :: cs) i buffer out = ristFlush pp L cs i (buffer + bitOf c * 2 ^ (i % L)) out := by
  rw [ristScan, if_neg h₀.ne', flush, if_neg h]
  simp only [bind, Except.bind, pushBit_eq (mod_lt_64 h₀ h₆₄ i)]
  rfl

theorem ristScan_flush (h₀ : 0 < L) (h₆₄ : L ≤ 64) {pp : List G} {out : G} (hb : buffer ≠ 0) :
    (ristScan pp L (c :: cs) (L * (q + 1)) buffer out).toOption =
      ((entry pp L q buffer).map (out + ·)).bind fun out => (ristFlush pp L cs (L * (q + 1)) (bitOf c) out).toOption := by
  have hmod : L * (q + 1) % L = 0 := Nat.mul_mod_right L (q + 1)
  have hdiv : L * (q + 1) / L - 1 = q := by
    rw [Nat.mul_div_cancel_left _ h₀, Nat.add_sub_cancel]
  rw [ristScan, if_neg h₀.ne', flush, if_pos ⟨hmod, hb⟩, hdiv]
  cases entry pp L q buffer with
  | none   => rfl
  | some x =>
    simp only [bind, Except.bind, pushBit_eq (mod_lt_64 h₀ h₆₄ (L * (q + 1))), hmod, Nat.pow_zero, Nat.mul_one,
      Nat.zero_add]
    rfl

theorem ristFlush_last {pp : List G} {out : G} (hq : 255 / L = q) (hwithin : 256 ≤ L * (q + 1))
    (h : ScanInv L v q 256 buffer []) :
    (ristFlush pp L [] 255 buffer out).toOption = addWindows (entry pp L) L v q 1 out := by
  have hdigit : digit L v q = buffer := by
    have hval : v / 2 ^ (L * q) = buffer := h.value
    have hlt : buffer < 2 ^ L :=
      Nat.lt_of_lt_of_le h.buffer_lt (Nat.pow_le_pow_right (by decide) (by rw [Nat.mul_succ] at hwithin; omega))
    rw [digit, hval, Nat.mod_eq_of_lt hlt]
  rw [ristFlush, hq, addWindows, addWindow, hdigit, flush]
  by_cases hb : buffer = 0
  · subst hb
    rfl
  · rw [if_pos ⟨rfl, hb⟩, if_neg hb]
    cases entry pp L q buffer <;> rfl

/-- **The loop adds every window of the 256 bits.** -/
theorem ristScan_eq (pp : List G) (hL : 0 < L) (h₆₄ : L ≤ 64) : ∀ (cs : List Char) (q i buffer : Nat) (out : G),
    ScanInv L v q i buffer cs → cs ≠ [] → i + cs.length = 256 →
      (ristScan pp L cs i buffer out).toOption = addWindows (entry pp L) L v q (255 / L - q + 1) out
  | [], _, _, _, _, _, hne, _           => absurd rfl hne
  | c :: cs, q, i, buffer, out, h, _, hlen => by
    rw [List.length_cons] at hlen
    -- what is left once the bit is in the buffer of the window `q'`
    have hrest : ∀ (q' buffer' : Nat) (out' : G), L * q' ≤ i → i < L * (q' + 1) → ScanInv L v q' (i + 1) buffer' cs →
        (ristFlush pp L cs i buffer' out').toOption = addWindows (entry pp L) L v q' (255 / L - q' + 1) out' := by
      intro q' buffer' out' hle hlt hinv
      by_cases hi : i = 255
      · subst hi
        obtain rfl : cs = [] := List.eq_nil_of_length_eq_zero (by omega)
        have hq' : 255 / L = q' := by
          rw [Nat.mul_comm] at hle hlt
          exact Nat.div_eq_of_lt_le hle hlt
        rw [hq', Nat.sub_self]
        exact ristFlush_last hq' hlt hinv
      · rw [ristFlush, flush, if_neg (fun hc => hi hc.1)]
        exact ristScan_eq pp hL h₆₄ cs q' (i + 1) buffer' out' hinv (List.ne_nil_of_length_pos (by omega)) (by omega)
    by_cases hi : i = L * (q + 1)
    · -- the window `q` is full
      subst hi
      obtain ⟨hdigit, hnext⟩ := h.flush hL
      have hcount : 255 / L - q + 1 = 255 / L - (q + 1) + 1 + 1 := by
        have : q + 1 ≤ 255 / L := by
          rw [Nat.le_div_iff_mul_le hL, Nat.mul_comm]
          omega
        omega
      have ih := fun out => hrest (q + 1) (bitOf c) out (Nat.le_refl _) (by rw [Nat.mul_succ L (q + 1)]; omega) hnext
      rw [hcount, addWindows, addWindow, hdigit]
      by_cases hb : buffer = 0
      · have hmod : L * (q + 1) % L = 0 := Nat.mul_mod_right L (q + 1)
        rw [if_pos hb, Option.bind_some, ristScan_stay hL h₆₄ (fun hc => hc.2 hb), hmod, hb, Nat.zero_add, Nat.pow_zero,
          Nat.mul_one, ih out]
      · rw [if_neg hb, ristScan_flush hL h₆₄ hb]
        congr 1
        funext out'
        exact ih out'
    · have hlt := Nat.lt_of_le_of_ne h.within hi
      obtain ⟨hmod, hnext⟩ := h.stay hlt
      have hle : L * q ≤ i := by
        rcases h.begun with ⟨rfl, rfl, -⟩ | h'
        · exact Nat.le_refl _
        · exact Nat.le_of_lt h'
      have hstay : ¬(i % L = 0 ∧ buffer ≠ 0) := by
        rintro ⟨h₀, hne⟩
        rcases h.begun with ⟨-, -, hzero⟩ | hlt
        · exact hne hzero
        · omega
      rw [ristScan_stay hL h₆₄ hstay, hmod]
      exact hrest q _ out hle hlt hnext

theorem ristPpmul_eq (h₁ : 1 ≤ L) (h₆₄ : L ≤ 64) (pp : List G) (hpp : pp ≠ []) (g : G) (n : RistScalar) (out : PpObj G) :
    PyRistG.ppmul ⟨g, pp, L⟩ n out =
      (addWindows (entry pp L) L n 0 (255 / L + 1) 0).map fun x => { out with elem := x } := by
  obtain ⟨hlen, hval⟩ := hexDigits_flatMap 64 n
  have hbin := hexToBin_hexDigits (by decide : 2 ≤ 64) n
  generalize (hexDigits 64 n).flatMap hexBin = binstr at hlen hval hbin
  rw [Nat.mod_eq_of_lt (Nat.lt_trans n.2 (by decide))] at hval
  have hinv : ScanInv L n 0 0 0 binstr.reverse := by
    refine ⟨Or.inl ⟨rfl, rfl, rfl⟩, Nat.zero_le _, Nat.two_pow_pos _, ?_⟩
    rw [hval, Nat.mul_zero, Nat.pow_zero, Nat.div_one, Nat.zero_add, Nat.one_mul]
  have hlen' : binstr.reverse.length = 256 := by rw [List.length_reverse, hlen]
  have hscan := ristScan_eq pp h₁ h₆₄ _ 0 0 0 (0 • out.elem) hinv (List.ne_nil_of_length_pos (by omega)) (by omega)
  rw [PyRistG.ppmul, PyRistG.ppmulInto, if_neg (fun h => hpp (List.eq_nil_of_length_eq_zero h)), hbin]
  dsimp only
  rw [toOption_setElem, hscan, zero_nsmul]
  rfl

/-! ## The table -/

/-- The blocks of the table. -/
def ristBlocks (L : Nat) : Nat := (252 + L - 1) / L

theorem ristSize_eq (hL : L ≤ 16) : PyRistG.size L = (2 ^ L - 1) * ristBlocks L := by
  rw [PyRistG.size, baseOf_eq hL]
  rfl

theorem one_le_ristBlocks (h₁ : 1 ≤ L) : 1 ≤ ristBlocks L := (Nat.one_le_div_iff h₁).2 (by omega)

/-- The table has a block for the bit 252 only where the level does not divide 252. -/
theorem ristBlocks_le_iff (h₁ : 1 ≤ L) : ristBlocks L ≤ 252 / L ↔ L ∣ 252 := by
  have hdm := Nat.div_add_mod 252 L
  have hlt := Nat.mod_lt 252 h₁
  have hsum : 252 + L - 1 = 252 % L + L - 1 + L * (252 / L) := by omega
  rw [ristBlocks, hsum, Nat.add_mul_div_left _ _ h₁, Nat.dvd_iff_mod_eq_zero]
  constructor
  · intro h
    have hzero : (252 % L + L - 1) / L ≤ 0 := Nat.le_of_add_le_add_right (by rw [Nat.zero_add]; exact h)
    have := (Nat.div_eq_zero_iff_lt h₁).1 (Nat.le_zero.1 hzero)
    omega
  · intro h
    rw [h, Nat.zero_add, Nat.div_eq_of_lt (by omega), Nat.zero_add]

theorem ristPreprocess_eq (h₁ : 1 ≤ L) (hL : L ≤ 16) (o : PpObj G) :
    PyRistG.preprocess o L = some ⟨o.elem, tableOf PyRistG.size L o.elem, L⟩ := by
  have hfits : ¬PyRistG.layout.Panics L := by
    interval_cases L <;> decide
  have hsize : 2 ^ L - 1 ≤ PyRistG.size L := by
    rw [ristSize_eq hL]
    exact Nat.le_mul_of_pos_right _ (one_le_ristBlocks h₁)
  exact preprocess_of_le h₁ hL hfits hsize o

theorem ristTable_ne_nil (h₁ : 1 ≤ L) (hL : L ≤ 16) {g : G} : tableOf PyRistG.size L g ≠ [] := by
  have hpow := two_le_pow h₁
  have hle := Nat.le_mul_of_pos_right (2 ^ L - 1) (one_le_ristBlocks h₁)
  rw [Ne, tableOf, List.map_eq_nil_iff, List.range_eq_nil, ristSize_eq hL]
  omega

theorem ristDigit_top {n : Nat} (h₁ : 1 ≤ L) (hge : 2 ^ 252 ≤ n) (hlt : n < 2 ^ 253) : digit L n (252 / L) ≠ 0 := by
  have hdm := Nat.div_add_mod 252 L
  have hmod := Nat.mod_lt 252 h₁
  have hpos : 1 ≤ n / 2 ^ (L * (252 / L)) :=
    (Nat.one_le_div_iff (Nat.two_pow_pos _)).2 (Nat.le_trans (Nat.pow_le_pow_right (by decide) (by omega)) hge)
  have hsmall : n / 2 ^ (L * (252 / L)) < 2 ^ L := by
    refine Nat.div_lt_of_lt_mul (Nat.lt_of_lt_of_le hlt ?_)
    rw [← Nat.pow_add]
    exact Nat.pow_le_pow_right (by decide) (by omega)
  rw [digit, Nat.mod_eq_of_lt hsmall]
  omega

/-- **Every window has its entry** unless the level divides 252 and the bit 252 is set. -/
theorem ristPpmul_preprocess_eq (h₁ : 1 ≤ L) (hL : L ≤ 16) {n : RistScalar} (hn : (n : Nat) < 2 ^ 253)
    (h : L ∣ 252 → (n : Nat) < 2 ^ 252) (o out : PpObj G) :
    (PyRistG.preprocess o L).bind (PyRistG.ppmul · n out) = some { out with elem := (n : Nat) • o.elem } := by
  have hwindow : ∀ b, 0 ≤ b → b < 0 + (255 / L + 1) → digit L n b ≠ 0 →
      IsMultiple (entry (tableOf PyRistG.size L o.elem) L) L o.elem b (digit L n b) := by
    intro b _ _ hd
    have hlt := digit_lt L n b
    have hblock : b + 1 ≤ ristBlocks L := by
      by_contra hge
      refine hd (digit_eq_zero ?_)
      by_cases hdvd : L ∣ 252
      · have hle := (ristBlocks_le_iff h₁).2 hdvd
        have hone : 252 / L = ristBlocks L := by
          refine Nat.le_antisymm ?_ hle
          exact Nat.div_le_div_right (by omega)
        have hbits : 252 ≤ L * b := by
          rw [← Nat.mul_div_cancel' hdvd]
          exact Nat.mul_le_mul_left L (by omega)
        exact Nat.lt_of_lt_of_le (h hdvd) (Nat.pow_le_pow_right (by decide) hbits)
      · have hgt := Nat.lt_of_not_le (fun hle => hdvd ((ristBlocks_le_iff h₁).1 hle))
        have hbits : 252 < L * b := by
          rw [Nat.mul_comm]
          exact (Nat.div_lt_iff_lt_mul h₁).1 (by omega)
        exact Nat.lt_of_lt_of_le hn (Nat.pow_le_pow_right (by decide) hbits)
    have hsucc := Nat.mul_le_mul_left (2 ^ L - 1) hblock
    rw [Nat.mul_succ, ← ristSize_eq hL] at hsucc
    exact entry_tableOf hL hd hlt (by omega)
  have hall : (n : Nat) % 2 ^ (L * (0 + (255 / L + 1))) = n := by
    refine Nat.mod_eq_of_lt (Nat.lt_of_lt_of_le hn (Nat.pow_le_pow_right (by decide) ?_))
    have := Nat.div_add_mod 255 L
    have := Nat.mod_lt 255 h₁
    rw [Nat.zero_add, Nat.mul_succ]
    omega
  have hadd := addWindows_eq (g := o.elem) (255 / L + 1) 0 hwindow
  rw [Nat.mul_zero, Nat.pow_zero, Nat.mod_one, zero_nsmul, hall] at hadd
  rw [ristPreprocess_eq h₁ hL, Option.bind_some, ristPpmul_eq h₁ (by omega) _ (ristTable_ne_nil h₁ hL), hadd]
  rfl

/-- **The last block is missing** at the other scalars. -/
theorem ristPpmul_preprocess_none (h₁ : 1 ≤ L) (hL : L ≤ 16) {n : RistScalar} (hn : (n : Nat) < 2 ^ 253) (hdvd : L ∣ 252)
    (hge : 2 ^ 252 ≤ (n : Nat)) (o out : PpObj G) : (PyRistG.preprocess o L).bind (PyRistG.ppmul · n out) = none := by
  have hd := ristDigit_top h₁ hge hn
  have hblocks := Nat.mul_le_mul_left (2 ^ L - 1) ((ristBlocks_le_iff h₁).2 hdvd)
  rw [← ristSize_eq hL] at hblocks
  have hentry := entry_tableOf_none (g := o.elem) hL
    (Nat.le_trans hblocks (Nat.le_add_right _ (digit L n (252 / L) - 1)))
  have hlast : 252 / L < 0 + (255 / L + 1) := by
    rw [Nat.zero_add]
    exact Nat.lt_succ_of_le (Nat.div_le_div_right (by decide))
  rw [ristPreprocess_eq h₁ hL, Option.bind_some, ristPpmul_eq h₁ (by omega) _ (ristTable_ne_nil h₁ hL),
    addWindows_none hd hentry (255 / L + 1) 0 0 (Nat.zero_le _) hlast]
  rfl

/-- **The preprocessed product is the plain one exactly when the level does not divide 252, or the scalar has 252 bits.** -/
theorem ristPpmul_preprocess_iff (h₁ : 1 ≤ L) (hL : L ≤ 16) (n : RistScalar) (hn : (n : Nat) < ristOrder)
    (o out : PpObj G) : (PyRistG.preprocess o L).bind (PyRistG.ppmul · n out) =
      some { out with elem := (n : Nat) • o.elem } ↔ (L ∣ 252 → (n : Nat) < 2 ^ 252) := by
  have hbits : (n : Nat) < 2 ^ 253 := Nat.lt_trans hn ristOrder_lt
  constructor
  · intro h hdvd
    refine Nat.lt_of_not_le (fun hge => ?_)
    rw [ristPpmul_preprocess_none h₁ hL hbits hdvd hge] at h
    cases h
  · exact fun h => ristPpmul_preprocess_eq h₁ hL hbits h o out

end

/-- At level 5 every scalar is right, those with the bit 252 among them. -/
theorem ristPpmul_preprocess_iff_five :
    let o : PpObj (ZMod ristOrder) := ⟨1, [], 0⟩
    (PyRistG.preprocess o 5).bind (PyRistG.ppmul · ⟨2 ^ 252, by decide⟩ o) = some { o with elem := 2 ^ 252 • o.elem } :=
  (ristPpmul_preprocess_iff (by decide) (by decide) ⟨2 ^ 252, by decide⟩ (by decide) ⟨1, [], 0⟩ ⟨1, [], 0⟩).2
    (fun h => absurd h (by decide))

/-- At level 4 the table has 63 blocks, and the bit 252 is in the 64th window. -/
theorem ristPpmul_preprocess_counterexample : ¬∀ (L : Nat) (n : RistScalar) (o out : PpObj (ZMod ristOrder)), 1 ≤ L →
    L ≤ 16 → (n : Nat) < ristOrder →
      (PyRistG.preprocess o L).bind (PyRistG.ppmul · n out) = some { out with elem := (n : Nat) • o.elem } := by
  intro h
  let o : PpObj (ZMod ristOrder) := ⟨1, [], 0⟩
  have hpanic := ristPpmul_preprocess_none (L := 4) (n := ⟨2 ^ 252, by decide⟩) (by decide) (by decide) (by decide)
    (by decide) (Nat.le_refl _) o o
  have hsome := hpanic.symm.trans (h 4 ⟨2 ^ 252, by decide⟩ o o (by decide) (by decide) (by decide))
  cases hsome

end Pairing
end Dpid
