import Dpid.FntDecode
import Dpid.Primality
import Dpid.ShareArray
import Mathlib.NumberTheory.LegendreSymbol.Basic
import Mathlib.Tactic.FieldSimp
import Mathlib.Tactic.Ring
/-!
# Equality — the equality test of two shares (`progs/mixins/share_comparison.py`)

A share stands for the field element it opens to.  Each test multiplies the difference by a random element and adds a
square, times five when the secret bit is zero; the Legendre symbol of what opens is turned into a factor of the answer.
`progs/mixins/share_arithmetic.py` holds a second copy of the class.
-/
namespace Dpid
namespace Equality

open ShareArray

variable {p : ℕ}

/-! ## The program -/

/-- What one `_gen_test_bit` takes from the preprocessing. -/
structure Draw (p : ℕ) where
  bit : ZMod p
  r : ZMod p
  rp : ZMod p

def legendreModP (a : ZMod p) : Except Exn Int :=
  if p % 2 = 1 then
    let b := a ^ ((p - 1) / 2)
    .ok (if b = 1 then 1 else if b = (p - 1 : ℕ) then -1 else 0)
  else .error .assertionError

/-- `_b`, five or one. -/
def blind (d : Draw p) : ZMod p := (-4 : Int) * d.bit + (5 : Nat)

/-- The `c` of `_gen_test_bit`, opened. -/
def opening (diff : ZMod p) (d : Draw p) : ZMod p := diff * d.r + blind d * d.rp * d.rp

variable [Fact p.Prime]

/-- `gen_test_bit`, on what the preprocessing hands to this test in order. -/
def genTestBit (diff : ZMod p) : List (Draw p) → Option (Except Exn (ZMod p))
  | []      => none
  | d :: ds =>
    if opening diff d = 0 then genTestBit diff ds
    else some (do
      let legendre ← legendreModP (opening diff d)
      -- a coroutine that is not awaited, no `Share` for `ShareArray`
      if legendre = 0 then .error .assertionError
      else return (legendre : ZMod p) / (2 : Nat) * (blind d + legendre))

/-- `_prog` over a `gen_test_bit`; `t` is the context's degree. -/
def progWith (gen : ZMod p → List (Draw p) → Option (Except Exn (ZMod p))) (t fuel securityParameter : Nat)
    (draws : Nat → List (Draw p)) (pShare qShare : ZMod p) : Option (Except Exn (ZMod p)) := do
  let diff := pShare - qShare
  let bits ← (List.range securityParameter).mapM (fun j => gen diff (draws j))
  match bits.mapM id with
  | .error e => some (.error e)
  | .ok x    => multiplicativeProduct t (elementwise t (· * ·)) 1 fuel ⟨x, t⟩

/-- `_prog` of `share_comparison.py`. -/
def prog (t fuel securityParameter : Nat) (draws : Nat → List (Draw p)) (pShare qShare : ZMod p) :
    Option (Except Exn (ZMod p)) :=
  progWith genTestBit t fuel securityParameter draws pShare qShare

/-- `_prog` of `share_arithmetic.py`, where `@TypeCheck` without its parentheses leaves a decorator object in the place
of `gen_test_bit`: calling that with two arguments raises. -/
def arithProg (t fuel securityParameter : Nat) (draws : Nat → List (Draw p)) (pShare qShare : ZMod p) :
    Option (Except Exn (ZMod p)) :=
  progWith (fun _ _ => some (.error .typeError)) t fuel securityParameter draws pShare qShare

/-! ## One test -/

/-- A nonzero square, as the code tests it. -/
def Residue (c : ZMod p) : Prop := c ^ ((p - 1) / 2) = 1

instance : DecidablePred (Residue (p := p)) := fun c => inferInstanceAs (Decidable (c ^ ((p - 1) / 2) = 1))

theorem residue_iff (hodd : p % 2 = 1) {c : ZMod p} (hc : c ≠ 0) : Residue c ↔ IsSquare c := by
  rw [Residue, ZMod.euler_criterion p hc, show (p - 1) / 2 = p / 2 by omega]

theorem legendreModP_eq (hodd : p % 2 = 1) {c : ZMod p} (hc : c ≠ 0) :
    legendreModP c = .ok (if Residue c then 1 else -1) := by
  have hhalf : (p - 1) / 2 = p / 2 := by omega
  have hpred : ((p - 1 : ℕ) : ZMod p) = -1 := by
    rw [Nat.cast_sub (Fact.out : p.Prime).one_le, ZMod.natCast_self, Nat.cast_one, zero_sub]
  rw [legendreModP, if_pos hodd]
  by_cases hres : Residue c
  · have hone : c ^ ((p - 1) / 2) = 1 := hres
    simp only [hone, if_true, if_pos hres]
  · have hnot : ¬ c ^ ((p - 1) / 2) = 1 := hres
    have hneg : c ^ ((p - 1) / 2) = -1 := by
      rw [hhalf] at hnot ⊢
      exact (ZMod.pow_div_two_eq_neg_one_or_one p hc).resolve_left hnot
    simp only [if_neg hnot, if_neg hres, hpred, if_pos hneg]

/-- The factor of a test. -/
def value (diff : ZMod p) (d : Draw p) : ZMod p :=
  if Residue (opening diff d) then 1 / (2 : Nat) * (blind d + 1) else -1 / (2 : Nat) * (blind d - 1)

/-- The draw a test ends with: the first that does not open to zero. -/
def accepted (diff : ZMod p) (ds : List (Draw p)) : Option (Draw p) := ds.find? (fun d => decide (opening diff d ≠ 0))

theorem genTestBit_eq (hodd : p % 2 = 1) {diff : ZMod p} :
    ∀ {ds : List (Draw p)}, (∃ d ∈ ds, opening diff d ≠ 0) →
      ∃ d ∈ ds, accepted diff ds = some d ∧ opening diff d ≠ 0 ∧ genTestBit diff ds = some (.ok (value diff d))
  | [], h      => by simp at h
  | d :: ds, h => by
    by_cases hzero : opening diff d = 0
    · have hrest : ∃ d ∈ ds, opening diff d ≠ 0 := by
        obtain ⟨e, he, hne⟩ := h
        rcases List.mem_cons.1 he with rfl | he
        · exact absurd hzero hne
        · exact ⟨e, he, hne⟩
      obtain ⟨e, he, hacc, hne, hrun⟩ := genTestBit_eq hodd hrest
      refine ⟨e, List.mem_cons_of_mem d he, ?_, hne, ?_⟩
      · rw [accepted, List.find?_cons_of_neg (by simpa using hzero)]
        exact hacc
      · rw [genTestBit, if_pos hzero, hrun]
    · refine ⟨d, List.mem_cons_self, ?_, hzero, ?_⟩
      · rw [accepted, List.find?_cons_of_pos (by simpa using hzero)]
      · rw [genTestBit, if_neg hzero, legendreModP_eq hodd hzero, value]
        by_cases hres : Residue (opening diff d)
        · simp [if_pos hres, bind, Except.bind, pure, Except.pure]
        · simp [if_neg hres, bind, Except.bind, pure, Except.pure, sub_eq_add_neg]

theorem blind_one {d : Draw p} (h : d.bit = 1) : blind d = 1 := by rw [blind, h]; ring

theorem blind_zero {d : Draw p} (h : d.bit = 0) : blind d = 5 := by rw [blind, h]; ring

section Value

variable (htwo : (2 : ZMod p) ≠ 0) {diff : ZMod p} {d : Draw p}
include htwo

theorem value_one_residue (hbit : d.bit = 1) (hres : Residue (opening diff d)) : value diff d = 1 := by
  rw [value, if_pos hres, blind_one hbit, Nat.cast_ofNat]
  field_simp
  norm_num

omit htwo in
theorem value_one_nonresidue (hbit : d.bit = 1) (hres : ¬ Residue (opening diff d)) : value diff d = 0 := by
  rw [value, if_neg hres, blind_one hbit, sub_self, mul_zero]

/-- A zero bit and a square give three, not zero or one. -/
theorem value_zero_residue (hbit : d.bit = 0) (hres : Residue (opening diff d)) : value diff d = 3 := by
  rw [value, if_pos hres, blind_zero hbit, Nat.cast_ofNat]
  field_simp
  norm_num

/-- A zero bit and a non-square give minus two, the case the affine formula means to send to one. -/
theorem value_zero_nonresidue (hbit : d.bit = 0) (hres : ¬ Residue (opening diff d)) : value diff d = -2 := by
  rw [value, if_neg hres, blind_zero hbit, Nat.cast_ofNat]
  field_simp
  norm_num

end Value

/-! ## All tests -/

theorem mapM_id_ok {α β : Type} (g : α → β) : ∀ l : List α,
    (l.map (fun a => Except.ok (g a))).mapM (id : Except Exn β → Except Exn β) = .ok (l.map g)
  | []     => rfl
  | a :: l => by
    rw [List.map_cons, List.mapM_cons, mapM_id_ok g l]
    rfl

/-- The draws the tests end with. -/
def acceptedDraws (diff : ZMod p) (securityParameter : Nat) (draws : Nat → List (Draw p)) : List (Draw p) :=
  (List.range securityParameter).filterMap (fun j => accepted diff (draws j))

theorem exists_gather (hodd : p % 2 = 1) {diff : ZMod p} {draws : Nat → List (Draw p)} :
    ∀ {js : List Nat}, (∀ j ∈ js, ∃ d ∈ draws j, opening diff d ≠ 0) →
      js.mapM (fun j => genTestBit diff (draws j)) =
        some ((js.filterMap (fun j => accepted diff (draws j))).map (fun d => .ok (value diff d)))
  | [], _      => rfl
  | j :: js, h => by
    obtain ⟨d, -, hacc, -, hrun⟩ := genTestBit_eq hodd (h j List.mem_cons_self)
    have hrest := exists_gather hodd (fun i hi => h i (List.mem_cons_of_mem j hi))
    rw [List.mapM_cons, hrun, hrest, List.filterMap_cons, hacc]
    rfl

/-- **What `_prog` opens to**: the product of the factors. -/
theorem prog_eq (hodd : p % 2 = 1) (t : Nat) {fuel k : Nat} (hfuel : k ≤ fuel) {draws : Nat → List (Draw p)}
    {a b : ZMod p} (hopen : ∀ j < k, ∃ d ∈ draws j, opening (a - b) d ≠ 0) :
    prog t fuel k draws a b = some (.ok ((acceptedDraws (a - b) k draws).map (value (a - b))).prod) := by
  have hgather : (List.range k).mapM (fun j => genTestBit (a - b) (draws j)) =
      some ((acceptedDraws (a - b) k draws).map (fun d => .ok (value (a - b) d))) :=
    exists_gather hodd (fun j hj => hopen j (List.mem_range.1 hj))
  have hlen : ((acceptedDraws (a - b) k draws).map (value (a - b))).length ≤ fuel := by
    rw [List.length_map]
    refine (List.length_filterMap_le _ _).trans ?_
    rwa [List.length_range]
  rw [prog, progWith]
  simp only [hgather, Option.bind_eq_bind, Option.bind_some]
  rw [mapM_id_ok]
  exact multiplicativeProduct_eq (elementwise_elementwise t _) _ t hlen

theorem mem_acceptedDraws {diff : ZMod p} {k : Nat} {draws : Nat → List (Draw p)} {d : Draw p}
    (h : d ∈ acceptedDraws diff k draws) : opening diff d ≠ 0 ∧ ∃ j < k, d ∈ draws j := by
  obtain ⟨j, hj, hacc⟩ := List.mem_filterMap.1 h
  rw [accepted] at hacc
  have hne := List.find?_some hacc
  exact ⟨of_decide_eq_true hne, j, List.mem_range.1 hj, List.mem_of_find?_eq_some hacc⟩

/-- The tests with a zero bit that open to a square. -/
def zeroResidues (diff : ZMod p) (A : List (Draw p)) : Nat := A.countP (fun d => d.bit = 0 ∧ Residue (opening diff d))

/-- The tests with a zero bit that open to a non-square. -/
def zeroNonresidues (diff : ZMod p) (A : List (Draw p)) : Nat :=
  A.countP (fun d => d.bit = 0 ∧ ¬ Residue (opening diff d))

theorem zeroResidues_cons (diff : ZMod p) (d : Draw p) (A : List (Draw p)) :
    zeroResidues diff (d :: A) = zeroResidues diff A + if d.bit = 0 ∧ Residue (opening diff d) then 1 else 0 := by
  rw [zeroResidues, List.countP_cons]
  simp only [decide_eq_true_eq]
  rfl

theorem zeroNonresidues_cons (diff : ZMod p) (d : Draw p) (A : List (Draw p)) :
    zeroNonresidues diff (d :: A) =
      zeroNonresidues diff A + if d.bit = 0 ∧ ¬ Residue (opening diff d) then 1 else 0 := by
  rw [zeroNonresidues, List.countP_cons]
  simp only [decide_eq_true_eq]
  rfl

/-- A test with bit one that opens to a non-square: the one kind that gives zero. -/
def Refuting (diff : ZMod p) (d : Draw p) : Prop := d.bit = 1 ∧ ¬ Residue (opening diff d)

instance (diff : ZMod p) : DecidablePred (Refuting diff) :=
  fun d => inferInstanceAs (Decidable (d.bit = 1 ∧ ¬ Residue (opening diff d)))

theorem prod_of_refuting {diff : ZMod p} {A : List (Draw p)} (h : ∃ d ∈ A, Refuting diff d) :
    (A.map (value diff)).prod = 0 := by
  obtain ⟨d, hd, hbit, hres⟩ := h
  refine List.prod_eq_zero (List.mem_map.2 ⟨d, hd, ?_⟩)
  exact value_one_nonresidue hbit hres

/-- **The product counts the tests with a zero bit**, by what they open to. -/
theorem prod_of_not_refuting (htwo : (2 : ZMod p) ≠ 0) {diff : ZMod p} : ∀ {A : List (Draw p)},
    (∀ d ∈ A, d.bit = 0 ∨ d.bit = 1) → (¬ ∃ d ∈ A, Refuting diff d) →
      (A.map (value diff)).prod = 3 ^ zeroResidues diff A * (-2) ^ zeroNonresidues diff A
  | [], _, _        => by simp [zeroResidues, zeroNonresidues]
  | d :: A, hbit, h => by
    have ih := prod_of_not_refuting htwo (fun e he => hbit e (List.mem_cons_of_mem d he))
      (fun ⟨e, he, href⟩ => h ⟨e, List.mem_cons_of_mem d he, href⟩)
    rw [List.map_cons, List.prod_cons, ih, zeroResidues_cons, zeroNonresidues_cons]
    rcases hbit d List.mem_cons_self with hzero | hone
    · by_cases hres : Residue (opening diff d)
      · rw [value_zero_residue htwo hzero hres, if_pos ⟨hzero, hres⟩, if_neg (fun h => h.2 hres)]
        ring
      · rw [value_zero_nonresidue htwo hzero hres, if_neg (fun h => hres h.2), if_pos ⟨hzero, hres⟩]
        ring
    · have hres : Residue (opening diff d) := by
        by_contra hres
        exact h ⟨d, List.mem_cons_self, hone, hres⟩
      have hne : ¬ d.bit = 0 := by
        rw [hone]
        exact one_ne_zero
      rw [value_one_residue htwo hone hres, if_neg (fun h => hne h.1), if_neg (fun h => hne h.1), one_mul, add_zero,
        add_zero]

/-! ## The answer -/

/-- On equal shares every test opens to its blinding factor times a square. -/
theorem opening_equal (d : Draw p) : opening 0 d = blind d * (d.rp * d.rp) := by rw [opening]; ring

theorem residue_equal_iff (hodd : p % 2 = 1) (h5 : ¬ IsSquare (5 : ZMod p)) {d : Draw p}
    (hbit : d.bit = 0 ∨ d.bit = 1) (hne : opening 0 d ≠ 0) : Residue (opening 0 d) ↔ d.bit = 1 := by
  rw [residue_iff hodd hne, opening_equal]
  rw [opening_equal] at hne
  have hrp : d.rp ≠ 0 := by
    rintro h
    rw [h, mul_zero, mul_zero] at hne
    exact hne rfl
  rcases hbit with hzero | hone
  · rw [blind_zero hzero, hzero]
    refine ⟨fun hsq => ?_, fun h => absurd h.symm one_ne_zero⟩
    have hfive : IsSquare (5 * (d.rp * d.rp) / (d.rp * d.rp)) := hsq.div (IsSquare.mul_self d.rp)
    rw [mul_div_cancel_right₀ _ (mul_ne_zero hrp hrp)] at hfive
    exact absurd hfive h5
  · rw [blind_one hone, one_mul]
    exact ⟨fun _ => hone, fun _ => IsSquare.mul_self d.rp⟩

/-- **On equal shares the answer is a power of minus two**, one factor for each zero bit. -/
theorem prod_equal (hp : p % 8 = 1) (h5 : ¬ IsSquare (5 : ZMod p)) {A : List (Draw p)}
    (hA : ∀ d ∈ A, (d.bit = 0 ∨ d.bit = 1) ∧ opening 0 d ≠ 0) :
    (A.map (value 0)).prod = (-2) ^ A.countP (fun d => d.bit = 0) := by
  have hodd : p % 2 = 1 := by omega
  have hgt : 2 < p := by have := (Fact.out : p.Prime).two_le; omega
  have htwo : (2 : ZMod p) ≠ 0 := by exact_mod_cast Primality.natCast_ne_zero (n := 2) (by decide) hgt
  have hres : ∀ d ∈ A, Residue (opening 0 d) ↔ d.bit = 1 := fun d hd => residue_equal_iff hodd h5 (hA d hd).1 (hA d hd).2
  have hno : ¬ ∃ d ∈ A, Refuting 0 d := fun ⟨d, hd, hbit, hnon⟩ => hnon ((hres d hd).2 hbit)
  have hzero : zeroResidues 0 A = 0 := by
    refine List.countP_eq_zero.2 (fun d hd h => ?_)
    obtain ⟨hbit, hr⟩ := of_decide_eq_true h
    exact one_ne_zero (((hres d hd).1 hr).symm.trans hbit)
  have hnon : zeroNonresidues 0 A = A.countP (fun d => d.bit = 0) := by
    refine List.countP_congr (fun d hd => ?_)
    simp only [decide_eq_true_eq, hres d hd, and_iff_left_iff_imp]
    intro hbit
    rw [hbit]
    exact zero_ne_one
  rw [prod_of_not_refuting htwo (fun d hd => (hA d hd).1) hno, hzero, hnon, pow_zero, one_mul]

theorem mapM_some {α β : Type} (b : β) : ∀ l : List α, l.mapM (fun _ => some b) = some (l.map (fun _ => b))
  | []     => rfl
  | a :: l => by
    rw [List.mapM_cons, mapM_some b l]
    rfl

/-- The second copy raises as soon as there is a test. -/
theorem arithProg_eq (t fuel k : Nat) (draws : Nat → List (Draw p)) (a b : ZMod p) :
    arithProg t fuel (k + 1) draws a b = some (.error .typeError) := by
  have hbits := mapM_some (Except.error Exn.typeError : Except Exn (ZMod p)) (List.range (k + 1))
  rw [List.range_succ_eq_map, List.map_cons, ← List.range_succ_eq_map] at hbits
  rw [arithProg, progWith]
  simp only [hbits, Option.bind_eq_bind, Option.bind_some, List.mapM_cons]
  rfl

/-- **When the equality test answers as it should.**  On equal shares exactly when the zero bits' power of minus two is
one; on different shares exactly when a test refutes them or the zero bits' factors multiply to one.  The second copy
of the class always raises. -/
theorem equality_iff (hp : p % 8 = 1) (h5 : ¬ IsSquare (5 : ZMod p)) (t : Nat) {fuel k : Nat} (hk : 1 ≤ k) (hfuel : k ≤ fuel)
    {draws : Nat → List (Draw p)} (hbits : ∀ j < k, ∀ d ∈ draws j, d.bit = 0 ∨ d.bit = 1) (a b : ZMod p)
    (hopen : ∀ j < k, ∃ d ∈ draws j, opening (a - b) d ≠ 0) :
    (a = b → (prog t fuel k draws a b = some (.ok 1) ↔
        (-2 : ZMod p) ^ (acceptedDraws (a - b) k draws).countP (fun d => d.bit = 0) = 1)) ∧
      (a ≠ b → (prog t fuel k draws a b = some (.ok 0) ∨ prog t fuel k draws a b = some (.ok 1) ↔
        (∃ d ∈ acceptedDraws (a - b) k draws, Refuting (a - b) d) ∨
          (3 : ZMod p) ^ zeroResidues (a - b) (acceptedDraws (a - b) k draws) *
            (-2) ^ zeroNonresidues (a - b) (acceptedDraws (a - b) k draws) = 1)) ∧
      arithProg t fuel k draws a b = some (.error .typeError) := by
  have hodd : p % 2 = 1 := by omega
  have hgt : 8 < p := by have := (Fact.out : p.Prime).two_le; omega
  have htwo : (2 : ZMod p) ≠ 0 := by exact_mod_cast Primality.natCast_ne_zero (n := 2) (by decide) (by omega)
  have hthree : (3 : ZMod p) ≠ 0 := by exact_mod_cast Primality.natCast_ne_zero (n := 3) (by decide) (by omega)
  have hA : ∀ d ∈ acceptedDraws (a - b) k draws, (d.bit = 0 ∨ d.bit = 1) ∧ opening (a - b) d ≠ 0 := by
    intro d hd
    obtain ⟨hne, j, hj, hmem⟩ := mem_acceptedDraws hd
    exact ⟨hbits j hj d hmem, hne⟩
  rw [prog_eq hodd t hfuel hopen]
  refine ⟨fun hab => ?_, fun _ => ?_, ?_⟩
  · have hdiff : a - b = 0 := sub_eq_zero.2 hab
    rw [hdiff] at hA ⊢
    rw [prod_equal hp h5 hA, Option.some.injEq, Except.ok.injEq]
  · simp only [Option.some.injEq, Except.ok.injEq]
    by_cases href : ∃ d ∈ acceptedDraws (a - b) k draws, Refuting (a - b) d
    · exact iff_of_true (.inl (prod_of_refuting href)) (.inl href)
    · rw [prod_of_not_refuting htwo (fun d hd => (hA d hd).1) href]
      have hne : (3 : ZMod p) ^ zeroResidues (a - b) (acceptedDraws (a - b) k draws) *
          (-2) ^ zeroNonresidues (a - b) (acceptedDraws (a - b) k draws) ≠ 0 :=
        mul_ne_zero (pow_ne_zero _ hthree) (pow_ne_zero _ (neg_ne_zero.2 htwo))
      rw [or_iff_right hne, or_iff_right href]
  · obtain ⟨k, rfl⟩ := Nat.exists_eq_succ_of_ne_zero (show k ≠ 0 by omega)
    exact arithProg_eq t fuel k draws a b

/-- A zero bit on shares of zero: the one test opens five and gives minus two. -/
def zeroBit : Nat → List (Draw 17) := fun _ => [⟨0, 0, 1⟩]

/-- Ten tests that each reject a draw; then eight have a zero bit and two a one. -/
def tenTests : Nat → List (Draw 17) := fun j => [⟨1, 0, 0⟩, ⟨if j < 8 then 0 else 1, 1, 1⟩]

theorem not_isSquare_five : ¬ IsSquare (5 : ZMod 17) := by
  rintro ⟨x, hx⟩
  revert x
  decide

theorem zeroBit_draws : ∀ d ∈ zeroBit 0, (d.bit = 0 ∨ d.bit = 1) ∧ opening (0 - 0) d ≠ 0 := by decide

theorem tenTests_draws : ∀ j < 10, ∀ d ∈ tenTests j, d.bit = 0 ∨ d.bit = 1 := by decide

theorem tenTests_refute : ∃ d ∈ acceptedDraws (5 - 3) 10 tenTests, Refuting (5 - 3) d := by decide +kernel

theorem neg_two_ne_one : (-2 : ZMod 17) ≠ 1 := by decide

/-- The eight zero bits multiply to `(-2)⁸`, which is one modulo 17, and a test with a one bit refutes 5 and 3. -/
theorem equality_iff_tenTests : prog 1 10 10 tenTests 3 3 = some (.ok 1) ∧
    (prog 1 10 10 tenTests 5 3 = some (.ok 0) ∨ prog 1 10 10 tenTests 5 3 = some (.ok 1)) ∧
      arithProg 1 10 10 tenTests 5 3 = some (.error .typeError) := by
  have hsame : ∀ j < 10, ∃ d ∈ tenTests j, opening (3 - 3) d ≠ 0 := by decide
  have hother : ∀ j < 10, ∃ d ∈ tenTests j, opening (5 - 3) d ≠ 0 := by decide
  obtain ⟨hequal, -, -⟩ := equality_iff rfl not_isSquare_five 1 (by decide) le_rfl tenTests_draws 3 3 hsame
  obtain ⟨-, hdiffer, hcopy⟩ := equality_iff rfl not_isSquare_five 1 (by decide) le_rfl tenTests_draws 5 3 hother
  have hcount : (acceptedDraws (3 - 3) 10 tenTests).countP (fun d => d.bit = 0) = 8 := by decide +kernel
  refine ⟨(hequal rfl).2 ?_, (hdiffer (by decide)).2 (.inl tenTests_refute), hcopy⟩
  rw [hcount]
  decide

/-- **Two shares of zero with a zero bit do not open to one.** -/
theorem equality_counterexample : prog 1 1 1 zeroBit 0 0 ≠ some (.ok 1) := by
  have hopen : ∀ j < 1, ∃ d ∈ zeroBit j, opening (0 - 0) d ≠ 0 :=
    fun j hj => ⟨⟨0, 0, 1⟩, List.mem_singleton.2 rfl, (zeroBit_draws _ (List.mem_singleton.2 rfl)).2⟩
  have hA : acceptedDraws (0 - 0) 1 zeroBit = [⟨0, 0, 1⟩] := rfl
  have hne := (zeroBit_draws ⟨0, 0, 1⟩ (List.mem_singleton.2 rfl)).2
  rw [prog_eq (by decide) 1 le_rfl hopen, hA, sub_self] at *
  have hprod := prod_equal (p := 17) rfl not_isSquare_five (A := [⟨0, 0, 1⟩])
    (fun d hd => by rw [List.mem_singleton.1 hd]; exact ⟨.inl rfl, hne⟩)
  rw [hprod]
  intro h
  exact neg_two_ne_one (Except.ok.inj (Option.some.inj h))

end Equality
end Dpid
