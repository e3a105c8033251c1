import Mathlib.Algebra.BigOperators.Ring.Finset
import Mathlib.Algebra.Module.Defs
import Mathlib.Tactic.Abel
import Mathlib.Tactic.Ring
/-!
# Buckets — sums of multiples by signed digits

The digits of a number may be negative; `digitsVal` is the number.  One place of many numbers at a time, the elements are
collected in buckets, the bucket `b` counting `b + 1` times (`weightedSum`), which two running sums add up
(`foldl_runningSums`); the places are put together from the highest down (`foldl_horner`).
-/
namespace Buckets

/-! ## Signed digits -/

/-- The number with these digits to the base `2 ^ w`, the lowest first. -/
def digitsVal (w : Nat) : List Int → Int
  | []          => 0
  | d :: digits => d + 2 ^ w * digitsVal w digits

theorem digitsVal_eq_sum (w : Nat) : ∀ {l : List Int} {n : Nat}, l.length ≤ n →
    digitsVal w l = ∑ j ∈ Finset.range n, 2 ^ (w * j) * l.getD j 0
  | [], n, _         => by simp [digitsVal]
  | d :: l, n + 1, h => by
    rw [digitsVal, digitsVal_eq_sum w (Nat.le_of_succ_le_succ h), Finset.sum_range_succ', Finset.mul_sum, add_comm]
    congr 1
    · refine Finset.sum_congr rfl (fun j _ => ?_)
      rw [List.getD_cons_succ, Nat.mul_succ, pow_add]
      ring
    · simp

/-! ## Buckets -/

section

variable {G : Type} [AddCommGroup G]

/-- The sum in which the bucket `b` counts `b + 1` times. -/
def weightedSum : List G → G
  | []     => 0
  | x :: l => (x + l.sum) + weightedSum l

theorem weightedSum_replicate : ∀ n : Nat, weightedSum (List.replicate n (0 : G)) = 0
  | 0     => rfl
  | n + 1 => by simp [List.replicate_succ, weightedSum, weightedSum_replicate n]

theorem sum_set_add : ∀ {l : List G} {b : Nat} {x : G}, l[b]? = some x → ∀ y : G,
    (l.set b (x + y)).sum = l.sum + y
  | z :: l, 0, x, h, y     => by
    cases h
    rw [List.set_cons_zero, List.sum_cons, List.sum_cons]
    abel
  | z :: l, b + 1, x, h, y => by
    have hx : l[b]? = some x := h
    rw [List.set_cons_succ, List.sum_cons, List.sum_cons, sum_set_add hx y]
    abel

/-- **An element put into a bucket counts as often as the bucket.** -/
theorem weightedSum_set_add : ∀ {l : List G} {b : Nat} {x : G}, l[b]? = some x → ∀ y : G,
    weightedSum (l.set b (x + y)) = weightedSum l + (b + 1) • y
  | z :: l, 0, x, h, y     => by
    cases h
    rw [List.set_cons_zero, weightedSum, weightedSum, Nat.zero_add, one_nsmul]
    abel
  | z :: l, b + 1, x, h, y => by
    have hx : l[b]? = some x := h
    rw [List.set_cons_succ, weightedSum, weightedSum, sum_set_add hx y, weightedSum_set_add hx y, succ_nsmul _ (b + 1)]
    abel

/-- One bucket more for the running sums. -/
def runningStep (s : G × G) (x : G) : G × G := (s.1 + x, s.2 + (s.1 + x))

/-- **Two running sums from the last bucket to the first** give the weighted sum. -/
theorem foldl_runningSums : ∀ l : List G, l.reverse.foldl runningStep (0, 0) = (l.sum, weightedSum l)
  | []     => rfl
  | x :: l => by
    rw [List.reverse_cons, List.foldl_append, foldl_runningSums l, List.foldl_cons, List.foldl_nil, runningStep,
      List.sum_cons, weightedSum, add_comm l.sum x, add_comm (weightedSum l)]

/-! ## Places -/

/-- **The places from the highest down**: the sum so far is shifted, and the next place added. -/
theorem foldl_horner (w : Nat) (col : Nat → G) : ∀ (k : Nat) (total : G),
    ((List.range k).reverse.map col).foldl (fun total p => 2 ^ w • total + p) total =
      2 ^ (w * k) • total + ∑ j ∈ Finset.range k, 2 ^ (w * j) • col j
  | 0, total     => by
    rw [List.range_zero, Finset.range_zero, Finset.sum_empty, Nat.mul_zero, pow_zero, one_nsmul, add_zero]
    rfl
  | k + 1, total => by
    rw [List.range_succ, List.reverse_append, List.reverse_singleton, List.singleton_append, List.map_cons,
      List.foldl_cons, foldl_horner w col k, Finset.sum_range_succ, nsmul_add, ← mul_nsmul', Nat.mul_succ, pow_add]
    abel

end

end Buckets
