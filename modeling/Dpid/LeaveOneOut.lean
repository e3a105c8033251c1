import Mathlib.Algebra.BigOperators.Group.List.Basic
import Mathlib.Algebra.Ring.Basic
import Mathlib.Tactic.Ring
/-!
# LeaveOneOut — the products of all elements of a list but one

`others l` lists them, the product without the first element first.  `dot` weighs them: `dot m (others e)` is the sum of
the `m i` times the product of the `e j` with `j ≠ i`, and leaving one position out of both lists leaves its `e i` out of
every other term (`dot_others_eraseIdx`).
-/
namespace LeaveOneOut

variable {R : Type} [CommSemiring R]

def others : List R → List R
  | []     => []
  | x :: l => l.prod :: (others l).map (x * ·)

/-- The sum of the products, position by position. -/
def dot (m l : List R) : R := (List.zipWith (· * ·) m l).sum

@[simp] theorem length_others : ∀ l : List R, (others l).length = l.length
  | []     => rfl
  | x :: l => by rw [others, List.length_cons, List.length_map, length_others l, List.length_cons]

/-- The products of two lists in a row: each has the other list's product as a factor. -/
theorem others_append : ∀ l l' : List R,
    others (l ++ l') = (others l).map (l'.prod * ·) ++ (others l').map (l.prod * ·)
  | [], l'     => by simp [others]
  | x :: l, l' => by
    rw [List.cons_append, others, others, others_append l l', List.prod_append, List.map_append, List.map_cons,
      List.map_map, List.map_map, List.map_map, List.cons_append, mul_comm l.prod]
    congr 2
    · exact List.map_congr_left (fun y _ => by simp only [Function.comp_apply]; ring)
    · exact List.map_congr_left (fun y _ => by simp only [Function.comp_apply, List.prod_cons]; ring)

theorem others_getElem : ∀ (l : List R) (i : Nat) (hi : i < (others l).length),
    (others l)[i] = (l.eraseIdx i).prod
  | x :: l, 0, _      => by simp [others]
  | x :: l, i + 1, hi => by
    rw [others, List.length_cons, List.length_map] at hi
    simp only [others, List.getElem_cons_succ, List.getElem_map, List.eraseIdx_cons_succ, List.prod_cons]
    rw [others_getElem l i (Nat.lt_of_succ_lt_succ hi)]

@[simp] theorem dot_nil_left (l : List R) : dot [] l = 0 := rfl

@[simp] theorem dot_cons (x y : R) (m l : List R) : dot (x :: m) (y :: l) = x * y + dot m l := by
  rw [dot, List.zipWith_cons_cons, List.sum_cons, dot]

theorem dot_map_mul (c : R) : ∀ m l : List R, dot m (l.map (c * ·)) = c * dot m l
  | [], l          => by simp
  | x :: m, []     => by simp [dot]
  | x :: m, y :: l => by
    rw [List.map_cons, dot_cons, dot_cons, dot_map_mul c m l]
    ring

/-- **One position apart**: its own term, and the other terms with its factor taken out. -/
theorem dot_others_eraseIdx : ∀ (m e : List R) (i : Nat) (hm : i < m.length) (he : i < e.length),
    dot m (others e) = e[i] * dot (m.eraseIdx i) (others (e.eraseIdx i)) + m[i] * (e.eraseIdx i).prod
  | x :: m, y :: e, 0, _, _       => by
    simp only [others, dot_cons, dot_map_mul, List.eraseIdx_cons_zero, List.getElem_cons_zero]
    ring
  | x :: m, y :: e, i + 1, hm, he => by
    have hi : i < e.length := Nat.lt_of_succ_lt_succ he
    have ih := dot_others_eraseIdx m e i (Nat.lt_of_succ_lt_succ hm) hi
    have hprod : e[i] * (e.eraseIdx i).prod = e.prod := List.CommMonoid.mul_prod_eraseIdx hi
    simp only [others, dot_cons, dot_map_mul, List.eraseIdx_cons_succ, List.getElem_cons_succ, List.prod_cons, ih, ← hprod]
    ring

end LeaveOneOut
