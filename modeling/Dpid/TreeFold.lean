import Mathlib.Data.List.Basic
import Mathlib.Data.Nat.Init
/-!
# TreeFold — folding a list by joining neighbours

A round joins each even position with the odd one after it and keeps an unpaired last element; rounds repeat until one
element is left.  For an associative operation the outcome is the sequential fold, commutative or not.
-/
namespace Dpid
namespace TreeFold

variable {α β : Type*}

/-! ## Positions -/

/-- `l[::2]`. -/
def evens : List α → List α
  | []          => []
  | [a]         => [a]
  | a :: _ :: l => a :: evens l

/-- `l[1::2]`. -/
def odds : List α → List α
  | []          => []
  | [_]         => []
  | _ :: b :: l => b :: odds l

theorem length_evens : ∀ l : List α, (evens l).length = (l.length + 1) / 2
  | []          => by simp [evens]
  | [_]         => by simp [evens]
  | _ :: _ :: l => by
    rw [evens, List.length_cons, length_evens l, List.length_cons, List.length_cons]
    omega

theorem length_odds : ∀ l : List α, (odds l).length = l.length / 2
  | []          => by simp [odds]
  | [_]         => by simp [odds]
  | _ :: _ :: l => by
    rw [odds, List.length_cons, length_odds l, List.length_cons, List.length_cons]
    omega

theorem evens_map (g : α → β) : ∀ l : List α, evens (l.map g) = (evens l).map g
  | []          => rfl
  | [_]         => rfl
  | _ :: _ :: l => by simp only [List.map_cons, evens, evens_map g l]

theorem odds_map (g : α → β) : ∀ l : List α, odds (l.map g) = (odds l).map g
  | []          => rfl
  | [_]         => rfl
  | _ :: _ :: l => by simp only [List.map_cons, odds, odds_map g l]

/-! ## One round -/

def pairUp (f : α → α → α) : List α → List α
  | []          => []
  | [a]         => [a]
  | a :: b :: l => f a b :: pairUp f l

theorem length_pairUp (f : α → α → α) : ∀ l : List α, (pairUp f l).length = (l.length + 1) / 2
  | []          => by simp [pairUp]
  | [_]         => by simp [pairUp]
  | _ :: _ :: l => by
    rw [pairUp, List.length_cons, length_pairUp f l, List.length_cons, List.length_cons]
    omega

/-- The unpaired last element, when there is one. -/
def unpaired (l : List α) : List α := if (odds l).length < (evens l).length then (evens l).getLast?.toList else []

theorem unpaired_cons_cons (a b : α) (l : List α) : unpaired (a :: b :: l) = unpaired l := by
  unfold unpaired
  simp only [evens, odds, List.length_cons, Nat.add_lt_add_iff_right]
  split
  · rename_i h
    obtain ⟨c, m, hm⟩ := List.exists_cons_of_length_pos (Nat.zero_lt_of_lt h)
    rw [hm, List.getLast?_cons_cons]
  · rfl

theorem unpaired_map (g : α → β) (l : List α) : unpaired (l.map g) = (unpaired l).map g := by
  unfold unpaired
  rw [evens_map, odds_map, List.length_map, List.length_map, List.getLast?_map]
  split
  · cases (evens l).getLast? <;> rfl
  · rfl

/-- **A round joins the even positions with the odd ones and appends the unpaired element.** -/
theorem zipWith_append_unpaired (f : α → α → α) :
    ∀ l : List α, List.zipWith f (evens l) (odds l) ++ unpaired l = pairUp f l
  | []          => rfl
  | [_]         => rfl
  | a :: b :: l => by
    rw [unpaired_cons_cons, evens, odds, List.zipWith_cons_cons, List.cons_append, zipWith_append_unpaired f l, pairUp]

/-- An unpaired last element has no partner, so dropping it first changes nothing. -/
theorem zipWith_take (f : α → α → α) : ∀ (l r : List α), List.zipWith f (l.take r.length) r = List.zipWith f l r
  | _, []         => by rw [List.zipWith_nil_right, List.zipWith_nil_right]
  | [], _ :: _    => rfl
  | a :: l, b :: r => by
    rw [List.length_cons, List.take_succ_cons, List.zipWith_cons_cons, List.zipWith_cons_cons, zipWith_take f l r]

/-- **A round keeps the sequential fold** of an associative operation. -/
theorem foldl_pairUp {f : α → α → α} (hf : ∀ a b c, f (f a b) c = f a (f b c)) :
    ∀ (a : α) (l : List α), (pairUp f l).foldl f a = l.foldl f a
  | _, []          => rfl
  | _, [_]         => rfl
  | a, b :: c :: l => by
    rw [pairUp, List.foldl_cons, foldl_pairUp hf _ l, ← hf, List.foldl_cons, List.foldl_cons]

/-! ## All rounds -/

/-- The tree fold; nothing for the empty list. -/
def fold (f : α → α → α) : List α → Option α
  | []          => none
  | [a]         => some a
  | a :: b :: l => fold f (pairUp f (a :: b :: l))
termination_by l => l.length
decreasing_by rw [length_pairUp, List.length_cons, List.length_cons]; omega

theorem fold_pairUp (f : α → α → α) (l : List α) : fold f (pairUp f l) = fold f l := by
  cases l with
  | nil => rfl
  | cons a l =>
    cases l with
    | nil => rfl
    | cons b l => rw [fold.eq_3]

/-- **The tree fold is the sequential fold**, for every associative operation. -/
theorem fold_cons {f : α → α → α} (hf : ∀ a b c, f (f a b) c = f a (f b c)) (a : α) (l : List α) :
    fold f (a :: l) = some (l.foldl f a) := by
  induction hn : l.length using Nat.strong_induction_on generalizing a l with
  | _ n ih =>
    subst hn
    cases l with
    | nil => rw [fold, List.foldl_nil]
    | cons b l =>
      have hlt : (pairUp f l).length < (b :: l).length := by
        rw [length_pairUp, List.length_cons]
        omega
      rw [fold, pairUp, ih _ hlt (f a b) (pairUp f l) rfl, foldl_pairUp hf, List.foldl_cons]

end TreeFold
end Dpid
