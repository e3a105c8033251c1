import Dpid.Bytes
import Dpid.TreeFold
import Mathlib.Algebra.BigOperators.Group.List.Basic
/-!
# ShareArray — folds over an array of shares (`progs/mixins/dataflow.py`)

`_tree_fold` awaits one call of the operation a round, on the even and the odd positions, and appends the element left
over.  The operation takes and returns arrays and may raise; shares are of any type.
-/
namespace Dpid

open TreeFold

/-- `ShareArray(values, t)`. -/
structure ShareArray (α : Type*) where
  shares : List α
  t : Nat
deriving DecidableEq

namespace ShareArray

variable {α : Type*}

/-! ## The program -/

/-- The loop of `_tree_fold` at `shares`, for at most `fuel` tests of its condition; `t` is the context's degree. -/
def treeLoop (t : Nat) (op : ShareArray α → ShareArray α → Except Exn (ShareArray α)) :
    Nat → List α → Option (Except Exn α)
  | 0, _           => none
  | fuel + 1, shares =>
    if 1 < shares.length then
      let left := evens shares
      let right := odds shares
      let extra := if right.length < left.length then left.getLast? else none
      let left := if right.length < left.length then left.dropLast else left
      match op ⟨left, t⟩ ⟨right, t⟩ with
      | .error e    => some (.error e)
      | .ok results => treeLoop t op fuel (results.shares ++ extra.toList)
    else match shares with
      | []     => some (.error .indexError)
      | a :: _ => some (.ok a)

/-- `_tree_fold(op)`. -/
def treeFold (t : Nat) (op : ShareArray α → ShareArray α → Except Exn (ShareArray α)) (fuel : Nat) (a : ShareArray α) :
    Option (Except Exn α) :=
  if a.shares.length = 0 then some (.error .assertionError) else treeLoop t op fuel a.shares

/-- `multiplicative_product()`, with the array product and the share of one. -/
def multiplicativeProduct (t : Nat) (mul : ShareArray α → ShareArray α → Except Exn (ShareArray α)) (one : α)
    (fuel : Nat) (a : ShareArray α) : Option (Except Exn α) :=
  if a.shares.length = 0 then some (.ok one) else treeFold t mul fuel a

/-! ## Elementwise operations -/

/-- An operation on arrays of one length that is `f` on single shares. -/
def Elementwise (op : ShareArray α → ShareArray α → Except Exn (ShareArray α)) (f : α → α → α) : Prop :=
  ∀ j k : ShareArray α, j.shares.length = k.shares.length → ∃ t, op j k = .ok ⟨List.zipWith f j.shares k.shares, t⟩

/-- The plain elementwise operation, with the assertion that the lengths agree. -/
def elementwise (t : Nat) (f : α → α → α) (j k : ShareArray α) : Except Exn (ShareArray α) :=
  if j.shares.length = k.shares.length then .ok ⟨List.zipWith f j.shares k.shares, t⟩ else .error .assertionError

theorem elementwise_elementwise (t : Nat) (f : α → α → α) : Elementwise (elementwise t f) f :=
  fun j k h => ⟨t, by rw [elementwise, if_pos h]⟩

/-! ## The fold -/

variable {t : Nat} {op : ShareArray α → ShareArray α → Except Exn (ShareArray α)} {f : α → α → α}

/-- **One round of the loop**: neighbours are joined in order. -/
theorem treeLoop_succ (hop : Elementwise op f) {shares : List α} (h : 1 < shares.length) (fuel : Nat) :
    treeLoop t op (fuel + 1) shares = treeLoop t op fuel (pairUp f shares) := by
  have hlen : (evens shares).length = (odds shares).length ∨ (evens shares).length = (odds shares).length + 1 := by
    rw [length_evens, length_odds]
    omega
  rw [treeLoop.eq_def]
  simp only [if_pos h]
  rcases hlen with heq | hodd
  · have hnot : ¬ (odds shares).length < (evens shares).length := by omega
    obtain ⟨t', ht'⟩ := hop ⟨evens shares, t⟩ ⟨odds shares, t⟩ heq
    simp only [if_neg hnot, ht', ← zipWith_append_unpaired f shares, unpaired, Option.toList_none]
  · have hlt : (odds shares).length < (evens shares).length := by omega
    have hdrop : (evens shares).dropLast.length = (odds shares).length := by
      rw [List.length_dropLast, hodd, Nat.add_sub_cancel]
    have htake : (evens shares).dropLast = (evens shares).take (odds shares).length := by
      rw [List.dropLast_eq_take, hodd, Nat.add_sub_cancel]
    obtain ⟨t', ht'⟩ := hop ⟨(evens shares).dropLast, t⟩ ⟨odds shares, t⟩ hdrop
    rw [htake, zipWith_take] at ht'
    simp only [if_pos hlt, htake, ht', ← zipWith_append_unpaired f shares, unpaired]

/-- **The loop is the tree fold**: it ends within as many tests as there are shares. -/
theorem treeLoop_eq_fold (hop : Elementwise op f) {fuel : Nat} {shares : List α} (hne : shares ≠ [])
    (hfuel : shares.length ≤ fuel) : ∃ a, fold f shares = some a ∧ treeLoop t op fuel shares = some (.ok a) := by
  induction fuel generalizing shares with
  | zero => exact absurd (List.length_eq_zero_iff.1 (Nat.le_zero.1 hfuel)) hne
  | succ fuel ih =>
    match shares with
    | [] => exact absurd rfl hne
    | [a] => exact ⟨a, by rw [fold], by simp [treeLoop]⟩
    | a :: b :: l =>
      have hlt : 1 < (a :: b :: l).length := by simp
      have hround : (pairUp f (a :: b :: l)).length ≤ fuel := by
        rw [length_pairUp]
        simp only [List.length_cons] at hfuel ⊢
        omega
      have hcons : pairUp f (a :: b :: l) ≠ [] := by
        rw [pairUp]
        exact List.cons_ne_nil _ _
      rw [treeLoop_succ hop hlt, ← fold_pairUp]
      exact ih hcons hround

/-- The loop over an associative operation. -/
theorem treeLoop_eq_foldl (hop : Elementwise op f) (hf : ∀ a b c, f (f a b) c = f a (f b c)) (a : α) (l : List α)
    {fuel : Nat} (hfuel : l.length < fuel) : treeLoop t op fuel (a :: l) = some (.ok (l.foldl f a)) := by
  have hlen : (a :: l).length ≤ fuel := hfuel
  obtain ⟨b, hb, hrun⟩ := treeLoop_eq_fold (t := t) hop (List.cons_ne_nil a l) hlen
  rw [fold_cons hf] at hb
  rw [hrun, Option.some.inj hb]

/-- **`_tree_fold` is the left-to-right fold** of every elementwise operation that is associative on single shares. -/
theorem treeFold_eq_foldl (hop : Elementwise op f) (hf : ∀ a b c, f (f a b) c = f a (f b c)) (a : α) (l : List α)
    (t' : Nat) {fuel : Nat} (hfuel : l.length < fuel) :
    treeFold t op fuel ⟨a :: l, t'⟩ = some (.ok (l.foldl f a)) := by
  have hcons : (a :: l).length ≠ 0 := Nat.succ_ne_zero _
  rw [treeFold, if_neg hcons, treeLoop_eq_foldl hop hf a l hfuel]

/-- Joining texts, which does not commute: the order of five shares is kept. -/
theorem treeFold_eq_foldl_texts :
    treeFold 1 (elementwise 1 String.append) 5 ⟨["a", "b", "c", "d", "e"], 1⟩ = some (.ok "abcde") :=
  treeFold_eq_foldl (elementwise_elementwise 1 _) (fun _ _ _ => String.append_assoc) "a" ["b", "c", "d", "e"] 1
    (by decide)

/-- The product of an array of shares. -/
theorem multiplicativeProduct_eq {M : Type*} [Monoid M] {op : ShareArray M → ShareArray M → Except Exn (ShareArray M)}
    (hop : Elementwise op (· * ·)) (shares : List M) (t' : Nat) {fuel : Nat} (hfuel : shares.length ≤ fuel) :
    multiplicativeProduct t op 1 fuel ⟨shares, t'⟩ = some (.ok shares.prod) := by
  cases shares with
  | nil => rw [multiplicativeProduct, if_pos List.length_nil, List.prod_nil]
  | cons a l =>
    have hcons : (a :: l).length ≠ 0 := Nat.succ_ne_zero _
    rw [multiplicativeProduct, if_neg hcons, treeFold, if_neg hcons, treeLoop_eq_foldl hop mul_assoc a l hfuel,
      List.prod_eq_foldl, List.foldl_cons, one_mul]

end ShareArray
end Dpid
