import Mathlib.Data.Nat.Bitwise
import Mathlib.Data.List.Basic
/-!
# HashTree — paths in a heap-numbered hash tree

A binary tree numbered as a heap: the children of `t` are `2 t` and `2 t + 1`, its parent is `t / 2`, its sibling is
`t ^^^ 1`, and every inner value is the hash of its children's values, the left one first.  A verifier climbs from a
leaf with one sibling value per level.  `climb_siblings`: the tree's own siblings lead to the tree's value;
`climb_binding`: whatever leads to it is the tree's own leaf and siblings, or two of the strings hashed collide.

Only the width of the hash values is assumed, never injectivity: a step concatenates its two strings without a
delimiter, and the climber's own part has the width of a hash.
-/
namespace HashTree

variable {α : Type} (H : List α → List α)

/-- The string a step at node `t` hashes: the sibling's part first when `t` is a right child. -/
def combine (t : ℕ) (tmp br : List α) : List α := if t % 2 = 1 then br ++ tmp else tmp ++ br

/-- Climbing from `t` with the value `tmp`, one branch entry a level. -/
def climb : ℕ → List α → List (List α) → List α
  | _, tmp, []         => tmp
  | t, tmp, br :: rest => climb (t / 2) (H (combine t tmp br)) rest

/-- The strings hashed by a climb. -/
def climbInputs : ℕ → List α → List (List α) → List (List α)
  | _, _, []           => []
  | t, tmp, br :: rest => combine t tmp br :: climbInputs (t / 2) (H (combine t tmp br)) rest

/-- The siblings of `t` and of the `k - 1` nodes above it. -/
def siblings (tree : ℕ → List α) : ℕ → ℕ → List (List α)
  | _, 0     => []
  | t, k + 1 => tree (t ^^^ 1) :: siblings tree (t / 2) k

/-- The strings the tree itself hashes on the `k` levels above `t`. -/
def pathInputs (tree : ℕ → List α) : ℕ → ℕ → List (List α)
  | _, 0     => []
  | t, k + 1 => combine t (tree t) (tree (t ^^^ 1)) :: pathInputs tree (t / 2) k

/-- Every value on the `k` levels above `t` is the hash of its children's. -/
def Hashed (tree : ℕ → List α) : ℕ → ℕ → Prop
  | _, 0     => True
  | t, k + 1 => tree (t / 2) = H (combine t (tree t) (tree (t ^^^ 1))) ∧ Hashed tree (t / 2) k

theorem xor_one_eq (t : ℕ) : t ^^^ 1 = if t % 2 = 1 then t - 1 else t + 1 := by
  have hd : (t ^^^ 1) / 2 = t / 2 := by rw [Nat.xor_div_two]; simp
  have hm : (t ^^^ 1) % 2 = (t + 1) % 2 := Nat.xor_mod_two_eq
  split <;> omega

/-- A node and its sibling combine to the children of its parent, in order. -/
theorem combine_sibling (tree : ℕ → List α) (t : ℕ) :
    combine t (tree t) (tree (t ^^^ 1)) = tree (2 * (t / 2)) ++ tree (2 * (t / 2) + 1) := by
  rw [combine, xor_one_eq]
  split
  · have h1 : 2 * (t / 2) = t - 1 := by omega
    have h2 : t - 1 + 1 = t := by omega
    rw [h1, h2]
  · have h1 : 2 * (t / 2) = t := by omega
    rw [h1]

theorem combine_inj {t : ℕ} {a b c d : List α} (h : combine t a b = combine t c d) (hl : a.length = c.length) :
    a = c ∧ b = d := by
  unfold combine at h
  split at h
  · exact (List.append_inj' h hl).symm
  · exact List.append_inj h hl

theorem combine_congr {t t' : ℕ} (h : t % 2 = t' % 2) (a b : List α) : combine t a b = combine t' a b := by
  rw [combine, combine, h]

theorem siblings_length (tree : ℕ → List α) : ∀ k t, (siblings tree t k).length = k
  | 0, _     => rfl
  | k + 1, t => by rw [siblings, List.length_cons, siblings_length tree k]

/-- **The tree's own siblings lead from a node to the value `k` levels up.** -/
theorem climb_siblings (tree : ℕ → List α) : ∀ k t, Hashed H tree t k →
    climb H t (tree t) (siblings tree t k) = tree (t / 2 ^ k)
  | 0, t, _     => by simp [siblings, climb]
  | k + 1, t, h => by
    rw [siblings, climb, ← h.1, climb_siblings tree k (t / 2) h.2, Nat.div_div_eq_div_mul, ← Nat.pow_succ']

theorem climbInputs_siblings (tree : ℕ → List α) : ∀ k t, Hashed H tree t k →
    climbInputs H t (tree t) (siblings tree t k) = pathInputs tree t k
  | 0, _, _     => rfl
  | k + 1, t, h => by rw [siblings, climbInputs, pathInputs, ← h.1, climbInputs_siblings tree k (t / 2) h.2]

/-- A climb from a value as wide as a hash ends in one. -/
theorem climb_length {w : ℕ} (hw : ∀ x, (H x).length = w) : ∀ (branch : List (List α)) (t : ℕ) (tmp : List α),
    tmp.length = w → (climb H t tmp branch).length = w
  | [], _, _, h             => h
  | _ :: rest, t, _, _      => climb_length hw rest (t / 2) _ (hw _)

/-- Two different strings of a list with the same hash. -/
def Collide (inputs : List (List α)) : Prop := ∃ x ∈ inputs, ∃ y ∈ inputs, x ≠ y ∧ H x = H y

theorem Collide.mono {A B : List (List α)} (h : Collide H A) (hs : ∀ x ∈ A, x ∈ B) : Collide H B := by
  obtain ⟨x, hx, y, hy, hne, heq⟩ := h
  exact ⟨x, hs x hx, y, hs y hy, hne, heq⟩

/-- **A climb that reaches the tree's value took the tree's own path**, or two of the strings hashed collide. -/
theorem climb_binding {w : ℕ} (hw : ∀ x, (H x).length = w) (tree : ℕ → List α) :
    ∀ (branch : List (List α)) (t : ℕ) (tmp : List α), Hashed H tree t branch.length → (tree t).length = tmp.length →
      climb H t tmp branch = tree (t / 2 ^ branch.length) →
      (tmp = tree t ∧ branch = siblings tree t branch.length) ∨
        Collide H (climbInputs H t tmp branch ++ pathInputs tree t branch.length)
  | [], t, tmp, _, _, h => by
    left
    simpa [climb, siblings] using h
  | br :: rest, t, tmp, hh, hl, h => by
    rw [List.length_cons, Nat.pow_succ', ← Nat.div_div_eq_div_mul] at h
    have hlen : (tree (t / 2)).length = (H (combine t tmp br)).length := by rw [hh.1, hw, hw]
    rcases climb_binding hw tree rest (t / 2) _ hh.2 hlen h with ⟨htop, hrest⟩ | hc
    · by_cases heq : combine t tmp br = combine t (tree t) (tree (t ^^^ 1))
      · obtain ⟨h1, h2⟩ := combine_inj heq hl.symm
        left
        refine ⟨h1, ?_⟩
        rw [List.length_cons, siblings, ← h2, ← hrest]
      · right
        refine ⟨_, List.mem_append_left _ List.mem_cons_self, _, List.mem_append_right _ List.mem_cons_self, heq, ?_⟩
        rw [htop, hh.1]
    · right
      refine hc.mono H (fun x hx => ?_)
      rcases List.mem_append.1 hx with hx | hx
      · exact List.mem_append_left _ (List.mem_cons_of_mem _ hx)
      · exact List.mem_append_right _ (List.mem_cons_of_mem _ hx)

/-- A climb of `k` levels reads only the last `k` bits of its starting node. -/
theorem climb_add (b : ℕ) : ∀ (branch : List (List α)) (t : ℕ) (tmp : List α), 2 ^ branch.length ∣ b →
    climb H (t + b) tmp branch = climb H t tmp branch ∧
      climbInputs H (t + b) tmp branch = climbInputs H t tmp branch
  | [], _, _, _ => ⟨rfl, rfl⟩
  | br :: rest, t, tmp, hb => by
    obtain ⟨c, rfl⟩ := hb
    have hpow : 2 ^ (br :: rest).length * c = 2 * (2 ^ rest.length * c) := by
      rw [List.length_cons, Nat.pow_succ', Nat.mul_assoc]
    have hdiv : (t + 2 * (2 ^ rest.length * c)) / 2 = t / 2 + 2 ^ rest.length * c := by omega
    have hmod : (t + 2 * (2 ^ rest.length * c)) % 2 = t % 2 := by omega
    obtain ⟨h1, h2⟩ := climb_add (2 ^ rest.length * c) rest (t / 2) (H (combine t tmp br)) (Nat.dvd_mul_right _ _)
    rw [hpow, climb, climbInputs, climb, climbInputs, hdiv, combine_congr hmod, h1, h2]
    exact ⟨rfl, rfl⟩

end HashTree
