import Mathlib.Algebra.Group.Basic
import Mathlib.Data.Nat.ModEq
/-!
# Windows — multiples from a table

A number is read in windows of `L` bits, and its multiple of an element is the sum of the table's entries for the
windows that are not zero.  A table may lack an entry, and then there is no sum.
-/
namespace Dpid
namespace Windows

/-- The window `b` of `v`. -/
def digit (L v b : Nat) : Nat := v / 2 ^ (L * b) % 2 ^ L

theorem mod_two_pow_succ (L v b : Nat) : v % 2 ^ (L * (b + 1)) = v % 2 ^ (L * b) + digit L v b * 2 ^ (L * b) := by
  rw [Nat.mul_succ, Nat.pow_add, Nat.mod_mul, digit, Nat.mul_comm (2 ^ (L * b))]

theorem digit_lt (L v b : Nat) : digit L v b < 2 ^ L := Nat.mod_lt _ (Nat.two_pow_pos L)

theorem digit_eq_zero {L v b : Nat} (h : v < 2 ^ (L * b)) : digit L v b = 0 := by
  rw [digit, Nat.div_eq_of_lt h, Nat.zero_mod]

section

variable {G : Type} [AddCommMonoid G] (table : Nat → Nat → Option G) (L v : Nat)

/-- Adds the entry of the window `b`, unless that is zero. -/
def addWindow (b : Nat) (out : G) : Option G :=
  if digit L v b = 0 then some out else (table b (digit L v b)).map (out + ·)

/-- The same for `n` windows from `b` on. -/
def addWindows : Nat → Nat → G → Option G
  | _, 0, out     => some out
  | b, n + 1, out => (addWindow table L v b out).bind (addWindows (b + 1) n)

variable {table L v}

/-- The entry of a window is the multiple by it, at its place. -/
def IsMultiple (table : Nat → Nat → Option G) (L : Nat) (g : G) (b d : Nat) : Prop := table b d = some ((d * 2 ^ (L * b)) • g)

theorem addWindow_eq {g : G} {b : Nat} (h : digit L v b ≠ 0 → IsMultiple table L g b (digit L v b)) :
    addWindow table L v b ((v % 2 ^ (L * b)) • g) = some ((v % 2 ^ (L * (b + 1))) • g) := by
  unfold addWindow
  rw [mod_two_pow_succ]
  split
  · rename_i hd
    rw [hd, Nat.zero_mul, Nat.add_zero]
  · rename_i hd
    rw [h hd, Option.map_some, ← add_nsmul]

/-- **The windows up to `b + n` give the multiple by the bits below them.** -/
theorem addWindows_eq {g : G} : ∀ (n b : Nat)
    (_ : ∀ c, b ≤ c → c < b + n → digit L v c ≠ 0 → IsMultiple table L g c (digit L v c)),
    addWindows table L v b n ((v % 2 ^ (L * b)) • g) = some ((v % 2 ^ (L * (b + n))) • g)
  | 0, _, _     => rfl
  | n + 1, b, h => by
    have hn := addWindows_eq n (b + 1) (fun c hb hc => h c (by omega) (by omega))
    rw [addWindows, addWindow_eq (h b (Nat.le_refl b) (by omega)), Option.bind_some, hn, Nat.add_right_comm, Nat.add_assoc]

/-- **A window that is not zero and has no entry**: there is no sum. -/
theorem addWindows_none {c : Nat} (hd : digit L v c ≠ 0) (hc : table c (digit L v c) = none) :
    ∀ (n b : Nat) (out : G), b ≤ c → c < b + n → addWindows table L v b n out = none
  | 0, _, _, hb, hn       => absurd hn (Nat.not_lt.2 hb)
  | n + 1, b, out, hb, hn => by
    rw [addWindows]
    by_cases hbc : b = c
    · rw [hbc, addWindow, if_neg hd, hc]
      rfl
    · cases hw : addWindow table L v b out with
      | none      => rfl
      | some out' => exact addWindows_none hd hc n (b + 1) out' (by omega) (by omega)

end

end Windows
end Dpid
