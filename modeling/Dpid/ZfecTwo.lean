import Dpid.Zfec
import Mathlib
/-!
# ZfecTwo — zfec at `K = 2`, `N = 4`

Byte by byte, the stripes of two blocks are the values, at the points 0, 1, 2 and 4 of the field of 256 elements, of the
line with the blocks at 0 and 1.  Two of them give the line back (`zfecTwo_isMds`).  Unlike `reedSolomon` this code
computes on all blocks.
-/
namespace Dpid
namespace ZfecTwo

/-! ## The field of 256 elements -/

/-- `2 x`, modulo the polynomial `x ^ 8 + x ^ 4 + x ^ 3 + x ^ 2 + 1`. -/
def double (x : Nat) : Nat := if x < 128 then 2 * x else (2 * x).xor 285

/-- `x y`, by the lowest `bits` bits of `x`. -/
def mulBits : Nat → Nat → Nat → Nat
  | 0, _, _        => 0
  | bits + 1, x, y => if x = 0 then 0 else (x % 2 * y).xor (mulBits bits (x / 2) (double y))

def mul (x y : UInt8) : UInt8 := UInt8.ofNat (mulBits 8 x.toNat y.toNat)

/-- The inverses of 1, …, 6. -/
def inv (x : UInt8) : UInt8 := [0, 1, 142, 244, 71, 167, 122].getD x.toNat 0

def points : List UInt8 := [0, 1, 2, 4]

theorem inv_mul_aux : ∀ x ∈ points, ∀ x' ∈ points, x ≠ x' → ∀ n : Fin 256,
    mul (inv (x ^^^ x')) (mul x (UInt8.ofNat n) ^^^ mul x' (UInt8.ofNat n)) = UInt8.ofNat n := by
  decide +kernel

theorem inv_mul {x x' : UInt8} (hx : x ∈ points) (hx' : x' ∈ points) (hne : x ≠ x') (e : UInt8) :
    mul (inv (x ^^^ x')) (mul x e ^^^ mul x' e) = e := by
  have he : UInt8.ofNat (e.toFin : Nat) = e := UInt8.ofNat_toNat
  have h := inv_mul_aux x hx x' hx' hne e.toFin
  rwa [he] at h

/-! ## Lines -/

/-- The value at `x` of the line through `a` at 0 and `b` at 1. -/
def symbol (x a b : UInt8) : UInt8 := a ^^^ mul x (a ^^^ b)

def slope (x x' y y' : UInt8) : UInt8 := mul (inv (x ^^^ x')) (y ^^^ y')

def atZero (x x' y y' : UInt8) : UInt8 := y ^^^ mul x (slope x x' y y')

def atOne (x x' y y' : UInt8) : UInt8 := atZero x x' y y' ^^^ slope x x' y y'

theorem xor_cancel (a b c : UInt8) : (a ^^^ b) ^^^ (a ^^^ c) = b ^^^ c := by
  rw [UInt8.xor_comm a b, UInt8.xor_assoc, ← UInt8.xor_assoc a a c, UInt8.xor_self, UInt8.zero_xor]

section Line

variable {x x' : UInt8} (hx : x ∈ points) (hx' : x' ∈ points) (hne : x ≠ x') (a b : UInt8)
include hx hx' hne

theorem slope_symbol : slope x x' (symbol x a b) (symbol x' a b) = a ^^^ b := by
  rw [slope, symbol, symbol, xor_cancel, inv_mul hx hx' hne]

theorem atZero_symbol : atZero x x' (symbol x a b) (symbol x' a b) = a := by
  rw [atZero, slope_symbol hx hx' hne, symbol, UInt8.xor_assoc, UInt8.xor_self, UInt8.xor_zero]

theorem atOne_symbol : atOne x x' (symbol x a b) (symbol x' a b) = b := by
  rw [atOne, atZero_symbol hx hx' hne, slope_symbol hx hx' hne, ← UInt8.xor_assoc, UInt8.xor_self, UInt8.zero_xor]

end Line

theorem zipWith_zipWith {g h h' k : UInt8 → UInt8 → UInt8} (hg : ∀ a b, g (h a b) (h' a b) = k a b) :
    ∀ A B : Bytes, List.zipWith g (List.zipWith h A B) (List.zipWith h' A B) = List.zipWith k A B
  | [], _          => rfl
  | _ :: _, []     => rfl
  | a :: A, b :: B => by simp only [List.zipWith_cons_cons, hg, zipWith_zipWith hg A B]

theorem zipWith_left : ∀ {A B : Bytes}, A.length = B.length → List.zipWith (fun a _ => a) A B = A
  | [], [], _         => rfl
  | a :: A, _ :: B, h => by rw [List.zipWith_cons_cons, zipWith_left (Nat.succ.inj h)]

theorem zipWith_right : ∀ {A B : Bytes}, A.length = B.length → List.zipWith (fun _ b => b) A B = B
  | [], [], _         => rfl
  | _ :: A, b :: B, h => by rw [List.zipWith_cons_cons, zipWith_right (Nat.succ.inj h)]

end ZfecTwo

open ZfecTwo

/-- zfec at `K = 2`, `N = 4`. -/
def zfecTwo : Zfec where
  encode _ _ bl :=
    match bl with
    | [A, B] => some (points.map (fun x => List.zipWith (symbol x) A B))
    | _      => none
  decode _ _ bl nums :=
    match bl, nums with
    | [Y, Y'], [i, i'] =>
      let x := points.getD i 0
      let x' := points.getD i' 0
      some [List.zipWith (atZero x x') Y Y', List.zipWith (atOne x x') Y Y']
    | _, _ => none

/-- **Any two of the four stripes give the blocks back.** -/
theorem zfecTwo_isMds : zfecTwo.IsMds 2 4 where
  encode_isSome bl L hK _ := by
    obtain ⟨A, B, rfl⟩ := List.length_eq_two.1 hK
    exact ⟨_, rfl, by simp [points]⟩
  decode_encode bl L stripes nums hK hL henc hn hnd hlt := by
    obtain ⟨A, B, rfl⟩ := List.length_eq_two.1 hK
    obtain ⟨i, i', rfl⟩ := List.length_eq_two.1 hn
    have hAB : A.length = B.length := (hL A (by simp)).trans (hL B (by simp)).symm
    have hi : i < 4 := hlt i (by simp)
    have hi' : i' < 4 := hlt i' (by simp)
    have hne : i ≠ i' := by simpa using hnd
    simp only [zfecTwo, Option.some.injEq] at henc
    have hget : ∀ k < 4, stripes[k]? = some (List.zipWith (symbol (points.getD k 0)) A B) := by
      intro k hk
      rw [← henc, List.getElem?_map, List.getD_eq_getElem?_getD, List.getElem?_eq_getElem (show k < points.length from hk)]
      rfl
    have hmem : ∀ k < 4, points.getD k 0 ∈ points := by decide
    have hinj : ∀ k < 4, ∀ k' < 4, k ≠ k' → points.getD k 0 ≠ points.getD k' 0 := by decide
    have hgot : [i, i'].filterMap (stripes[·]?) =
        [List.zipWith (symbol (points.getD i 0)) A B, List.zipWith (symbol (points.getD i' 0)) A B] := by
      simp only [List.filterMap_cons, hget i hi, hget i' hi', List.filterMap_nil]
    rw [hgot]
    simp only [zfecTwo]
    have hx := hmem i hi
    have hx' := hmem i' hi'
    have hxx := hinj i hi i' hi' hne
    rw [zipWith_zipWith (atZero_symbol hx hx' hxx), zipWith_zipWith (atOne_symbol hx hx' hxx), zipWith_left hAB,
      zipWith_right hAB]

end Dpid
