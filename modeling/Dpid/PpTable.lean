import Dpid.Windows
import Mathlib.Algebra.Group.TypeTags.Basic
import Mathlib.Algebra.Field.Defs
import Mathlib.Data.Nat.Digits.Lemmas
/-!
# PpTable — the tables of multiples (`pairing/src/lib.rs`: `hex_to_bin`, `preprocess`, `ppmul`, `pppow`)

An object of `PyG1`, `PyG2`, `PyFq12` or `PyRistG` has an element, a table `pp` and the level `pplevel` the table was
made with.  The groups are written additively; `Fq12` as `Additive K`, whose sum is the product of `K` and whose multiple
is the power.  `none` is a panic, an index out of bounds and an overflow among them.  Memory is not bounded, but by the
`isize::MAX` bytes that a vector may have.
-/
namespace Dpid

structure PpObj (G : Type) where
  elem : G
  pp : List G
  pplevel : Nat

namespace Pairing

/-- The order of the scalar field. -/
def frModulus : Nat := 0x73eda753299d7d483339d80809a1d80553bda402fffe5bfeffffffff00000001

/-- `Fr`, by representatives. -/
abbrev Fr := Fin frModulus

/-! ## The printed form -/

def hexDigit : Nat → Char
  | 0  => '0'
  | 1  => '1'
  | 2  => '2'
  | 3  => '3'
  | 4  => '4'
  | 5  => '5'
  | 6  => '6'
  | 7  => '7'
  | 8  => '8'
  | 9  => '9'
  | 10 => 'a'
  | 11 => 'b'
  | 12 => 'c'
  | 13 => 'd'
  | 14 => 'e'
  | _  => 'f'

/-- The last `k` hex digits. -/
def hexDigits : Nat → Nat → List Char
  | 0, _     => []
  | k + 1, n => hexDigits k (n / 16) ++ [hexDigit (n % 16)]

/-- `format!("{}", fr)`. -/
def frDisplay (n : Fr) : List Char := ['F', 'r', '(', '0', 'x'] ++ hexDigits 64 n ++ [')']

/-- The `match` of `hex_to_bin`. -/
def hexBin : Char → List Char
  | '0'       => ['0', '0', '0', '0']
  | '1'       => ['0', '0', '0', '1']
  | '2'       => ['0', '0', '1', '0']
  | '3'       => ['0', '0', '1', '1']
  | '4'       => ['0', '1', '0', '0']
  | '5'       => ['0', '1', '0', '1']
  | '6'       => ['0', '1', '1', '0']
  | '7'       => ['0', '1', '1', '1']
  | '8'       => ['1', '0', '0', '0']
  | '9'       => ['1', '0', '0', '1']
  | 'A' | 'a' => ['1', '0', '1', '0']
  | 'B' | 'b' => ['1', '0', '1', '1']
  | 'C' | 'c' => ['1', '1', '0', '0']
  | 'D' | 'd' => ['1', '1', '0', '1']
  | 'E' | 'e' => ['1', '1', '1', '0']
  | 'F' | 'f' => ['1', '1', '1', '1']
  | _         => []

/-- `hex_to_bin` of an ASCII text: only a prefix `0x` of the whole text is cut off. -/
def hexToBin (hexstr : List Char) : Option (List Char) := do
  let second ← hexstr[1]?
  let searchstr := if second = 'x' then hexstr.drop 2 else hexstr
  return searchstr.flatMap hexBin

/-! ## `preprocess` -/

section

variable {G : Type} [AddCommMonoid G]

/-- The body of the first loop. -/
def pushNext (elem : G) (pp : List G) (i : Nat) : Option (List G) := (pp[i - 1]?).map fun next => pp ++ [next + elem]

/-- The body of the second one: `factor` times the entry a block before. -/
def pushBlock (base : Nat) (pp : List G) (i : Nat) : Option (List G) :=
  (pp[i - (base - 1)]?).map fun next => pp ++ [base • next]

/-- The loops of `preprocess`, the second one up to `size`. -/
def fill (elem : G) (base size : Nat) : Option (List G) := do
  let pp ← (List.range' 1 (base - 1 - 1)).foldlM (pushNext elem) [elem]
  (List.range' (base - 1) (size - (base - 1))).foldlM (pushBlock base) pp

/-- `base.pow(level as u32)`. -/
def baseOf (level : Nat) : Nat := 2 ^ (level % 2 ^ 32)

/-- What each `preprocess` has of its own: the product of `u64`s it computes, the number of entries, which is the end of its
second loop, and the bytes of an entry. -/
structure Layout where
  product : Nat → Nat
  size : Nat → Nat
  bytes : Nat

/-- A division by the level 0, a power of 64 or more, a product past `u64`, and a capacity past `isize::MAX`. -/
def Layout.Panics (l : Layout) (level : Nat) : Prop :=
  level = 0 ∨ 64 ≤ level % 2 ^ 32 ∨ 2 ^ 64 ≤ l.product level ∨ 2 ^ 63 ≤ l.size level * l.bytes

instance decidablePanics (l : Layout) (level : Nat) : Decidable (l.Panics level) :=
  inferInstanceAs (Decidable (_ ∨ _ ∨ _ ∨ _))

/-- `preprocess`. -/
def preprocess (l : Layout) (o : PpObj G) (level : Nat) : Option (PpObj G) :=
  if l.Panics level then none
  else (fill o.elem (baseOf level) (l.size level)).map fun pp => { o with pp, pplevel := level }

def PyG1.size (level : Nat) : Nat := (baseOf level - 1) * ((255 + level - 1) / level)

/-- The product is divided here. -/
def PyG2.size (level : Nat) : Nat := (baseOf level - 1) * (255 + level - 1) / level

def PyFq12.size (level : Nat) : Nat := (baseOf level - 1) * (255 + level - 1) / level

def PyRistG.size (level : Nat) : Nat := (baseOf level - 1) * ((252 + level - 1) / level)

/-- Three `Fq` of 48 bytes. -/
def PyG1.layout : Layout := ⟨PyG1.size, PyG1.size, 144⟩

def PyG2.layout : Layout := ⟨fun level => (baseOf level - 1) * (255 + level - 1), PyG2.size, 288⟩

def PyFq12.layout : Layout := ⟨fun level => (baseOf level - 1) * (255 + level - 1), PyFq12.size, 576⟩

/-- Four field elements of 40 bytes. -/
def PyRistG.layout : Layout := ⟨PyRistG.size, PyRistG.size, 160⟩

def PyG1.preprocess (o : PpObj G) (level : Nat) : Option (PpObj G) := Pairing.preprocess PyG1.layout o level

def PyG2.preprocess (o : PpObj G) (level : Nat) : Option (PpObj G) := Pairing.preprocess PyG2.layout o level

def PyFq12.preprocess {K : Type} [Field K] (o : PpObj (Additive K)) (level : Nat) : Option (PpObj (Additive K)) :=
  Pairing.preprocess PyFq12.layout o level

def PyRistG.preprocess (o : PpObj G) (level : Nat) : Option (PpObj G) := Pairing.preprocess PyRistG.layout o level

/-! ## `ppmul` and `pppow` -/

/-- `pp[(2**level - 1) * b + (d - 1)]`. -/
def entry (pp : List G) (level b d : Nat) : Option G :=
  if 64 ≤ level % 2 ^ 32 then none else pp[(baseOf level - 1) * b + (d - 1)]?

/-- Where it is `due`, the window is added and the buffer set to zero.  An error is a panic, with what `out` is then. -/
def flush (due : Prop) [Decidable due] (pp : List G) (level b buffer : Nat) (out : G) : Except G (G × Nat) :=
  if due then
    match entry pp level b buffer with
    | none   => .error out
    | some x => .ok (out + x, 0)
  else .ok (out, buffer)

/-- The bit is put into the buffer; a power of 64 or more overflows. -/
def pushBit (c : Char) (level i buffer : Nat) (out : G) : Except G Nat :=
  if c = '1' then if 64 ≤ i % level then .error out else .ok (buffer + 2 ^ (i % level)) else .ok buffer

/-- The loop over `binstr.chars().rev().enumerate()`: a window is added when the next one begins.  The remainder by the
level 0 panics. -/
def scan (pp : List G) (level : Nat) : List Char → Nat → Nat → G → Except G G
  | [], _, _, out           => .ok out
  | c :: cs, i, buffer, out => do
    if level = 0 then throw out
    let (out, buffer) ← flush (i % level = 0 ∧ buffer ≠ 0) pp level (i / level - 1) buffer out
    let buffer ← pushBit c level i buffer out
    scan pp level cs (i + 1) buffer out

/-- `out` with the element that a loop has ended with, or panicked at. -/
def setElem (out : PpObj G) : Except G G → Except (PpObj G) (PpObj G)
  | .ok x    => .ok { out with elem := x }
  | .error x => .error { out with elem := x }

/-- `ppmul` and `pppow`: what `out` is then, also at a panic. -/
def ppmulInto (o : PpObj G) (prodend : Fr) (out : PpObj G) : Except (PpObj G) (PpObj G) :=
  if o.pp.length = 0 then .ok { out with elem := (prodend : Nat) • o.elem }
  else
    setElem out (match hexToBin (frDisplay prodend) with
      | none        => .error (0 • out.elem)
      | some binstr => scan o.pp o.pplevel binstr.reverse 0 0 (0 • out.elem))

/-- What `out` is when they return. -/
def ppmul (o : PpObj G) (prodend : Fr) (out : PpObj G) : Option (PpObj G) := (ppmulInto o prodend out).toOption

def PyG1.ppmul (o : PpObj G) (prodend : Fr) (out : PpObj G) : Option (PpObj G) := Pairing.ppmul o prodend out

def PyG2.ppmul (o : PpObj G) (prodend : Fr) (out : PpObj G) : Option (PpObj G) := Pairing.ppmul o prodend out

def PyFq12.pppow {K : Type} [Field K] (o : PpObj (Additive K)) (prodend : Fr) (out : PpObj (Additive K)) :
    Option (PpObj (Additive K)) :=
  Pairing.ppmul o prodend out

end

/-! ## What `preprocess` writes -/

section Table

variable {G : Type} [AddCommMonoid G]

/-- The entry at `i`: blocks of `base - 1` multiples, each `base` times the one before. -/
def multipleAt (g : G) (base i : Nat) : G := ((i % (base - 1) + 1) * base ^ (i / (base - 1))) • g

theorem foldlM_range' {α : Type} {f : Nat → α} {step : List α → Nat → Option (List α)} : ∀ (k s : Nat)
    (_ : ∀ i, s ≤ i → i < s + k → step ((List.range i).map f) i = some ((List.range (i + 1)).map f)),
    (List.range' s k).foldlM step ((List.range s).map f) = some ((List.range (s + k)).map f)
  | 0, s, _     => rfl
  | k + 1, s, h => by
    have ih := foldlM_range' k (s + 1) (fun i hs hk => h i (by omega) (by omega))
    rw [List.range'_succ, List.foldlM_cons, h s (Nat.le_refl s) (by omega)]
    rw [Nat.add_right_comm, Nat.add_assoc] at ih
    exact ih

theorem mapM_eq_map {α β : Type} {f : α → Option β} {g : α → β} : ∀ {l : List α}, (∀ a ∈ l, f a = some (g a)) →
    l.mapM f = some (l.map g)
  | [], _     => rfl
  | a :: l, h => by
    rw [List.mapM_cons, h a List.mem_cons_self, mapM_eq_map (fun b hb => h b (List.mem_cons_of_mem a hb))]
    rfl

theorem range_map_getElem? {α : Type} {f : Nat → α} {n i : Nat} (h : i < n) : ((List.range n).map f)[i]? = some (f i) := by
  rw [List.getElem?_map, List.getElem?_range h, Option.map_some]

theorem pushNext_multipleAt (g : G) {base i : Nat} (h₁ : 1 ≤ i) (h : i < base - 1) :
    pushNext g ((List.range i).map (multipleAt g base)) i = some ((List.range (i + 1)).map (multipleAt g base)) := by
  have hlt : i - 1 < base - 1 := by omega
  have hnext : multipleAt g base i = multipleAt g base (i - 1) + g := by
    rw [multipleAt, multipleAt, Nat.mod_eq_of_lt h, Nat.mod_eq_of_lt hlt, Nat.div_eq_of_lt h, Nat.div_eq_of_lt hlt,
      Nat.sub_add_cancel h₁, Nat.pow_zero, Nat.mul_one, Nat.mul_one, succ_nsmul]
  rw [pushNext, range_map_getElem? (by omega), Option.map_some, List.range_succ, List.map_append, ← hnext]
  rfl

theorem pushBlock_multipleAt (g : G) {base i : Nat} (hbase : 2 ≤ base) (h : base - 1 ≤ i) :
    pushBlock base ((List.range i).map (multipleAt g base)) i = some ((List.range (i + 1)).map (multipleAt g base)) := by
  have hnext : multipleAt g base i = base • multipleAt g base (i - (base - 1)) := by
    rw [multipleAt, multipleAt, Nat.mod_eq_sub_mod h, Nat.div_eq_sub_div (by omega) h, ← mul_nsmul', Nat.pow_succ, ← Nat.mul_assoc,
      Nat.mul_comm base]
  rw [pushBlock, range_map_getElem? (by omega), Option.map_some, List.range_succ, List.map_append, ← hnext]
  rfl

/-- **The table is the list of the multiples.** -/
theorem fill_eq (g : G) {base : Nat} (hbase : 2 ≤ base) (size : Nat) :
    fill g base size = some ((List.range (base - 1 + (size - (base - 1)))).map (multipleAt g base)) := by
  have hfirst : multipleAt g base 0 = g := by
    rw [multipleAt, Nat.zero_mod, Nat.zero_div, Nat.pow_zero, Nat.mul_one, Nat.zero_add, one_nsmul]
  have hone : [g] = (List.range 1).map (multipleAt g base) := by
    rw [List.range_one, List.map_singleton, hfirst]
  have hnext := foldlM_range' (f := multipleAt g base) (base - 1 - 1) 1 (fun i h₁ h => pushNext_multipleAt g h₁ (by omega))
  have hblock := foldlM_range' (f := multipleAt g base) (size - (base - 1)) (base - 1)
    (fun i h _ => pushBlock_multipleAt g hbase h)
  have hsum : 1 + (base - 1 - 1) = base - 1 := by omega
  rw [hsum] at hnext
  rw [fill, hone, hnext]
  exact hblock

theorem multipleAt_block (g : G) {base b d : Nat} (hd : 1 ≤ d) (hlt : d ≤ base - 1) :
    multipleAt g base ((base - 1) * b + (d - 1)) = (d * base ^ b) • g := by
  rw [multipleAt, Nat.mul_add_mod, Nat.mod_eq_of_lt (by omega), Nat.sub_add_cancel hd, Nat.mul_add_div (by omega),
    Nat.div_eq_of_lt (by omega), Nat.add_zero]

end Table

end Pairing
end Dpid
