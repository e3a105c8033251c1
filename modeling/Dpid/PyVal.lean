import Dpid.Bytes
import Mathlib.Data.Rat.Defs
/-!
# PyVal — any value a message may carry

What a receiver does with a value it has not checked depends on Python's `==`, on hashing and on list indices.
`True == 1 == 1.0`, and equal values are one key of a dict; a list index is an `int` or a `bool`, never a `float`; a
list, a dict or a set has no hash.
-/
namespace Dpid

/-- A value that is no tuple.  An `object` is any other one, by its class under `==`; a `nan` is one too. -/
inductive PyAtom where
  | none
  | bool (b : Bool)
  | int (i : Int)
  | float (x : Rat)
  | str (s : String)
  | object (id : Nat) (hashable : Bool)
deriving DecidableEq

inductive PyVal where
  | atom (a : PyAtom)
  | tuple (l : List PyAtom)
deriving DecidableEq

/-- Equal values have one key. -/
def PyAtom.key : PyAtom → PyAtom
  | .bool b  => .int b.toNat
  | .float x => if x.den = 1 then .int x.num else .float x
  | a        => a

def PyVal.key : PyVal → PyVal
  | .atom a  => .atom a.key
  | .tuple l => .tuple (l.map PyAtom.key)

def PyAtom.hashable : PyAtom → Bool
  | .object _ h => h
  | _           => true

def PyVal.hashable : PyVal → Bool
  | .atom a  => a.hashable
  | .tuple l => l.all PyAtom.hashable

/-- The key under which a dict looks a value up. -/
def PyVal.dictKey (v : PyVal) : Except Exn PyVal := if v.hashable then .ok v.key else .error .typeError

/-- The value as a list index. -/
def PyVal.listIndex : PyVal → Except Exn Int
  | .atom (.int i)  => .ok i
  | .atom (.bool b) => .ok b.toNat
  | _               => .error .typeError

/-- `n` as a value. -/
def PyVal.ofNat (n : Nat) : PyVal := .atom (.int n)

/-- The bit `0` or `1` as a value. -/
def PyVal.ofBit (b : Bool) : PyVal := .atom (.int b.toNat)

/-- Which of `0` and `1` the value equals: `v in (0, 1)`. -/
def PyVal.bit (v : PyVal) : Option Bool :=
  if v.key = .ofBit false then some false else if v.key = .ofBit true then some true else none

@[simp] theorem PyVal.key_ofNat (n : Nat) : (PyVal.ofNat n).key = .ofNat n := rfl

@[simp] theorem PyVal.key_ofBit (b : Bool) : (PyVal.ofBit b).key = .ofBit b := rfl

@[simp] theorem PyVal.hashable_ofNat (n : Nat) : (PyVal.ofNat n).hashable = true := rfl

@[simp] theorem PyVal.dictKey_ofNat (n : Nat) : (PyVal.ofNat n).dictKey = .ok (.ofNat n) := rfl

theorem PyVal.ofNat_inj {m n : Nat} (h : PyVal.ofNat m = PyVal.ofNat n) : m = n := by
  simp only [PyVal.ofNat, PyVal.atom.injEq, PyAtom.int.injEq, Int.ofNat_inj] at h
  exact h

theorem PyVal.ofBit_inj {a b : Bool} (h : PyVal.ofBit a = PyVal.ofBit b) : a = b := by
  cases a <;> cases b <;> simp_all [PyVal.ofBit]

@[simp] theorem PyVal.bit_ofBit (b : Bool) : (PyVal.ofBit b).bit = some b := by
  cases b <;> decide

theorem PyVal.bit_eq_some {v : PyVal} {b : Bool} : v.bit = some b ↔ v.key = .ofBit b := by
  unfold PyVal.bit
  constructor
  · intro h
    split at h
    · cases h; assumption
    · split at h
      · cases h; assumption
      · cases h
  · intro h
    rw [h]
    cases b <;> decide

/-! ## One of two list entries -/

/-- The entry `l[v]` of a list of two is the second one. -/
def PyVal.slot (v : PyVal) : Except Exn Bool := do
  let i ← v.listIndex
  let k ← pyIndex 2 i
  return k = 1

@[simp] theorem PyVal.slot_ofBit (b : Bool) : (PyVal.ofBit b).slot = .ok b := by
  cases b <;> rfl

theorem PyVal.slot_eq {v : PyVal} {b c : Bool} (hb : v.bit = some b) (hc : v.slot = .ok c) : c = b := by
  rw [PyVal.bit_eq_some] at hb
  unfold PyVal.slot at hc
  obtain ⟨a⟩ | ⟨l⟩ := v
  · cases a with
    | bool d =>
      have hd : d = b := by
        cases d <;> cases b <;> simp_all [PyVal.key, PyAtom.key, PyVal.ofBit]
      subst hd
      cases d <;> simpa [PyVal.listIndex, pyIndex, bind, Except.bind, pure, Except.pure, eq_comm] using hc
    | int i =>
      have hi : i = b.toNat := by simpa [PyVal.key, PyAtom.key, PyVal.ofBit] using hb
      subst hi
      cases b <;> simpa [PyVal.listIndex, pyIndex, bind, Except.bind, pure, Except.pure, eq_comm] using hc
    | none | float | str | object => simp [PyVal.listIndex, bind, Except.bind] at hc
  · simp [PyVal.listIndex, bind, Except.bind] at hc

theorem PyVal.slot_of_bit {v : PyVal} {b : Bool} (hb : v.bit = some b) :
    v.slot = .ok b ↔ v = .ofBit b ∨ v = .atom (.bool b) := by
  constructor
  · intro hs
    rw [PyVal.bit_eq_some] at hb
    obtain ⟨a⟩ | ⟨l⟩ := v
    · cases a with
      | bool d =>
        right
        cases d <;> cases b <;> simp_all [PyVal.key, PyAtom.key, PyVal.ofBit]
      | int i => exact Or.inl hb
      | none | float | str | object => simp [PyVal.slot, PyVal.listIndex, bind, Except.bind] at hs
    · simp [PyVal.slot, PyVal.listIndex, bind, Except.bind] at hs
  · rintro (rfl | rfl)
    · exact PyVal.slot_ofBit b
    · cases b <;> rfl

end Dpid
