import Dpid.PpTable
import Dpid.Primality
/-!
# FrRepr — the scalar field of the pairing and its limbs

`Fr` is the field of `frModulus` elements, a prime by a chain of Lucas tests.  An `FrRepr` is four limbs of 64 bits, the
lowest first; `into_repr` gives those of the representative, and `from_repr` refuses what is not below the modulus.
-/
namespace Dpid
namespace Pairing

/-- `Fr`, with its arithmetic. -/
abbrev FrField := ZMod frModulus

/-! ## The prime -/

def frSteps : List Primality.Step :=
  [⟨2, 1, []⟩, ⟨3, 2, [2]⟩, ⟨5, 2, [2, 2]⟩, ⟨11, 2, [2, 5]⟩, ⟨19, 2, [2, 3, 3]⟩, ⟨13, 2, [2, 2, 3]⟩, ⟨53, 2, [2, 2, 13]⟩,
   ⟨10177, 7, [2, 2, 2, 2, 2, 2, 3, 53]⟩, ⟨7, 3, [2, 3]⟩, ⟨29, 2, [2, 2, 7]⟩, ⟨523, 2, [2, 3, 3, 29]⟩,
   ⟨20921, 3, [2, 2, 2, 5, 523]⟩, ⟨125527, 5, [2, 3, 20921]⟩, ⟨17, 3, [2, 2, 2, 2]⟩,
   ⟨47737, 5, [2, 2, 2, 3, 3, 3, 13, 17]⟩, ⟨859267, 2, [2, 3, 3, 47737]⟩, ⟨23, 5, [2, 11]⟩, ⟨47, 5, [2, 23]⟩,
   ⟨73, 5, [2, 2, 2, 3, 3]⟩, ⟨1607, 5, [2, 11, 73]⟩, ⟨906349, 2, [2, 2, 3, 47, 1607]⟩, ⟨79, 3, [2, 3, 13]⟩,
   ⟨2508409, 11, [2, 2, 2, 3, 3, 3, 3, 7, 7, 79]⟩, ⟨18329, 3, [2, 2, 2, 29, 79]⟩, ⟨2529403, 2, [2, 3, 23, 18329]⟩,
   ⟨43, 3, [2, 3, 7]⟩, ⟨97, 5, [2, 2, 2, 2, 2, 3]⟩, ⟨449, 3, [2, 2, 2, 2, 2, 2, 7]⟩, ⟨609743, 5, [2, 7, 97, 449]⟩,
   ⟨52437899, 2, [2, 43, 609743]⟩, ⟨89, 3, [2, 2, 2, 11]⟩, ⟨179, 2, [2, 89]⟩, ⟨359, 7, [2, 179]⟩,
   ⟨110573, 3, [2, 2, 7, 11, 359]⟩, ⟨2653753, 5, [2, 2, 2, 3, 110573]⟩, ⟨63690073, 7, [2, 2, 2, 3, 2653753]⟩,
   ⟨254760293, 2, [2, 2, 63690073]⟩, ⟨frModulus, 7, [2, 2, 2, 2, 2, 2, 2, 2, 2, 2, 2, 2, 2, 2, 2, 2, 2, 2, 2, 2, 2, 2, 2,
   2, 2, 2, 2, 2, 2, 2, 2, 2, 3, 11, 19, 10177, 125527, 859267, 906349, 906349, 2508409, 2529403, 52437899, 254760293,
   254760293]⟩]

set_option maxRecDepth 4000 in
theorem frSteps_pass : Primality.chain [] frSteps = true := by decide +kernel

theorem frModulus_prime : frModulus.Prime :=
  Primality.prime_of_chain frSteps (fun _ h => absurd h List.not_mem_nil) frSteps_pass
    ⟨frModulus, 7, _⟩ (List.getLast_mem (l := frSteps) (by decide))

theorem frModulus_fact : Fact frModulus.Prime := ⟨frModulus_prime⟩

instance frModulus_neZero : NeZero frModulus := ⟨frModulus_prime.ne_zero⟩

/-! ## The limbs -/

/-- The lowest `k` limbs. -/
def limbs : Nat → Nat → List UInt64
  | 0, _     => []
  | k + 1, n => UInt64.ofNat n :: limbs k (n / 2 ^ 64)

def limbsVal : List UInt64 → Nat
  | []     => 0
  | s :: l => s.toNat + 2 ^ 64 * limbsVal l

def intoRepr (x : FrField) : List UInt64 := limbs 4 x.val

/-- `Fr::from_repr`, `none` where the limbs are not below the modulus. -/
def fromRepr (l : List UInt64) : Option FrField := if limbsVal l < frModulus then some (limbsVal l : FrField) else none

@[simp] theorem length_limbs : ∀ k n : Nat, (limbs k n).length = k
  | 0, _     => rfl
  | k + 1, n => by rw [limbs, List.length_cons, length_limbs k]

/-- **The limbs are the number, as far as they go.** -/
theorem limbsVal_limbs : ∀ k n : Nat, limbsVal (limbs k n) = n % 2 ^ (64 * k)
  | 0, n     => (Nat.mod_one n).symm
  | k + 1, n => by
    rw [limbs, limbsVal, limbsVal_limbs k, UInt64.toNat_ofNat', Nat.mul_succ, Nat.add_comm (64 * k), Nat.pow_add,
      Nat.mod_mul]

theorem limbsVal_limbs_of_lt {k n : Nat} (h : n < 2 ^ (64 * k)) : limbsVal (limbs k n) = n := by
  rw [limbsVal_limbs, Nat.mod_eq_of_lt h]

theorem frModulus_lt_limbs : frModulus < 2 ^ (64 * 4) := by decide

@[simp] theorem limbsVal_intoRepr (x : FrField) : limbsVal (intoRepr x) = x.val :=
  limbsVal_limbs_of_lt (Nat.lt_trans x.val_lt frModulus_lt_limbs)

theorem fromRepr_intoRepr (x : FrField) : fromRepr (intoRepr x) = some x := by
  rw [fromRepr, limbsVal_intoRepr, if_pos x.val_lt, ZMod.natCast_zmod_val]

end Pairing
end Dpid
