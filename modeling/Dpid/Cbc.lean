import Mathlib.Logic.Equiv.Defs
/-!
# Cbc — cipher block chaining

A block cipher under one key is a permutation `E` of the blocks.  A block is combined with the ciphertext block before
it, the first one with an initial vector; combining twice with one block changes nothing (`hxor`).
-/
namespace Cbc

variable {B : Type} (xor : B → B → B) (E : Equiv.Perm B)

def encrypt : B → List B → List B
  | _, []      => []
  | iv, p :: l => E (xor iv p) :: encrypt (E (xor iv p)) l

def decrypt : B → List B → List B
  | _, []      => []
  | iv, c :: l => xor iv (E.symm c) :: decrypt c l

@[simp] theorem length_encrypt : ∀ (l : List B) (iv : B), (encrypt xor E iv l).length = l.length
  | [], _      => rfl
  | p :: l, iv => by rw [encrypt, List.length_cons, length_encrypt l, List.length_cons]

/-- **Decryption inverts encryption.** -/
theorem decrypt_encrypt (hxor : ∀ a b, xor a (xor a b) = b) : ∀ (l : List B) (iv : B),
    decrypt xor E iv (encrypt xor E iv l) = l
  | [], _      => rfl
  | p :: l, iv => by
    rw [encrypt, decrypt, Equiv.symm_apply_apply, hxor, decrypt_encrypt hxor l]

end Cbc
