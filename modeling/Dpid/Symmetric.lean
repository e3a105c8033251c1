import Dpid.Bytes
import Dpid.Cbc
import Mathlib.Algebra.Group.Nat.Even
import Mathlib.Data.Fintype.Pi
import Mathlib.Data.List.OfFn
import Mathlib.Logic.Equiv.Basic
/-!
# Symmetric — `pad`, `unpad`, `encrypt` and `decrypt` (`crypto/threshenc/tpke.py`)

`pad` counts characters, AES in CBC mode wants a whole number of blocks of bytes: a text is encrypted exactly when its
UTF-8 encoding has as many bytes, modulo the block size, as it has characters.

AES is not part of the repository.  It is the parameter `Aes`, and `Aes.IsCbc` is what its caller relies on.  A block
cipher in CBC mode is one (`cbc_isCbc`).
-/
namespace Dpid

/-- `AES.new(key, AES.MODE_CBC, iv)`, with `encrypt` and `decrypt`. -/
structure Aes where
  encrypt (key iv data : Bytes) : Except Exn Bytes
  decrypt (key iv data : Bytes) : Except Exn Bytes

/-- What a length that is not a multiple of the block size raises. -/
def notAligned : Exn := .valueError "Data must be padded to 16 byte boundary in CBC mode"

/-- **AES in CBC mode**: whole blocks are encrypted and decrypted again, anything else is rejected. -/
structure Aes.IsCbc (A : Aes) : Prop where
  decrypt_encrypt : ∀ key iv data, key.length = 32 → iv.length = 16 → 16 ∣ data.length →
    ∃ c, A.encrypt key iv data = .ok c ∧ A.decrypt key iv c = .ok data
  rejects : ∀ key iv data, key.length = 32 → iv.length = 16 → ¬ 16 ∣ data.length →
    A.encrypt key iv data = .error notAligned

namespace Symmetric

def BS : Nat := 16

def pad (s : List Char) : List Char := s ++ List.replicate (BS - s.length % BS) (Char.ofNat (BS - s.length % BS))

/-- `s[:-ord(s[len(s)-1:])]`. -/
def unpad (s : Bytes) : Except Exn Bytes :=
  match s.getLast? with
  | none   => .error .typeError
  | some b => .ok (sliceTo s (-(b.toNat : Int)))

/-- `encrypt` with the random `iv`. -/
def encrypt (A : Aes) (iv key : Bytes) (raw : List Char) : Except Exn Bytes := do
  if key.length ≠ 32 then throw .assertionError
  let c ← A.encrypt key iv (Text.str (pad raw)).encode
  return iv ++ c

def decrypt (A : Aes) (key enc : Bytes) : Except Exn Bytes := do
  let s ← A.decrypt key (enc.take 16) (enc.drop 16)
  unpad s

/-! ## Padding -/

theorem utf8EncodeChar_ofNat {k : Nat} (hk : k ≤ BS) : String.utf8EncodeChar (Char.ofNat k) = [UInt8.ofNat k] := by
  have h : ∀ k ≤ BS, String.utf8EncodeChar (Char.ofNat k) = [UInt8.ofNat k] := by decide
  exact h k hk

theorem encode_pad (s : List Char) : (Text.str (pad s)).encode =
    (Text.str s).encode ++ List.replicate (BS - s.length % BS) (UInt8.ofNat (BS - s.length % BS)) := by
  have hreplicate : ∀ n : Nat, (List.replicate n (Char.ofNat (BS - s.length % BS))).flatMap String.utf8EncodeChar =
      List.replicate n (UInt8.ofNat (BS - s.length % BS)) := by
    intro n
    induction n with
    | zero      => rfl
    | succ n ih =>
      rw [List.replicate_succ, List.flatMap_cons, utf8EncodeChar_ofNat (Nat.sub_le _ _), ih, List.replicate_succ]
      rfl
  simp only [Text.encode, pad, List.flatMap_append, hreplicate]

theorem length_encode_pad (s : List Char) :
    (Text.str (pad s)).encode.length = (Text.str s).encode.length + (BS - s.length % BS) := by
  rw [encode_pad, List.length_append, List.length_replicate]

/-- **What was padded is unpadded.** -/
theorem unpad_encode_pad (s : List Char) : unpad (Text.str (pad s)).encode = .ok (Text.str s).encode := by
  have hpos : 0 < BS - s.length % BS := Nat.sub_pos_of_lt (Nat.mod_lt _ (by decide))
  have hle : BS - s.length % BS ≤ 16 := Nat.sub_le _ _
  rw [encode_pad]
  generalize BS - s.length % BS = k at hpos hle
  have hk : (UInt8.ofNat k).toNat = k := UInt8.toNat_ofNat_of_lt' (Nat.lt_of_le_of_lt hle (by decide))
  rw [unpad, List.getLast?_append, List.getLast?_replicate, if_neg (by omega), Option.some_or]
  simp only [hk, sliceTo]
  rw [if_neg (by omega), List.length_append, List.length_replicate, Int.neg_neg, Int.toNat_natCast,
    Nat.add_sub_cancel, List.take_left]

/-- Whole blocks exactly when bytes and characters agree modulo the block size. -/
theorem dvd_length_encode_pad (s : List Char) :
    16 ∣ (Text.str (pad s)).encode.length ↔ (Text.str s).encode.length % BS = s.length % BS := by
  rw [length_encode_pad]
  have hlt : s.length % BS < 16 := Nat.mod_lt _ (by decide)
  unfold BS at hlt ⊢
  omega

/-! ## The round trip -/

theorem encrypt_aligned {A : Aes} (hA : A.IsCbc) {key iv : Bytes} (hkey : key.length = 32) (hiv : iv.length = 16)
    {s : List Char} (h : (Text.str s).encode.length % BS = s.length % BS) :
    ∃ c, encrypt A iv key s = .ok c ∧ decrypt A key c = .ok (Text.str s).encode := by
  obtain ⟨c, henc, hdec⟩ := hA.decrypt_encrypt key iv _ hkey hiv ((dvd_length_encode_pad s).2 h)
  refine ⟨iv ++ c, ?_, ?_⟩
  · rw [encrypt, if_neg (not_not.2 hkey)]
    simp only [henc, bind, Except.bind, pure, Except.pure]
  · rw [decrypt, ← hiv, List.take_left, List.drop_left, hdec]
    exact unpad_encode_pad s

theorem encrypt_rejected {A : Aes} (hA : A.IsCbc) {key iv : Bytes} (hkey : key.length = 32) (hiv : iv.length = 16)
    {s : List Char} (h : (Text.str s).encode.length % BS ≠ s.length % BS) :
    encrypt A iv key s = .error notAligned := by
  rw [encrypt, if_neg (not_not.2 hkey)]
  simp only [hA.rejects key iv _ hkey hiv (mt (dvd_length_encode_pad s).1 h), bind, Except.bind]

/-- **A text is encrypted and decrypted again exactly when its bytes and its characters agree in number modulo 16.** -/
theorem decrypt_encrypt_iff {A : Aes} (hA : A.IsCbc) {key iv : Bytes} (hkey : key.length = 32) (hiv : iv.length = 16)
    (s : List Char) : (∃ c, encrypt A iv key s = .ok c ∧ decrypt A key c = .ok (Text.str s).encode) ↔
      (Text.str s).encode.length % BS = s.length % BS := by
  refine ⟨?_, encrypt_aligned hA hkey hiv⟩
  rintro ⟨c, henc, -⟩
  by_contra h
  rw [encrypt_rejected hA hkey hiv h] at henc
  cases henc

/-! ## A block cipher in CBC mode -/

abbrev Block := Fin 16 → UInt8

def Block.ofBytes (b : Bytes) : Block := fun i => b.getD i 0

def Block.xor (a b : Block) : Block := fun i => a i ^^^ b i

theorem Block.xor_cancel (a b : Block) : a.xor (a.xor b) = b := by
  funext i
  show a i ^^^ (a i ^^^ b i) = b i
  rw [← UInt8.xor_assoc, UInt8.xor_self, UInt8.zero_xor]

def toBlocks : Nat → Bytes → List Block
  | 0, _     => []
  | n + 1, m => Block.ofBytes (m.take 16) :: toBlocks n (m.drop 16)

def ofBlocks (l : List Block) : Bytes := l.flatMap List.ofFn

theorem ofFn_ofBytes {b : Bytes} (hb : b.length = 16) : List.ofFn (Block.ofBytes b) = b := by
  refine List.ext_getElem (by rw [List.length_ofFn, hb]) (fun i _ hi => ?_)
  rw [List.getElem_ofFn, Block.ofBytes, List.getD_eq_getElem?_getD, List.getElem?_eq_getElem hi, Option.getD_some]

theorem ofBytes_ofFn (f : Block) : Block.ofBytes (List.ofFn f) = f := by
  funext i
  rw [Block.ofBytes, List.getD_eq_getElem?_getD, List.getElem?_eq_getElem (by rw [List.length_ofFn]; exact i.isLt),
    Option.getD_some, List.getElem_ofFn]

theorem ofBlocks_toBlocks : ∀ (n : Nat) (m : Bytes), m.length = 16 * n → ofBlocks (toBlocks n m) = m
  | 0, m, hm     => (List.length_eq_zero_iff.1 hm).symm
  | n + 1, m, hm => by
    have htake : (m.take 16).length = 16 := by rw [List.length_take]; omega
    have hdrop : (m.drop 16).length = 16 * n := by rw [List.length_drop]; omega
    have ih := ofBlocks_toBlocks n (m.drop 16) hdrop
    unfold ofBlocks at ih ⊢
    rw [toBlocks, List.flatMap_cons, ih, ofFn_ofBytes htake, List.take_append_drop]

theorem toBlocks_ofBlocks : ∀ l : List Block, toBlocks l.length (ofBlocks l) = l
  | []     => rfl
  | f :: l => by
    have hf : (List.ofFn f).length = 16 := List.length_ofFn
    have ih := toBlocks_ofBlocks l
    unfold ofBlocks at ih ⊢
    rw [List.length_cons, toBlocks, List.flatMap_cons, List.take_left' hf, List.drop_left' hf, ih, ofBytes_ofFn]

theorem length_ofBlocks : ∀ l : List Block, (ofBlocks l).length = 16 * l.length
  | []     => rfl
  | f :: l => by
    have ih := length_ofBlocks l
    unfold ofBlocks at ih ⊢
    rw [List.flatMap_cons, List.length_append, List.length_ofFn, ih, List.length_cons, Nat.mul_succ, Nat.add_comm]

/-- The block cipher `E` in CBC mode. -/
def cbc (E : Bytes → Equiv.Perm Block) : Aes where
  encrypt key iv data :=
    if 16 ∣ data.length then
      .ok (ofBlocks (Cbc.encrypt Block.xor (E key) (.ofBytes iv) (toBlocks (data.length / 16) data)))
    else .error notAligned
  decrypt key iv data :=
    if 16 ∣ data.length then
      .ok (ofBlocks (Cbc.decrypt Block.xor (E key) (.ofBytes iv) (toBlocks (data.length / 16) data)))
    else .error notAligned

theorem length_toBlocks : ∀ (n : Nat) (m : Bytes), (toBlocks n m).length = n
  | 0, _     => rfl
  | n + 1, m => by rw [toBlocks, List.length_cons, length_toBlocks n]

theorem cbc_isCbc (E : Bytes → Equiv.Perm Block) : (cbc E).IsCbc where
  decrypt_encrypt key iv data _ _ hdvd := by
    refine ⟨_, if_pos hdvd, ?_⟩
    generalize hl : Cbc.encrypt Block.xor (E key) (.ofBytes iv) (toBlocks (data.length / 16) data) = l
    have hlen : l.length = data.length / 16 := by rw [← hl, Cbc.length_encrypt, length_toBlocks]
    show (if 16 ∣ (ofBlocks l).length then _ else _) = _
    rw [if_pos (length_ofBlocks l ▸ Nat.dvd_mul_right 16 l.length), length_ofBlocks l,
      Nat.mul_div_cancel_left _ (by decide), toBlocks_ofBlocks, ← hl,
      Cbc.decrypt_encrypt Block.xor (E key) Block.xor_cancel, ofBlocks_toBlocks _ _ (Nat.mul_div_cancel' hdvd).symm]
  rejects key iv data _ _ hdvd := if_neg hdvd

/-- `hi`, padded to one block. -/
def hiBlock : Bytes := [104, 105, 14, 14, 14, 14, 14, 14, 14, 14, 14, 14, 14, 14, 14, 14]

/-- The block that AES makes of it under the key of 32 zero bytes. -/
def hiAes : Bytes := [71, 191, 155, 116, 39, 233, 199, 24, 182, 231, 230, 221, 162, 110, 93, 125]

/-- A block cipher that is AES there. -/
def aesOnHi : Aes := cbc (fun _ => Equiv.swap (.ofBytes hiBlock) (.ofBytes hiAes))

example : encrypt aesOnHi (List.replicate 16 0) (List.replicate 32 0) ['h', 'i'] =
    .ok (List.replicate 16 0 ++ hiAes) := by
  decide

theorem decrypt_encrypt_iff_hi : (∃ c, encrypt aesOnHi (List.replicate 16 0) (List.replicate 32 0) ['h', 'i'] = .ok c ∧
    decrypt aesOnHi (List.replicate 32 0) c = .ok (Text.str ['h', 'i']).encode) ↔
      (Text.str ['h', 'i']).encode.length % BS = ['h', 'i'].length % BS :=
  decrypt_encrypt_iff (cbc_isCbc _) (by decide) (by decide) ['h', 'i']

/-- One character of two bytes. -/
theorem decrypt_encrypt_counterexample : ¬ ∀ (A : Aes) (key iv : Bytes) (s : List Char), A.IsCbc → key.length = 32 →
    iv.length = 16 → ∃ c, encrypt A iv key s = .ok c ∧ decrypt A key c = .ok (Text.str s).encode := by
  intro h
  obtain ⟨c, henc, -⟩ := h aesOnHi (List.replicate 32 0) (List.replicate 16 0) ['é'] (cbc_isCbc _) (by decide) (by decide)
  have herr : encrypt aesOnHi (List.replicate 16 0) (List.replicate 32 0) ['é'] = .error notAligned :=
    encrypt_rejected (cbc_isCbc _) (by decide) (by decide) (by decide)
  rw [herr] at henc
  cases henc

end Symmetric
end Dpid
