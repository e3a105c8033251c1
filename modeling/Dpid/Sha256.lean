import Dpid.Bytes
import Mathlib
/-!
# Sha256 — `hashlib.sha256`

The protocols hash with SHA-256.  The theorems take any function into 32-byte strings (`Hash`); `sha256` is the one the
code calls, on 32-bit words held as numbers.
-/
namespace Dpid

/-- A hash function into 32-byte strings. -/
structure Hash where
  digest : Bytes → Bytes
  length_digest : ∀ x, (digest x).length = 32

instance : CoeFun Hash (fun _ => Bytes → Bytes) := ⟨Hash.digest⟩

/-- The strings the good parties of a run have hashed. -/
def hashedInRun {ι : Type} (byz : Finset ι) (hashed : ι → List Bytes) : Set Bytes := { x | ∃ p ∉ byz, x ∈ hashed p }

/-- The number whose big-endian bytes are `b`: `int(hexdigest, 16)`. -/
def bytesToNat (b : Bytes) : Nat := b.foldl (fun n x => n * 256 + x.toNat) 0

namespace Sha256

def roundKeys : List Nat :=
  [0x428a2f98, 0x71374491, 0xb5c0fbcf, 0xe9b5dba5, 0x3956c25b, 0x59f111f1, 0x923f82a4, 0xab1c5ed5,
   0xd807aa98, 0x12835b01, 0x243185be, 0x550c7dc3, 0x72be5d74, 0x80deb1fe, 0x9bdc06a7, 0xc19bf174,
   0xe49b69c1, 0xefbe4786, 0x0fc19dc6, 0x240ca1cc, 0x2de92c6f, 0x4a7484aa, 0x5cb0a9dc, 0x76f988da,
   0x983e5152, 0xa831c66d, 0xb00327c8, 0xbf597fc7, 0xc6e00bf3, 0xd5a79147, 0x06ca6351, 0x14292967,
   0x27b70a85, 0x2e1b2138, 0x4d2c6dfc, 0x53380d13, 0x650a7354, 0x766a0abb, 0x81c2c92e, 0x92722c85,
   0xa2bfe8a1, 0xa81a664b, 0xc24b8b70, 0xc76c51a3, 0xd192e819, 0xd6990624, 0xf40e3585, 0x106aa070,
   0x19a4c116, 0x1e376c08, 0x2748774c, 0x34b0bcb5, 0x391c0cb3, 0x4ed8aa4a, 0x5b9cca4f, 0x682e6ff3,
   0x748f82ee, 0x78a5636f, 0x84c87814, 0x8cc70208, 0x90befffa, 0xa4506ceb, 0xbef9a3f7, 0xc67178f2]

/-- The eight words a block updates. -/
structure Chain where
  a : Nat
  b : Nat
  c : Nat
  d : Nat
  e : Nat
  f : Nat
  g : Nat
  h : Nat

def start : Chain :=
  ⟨0x6a09e667, 0xbb67ae85, 0x3c6ef372, 0xa54ff53a, 0x510e527f, 0x9b05688c, 0x1f83d9ab, 0x5be0cd19⟩

def rotr (n x : Nat) : Nat := (x >>> n) ||| ((x <<< (32 - n)) % 2 ^ 32)

def words : Bytes → List Nat
  | a :: b :: c :: d :: rest => bytesToNat [a, b, c, d] :: words rest
  | _                        => []

/-- One more word of the message schedule, the newest first. -/
def schedStep (w : List Nat) : List Nat :=
  let back := fun i => w.getD (i - 1) 0
  let s0 := rotr 7 (back 15) ^^^ rotr 18 (back 15) ^^^ (back 15 >>> 3)
  let s1 := rotr 17 (back 2) ^^^ rotr 19 (back 2) ^^^ (back 2 >>> 10)
  ((back 16 + s0 + back 7 + s1) % 2 ^ 32) :: w

def schedule (ws : List Nat) : List Nat := ((List.range 48).foldl (fun w _ => schedStep w) ws.reverse).reverse

def round (s : Chain) (kw : Nat × Nat) : Chain :=
  let s1 := rotr 6 s.e ^^^ rotr 11 s.e ^^^ rotr 25 s.e
  let ch := (s.e &&& s.f) ^^^ ((s.e ^^^ 0xffffffff) &&& s.g)
  let t1 := s.h + s1 + ch + kw.1 + kw.2
  let s0 := rotr 2 s.a ^^^ rotr 13 s.a ^^^ rotr 22 s.a
  let maj := (s.a &&& s.b) ^^^ (s.a &&& s.c) ^^^ (s.b &&& s.c)
  ⟨(t1 + s0 + maj) % 2 ^ 32, s.a, s.b, s.c, (s.d + t1) % 2 ^ 32, s.e, s.f, s.g⟩

def compress (s : Chain) (block : Bytes) : Chain :=
  let r := (roundKeys.zip (schedule (words block))).foldl round s
  ⟨(s.a + r.a) % 2 ^ 32, (s.b + r.b) % 2 ^ 32, (s.c + r.c) % 2 ^ 32, (s.d + r.d) % 2 ^ 32,
   (s.e + r.e) % 2 ^ 32, (s.f + r.f) % 2 ^ 32, (s.g + r.g) % 2 ^ 32, (s.h + r.h) % 2 ^ 32⟩

def compressAll : Nat → Chain → Bytes → Chain
  | 0, s, _     => s
  | n + 1, s, m => compressAll n (compress s (m.take 64)) (m.drop 64)

/-- `x` as `n` big-endian bytes. -/
def bigEndian (n x : Nat) : Bytes := (List.range n).map (fun i => UInt8.ofNat (x >>> (8 * (n - 1 - i))))

def padded (m : Bytes) : Bytes :=
  m ++ [0x80] ++ List.replicate ((119 - m.length % 64) % 64) 0 ++ bigEndian 8 (8 * m.length)

def digest (m : Bytes) : Bytes :=
  let p := padded m
  let s := compressAll (p.length / 64) start p
  [s.a, s.b, s.c, s.d, s.e, s.f, s.g, s.h].flatMap (bigEndian 4)

theorem length_digest (m : Bytes) : (digest m).length = 32 := by simp [digest, bigEndian]

end Sha256

/-- `hashlib.sha256(x).digest()`. -/
def sha256 : Hash := ⟨Sha256.digest, Sha256.length_digest⟩

example : bytesToNat (sha256 [97, 98, 99]) = 0xba7816bf8f01cfea414140de5dae2223b00361a396177a9cb410ff61f20015ad := by
  decide +kernel

end Dpid
