import Dpid.BatchNorm
import Dpid.PpFresh
import Dpid.RistrettoGroup
/-!
# RistObjects — the Python objects over the vendored curve (`pairing/src/lib.rs`: `PyRistScalar`, `PyRistG`)

A process has scalars and points, by number; a call makes one, changes one or reads some, and replies.  A panic is an
exception of Python, and the process goes on with what was written until then.  The functions of the crate are a parameter
(`RistLib`), for which `dalek` takes the vendored ones.
-/
namespace Dpid
namespace Pairing
namespace Rist

open Curve25519 (Bytes32 CompressedRistretto Scalar RistrettoPoint groupOrder)
open LittleEndian

/-- The functions of the crate.  `none` is a panic. -/
structure RistLib (Z G : Type) where
  zero : Z
  one : Z
  /-- `Scalar::from` a `u64`. -/
  ofU64 : Nat → Z
  toBytes : Z → Bytes32
  fromBytesModOrder : Bytes32 → Option Z
  fromBytesModOrderWide : Vector UInt8 64 → Option Z
  zrEqual : Z → Z → Bool
  zrNeg : Z → Option Z
  invert : Z → Option Z
  toMontgomery : Z → Option Z
  fromMontgomery : Z → Option Z
  add : Z → Z → Option Z
  sub : Z → Z → Option Z
  zrMul : Z → Z → Option Z
  identity : G
  fromUniformBytes : Vector UInt8 64 → Option G
  equal : G → G → Option Bool
  neg : G → Option G
  plus : G → G → Option G
  minus : G → G → Option G
  mul : G → Z → Option G
  vartimeMultiscalarMul : List Z → List G → Option G
  compress : G → Option CompressedRistretto
  /-- `none` inside where the bytes are no encoding. -/
  decompress : CompressedRistretto → Option (Option G)
  doubleAndCompressBatch : List G → Option (List CompressedRistretto)

/-! ## The functions of the bindings -/

/-- `try_into` an array of 32 bytes. -/
def tryInto32 (l : List UInt8) : Option Bytes32 := if h : l.length = 32 then some ⟨l.toArray, h⟩ else none

/-- `to_bytes_le().1`: as many bytes as the number has, one for zero. -/
def toBytesLe (n : Nat) : List UInt8 := leBytes (Nat.log 256 n + 1) n

section

variable {Z G : Type} (C : RistLib Z G)

def bigintToPyscalar (bint : Int) : Option Z := do
  -- `mod_floor`
  let modrBytes := toBytesLe (bint % groupOrder).toNat
  let paddingLen ← Checked.sub 32 modrBytes.length
  let modrBytes := modrBytes ++ List.replicate paddingLen 0
  C.fromBytesModOrder (← tryInto32 modrBytes)

/-- `BigInt::from_bytes_le(Sign::Plus, &scalar.to_bytes())`. -/
def toBigint (z : Z) : Nat := leVal (C.toBytes z).toList

/-- `PyRistScalar::pow_assign`. -/
def powAssign (z : Z) (exp : Int) : Option Z :=
  bigintToPyscalar C ((toBigint C z ^ (exp % (groupOrder - 1 : Nat)).toNat % groupOrder : Nat) : Int)

/-- `PyRistScalar::__str__`. -/
def zrStr (z : Z) : List Char := hexEncode (C.toBytes z).toList.reverse

/-- `PyRistG::__str__`. -/
def gStr (compressed : CompressedRistretto) : List Char := ['(', 's', ':', ' '] ++ hexEncode compressed.toList ++ [')']

/-! ### Tables -/

/-- The body of the first loop of `preprocess`. -/
def pushNext (elem : G) (pp : List G) (i : Nat) : Option (List G) := do
  let next ← pp[i - 1]?
  return pp ++ [← C.plus next elem]

/-- The body of the second one. -/
def pushBlock (factor : Z) (base : Nat) (pp : List G) (i : Nat) : Option (List G) := do
  let next ← pp[i - (base - 1)]?
  return pp ++ [← C.mul next factor]

/-- `PyRistG::preprocess`. -/
def preprocess (o : PpObj G) (level : Nat) : Option (PpObj G) :=
  if PyRistG.layout.Panics level then none
  else do
    let base := baseOf level
    let factor := C.ofU64 base
    let pp ← (List.range' 1 (base - 1 - 1)).foldlM (pushNext C o.elem) [o.elem]
    let pp ← (List.range' (base - 1) (PyRistG.size level - (base - 1))).foldlM (pushBlock C factor base) pp
    return { o with pp, pplevel := level }

/-- Where it is `due`, `out.g.add_assign(&self.pp[..])`, and the buffer set to zero.  An error is a panic, with what `out.g` is
then. -/
def flush (due : Prop) [Decidable due] (pp : List G) (level b buffer : Nat) (out : G) : Except G (G × Nat) :=
  if due then
    match entry pp level b buffer >>= C.plus out with
    | none   => .error out
    | some x => .ok (x, 0)
  else .ok (out, buffer)

/-- The loop of `ppmul`. -/
def scan (pp : List G) (level : Nat) : List Char → Nat → Nat → G → Except G G
  | [], _, buffer, out      => if buffer ≠ 0 then .error out else .ok out
  | c :: cs, i, buffer, out => do
    if level = 0 then throw out
    let (out, buffer) ← flush C (i % level = 0 ∧ buffer ≠ 0) pp level (i / level - 1) buffer out
    let buffer ← pushBit c level i buffer out
    let (out, buffer) ← flush C (i = 255 ∧ buffer ≠ 0) pp level (i / level) buffer out
    scan pp level cs (i + 1) buffer out

/-- `PyRistG::ppmul` without a table. -/
def mulPlain (g : G) (prodend : Z) : Except G G :=
  match C.mul g prodend with
  | none   => .error g
  | some x => .ok x

/-- With one. -/
def mulTable (o : PpObj G) (prodend : Z) (out : G) : Except G G :=
  match C.mul out C.zero with
  | none   => .error out
  | some x =>
    match hexToBin (hexEncode (C.toBytes prodend).toList.reverse) with
    | none        => .error x
    | some binstr => scan C o.pp o.pplevel binstr.reverse 0 0 x

/-- `PyRistG::ppmul`: what `out` is then, also at a panic. -/
def ppmulInto (o : PpObj G) (prodend : Z) (out : PpObj G) : Except (PpObj G) (PpObj G) :=
  setElem out (if o.pp.length = 0 then mulPlain C o.elem prodend else mulTable C o prodend out.elem)

/-- What `out` is when it returns. -/
def ppmul (o : PpObj G) (prodend : Z) (out : PpObj G) : Option (PpObj G) := (ppmulInto C o prodend out).toOption

/-- `curve25519dotprod`. -/
def dotprod (pairs : List (Z × Z)) : Option Z :=
  pairs.foldlM (fun output ab => do C.add output (← C.zrMul ab.1 ab.2)) C.zero

end

/-! ## The calls -/

/-- An object, an integer or something else (`pyscalar_from_pyany`). -/
inductive ZrArg where
  | obj (i : Nat)
  | int (n : Int)
  | neither

/-- The calls.  `hash`, `rand` and `random` are `zrUniform` and `gUniform`, of the bytes the generator gives; `rand` of a list of
numbers is `gRand`, and `zrHashMany` and `gHashMany` have the bytes of each object.  An exponent that is no integer is
`none`. -/
inductive RistCall where
  | zrNew (s1 : Option ZrArg)
  | zrUniform (bytes : Vector UInt8 64)
  | zrHashMany (drawn : List (Vector UInt8 64))
  | zrNegate (self : Nat)
  | zrInverse (self : Nat)
  | zrAddAssign (self other : Nat)
  | zrSubAssign (self other : Nat)
  | zrMulAssign (self other : Nat)
  | zrPowAssign (self : Nat) (exp : Option Int)
  | zrToMontgomery (self : Nat)
  | zrFromMontgomery (self : Nat)
  | zrIsZero (self : Nat)
  | zrEquals (self other : Nat)
  | zrCopy (self other : Nat)
  | zrGetState (self : Nat)
  | zrSetState (self : Nat) (list : Bytes)
  | zrAdd (lhs : Nat) (rhs : ZrArg)
  | zrTruediv (lhs : Nat) (rhs : ZrArg)
  | zrMul (lhs : Nat) (rhs : ZrArg)
  | zrNeg (self : Nat)
  | zrInt (self : Nat)
  | zrPow (lhs : Nat) (exp : Option Int)
  | zrSub (lhs : Nat) (rhs : ZrArg)
  | zrEq (self : Nat) (other : ZrArg)
  | zrStr (self : Nat)
  | gNew
  | gUniform (bytes : Vector UInt8 64)
  | gHashMany (drawn : List (Vector UInt8 64))
  | gRand (a : List UInt32) (bytes : Vector UInt8 64)
  | gOne (self : Nat)
  | gNegate (self : Nat)
  | gAddAssign (self other : Nat)
  | gSubAssign (self other : Nat)
  | gMulAssign (self other : Nat)
  | gEquals (self other : Nat)
  | gCopy (self other : Nat)
  | gGetState (self : Nat)
  | gSetState (self : Nat) (list : Bytes)
  | gPreprocess (self level : Nat)
  | gPpmul (self prodend out : Nat)
  | gGetPplevel (self : Nat)
  | gPow (self : Nat) (rhs : ZrArg)
  | gMul (lhs rhs : Nat)
  | gImul (self other : Nat)
  | gTruediv (lhs rhs : Nat)
  | gEq (self other : Nat)
  | gStr (self : Nat)
  | hashcurve25519zrs (a : List Nat)
  | hashcurve25519gs (a : List Nat)
  | hashcurve25519gsbn (a : List Nat)
  | curve25519dotprod (a b : List Nat)
  | curve25519multiexp (gs zrs : List Nat)

/-- What Python gets. -/
inductive Reply where
  | done
  | raised
  | panicked
  | bool (b : Bool)
  | bytes (b : Bytes)
  | text (s : List Char)
  | int (n : Nat)
deriving DecidableEq

structure RistState (Z G : Type) where
  zrs : List Z
  gs : List (PpObj G)

section

variable {Z G : Type}

def raise (s : RistState Z G) : Option (RistState Z G × Reply) := some (s, .raised)

def reply (s : RistState Z G) (r : Reply) : Option (RistState Z G × Reply) := some (s, r)

def withZr (s : RistState Z G) (i : Nat) (f : Z → Option (RistState Z G × Reply)) : Option (RistState Z G × Reply) :=
  match s.zrs[i]? with
  | none   => raise s
  | some z => f z

def withG (s : RistState Z G) (i : Nat) (f : PpObj G → Option (RistState Z G × Reply)) : Option (RistState Z G × Reply) :=
  match s.gs[i]? with
  | none   => raise s
  | some o => f o

/-- An argument of the same class cannot be the object that is changed. -/
def withOtherZr (s : RistState Z G) (self other : Nat) (f : Z → Option (RistState Z G × Reply)) : Option (RistState Z G × Reply) :=
  if self = other then raise s else withZr s other f

def withOtherG (s : RistState Z G) (self other : Nat) (f : PpObj G → Option (RistState Z G × Reply)) : Option (RistState Z G × Reply) :=
  if self = other then raise s else withG s other f

def withZrs (s : RistState Z G) (l : List Nat) (f : List Z → Option (RistState Z G × Reply)) : Option (RistState Z G × Reply) :=
  match l.mapM (s.zrs[·]?) with
  | none    => raise s
  | some zs => f zs

def withGs (s : RistState Z G) (l : List Nat) (f : List (PpObj G) → Option (RistState Z G × Reply)) : Option (RistState Z G × Reply) :=
  match l.mapM (s.gs[·]?) with
  | none    => raise s
  | some os => f os

def newZrs (s : RistState Z G) (zs : List Z) : Option (RistState Z G × Reply) := some ({ s with zrs := s.zrs ++ zs }, .done)

def newZr (s : RistState Z G) (z : Z) : Option (RistState Z G × Reply) := newZrs s [z]

/-- A new object has no table. -/
def newGs (s : RistState Z G) (gs : List G) : Option (RistState Z G × Reply) :=
  some ({ s with gs := s.gs ++ gs.map (⟨·, [], 0⟩) }, .done)

def newG (s : RistState Z G) (g : G) : Option (RistState Z G × Reply) := newGs s [g]

def setZr (s : RistState Z G) (self : Nat) (z : Z) : Option (RistState Z G × Reply) := some ({ s with zrs := s.zrs.set self z }, .done)

def setObj (s : RistState Z G) (self : Nat) (o : PpObj G) : Option (RistState Z G × Reply) := some ({ s with gs := s.gs.set self o }, .done)

variable (C : RistLib Z G)

/-- `pyscalar_from_pyany`. -/
def withArg (s : RistState Z G) (any : ZrArg) (f : Z → Option (RistState Z G × Reply)) : Option (RistState Z G × Reply) :=
  match any with
  | .obj i => withZr s i f
  | .int n => bigintToPyscalar C n >>= f
  | .neither => raise s

/-- `hash_many`: the vector is allocated first, for objects of some bytes each.  A length that is no `usize` raises. -/
def withMany {α β : Type} (s : RistState Z G) (size : Nat) (make : α → Option β) (drawn : List α)
    (f : List β → Option (RistState Z G × Reply)) : Option (RistState Z G × Reply) :=
  if 2 ^ 64 ≤ drawn.length then raise s
  else if 2 ^ 63 ≤ drawn.length * size then none
  else drawn.mapM make >>= f

/-- **One call.**  `none` is a panic. -/
def step (s : RistState Z G) : RistCall → Option (RistState Z G × Reply)
  | .zrNew none               => newZr s C.one
  -- `unwrap`
  | .zrNew (some .neither)    => none
  | .zrNew (some s1)          => withArg C s s1 fun z => newZr s z
  | .zrUniform bytes          => do newZr s (← C.fromBytesModOrderWide bytes)
  | .zrHashMany drawn         => withMany s 32 C.fromBytesModOrderWide drawn (newZrs s)
  | .zrNegate self            => withZr s self fun z => do setZr s self (← C.zrNeg z)
  | .zrInverse self           => withZr s self fun z => do setZr s self (← C.invert z)
  | .zrAddAssign self other   => withZr s self fun z => withOtherZr s self other fun w => do setZr s self (← C.add z w)
  | .zrSubAssign self other   => withZr s self fun z => withOtherZr s self other fun w => do setZr s self (← C.sub z w)
  | .zrMulAssign self other   => withZr s self fun z => withOtherZr s self other fun w => do setZr s self (← C.zrMul z w)
  | .zrPowAssign self exp     => withZr s self fun z =>
    match exp with
    | none     => raise s
    | some exp => do setZr s self (← powAssign C z exp)
  | .zrToMontgomery self      => withZr s self fun z => do newZr s (← C.toMontgomery z)
  | .zrFromMontgomery self    => withZr s self fun z => do newZr s (← C.fromMontgomery z)
  | .zrIsZero self            => withZr s self fun z => reply s (.bool (C.zrEqual z C.zero))
  | .zrEquals self other      => withZr s self fun z => withZr s other fun w => reply s (.bool (C.zrEqual z w))
  | .zrCopy self other        => withZr s self fun _ => withOtherZr s self other fun w => setZr s self w
  | .zrGetState self          => withZr s self fun z => reply s (.bytes (C.toBytes z).toList)
  | .zrSetState self list     => withZr s self fun _ =>
    match tryInto32 list with
    | none     => raise s
    | some arr => do setZr s self (← C.fromBytesModOrder arr)
  | .zrAdd lhs rhs            => withZr s lhs fun z => withArg C s rhs fun out => do newZr s (← C.add out z)
  | .zrTruediv lhs rhs        => withZr s lhs fun z => withArg C s rhs fun out => do newZr s (← C.zrMul (← C.invert out) z)
  | .zrMul lhs rhs            => withZr s lhs fun z => withArg C s rhs fun out => do newZr s (← C.zrMul out z)
  | .zrNeg self               => withZr s self fun z => do newZr s (← C.zrNeg z)
  | .zrInt self               => withZr s self fun z => reply s (.int (toBigint C z))
  -- what `pow_assign` raises is not looked at
  | .zrPow lhs exp            => withZr s lhs fun z =>
    match exp with
    | none     => newZr s z
    | some exp => do newZr s (← powAssign C z exp)
  | .zrSub lhs rhs            => withZr s lhs fun z => withArg C s rhs fun w => do newZr s (← C.sub z w)
  | .zrEq self .neither       => withZr s self fun _ => reply s (.bool false)
  | .zrEq self other          => withZr s self fun z => withArg C s other fun w => reply s (.bool (C.zrEqual z w))
  | .zrStr self               => withZr s self fun z => reply s (.text (zrStr C z))
  | .gNew                     => newG s C.identity
  | .gUniform bytes           => do newG s (← C.fromUniformBytes bytes)
  -- an object is its point, a vector and a level
  | .gHashMany drawn          => withMany s 192 C.fromUniformBytes drawn (newGs s)
  -- the seed has eight places
  | .gRand a bytes            => if 8 < a.length then none else do newG s (← C.fromUniformBytes bytes)
  | .gOne self                => withG s self fun o => setObj s self (assign C.identity o)
  | .gNegate self             => withG s self fun o => do setObj s self (assign (← C.neg o.elem) o)
  | .gAddAssign self other    => withG s self fun o => withOtherG s self other fun p => do
    setObj s self (assign (← C.plus o.elem p.elem) o)
  | .gSubAssign self other    => withG s self fun o => withOtherG s self other fun p => do
    setObj s self (assign (← C.minus o.elem p.elem) o)
  | .gMulAssign self other    => withG s self fun o => withZr s other fun z => do
    setObj s self (assign (← C.mul o.elem z) o)
  | .gEquals self other       => withG s self fun o => withG s other fun p => do reply s (.bool (← C.equal o.elem p.elem))
  | .gCopy self other         => withG s self fun o => withOtherG s self other fun p => setObj s self (assign p.elem o)
  | .gGetState self           => withG s self fun o => do reply s (.bytes (← C.compress o.elem).toList)
  -- the table stays
  | .gSetState self list      => withG s self fun o =>
    match tryInto32 list with
    | none     => raise s
    | some arr => do
      match ← C.decompress arr with
      | none   => raise s
      | some g => setObj s self (write g o)
  | .gPreprocess self level   => withG s self fun o =>
    -- no `usize`
    if 2 ^ 64 ≤ level then raise s else do setObj s self (← preprocess C o level)
  | .gPpmul self prodend out  => withG s self fun o => withZr s prodend fun z => withOtherG s self out fun o' => do
    setObj s out (← ppmul C o z o')
  | .gGetPplevel self         => withG s self fun o => reply s (.int o.pplevel)
  | .gPow self rhs            => withG s self fun o => withArg C s rhs fun z => do
    let out ← ppmul C o z ⟨C.identity, [], 0⟩
    newG s out.elem
  | .gMul lhs rhs             => withG s lhs fun o => withG s rhs fun p => do newG s (← C.plus o.elem p.elem)
  | .gImul self other         => withG s self fun o => withOtherG s self other fun p => do
    setObj s self (assign (← C.plus o.elem p.elem) o)
  | .gTruediv lhs rhs         => withG s lhs fun o => withG s rhs fun p => do newG s (← C.plus o.elem (← C.neg p.elem))
  | .gEq self other           => withG s self fun o => withG s other fun p => do reply s (.bool (← C.equal o.elem p.elem))
  | .gStr self                => withG s self fun o => do reply s (.text (gStr (← C.compress o.elem)))
  | .hashcurve25519zrs a      => withZrs s a fun zs =>
    reply s (.text (hexEncode (Sha256.digest ((zs.flatMap (zrStr C)).map fun c => UInt8.ofNat c.toNat))))
  | .hashcurve25519gs a       => withGs s a fun os => do
    let compressed ← os.mapM fun o => C.compress o.elem
    reply s (.text (hexEncode (Sha256.digest (compressed.flatMap Vector.toList))))
  | .hashcurve25519gsbn a     => withGs s a fun os => do
    let compressed ← C.doubleAndCompressBatch (os.map PpObj.elem)
    reply s (.text (hexEncode (Sha256.digest (compressed.flatMap Vector.toList))))
  | .curve25519dotprod a b    => withZrs s ((a.zip b).map Prod.fst) fun zs => withZrs s ((a.zip b).map Prod.snd) fun ws => do
    newZr s (← dotprod C (zs.zip ws))
  | .curve25519multiexp gs zrs => withGs s ((gs.zip zrs).map Prod.fst) fun os =>
    withZrs s ((gs.zip zrs).map Prod.snd) fun zs => do
      newG s (← C.vartimeMultiscalarMul zs (os.map PpObj.elem))

/-- The state that a panic leaves: `preprocess` has written the level, `ppmul` a part of the product. -/
def panicked (s : RistState Z G) : RistCall → RistState Z G
  | .gPreprocess self level  => { s with gs := s.gs.modify self ({ · with pplevel := level }) }
  | .gPpmul self prodend out =>
    match s.gs[self]?, s.zrs[prodend]?, s.gs[out]? with
    | some o, some z, some o' => { s with gs := s.gs.set out (written (ppmulInto C o z o')) }
    | _, _, _                 => s
  | _                        => s

/-- One call as Python sees it. -/
def next (s : RistState Z G) (c : RistCall) : RistState Z G × Reply := (step C s c).getD (panicked C s c, .panicked)

/-- The calls of a process, and its replies. -/
def run (calls : List RistCall) : RistState Z G × List Reply :=
  calls.foldl (fun (s, replies) c =>
    let (s, r) := next C s c
    (s, replies ++ [r])) (⟨[], []⟩, [])

end

/-! ## The vendored functions -/

/-- `Scalar::from(x: u64)`. -/
def scalarOfU64 (x : Nat) : Scalar := ⟨⟨(leBytes 8 x ++ List.replicate 24 0).toArray, rfl⟩⟩

/-- `Scalar::to_montgomery`. -/
def scalarToMontgomery (s : Scalar) : Option Scalar := do return Scalar.pack (← s.unpack.toMontgomery)

/-- `Scalar::from_montgomery`. -/
def scalarFromMontgomery (s : Scalar) : Option Scalar := do return Scalar.pack (← s.unpack.fromMontgomery)

def dalek : RistLib Scalar RistrettoPoint where
  zero := Scalar.zero
  one := Scalar.one
  ofU64 := scalarOfU64
  toBytes := Scalar.bytes
  fromBytesModOrder := Scalar.fromBytesModOrder
  fromBytesModOrderWide := Scalar.fromBytesModOrderWide
  zrEqual s t := s == t
  zrNeg := Scalar.neg
  invert := Scalar.invert
  toMontgomery := scalarToMontgomery
  fromMontgomery := scalarFromMontgomery
  add := Scalar.add
  sub := Scalar.sub
  zrMul := Scalar.mul
  identity := RistrettoPoint.identity
  fromUniformBytes := RistrettoPoint.fromUniformBytes
  equal := RistrettoPoint.equal
  neg := RistrettoPoint.neg
  plus := RistrettoPoint.plus
  minus := RistrettoPoint.minus
  mul := RistrettoPoint.mul
  vartimeMultiscalarMul := RistrettoPoint.vartimeMultiscalarMul
  compress := RistrettoPoint.compress
  decompress := RistrettoPoint.decompress
  doubleAndCompressBatch := RistrettoPoint.doubleAndCompressBatch

end Rist
end Pairing
end Dpid
