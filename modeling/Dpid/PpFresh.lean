import Dpid.Bytes
import Dpid.PpMul
/-!
# PpFresh — which calls leave a table to an element it does not belong to (`pairing/src/lib.rs`)

The methods of `PyG1`, `PyG2`, `PyFq12` and `PyRistG` that change an object.  All that set their own element end with the
same block, which drops the table (`assign`), except `PyRistG.__setstate__`; the ones that write into an argument (`out`,
`r`) do not.  A panic is an exception of Python, so the run goes on after it with what was written until then.  Methods
that only read are left out.
-/
namespace Dpid
namespace Pairing

/-! ## The objects -/

section Objects

variable {G : Type}

/-- An assignment to the element alone. -/
def write (x : G) (o : PpObj G) : PpObj G := { o with elem := x }

/-- The assignment and the block after it: `if self.pplevel != 0 { self.pp = Vec::new(); self.pplevel = 0; }`. -/
def assign (x : G) (o : PpObj G) : PpObj G :=
  if o.pplevel ≠ 0 then { write x o with pp := [], pplevel := 0 } else write x o

/-- What a method finds for the new element. -/
inductive Found (G : Type) where
  | elem (x : G)
  | raised
  | panicked

/-- `unwrap`. -/
def unwrap : Option G → Found G
  | none   => .panicked
  | some x => .elem x

/-- The element of an argument of the same class; the object itself cannot be borrowed twice. -/
def argument (objs : List (PpObj G)) (self other : Nat) (f : G → G) : Found G :=
  if self = other then .raised
  else match objs[other]? with
    | none   => .raised
    | some o => .elem (f o.elem)

/-- A method sets the element of `self`; where it raises or panics, it does so before. -/
def assignAt (objs : List (PpObj G)) (self : Nat) (found : G → Found G) : List (PpObj G) :=
  match objs[self]? with
  | none   => objs
  | some o =>
    match found o.elem with
    | .elem x             => objs.modify self (assign x)
    | .raised | .panicked => objs

/-- `self.pplevel` is written first, so it has the new level also where the rest panics.  A level that is no `usize`
raises. -/
def preprocessAt (objs : List (PpObj G)) (self level : Nat) (preprocess : PpObj G → Nat → Option (PpObj G)) :
    List (PpObj G) :=
  if 2 ^ 64 ≤ level then objs
  else objs.modify self fun o => (preprocess o level).getD { o with pplevel := level }

/-- What is written at the end, or up to the panic. -/
def written {α : Type} : Except α α → α
  | .ok x | .error x => x

/-- A method of `self` writes into another object of its class. -/
def ppmulAt (objs : List (PpObj G)) (self out : Nat) (ppmul : PpObj G → PpObj G → Except (PpObj G) (PpObj G)) :
    List (PpObj G) :=
  if self = out then objs
  else match objs[self]?, objs[out]? with
    | some o, some o' => objs.set out (written (ppmul o o'))
    | _, _            => objs

end Objects

/-! ## The methods -/

/-- The functions of the crate for the points of a curve with coordinates in `Q`; `affine` may read the point that is
replaced. -/
structure CurveOps (G Q : Type) where
  one : G
  random : List UInt32 → G
  proj : Q → Q → Q → G
  affine : G → Q → Q → G

/-- The methods of `PyG1` and `PyG2` that set the element of `self`; `other` is an object of the class. -/
inductive CurveCall (Q : Type) where
  | randomize (a : List UInt32)
  | loadFqProj (x y z : Q)
  | loadFqAffine (x y : Q)
  | one
  | zero
  | double
  | negate
  | affineNegate
  | addAssign (other : Nat)
  | subAssign (other : Nat)
  | mulAssign (other : Fr)
  | copy (other : Nat)
  | imul (other : Nat)

def CurveCall.found {G Q : Type} [AddCommGroup G] (C : CurveOps G Q) (objs : List (PpObj G)) (self : Nat) (g : G) :
    CurveCall Q → Found G
  -- the seed has eight places
  | .randomize a        => if a.length ≤ 8 then .elem (C.random a) else .panicked
  | .loadFqProj x y z   => .elem (C.proj x y z)
  | .loadFqAffine x y   => .elem (C.affine g x y)
  | .one                => .elem C.one
  | .zero               => .elem 0
  | .double             => .elem (g + g)
  | .negate             => .elem (-g)
  | .affineNegate       => .elem (-g)
  | .addAssign other    => argument objs self other (g + ·)
  | .subAssign other    => argument objs self other (g - ·)
  | .mulAssign other    => .elem ((other : Nat) • g)
  | .copy other         => argument objs self other id
  | .imul other         => argument objs self other (g + ·)

/-- The functions of the crate for `Fq12`. -/
structure Fq12Ops (K : Type) where
  random : List UInt32 → K
  fromStrs : (Fin 12 → String) → Option K
  conjugate : K → K

/-- The methods of `PyFq12` that set the element of `self`. -/
inductive Fq12Call where
  | randomize (a : List UInt32)
  | fromStrs (s : Fin 12 → String)
  | addAssign (other : Nat)
  | subAssign (other : Nat)
  | mulAssign (other : Nat)
  | powAssign (other : Fr)
  | inverse
  | conjugate
  | one
  | zero
  | copy (other : Nat)
  | imul (other : Nat)

def Fq12Call.found {K : Type} [Field K] [DecidableEq K] (C : Fq12Ops K) (objs : List (PpObj (Additive K))) (self : Nat)
    (x : Additive K) : Fq12Call → Found (Additive K)
  | .randomize a     => if a.length ≤ 8 then .elem (.ofMul (C.random a)) else .panicked
  | .fromStrs s      => unwrap ((C.fromStrs s).map .ofMul)
  | .addAssign other => argument objs self other fun y => .ofMul (x.toMul + y.toMul)
  | .subAssign other => argument objs self other fun y => .ofMul (x.toMul - y.toMul)
  | .mulAssign other => argument objs self other fun y => .ofMul (x.toMul * y.toMul)
  | .powAssign other => .elem (.ofMul (x.toMul ^ (other : Nat)))
  | .inverse         => if x.toMul = 0 then .panicked else .elem (.ofMul x.toMul⁻¹)
  | .conjugate       => .elem (.ofMul (C.conjugate x.toMul))
  | .one             => .elem (.ofMul 1)
  | .zero            => .elem (.ofMul 0)
  | .copy other      => argument objs self other id
  | .imul other      => argument objs self other fun y => .ofMul (x.toMul * y.toMul)

/-- The bits of a `Scalar`. -/
abbrev RistScalar := Fin (2 ^ 255)

/-- The methods of `PyRistG` that set the element of `self`, all but `__setstate__`. -/
inductive RistCall where
  | one
  | negate
  | addAssign (other : Nat)
  | subAssign (other : Nat)
  | mulAssign (other : RistScalar)
  | copy (other : Nat)
  | imul (other : Nat)

def RistCall.found {R : Type} [AddCommGroup R] (objs : List (PpObj R)) (self : Nat) (g : R) : RistCall → Found R
  | .one             => .elem 0
  | .negate          => .elem (-g)
  | .addAssign other => argument objs self other (g + ·)
  | .subAssign other => argument objs self other (g - ·)
  | .mulAssign other => .elem ((other : Nat) • g)
  | .copy other      => argument objs self other id
  | .imul other      => argument objs self other (g + ·)

/-- The loop of `PyRistG.ppmul`, which adds the last window at the bit 255. -/
def ristScan {R : Type} [AddCommMonoid R] (pp : List R) (level : Nat) : List Char → Nat → Nat → R → Except R R
  | [], _, buffer, out      => if buffer ≠ 0 then .error out else .ok out
  | c :: cs, i, buffer, out => do
    if level = 0 then throw out
    let (out, buffer) ← flush (i % level = 0 ∧ buffer ≠ 0) pp level (i / level - 1) buffer out
    let buffer ← pushBit c level i buffer out
    let (out, buffer) ← flush (i = 255 ∧ buffer ≠ 0) pp level (i / level) buffer out
    ristScan pp level cs (i + 1) buffer out

/-- `PyRistG.ppmul`: what `out` is then, also at a panic. -/
def PyRistG.ppmulInto {R : Type} [AddCommMonoid R] (o : PpObj R) (prodend : RistScalar) (out : PpObj R) :
    Except (PpObj R) (PpObj R) :=
  if o.pp.length = 0 then .ok { out with elem := (prodend : Nat) • o.elem }
  else
    setElem out (match hexToBin (hexDigits 64 prodend) with
      | none        => .error (0 • out.elem)
      | some binstr => ristScan o.pp o.pplevel binstr.reverse 0 0 (0 • out.elem))

/-- What `out` is when it returns. -/
def PyRistG.ppmul {R : Type} [AddCommMonoid R] (o : PpObj R) (prodend : RistScalar) (out : PpObj R) : Option (PpObj R) :=
  (PyRistG.ppmulInto o prodend out).toOption

/-! ## The state -/

structure PpState (G₁ G₂ K R : Type) where
  g1 : List (PpObj G₁)
  g2 : List (PpObj G₂)
  fq12 : List (PpObj (Additive K))
  ristG : List (PpObj R)

/-- The functions of the crates. -/
structure PairingLib (G₁ G₂ K R Q₁ Q₂ : Type) where
  g1 : CurveOps G₁ Q₁
  g2 : CurveOps G₂ Q₂
  fq12 : Fq12Ops K
  g1Decode : Bytes → Option G₁
  ristDecode : Bytes → Option R
  pairing : G₁ → G₂ → K

/-- The calls.  `new` stands for every method that returns an object: the constructors, `hash`, `hash_many`, `identity`,
`rand`, `__mul__`, `__truediv__`, `pow` and `__pow__`. -/
inductive PpCall (G₁ G₂ K R Q₁ Q₂ : Type) where
  | g1New (x : G₁)
  | g1Call (self : Nat) (c : CurveCall Q₁)
  | g1SetState (self : Nat) (bytes : Bytes)
  | g1Preprocess (self level : Nat)
  | g1Ppmul (self : Nat) (prodend : Fr) (out : Nat)
  | g1PairingWith (self g2 r : Nat)
  | g2New (x : G₂)
  | g2Call (self : Nat) (c : CurveCall Q₂)
  | g2Preprocess (self level : Nat)
  | g2Ppmul (self : Nat) (prodend : Fr) (out : Nat)
  | g2PairingWith (self g1 r : Nat)
  | fq12New (x : K)
  | fq12Call (self : Nat) (c : Fq12Call)
  | fq12Preprocess (self level : Nat)
  | fq12Pppow (self : Nat) (prodend : Fr) (out : Nat)
  | ristGNew (x : R)
  | ristGCall (self : Nat) (c : RistCall)
  | ristGSetState (self : Nat) (bytes : Bytes)
  | ristGPreprocess (self level : Nat)
  | ristGPpmul (self : Nat) (prodend : RistScalar) (out : Nat)

section Step

variable {G₁ G₂ K R Q₁ Q₂ : Type} [AddCommGroup G₁] [AddCommGroup G₂] [Field K] [DecidableEq K] [AddCommGroup R]
  (C : PairingLib G₁ G₂ K R Q₁ Q₂)

/-- `r.fq12 = a.pairing_with(&b)`. -/
def pairingInto (s : PpState G₁ G₂ K R) (g1 g2 r : Nat) : PpState G₁ G₂ K R :=
  match s.g1[g1]?, s.g2[g2]? with
  | some a, some b => { s with fq12 := s.fq12.modify r (write (.ofMul (C.pairing a.elem b.elem))) }
  | _, _           => s

/-- One call. -/
def ppStep (s : PpState G₁ G₂ K R) : PpCall G₁ G₂ K R Q₁ Q₂ → PpState G₁ G₂ K R
  | .g1New x                    => { s with g1 := s.g1 ++ [⟨x, [], 0⟩] }
  | .g1Call self c              => { s with g1 := assignAt s.g1 self (c.found C.g1 s.g1 self) }
  | .g1SetState self bytes      => { s with g1 := assignAt s.g1 self fun _ => unwrap (C.g1Decode bytes) }
  | .g1Preprocess self level    => { s with g1 := preprocessAt s.g1 self level PyG1.preprocess }
  | .g1Ppmul self n out         => { s with g1 := ppmulAt s.g1 self out (ppmulInto · n ·) }
  | .g1PairingWith self g2 r    => pairingInto C s self g2 r
  | .g2New x                    => { s with g2 := s.g2 ++ [⟨x, [], 0⟩] }
  | .g2Call self c              => { s with g2 := assignAt s.g2 self (c.found C.g2 s.g2 self) }
  | .g2Preprocess self level    => { s with g2 := preprocessAt s.g2 self level PyG2.preprocess }
  | .g2Ppmul self n out         => { s with g2 := ppmulAt s.g2 self out (ppmulInto · n ·) }
  | .g2PairingWith self g1 r    => pairingInto C s g1 self r
  | .fq12New x                  => { s with fq12 := s.fq12 ++ [⟨.ofMul x, [], 0⟩] }
  | .fq12Call self c            => { s with fq12 := assignAt s.fq12 self (c.found C.fq12 s.fq12 self) }
  | .fq12Preprocess self level  => { s with fq12 := preprocessAt s.fq12 self level PyFq12.preprocess }
  | .fq12Pppow self n out       => { s with fq12 := ppmulAt s.fq12 self out (ppmulInto · n ·) }
  | .ristGNew x                 => { s with ristG := s.ristG ++ [⟨x, [], 0⟩] }
  | .ristGCall self c           => { s with ristG := assignAt s.ristG self (c.found s.ristG self) }
  -- a state that is no point raises; the table stays
  | .ristGSetState self bytes   =>
    match C.ristDecode bytes with
    | none   => s
    | some x => { s with ristG := s.ristG.modify self (write x) }
  | .ristGPreprocess self level => { s with ristG := preprocessAt s.ristG self level PyRistG.preprocess }
  | .ristGPpmul self n out      => { s with ristG := ppmulAt s.ristG self out (PyRistG.ppmulInto · n ·) }

/-- A run from no objects. -/
def ppRun (calls : List (PpCall G₁ G₂ K R Q₁ Q₂)) : PpState G₁ G₂ K R := calls.foldl (ppStep C) ⟨[], [], [], []⟩

end Step

/-! ## Tables that belong to their elements -/

section Kept

variable {G : Type} [AddCommMonoid G]

/-- **The table is that of the element**: the entry of the digit `d` in the block `b` is `d * 2 ^ (L * b)` times it. -/
def TableOk (o : PpObj G) : Prop :=
  ∀ b d x, 1 ≤ d → d ≤ 2 ^ o.pplevel - 1 → o.pp[b * (2 ^ o.pplevel - 1) + d - 1]? = some x →
    x = (d * 2 ^ (o.pplevel * b)) • o.elem

theorem tableOk_first {g x : G} {pp : List G} {level d : Nat} (h : TableOk ⟨g, pp, level⟩) (h₁ : 1 ≤ d) (hd : d ≤ 2 ^ level - 1)
    (hx : pp[d - 1]? = some x) : x = d • g := by
  have hmul := h 0 d x h₁ hd (by rwa [Nat.zero_mul, Nat.zero_add])
  rwa [Nat.mul_zero, Nat.pow_zero, Nat.mul_one] at hmul

/-- Between calls: and only an object with a level has a table. -/
structure Kept (o : PpObj G) : Prop where
  table : TableOk o
  level : o.pplevel = 0 → o.pp = []

theorem kept_nil (x : G) (level : Nat) : Kept ⟨x, [], level⟩ where
  table _ _ _ _ _ h := absurd h (by simp)
  level _ := rfl

theorem kept_write {o : PpObj G} (hpp : o.pp = []) (x : G) : Kept (write x o) := by
  obtain ⟨elem, pp, level⟩ := o
  subst hpp
  exact kept_nil x level

/-- **The block of the methods keeps the tables**, whatever the element becomes. -/
theorem kept_assign {o : PpObj G} (h : Kept o) (x : G) : Kept (assign x o) := by
  unfold assign
  split
  · exact kept_nil x 0
  · rename_i hlevel
    exact kept_write (h.level (not_not.1 hlevel)) x

/-! ## `preprocess` at any level -/

theorem multipleAt_le (g : G) {base i : Nat} (hbase : 2 ≤ base) (hi : i ≤ base - 1) : multipleAt g base i = (i + 1) • g := by
  unfold multipleAt
  rcases Nat.lt_or_eq_of_le hi with hlt | rfl
  · rw [Nat.mod_eq_of_lt hlt, Nat.div_eq_of_lt hlt, Nat.pow_zero, Nat.mul_one]
  · rw [Nat.mod_self, Nat.div_self (by omega), Nat.pow_one, Nat.zero_add, Nat.one_mul, Nat.sub_add_cancel (by omega)]

/-- A table that stops in the first block, but for the first entry of the next. -/
theorem tableOk_short {g : G} {pp : List G} {level : Nat} (hpp : ∀ i x, pp[i]? = some x → x = (i + 1) • g)
    (hlen : pp.length ≤ 2 ^ level - 1) : TableOk ⟨g, pp, level⟩ := by
  intro b d x h₁ hd hx
  have hlt : b * (2 ^ level - 1) + d - 1 < pp.length := (List.getElem?_eq_some_iff.1 hx).1
  have hb : b = 0 := by
    cases b with
    | zero   => rfl
    | succ b =>
      rw [Nat.succ_mul] at hlt
      omega
  subst hb
  have hmul := hpp _ x hx
  rw [Nat.zero_mul, Nat.zero_add, Nat.sub_add_cancel h₁] at hmul
  rw [hmul, Nat.mul_zero, Nat.pow_zero, Nat.mul_one]

theorem fill_one (g : G) : fill g 1 0 = some [g] := rfl

theorem preprocess_kept {l : Layout} {o o' : PpObj G} {level : Nat} (h : preprocess l o level = some o')
    (hsize : level < 2 ^ 32 ∨ l.size level - (baseOf level - 1) ≤ 1 ∧ (baseOf level = 1 → l.size level = 0)) : Kept o' := by
  unfold preprocess at h
  split at h
  · cases h
  rename_i hlevel
  obtain ⟨pp, hfill, rfl⟩ := Option.map_eq_some_iff.1 h
  refine ⟨?_, fun h₀ => absurd (Or.inl h₀) hlevel⟩
  by_cases hsmall : level < 2 ^ 32
  · have hbase : baseOf level = 2 ^ level := by
      rw [baseOf, Nat.mod_eq_of_lt hsmall]
    have h₁ : 1 ≤ level := Nat.pos_of_ne_zero (fun h₀ => hlevel (Or.inl h₀))
    rw [hbase, fill_eq o.elem (two_le_pow h₁), Option.some_inj] at hfill
    subst hfill
    intro b d x hd hlt hx
    dsimp only at hx hlt ⊢
    have hidx := (List.getElem?_eq_some_iff.1 hx).1
    rw [List.length_map, List.length_range] at hidx
    rw [range_map_getElem? hidx, Option.some_inj, Nat.mul_comm b, Nat.add_sub_assoc hd] at hx
    rw [← hx, multipleAt_block o.elem hd hlt, Nat.pow_mul]
  · obtain ⟨hextra, hone⟩ := hsize.resolve_left hsmall
    have hpow : 2 * baseOf level ≤ 2 ^ level := by
      rw [baseOf, ← Nat.pow_succ']
      exact Nat.pow_le_pow_right (by decide) (by omega)
    have hpos : 0 < baseOf level := Nat.two_pow_pos _
    by_cases hbase : 2 ≤ baseOf level
    · rw [fill_eq o.elem hbase, Option.some_inj] at hfill
      subst hfill
      refine tableOk_short (fun i x hx => ?_) ?_
      · have hidx := (List.getElem?_eq_some_iff.1 hx).1
        rw [List.length_map, List.length_range] at hidx
        rw [range_map_getElem? hidx, Option.some_inj, multipleAt_le o.elem hbase (by omega)] at hx
        exact hx.symm
      · rw [List.length_map, List.length_range]
        omega
    · have hb : baseOf level = 1 := by omega
      rw [hb, hone hb, fill_one, Option.some_inj] at hfill
      subst hfill
      refine tableOk_short (fun i x hx => ?_) ?_
      · have hidx : i < 1 := (List.getElem?_eq_some_iff.1 hx).1
        have hi : i = 0 := by omega
        subst hi
        cases hx
        rw [Nat.zero_add, one_nsmul]
      · show 1 ≤ _
        omega

/-- The level fits the type of `base.pow`, or the entries past the first block are few. -/
def LevelOk (level : Nat) : Prop := level < 2 ^ 32 ∨ (baseOf level - 1) * 254 / level ≤ 1

/-- Rounded up first, the blocks of a larger level are one. -/
theorem preprocess_kept_of_blocks {l : Layout} {bits level : Nat} (hbits : 1 ≤ bits ∧ bits ≤ 2 ^ 32)
    (hsize : l.size level = (baseOf level - 1) * ((bits + level - 1) / level)) {o o' : PpObj G}
    (h : preprocess l o level = some o') : Kept o' := by
  refine preprocess_kept h ?_
  by_cases hsmall : level < 2 ^ 32
  · exact Or.inl hsmall
  · have hdiv : (bits + level - 1) / level = 1 := Nat.div_eq_of_lt_le (by omega) (by omega)
    refine Or.inr ⟨?_, fun hb => ?_⟩
    · rw [hsize, hdiv]
      omega
    · rw [hsize, hb, Nat.sub_self, Nat.zero_mul]

theorem preprocess_kept_of_product {l : Layout} {level : Nat} (hlevel : LevelOk level)
    (hsize : l.size level = (baseOf level - 1) * (255 + level - 1) / level) {o o' : PpObj G}
    (h : preprocess l o level = some o') : Kept o' := by
  refine preprocess_kept h ?_
  rcases hlevel with hsmall | hextra
  · exact Or.inl hsmall
  · by_cases hsmall : level < 2 ^ 32
    · exact Or.inl hsmall
    have hsum : 255 + level - 1 = 254 + level := by omega
    have hblocks : l.size level = (baseOf level - 1) * 254 / level + (baseOf level - 1) := by
      rw [hsize, hsum, Nat.mul_add, Nat.add_mul_div_right _ _ (by omega)]
    refine Or.inr ⟨?_, fun hb => ?_⟩
    · rw [hblocks]
      omega
    · rw [hsize, hb, Nat.sub_self, Nat.zero_mul, Nat.zero_div]

/-! ### Where it panics -/

/-- A loop whose body only appends has an entry for every round. -/
theorem foldlM_append_isSome {α : Type} {step : List α → Nat → Option (List α)} {d : Nat}
    (hstep : ∀ pp i, pp ≠ [] → i < pp.length + d → ∃ x, step pp i = some (pp ++ [x])) : ∀ (k s : Nat) (pp : List α),
    pp ≠ [] → s < pp.length + d → ∃ pp', (List.range' s k).foldlM step pp = some pp' ∧ pp' ≠ []
  | 0, _, pp, hne, _     => ⟨pp, rfl, hne⟩
  | k + 1, s, pp, hne, h => by
    obtain ⟨x, hx⟩ := hstep pp s hne h
    have hlt : s + 1 < (pp ++ [x]).length + d := by
      rw [List.length_append, List.length_singleton]
      omega
    rw [List.range'_succ, List.foldlM_cons, hx]
    exact foldlM_append_isSome hstep k (s + 1) (pp ++ [x]) (List.append_ne_nil_of_left_ne_nil hne [x]) hlt

theorem fill_isSome (g : G) (base size : Nat) : ∃ pp, fill g base size = some pp := by
  have hnext : ∀ pp i, pp ≠ [] → i < pp.length + 1 → ∃ x, pushNext g pp i = some (pp ++ [x]) := by
    intro pp i hne hi
    have hlen := List.length_pos_iff.2 hne
    exact ⟨_, by rw [pushNext, List.getElem?_eq_getElem (by omega), Option.map_some]⟩
  have hblock : ∀ (pp : List G) i, pp ≠ [] → i < pp.length + (base - 1) → ∃ x, pushBlock base pp i = some (pp ++ [x]) := by
    intro pp i hne hi
    have hlen := List.length_pos_iff.2 hne
    exact ⟨_, by rw [pushBlock, List.getElem?_eq_getElem (by omega), Option.map_some]⟩
  obtain ⟨pp, hpp, hne⟩ := foldlM_append_isSome hnext (base - 1 - 1) 1 [g] (List.cons_ne_nil g []) (Nat.lt_succ_self 1)
  obtain ⟨pp', hpp', -⟩ := foldlM_append_isSome hblock (size - (base - 1)) (base - 1) pp hne
    (Nat.lt_add_of_pos_left (List.length_pos_iff.2 hne))
  exact ⟨pp', by rw [fill, hpp]; exact hpp'⟩

/-- **It panics at these levels only.** -/
theorem preprocess_eq_none_iff {l : Layout} {o : PpObj G} {level : Nat} : preprocess l o level = none ↔ l.Panics level := by
  obtain ⟨pp, hpp⟩ := fill_isSome o.elem (baseOf level) (l.size level)
  unfold preprocess
  split
  · rename_i hpanics
    exact iff_of_true rfl hpanics
  · rename_i hpanics
    rw [hpp]
    exact iff_of_false (Option.some_ne_none _) hpanics

/-! ## One call -/

omit [AddCommMonoid G] in
theorem written_setElem (out : PpObj G) (x : Except G G) : written (setElem out x) = write (written x) out := by
  cases x <;> rfl

/-- Both ways through a `ppmul` give `out` an element. -/
theorem ppmulInto_write (o out : PpObj G) (n : Fr) : ∃ x, written (ppmulInto o n out) = write x out := by
  unfold ppmulInto
  split
  · exact ⟨_, rfl⟩
  · exact ⟨_, written_setElem out _⟩

theorem PyRistG.ppmulInto_write (o out : PpObj G) (n : RistScalar) : ∃ x, written (PyRistG.ppmulInto o n out) = write x out := by
  unfold PyRistG.ppmulInto
  split
  · exact ⟨_, rfl⟩
  · exact ⟨_, written_setElem out _⟩

/-- The objects of a class between calls. -/
def AllKept (objs : List (PpObj G)) : Prop := ∀ o ∈ objs, Kept o

variable {objs : List (PpObj G)}

theorem allKept_new (h : AllKept objs) (x : G) : AllKept (objs ++ [⟨x, [], 0⟩]) := by
  intro o ho
  rcases List.mem_append.1 ho with ho | ho
  · exact h o ho
  · rw [List.mem_singleton.1 ho]
    exact kept_nil x 0

theorem allKept_set (h : AllKept objs) (i : Nat) {o : PpObj G} (ho : Kept o) : AllKept (objs.set i o) := by
  intro o' ho'
  rcases List.mem_or_eq_of_mem_set ho' with hmem | rfl
  · exact h o' hmem
  · exact ho

theorem allKept_modify (h : AllKept objs) {i : Nat} {f : PpObj G → PpObj G} (hf : ∀ o, objs[i]? = some o → Kept (f o)) :
    AllKept (objs.modify i f) := by
  intro o ho
  obtain ⟨j, hj⟩ := List.mem_iff_getElem?.1 ho
  rw [List.getElem?_modify] at hj
  obtain ⟨o', ho', rfl⟩ := Option.map_eq_some_iff.1 hj
  split
  · rename_i hij
    exact hf o' (hij ▸ ho')
  · exact h o' (List.mem_of_getElem? ho')

theorem allKept_assignAt (h : AllKept objs) (self : Nat) (found : G → Found G) : AllKept (assignAt objs self found) := by
  unfold assignAt
  split
  · exact h
  split
  · exact allKept_modify h (fun o ho => kept_assign (h o (List.mem_of_getElem? ho)) _)
  · exact h
  · exact h

/-- The object written into has no table. -/
def NoTable (objs : List (PpObj G)) (i : Nat) : Prop := ∀ o, objs[i]? = some o → o.pp = []

/-- The level is one to give: where `preprocess` panics the object has no table, elsewhere the entries are right. -/
def LevelFits (l : Layout) (right : Prop) (objs : List (PpObj G)) (self level : Nat) : Prop :=
  level < 2 ^ 64 → if l.Panics level then NoTable objs self else right

theorem allKept_preprocessAt (h : AllKept objs) {l : Layout} {right : Prop} {self level : Nat}
    (hlevel : LevelFits l right objs self level) (hpre : right → ∀ o o' : PpObj G, preprocess l o level = some o' → Kept o') :
    AllKept (preprocessAt objs self level (preprocess l)) := by
  unfold preprocessAt
  split
  · exact h
  rename_i hlt
  have hfits := hlevel (Nat.lt_of_not_le hlt)
  refine allKept_modify h (fun o ho => ?_)
  cases ho' : preprocess l o level with
  | some o' =>
    have hno : ¬l.Panics level := by
      rw [← preprocess_eq_none_iff (o := o), ho']
      exact Option.some_ne_none o'
    rw [if_neg hno] at hfits
    exact hpre hfits o o' ho'
  | none    =>
    rw [if_pos (preprocess_eq_none_iff.1 ho')] at hfits
    have hnil : { o with pplevel := level } = (⟨o.elem, [], level⟩ : PpObj G) := congrArg (PpObj.mk o.elem · level) (hfits o ho)
    rw [Option.getD_none, hnil]
    exact kept_nil o.elem level

theorem allKept_ppmulAt (h : AllKept objs) {self out : Nat} {mul : PpObj G → PpObj G → Except (PpObj G) (PpObj G)}
    (hmul : ∀ o o', ∃ x, written (mul o o') = write x o') (hout : self ≠ out → NoTable objs out) :
    AllKept (ppmulAt objs self out mul) := by
  unfold ppmulAt
  split
  · exact h
  rename_i hne
  split
  · rename_i o o' _ ho'
    obtain ⟨x, hx⟩ := hmul o o'
    rw [hx]
    exact allKept_set h out (kept_write (hout hne o' ho') x)
  · exact h

end Kept

section Runs

variable {G₁ G₂ K R Q₁ Q₂ : Type} [AddCommGroup G₁] [AddCommGroup G₂] [Field K] [DecidableEq K] [AddCommGroup R]
  {C : PairingLib G₁ G₂ K R Q₁ Q₂}

structure StateKept (s : PpState G₁ G₂ K R) : Prop where
  g1 : AllKept s.g1
  g2 : AllKept s.g2
  fq12 : AllKept s.fq12
  ristG : AllKept s.ristG

/-- The call does not write past a table: what `out`, `r` or a `PyRistG` read back has none, nor has an object whose
`preprocess` panics; and the levels of `PyG2` and `PyFq12` are sound ones. -/
def Careful (C : PairingLib G₁ G₂ K R Q₁ Q₂) (s : PpState G₁ G₂ K R) : PpCall G₁ G₂ K R Q₁ Q₂ → Prop
  | .g1Ppmul self _ out         => self ≠ out → NoTable s.g1 out
  | .g2Ppmul self _ out         => self ≠ out → NoTable s.g2 out
  | .fq12Pppow self _ out       => self ≠ out → NoTable s.fq12 out
  | .ristGPpmul self _ out      => self ≠ out → NoTable s.ristG out
  | .g1PairingWith _ _ r        => NoTable s.fq12 r
  | .g2PairingWith _ _ r        => NoTable s.fq12 r
  | .ristGSetState self bytes   => C.ristDecode bytes ≠ none → NoTable s.ristG self
  | .g1Preprocess self level    => LevelFits PyG1.layout True s.g1 self level
  | .g2Preprocess self level    => LevelFits PyG2.layout (LevelOk level) s.g2 self level
  | .fq12Preprocess self level  => LevelFits PyFq12.layout (LevelOk level) s.fq12 self level
  | .ristGPreprocess self level => LevelFits PyRistG.layout True s.ristG self level
  | _                           => True

omit [DecidableEq K] in
theorem stateKept_pairingInto {s : PpState G₁ G₂ K R} (h : StateKept s) {r : Nat} (hr : NoTable s.fq12 r) (g1 g2 : Nat) :
    StateKept (pairingInto C s g1 g2 r) := by
  unfold pairingInto
  split
  · refine { h with fq12 := allKept_modify h.fq12 (fun o ho => ?_) }
    exact kept_write (hr o ho) _
  · exact h

/-- **A careful call keeps the tables.** -/
theorem stateKept_step {s : PpState G₁ G₂ K R} (h : StateKept s) {c : PpCall G₁ G₂ K R Q₁ Q₂} (hc : Careful C s c) :
    StateKept (ppStep C s c) := by
  cases c with
  | g1New x => exact { h with g1 := allKept_new h.g1 x }
  | g1Call self c => exact { h with g1 := allKept_assignAt h.g1 self (c.found C.g1 s.g1 self) }
  | g1SetState self bytes => exact { h with g1 := allKept_assignAt h.g1 self (fun _ => unwrap (C.g1Decode bytes)) }
  | g1Preprocess self level =>
    exact { h with g1 := allKept_preprocessAt h.g1 hc (fun _ _ _ => preprocess_kept_of_blocks (by decide) rfl) }
  | g1Ppmul self n out => exact { h with g1 := allKept_ppmulAt h.g1 (ppmulInto_write · · n) hc }
  | g1PairingWith self g2 r => exact stateKept_pairingInto h hc self g2
  | g2New x => exact { h with g2 := allKept_new h.g2 x }
  | g2Call self c => exact { h with g2 := allKept_assignAt h.g2 self (c.found C.g2 s.g2 self) }
  | g2Preprocess self level =>
    exact { h with g2 := allKept_preprocessAt h.g2 hc (fun hlevel _ _ => preprocess_kept_of_product hlevel rfl) }
  | g2Ppmul self n out => exact { h with g2 := allKept_ppmulAt h.g2 (ppmulInto_write · · n) hc }
  | g2PairingWith self g1 r => exact stateKept_pairingInto h hc g1 self
  | fq12New x => exact { h with fq12 := allKept_new h.fq12 _ }
  | fq12Call self c => exact { h with fq12 := allKept_assignAt h.fq12 self (c.found C.fq12 s.fq12 self) }
  | fq12Preprocess self level =>
    exact { h with fq12 := allKept_preprocessAt h.fq12 hc (fun hlevel _ _ => preprocess_kept_of_product hlevel rfl) }
  | fq12Pppow self n out => exact { h with fq12 := allKept_ppmulAt h.fq12 (ppmulInto_write · · n) hc }
  | ristGNew x => exact { h with ristG := allKept_new h.ristG x }
  | ristGCall self c => exact { h with ristG := allKept_assignAt h.ristG self (c.found s.ristG self) }
  | ristGSetState self bytes =>
    rw [ppStep]
    split
    · exact h
    · rename_i x hx
      refine { h with ristG := allKept_modify h.ristG (fun o ho => ?_) }
      exact kept_write (hc (by rw [hx]; simp) o ho) x
  | ristGPreprocess self level =>
    exact { h with ristG := allKept_preprocessAt h.ristG hc (fun _ _ _ => preprocess_kept_of_blocks (by decide) rfl) }
  | ristGPpmul self n out => exact { h with ristG := allKept_ppmulAt h.ristG (PyRistG.ppmulInto_write · · n) hc }

theorem ppRun_append_singleton (pre : List (PpCall G₁ G₂ K R Q₁ Q₂)) (c : PpCall G₁ G₂ K R Q₁ Q₂) :
    ppRun C (pre ++ [c]) = ppStep C (ppRun C pre) c := List.foldl_concat ..

/-- Every table belongs to its object's element. -/
structure TablesOk (s : PpState G₁ G₂ K R) : Prop where
  g1 : ∀ o ∈ s.g1, TableOk o
  g2 : ∀ o ∈ s.g2, TableOk o
  fq12 : ∀ o ∈ s.fq12, TableOk o
  ristG : ∀ o ∈ s.ristG, TableOk o

/-- **In a run of careful calls every table belongs to its element between any two of them.** -/
theorem tables_kept (C : PairingLib G₁ G₂ K R Q₁ Q₂) (calls : List (PpCall G₁ G₂ K R Q₁ Q₂))
    (hcalls : ∀ pre c, pre ++ [c] <+: calls → Careful C (ppRun C pre) c) :
    ∀ pre, pre <+: calls → TablesOk (ppRun C pre) := by
  have hkept : ∀ pre, pre <+: calls → StateKept (ppRun C pre) := by
    intro pre
    induction pre using List.reverseRecOn with
    | nil =>
      intro _
      exact ⟨by simp [AllKept, ppRun], by simp [AllKept, ppRun], by simp [AllKept, ppRun], by simp [AllKept, ppRun]⟩
    | append_singleton pre c ih =>
      intro hpre
      rw [ppRun_append_singleton]
      exact stateKept_step (ih ((List.prefix_append pre [c]).trans hpre)) (hcalls pre c hpre)
  intro pre hpre
  have h := hkept pre hpre
  exact ⟨fun o ho => (h.g1 o ho).table, fun o ho => (h.g2 o ho).table, fun o ho => (h.fq12 o ho).table,
    fun o ho => (h.ristG o ho).table⟩

end Runs

/-! ## A run -/

/-- Groups of the order of `G1`, the generators 1. -/
def orderLib : PairingLib (ZMod frModulus) (ZMod frModulus) Rat (ZMod frModulus) Unit Unit where
  g1 := ⟨1, fun _ => 1, fun _ _ _ => 1, fun _ _ _ => 1⟩
  g2 := ⟨1, fun _ => 1, fun _ _ _ => 1, fun _ _ _ => 1⟩
  fq12 := ⟨fun _ => 1, fun _ => none, id⟩
  g1Decode _ := none
  ristDecode _ := none
  pairing _ _ := 1

/-- A product goes into an object whose `preprocess` has panicked, and doubling drops the table. -/
theorem tables_kept_double : TablesOk (ppRun orderLib [.g1New 1, .g1New 1, .g1Preprocess 0 4, .g1Preprocess 1 54,
    .g1Ppmul 0 ⟨5, by decide⟩ 1, .g1Call 0 .double]) := by
  refine tables_kept orderLib _ (fun pre c hpre => ?_) _ List.prefix_rfl
  rcases pre with _ | ⟨_, _ | ⟨_, _ | ⟨_, _ | ⟨_, _ | ⟨_, _ | ⟨_, pre⟩⟩⟩⟩⟩⟩ <;>
    simp only [List.nil_append, List.cons_append, List.cons_prefix_cons, List.prefix_nil] at hpre
  · obtain ⟨rfl, -⟩ := hpre
    trivial
  · obtain ⟨-, rfl, -⟩ := hpre
    trivial
  · obtain ⟨rfl, rfl, rfl, -⟩ := hpre
    intro _
    rw [if_neg (by decide)]
    trivial
  · obtain ⟨rfl, rfl, rfl, rfl, -⟩ := hpre
    intro _
    rw [if_pos (by decide)]
    rintro o ⟨⟩
    rfl
  · obtain ⟨rfl, rfl, rfl, rfl, rfl, -⟩ := hpre
    rintro - o ⟨⟩
    rfl
  · obtain ⟨-, -, -, -, -, rfl, -⟩ := hpre
    trivial
  · obtain ⟨-, -, -, -, -, -, hnil⟩ := hpre
    exact absurd hnil (List.append_ne_nil_of_right_ne_nil pre (List.cons_ne_nil c []))

section

variable {G₁ G₂ K R Q₁ Q₂ : Type} [AddCommGroup G₁] [AddCommGroup G₂] [Field K] [DecidableEq K] [AddCommGroup R]
  {C : PairingLib G₁ G₂ K R Q₁ Q₂}

theorem preprocessAt_eq {G : Type} {objs : List (PpObj G)} {self level : Nat} (h : level < 2 ^ 64)
    (pre : PpObj G → Nat → Option (PpObj G)) :
    preprocessAt objs self level pre = objs.modify self fun o => (pre o level).getD { o with pplevel := level } :=
  if_neg (Nat.not_le.2 h)

/-- `out` has a table of its own, and `ppmul` writes another element over its own. -/
theorem eq_of_ppmul_into (x : G₁) (n : Fr)
    (h : TablesOk (ppRun C [.g1New x, .g1New x, .g1Preprocess 1 1, .g1Ppmul 0 n 1])) : x = (n : Nat) • x := by
  obtain ⟨pp, hpre, hentry⟩ : ∃ pp, PyG1.preprocess ⟨x, [], 0⟩ 1 = some ⟨x, pp, 1⟩ ∧ pp[0]? = some x := by
    refine ⟨_, preprocess_eq (Nat.le_refl 1) (by decide) (PyG1.sizeOk (Nat.le_refl 1) (by decide)) ⟨x, [], 0⟩, ?_⟩
    rw [tableOf, range_map_getElem? (by decide), multipleAt_le x (by decide) (by decide), Nat.zero_add, one_nsmul]
  have htable : preprocessAt [⟨x, [], 0⟩, ⟨x, [], 0⟩] 1 1 PyG1.preprocess = [⟨x, [], 0⟩, ⟨x, pp, 1⟩] := by
    rw [preprocessAt_eq (by decide), List.modify_succ_cons, List.modify_zero_cons, hpre, Option.getD_some]
  have hrun : (ppRun C [.g1New x, .g1New x, .g1Preprocess 1 1, .g1Ppmul 0 n 1]).g1 =
      [⟨x, [], 0⟩, ⟨(n : Nat) • x, pp, 1⟩] := by
    calc _ = ppmulAt (preprocessAt [⟨x, [], 0⟩, ⟨x, [], 0⟩] 1 1 PyG1.preprocess) 0 1 (ppmulInto · n ·) := rfl
      _ = _ := by rw [htable]; rfl
  have hkept := h.g1 ⟨(n : Nat) • x, pp, 1⟩ (by rw [hrun]; exact List.mem_cons_of_mem _ List.mem_cons_self)
  exact (tableOk_first hkept (Nat.le_refl 1) (Nat.le_refl 1) hentry).trans (one_nsmul _)

/-- The panic at the level 54 leaves the table of the level 4: its 17th entry is the second one of the block 1. -/
theorem eq_of_preprocess_panics (x : G₁) (h : TablesOk (ppRun C [.g1New x, .g1Preprocess 0 4, .g1Preprocess 0 54])) :
    32 • x = 17 • x := by
  obtain ⟨pp, hpre, hentry⟩ : ∃ pp, PyG1.preprocess ⟨x, [], 0⟩ 4 = some ⟨x, pp, 4⟩ ∧ pp[16]? = some (32 • x) := by
    refine ⟨_, preprocess_eq (by decide) (by decide) (PyG1.sizeOk (by decide) (by decide)) ⟨x, [], 0⟩, ?_⟩
    rw [tableOf, range_map_getElem? (by decide)]
    exact congrArg (fun k : Nat => some (k • x)) (by decide)
  have hpanics : PyG1.preprocess ⟨x, pp, 4⟩ 54 = none :=
    preprocess_eq_none_iff.2 (by decide)
  have hrun : (ppRun C [.g1New x, .g1Preprocess 0 4, .g1Preprocess 0 54]).g1 = [⟨x, pp, 54⟩] := by
    calc _ = preprocessAt (preprocessAt [⟨x, [], 0⟩] 0 4 PyG1.preprocess) 0 54 PyG1.preprocess := rfl
      _ = _ := by
        rw [preprocessAt_eq (by decide), preprocessAt_eq (by decide), List.modify_zero_cons, List.modify_zero_cons, hpre,
          Option.getD_some, hpanics, Option.getD_none]
  have hkept := h.g1 ⟨x, pp, 54⟩ (by rw [hrun]; exact List.mem_cons_self)
  exact tableOk_first hkept (by decide) (by decide) hentry

end

/-- The table of 1 under the element 2, and under the level of a `preprocess` that panicked. -/
theorem tables_kept_counterexample :
    ¬TablesOk (ppRun orderLib [.g1New 1, .g1New 1, .g1Preprocess 1 1, .g1Ppmul 0 ⟨2, by decide⟩ 1]) ∧
    ¬TablesOk (ppRun orderLib [.g1New 1, .g1Preprocess 0 4, .g1Preprocess 0 54]) := by
  constructor
  · intro h
    have htwo : (1 : ZMod frModulus) = (2 : Nat) • 1 := eq_of_ppmul_into 1 ⟨2, by decide⟩ h
    rw [nsmul_eq_mul, mul_one, ← Nat.cast_one, ZMod.natCast_eq_natCast_iff'] at htwo
    exact absurd htwo (by decide)
  · intro h
    have heq : (32 : Nat) • (1 : ZMod frModulus) = 17 • 1 := eq_of_preprocess_panics 1 h
    rw [nsmul_eq_mul, nsmul_eq_mul, mul_one, mul_one, ZMod.natCast_eq_natCast_iff'] at heq
    exact absurd heq (by decide)

end Pairing
end Dpid
