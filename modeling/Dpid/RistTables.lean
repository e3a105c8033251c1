import Dpid.RistRuns
/-!
# RistTables — the tables of the bindings, over the group

Over the group itself `preprocess` and `ppmul` are the functions of `PpTable` and `PpFresh`, and an integer is its residue.
So the multiplication through a table agrees with the plain one on the vendored points, wherever the table has the block.
-/
namespace Dpid
namespace Pairing
namespace Rist

open Checked LittleEndian
open Curve25519 (Bytes32 Scalar RistrettoPoint RistrettoGroup groupOrder Fl)

/-! ## Integers -/

theorem leVal_toBytesLe (n : Nat) : leVal (toBytesLe n) = n := by
  rw [toBytesLe, leVal_leBytes, Nat.mod_eq_of_lt (Nat.lt_pow_succ_log_self (by decide) n)]

theorem length_toBytesLe {n k : Nat} (h : n < 256 ^ (k + 1)) : (toBytesLe n).length ≤ k + 1 := by
  rw [toBytesLe, length_leBytes]
  have hlog := Nat.log_lt_of_lt_pow' (Nat.succ_ne_zero k) h
  omega

theorem leVal_replicate_zero : ∀ k : Nat, leVal (List.replicate k 0) = 0
  | 0     => rfl
  | k + 1 => by
    rw [List.replicate_succ, leVal, leVal_replicate_zero k]
    rfl

/-- The bytes of a number, and the padding. -/
theorem toBytesLe_append {m : Nat} (h : m < 256 ^ 32) :
    toBytesLe m ++ List.replicate (32 - (toBytesLe m).length) 0 = leBytes 32 m := by
  have hlen := length_toBytesLe (k := 31) h
  refine leVal_injective ?_ ?_
  · rw [List.length_append, List.length_replicate, length_leBytes]
    omega
  · rw [leVal_append, leVal_replicate_zero, Nat.mul_zero, Nat.add_zero, leVal_toBytesLe, leVal_leBytes, Nat.mod_eq_of_lt h]

section

variable {Z G : Type} (C : RistLib Z G)

/-- **An integer of any sign** is read by its residue. -/
theorem bigintToPyscalar_eq (n : Int) : bigintToPyscalar C n = C.fromBytesModOrder (bytes32 (n % groupOrder).toNat) := by
  have hlt : (n % groupOrder).toNat < 256 ^ 32 := by
    have hpos : 0 ≤ n % groupOrder := Int.emod_nonneg n (by decide)
    have hmod := Int.emod_lt_of_pos n (by decide : (0 : Int) < groupOrder)
    have hbig : groupOrder < 256 ^ 32 := by decide
    omega
  have hsub : Checked.sub 32 (toBytesLe (n % groupOrder).toNat).length =
      some (32 - (toBytesLe (n % groupOrder).toNat).length) := if_pos (length_toBytesLe (k := 31) hlt)
  unfold bigintToPyscalar
  dsimp only
  rw [hsub]
  dsimp only [Option.bind_eq_bind, Option.bind_some]
  rw [toBytesLe_append hlt, tryInto32, dif_pos (length_leBytes 32 _)]
  rfl

end

theorem bigintToPyscalar_ideal (n : Int) : bigintToPyscalar ideal n = some (n : Fl) := by
  have hpos : 0 ≤ n % groupOrder := Int.emod_nonneg n (by decide)
  have hlt : (n % groupOrder).toNat < 256 ^ 32 := by
    have hmod := Int.emod_lt_of_pos n (by decide : (0 : Int) < groupOrder)
    have hbig : groupOrder < 256 ^ 32 := by decide
    omega
  have hval : leVal (bytes32 (n % groupOrder).toNat).toList = (n % groupOrder).toNat :=
    (leVal_leBytes 32 _).trans (Nat.mod_eq_of_lt hlt)
  have hcast : (((n % groupOrder).toNat : Nat) : Fl) = n := by
    rw [← Int.cast_natCast, Int.toNat_of_nonneg hpos, ZMod.intCast_mod]
  rw [bigintToPyscalar_eq]
  dsimp only [ideal]
  rw [hval, hcast]

/-- **A power**, the exponent of any sign. -/
theorem powAssign_ideal (z : Fl) (exp : Int) : powAssign ideal z exp = some (z ^ (exp % (groupOrder - 1 : Nat)).toNat) := by
  have hval : toBigint ideal z = z.val :=
    (leVal_leBytes 32 z.val).trans (Nat.mod_eq_of_lt (Nat.lt_trans (ZMod.val_lt z) (by decide)))
  rw [powAssign, hval, bigintToPyscalar_ideal, Int.cast_natCast, ZMod.natCast_mod, Nat.cast_pow, ZMod.natCast_zmod_val]

/-! ## Tables -/

theorem pushNext_ideal (g : RistrettoGroup) (pp : List RistrettoGroup) (i : Nat) :
    pushNext ideal g pp i = Pairing.pushNext g pp i := by
  unfold pushNext Pairing.pushNext
  cases pp[i - 1]? <;> rfl

theorem pushBlock_ideal {base : Nat} (h : base < 2 ^ 64) (pp : List RistrettoGroup) (i : Nat) :
    pushBlock ideal (ideal.ofU64 base) base pp i = Pairing.pushBlock base pp i := by
  have hval : ((base : Nat) : Fl).val = base := by
    rw [ZMod.val_natCast, Nat.mod_eq_of_lt (Nat.lt_trans h (by decide))]
  have hmul : ∀ g : RistrettoGroup, ideal.mul g (ideal.ofU64 base) = some (base • g) := by
    intro g
    have hmul : ideal.mul g (ideal.ofU64 base) = some (((base : Nat) : Fl).val • g) := rfl
    rw [hmul, hval]
  unfold pushBlock Pairing.pushBlock
  cases pp[i - (base - 1)]? with
  | none   => rfl
  | some x =>
    dsimp only [Option.bind_eq_bind, Option.bind_some, Option.map_some]
    rw [hmul]
    rfl

theorem preprocess_ideal (o : PpObj RistrettoGroup) (level : Nat) : preprocess ideal o level = PyRistG.preprocess o level := by
  unfold preprocess PyRistG.preprocess Pairing.preprocess
  by_cases hlevel : PyRistG.layout.Panics level
  · rw [if_pos hlevel, if_pos hlevel]
  · rw [if_neg hlevel, if_neg hlevel]
    have hnext : pushNext ideal o.elem = Pairing.pushNext o.elem := funext fun pp => funext (pushNext_ideal o.elem pp)
    have hblock : pushBlock ideal (ideal.ofU64 (baseOf level)) (baseOf level) = Pairing.pushBlock (baseOf level) :=
      funext fun pp => funext (pushBlock_ideal (baseOf_lt hlevel) pp)
    dsimp only
    rw [hnext, hblock, fill]
    cases (List.range' 1 (baseOf level - 1 - 1)).foldlM (Pairing.pushNext o.elem) [o.elem] with
    | none    => rfl
    | some pp => exact Option.map_eq_bind.symm

/-! ## Multiplication -/

/-- The text of the reversed bytes is that of the number. -/
theorem hexEncode_reverse : ∀ l : List UInt8, hexEncode l.reverse = hexDigits (2 * l.length) (leVal l)
  | []     => rfl
  | b :: l => by
    have hb := b.toNat_lt
    have ih := hexEncode_reverse l
    have hlow : (b.toNat + 256 * leVal l) % 16 = b.toNat % 16 := by omega
    have hhigh : (b.toNat + 256 * leVal l) / 16 % 16 = b.toNat / 16 := by omega
    have hrest : (b.toNat + 256 * leVal l) / 16 / 16 = leVal l := by omega
    unfold hexEncode at ih ⊢
    rw [List.reverse_cons, List.flatMap_append, ih, List.length_cons, Nat.mul_succ, leVal, hexDigits, hexDigits, hlow, hhigh,
      hrest, List.append_assoc]
    rfl

theorem hexEncode_ideal (z : Fl) : hexEncode (ideal.toBytes z).toList.reverse = hexDigits 64 z.val := by
  have hval : leVal (bytes32 z.val).toList = z.val :=
    (leVal_leBytes 32 z.val).trans (Nat.mod_eq_of_lt (Nat.lt_trans (ZMod.val_lt z) (by decide)))
  have hbytes : ideal.toBytes z = bytes32 z.val := rfl
  rw [hbytes, hexEncode_reverse, hval, Vector.length_toList]

theorem flush_ideal (due : Prop) [Decidable due] (pp : List RistrettoGroup) (level b buffer : Nat) (out : RistrettoGroup) :
    flush ideal due pp level b buffer out = Pairing.flush due pp level b buffer out := by
  unfold flush Pairing.flush
  cases entry pp level b buffer <;> rfl

theorem scan_ideal (pp : List RistrettoGroup) (level : Nat) : ∀ (cs : List Char) (i buffer : Nat) (out : RistrettoGroup),
    scan ideal pp level cs i buffer out = ristScan pp level cs i buffer out
  | [], _, _, _             => rfl
  | c :: cs, i, buffer, out => by
    unfold scan ristScan
    simp only [flush_ideal, scan_ideal pp level cs]

/-- The number of a canonical scalar. -/
def bitsOf (z : Fl) : RistScalar := ⟨z.val, Nat.lt_trans (ZMod.val_lt z) (by decide)⟩

theorem mulTable_ideal (o : PpObj RistrettoGroup) (z : Fl) (out : RistrettoGroup) :
    mulTable ideal o z out = match hexToBin (hexDigits 64 (bitsOf z)) with
      | none        => .error (0 • out)
      | some binstr => ristScan o.pp o.pplevel binstr.reverse 0 0 (0 • out) := by
  have hzero : ideal.mul out ideal.zero = some (0 • out) := by
    have hmul : ideal.mul out ideal.zero = some ((0 : Fl).val • out) := rfl
    rw [hmul, ZMod.val_zero]
  have hval : (bitsOf z : Nat) = z.val := rfl
  unfold mulTable
  rw [hzero, hexEncode_ideal, hval]
  dsimp only
  cases hexToBin (hexDigits 64 z.val) with
  | none        => rfl
  | some binstr => exact scan_ideal ..

theorem ppmul_ideal (o : PpObj RistrettoGroup) (z : Fl) (out : PpObj RistrettoGroup) :
    ppmul ideal o z out = PyRistG.ppmul o (bitsOf z) out := by
  unfold ppmul PyRistG.ppmul ppmulInto PyRistG.ppmulInto
  by_cases hpp : o.pp.length = 0
  · rw [if_pos hpp, if_pos hpp]
    rfl
  · rewrite [if_neg hpp, if_neg hpp, mulTable_ideal]
    cases hexToBin (hexDigits 64 (bitsOf z)) <;> rfl

/-! ## Both multiplications -/

section

variable {Z G : Type}

/-- The replies to some calls in a state. -/
def repliesFrom (C : RistLib Z G) : RistState Z G → List RistCall → Option (List Reply)
  | _, []      => some []
  | s, c :: cs => do
    let (s, r) ← step C s c
    return r :: (← repliesFrom C s cs)

end

theorem repliesFrom_rel : ∀ {s : RistState Scalar RistrettoPoint} {t : RistState Fl RistrettoGroup} (calls : List RistCall),
    StateRel IsZr IsG s t → repliesFrom dalek s calls = repliesFrom ideal t calls
  | _, _, [], _      => rfl
  | s, t, c :: cs, h => by
    have hrel := step_rel h dalek_sim c
    unfold repliesFrom
    generalize step dalek s c = a at hrel
    generalize step ideal t c = b at hrel
    cases hrel with
    | none       => rfl
    | some hst =>
      rename_i a b
      obtain ⟨s', r⟩ := a
      obtain ⟨t', r'⟩ := b
      obtain ⟨hst, hr⟩ := hst
      dsimp only at hst hr
      dsimp only [Option.bind_eq_bind, Option.bind_some]
      rw [hr, repliesFrom_rel cs hst]

section

variable {t : RistState Fl RistrettoGroup} {i j k L : Nat} {p q : PpObj RistrettoGroup} {w : Fl}

theorem assign_elem {G : Type} (x : G) (o : PpObj G) : (assign x o).elem = x := by
  unfold assign
  split <;> rfl

theorem step_ideal_getState (hj : t.gs[j]? = some q) {g : RistrettoGroup} (hg : q.elem = g) :
    step ideal t (.gGetState j) = some (t, .bytes (encoding g).toList) := by
  dsimp only [step, withG]
  rw [hj, ← hg]
  rfl

/-- Over the group, through the table. -/
theorem repliesFrom_table (hij : i ≠ j) (hi : t.gs[i]? = some p) (hj : t.gs[j]? = some q) (hk : t.zrs[k]? = some w)
    (h₁ : 1 ≤ L) (hL : L ≤ 16) : repliesFrom ideal t [.gPreprocess i L, .gPpmul i k j, .gGetState j] =
      if L ∣ 252 ∧ 2 ^ 252 ≤ w.val then none
      else some [.done, .done, .bytes (encoding (w.val • p.elem)).toList] := by
  have hbits : (bitsOf w : Nat) < 2 ^ 253 := Nat.lt_trans (ZMod.val_lt w) (by decide)
  have hpre := ristPreprocess_eq h₁ hL p
  have hi' := getElem?_set_same hi ⟨p.elem, tableOf PyRistG.size L p.elem, L⟩
  have hj' : (t.gs.set i ⟨p.elem, tableOf PyRistG.size L p.elem, L⟩)[j]? = some q := by
    rw [List.getElem?_set_ne hij, hj]
  have hstep : step ideal t (.gPreprocess i L) =
      some ({ t with gs := t.gs.set i ⟨p.elem, tableOf PyRistG.size L p.elem, L⟩ }, .done) := by
    dsimp only [step, withG]
    rw [hi]
    dsimp only
    rw [if_neg (by omega), preprocess_ideal, hpre]
    rfl
  have hmul : step ideal { t with gs := t.gs.set i ⟨p.elem, tableOf PyRistG.size L p.elem, L⟩ } (.gPpmul i k j) =
      (PyRistG.ppmul ⟨p.elem, tableOf PyRistG.size L p.elem, L⟩ (bitsOf w) q).bind
        (setObj { t with gs := t.gs.set i ⟨p.elem, tableOf PyRistG.size L p.elem, L⟩ } j) := by
    dsimp only [step, withG, withZr, withOtherG]
    rw [hi']
    dsimp only
    rw [hk]
    dsimp only
    rw [if_neg hij, hj']
    dsimp only
    rw [ppmul_ideal]
    rfl
  rw [repliesFrom, hstep]
  dsimp only [Option.bind_eq_bind, Option.bind_some]
  rw [repliesFrom, hmul]
  split
  · rename_i hpanic
    have hnone := ristPpmul_preprocess_none h₁ hL hbits hpanic.1 hpanic.2 p q
    rw [hpre, Option.bind_some] at hnone
    rw [hnone]
    rfl
  · rename_i hno
    have hsome := ristPpmul_preprocess_eq h₁ hL hbits (fun hdvd => Nat.lt_of_not_le (fun hge => hno ⟨hdvd, hge⟩)) p q
    rw [hpre, Option.bind_some] at hsome
    have hget := getElem?_set_same hj' { q with elem := w.val • p.elem }
    have hstate : step ideal ⟨t.zrs, (t.gs.set i ⟨p.elem, tableOf PyRistG.size L p.elem, L⟩).set j
        { q with elem := w.val • p.elem }⟩ (.gGetState j) =
        some (⟨t.zrs, (t.gs.set i ⟨p.elem, tableOf PyRistG.size L p.elem, L⟩).set j { q with elem := w.val • p.elem }⟩,
          .bytes (encoding (w.val • p.elem)).toList) := step_ideal_getState hget rfl
    have hval : (bitsOf w : Nat) = w.val := rfl
    rw [hsome, hval]
    dsimp only [Option.bind_eq_bind, Option.bind_some, setObj]
    rw [repliesFrom, hstate]
    rfl

/-- Over the group, without one. -/
theorem repliesFrom_plain (hij : i ≠ j) (hi : t.gs[i]? = some p) (hj : t.gs[j]? = some q) (hk : t.zrs[k]? = some w) :
    repliesFrom ideal t [.gCopy j i, .gMulAssign j k, .gGetState j] =
      some [.done, .done, .bytes (encoding (w.val • p.elem)).toList] := by
  have hcopy : step ideal t (.gCopy j i) = some ({ t with gs := t.gs.set j (assign p.elem q) }, .done) := by
    dsimp only [step, withG, withOtherG]
    rw [hj]
    dsimp only
    rw [if_neg (Ne.symm hij), hi]
    rfl
  have hget := getElem?_set_same hj (assign p.elem q)
  have hmul : step ideal { t with gs := t.gs.set j (assign p.elem q) } (.gMulAssign j k) =
      some (⟨t.zrs, (t.gs.set j (assign p.elem q)).set j (assign (w.val • p.elem) (assign p.elem q))⟩, .done) := by
    have hlib : ideal.mul (assign p.elem q).elem w = some (w.val • p.elem) := by
      rw [assign_elem]
      rfl
    dsimp only [step, withG, withZr]
    rw [hget]
    dsimp only
    rw [hk]
    dsimp only
    rw [hlib]
    rfl
  have hget' := getElem?_set_same hget (assign (w.val • p.elem) (assign p.elem q))
  have hstate : step ideal ⟨t.zrs, (t.gs.set j (assign p.elem q)).set j (assign (w.val • p.elem) (assign p.elem q))⟩
      (.gGetState j) = some (⟨t.zrs, (t.gs.set j (assign p.elem q)).set j (assign (w.val • p.elem) (assign p.elem q))⟩,
        .bytes (encoding (w.val • p.elem)).toList) := step_ideal_getState hget' (assign_elem _ _)
  rw [repliesFrom, hcopy]
  dsimp only [Option.bind_eq_bind, Option.bind_some]
  rw [repliesFrom, hmul]
  dsimp only [Option.bind_eq_bind, Option.bind_some]
  rw [repliesFrom, hstate]
  rfl

end

/-- **The table does not show**: at a level up to 16 the product through it has the bytes of the plain one, but that it panics
where the level divides 252 and the scalar has the bit 252. -/
theorem table_agrees {calls : List RistCall} {s : RistState Scalar RistrettoPoint} {rs : List Reply}
    (h : run dalek calls = (s, rs)) {i j k L : Nat} {o o' : PpObj RistrettoPoint} {z : Scalar} (hij : i ≠ j)
    (hi : s.gs[i]? = some o) (hj : s.gs[j]? = some o') (hk : s.zrs[k]? = some z) (h₁ : 1 ≤ L) (hL : L ≤ 16) :
    repliesFrom dalek s [.gPreprocess i L, .gPpmul i k j, .gGetState j] =
      if L ∣ 252 ∧ 2 ^ 252 ≤ z.val then none else repliesFrom dalek s [.gCopy j i, .gMulAssign j k, .gGetState j] := by
  obtain ⟨t, -, hst⟩ := reachable_rel h
  obtain ⟨p, hp, -⟩ := Lockstep.exists_right hst.gs hi
  obtain ⟨q, hq, -⟩ := Lockstep.exists_right hst.gs hj
  obtain ⟨w, hw, hz⟩ := Lockstep.exists_right hst.zrs hk
  have hval : z.val = w.val := hz
  rw [repliesFrom_rel _ hst, repliesFrom_rel _ hst, repliesFrom_table hij hp hq hw h₁ hL, repliesFrom_plain hij hp hq hw, hval]

/-- The basepoint, the identity, and a scalar with the bit 252. -/
def withScalar : List RistCall := twoPoints ++ [.zrNew (some (.int (2 ^ 252)))]

theorem table_agrees_five :
    let s := (run dalek withScalar).1
    let z : Scalar := ⟨bytes32 (2 ^ 252)⟩
    repliesFrom dalek s [.gPreprocess 0 5, .gPpmul 0 0 1, .gGetState 1] =
      if 5 ∣ 252 ∧ 2 ^ 252 ≤ z.val then none else repliesFrom dalek s [.gCopy 1 0, .gMulAssign 1 0, .gGetState 1] := by
  have hlen : (run dalek withScalar).1.gs.length = 2 := by decide +kernel
  have hget : ∀ i < 2, ∃ o, (run dalek withScalar).1.gs[i]? = some o :=
    fun i hi => ⟨_, List.getElem?_eq_getElem (by rwa [hlen])⟩
  obtain ⟨_, ho⟩ := hget 0 (by decide)
  obtain ⟨_, ho'⟩ := hget 1 (by decide)
  exact table_agrees rfl (by decide) ho ho' (by decide +kernel) (by decide) (by decide)

end Rist
end Pairing
end Dpid
