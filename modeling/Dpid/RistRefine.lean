import Dpid.Lockstep
import Dpid.RistObjects
/-!
# RistRefine — what the objects show depends on the group alone

Two libraries of scalars and points whose functions are in lock step (`Sim`) give the bindings the same replies, in every
run: no call shows more of a point than its element of the group.
-/
namespace Dpid
namespace Pairing
namespace Rist

open Curve25519 (Bytes32)
open Lockstep (Outcome)

/-- The functions of two libraries, side by side. -/
structure Sim {Z Z' G G' : Type} (C : RistLib Z G) (D : RistLib Z' G') (RZ : Z → Z' → Prop) (RG : G → G' → Prop) : Prop where
  zero : RZ C.zero D.zero
  one : RZ C.one D.one
  ofU64 : ∀ n < 2 ^ 64, RZ (C.ofU64 n) (D.ofU64 n)
  toBytes : ∀ {z w}, RZ z w → C.toBytes z = D.toBytes w
  fromBytesModOrder : ∀ b, Option.Rel RZ (C.fromBytesModOrder b) (D.fromBytesModOrder b)
  fromBytesModOrderWide : ∀ b, Option.Rel RZ (C.fromBytesModOrderWide b) (D.fromBytesModOrderWide b)
  zrEqual : ∀ {z z' w w'}, RZ z w → RZ z' w' → C.zrEqual z z' = D.zrEqual w w'
  zrNeg : ∀ {z w}, RZ z w → Option.Rel RZ (C.zrNeg z) (D.zrNeg w)
  invert : ∀ {z w}, RZ z w → Option.Rel RZ (C.invert z) (D.invert w)
  toMontgomery : ∀ {z w}, RZ z w → Option.Rel RZ (C.toMontgomery z) (D.toMontgomery w)
  fromMontgomery : ∀ {z w}, RZ z w → Option.Rel RZ (C.fromMontgomery z) (D.fromMontgomery w)
  add : ∀ {z z' w w'}, RZ z w → RZ z' w' → Option.Rel RZ (C.add z z') (D.add w w')
  sub : ∀ {z z' w w'}, RZ z w → RZ z' w' → Option.Rel RZ (C.sub z z') (D.sub w w')
  zrMul : ∀ {z z' w w'}, RZ z w → RZ z' w' → Option.Rel RZ (C.zrMul z z') (D.zrMul w w')
  identity : RG C.identity D.identity
  fromUniformBytes : ∀ b, Option.Rel RG (C.fromUniformBytes b) (D.fromUniformBytes b)
  equal : ∀ {g g' h h'}, RG g h → RG g' h' → C.equal g g' = D.equal h h'
  neg : ∀ {g h}, RG g h → Option.Rel RG (C.neg g) (D.neg h)
  plus : ∀ {g g' h h'}, RG g h → RG g' h' → Option.Rel RG (C.plus g g') (D.plus h h')
  minus : ∀ {g g' h h'}, RG g h → RG g' h' → Option.Rel RG (C.minus g g') (D.minus h h')
  mul : ∀ {g h z w}, RG g h → RZ z w → Option.Rel RG (C.mul g z) (D.mul h w)
  vartimeMultiscalarMul : ∀ {zs ws gs hs}, List.Forall₂ RZ zs ws → List.Forall₂ RG gs hs →
    Option.Rel RG (C.vartimeMultiscalarMul zs gs) (D.vartimeMultiscalarMul ws hs)
  compress : ∀ {g h}, RG g h → C.compress g = D.compress h
  decompress : ∀ b, Option.Rel (Option.Rel RG) (C.decompress b) (D.decompress b)
  doubleAndCompressBatch : ∀ {gs hs}, List.Forall₂ RG gs hs → C.doubleAndCompressBatch gs = D.doubleAndCompressBatch hs

/-- Two objects with the same level, and tables in step. -/
structure ObjRel {G G' : Type} (RG : G → G' → Prop) (o : PpObj G) (p : PpObj G') : Prop where
  elem : RG o.elem p.elem
  pp : List.Forall₂ RG o.pp p.pp
  pplevel : o.pplevel = p.pplevel

structure StateRel {Z Z' G G' : Type} (RZ : Z → Z' → Prop) (RG : G → G' → Prop) (s : RistState Z G) (t : RistState Z' G') :
    Prop where
  zrs : List.Forall₂ RZ s.zrs t.zrs
  gs : List.Forall₂ (ObjRel RG) s.gs t.gs

/-- The states in step, and the same reply. -/
def AnswerRel {Z Z' G G' ρ : Type} (RZ : Z → Z' → Prop) (RG : G → G' → Prop) (a : RistState Z G × ρ) (b : RistState Z' G' × ρ) :
    Prop := StateRel RZ RG a.1 b.1 ∧ a.2 = b.2

section

variable {Z Z' G G' : Type} {C : RistLib Z G} {D : RistLib Z' G'} {RZ : Z → Z' → Prop} {RG : G → G' → Prop}

/-! ## The objects -/

theorem objRel_write {o : PpObj G} {p : PpObj G'} (h : ObjRel RG o p) {x : G} {y : G'} (hx : RG x y) :
    ObjRel RG (write x o) (write y p) := ⟨hx, h.pp, h.pplevel⟩

theorem objRel_new {x : G} {y : G'} (hx : RG x y) : ObjRel RG ⟨x, [], 0⟩ ⟨y, [], 0⟩ := ⟨hx, List.Forall₂.nil, rfl⟩

theorem objRel_assign {o : PpObj G} {p : PpObj G'} (h : ObjRel RG o p) {x : G} {y : G'} (hx : RG x y) :
    ObjRel RG (assign x o) (assign y p) := by
  unfold assign
  rw [h.pplevel]
  split
  · exact ⟨hx, List.Forall₂.nil, rfl⟩
  · exact objRel_write h hx

theorem baseOf_lt {l : Layout} {level : Nat} (h : ¬l.Panics level) : baseOf level < 2 ^ 64 :=
  Nat.pow_lt_pow_right (by decide) (Nat.lt_of_not_le (fun hle => h (Or.inr (Or.inl hle))))

theorem elems_rel {os : List (PpObj G)} {ps : List (PpObj G')} (h : List.Forall₂ (ObjRel RG) os ps) :
    List.Forall₂ RG (os.map PpObj.elem) (ps.map PpObj.elem) := by
  rw [List.forall₂_map_left_iff, List.forall₂_map_right_iff]
  exact h.imp (fun _ _ ho => ho.elem)

section

variable (hC : Sim C D RZ RG)

include hC

/-! ## The functions of the bindings -/

theorem bigintToPyscalar_rel (n : Int) : Option.Rel RZ (bigintToPyscalar C n) (bigintToPyscalar D n) := by
  refine Lockstep.bind Lockstep.refl (fun k _ hk => ?_)
  subst hk
  refine Lockstep.bind Lockstep.refl (fun b _ hb => ?_)
  subst hb
  exact hC.fromBytesModOrder b

theorem powAssign_rel {z : Z} {w : Z'} (h : RZ z w) (exp : Int) : Option.Rel RZ (powAssign C z exp) (powAssign D w exp) := by
  unfold powAssign toBigint
  rw [hC.toBytes h]
  exact bigintToPyscalar_rel hC _

theorem zrStr_eq {z : Z} {w : Z'} (h : RZ z w) : zrStr C z = zrStr D w := by
  unfold zrStr
  rw [hC.toBytes h]

theorem pushNext_rel {g : G} {h : G'} (hg : RG g h) {pp : List G} {qq : List G'} (hpp : List.Forall₂ RG pp qq) (i : Nat) :
    Option.Rel (List.Forall₂ RG) (pushNext C g pp i) (pushNext D h qq i) := by
  refine Lockstep.bind (Lockstep.getElem? hpp (i - 1)) (fun x y hxy => ?_)
  refine Lockstep.bind (hC.plus hxy hg) (fun x' y' hxy' => Lockstep.ret ?_)
  exact Lockstep.append_singleton hpp hxy'

theorem pushBlock_rel {z : Z} {w : Z'} (hz : RZ z w) (base : Nat) {pp : List G} {qq : List G'} (hpp : List.Forall₂ RG pp qq)
    (i : Nat) : Option.Rel (List.Forall₂ RG) (pushBlock C z base pp i) (pushBlock D w base qq i) := by
  refine Lockstep.bind (Lockstep.getElem? hpp _) (fun x y hxy => ?_)
  refine Lockstep.bind (hC.mul hxy hz) (fun x' y' hxy' => Lockstep.ret ?_)
  exact Lockstep.append_singleton hpp hxy'

theorem preprocess_rel {o : PpObj G} {p : PpObj G'} (h : ObjRel RG o p) (level : Nat) :
    Option.Rel (ObjRel RG) (preprocess C o level) (preprocess D p level) := by
  unfold preprocess
  by_cases hlevel : PyRistG.layout.Panics level
  · rw [if_pos hlevel, if_pos hlevel]
    exact Option.Rel.none
  · rw [if_neg hlevel, if_neg hlevel]
    have hfactor := hC.ofU64 _ (baseOf_lt hlevel)
    have hfirst : List.Forall₂ RG [o.elem] [p.elem] := List.Forall₂.cons h.elem List.Forall₂.nil
    have hnext := Lockstep.foldlM_same (fun _ _ i hpp => pushNext_rel hC h.elem hpp i)
      (List.range' 1 (baseOf level - 1 - 1)) hfirst
    refine Lockstep.bind hnext (fun pp qq hpp => ?_)
    have hblock := Lockstep.foldlM_same (fun _ _ i hpp => pushBlock_rel hC hfactor (baseOf level) hpp i)
      (List.range' (baseOf level - 1) (PyRistG.size level - (baseOf level - 1))) hpp
    exact Lockstep.bind hblock (fun _ _ hpp' => Lockstep.ret ⟨h.elem, hpp', rfl⟩)

theorem flush_rel {pp : List G} {qq : List G'} (hpp : List.Forall₂ RG pp qq) (due : Prop) [Decidable due] (level b buffer : Nat)
    {x : G} {y : G'} (hxy : RG x y) :
    Outcome RG (fun a c => RG a.1 c.1 ∧ a.2 = c.2) (flush C due pp level b buffer x) (flush D due qq level b buffer y) := by
  unfold flush
  split
  · have hentry : Option.Rel RG (entry pp level b buffer >>= C.plus x) (entry qq level b buffer >>= D.plus y) := by
      refine Lockstep.bind ?_ (fun _ _ h => hC.plus hxy h)
      unfold entry
      split
      · exact Option.Rel.none
      · exact Lockstep.getElem? hpp _
    generalize (entry pp level b buffer >>= C.plus x) = m at hentry
    generalize (entry qq level b buffer >>= D.plus y) = n at hentry
    cases hentry with
    | none   => exact Outcome.error hxy
    | some h => exact Outcome.ok ⟨h, rfl⟩
  · exact Outcome.ok ⟨hxy, rfl⟩

omit hC in
theorem pushBit_rel (c : Char) (level i buffer : Nat) {x : G} {y : G'} (hxy : RG x y) :
    Outcome RG (· = ·) (pushBit c level i buffer x) (pushBit c level i buffer y) := by
  unfold pushBit
  split
  · split
    · exact Outcome.error hxy
    · exact Outcome.ok rfl
  · exact Outcome.ok rfl

theorem scan_rel {pp : List G} {qq : List G'} (hpp : List.Forall₂ RG pp qq) (level : Nat) : ∀ (cs : List Char) (i buffer : Nat)
    {x : G} {y : G'}, RG x y → Outcome RG RG (scan C pp level cs i buffer x) (scan D qq level cs i buffer y)
  | [], i, buffer, x, y, hxy      => by
    unfold scan
    split
    · exact Outcome.error hxy
    · exact Outcome.ok hxy
  | c :: cs, i, buffer, x, y, hxy => by
    unfold scan
    split
    · exact Outcome.error hxy
    · refine Outcome.bind (flush_rel hC hpp _ level _ buffer hxy) (fun (x', n) (y', _) ⟨hxy', hn⟩ => ?_)
      subst hn
      refine Outcome.bind (pushBit_rel c level i n hxy') (fun m _ hm => ?_)
      subst hm
      refine Outcome.bind (flush_rel hC hpp _ level _ m hxy') (fun (x'', k) (y'', _) ⟨hxy'', hk⟩ => ?_)
      subst hk
      exact scan_rel hpp level cs (i + 1) k hxy''

theorem mulPlain_rel {g : G} {h : G'} (hg : RG g h) {z : Z} {w : Z'} (hz : RZ z w) :
    Outcome RG RG (mulPlain C g z) (mulPlain D h w) := by
  have hmul := hC.mul hg hz
  unfold mulPlain
  generalize C.mul g z = m at hmul
  generalize D.mul h w = n at hmul
  cases hmul with
  | none    => exact Outcome.error hg
  | some hr => exact Outcome.ok hr

theorem mulTable_rel {o : PpObj G} {p : PpObj G'} (h : ObjRel RG o p) {z : Z} {w : Z'} (hz : RZ z w) {x : G} {y : G'}
    (hxy : RG x y) : Outcome RG RG (mulTable C o z x) (mulTable D p w y) := by
  have hmul := hC.mul hxy hC.zero
  unfold mulTable
  rw [hC.toBytes hz, h.pplevel]
  generalize C.mul x C.zero = m at hmul
  generalize D.mul y D.zero = n at hmul
  cases hmul with
  | none    => exact Outcome.error hxy
  | some hr =>
    dsimp only
    cases hexToBin (hexEncode (D.toBytes w).toList.reverse) with
    | none        => exact Outcome.error hr
    | some binstr => exact scan_rel hC h.pp _ _ 0 0 hr

omit hC in
theorem setElem_rel {out : PpObj G} {out' : PpObj G'} (hout : ObjRel RG out out') {m : Except G G} {n : Except G' G'}
    (h : Outcome RG RG m n) : Outcome (ObjRel RG) (ObjRel RG) (setElem out m) (setElem out' n) := by
  cases h with
  | error h => exact Outcome.error (objRel_write hout h)
  | ok h    => exact Outcome.ok (objRel_write hout h)

/-- **A product writes the same into `out`**, also where it panics. -/
theorem ppmulInto_rel {o out : PpObj G} {p out' : PpObj G'} (h : ObjRel RG o p) {z : Z} {w : Z'} (hz : RZ z w)
    (hout : ObjRel RG out out') :
    Outcome (ObjRel RG) (ObjRel RG) (ppmulInto C o z out) (ppmulInto D p w out') := by
  unfold ppmulInto
  rw [h.pp.length_eq]
  refine setElem_rel hout ?_
  split
  · exact mulPlain_rel hC h.elem hz
  · exact mulTable_rel hC h hz hout.elem

theorem ppmul_rel {o out : PpObj G} {p out' : PpObj G'} (h : ObjRel RG o p) {z : Z} {w : Z'} (hz : RZ z w)
    (hout : ObjRel RG out out') : Option.Rel (ObjRel RG) (ppmul C o z out) (ppmul D p w out') :=
  (ppmulInto_rel hC h hz hout).toOption

theorem flatMap_zrStr : ∀ {zs : List Z} {ws : List Z'}, List.Forall₂ RZ zs ws → zs.flatMap (zrStr C) = ws.flatMap (zrStr D)
  | [], [], List.Forall₂.nil                    => rfl
  | _ :: _, _ :: _, List.Forall₂.cons h hr => by
    rw [List.flatMap_cons, List.flatMap_cons, zrStr_eq hC h, flatMap_zrStr hr]

theorem dotprod_rel {zs zs' : List Z} {ws ws' : List Z'} (h : List.Forall₂ RZ zs ws) (h' : List.Forall₂ RZ zs' ws') :
    Option.Rel RZ (dotprod C (zs.zip zs')) (dotprod D (ws.zip ws')) := by
  refine Lockstep.foldlM (R := fun a b => RZ a.1 b.1 ∧ RZ a.2 b.2) (fun x y a b hxy hab => ?_) (Lockstep.zip h h') hC.zero
  exact Lockstep.bind (hC.zrMul hab.1 hab.2) (fun _ _ hr => hC.add hxy hr)

end

/-! ## The calls -/

variable {s : RistState Z G} {t : RistState Z' G'} (h : StateRel RZ RG s t)

include h

theorem raise_rel : Option.Rel (AnswerRel RZ RG) (raise s) (raise t) := Option.Rel.some ⟨h, rfl⟩

theorem reply_rel {r r' : Reply} (hr : r = r') : Option.Rel (AnswerRel RZ RG) (reply s r) (reply t r') := Option.Rel.some ⟨h, hr⟩

theorem newZrs_rel {zs : List Z} {ws : List Z'} (hzs : List.Forall₂ RZ zs ws) :
    Option.Rel (AnswerRel RZ RG) (newZrs s zs) (newZrs t ws) :=
  Option.Rel.some ⟨⟨List.rel_append h.zrs hzs, h.gs⟩, rfl⟩

theorem newZr_rel {z : Z} {w : Z'} (hz : RZ z w) : Option.Rel (AnswerRel RZ RG) (newZr s z) (newZr t w) :=
  newZrs_rel h (List.Forall₂.cons hz List.Forall₂.nil)

theorem newGs_rel {gs : List G} {hs : List G'} (hgs : List.Forall₂ RG gs hs) :
    Option.Rel (AnswerRel RZ RG) (newGs s gs) (newGs t hs) := by
  have hnew : List.Forall₂ (ObjRel RG) (gs.map (⟨·, [], 0⟩)) (hs.map (⟨·, [], 0⟩)) := by
    rw [List.forall₂_map_left_iff, List.forall₂_map_right_iff]
    exact hgs.imp (fun _ _ hg => objRel_new hg)
  exact Option.Rel.some ⟨⟨h.zrs, List.rel_append h.gs hnew⟩, rfl⟩

theorem newG_rel {x : G} {y : G'} (hx : RG x y) : Option.Rel (AnswerRel RZ RG) (newG s x) (newG t y) :=
  newGs_rel h (List.Forall₂.cons hx List.Forall₂.nil)

theorem setZr_rel (self : Nat) {z : Z} {w : Z'} (hz : RZ z w) : Option.Rel (AnswerRel RZ RG) (setZr s self z) (setZr t self w) :=
  Option.Rel.some ⟨⟨Lockstep.set hz h.zrs self, h.gs⟩, rfl⟩

theorem setObj_rel (self : Nat) {o : PpObj G} {p : PpObj G'} (ho : ObjRel RG o p) :
    Option.Rel (AnswerRel RZ RG) (setObj s self o) (setObj t self p) :=
  Option.Rel.some ⟨⟨h.zrs, Lockstep.set ho h.gs self⟩, rfl⟩

theorem withZr_rel (i : Nat) {f : Z → Option (RistState Z G × Reply)} {g : Z' → Option (RistState Z' G' × Reply)}
    (hf : ∀ z w, RZ z w → Option.Rel (AnswerRel RZ RG) (f z) (g w)) :
    Option.Rel (AnswerRel RZ RG) (withZr s i f) (withZr t i g) := by
  have hi := Lockstep.getElem? h.zrs i
  unfold withZr
  generalize s.zrs[i]? = a at hi
  generalize t.zrs[i]? = b at hi
  cases hi with
  | none    => exact raise_rel h
  | some hz => exact hf _ _ hz

theorem withG_rel (i : Nat) {f : PpObj G → Option (RistState Z G × Reply)} {g : PpObj G' → Option (RistState Z' G' × Reply)}
    (hf : ∀ o p, ObjRel RG o p → Option.Rel (AnswerRel RZ RG) (f o) (g p)) :
    Option.Rel (AnswerRel RZ RG) (withG s i f) (withG t i g) := by
  have hi := Lockstep.getElem? h.gs i
  unfold withG
  generalize s.gs[i]? = a at hi
  generalize t.gs[i]? = b at hi
  cases hi with
  | none    => exact raise_rel h
  | some ho => exact hf _ _ ho

theorem withOtherZr_rel (self other : Nat) {f : Z → Option (RistState Z G × Reply)} {g : Z' → Option (RistState Z' G' × Reply)}
    (hf : ∀ z w, RZ z w → Option.Rel (AnswerRel RZ RG) (f z) (g w)) :
    Option.Rel (AnswerRel RZ RG) (withOtherZr s self other f) (withOtherZr t self other g) := by
  unfold withOtherZr
  split
  · exact raise_rel h
  · exact withZr_rel h other hf

theorem withOtherG_rel (self other : Nat) {f : PpObj G → Option (RistState Z G × Reply)}
    {g : PpObj G' → Option (RistState Z' G' × Reply)} (hf : ∀ o p, ObjRel RG o p → Option.Rel (AnswerRel RZ RG) (f o) (g p)) :
    Option.Rel (AnswerRel RZ RG) (withOtherG s self other f) (withOtherG t self other g) := by
  unfold withOtherG
  split
  · exact raise_rel h
  · exact withG_rel h other hf

theorem withZrs_rel (l : List Nat) {f : List Z → Option (RistState Z G × Reply)} {g : List Z' → Option (RistState Z' G' × Reply)}
    (hf : ∀ zs ws, List.Forall₂ RZ zs ws → Option.Rel (AnswerRel RZ RG) (f zs) (g ws)) :
    Option.Rel (AnswerRel RZ RG) (withZrs s l f) (withZrs t l g) := by
  have hl := Lockstep.mapM_same (Lockstep.getElem? h.zrs) l
  unfold withZrs
  generalize l.mapM (s.zrs[·]?) = a at hl
  generalize l.mapM (t.zrs[·]?) = b at hl
  cases hl with
  | none     => exact raise_rel h
  | some hzs => exact hf _ _ hzs

theorem withGs_rel (l : List Nat) {f : List (PpObj G) → Option (RistState Z G × Reply)}
    {g : List (PpObj G') → Option (RistState Z' G' × Reply)}
    (hf : ∀ os ps, List.Forall₂ (ObjRel RG) os ps → Option.Rel (AnswerRel RZ RG) (f os) (g ps)) :
    Option.Rel (AnswerRel RZ RG) (withGs s l f) (withGs t l g) := by
  have hl := Lockstep.mapM_same (Lockstep.getElem? h.gs) l
  unfold withGs
  generalize l.mapM (s.gs[·]?) = a at hl
  generalize l.mapM (t.gs[·]?) = b at hl
  cases hl with
  | none     => exact raise_rel h
  | some hos => exact hf _ _ hos

theorem withArg_rel (hC : Sim C D RZ RG) (any : ZrArg) {f : Z → Option (RistState Z G × Reply)}
    {g : Z' → Option (RistState Z' G' × Reply)} (hf : ∀ z w, RZ z w → Option.Rel (AnswerRel RZ RG) (f z) (g w)) :
    Option.Rel (AnswerRel RZ RG) (withArg C s any f) (withArg D t any g) := by
  cases any with
  | obj i   => exact withZr_rel h i hf
  | int n   => exact Lockstep.bind (bigintToPyscalar_rel hC n) hf
  | neither => exact raise_rel h

theorem withMany_rel {α β γ : Type} {R : β → γ → Prop} (size : Nat) {make : α → Option β} {make' : α → Option γ}
    (hmake : ∀ a, Option.Rel R (make a) (make' a)) (drawn : List α) {f : List β → Option (RistState Z G × Reply)}
    {g : List γ → Option (RistState Z' G' × Reply)}
    (hf : ∀ bs cs, List.Forall₂ R bs cs → Option.Rel (AnswerRel RZ RG) (f bs) (g cs)) :
    Option.Rel (AnswerRel RZ RG) (withMany s size make drawn f) (withMany t size make' drawn g) := by
  unfold withMany
  split
  · exact raise_rel h
  · split
    · exact Option.Rel.none
    · exact Lockstep.bind (Lockstep.mapM_same hmake drawn) hf

/-- **Every call keeps the states in step**, and gets the same reply. -/
theorem step_rel (hC : Sim C D RZ RG) (c : RistCall) : Option.Rel (AnswerRel RZ RG) (step C s c) (step D t c) := by
  cases c with
  | zrNew s1 =>
    cases s1 with
    | none    => exact newZr_rel h hC.one
    | some s1 =>
      cases s1 with
      | obj i   => exact withArg_rel h hC (.obj i) (fun _ _ hz => newZr_rel h hz)
      | int n   => exact withArg_rel h hC (.int n) (fun _ _ hz => newZr_rel h hz)
      | neither => exact Option.Rel.none
  | zrUniform bytes => exact Lockstep.bind (hC.fromBytesModOrderWide bytes) (fun _ _ hz => newZr_rel h hz)
  | zrHashMany drawn => exact withMany_rel h 32 hC.fromBytesModOrderWide drawn (fun _ _ hzs => newZrs_rel h hzs)
  | zrNegate self => exact withZr_rel h self (fun _ _ hz => Lockstep.bind (hC.zrNeg hz) (fun _ _ hr => setZr_rel h self hr))
  | zrInverse self => exact withZr_rel h self (fun _ _ hz => Lockstep.bind (hC.invert hz) (fun _ _ hr => setZr_rel h self hr))
  | zrAddAssign self other =>
    exact withZr_rel h self (fun _ _ hz => withOtherZr_rel h self other (fun _ _ hz' =>
      Lockstep.bind (hC.add hz hz') (fun _ _ hr => setZr_rel h self hr)))
  | zrSubAssign self other =>
    exact withZr_rel h self (fun _ _ hz => withOtherZr_rel h self other (fun _ _ hz' =>
      Lockstep.bind (hC.sub hz hz') (fun _ _ hr => setZr_rel h self hr)))
  | zrMulAssign self other =>
    exact withZr_rel h self (fun _ _ hz => withOtherZr_rel h self other (fun _ _ hz' =>
      Lockstep.bind (hC.zrMul hz hz') (fun _ _ hr => setZr_rel h self hr)))
  | zrPowAssign self exp =>
    refine withZr_rel h self (fun _ _ hz => ?_)
    cases exp with
    | none     => exact raise_rel h
    | some exp => exact Lockstep.bind (powAssign_rel hC hz exp) (fun _ _ hr => setZr_rel h self hr)
  | zrToMontgomery self =>
    exact withZr_rel h self (fun _ _ hz => Lockstep.bind (hC.toMontgomery hz) (fun _ _ hr => newZr_rel h hr))
  | zrFromMontgomery self =>
    exact withZr_rel h self (fun _ _ hz => Lockstep.bind (hC.fromMontgomery hz) (fun _ _ hr => newZr_rel h hr))
  | zrIsZero self => exact withZr_rel h self (fun _ _ hz => reply_rel h (congrArg Reply.bool (hC.zrEqual hz hC.zero)))
  | zrEquals self other =>
    exact withZr_rel h self (fun _ _ hz => withZr_rel h other (fun _ _ hz' =>
      reply_rel h (congrArg Reply.bool (hC.zrEqual hz hz'))))
  | zrCopy self other =>
    exact withZr_rel h self (fun _ _ _ => withOtherZr_rel h self other (fun _ _ hz' => setZr_rel h self hz'))
  | zrGetState self => exact withZr_rel h self (fun _ _ hz => reply_rel h (by rw [hC.toBytes hz]))
  | zrSetState self list =>
    refine withZr_rel h self (fun _ _ _ => ?_)
    cases tryInto32 list with
    | none     => exact raise_rel h
    | some arr => exact Lockstep.bind (hC.fromBytesModOrder arr) (fun _ _ hr => setZr_rel h self hr)
  | zrAdd lhs rhs =>
    exact withZr_rel h lhs (fun _ _ hz => withArg_rel h hC rhs (fun _ _ hz' =>
      Lockstep.bind (hC.add hz' hz) (fun _ _ hr => newZr_rel h hr)))
  | zrTruediv lhs rhs =>
    exact withZr_rel h lhs (fun _ _ hz => withArg_rel h hC rhs (fun _ _ hz' =>
      Lockstep.bind (hC.invert hz') (fun _ _ hi => Lockstep.bind (hC.zrMul hi hz) (fun _ _ hr => newZr_rel h hr))))
  | zrMul lhs rhs =>
    exact withZr_rel h lhs (fun _ _ hz => withArg_rel h hC rhs (fun _ _ hz' =>
      Lockstep.bind (hC.zrMul hz' hz) (fun _ _ hr => newZr_rel h hr)))
  | zrNeg self => exact withZr_rel h self (fun _ _ hz => Lockstep.bind (hC.zrNeg hz) (fun _ _ hr => newZr_rel h hr))
  | zrInt self => exact withZr_rel h self (fun _ _ hz => reply_rel h (by unfold toBigint; rw [hC.toBytes hz]))
  | zrPow lhs exp =>
    refine withZr_rel h lhs (fun _ _ hz => ?_)
    cases exp with
    | none     => exact newZr_rel h hz
    | some exp => exact Lockstep.bind (powAssign_rel hC hz exp) (fun _ _ hr => newZr_rel h hr)
  | zrSub lhs rhs =>
    exact withZr_rel h lhs (fun _ _ hz => withArg_rel h hC rhs (fun _ _ hz' =>
      Lockstep.bind (hC.sub hz hz') (fun _ _ hr => newZr_rel h hr)))
  | zrEq self other =>
    cases other with
    | obj i   =>
      exact withZr_rel h self (fun _ _ hz => withArg_rel h hC (.obj i) (fun _ _ hz' =>
        reply_rel h (congrArg Reply.bool (hC.zrEqual hz hz'))))
    | int n   =>
      exact withZr_rel h self (fun _ _ hz => withArg_rel h hC (.int n) (fun _ _ hz' =>
        reply_rel h (congrArg Reply.bool (hC.zrEqual hz hz'))))
    | neither => exact withZr_rel h self (fun _ _ _ => reply_rel h rfl)
  | zrStr self => exact withZr_rel h self (fun _ _ hz => reply_rel h (congrArg Reply.text (zrStr_eq hC hz)))
  | gNew => exact newG_rel h hC.identity
  | gUniform bytes => exact Lockstep.bind (hC.fromUniformBytes bytes) (fun _ _ hg => newG_rel h hg)
  | gHashMany drawn => exact withMany_rel h 192 hC.fromUniformBytes drawn (fun _ _ hgs => newGs_rel h hgs)
  | gRand a bytes =>
    dsimp only [step]
    split
    · exact Option.Rel.none
    · exact Lockstep.bind (hC.fromUniformBytes bytes) (fun _ _ hg => newG_rel h hg)
  | gOne self => exact withG_rel h self (fun _ _ ho => setObj_rel h self (objRel_assign ho hC.identity))
  | gNegate self =>
    exact withG_rel h self (fun _ _ ho => Lockstep.bind (hC.neg ho.elem) (fun _ _ hr => setObj_rel h self (objRel_assign ho hr)))
  | gAddAssign self other =>
    exact withG_rel h self (fun _ _ ho => withOtherG_rel h self other (fun _ _ ho' =>
      Lockstep.bind (hC.plus ho.elem ho'.elem) (fun _ _ hr => setObj_rel h self (objRel_assign ho hr))))
  | gSubAssign self other =>
    exact withG_rel h self (fun _ _ ho => withOtherG_rel h self other (fun _ _ ho' =>
      Lockstep.bind (hC.minus ho.elem ho'.elem) (fun _ _ hr => setObj_rel h self (objRel_assign ho hr))))
  | gMulAssign self other =>
    exact withG_rel h self (fun _ _ ho => withZr_rel h other (fun _ _ hz =>
      Lockstep.bind (hC.mul ho.elem hz) (fun _ _ hr => setObj_rel h self (objRel_assign ho hr))))
  | gEquals self other =>
    refine withG_rel h self (fun _ _ ho => withG_rel h other (fun _ _ ho' => ?_))
    rw [hC.equal ho.elem ho'.elem]
    exact Lockstep.bind Lockstep.refl (fun _ _ hb => reply_rel h (congrArg Reply.bool hb))
  | gCopy self other =>
    exact withG_rel h self (fun _ _ ho => withOtherG_rel h self other (fun _ _ ho' =>
      setObj_rel h self (objRel_assign ho ho'.elem)))
  | gGetState self =>
    refine withG_rel h self (fun _ _ ho => ?_)
    rw [hC.compress ho.elem]
    exact Lockstep.bind Lockstep.refl (fun _ _ hb => reply_rel h (by rw [hb]))
  | gSetState self list =>
    refine withG_rel h self (fun _ _ ho => ?_)
    cases tryInto32 list with
    | none     => exact raise_rel h
    | some arr =>
      refine Lockstep.bind (hC.decompress arr) (fun a b hab => ?_)
      cases hab with
      | none    => exact raise_rel h
      | some hg => exact setObj_rel h self (objRel_write ho hg)
  | gPreprocess self level =>
    refine withG_rel h self (fun _ _ ho => ?_)
    split
    · exact raise_rel h
    · exact Lockstep.bind (preprocess_rel hC ho level) (fun _ _ hr => setObj_rel h self hr)
  | gPpmul self prodend out =>
    exact withG_rel h self (fun _ _ ho => withZr_rel h prodend (fun _ _ hz => withOtherG_rel h self out (fun _ _ ho' =>
      Lockstep.bind (ppmul_rel hC ho hz ho') (fun _ _ hr => setObj_rel h out hr))))
  | gGetPplevel self => exact withG_rel h self (fun _ _ ho => reply_rel h (congrArg Reply.int ho.pplevel))
  | gPow self rhs =>
    exact withG_rel h self (fun _ _ ho => withArg_rel h hC rhs (fun _ _ hz =>
      Lockstep.bind (ppmul_rel hC ho hz (objRel_new hC.identity)) (fun _ _ hr => newG_rel h hr.elem)))
  | gMul lhs rhs =>
    exact withG_rel h lhs (fun _ _ ho => withG_rel h rhs (fun _ _ ho' =>
      Lockstep.bind (hC.plus ho.elem ho'.elem) (fun _ _ hr => newG_rel h hr)))
  | gImul self other =>
    exact withG_rel h self (fun _ _ ho => withOtherG_rel h self other (fun _ _ ho' =>
      Lockstep.bind (hC.plus ho.elem ho'.elem) (fun _ _ hr => setObj_rel h self (objRel_assign ho hr))))
  | gTruediv lhs rhs =>
    exact withG_rel h lhs (fun _ _ ho => withG_rel h rhs (fun _ _ ho' =>
      Lockstep.bind (hC.neg ho'.elem) (fun _ _ hn => Lockstep.bind (hC.plus ho.elem hn) (fun _ _ hr => newG_rel h hr))))
  | gEq self other =>
    refine withG_rel h self (fun _ _ ho => withG_rel h other (fun _ _ ho' => ?_))
    rw [hC.equal ho.elem ho'.elem]
    exact Lockstep.bind Lockstep.refl (fun _ _ hb => reply_rel h (congrArg Reply.bool hb))
  | gStr self =>
    refine withG_rel h self (fun _ _ ho => ?_)
    rw [hC.compress ho.elem]
    exact Lockstep.bind Lockstep.refl (fun _ _ hb => reply_rel h (by rw [hb]))
  | hashcurve25519zrs a =>
    refine withZrs_rel h a (fun zs ws hzs => reply_rel h ?_)
    rw [flatMap_zrStr hC hzs]
  | hashcurve25519gs a =>
    refine withGs_rel h a (fun os ps hos => ?_)
    have hall : Option.Rel (List.Forall₂ (· = ·)) (os.mapM fun o => C.compress o.elem) (ps.mapM fun p => D.compress p.elem) := by
      refine Lockstep.mapM (fun o p ho => ?_) hos
      rw [hC.compress ho.elem]
      exact Lockstep.refl
    refine Lockstep.bind hall (fun _ _ hb => reply_rel h ?_)
    rw [List.forall₂_eq_eq_eq] at hb
    rw [hb]
  | hashcurve25519gsbn a =>
    refine withGs_rel h a (fun os ps hos => ?_)
    rw [hC.doubleAndCompressBatch (elems_rel hos)]
    exact Lockstep.bind Lockstep.refl (fun _ _ hb => reply_rel h (by rw [hb]))
  | curve25519dotprod a b =>
    exact withZrs_rel h _ (fun _ _ hzs => withZrs_rel h _ (fun _ _ hws =>
      Lockstep.bind (dotprod_rel hC hzs hws) (fun _ _ hr => newZr_rel h hr)))
  | curve25519multiexp gs zrs =>
    exact withGs_rel h _ (fun _ _ hos => withZrs_rel h _ (fun _ _ hzs =>
      Lockstep.bind (hC.vartimeMultiscalarMul hzs (elems_rel hos)) (fun _ _ hr => newG_rel h hr)))

omit h in
theorem written_rel {α β : Type} {R : α → β → Prop} {m : Except α α} {n : Except β β} (hmn : Outcome R R m n) :
    R (written m) (written n) := by
  cases hmn with
  | error h => exact h
  | ok h    => exact h

/-- A panic leaves them in step. -/
theorem panicked_rel (hC : Sim C D RZ RG) (c : RistCall) : StateRel RZ RG (panicked C s c) (panicked D t c) := by
  cases c with
  | gPreprocess self level   =>
    refine ⟨h.zrs, Lockstep.modify (fun _ _ ho => ?_) h.gs self⟩
    exact ⟨ho.elem, ho.pp, rfl⟩
  | gPpmul self prodend out =>
    have hself := Lockstep.getElem? h.gs self
    have hz := Lockstep.getElem? h.zrs prodend
    have hout := Lockstep.getElem? h.gs out
    dsimp only [panicked]
    generalize s.gs[self]? = o at hself
    generalize t.gs[self]? = p at hself
    generalize s.zrs[prodend]? = z at hz
    generalize t.zrs[prodend]? = w at hz
    generalize s.gs[out]? = o' at hout
    generalize t.gs[out]? = p' at hout
    cases hself with
    | none    => exact h
    | some ho =>
      cases hz with
      | none    => exact h
      | some hz =>
        cases hout with
        | none     => exact h
        | some ho' => exact ⟨h.zrs, Lockstep.set (written_rel (ppmulInto_rel hC ho hz ho')) h.gs out⟩
  | _ => exact h

theorem next_rel (hC : Sim C D RZ RG) (c : RistCall) : AnswerRel RZ RG (next C s c) (next D t c) := by
  have hstep := step_rel h hC c
  unfold next
  generalize step C s c = a at hstep
  generalize step D t c = b at hstep
  cases hstep with
  | none    => exact ⟨panicked_rel h hC c, rfl⟩
  | some hr => exact hr

omit h

/-- The last call. -/
theorem run_concat (C : RistLib Z G) (calls : List RistCall) (c : RistCall) :
    run C (calls ++ [c]) = ((next C (run C calls).1 c).1, (run C calls).2 ++ [(next C (run C calls).1 c).2]) :=
  List.foldl_concat ..

/-- **Every run**: the states stay in step, and the replies are the same. -/
theorem run_rel (hC : Sim C D RZ RG) (calls : List RistCall) : AnswerRel RZ RG (run C calls) (run D calls) := by
  induction calls using List.reverseRecOn with
  | nil => exact ⟨⟨List.Forall₂.nil, List.Forall₂.nil⟩, rfl⟩
  | append_singleton calls c ih =>
    obtain ⟨hst, hr⟩ := ih
    have hnext := next_rel hst hC c
    rw [run_concat, run_concat]
    refine ⟨hnext.1, ?_⟩
    dsimp only
    rw [hr, hnext.2]

end

end Rist
end Pairing
end Dpid
