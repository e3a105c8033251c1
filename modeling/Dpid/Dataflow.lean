import Dpid.Bytes
import Mathlib.Algebra.Field.Basic
import Mathlib.Tactic.FieldSimp
import Mathlib.Tactic.Ring
/-!
# Dataflow — shares and the mixins of their products (`progs/mixins/dataflow.py`, `progs/mixins/share_arithmetic.py`)

A share stands for the element its sharing hides, with the degree it is labelled by, and a future of a field element for
the element it resolves to: only its class can be seen before.  `openShare` is the context's `open_share`, from the
degree of a sharing, the degree it is read at and the element it hides to what comes back.
-/
namespace Dpid
namespace Dataflow

variable {F : Type*} [Field F]

/-! ## Field elements and their futures -/

/-- A `GFElement`, or a future of one: of the context's class (`own`), or a bare `GFElementFuture`. -/
inductive FieldVal (F : Type*) where
  | now (f : F)
  | later (own : Bool) (f : F)
deriving DecidableEq

namespace FieldVal

omit [Field F] in
def get : FieldVal F → F
  | now f     => f
  | later _ f => f

def add : FieldVal F → FieldVal F → FieldVal F
  | now a, now b => now (a + b)
  | a, b         => later false (a.get + b.get)

def sub : FieldVal F → FieldVal F → FieldVal F
  | now a, now b     => now (a - b)
  | now a, later _ b => later false (-b + a)
  | later _ a, b     => later false (a - b.get)

/-- `GFElementFuture` has no `__rmul__`. -/
def mul : FieldVal F → FieldVal F → Except Exn (FieldVal F)
  | now a, now b     => .ok (now (a * b))
  | now _, later _ _ => .error .typeError
  | later _ a, b     => .ok (later false (a * b.get))

/-- The product with a `GFElement` on the right. -/
def mulField : FieldVal F → F → FieldVal F
  | now a, f     => now (a * f)
  | later _ a, f => later false (a * f)

/-- `GFElementFuture` has no `__neg__`. -/
def neg : FieldVal F → Except Exn (FieldVal F)
  | now a     => .ok (now (-a))
  | later _ _ => .error .typeError

/-- A future turns the integer into an element of `self.context.field`: the bare class has no context. -/
def mulInt : FieldVal F → Int → Except Exn (FieldVal F)
  | now a, n         => .ok (now (a * n))
  | later true a, n  => .ok (later false (a * n))
  | later false _, _ => .error .typeError

omit [Field F] in
@[simp] theorem get_now (f : F) : (now f).get = f := rfl

@[simp] theorem get_add (a b : FieldVal F) : (a.add b).get = a.get + b.get := by cases a <;> cases b <;> rfl

@[simp] theorem get_sub (a b : FieldVal F) : (a.sub b).get = a.get - b.get := by
  cases a <;> cases b <;> simp [sub, get, neg_add_eq_sub]

@[simp] theorem get_mulField (a : FieldVal F) (f : F) : (a.mulField f).get = a.get * f := by cases a <;> rfl

end FieldVal

open FieldVal

/-! ## Shares -/

structure Share (F : Type*) where
  v : FieldVal F
  t : Nat
deriving DecidableEq

/-- The mixin that answers `MultiplyShare`. -/
inductive Multiply where
  | beaver
  | doubleSharing
deriving DecidableEq

structure Context where
  t : Nat
  multiply : Multiply

/-- What a text that goes on in the next line of the source keeps of its indentation. -/
def blanks : String := "                     "

namespace Share

def add (x y : Share F) : Except Exn (Share F) :=
  if x.t ≠ y.t then
    .error (.valueError s!"Shares can't be added to other shares with differing t{blanks}values ({x.t} {y.t})")
  else .ok ⟨x.v.add y.v, x.t⟩

def addField (x : Share F) (f : F) : Share F := ⟨x.v.add (now f), x.t⟩

/-- The degree stays outside the call of `Share`: a pair of a share of the context's degree and a number. -/
def neg (ctx : Context) (x : Share F) : Except Exn (Share F × Nat) := do
  let v ← x.v.neg
  return (⟨v, ctx.t⟩, x.t)

def sub (x y : Share F) : Except Exn (Share F) :=
  if x.t ≠ y.t then .error (.valueError s!"Shares must have same t value to subtract:{blanks}({x.t} {y.t})")
  else .ok ⟨x.v.sub y.v, x.t⟩

def subField (x : Share F) (f : F) : Share F := ⟨x.v.sub (now f), x.t⟩

def rsub (x : Share F) (f : F) : Except Exn (Share F) := do
  let v ← x.v.neg
  return ⟨v.add (now f), x.t⟩

def mulField (x : Share F) (f : F) : Share F := ⟨x.v.mulField f, x.t⟩

def mulInt (x : Share F) (n : Int) : Except Exn (Share F) := do
  let v ← x.v.mulInt n
  return ⟨v, x.t⟩

omit [Field F] in
/-- `__mul__` up to the mixin's `call`. -/
def mulChecked {α : Type*} (x y : Share F) (call : Except Exn α) : Except Exn α :=
  if x.t ≠ y.t then
    .error (.valueError s!"Shares with differing t values cannot be multiplied{blanks}({x.t} {y.t})")
  else call

omit [Field F] in
/-- `__div__` up to the mixin's `call`. -/
def divChecked {α : Type*} (x y : Share F) (call : Except Exn α) : Except Exn α :=
  if x.t ≠ y.t then .error (.valueError s!"Cannot divide shares with differing t values ({x.t} {y.t})")
  else call

/-- The degree `open()` reads at: a share whose value is a future is built anew, with the context's. -/
def openDegree (ctx : Context) (x : Share F) : Nat :=
  match x.v with
  | now _     => x.t
  | later _ _ => ctx.t

variable (openShare : Nat → Nat → F → Except Exn F)

/-- `open()` where the sharing has degree `degree`. -/
def openAs (ctx : Context) (degree : Nat) (x : Share F) : Except Exn F := openShare degree (x.openDegree ctx) x.v.get

/-- `open()`. -/
def opening (ctx : Context) (x : Share F) : Except Exn F := x.openAs openShare ctx x.t

end Share

/-! ## The mixins -/

/-- What a product takes from the preprocessing: a triple, or an element shared twice. -/
structure Draw (F : Type*) where
  a : F
  b : F
  ab : F
  rT : F
  r2T : F

/-- The preprocessing is correct. -/
def Draw.Ok (p : Draw F) : Prop := p.ab = p.a * p.b ∧ p.r2T = p.rT

variable (openShare : Nat → Nat → F → Except Exn F) (ctx : Context)

/-- `BeaverMultiply`. -/
def beaverMultiply (p : Draw F) (x y : Share F) : Except Exn (Share F) := do
  let a : Share F := ⟨now p.a, ctx.t⟩
  let b : Share F := ⟨now p.b, ctx.t⟩
  let ab : Share F := ⟨now p.ab, ctx.t⟩
  let d ← (← x.sub a).opening openShare ctx
  let e ← (← y.sub b).opening openShare ctx
  let linear ← ((b.mulField d).addField (d * e)).add (a.mulField e)
  linear.add ab

/-- `reduce_degree_share(context, x_2t)`, of a sharing of degree `degree`. -/
def reduceDegreeShare (p : Draw F) (degree : Nat) (x2t : Share F) : Except Exn (Share F) :=
  if x2t.t ≠ ctx.t * 2 then .error .assertionError
  else do
    let rT : Share F := ⟨now p.rT, ctx.t⟩
    let r2T : Share F := ⟨now p.r2T, ctx.t * 2⟩
    let diff ← (← x2t.sub r2T).openAs openShare ctx degree
    return rT.addField diff

/-- `DoubleSharingMultiply`.  The products of the values lie on the product of the sharings' polynomials, whatever the
label says. -/
def doubleSharingMultiply (p : Draw F) (x y : Share F) : Except Exn (Share F) := do
  let v ← x.v.mul y.v
  reduceDegreeShare openShare ctx p (max (x.t + y.t) (ctx.t * 2)) ⟨v, ctx.t * 2⟩

def multiplyShare (p : Draw F) (x y : Share F) : Except Exn (Share F) :=
  match ctx.multiply with
  | .beaver        => beaverMultiply openShare ctx p x y
  | .doubleSharing => doubleSharingMultiply openShare ctx p x y

/-- `await (x * y)`. -/
def awaitMul (p : Draw F) (x y : Share F) : Except Exn (Share F) :=
  x.mulChecked y (multiplyShare openShare ctx p x y)

/-- `InvertShare`, with the mask `r`. -/
def invertShare [DecidableEq F] (r : F) (p : Draw F) (x : Share F) : Except Exn (Share F) := do
  let r : Share F := ⟨now r, ctx.t⟩
  let sig ← (← awaitMul openShare ctx p x r).opening openShare ctx
  if sig = 0 then .error .zeroDivisionError else return r.mulField (1 / sig)

/-- `DivideShares`. -/
def divideShare [DecidableEq F] (r : F) (p q : Draw F) (x y : Share F) : Except Exn (Share F) := do
  let yInv ← invertShare openShare ctx r p y
  awaitMul openShare ctx q x yInv

/-! ## What the mixins give -/

/-- What can be seen of a value: resolved, or a future of the context's class or of the bare one. -/
inductive Form where
  | now
  | own
  | bare
deriving DecidableEq

def FieldVal.form : FieldVal F → Form
  | .now _         => .now
  | .later true _  => .own
  | .later false _ => .bare

/-- The values the multiplication of a context can take.  Double sharing multiplies the values themselves, and a product
that is a future is opened at the degree of the context instead of twice that. -/
def Context.Takes (ctx : Context) (p q : Form) : Prop :=
  match ctx.multiply with
  | .beaver        => True
  | .doubleSharing => p = .now ∧ q = .now ∨ p ≠ .now ∧ ctx.t = 0

instance (ctx : Context) (p q : Form) : Decidable (ctx.Takes p q) :=
  match ctx with
  | ⟨_, .beaver⟩        => inferInstanceAs (Decidable True)
  | ⟨t, .doubleSharing⟩ => inferInstanceAs (Decidable (p = .now ∧ q = .now ∨ p ≠ .now ∧ t = 0))

/-- A sharing read at its degree or above gives the element it hides. -/
def Reads (openShare : Nat → Nat → F → Except Exn F) : Prop :=
  ∀ degree d f, degree ≤ d → openShare degree d f = .ok f

/-- A sharing read below its degree gives nothing. -/
def Refuses (openShare : Nat → Nat → F → Except Exn F) : Prop :=
  ∀ degree d f, d < degree → ∃ e, openShare degree d f = .error e

namespace Share

theorem add_eq {x y : Share F} (h : x.t = y.t) : x.add y = .ok ⟨x.v.add y.v, x.t⟩ := if_neg (not_not.2 h)

theorem sub_eq {x y : Share F} (h : x.t = y.t) : x.sub y = .ok ⟨x.v.sub y.v, x.t⟩ := if_neg (not_not.2 h)

theorem t_of_add {x y s : Share F} (h : x.add y = .ok s) : s.t = x.t := by
  rw [add] at h
  split at h
  · cases h
  · cases h
    rfl

theorem t_of_sub {x y s : Share F} (h : x.sub y = .ok s) : s.t = x.t := by
  rw [sub] at h
  split at h
  · cases h
  · cases h
    rfl

theorem t_of_mulInt {x s : Share F} {n : Int} (h : x.mulInt n = .ok s) : s.t = x.t := by
  obtain ⟨v, -, h⟩ := bind_eq_ok.1 h
  cases h
  rfl

variable {openShare : Nat → Nat → F → Except Exn F} {ctx : Context}

omit [Field F] in
theorem openDegree_eq {x : Share F} (h : x.t = ctx.t) : x.openDegree ctx = ctx.t := by
  rw [openDegree]
  split
  · exact h
  · rfl

omit [Field F] in
/-- A share of the context's degree opens, resolved or not. -/
theorem opening_eq (hreads : Reads openShare) {x : Share F} (h : x.t = ctx.t) :
    x.opening openShare ctx = .ok x.v.get := by
  rw [opening, openAs, openDegree_eq h, h]
  exact hreads _ _ _ le_rfl

end Share

section Products

variable {openShare : Nat → Nat → F → Except Exn F} {ctx : Context} {p : Draw F} {x y : Share F}

theorem beaverMultiply_eq (hreads : Reads openShare) (hp : p.Ok) (hx : x.t = ctx.t) (hy : y.t = ctx.t) :
    beaverMultiply openShare ctx p x y = .ok ⟨now (x.v.get * y.v.get), ctx.t⟩ := by
  have hopen (v : FieldVal F) (f : F) :
      (⟨v.sub (now f), ctx.t⟩ : Share F).opening openShare ctx = .ok (v.get - f) := by
    rw [Share.opening_eq hreads rfl, get_sub, get_now]
  obtain ⟨v, t⟩ := x
  obtain ⟨w, t'⟩ := y
  obtain rfl : t = ctx.t := hx
  obtain rfl : t' = ctx.t := hy
  simp only [beaverMultiply, Share.sub_eq, hopen, bind, Except.bind, Share.mulField, Share.addField, FieldVal.mulField,
    FieldVal.add, Share.add_eq, hp.1]
  congr 3
  ring

/-- What is read at the degree of the sharing or above is reduced. -/
theorem reduceDegreeShare_eq (hreads : Reads openShare) (hp : p.Ok) {degree : Nat} {v : FieldVal F}
    (h : degree ≤ (⟨v, ctx.t * 2⟩ : Share F).openDegree ctx) :
    reduceDegreeShare openShare ctx p degree ⟨v, ctx.t * 2⟩ = .ok ⟨now v.get, ctx.t⟩ := by
  have hopen : (⟨v.sub (now p.rT), ctx.t * 2⟩ : Share F).openAs openShare ctx degree = .ok (v.get - p.rT) := by
    have hdeg : (⟨v.sub (now p.rT), ctx.t * 2⟩ : Share F).openDegree ctx =
        (⟨v, ctx.t * 2⟩ : Share F).openDegree ctx := by cases v <;> rfl
    rw [Share.openAs, hdeg, hreads _ _ _ h, get_sub, get_now]
  simp only [reduceDegreeShare, Share.sub_eq, hopen, bind, Except.bind, pure, Except.pure, Share.addField, FieldVal.add,
    hp.2, ne_eq, not_true, if_false, add_sub_cancel]

theorem doubleSharingMultiply_eq (hreads : Reads openShare) (hp : p.Ok) (hx : x.t = ctx.t) (hy : y.t = ctx.t)
    (h : x.v.form = .now ∧ y.v.form = .now ∨ x.v.form ≠ .now ∧ ctx.t = 0) :
    doubleSharingMultiply openShare ctx p x y = .ok ⟨now (x.v.get * y.v.get), ctx.t⟩ := by
  have hdegree : max (x.t + y.t) (ctx.t * 2) = ctx.t * 2 := by omega
  obtain ⟨v, t⟩ := x
  obtain ⟨w, t'⟩ := y
  rw [doubleSharingMultiply, hdegree]
  cases v with
  | now f =>
    cases w with
    | now g => exact reduceDegreeShare_eq hreads hp le_rfl
    | later own g =>
      rcases h with ⟨-, hw⟩ | ⟨hv, -⟩
      · cases own <;> cases hw
      · exact absurd rfl hv
  | later own f =>
    rcases h with ⟨hv, -⟩ | ⟨-, ht⟩
    · cases own <;> cases hv
    · refine reduceDegreeShare_eq hreads hp ?_
      have hread : (⟨.later false (f * w.get), ctx.t * 2⟩ : Share F).openDegree ctx = ctx.t := rfl
      rw [hread, ht]

/-- **The product mixin**: shares of the context's degree that its multiplication takes give the product. -/
theorem multiplyShare_eq (hreads : Reads openShare) (hp : p.Ok) (hx : x.t = ctx.t) (hy : y.t = ctx.t)
    (h : ctx.Takes x.v.form y.v.form) :
    multiplyShare openShare ctx p x y = .ok ⟨now (x.v.get * y.v.get), ctx.t⟩ := by
  rw [multiplyShare]
  rw [Context.Takes] at h
  cases hm : ctx.multiply with
  | beaver => exact beaverMultiply_eq hreads hp hx hy
  | doubleSharing =>
    rw [hm] at h
    exact doubleSharingMultiply_eq hreads hp hx hy h

/-- A product is labelled with the degree of the context. -/
theorem t_of_multiplyShare {s : Share F} (h : multiplyShare openShare ctx p x y = .ok s) : s.t = ctx.t := by
  rw [multiplyShare] at h
  cases hm : ctx.multiply with
  | beaver =>
    rw [hm] at h
    obtain ⟨xa, -, h⟩ := bind_eq_ok.1 h
    obtain ⟨d, -, h⟩ := bind_eq_ok.1 h
    obtain ⟨yb, -, h⟩ := bind_eq_ok.1 h
    obtain ⟨e, -, h⟩ := bind_eq_ok.1 h
    obtain ⟨linear, hlinear, hs⟩ := bind_eq_ok.1 h
    exact (Share.t_of_add hs).trans (Share.t_of_add hlinear)
  | doubleSharing =>
    rw [hm] at h
    obtain ⟨v, -, h⟩ := bind_eq_ok.1 h
    rw [reduceDegreeShare] at h
    split at h
    · cases h
    · obtain ⟨masked, -, h⟩ := bind_eq_ok.1 h
      obtain ⟨diff, -, h⟩ := bind_eq_ok.1 h
      cases h
      rfl

/-- What the multiplication does not take raises, where reading below the degree does. -/
theorem multiplyShare_error (hrefuses : Refuses openShare) (hx : x.t = ctx.t) (hy : y.t = ctx.t)
    (h : ¬ ctx.Takes x.v.form y.v.form) : ∃ e, multiplyShare openShare ctx p x y = .error e := by
  rw [multiplyShare]
  rw [Context.Takes] at h
  cases hm : ctx.multiply with
  | beaver =>
    rw [hm] at h
    exact absurd trivial h
  | doubleSharing =>
    rw [hm] at h
    have hdegree : max (x.t + y.t) (ctx.t * 2) = ctx.t * 2 := by omega
    obtain ⟨v, t⟩ := x
    obtain ⟨w, t'⟩ := y
    simp only [doubleSharingMultiply, hdegree]
    cases v with
    | now f =>
      cases w with
      | now g => exact absurd (.inl ⟨rfl, rfl⟩) h
      | later own g => exact ⟨.typeError, rfl⟩
    | later own f =>
      have hne : (FieldVal.later own f).form ≠ .now := by cases own <;> nofun
      have hlt : ctx.t < ctx.t * 2 := by
        by_contra hle
        exact h (.inr ⟨hne, by omega⟩)
      obtain ⟨e, he⟩ := hrefuses (ctx.t * 2) ctx.t (f * w.get - p.r2T) hlt
      have hopen : (⟨.later false (f * w.get - p.r2T), ctx.t * 2⟩ : Share F).openAs openShare ctx (ctx.t * 2) =
          .error e := he
      refine ⟨e, ?_⟩
      simp only [FieldVal.mul, reduceDegreeShare, Share.sub_eq, FieldVal.sub, get_now, hopen, bind, Except.bind, ne_eq,
        not_true, if_false]

theorem awaitMul_eq (h : x.t = y.t) : awaitMul openShare ctx p x y = multiplyShare openShare ctx p x y :=
  if_neg (not_not.2 h)

theorem t_of_awaitMul {s : Share F} (h : awaitMul openShare ctx p x y = .ok s) : s.t = ctx.t := by
  rw [awaitMul, Share.mulChecked] at h
  split at h
  · cases h
  · exact t_of_multiplyShare h

end Products

section Quotients

variable [DecidableEq F] {openShare : Nat → Nat → F → Except Exn F} {ctx : Context} {r : F} {p q : Draw F}
variable {x y : Share F}

theorem invertShare_eq (hreads : Reads openShare) (hp : p.Ok) (hr : r ≠ 0) (hy : y.t = ctx.t)
    (h : ctx.Takes y.v.form .now) (h0 : y.v.get ≠ 0) :
    invertShare openShare ctx r p y = .ok ⟨now (y.v.get)⁻¹, ctx.t⟩ := by
  have hprod : awaitMul openShare ctx p y ⟨now r, ctx.t⟩ = .ok ⟨now (y.v.get * r), ctx.t⟩ := by
    exact (awaitMul_eq hy).trans (multiplyShare_eq hreads hp hy rfl h)
  have hopen : (⟨now (y.v.get * r), ctx.t⟩ : Share F).opening openShare ctx = .ok (y.v.get * r) := by
    rw [Share.opening_eq hreads rfl, get_now]
  have hsig : y.v.get * r ≠ 0 := mul_ne_zero h0 hr
  have hinv : r * (1 / (y.v.get * r)) = (y.v.get)⁻¹ := by field_simp
  simp only [invertShare, hprod, hopen, bind, Except.bind, if_neg hsig, Share.mulField, FieldVal.mulField, hinv, pure,
    Except.pure]

/-- Without a product to open, or with a zero to invert, there is no inverse. -/
theorem invertShare_error (hreads : Reads openShare) (hrefuses : Refuses openShare) (hp : p.Ok) (hy : y.t = ctx.t)
    (h : ctx.Takes y.v.form .now → y.v.get = 0) : ∃ e, invertShare openShare ctx r p y = .error e := by
  by_cases htakes : ctx.Takes y.v.form .now
  · have hprod : awaitMul openShare ctx p y ⟨now r, ctx.t⟩ = .ok ⟨now 0, ctx.t⟩ := by
      rw [awaitMul_eq hy, multiplyShare_eq (y := ⟨now r, ctx.t⟩) hreads hp hy rfl htakes, h htakes, zero_mul]
    have hopen : (⟨now 0, ctx.t⟩ : Share F).opening openShare ctx = .ok 0 := by
      rw [Share.opening_eq hreads rfl, get_now]
    refine ⟨.zeroDivisionError, ?_⟩
    simp only [invertShare, hprod, hopen, bind, Except.bind, if_true]
  · obtain ⟨e, he⟩ := multiplyShare_error (p := p) (x := y) (y := ⟨now r, ctx.t⟩) hrefuses hy rfl htakes
    refine ⟨e, ?_⟩
    have hprod : awaitMul openShare ctx p y ⟨now r, ctx.t⟩ = .error e := (awaitMul_eq hy).trans he
    rw [invertShare]
    simp only [hprod, bind, Except.bind]

/-- **The quotient mixin**: what its two products take, with a nonzero divisor, gives the share of the quotient. -/
theorem divideShare_eq (hreads : Reads openShare) (hp : p.Ok) (hq : q.Ok) (hr : r ≠ 0) (hx : x.t = ctx.t)
    (hy : y.t = ctx.t) (hxt : ctx.Takes x.v.form .now) (hyt : ctx.Takes y.v.form .now) (h0 : y.v.get ≠ 0) :
    divideShare openShare ctx r p q x y = .ok ⟨now (x.v.get / y.v.get), ctx.t⟩ := by
  rw [divideShare, invertShare_eq hreads hp hr hy hyt h0, div_eq_mul_inv]
  exact (awaitMul_eq hx).trans (multiplyShare_eq hreads hq hx rfl hxt)

theorem t_of_divideShare {s : Share F} (h : divideShare openShare ctx r p q x y = .ok s) : s.t = ctx.t := by
  obtain ⟨yInv, -, hs⟩ := bind_eq_ok.1 h
  exact t_of_awaitMul hs

theorem divideShare_error (hreads : Reads openShare) (hrefuses : Refuses openShare) (hp : p.Ok) (hr : r ≠ 0)
    (hx : x.t = ctx.t) (hy : y.t = ctx.t)
    (h : ctx.Takes x.v.form .now → ctx.Takes y.v.form .now → y.v.get = 0) :
    ∃ e, divideShare openShare ctx r p q x y = .error e := by
  by_cases hinv : ctx.Takes y.v.form .now ∧ y.v.get ≠ 0
  · have hxt : ¬ ctx.Takes x.v.form .now := fun hxt => hinv.2 (h hxt hinv.1)
    obtain ⟨e, he⟩ := multiplyShare_error (p := q) (x := x) (y := ⟨now (y.v.get)⁻¹, ctx.t⟩) hrefuses hx rfl hxt
    refine ⟨e, ?_⟩
    rw [divideShare, invertShare_eq hreads hp hr hy hinv.1 hinv.2]
    exact (awaitMul_eq hx).trans he
  · have hzero : ctx.Takes y.v.form .now → y.v.get = 0 := fun ht => by_contra fun h0 => hinv ⟨ht, h0⟩
    obtain ⟨e, he⟩ := invertShare_error (r := r) hreads hrefuses hp hy hzero
    refine ⟨e, ?_⟩
    rw [divideShare, he]
    rfl

end Quotients

end Dataflow
end Dpid
