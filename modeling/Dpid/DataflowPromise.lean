import Dpid.DataflowRun
/-!
# DataflowPromise — what the classes of operands promise (`progs/mixins/dataflow.py`)

The class of an operand and of its value decides what an operator does with it.  A promise is that class with the element
to come; every operator keeps it, raising exactly where none is made.
-/
namespace Dpid
namespace Dataflow

open FieldVal Val

/-! ## Classes -/

/-- The class of a sum. -/
def Form.add : Form → Form → Form
  | .now, .now => .now
  | _, _       => .bare

/-- The class of an operand, with the class of the share's value: of the one at hand or of the one a future gives. -/
inductive Kind where
  | field
  | share (p : Form)
  | future (p : Form)
deriving DecidableEq

namespace Kind

def isFuture : Kind → Bool
  | future _ => true
  | _        => false

def settled : Kind → Kind
  | future p => share p
  | k        => k

/-- A future of it, which no field element has here. -/
def pending : Kind → Option Kind
  | field    => none
  | share p  => some (future p)
  | future p => some (future p)

/-- Operands that are no futures, with shares of degree `t`.  A pending value has no minus; a product or a quotient is
of the context's degree, and takes what the mixin does. -/
def ofSettled (ctx : Context) (t : Nat) : Op → Kind → Kind → Option Kind
  | _, field, field       => some field
  | .div, share _, field  => none
  | _, share p, field     => some (share (p.add .now))
  | .add, field, share p  => some (share (p.add .now))
  | .sub, field, share p  => if p = .now then some (share .now) else none
  | .mul, field, share p  => some (share (p.add .now))
  | .add, share p, share q => some (share (p.add q))
  | .sub, share p, share q => some (share (p.add q))
  | .mul, share p, share q => if ctx.t = t ∧ ctx.Takes p q then some (future .now) else none
  | .div, share p, share q =>
    if ctx.t = t ∧ ctx.Takes p .now ∧ ctx.Takes q .now then some (future .now) else none
  | _, _, _ => none

/-- Operands one of which is a future: the operator on what they come to. -/
def ofPending (ctx : Context) (t : Nat) (op : Op) (k l : Kind) : Option Kind :=
  (ofSettled ctx t op k.settled l.settled).bind pending

def bin (ctx : Context) (t : Nat) (op : Op) (k l : Kind) : Option Kind :=
  if k.isFuture then ofPending ctx t op k l
  else if l.isFuture then
    if op.reflects then ofPending ctx t op l k else ofPending ctx t op k l
  else ofSettled ctx t op k l

/-- No share has a minus that is a share, and a bare future no product by an integer. -/
def un : UnOp → Kind → Option Kind
  | .neg, field             => some field
  | .neg, _                 => none
  | .timesInt _, field      => some field
  | .timesInt _, share .now => some (share .now)
  | .timesInt _, share .own => some (share .bare)
  | .timesInt _, share .bare => none
  | .timesInt _, future p   => some (future (p.add .now))
  | .settle, k              => some k.settled

/-- A share of degree `t` that `open()` reads at that degree: where the value is pending it reads at the context's. -/
def Opens (ctx : Context) (t : Nat) : Kind → Prop
  | field    => False
  | share p  => p ≠ .now → ctx.t = t
  | future p => p ≠ .now → ctx.t = t

end Kind

/-! ## Expressions -/

variable {F : Type*}

/-- What a program starts from. -/
inductive Leaf (F : Type*) where
  | field (f : F)
  | share (s : Share F)

namespace Leaf

def load : Leaf F → Except Exn (Val F)
  | field f => .ok (.field f)
  | share s => .ok (.share s)

def kind : Leaf F → Kind
  | field _ => .field
  | share s => .share s.v.form

/-- The opened leaf. -/
def value : Leaf F → F
  | field f => f
  | share s => s.v.get

/-- A share of degree `t`. -/
def Degree (t : Nat) : Leaf F → Prop
  | field _ => True
  | share s => s.t = t

end Leaf

variable [Field F]

def Op.eval : Op → F → F → F
  | .add, f, g => f + g
  | .sub, f, g => f - g
  | .mul, f, g => f * g
  | .div, f, g => f / g

def UnOp.eval : UnOp → F → F
  | .neg, f        => -f
  | .timesInt n, f => f * n
  | .settle, f     => f

namespace Expr

/-- The class of an expression, where all goes well. -/
def kindOf (ctx : Context) (t : Nat) : Expr (Leaf F) → Option Kind
  | leaf a     => some a.kind
  | bin op a b => (a.kindOf ctx t).bind fun k => (b.kindOf ctx t).bind fun l => Kind.bin ctx t op k l
  | un op a    => (a.kindOf ctx t).bind (Kind.un op)

/-- The expression over the opened leaves. -/
def value : Expr (Leaf F) → F
  | leaf a     => a.value
  | bin op a b => op.eval a.value b.value
  | un op a    => op.eval a.value

/-- Every divisor is nonzero. -/
def Divides : Expr (Leaf F) → Prop
  | leaf _     => True
  | bin op a b => a.Divides ∧ b.Divides ∧ (op = .div → b.value ≠ 0)
  | un _ a     => a.Divides

/-- The expression is built so that it comes to a share of degree `t` and opens at that degree. -/
def Sound (ctx : Context) (t : Nat) (e : Expr (Leaf F)) : Prop := ∃ k, e.kindOf ctx t = some k ∧ k.Opens ctx t

end Expr

/-! ## Promises -/

/-- A promise by its parts: the classes by `rule`, the elements by the operator, which has to divide. -/
def zipPromise [DecidableEq F] (rule : Kind → Kind → Option Kind) (op : Op) (P Q : Option (Kind × F)) :
    Option (Kind × F) :=
  P.bind fun k => Q.bind fun l =>
    if op = .div ∧ l.2 = 0 then none else (rule k.1 l.1).map fun m => (m, op.eval k.2 l.2)

/-- A share of degree `t`, under `kind`. -/
def sharePromise (t : Nat) (kind : Form → Kind) (s : Share F) : Option (Kind × F) :=
  if s.t = t then some (kind s.v.form, s.v.get) else none

def Mixin.op : Mixin → Op
  | .multiplyShare => .mul
  | .divideShare   => .div

variable [DecidableEq F]

/-- What a value will come to. -/
def Val.promise (ctx : Context) (t : Nat) : Val F → Option (Kind × F)
  | field f    => some (.field, f)
  | share s    => sharePromise t .share s
  | tuple _    => none
  | call m x y => zipPromise (Kind.ofSettled ctx t m.op) m.op (sharePromise t .share x) (sharePromise t .share y)
  | wait op a b => zipPromise (Kind.ofPending ctx t op) op (a.promise ctx t) (b.promise ctx t)
  | done s     => sharePromise t .future s
  | never      => none

/-- An exception promises nothing. -/
def outcome (ctx : Context) (t : Nat) : Except Exn (Val F) → Option (Kind × F)
  | .ok v    => v.promise ctx t
  | .error _ => none

def statePromise (ctx : Context) (t : Nat) : State F → Option (Kind × F)
  | .leaf r     => outcome ctx t r
  | .bin op a b => zipPromise (Kind.bin ctx t op) op (statePromise ctx t a) (statePromise ctx t b)
  | .un op a    => (statePromise ctx t a).bind fun k => (Kind.un op k.1).map fun m => (m, op.eval k.2)

section Rules

variable {ctx : Context} {t : Nat} {rule : Kind → Kind → Option Kind} {op : Op}

@[simp] theorem zipPromise_none_left (Q : Option (Kind × F)) : zipPromise rule op none Q = none := rfl

@[simp] theorem zipPromise_none_right (P : Option (Kind × F)) : zipPromise rule op P none = none := by cases P <;> rfl

theorem ne_none_left {P Q : Option (Kind × F)} (h : zipPromise rule op P Q ≠ none) : P ≠ none :=
  fun hnone => h (by rw [hnone, zipPromise_none_left])

theorem ne_none_right {P Q : Option (Kind × F)} (h : zipPromise rule op P Q ≠ none) : Q ≠ none :=
  fun hnone => h (by rw [hnone, zipPromise_none_right])

omit [Field F] [DecidableEq F] in
theorem sharePromise_of_t {kind : Form → Kind} {s : Share F} (h : s.t = t) :
    sharePromise t kind s = some (kind s.v.form, s.v.get) := if_pos h

omit [Field F] [DecidableEq F] in
theorem sharePromise_of_ne {kind : Form → Kind} {s : Share F} (h : s.t ≠ t) : sharePromise t kind s = none :=
  if_neg h

end Rules

section Operators

variable {ctx : Context} {t : Nat} {op : Op}

omit [Field F] [DecidableEq F] in
@[simp] theorem form_now (f : F) : (now f).form = .now := rfl

omit [DecidableEq F] in
@[simp] theorem form_add (a b : FieldVal F) : (a.add b).form = a.form.add b.form := by
  rcases a with _ | ⟨_ | _, _⟩ <;> rcases b with _ | ⟨_ | _, _⟩ <;> rfl

omit [DecidableEq F] in
@[simp] theorem form_sub (a b : FieldVal F) : (a.sub b).form = a.form.add b.form := by
  rcases a with _ | ⟨_ | _, _⟩ <;> rcases b with _ | ⟨_ | _, _⟩ <;> rfl

omit [DecidableEq F] in
@[simp] theorem form_mulField (a : FieldVal F) (f : F) : (a.mulField f).form = a.form.add .now := by
  rcases a with _ | ⟨_ | _, _⟩ <;> rfl

omit [Field F] [DecidableEq F] in
theorem form_later (own : Bool) (f : F) : (later own f).form ≠ .now := by cases own <;> nofun

/-- A share at hand. -/
theorem outcome_share {s : Share F} (h : s.t = t) : outcome ctx t (.ok (.share s)) = some (.share s.v.form, s.v.get) :=
  if_pos h

theorem outcome_fieldOp (f g : F) : outcome ctx t ((fieldOp op f g).bind fun a => .ok (.field a)) =
    zipPromise (Kind.ofSettled ctx t op) op (some (.field, f)) (some (.field, g)) := by
  cases op with
  | add => rfl
  | sub => rfl
  | mul => rfl
  | div =>
    by_cases hg : g = 0
    · simp [fieldOp, hg, Except.bind, outcome, zipPromise]
    · simp [fieldOp, hg, Except.bind, outcome, zipPromise, promise, Kind.ofSettled, Op.eval]

theorem outcome_shareField (x : Share F) (f : F) : outcome ctx t ((shareField op x f).bind fun s => .ok (.share s)) =
    zipPromise (Kind.ofSettled ctx t op) op (sharePromise t .share x) (some (.field, f)) := by
  by_cases hx : x.t = t
  · rw [sharePromise_of_t hx]
    cases op with
    | add =>
      have hs : (x.addField f).t = t := hx
      exact (outcome_share hs).trans (by simp [Share.addField, zipPromise, Kind.ofSettled, Op.eval])
    | sub =>
      have hs : (x.subField f).t = t := hx
      exact (outcome_share hs).trans (by simp [Share.subField, zipPromise, Kind.ofSettled, Op.eval])
    | mul =>
      have hs : (x.mulField f).t = t := hx
      exact (outcome_share hs).trans (by simp [Share.mulField, zipPromise, Kind.ofSettled, Op.eval])
    | div => simp [shareField, Except.bind, outcome, zipPromise, Kind.ofSettled]
  · rw [sharePromise_of_ne hx]
    cases h : shareField op x f with
    | error e => rfl
    | ok s    =>
      have hs : s.t ≠ t := (t_of_shareField h).trans_ne hx
      exact sharePromise_of_ne hs

theorem outcome_fieldShare (f : F) (x : Share F) : outcome ctx t ((fieldShare op f x).bind fun s => .ok (.share s)) =
    zipPromise (Kind.ofSettled ctx t op) op (some (.field, f)) (sharePromise t .share x) := by
  by_cases hx : x.t = t
  · rw [sharePromise_of_t hx]
    cases op with
    | add =>
      have hs : (x.addField f).t = t := hx
      exact (outcome_share hs).trans
        (by simp [Share.addField, zipPromise, Kind.ofSettled, Op.eval, add_comm])
    | sub =>
      obtain ⟨v, t'⟩ := x
      cases v with
      | now a =>
        have hs : (⟨(now (-a)).add (now f), t'⟩ : Share F).t = t := hx
        exact (outcome_share hs).trans
          (by simp [zipPromise, Kind.ofSettled, Form.add, Op.eval, neg_add_eq_sub])
      | later own a =>
        simp [fieldShare, Share.rsub, FieldVal.neg, bind, Except.bind, outcome, zipPromise, Kind.ofSettled, form_later]
    | mul =>
      have hs : (x.mulField f).t = t := hx
      exact (outcome_share hs).trans (by simp [Share.mulField, zipPromise, Kind.ofSettled, Op.eval, mul_comm])
    | div => simp [fieldShare, Except.bind, outcome, zipPromise, Kind.ofSettled]
  · rw [sharePromise_of_ne hx]
    cases h : fieldShare op f x with
    | error e => rfl
    | ok s    =>
      have hs : s.t ≠ t := (t_of_fieldShare h).trans_ne hx
      exact sharePromise_of_ne hs

/-- A sum or a difference `s` of shares of one degree. -/
theorem outcome_linear {x y s : Share F} (hop : op = .add ∨ op = .sub) (hxy : x.t = y.t) (hs : s.t = x.t)
    (hform : s.v.form = x.v.form.add y.v.form) (hget : s.v.get = op.eval x.v.get y.v.get) :
    outcome ctx t (.ok (.share s)) =
      zipPromise (Kind.ofSettled ctx t op) op (sharePromise t .share x) (sharePromise t .share y) := by
  by_cases hx : x.t = t
  · rw [sharePromise_of_t hx, sharePromise_of_t (hxy.symm.trans hx), outcome_share (hs.trans hx), hform, hget]
    rcases hop with rfl | rfl <;> simp [zipPromise, Kind.ofSettled]
  · rw [sharePromise_of_ne hx]
    exact sharePromise_of_ne (hs.trans_ne hx)

theorem outcome_shareShare (x y : Share F) : outcome ctx t (shareShare op x y) =
    zipPromise (Kind.ofSettled ctx t op) op (sharePromise t .share x) (sharePromise t .share y) := by
  by_cases hxy : x.t = y.t
  · cases op with
    | add =>
      rw [shareShare, Share.add_eq hxy]
      exact outcome_linear (.inl rfl) hxy rfl (form_add x.v y.v) (get_add x.v y.v)
    | sub =>
      rw [shareShare, Share.sub_eq hxy]
      exact outcome_linear (.inr rfl) hxy rfl (form_sub x.v y.v) (get_sub x.v y.v)
    | mul =>
      rw [shareShare, Share.mulChecked, if_neg (not_not.2 hxy)]
      rfl
    | div =>
      rw [shareShare, Share.divChecked, if_neg (not_not.2 hxy)]
      rfl
  · have herr : ∃ e, shareShare op x y = .error e := by
      cases op with
      | add => exact ⟨_, by rw [shareShare, Share.add, if_pos hxy]; rfl⟩
      | sub => exact ⟨_, by rw [shareShare, Share.sub, if_pos hxy]; rfl⟩
      | mul => exact ⟨_, if_pos hxy⟩
      | div => exact ⟨_, if_pos hxy⟩
    obtain ⟨e, he⟩ := herr
    rw [he]
    by_cases hx : x.t = t
    · have hy : y.t ≠ t := fun hy => hxy (hx.trans hy.symm)
      rw [sharePromise_of_ne hy, zipPromise_none_right]
      rfl
    · rw [sharePromise_of_ne hx]
      rfl

/-- **Without futures an operator gives what the classes promise.** -/
theorem outcome_settledOp {v w : Val F} (hv : v.isFuture = false) (hw : w.isFuture = false) :
    outcome ctx t (settledOp op v w) =
      zipPromise (Kind.ofSettled ctx t op) op (v.promise ctx t) (w.promise ctx t) := by
  cases v with
  | field f =>
    cases w with
    | field g => exact outcome_fieldOp f g
    | share y => exact outcome_fieldShare f y
    | tuple l => rfl
    | _ => cases hw
  | share x =>
    cases w with
    | field g => exact outcome_shareField x g
    | share y => exact outcome_shareShare x y
    | tuple l => exact (zipPromise_none_right _).symm
    | _ => cases hw
  | tuple l =>
    cases w with
    | tuple m =>
      rw [settledOp]
      split <;> rfl
    | _ => rfl
  | _ => cases hv

theorem isFuture_pending {k m : Kind} (h : k.pending = some m) : m.isFuture = true := by
  cases k <;> cases h <;> rfl

omit [Field F] [DecidableEq F] in
theorem of_sharePromise {kind : Form → Kind} {s : Share F} {k : Kind × F} (h : sharePromise t kind s = some k) :
    s.t = t ∧ k = (kind s.v.form, s.v.get) := by
  rw [sharePromise] at h
  split at h
  · exact ⟨‹_›, (Option.some.inj h).symm⟩
  · cases h

omit [Field F] [DecidableEq F] in
theorem kind_sharePromise {kind : Form → Kind} {s : Share F} {k : Kind} {f : F}
    (h : sharePromise t kind s = some (k, f)) : k = kind s.v.form := (Prod.mk.inj (of_sharePromise h).2).1

theorem zipPromise_some {rule : Kind → Kind → Option Kind} {P Q : Option (Kind × F)} {m : Kind} {f : F}
    (h : zipPromise rule op P Q = some (m, f)) : ∃ k l, P = some k ∧ Q = some l ∧ ¬ (op = .div ∧ l.2 = 0) ∧
      rule k.1 l.1 = some m ∧ f = op.eval k.2 l.2 := by
  cases P with
  | none => cases h
  | some k =>
    cases Q with
    | none => cases h
    | some l =>
      by_cases hzero : op = .div ∧ l.2 = 0
      · simp [zipPromise, hzero] at h
      · simp only [zipPromise, Option.bind_some, if_neg hzero, Option.map_eq_some_iff, Prod.mk.injEq] at h
        obtain ⟨m', hm, rfl, rfl⟩ := h
        exact ⟨k, l, rfl, rfl, hzero, hm, rfl⟩

/-- The class promised is a future's exactly for futures. -/
theorem isFuture_of_promise {v : Val F} {k : Kind} {f : F} (h : v.promise ctx t = some (k, f)) :
    k.isFuture = v.isFuture := by
  cases v with
  | field g =>
    cases h
    rfl
  | share s =>
    rw [kind_sharePromise h]
    rfl
  | tuple l => cases h
  | call m x y =>
    obtain ⟨k', l', hk, hl, -, hrule, -⟩ := zipPromise_some h
    rw [kind_sharePromise hk, kind_sharePromise hl] at hrule
    cases m <;>
    · simp only [Mixin.op, Kind.ofSettled] at hrule
      split at hrule <;> cases hrule
      rfl
  | wait op a b =>
    obtain ⟨k', l', -, -, -, hrule, -⟩ := zipPromise_some h
    obtain ⟨m, -, hm⟩ := Option.bind_eq_some_iff.1 hrule
    exact isFuture_pending hm
  | done s =>
    rw [kind_sharePromise h]
    rfl
  | never => cases h

theorem future_of_promise {v : Val F} {k : Kind × F} (hv : v.isFuture = true) (h : v.promise ctx t = some k) :
    ∃ p f, k = (.future p, f) := by
  obtain ⟨k, f⟩ := k
  have hk := (isFuture_of_promise h).trans hv
  cases k with
  | future p => exact ⟨p, f, rfl⟩
  | _ => cases hk

theorem zipPromise_congr {rule rule' : Kind → Kind → Option Kind} {P Q : Option (Kind × F)}
    (h : ∀ k ∈ P, ∀ l ∈ Q, rule k.1 l.1 = rule' k.1 l.1) : zipPromise rule op P Q = zipPromise rule' op P Q := by
  cases P with
  | none => rfl
  | some k =>
    cases Q with
    | none => rfl
    | some l => rw [zipPromise, zipPromise, Option.bind_some, Option.bind_some, Option.bind_some, Option.bind_some,
        h k rfl l rfl]

/-- A sum or a product may be taken in either order. -/
theorem zipPromise_swap {rule : Kind → Kind → Option Kind} {P Q : Option (Kind × F)} (h : op.reflects = true) :
    zipPromise rule op P Q = zipPromise (fun k l => rule l k) op Q P := by
  cases P with
  | none => exact (zipPromise_none_right Q).symm
  | some k =>
    cases Q with
    | none => rfl
    | some l =>
      cases op with
      | add => simp [zipPromise, Op.eval, add_comm]
      | mul => simp [zipPromise, Op.eval, mul_comm]
      | _ => cases h

theorem promise_of_isTuple {v : Val F} (h : v.isTuple = true) : v.promise ctx t = none := by
  cases v with
  | tuple l => rfl
  | _ => cases h

/-- An operand that is a tuple is refused, and promises nothing. -/
theorem outcome_wait {u v w : Val F} (hu : u = v ∨ u = w) :
    outcome ctx t (if u.isTuple then .error .typeError else .ok (wait op v w)) =
      zipPromise (Kind.ofPending ctx t op) op (v.promise ctx t) (w.promise ctx t) := by
  split
  · rename_i htuple
    rcases hu with rfl | rfl
    · rw [promise_of_isTuple htuple]
      rfl
    · rw [promise_of_isTuple htuple, zipPromise_none_right]
      rfl
  · rfl

/-- **An operator gives what the classes promise.** -/
theorem outcome_binop (v w : Val F) :
    outcome ctx t (binop op v w) = zipPromise (Kind.bin ctx t op) op (v.promise ctx t) (w.promise ctx t) := by
  by_cases hv : v.isFuture = true
  · have hrule : ∀ k ∈ v.promise ctx t, ∀ l ∈ w.promise ctx t,
        Kind.bin ctx t op k.1 l.1 = Kind.ofPending ctx t op k.1 l.1 :=
      fun k hk l _ => if_pos ((isFuture_of_promise hk).trans hv)
    have hbin : binop op v w = if w.isTuple then .error .typeError else .ok (wait op v w) := if_pos hv
    rw [zipPromise_congr hrule, hbin]
    exact outcome_wait (.inr rfl)
  · have hk : ∀ k ∈ v.promise ctx t, ¬ k.1.isFuture = true :=
      fun k hk h => hv ((isFuture_of_promise hk).symm.trans h)
    by_cases hw : w.isFuture = true
    · have hl : ∀ l ∈ w.promise ctx t, l.1.isFuture = true := fun l hl => (isFuture_of_promise hl).trans hw
      by_cases hop : op.reflects = true
      · have hrule : ∀ k ∈ w.promise ctx t, ∀ l ∈ v.promise ctx t,
            Kind.bin ctx t op l.1 k.1 = Kind.ofPending ctx t op k.1 l.1 := fun k hkm l hlm =>
          (if_neg (hk l hlm)).trans ((if_pos (hl k hkm)).trans (if_pos hop))
        have hbin : binop op v w = if v.isTuple then .error .typeError else .ok (wait op w v) := by
          simp only [binop, if_neg hv, if_pos hw, if_pos hop]
        rw [zipPromise_swap hop, zipPromise_congr hrule, hbin]
        exact outcome_wait (.inr rfl)
      · have hrule : ∀ k ∈ v.promise ctx t, ∀ l ∈ w.promise ctx t,
            Kind.bin ctx t op k.1 l.1 = Kind.ofPending ctx t op k.1 l.1 := fun k hkm l hlm =>
          (if_neg (hk k hkm)).trans ((if_pos (hl l hlm)).trans (if_neg hop))
        have hbin : binop op v w = if v.isTuple then .error .typeError else .ok (wait op v w) := by
          simp only [binop, if_neg hv, if_pos hw, if_neg hop]
        rw [zipPromise_congr hrule, hbin]
        exact outcome_wait (.inl rfl)
    · have hrule : ∀ k ∈ v.promise ctx t, ∀ l ∈ w.promise ctx t,
          Kind.bin ctx t op k.1 l.1 = Kind.ofSettled ctx t op k.1 l.1 := fun k hkm l hlm =>
        (if_neg (hk k hkm)).trans (if_neg fun h => hw ((isFuture_of_promise hlm).symm.trans h))
      have hbin : binop op v w = settledOp op v w := (if_neg hv).trans (if_neg hw)
      rw [zipPromise_congr hrule, hbin]
      exact outcome_settledOp (eq_false_of_ne_true hv) (eq_false_of_ne_true hw)

theorem promise_of_result {a v : Val F} (h : a.result = some v) :
    v.promise ctx t = (a.promise ctx t).map fun k => (k.1.settled, k.2) := by
  cases a with
  | field f =>
    cases h
    rfl
  | share s =>
    cases h
    by_cases hs : s.t = t
    · simp [promise, sharePromise_of_t hs, Kind.settled]
    · simp [promise, sharePromise_of_ne hs]
  | tuple l =>
    cases h
    rfl
  | done s =>
    cases h
    by_cases hs : s.t = t
    · simp [promise, sharePromise_of_t hs, Kind.settled]
    · simp [promise, sharePromise_of_ne hs]
  | _ => cases h

/-- A share has no minus that is a share. -/
theorem outcome_negOp (v : Val F) : outcome ctx t (negOp ctx v) =
    (v.promise ctx t).bind fun k => (Kind.un .neg k.1).map fun m => (m, -k.2) := by
  have hfuture (u : Val F) (hu : u.isFuture = true) : outcome ctx t (negOp ctx u) =
      (u.promise ctx t).bind fun k => (Kind.un .neg k.1).map fun m => (m, -k.2) := by
    have hraise : outcome ctx t (negOp ctx u) = none := by cases u <;> first | rfl | cases hu
    rw [hraise]
    cases hp : u.promise ctx t with
    | none => rfl
    | some k =>
      obtain ⟨p, f, rfl⟩ := future_of_promise hu hp
      rfl
  cases v with
  | field f => rfl
  | share x =>
    have hnone : outcome ctx t (negOp ctx (.share x)) = none := by
      cases h : x.neg ctx <;> simp [negOp, h, bind, Except.bind, pure, Except.pure, outcome, promise]
    rw [hnone]
    by_cases hx : x.t = t
    · rw [promise, sharePromise_of_t hx]
      rfl
    · rw [promise, sharePromise_of_ne hx]
      rfl
  | tuple l => rfl
  | _ => exact hfuture _ rfl

theorem outcome_timesInt (n : Int) (v : Val F) : outcome ctx t (timesInt n v) =
    (v.promise ctx t).bind fun k => (Kind.un (.timesInt n) k.1).map fun m => (m, k.2 * n) := by
  have hfuture (u : Val F) (hu : u.isFuture = true) : outcome ctx t (timesInt n u) =
      (u.promise ctx t).bind fun k => (Kind.un (.timesInt n) k.1).map fun m => (m, k.2 * n) := by
    have hwait : timesInt n u = .ok (wait .mul u (.field n)) := by cases u <;> first | rfl | cases hu
    rw [hwait, outcome, promise]
    cases hp : u.promise ctx t with
    | none => rfl
    | some k =>
      obtain ⟨p, f, rfl⟩ := future_of_promise hu hp
      rfl
  cases v with
  | field f => rfl
  | share x =>
    by_cases hx : x.t = t
    · obtain ⟨v, t'⟩ := x
      rw [promise, sharePromise_of_t hx]
      rcases v with a | ⟨_ | _, a⟩
      · exact outcome_share (s := ⟨now (a * n), t'⟩) hx
      · rfl
      · exact outcome_share (s := ⟨later false (a * n), t'⟩) hx
    · rw [promise, sharePromise_of_ne hx]
      cases h : x.mulInt n with
      | error e =>
        rw [timesInt, h]
        rfl
      | ok s =>
        have hs : s.t ≠ t := (Share.t_of_mulInt h).trans_ne hx
        rw [timesInt, h]
        exact sharePromise_of_ne hs
  | tuple l => rfl
  | _ => exact hfuture _ rfl

/-- **An operator with one operand gives what its class promises.** -/
theorem outcome_unop {op : UnOp} {v : Val F} {r : Except Exn (Val F)} (h : unop ctx op v = some r) :
    outcome ctx t r = (v.promise ctx t).bind fun k => (Kind.un op k.1).map fun m => (m, op.eval k.2) := by
  cases op with
  | neg =>
    obtain rfl : negOp ctx v = r := Option.some.inj h
    exact outcome_negOp v
  | timesInt n =>
    obtain rfl : timesInt n v = r := Option.some.inj h
    exact outcome_timesInt n v
  | settle =>
    rw [unop, Option.map_eq_some_iff] at h
    obtain ⟨a, ha, rfl⟩ := h
    refine (promise_of_result ha).trans ?_
    cases v.promise ctx t <;> rfl

/-- A future after its callback promises what `op` gave, as a future. -/
theorem promise_follow (r : Except Exn (Val F)) :
    (follow r).promise ctx t = (outcome ctx t r).bind fun k => k.1.pending.map fun m => (m, k.2) := by
  have hfuture (v : Val F) (hv : v.isFuture = true) :
      v.promise ctx t = (v.promise ctx t).bind fun k => k.1.pending.map fun m => (m, k.2) := by
    cases hp : v.promise ctx t with
    | none => rfl
    | some k =>
      obtain ⟨p, f, rfl⟩ := future_of_promise hv hp
      rfl
  cases r with
  | error e => rfl
  | ok v =>
    cases v with
    | field f => rfl
    | share s =>
      by_cases hs : s.t = t
      · simp [follow, outcome, promise, sharePromise_of_t hs, Kind.pending]
      · simp [follow, outcome, promise, sharePromise_of_ne hs]
    | tuple l => rfl
    | call m x y => exact hfuture (.call m x y) rfl
    | wait op a b => exact hfuture (.wait op a b) rfl
    | done s => exact hfuture (.done s) rfl
    | never => rfl

end Operators

end Dataflow
end Dpid
