import Dpid.Dataflow
import Mathlib.Logic.Relation
/-!
# DataflowRun — expressions over shares, evaluated (`progs/mixins/dataflow.py`)

The operators of Python choose a method by the classes of the operands, a future of a share being one whether resolved
or not.  Each intermediate result is used once, so a pending future is drawn as the tree of what it waits for.  The
event loop may turn any future at any time; the program evaluates from left to right and awaits where it says so.
-/
namespace Dpid
namespace Dataflow

variable {F : Type*}

/-! ## Operands -/

inductive Op where
  | add
  | sub
  | mul
  | div
deriving DecidableEq

/-- The mixins the operators of `Share` call. -/
inductive Mixin where
  | multiplyShare
  | divideShare
deriving DecidableEq

/-- What an operand is: a field element, a share, the tuples that the unary minus of a share makes, or a `ShareFuture`:
waiting for a mixin, waiting for the operands of `__binop_share`, resolved, or never to resolve since a callback
raised. -/
inductive Val (F : Type*) where
  | field (f : F)
  | share (s : Share F)
  | tuple (pairs : List (Share F × Nat))
  | call (m : Mixin) (x y : Share F)
  | wait (op : Op) (a b : Val F)
  | done (s : Share F)
  | never

namespace Val

def isFuture : Val F → Bool
  | call _ _ _ | wait _ _ _ | done _ | never => true
  | _                                        => false

def isTuple : Val F → Bool
  | tuple _ => true
  | _       => false

/-- `result()` of a future that has one, and what is no future. -/
def result : Val F → Option (Val F)
  | field f    => some (field f)
  | share s    => some (share s)
  | tuple l    => some (tuple l)
  | done s     => some (share s)
  | call _ _ _ => none
  | wait _ _ _ => none
  | never      => none

/-- The turns a value still needs, at most. -/
def work : Val F → Nat
  | field _    => 0
  | share _    => 0
  | tuple _    => 0
  | call _ _ _ => 2
  | wait _ a b => a.work + b.work + 3
  | done _     => 1
  | never      => 0

/-- Every share in it has the label `t`. -/
def Labelled (t : Nat) : Val F → Prop
  | field _    => True
  | share s    => s.t = t
  | tuple _    => True
  | call _ x y => x.t = t ∧ y.t = t
  | wait _ a b => a.Labelled t ∧ b.Labelled t
  | done s     => s.t = t
  | never      => True

theorem isFuture_of_result {a v : Val F} (h : a.result = some v) : v.isFuture = false := by
  cases a <;> cases h <;> rfl

theorem work_of_result {a v : Val F} (h : a.result = some v) : v.work = 0 := by
  cases a <;> cases h <;> rfl

theorem labelled_of_result {t : Nat} {a v : Val F} (h : a.result = some v) (ha : a.Labelled t) : v.Labelled t := by
  cases a <;> cases h <;> exact ha

end Val

open FieldVal Val

variable [Field F] [DecidableEq F]

/-! ## Operators -/

def fieldOp : Op → F → F → Except Exn F
  | .add, f, g => .ok (f + g)
  | .sub, f, g => .ok (f - g)
  | .mul, f, g => .ok (f * g)
  | .div, f, g => if g = 0 then .error .zeroDivisionError else .ok (f / g)

/-- A share on the left of a field element. -/
def shareField : Op → Share F → F → Except Exn (Share F)
  | .add, x, f => .ok (x.addField f)
  | .sub, x, f => .ok (x.subField f)
  | .mul, x, f => .ok (x.mulField f)
  | .div, _, _ => .error .typeError

/-- A field element on the left of a share: the reflected methods. -/
def fieldShare : Op → F → Share F → Except Exn (Share F)
  | .add, f, x => .ok (x.addField f)
  | .sub, f, x => x.rsub f
  | .mul, f, x => .ok (x.mulField f)
  | .div, _, _ => .error .typeError

def shareShare : Op → Share F → Share F → Except Exn (Val F)
  | .add, x, y => do return share (← x.add y)
  | .sub, x, y => do return share (← x.sub y)
  | .mul, x, y => x.mulChecked y (.ok (call .multiplyShare x y))
  | .div, x, y => x.divChecked y (.ok (call .divideShare x y))

/-- An operator on operands none of which is a future. -/
def settledOp (op : Op) : Val F → Val F → Except Exn (Val F)
  | .field f, .field g => do return field (← fieldOp op f g)
  | .share x, .field f => do return share (← shareField op x f)
  | .field f, .share x => do return share (← fieldShare op f x)
  | .share x, .share y => shareShare op x y
  | .tuple l, .tuple m => if op = .add then .ok (tuple (l ++ m)) else .error .typeError
  | _, _               => .error .typeError

/-- `__radd__` and `__rmul__` are `__add__` and `__mul__`: they put the result of the future first. -/
def Op.reflects : Op → Bool
  | .add | .mul => true
  | .sub | .div => false

/-- `v op w`, by the reflected method of a future on the right. -/
def binop (op : Op) (v w : Val F) : Except Exn (Val F) :=
  if v.isFuture then
    if w.isTuple then .error .typeError else .ok (wait op v w)
  else if w.isFuture then
    if v.isTuple then .error .typeError else if op.reflects then .ok (wait op w v) else .ok (wait op v w)
  else settledOp op v w

/-- The unary minus and the product by an integer, on either side; `settle` awaits what is a future. -/
inductive UnOp where
  | neg
  | timesInt (n : Int)
  | settle
deriving DecidableEq

/-- `-v`. -/
def negOp (ctx : Context) : Val F → Except Exn (Val F)
  | .field f => .ok (field (-f))
  | .share x => do return tuple [← x.neg ctx]
  | _        => .error .typeError

/-- `v * n`, and `n * v`, which runs the same code. -/
def timesInt (n : Int) : Val F → Except Exn (Val F)
  | .field f => .ok (field (f * n))
  | .share x => do return share (← x.mulInt n)
  | .tuple l => .ok (tuple (List.replicate n.toNat l).flatten)
  | v        => .ok (wait .mul v (field n))

/-- Nothing while what is awaited has no result. -/
def unop (ctx : Context) : UnOp → Val F → Option (Except Exn (Val F))
  | .neg, v        => some (negOp ctx v)
  | .timesInt n, v => some (timesInt n v)
  | .settle, v     => v.result.map .ok

/-! ## The event loop -/

/-- A future after the coroutine it waits for. -/
def resolve : Except Exn (Share F) → Val F
  | .ok s    => done s
  | .error _ => never

/-- A `ShareFuture` after its callback: set, following the future that `op` gave, or left alone. -/
def follow : Except Exn (Val F) → Val F
  | .ok (.share s)  => done s
  -- no operator on a share gives these
  | .ok (.field _)  => never
  | .ok (.tuple _)  => never
  | .ok v           => v
  | .error _        => never

/-- One turn of the loop at a future or at one it waits for.  The preprocessing hands correct material to a mixin, and
to a division a mask that is not zero. -/
inductive Turn (openShare : Nat → Nat → F → Except Exn F) (ctx : Context) : Val F → Val F → Prop
  | multiply {p : Draw F} (hp : p.Ok) (x y : Share F) :
      Turn openShare ctx (call .multiplyShare x y) (resolve (multiplyShare openShare ctx p x y))
  | divide {r : F} {p q : Draw F} (hr : r ≠ 0) (hp : p.Ok) (hq : q.Ok) (x y : Share F) :
      Turn openShare ctx (call .divideShare x y) (resolve (divideShare openShare ctx r p q x y))
  | left {op : Op} {a a' b : Val F} (h : Turn openShare ctx a a') : Turn openShare ctx (wait op a b) (wait op a' b)
  | right {op : Op} {a b b' : Val F} (h : Turn openShare ctx b b') : Turn openShare ctx (wait op a b) (wait op a b')
  | callback {op : Op} {a b v w : Val F} (ha : a.result = some v) (hb : b.result = some w) :
      Turn openShare ctx (wait op a b) (follow (binop op v w))

/-! ## The program -/

/-- An expression over leaves of any kind. -/
inductive Expr (α : Type*) where
  | leaf (a : α)
  | bin (op : Op) (a b : Expr α)
  | un (op : UnOp) (a : Expr α)

namespace Expr

variable {α β : Type*}

def map (g : α → β) : Expr α → Expr β
  | leaf a     => leaf (g a)
  | bin op a b => bin op (a.map g) (b.map g)
  | un op a    => un op (a.map g)

def All (P : α → Prop) : Expr α → Prop
  | leaf a    => P a
  | bin _ a b => a.All P ∧ b.All P
  | un _ a    => a.All P

end Expr

/-- The program at work: what is evaluated already stands as a leaf, with the exception if it raised. -/
abbrev State (F : Type*) := Expr (Except Exn (Val F))

/-- A step of the program or of the event loop. -/
inductive Step (openShare : Nat → Nat → F → Except Exn F) (ctx : Context) : State F → State F → Prop
  | turn {v v' : Val F} (h : Turn openShare ctx v v') : Step openShare ctx (.leaf (.ok v)) (.leaf (.ok v'))
  | left {op : Op} {a a' b : State F} (h : Step openShare ctx a a') : Step openShare ctx (.bin op a b) (.bin op a' b)
  | right {op : Op} {v : Val F} {b b' : State F} (h : Step openShare ctx b b') :
      Step openShare ctx (.bin op (.leaf (.ok v)) b) (.bin op (.leaf (.ok v)) b')
  | bin {op : Op} {v w : Val F} : Step openShare ctx (.bin op (.leaf (.ok v)) (.leaf (.ok w))) (.leaf (binop op v w))
  | raiseLeft {op : Op} {e : Exn} {b : State F} : Step openShare ctx (.bin op (.leaf (.error e)) b) (.leaf (.error e))
  | raiseRight {op : Op} {v : Val F} {e : Exn} :
      Step openShare ctx (.bin op (.leaf (.ok v)) (.leaf (.error e))) (.leaf (.error e))
  | under {op : UnOp} {a a' : State F} (h : Step openShare ctx a a') : Step openShare ctx (.un op a) (.un op a')
  | un {op : UnOp} {v : Val F} {r : Except Exn (Val F)} (h : unop ctx op v = some r) :
      Step openShare ctx (.un op (.leaf (.ok v))) (.leaf r)
  | raiseUn {op : UnOp} {e : Exn} : Step openShare ctx (.un op (.leaf (.error e))) (.leaf (.error e))

/-- Nothing is left to do, or nothing can be done. -/
def Terminal (openShare : Nat → Nat → F → Except Exn F) (ctx : Context) (c : State F) : Prop :=
  ∀ c', ¬ Step openShare ctx c c'

/-! ## What an operator gives -/

omit [DecidableEq F] in
theorem t_of_shareField {op : Op} {x s : Share F} {f : F} (h : shareField op x f = .ok s) : s.t = x.t := by
  cases op <;> cases h <;> rfl

omit [DecidableEq F] in
theorem t_of_fieldShare {op : Op} {x s : Share F} {f : F} (h : fieldShare op f x = .ok s) : s.t = x.t := by
  cases op with
  | sub =>
    obtain ⟨v, -, h⟩ := bind_eq_ok.1 h
    cases h
    rfl
  | add => cases h; rfl
  | mul => cases h; rfl
  | div => cases h

omit [DecidableEq F] in
theorem shareShare_ok {op : Op} {x y : Share F} {r : Val F} (h : shareShare op x y = .ok r) :
    (∃ s, r = share s ∧ s.t = x.t) ∨ ∃ m, r = call m x y := by
  cases op with
  | add =>
    obtain ⟨s, hs, h⟩ := bind_eq_ok.1 h
    cases h
    exact .inl ⟨s, rfl, Share.t_of_add hs⟩
  | sub =>
    obtain ⟨s, hs, h⟩ := bind_eq_ok.1 h
    cases h
    exact .inl ⟨s, rfl, Share.t_of_sub hs⟩
  | mul =>
    rw [shareShare, Share.mulChecked] at h
    split at h
    · cases h
    · cases h
      exact .inr ⟨_, rfl⟩
  | div =>
    rw [shareShare, Share.divChecked] at h
    split at h
    · cases h
    · cases h
      exact .inr ⟨_, rfl⟩

/-- A share keeps the label of an operand, and a future waits for both. -/
theorem settledOp_ok {op : Op} {v w r : Val F} (h : settledOp op v w = .ok r) :
    (∃ f, r = field f) ∨ (∃ l, r = tuple l) ∨
      (∃ s x, r = share s ∧ s.t = x.t ∧ (v = share x ∨ w = share x)) ∨
      ∃ m x y, r = call m x y ∧ v = share x ∧ w = share y := by
  cases v with
  | field f =>
    cases w with
    | field g =>
      obtain ⟨a, -, h⟩ := bind_eq_ok.1 h
      cases h
      exact .inl ⟨a, rfl⟩
    | share x =>
      obtain ⟨s, hs, h⟩ := bind_eq_ok.1 h
      cases h
      exact .inr (.inr (.inl ⟨s, x, rfl, t_of_fieldShare hs, .inr rfl⟩))
    | _ => cases h
  | share x =>
    cases w with
    | field g =>
      obtain ⟨s, hs, h⟩ := bind_eq_ok.1 h
      cases h
      exact .inr (.inr (.inl ⟨s, x, rfl, t_of_shareField hs, .inl rfl⟩))
    | share y =>
      rcases shareShare_ok h with ⟨s, rfl, hs⟩ | ⟨m, rfl⟩
      · exact .inr (.inr (.inl ⟨s, x, rfl, hs, .inl rfl⟩))
      · exact .inr (.inr (.inr ⟨m, x, y, rfl, rfl, rfl⟩))
    | _ => cases h
  | tuple l =>
    cases w with
    | tuple m =>
      rw [settledOp] at h
      split at h
      · cases h
        exact .inr (.inl ⟨_, rfl⟩)
      · cases h
    | _ => cases h
  | _ => cases w <;> cases h

/-- With a future among the operands an operator waits, for both in one order or the other. -/
theorem binop_ok {op : Op} {v w r : Val F} (h : binop op v w = .ok r) :
    r = wait op v w ∨ r = wait op w v ∨ v.isFuture = false ∧ w.isFuture = false ∧ settledOp op v w = .ok r := by
  unfold binop at h
  split at h
  · split at h
    · cases h
    · cases h
      exact .inl rfl
  · split at h
    · split at h
      · cases h
      · split at h <;> cases h
        · exact .inr (.inl rfl)
        · exact .inl rfl
    · rename_i hv hw
      exact .inr (.inr ⟨eq_false_of_ne_true hv, eq_false_of_ne_true hw, h⟩)

omit [DecidableEq F] in
theorem unop_ok {ctx : Context} {op : UnOp} {v r : Val F} (h : unop ctx op v = some (.ok r)) :
    (∃ f, r = field f) ∨ (∃ l, r = tuple l) ∨ (∃ s x, r = share s ∧ s.t = x.t ∧ v = share x) ∨
      (∃ f, r = wait .mul v (field f)) ∨ v.result = some r := by
  cases op with
  | neg =>
    have hneg : negOp ctx v = .ok r := Option.some.inj h
    cases v with
    | field f =>
      cases hneg
      exact .inl ⟨_, rfl⟩
    | share x =>
      obtain ⟨p, -, hp⟩ := bind_eq_ok.1 hneg
      cases hp
      exact .inr (.inl ⟨_, rfl⟩)
    | _ => cases hneg
  | timesInt n =>
    have htimes : timesInt n v = .ok r := Option.some.inj h
    cases v with
    | field f =>
      cases htimes
      exact .inl ⟨_, rfl⟩
    | share x =>
      obtain ⟨s, hs, hr⟩ := bind_eq_ok.1 htimes
      cases hr
      exact .inr (.inr (.inl ⟨s, x, rfl, Share.t_of_mulInt hs, rfl⟩))
    | tuple l =>
      cases htimes
      exact .inr (.inl ⟨_, rfl⟩)
    | _ =>
      cases htimes
      exact .inr (.inr (.inr (.inl ⟨_, rfl⟩)))
  | settle =>
    rw [unop, Option.map_eq_some_iff] at h
    obtain ⟨a, ha, hr⟩ := h
    cases hr
    exact .inr (.inr (.inr (.inr ha)))

/-! ## Every run ends -/

theorem work_settledOp {op : Op} {v w r : Val F} (h : settledOp op v w = .ok r) : r.work ≤ 2 := by
  rcases settledOp_ok h with ⟨f, rfl⟩ | ⟨l, rfl⟩ | ⟨s, x, rfl, -, -⟩ | ⟨m, x, y, rfl, -, -⟩ <;> simp [work]

theorem work_binop {op : Op} {v w r : Val F} (h : binop op v w = .ok r) : r.work ≤ v.work + w.work + 3 := by
  rcases binop_ok h with rfl | rfl | ⟨-, -, hset⟩
  · exact le_rfl
  · rw [work]
    omega
  · have hle := work_settledOp hset
    omega

omit [DecidableEq F] in
theorem work_unop {ctx : Context} {op : UnOp} {v r : Val F} (h : unop ctx op v = some (.ok r)) :
    r.work ≤ v.work + 3 := by
  rcases unop_ok h with ⟨f, rfl⟩ | ⟨l, rfl⟩ | ⟨s, x, rfl, -, -⟩ | ⟨f, rfl⟩ | hres
  · exact Nat.zero_le _
  · exact Nat.zero_le _
  · exact Nat.zero_le _
  · exact le_rfl
  · rw [work_of_result hres]
    exact Nat.zero_le _

variable {openShare : Nat → Nat → F → Except Exn F} {ctx : Context}

omit [Field F] [DecidableEq F] in
theorem work_resolve (r : Except Exn (Share F)) : (resolve r).work ≤ 1 := by
  cases r with
  | error e => exact Nat.zero_le _
  | ok s    => exact le_rfl

theorem work_follow {op : Op} {v w : Val F} (hv : v.isFuture = false) (hw : w.isFuture = false) :
    (follow (binop op v w)).work ≤ 2 := by
  cases h : binop op v w with
  | error e => exact Nat.zero_le _
  | ok r =>
    have hset : settledOp op v w = .ok r := by
      unfold binop at h
      rwa [hv, hw] at h
    rcases settledOp_ok hset with ⟨f, rfl⟩ | ⟨l, rfl⟩ | ⟨s, x, rfl, -, -⟩ | ⟨m, x, y, rfl, -, -⟩ <;>
      simp [follow, work]

theorem work_turn {v v' : Val F} (h : Turn openShare ctx v v') : v'.work < v.work := by
  induction h with
  | multiply hp x y => exact Nat.lt_of_le_of_lt (work_resolve _) (by simp [work])
  | divide hr hp hq x y => exact Nat.lt_of_le_of_lt (work_resolve _) (by simp [work])
  | left h ih =>
    rw [work, work]
    omega
  | right h ih =>
    rw [work, work]
    omega
  | callback ha hb =>
    refine Nat.lt_of_le_of_lt (work_follow (isFuture_of_result ha) (isFuture_of_result hb)) ?_
    rw [work]
    omega

omit [Field F] [DecidableEq F] in
/-- The steps a state still takes, at most. -/
def stateWork : State F → Nat
  | .leaf (.ok v)    => v.work
  | .leaf (.error _) => 0
  | .bin _ a b       => stateWork a + stateWork b + 4
  | .un _ a          => stateWork a + 4

/-- **Every step leaves less to do.** -/
theorem stateWork_step {c c' : State F} (h : Step openShare ctx c c') : stateWork c' < stateWork c := by
  induction h with
  | turn h => exact work_turn h
  | left h ih =>
    rw [stateWork, stateWork]
    omega
  | right h ih =>
    simp only [stateWork] at ih ⊢
    omega
  | @bin op v w =>
    rw [stateWork, stateWork, stateWork]
    cases h : binop op v w with
    | error e => exact Nat.zero_lt_succ _
    | ok r    => exact Nat.lt_succ_of_le (work_binop h)
  | raiseLeft => exact Nat.zero_lt_succ _
  | raiseRight => exact Nat.zero_lt_succ _
  | under h ih =>
    rw [stateWork, stateWork]
    omega
  | @un op v r h =>
    rw [stateWork, stateWork]
    cases r with
    | error e => exact Nat.zero_lt_succ _
    | ok r    => exact Nat.lt_succ_of_le (work_unop h)
  | raiseUn => exact Nat.zero_lt_succ _

/-- **No run goes on for ever.** -/
theorem exists_not_step (run : Nat → State F) : ∃ n, ¬ Step openShare ctx (run n) (run (n + 1)) := by
  by_contra hall
  simp only [not_exists, not_not] at hall
  have hle : ∀ n, stateWork (run n) + n ≤ stateWork (run 0) := by
    intro n
    induction n with
    | zero => exact le_rfl
    | succ n ih =>
      have hlt := stateWork_step (hall n)
      omega
  have hover := hle (stateWork (run 0) + 1)
  omega

/-- **Every state runs to a terminal one.** -/
theorem exists_terminal (c : State F) :
    ∃ c', Relation.ReflTransGen (Step openShare ctx) c c' ∧ Terminal openShare ctx c' := by
  induction hn : stateWork c using Nat.strong_induction_on generalizing c with
  | _ n ih =>
    by_cases hterm : Terminal openShare ctx c
    · exact ⟨c, .refl, hterm⟩
    · simp only [Terminal, not_forall, not_not] at hterm
      obtain ⟨c₁, hstep⟩ := hterm
      obtain ⟨c', hrun, hterm'⟩ := ih (stateWork c₁) (hn ▸ stateWork_step hstep) c₁ rfl
      exact ⟨c', .head hstep hrun, hterm'⟩

end Dataflow
end Dpid
