import Dpid.DataflowPromise
import Mathlib.Algebra.Field.ZMod
/-!
# DataflowSound — which expressions over shares are homomorphic (`progs/mixins/dataflow.py`)

A turn of the event loop and a step of the program keep what is promised, so that every run ends with the share that the
classes foretell, or with none of the right degree.
-/
namespace Dpid
namespace Dataflow

open FieldVal Val

variable {F : Type*} [Field F] [DecidableEq F]

/-! ## Turns and steps -/

section Turns

variable {openShare : Nat → Nat → F → Except Exn F} {ctx : Context} {t : Nat}

theorem labelled_binop {op : Op} {v w r : Val F} (h : binop op v w = .ok r) (hv : v.Labelled t) (hw : w.Labelled t) :
    r.Labelled t := by
  rcases binop_ok h with rfl | rfl | ⟨-, -, hset⟩
  · exact ⟨hv, hw⟩
  · exact ⟨hw, hv⟩
  · rcases settledOp_ok hset with ⟨f, rfl⟩ | ⟨l, rfl⟩ | ⟨s, x, rfl, hs, rfl | rfl⟩ | ⟨m, x, y, rfl, rfl, rfl⟩
    · trivial
    · trivial
    · exact hs.trans hv
    · exact hs.trans hw
    · exact ⟨hv, hw⟩

omit [DecidableEq F] in
theorem labelled_unop {op : UnOp} {v r : Val F} (h : unop ctx op v = some (.ok r)) (hv : v.Labelled t) :
    r.Labelled t := by
  rcases unop_ok h with ⟨f, rfl⟩ | ⟨l, rfl⟩ | ⟨s, x, rfl, hs, rfl⟩ | ⟨f, rfl⟩ | hres
  · trivial
  · trivial
  · exact hs.trans hv
  · exact ⟨hv, trivial⟩
  · exact labelled_of_result hres hv

omit [Field F] [DecidableEq F] in
theorem labelled_follow {r : Except Exn (Val F)} (h : ∀ v, r = .ok v → v.Labelled t) : (follow r).Labelled t := by
  cases r with
  | error e => trivial
  | ok v =>
    have hv := h v rfl
    cases v with
    | field f => trivial
    | tuple l => trivial
    | _ => exact hv

theorem labelled_turn (ht : ctx.t = t) {v v' : Val F} (h : Turn openShare ctx v v') (hv : v.Labelled t) :
    v'.Labelled t := by
  induction h with
  | @multiply p hp x y =>
    cases hres : multiplyShare openShare ctx p x y with
    | error e => trivial
    | ok s    => exact (t_of_multiplyShare hres).trans ht
  | @divide r p q hr hp hq x y =>
    cases hres : divideShare openShare ctx r p q x y with
    | error e => trivial
    | ok s    => exact (t_of_divideShare hres).trans ht
  | left h ih => exact ⟨ih hv.1, hv.2⟩
  | right h ih => exact ⟨hv.1, ih hv.2⟩
  | callback ha hb =>
    exact labelled_follow (fun r hr => labelled_binop hr (labelled_of_result ha hv.1) (labelled_of_result hb hv.2))

/-- A mixin that ends without a share of degree `t`. -/
theorem promise_resolve_none {r : Except Exn (Share F)} (h : ∀ s, r = .ok s → s.t ≠ t) :
    (resolve r).promise ctx t = none := by
  cases r with
  | error e => rfl
  | ok s    => exact sharePromise_of_ne (h s rfl)

/-- A product or a quotient has the degree of the context, and no other is promised. -/
theorem promise_call_of_ne {m : Mixin} {x y : Share F} (h : ctx.t ≠ t) : (call m x y).promise ctx t = none := by
  rw [promise]
  by_cases hx : x.t = t
  · by_cases hy : y.t = t
    · rw [sharePromise_of_t hx, sharePromise_of_t hy]
      cases m <;> simp [zipPromise, Mixin.op, Kind.ofSettled, h]
    · rw [sharePromise_of_ne hy, zipPromise_none_right]
  · rw [sharePromise_of_ne hx, zipPromise_none_left]

theorem promise_multiply (hreads : Reads openShare) {p : Draw F} (hp : p.Ok) {x y : Share F}
    (hxy : ctx.t = t → x.t = t ∧ y.t = t)
    (hgood : (call .multiplyShare x y).promise ctx t ≠ none ∨ Refuses openShare) :
    (resolve (multiplyShare openShare ctx p x y)).promise ctx t = (call .multiplyShare x y).promise ctx t := by
  by_cases ht : ctx.t = t
  · obtain ⟨hx, hy⟩ := hxy ht
    have hcall : (call .multiplyShare x y).promise ctx t =
        if ctx.Takes x.v.form y.v.form then some (.future .now, x.v.get * y.v.get) else none := by
      rw [promise, sharePromise_of_t hx, sharePromise_of_t hy]
      by_cases htakes : ctx.Takes x.v.form y.v.form <;>
        simp [zipPromise, Mixin.op, Kind.ofSettled, Op.eval, ht, htakes]
    rw [hcall] at hgood ⊢
    by_cases htakes : ctx.Takes x.v.form y.v.form
    · rw [multiplyShare_eq hreads hp (hx.trans ht.symm) (hy.trans ht.symm) htakes, if_pos htakes]
      exact sharePromise_of_t ht
    · have hrefuses : Refuses openShare := hgood.resolve_left (by simp [htakes])
      obtain ⟨e, he⟩ := multiplyShare_error (p := p) hrefuses (hx.trans ht.symm) (hy.trans ht.symm) htakes
      rw [he, if_neg htakes]
      rfl
  · rw [promise_call_of_ne ht]
    exact promise_resolve_none (fun s hs => (t_of_multiplyShare hs).trans_ne ht)

theorem promise_divide (hreads : Reads openShare) {r : F} {p q : Draw F} (hr : r ≠ 0) (hp : p.Ok) (hq : q.Ok)
    {x y : Share F} (hxy : ctx.t = t → x.t = t ∧ y.t = t)
    (hgood : (call .divideShare x y).promise ctx t ≠ none ∨ Refuses openShare) :
    (resolve (divideShare openShare ctx r p q x y)).promise ctx t = (call .divideShare x y).promise ctx t := by
  by_cases ht : ctx.t = t
  · obtain ⟨hx, hy⟩ := hxy ht
    by_cases hgo : (ctx.Takes x.v.form .now ∧ ctx.Takes y.v.form .now) ∧ y.v.get ≠ 0
    · obtain ⟨⟨hxt, hyt⟩, h0⟩ := hgo
      rw [divideShare_eq hreads hp hq hr (hx.trans ht.symm) (hy.trans ht.symm) hxt hyt h0, promise,
        sharePromise_of_t hx, sharePromise_of_t hy]
      refine (sharePromise_of_t ht).trans ?_
      simp [zipPromise, Mixin.op, Kind.ofSettled, Op.eval, ht, hxt, hyt, h0]
    · have hnone : (call .divideShare x y).promise ctx t = none := by
        rw [promise, sharePromise_of_t hx, sharePromise_of_t hy]
        by_cases h0 : y.v.get = 0
        · simp [zipPromise, Mixin.op, h0]
        · have htakes : ¬ (ctx.Takes x.v.form .now ∧ ctx.Takes y.v.form .now) := fun h => hgo ⟨h, h0⟩
          simp only [zipPromise, Mixin.op, Kind.ofSettled, Option.bind_some, ht, true_and, if_neg htakes, h0, if_false,
            Option.map_none]
      have hrefuses : Refuses openShare := hgood.resolve_left (not_not.2 hnone)
      obtain ⟨e, he⟩ := divideShare_error (q := q) hreads hrefuses hp hr (hx.trans ht.symm) (hy.trans ht.symm)
        (fun hxt hyt => by_contra fun h0 => hgo ⟨⟨hxt, hyt⟩, h0⟩)
      rw [he, hnone]
      rfl
  · rw [promise_call_of_ne ht]
    exact promise_resolve_none (fun s hs => (t_of_divideShare hs).trans_ne ht)

theorem bin_settled {op : Op} (k l : Kind) :
    Kind.bin ctx t op k.settled l.settled = Kind.ofSettled ctx t op k.settled l.settled := by
  cases k <;> cases l <;> rfl

/-- The operator on what two operands come to, as a future. -/
theorem zipPromise_settled {op : Op} (P Q : Option (Kind × F)) :
    ((zipPromise (Kind.bin ctx t op) op (P.map fun k => (k.1.settled, k.2)) (Q.map fun k => (k.1.settled, k.2))).bind
      fun k => k.1.pending.map fun m => (m, k.2)) = zipPromise (Kind.ofPending ctx t op) op P Q := by
  cases P with
  | none => rfl
  | some k =>
    cases Q with
    | none => rfl
    | some l =>
      simp only [zipPromise, Option.map_some, Option.bind_some, bin_settled, Kind.ofPending]
      split
      · rfl
      · cases Kind.ofSettled ctx t op k.1.settled l.1.settled <;> rfl

/-- **A turn keeps the promise.** -/
theorem promise_turn (hreads : Reads openShare) {v v' : Val F} (h : Turn openShare ctx v v')
    (hv : ctx.t = t → v.Labelled t) (hgood : v.promise ctx t ≠ none ∨ Refuses openShare) :
    v'.promise ctx t = v.promise ctx t := by
  induction h with
  | multiply hp x y => exact promise_multiply hreads hp hv hgood
  | divide hr hp hq x y => exact promise_divide hreads hr hp hq hv hgood
  | @left op a a' b h ih =>
    have ha : a.promise ctx t ≠ none ∨ Refuses openShare := hgood.imp_left ne_none_left
    rw [promise, promise, ih (fun ht => (hv ht).1) ha]
  | @right op a b b' h ih =>
    have hb : b.promise ctx t ≠ none ∨ Refuses openShare := hgood.imp_left ne_none_right
    rw [promise, promise, ih (fun ht => (hv ht).2) hb]
  | @callback op a b v w ha hb =>
    rw [promise_follow, outcome_binop, promise_of_result ha, promise_of_result hb, promise]
    exact zipPromise_settled _ _

/-- The labels of all that a state holds. -/
def StateLabelled (t : Nat) (c : State F) : Prop := c.All fun r => ∀ v, r = .ok v → v.Labelled t

theorem stateLabelled_step (ht : ctx.t = t) {c c' : State F} (h : Step openShare ctx c c')
    (hc : StateLabelled t c) : StateLabelled t c' := by
  induction h with
  | turn h =>
    rintro v hv
    cases hv
    exact labelled_turn ht h (hc _ rfl)
  | left h ih => exact ⟨ih hc.1, hc.2⟩
  | right h ih => exact ⟨hc.1, ih hc.2⟩
  | bin => exact fun r hr => labelled_binop hr (hc.1 _ rfl) (hc.2 _ rfl)
  | raiseLeft => nofun
  | raiseRight => nofun
  | under h ih => exact ih hc
  | un h => exact fun r hr => labelled_unop (hr ▸ h) (hc _ rfl)
  | raiseUn => nofun

/-- **A step keeps the promise**: one of a share of degree `t` always, and that there is none to come where reading
below the degree of a sharing gives nothing. -/
theorem promise_step (hreads : Reads openShare) {c c' : State F} (h : Step openShare ctx c c')
    (hc : ctx.t = t → StateLabelled t c) (hgood : statePromise ctx t c ≠ none ∨ Refuses openShare) :
    statePromise ctx t c' = statePromise ctx t c := by
  induction h with
  | turn h => exact promise_turn hreads h (fun ht => hc ht _ rfl) hgood
  | @left op a a' b h ih =>
    have ha : statePromise ctx t a ≠ none ∨ Refuses openShare := hgood.imp_left ne_none_left
    rw [statePromise, statePromise, ih (fun ht => (hc ht).1) ha]
  | @right op v b b' h ih =>
    have hb : statePromise ctx t b ≠ none ∨ Refuses openShare := hgood.imp_left ne_none_right
    simp only [statePromise, ih (fun ht => (hc ht).2) hb]
  | bin => exact outcome_binop _ _
  | raiseLeft => rfl
  | raiseRight => exact (zipPromise_none_right _).symm
  | @under op a a' h ih =>
    have ha : statePromise ctx t a ≠ none ∨ Refuses openShare :=
      hgood.imp_left (fun hne hnone => hne (by rw [statePromise, hnone, Option.bind_none]))
    rw [statePromise, statePromise, ih hc ha]
  | un h => exact outcome_unop h
  | raiseUn => rfl

/-- Along a run. -/
theorem promise_run (hreads : Reads openShare) {c c' : State F} (h : Relation.ReflTransGen (Step openShare ctx) c c')
    (hc : ctx.t = t → StateLabelled t c) (hgood : statePromise ctx t c ≠ none ∨ Refuses openShare) :
    statePromise ctx t c' = statePromise ctx t c := by
  have hboth : statePromise ctx t c' = statePromise ctx t c ∧ (ctx.t = t → StateLabelled t c') := by
    induction h with
    | refl => exact ⟨rfl, hc⟩
    | tail hrun hstep ih =>
      have hkeep := promise_step hreads hstep ih.2 (hgood.imp_left (fun hne => ih.1 ▸ hne))
      exact ⟨hkeep.trans ih.1, fun ht => stateLabelled_step ht hstep (ih.2 ht)⟩
  exact hboth.1

end Turns

/-! ## Answers -/

section Answers

variable {openShare : Nat → Nat → F → Except Exn F} {ctx : Context} {t : Nat}

/-- Work that was promised goes on until there is a result. -/
theorem turn_or_result {v : Val F} (h : v.promise ctx t ≠ none) :
    (∃ v', Turn openShare ctx v v') ∨ ∃ a, v.result = some a := by
  induction v with
  | field f => exact .inr ⟨_, rfl⟩
  | share s => exact .inr ⟨_, rfl⟩
  | tuple l => exact .inr ⟨_, rfl⟩
  | call m x y =>
    have hp : (⟨0, 0, 0, 0, 0⟩ : Draw F).Ok := ⟨(mul_zero 0).symm, rfl⟩
    cases m with
    | multiplyShare => exact .inl ⟨_, .multiply hp x y⟩
    | divideShare => exact .inl ⟨_, .divide one_ne_zero hp hp x y⟩
  | wait op a b iha ihb =>
    rcases iha (ne_none_left h) with ⟨a', ha'⟩ | ⟨v, hv⟩
    · exact .inl ⟨_, .left ha'⟩
    · rcases ihb (ne_none_right h) with ⟨b', hb'⟩ | ⟨w, hw⟩
      · exact .inl ⟨_, .right hb'⟩
      · exact .inl ⟨_, .callback hv hw⟩
  | done s => exact .inr ⟨_, rfl⟩
  | never => exact absurd rfl h

/-- **Progress**: a terminal state with a promise has a result. -/
theorem result_of_terminal {c : State F} (hterm : Terminal openShare ctx c) (h : statePromise ctx t c ≠ none) :
    ∃ v a, c = .leaf (.ok v) ∧ v.result = some a := by
  induction c with
  | leaf r =>
    cases r with
    | error e => exact absurd rfl h
    | ok v =>
      have hwork : (∃ v', Turn openShare ctx v v') ∨ ∃ a, v.result = some a := turn_or_result h
      rcases hwork with ⟨v', hv'⟩ | ⟨a, ha⟩
      · exact absurd (.turn hv') (hterm _)
      · exact ⟨v, a, rfl, ha⟩
  | bin op a b iha ihb =>
    obtain ⟨v, -, rfl, -⟩ := iha (fun c' hc' => hterm _ (.left hc')) (ne_none_left h)
    obtain ⟨w, -, rfl, -⟩ := ihb (fun c' hc' => hterm _ (.right hc')) (ne_none_right h)
    exact absurd .bin (hterm _)
  | un op a iha =>
    have ha : statePromise ctx t a ≠ none := fun hnone => h (by rw [statePromise, hnone, Option.bind_none])
    obtain ⟨v, a, rfl, hres⟩ := iha (fun c' hc' => hterm _ (.under hc')) ha
    have hready : ∃ r, unop ctx op v = some r := by
      cases op with
      | neg => exact ⟨_, rfl⟩
      | timesInt n => exact ⟨_, rfl⟩
      | settle => exact ⟨.ok a, by rw [unop, hres, Option.map_some]⟩
    obtain ⟨r, hr⟩ := hready
    exact absurd (.un hr) (hterm _)

/-- The state is a share of degree `t`, at hand or the result of a future, whose `open()` reads at `t` and gives `f`. -/
def Gives (openShare : Nat → Nat → F → Except Exn F) (ctx : Context) (t : Nat) (f : F) (c : State F) : Prop :=
  ∃ v s, c = .leaf (.ok v) ∧ v.result = some (.share s) ∧ s.t = t ∧ s.openDegree ctx = t ∧
    s.opening openShare ctx = .ok f

omit [Field F] [DecidableEq F] in
theorem openDegree_eq_iff {s : Share F} (h : s.t = t) : s.openDegree ctx = t ↔ (s.v.form ≠ .now → ctx.t = t) := by
  obtain ⟨v, t'⟩ := s
  rcases v with a | ⟨_ | _, a⟩
  · exact iff_of_true h (fun hne => absurd rfl hne)
  · exact ⟨fun hd _ => hd, fun hd => hd nofun⟩
  · exact ⟨fun hd _ => hd, fun hd => hd nofun⟩

/-- **What a terminal state gives is what was promised.** -/
theorem gives_iff (hreads : Reads openShare) {f : F} {c : State F} (hterm : Terminal openShare ctx c) :
    Gives openShare ctx t f c ↔ ∃ k, statePromise ctx t c = some (k, f) ∧ k.Opens ctx t := by
  refine ⟨?_, ?_⟩
  · rintro ⟨v, s, rfl, hres, hs, hdeg, hopen⟩
    have hget : s.v.get = f := by
      rw [Share.opening, Share.openAs, hdeg, hs, hreads t t _ le_rfl] at hopen
      exact Except.ok.inj hopen
    have hopens := (openDegree_eq_iff hs).1 hdeg
    cases v with
    | share s' =>
      cases hres
      exact ⟨.share s.v.form, by rw [← hget]; exact sharePromise_of_t hs, hopens⟩
    | done s' =>
      cases hres
      exact ⟨.future s.v.form, by rw [← hget]; exact sharePromise_of_t hs, hopens⟩
    | _ => cases hres
  · rintro ⟨k, hk, hopens⟩
    obtain ⟨v, a, rfl, hres⟩ := result_of_terminal hterm (by rw [hk]; exact Option.some_ne_none _)
    have hopen (s : Share F) (hs : s.t = t) (hdeg : s.openDegree ctx = t) : s.opening openShare ctx = .ok s.v.get := by
      rw [Share.opening, Share.openAs, hdeg, hs]
      exact hreads t t _ le_rfl
    cases v with
    | field g =>
      cases hk
      exact hopens.elim
    | share s =>
      obtain ⟨hs, hkf⟩ := of_sharePromise hk
      cases hkf
      have hdeg := (openDegree_eq_iff hs).2 hopens
      exact ⟨_, s, rfl, rfl, hs, hdeg, hopen s hs hdeg⟩
    | tuple l => cases hk
    | done s =>
      obtain ⟨hs, hkf⟩ := of_sharePromise hk
      cases hkf
      have hdeg := (openDegree_eq_iff hs).2 hopens
      exact ⟨_, s, rfl, rfl, hs, hdeg, hopen s hs hdeg⟩
    | _ => cases hres

end Answers

/-! ## The law -/

omit [Field F] [DecidableEq F] in
/-- An `open_share` that raises below the degree of a sharing. -/
def openOrRaise (degree d : Nat) (f : F) : Except Exn F := if degree ≤ d then .ok f else .error .interpolationError

omit [Field F] [DecidableEq F] in
theorem reads_openOrRaise : Reads (openOrRaise (F := F)) := fun _ _ _ h => if_pos h

omit [Field F] [DecidableEq F] in
theorem refuses_openOrRaise : Refuses (openOrRaise (F := F)) := fun _ _ _ h => ⟨_, if_neg (Nat.not_le.2 h)⟩

section Law

variable {ctx : Context} {t : Nat}

theorem statePromise_load {e : Expr (Leaf F)} (ht : e.All (Leaf.Degree t)) (hdiv : e.Divides) :
    statePromise ctx t (e.map Leaf.load) = (e.kindOf ctx t).map fun k => (k, e.value) := by
  induction e with
  | leaf a =>
    cases a with
    | field f => rfl
    | share s => exact sharePromise_of_t ht
  | bin op a b iha ihb =>
    obtain ⟨hadiv, hbdiv, h0⟩ := hdiv
    rw [Expr.map, statePromise, iha ht.1 hadiv, ihb ht.2 hbdiv, Expr.kindOf, Expr.value]
    have hne : ¬ (op = .div ∧ b.value = 0) := fun h => h0 h.1 h.2
    cases a.kindOf ctx t with
    | none => rfl
    | some k =>
      cases b.kindOf ctx t with
      | none => rfl
      | some l => simp only [zipPromise, Option.map_some, Option.bind_some, if_neg hne]
  | un op a iha =>
    rw [Expr.map, statePromise, iha ht hdiv, Expr.kindOf, Expr.value]
    cases a.kindOf ctx t <;> rfl

omit [Field F] [DecidableEq F] in
theorem stateLabelled_load {e : Expr (Leaf F)} (ht : e.All (Leaf.Degree t)) : StateLabelled t (e.map Leaf.load) := by
  induction e with
  | leaf a =>
    rintro v hv
    cases a with
    | field f =>
      cases hv
      trivial
    | share s =>
      cases hv
      exact ht
  | bin op a b iha ihb => exact ⟨iha ht.1, ihb ht.2⟩
  | un op a iha => exact iha ht

/-- The expression evaluates, in any order of the event loop, to a share of degree `t` that opens to `f`: no run goes on
for ever, and where one ends it is with that. -/
def Evaluates (openShare : Nat → Nat → F → Except Exn F) (ctx : Context) (t : Nat) (f : F) (c : State F) : Prop :=
  (∀ run : Nat → State F, run 0 = c → ∃ n, ¬ Step openShare ctx (run n) (run (n + 1))) ∧
    ∀ c', Relation.ReflTransGen (Step openShare ctx) c c' → Terminal openShare ctx c' → Gives openShare ctx t f c'

/-- **Which expressions over shares are homomorphic.**  With shares of degree `t` and nonzero divisors an expression
evaluates to a share of its value, whatever `open_share` does below the degree of a sharing, exactly when no minus is
taken of a share, none is taken of a pending value by a field element, no bare future is multiplied by an integer, the
products and quotients are of the context's degree and take their operands, and a pending result is of that degree. -/
theorem expression_iff {e : Expr (Leaf F)} (ht : e.All (Leaf.Degree t)) (hdiv : e.Divides) :
    (∀ openShare, Reads openShare → Evaluates openShare ctx t e.value (e.map Leaf.load)) ↔ e.Sound ctx t := by
  refine ⟨fun h => ?_, ?_⟩
  · obtain ⟨c', hrun, hterm⟩ := @exists_terminal F _ _ openOrRaise ctx (e.map Leaf.load)
    have hgives := (h openOrRaise reads_openOrRaise).2 c' hrun hterm
    obtain ⟨k, hk, hopens⟩ := (gives_iff reads_openOrRaise hterm).1 hgives
    rw [promise_run reads_openOrRaise hrun (fun _ => stateLabelled_load ht) (.inr refuses_openOrRaise),
      statePromise_load ht hdiv, Option.map_eq_some_iff] at hk
    obtain ⟨k', hkind, hkk⟩ := hk
    cases hkk
    exact ⟨k, hkind, hopens⟩
  · rintro ⟨k, hk, hopens⟩ openShare hreads
    have hload : statePromise ctx t (e.map Leaf.load) = (e.kindOf ctx t).map fun k => (k, e.value) :=
      statePromise_load ht hdiv
    rw [hk, Option.map_some] at hload
    refine ⟨fun run _ => exists_not_step run, fun c' hrun hterm => (gives_iff hreads hterm).2 ⟨k, ?_, hopens⟩⟩
    have hsome : statePromise ctx t (e.map Leaf.load) ≠ none := by
      rw [hload]
      exact Option.some_ne_none _
    rw [promise_run hreads hrun (fun _ => stateLabelled_load ht) (.inl hsome), hload]

/-! ## Resolved values -/

namespace Kind

/-- A share with its value at hand, or a future of one. -/
def IsNow (k : Kind) : Prop := k = .share .now ∨ k = .future .now

theorem takes_now : ctx.Takes .now .now := by
  rw [Context.Takes]
  cases ctx.multiply with
  | beaver => trivial
  | doubleSharing => exact .inl ⟨rfl, rfl⟩

theorem bin_now (hct : ctx.t = t) (op : Op) {k l : Kind} (hk : k.IsNow) (hl : l.IsNow) :
    ∃ m, Kind.bin ctx t op k l = some m ∧ m.IsNow := by
  have hnow : ctx.Takes .now .now := takes_now
  rcases hk with rfl | rfl <;> rcases hl with rfl | rfl <;> cases op <;>
    simp [bin, isFuture, Op.reflects, ofPending, settled, ofSettled, pending, Form.add, hct, hnow, IsNow]

theorem field_bin_now {op : Op} (hop : op ≠ .div) {l : Kind} (hl : l.IsNow) :
    ∃ m, Kind.bin ctx t op .field l = some m ∧ m.IsNow := by
  rcases hl with rfl | rfl <;> cases op <;>
    simp [bin, isFuture, Op.reflects, ofPending, settled, ofSettled, pending, Form.add, IsNow] at hop ⊢

theorem now_bin_field {op : Op} (hop : op ≠ .div) {k : Kind} (hk : k.IsNow) :
    ∃ m, Kind.bin ctx t op k .field = some m ∧ m.IsNow := by
  rcases hk with rfl | rfl <;> cases op <;>
    simp [bin, isFuture, ofPending, settled, ofSettled, pending, Form.add, IsNow] at hop ⊢

theorem un_now {op : UnOp} (hop : op ≠ .neg) {k : Kind} (hk : k.IsNow) : ∃ m, Kind.un op k = some m ∧ m.IsNow := by
  rcases hk with rfl | rfl <;> cases op <;> simp [un, settled, Form.add, IsNow] at hop ⊢

end Kind

namespace Expr

omit [Field F] [DecidableEq F] in
/-- A share occurs in the expression. -/
def shares : Expr (Leaf F) → Bool
  | leaf (.field _) => false
  | leaf (.share _) => true
  | bin _ a b       => a.shares || b.shares
  | un _ a          => a.shares

omit [Field F] [DecidableEq F] in
/-- The shares have their values at hand, the minus is taken of field elements only, and quotients are of two shares. -/
def Resolved : Expr (Leaf F) → Prop
  | leaf (.field _) => True
  | leaf (.share s) => s.v.form = .now
  | bin op a b      => a.Resolved ∧ b.Resolved ∧ (op = .div → a.shares = true ∧ b.shares = true)
  | un op a         => a.Resolved ∧ (op = .neg → a.shares = false)

omit [Field F] [DecidableEq F] in
theorem kindOf_of_resolved (hct : ctx.t = t) {e : Expr (Leaf F)} (h : e.Resolved) :
    (e.shares = false → e.kindOf ctx t = some .field) ∧
      (e.shares = true → ∃ k, e.kindOf ctx t = some k ∧ k.IsNow) := by
  induction e with
  | leaf a =>
    cases a with
    | field f => exact ⟨fun _ => rfl, nofun⟩
    | share s =>
      have hnow : s.v.form = .now := h
      exact ⟨nofun, fun _ => ⟨_, rfl, .inl (by rw [Leaf.kind, hnow])⟩⟩
  | bin op a b iha ihb =>
    obtain ⟨ha, hb, hdiv⟩ := h
    rw [shares, kindOf]
    cases has : a.shares with
    | false =>
      rw [(iha ha).1 has]
      cases hbs : b.shares with
      | false =>
        rw [(ihb hb).1 hbs]
        exact ⟨fun _ => by cases op <;> rfl, nofun⟩
      | true =>
        obtain ⟨l, hl, hnow⟩ := (ihb hb).2 hbs
        have hop : op ≠ .div := fun hop => by
          rw [(hdiv hop).1] at has
          cases has
        rw [hl]
        exact ⟨nofun, fun _ => Kind.field_bin_now hop hnow⟩
    | true =>
      obtain ⟨k, hk, hknow⟩ := (iha ha).2 has
      rw [hk]
      cases hbs : b.shares with
      | false =>
        have hop : op ≠ .div := fun hop => by
          rw [(hdiv hop).2] at hbs
          cases hbs
        rw [(ihb hb).1 hbs]
        exact ⟨nofun, fun _ => Kind.now_bin_field hop hknow⟩
      | true =>
        obtain ⟨l, hl, hnow⟩ := (ihb hb).2 hbs
        rw [hl]
        exact ⟨nofun, fun _ => Kind.bin_now hct op hknow hnow⟩
  | un op a iha =>
    obtain ⟨ha, hneg⟩ := h
    rw [shares, kindOf]
    cases has : a.shares with
    | false =>
      rw [(iha ha).1 has]
      exact ⟨fun _ => by cases op <;> rfl, nofun⟩
    | true =>
      obtain ⟨k, hk, hknow⟩ := (iha ha).2 has
      have hop : op ≠ .neg := fun hop => by
        rw [hneg hop] at has
        cases has
      rw [hk]
      exact ⟨nofun, fun _ => Kind.un_now hop hknow⟩

omit [Field F] [DecidableEq F] in
/-- **Over resolved shares of the context's degree every expression without a minus of a share is sound.** -/
theorem sound_of_resolved (hct : ctx.t = t) {e : Expr (Leaf F)} (h : e.Resolved) (hs : e.shares = true) :
    e.Sound ctx t := by
  obtain ⟨k, hk, rfl | rfl⟩ := (kindOf_of_resolved hct h).2 hs
  · exact ⟨_, hk, fun hne => absurd rfl hne⟩
  · exact ⟨_, hk, fun hne => absurd rfl hne⟩

end Expr

/-! ## A quotient, and a minus -/

/-- `(1 - x * y) / x`, for shares of one and minus one. -/
def quotientExpr : Expr (Leaf (ZMod 3)) :=
  .bin .div (.bin .sub (.leaf (.field 1)) (.bin .mul (.leaf (.share ⟨now 1, 1⟩)) (.leaf (.share ⟨now (-1), 1⟩))))
    (.leaf (.share ⟨now 1, 1⟩))

/-- The context of the examples. -/
def beaverContext : Context := ⟨1, .beaver⟩

theorem expression_iff_quotient : Evaluates openOrRaise beaverContext 1 (-1) (quotientExpr.map Leaf.load) := by
  have ht : quotientExpr.All (Leaf.Degree 1) := ⟨⟨trivial, rfl, rfl⟩, rfl⟩
  have hdiv : quotientExpr.Divides :=
    ⟨⟨trivial, ⟨trivial, trivial, nofun⟩, nofun⟩, trivial, fun _ => (by decide : (1 : ZMod 3) ≠ 0)⟩
  have hsound : quotientExpr.Sound beaverContext 1 := ⟨.future .now, by decide, fun h => absurd rfl h⟩
  have hvalue : quotientExpr.value = -1 := by
    have hexpr : quotientExpr.value = (1 - 1 * -1) / 1 := rfl
    rw [hexpr, div_one]
    decide
  exact hvalue ▸ (expression_iff ht hdiv).2 hsound openOrRaise reads_openOrRaise

/-- Nothing waits for a tuple. -/
theorem terminal_tuple {openShare : Nat → Nat → F → Except Exn F} (pairs : List (Share F × Nat)) :
    Terminal openShare ctx (.leaf (.ok (.tuple pairs))) := by
  intro c' h
  cases h with
  | turn h => cases h

/-- `-x`, for a share of one. -/
def minusExpr : Expr (Leaf (ZMod 3)) := .un .neg (.leaf (.share ⟨now 1, 1⟩))

/-- **The minus of a share is a tuple**, not a share of the minus. -/
theorem expression_counterexample :
    ¬ Evaluates openOrRaise beaverContext 1 minusExpr.value (minusExpr.map Leaf.load) := by
  rintro ⟨-, hall⟩
  have hstep : Step openOrRaise beaverContext (minusExpr.map Leaf.load)
      (.leaf (.ok (.tuple [(⟨now (-1), 1⟩, 1)]))) := .un rfl
  obtain ⟨v, s, hv, hres, -⟩ := hall _ (.single hstep) (terminal_tuple _)
  cases hv
  cases hres

end Law

end Dataflow
end Dpid
