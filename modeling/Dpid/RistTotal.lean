import Dpid.RistTables
/-!
# RistTotal — which calls of the bindings panic

Over the group every function but three returns: a table needs a level in range, a product through a table needs its
windows, and the one inversion of a batch needs points other than the identity.  The bindings themselves panic at a vector of
too many objects, a seed of too many numbers and a scalar made of neither an object nor an integer.  The vendored functions
are in lock step, so a process whose calls keep clear of these never panics.
-/
namespace Dpid
namespace Pairing
namespace Rist

open Curve25519 (Bytes32 Scalar RistrettoPoint RistrettoGroup groupOrder Fl)

section

variable {Z G : Type}

/-- The call may panic: it asks for a table of a level that has none, multiplies through a table, has the identity in a
batch, a vector past `isize::MAX` bytes or a seed past eight numbers, or makes a scalar of something else. -/
def MayPanic (C : RistLib Z G) (s : RistState Z G) : RistCall → Prop
  | .zrNew (some .neither) => True
  | .zrHashMany drawn      => drawn.length < 2 ^ 64 ∧ 2 ^ 63 ≤ drawn.length * 32
  | .gHashMany drawn       => drawn.length < 2 ^ 64 ∧ 2 ^ 63 ≤ drawn.length * 192
  | .gRand a _             => 8 < a.length
  | .gPreprocess _ level   => level < 2 ^ 64 ∧ PyRistG.layout.Panics level
  | .gPpmul self _ _       => ∃ o, s.gs[self]? = some o ∧ o.pp ≠ []
  | .gPow self _           => ∃ o, s.gs[self]? = some o ∧ o.pp ≠ []
  | .hashcurve25519gsbn a  => ∃ i ∈ a, ∃ o, s.gs[i]? = some o ∧ C.equal o.elem C.identity = some true
  | _                      => False

/-- The call is answered. -/
def Answered (m : Option (RistState Z G × Reply)) : Prop := ∃ s r, m = some (s, r) ∧ r ≠ .panicked

theorem answered_some (s : RistState Z G) {r : Reply} (h : r ≠ .panicked) : Answered (some (s, r)) := ⟨s, r, rfl, h⟩

variable {s : RistState Z G} {i j : Nat}

theorem withZr_answered {f : Z → Option (RistState Z G × Reply)} (h : ∀ z, Answered (f z)) : Answered (withZr s i f) := by
  unfold withZr
  split
  · exact answered_some _ nofun
  · exact h _

theorem withG_answered {f : PpObj G → Option (RistState Z G × Reply)} (h : ∀ o, s.gs[i]? = some o → Answered (f o)) :
    Answered (withG s i f) := by
  unfold withG
  split
  · exact answered_some _ nofun
  · exact h _ ‹_›

theorem withOtherZr_answered {f : Z → Option (RistState Z G × Reply)} (h : ∀ z, Answered (f z)) :
    Answered (withOtherZr s i j f) := by
  unfold withOtherZr
  split
  · exact answered_some _ nofun
  · exact withZr_answered h

theorem withOtherG_answered {f : PpObj G → Option (RistState Z G × Reply)} (h : ∀ o, s.gs[j]? = some o → Answered (f o)) :
    Answered (withOtherG s i j f) := by
  unfold withOtherG
  split
  · exact answered_some _ nofun
  · exact withG_answered h

theorem withZrs_answered {l : List Nat} {f : List Z → Option (RistState Z G × Reply)}
    (h : ∀ zs, l.mapM (s.zrs[·]?) = some zs → Answered (f zs)) : Answered (withZrs s l f) := by
  unfold withZrs
  split
  · exact answered_some _ nofun
  · exact h _ ‹_›

theorem withGs_answered {l : List Nat} {f : List (PpObj G) → Option (RistState Z G × Reply)}
    (h : ∀ os, l.mapM (s.gs[·]?) = some os → Answered (f os)) : Answered (withGs s l f) := by
  unfold withGs
  split
  · exact answered_some _ nofun
  · exact h _ ‹_›

end

/-! ## Lists of objects -/

theorem length_of_mapM {α β : Type} {f : α → Option β} : ∀ {l : List α} {l' : List β}, l.mapM f = some l' →
    l'.length = l.length
  | [], l', h     => by
    obtain rfl := Option.some.inj h
    rfl
  | a :: l, l', h => by
    rw [List.mapM_cons] at h
    obtain ⟨b, -, h⟩ := Option.bind_eq_some_iff.1 h
    obtain ⟨bs, hbs, h⟩ := Option.bind_eq_some_iff.1 h
    obtain rfl := Option.some.inj h
    rw [List.length_cons, List.length_cons, length_of_mapM hbs]

theorem exists_of_mem_mapM {α β : Type} {f : α → Option β} : ∀ {l : List α} {l' : List β}, l.mapM f = some l' →
    ∀ b ∈ l', ∃ a ∈ l, f a = some b
  | [], l', h, b, hb     => by
    obtain rfl := Option.some.inj h
    exact absurd hb List.not_mem_nil
  | a :: l, l', h, b, hb => by
    rw [List.mapM_cons] at h
    obtain ⟨c, hc, h⟩ := Option.bind_eq_some_iff.1 h
    obtain ⟨cs, hcs, h⟩ := Option.bind_eq_some_iff.1 h
    obtain rfl := Option.some.inj h
    rcases List.mem_cons.1 hb with rfl | hb
    · exact ⟨a, List.mem_cons_self, hc⟩
    · obtain ⟨a', ha', hb'⟩ := exists_of_mem_mapM hcs b hb
      exact ⟨a', List.mem_cons_of_mem a ha', hb'⟩

/-! ## Over the group -/

theorem exists_preprocess (o : PpObj RistrettoGroup) {level : Nat} (h : ¬PyRistG.layout.Panics level) :
    ∃ o', preprocess ideal o level = some o' := by
  rw [preprocess_ideal]
  exact Option.ne_none_iff_exists'.1 (fun hnone => h (preprocess_eq_none_iff.1 hnone))

theorem exists_ppmul {o : PpObj RistrettoGroup} (h : o.pp = []) (z : Fl) (out : PpObj RistrettoGroup) :
    ∃ o', ppmul ideal o z out = some o' := by
  rw [ppmul, ppmulInto, h]
  exact ⟨_, rfl⟩

theorem exists_dotprod (pairs : List (Fl × Fl)) : ∃ z, dotprod ideal pairs = some z := by
  obtain ⟨z, hz, -⟩ := Checked.Returns.foldlM (f := fun output ab => do ideal.add output (← ideal.zrMul ab.1 ab.2))
    (I := fun _ _ => True) pairs [] (0 : Fl) (fun _ _ _ _ _ => ⟨_, rfl, trivial⟩) trivial
  exact ⟨z, hz⟩

variable {t : RistState Fl RistrettoGroup}

theorem withArg_answered {a : ZrArg} {f : Fl → Option (RistState Fl RistrettoGroup × Reply)} (h : ∀ z, Answered (f z)) :
    Answered (withArg ideal t a f) := by
  cases a with
  | obj i => exact withZr_answered h
  | int n =>
    dsimp only [withArg]
    rw [bigintToPyscalar_ideal]
    exact h _
  | neither => exact answered_some _ nofun

theorem withMany_answered {α β : Type} {size : Nat} {make : α → Option β} {g : α → β} (hmake : ∀ a, make a = some (g a))
    {drawn : List α} (hc : ¬(drawn.length < 2 ^ 64 ∧ 2 ^ 63 ≤ drawn.length * size))
    {f : List β → Option (RistState Fl RistrettoGroup × Reply)} (h : ∀ bs, Answered (f bs)) :
    Answered (withMany t size make drawn f) := by
  unfold withMany
  split
  · exact answered_some _ nofun
  · rw [if_neg (fun hle => hc ⟨Nat.lt_of_not_le ‹_›, hle⟩), mapM_eq_map (fun a _ => hmake a)]
    exact h _

theorem powAssign_answered (z : Fl) (exp : Int) {f : Fl → Option (RistState Fl RistrettoGroup × Reply)}
    (h : ∀ z, Answered (f z)) : Answered (powAssign ideal z exp >>= f) := by
  rw [powAssign_ideal]
  exact h _

theorem mapM_compress (os : List (PpObj RistrettoGroup)) :
    os.mapM (fun o => ideal.compress o.elem) = some (os.map fun o => encoding o.elem) := by
  induction os with
  | nil => rfl
  | cons o os ih =>
    rw [List.mapM_cons, ih]
    rfl

/-- **Over the group every other call is answered.** -/
theorem step_ideal_answered (c : RistCall) (hc : ¬ MayPanic ideal t c) : Answered (step ideal t c) := by
  cases c with
  | zrNew s1 =>
    cases s1 with
    | none    => exact answered_some _ nofun
    | some s1 =>
      cases s1 with
      | obj i   => exact withZr_answered (fun _ => answered_some _ nofun)
      | int n   => exact withArg_answered (t := t) (a := .int n) (fun _ => answered_some _ nofun)
      | neither => exact absurd trivial hc
  | zrUniform bytes => exact answered_some _ nofun
  | zrHashMany drawn => exact withMany_answered (fun _ => rfl) hc (fun _ => answered_some _ nofun)
  | zrNegate self => exact withZr_answered (fun _ => answered_some _ nofun)
  | zrInverse self => exact withZr_answered (fun _ => answered_some _ nofun)
  | zrAddAssign self other => exact withZr_answered (fun _ => withOtherZr_answered (fun _ => answered_some _ nofun))
  | zrSubAssign self other => exact withZr_answered (fun _ => withOtherZr_answered (fun _ => answered_some _ nofun))
  | zrMulAssign self other => exact withZr_answered (fun _ => withOtherZr_answered (fun _ => answered_some _ nofun))
  | zrPowAssign self exp =>
    refine withZr_answered (fun z => ?_)
    cases exp with
    | none     => exact answered_some _ nofun
    | some exp => exact powAssign_answered z exp (fun _ => answered_some _ nofun)
  | zrToMontgomery self => exact withZr_answered (fun _ => answered_some _ nofun)
  | zrFromMontgomery self => exact withZr_answered (fun _ => answered_some _ nofun)
  | zrIsZero self => exact withZr_answered (fun _ => answered_some _ nofun)
  | zrEquals self other => exact withZr_answered (fun _ => withZr_answered (fun _ => answered_some _ nofun))
  | zrCopy self other => exact withZr_answered (fun _ => withOtherZr_answered (fun _ => answered_some _ nofun))
  | zrGetState self => exact withZr_answered (fun _ => answered_some _ nofun)
  | zrSetState self list =>
    refine withZr_answered (fun _ => ?_)
    cases tryInto32 list <;> exact answered_some _ nofun
  | zrAdd lhs rhs => exact withZr_answered (fun _ => withArg_answered (fun _ => answered_some _ nofun))
  | zrTruediv lhs rhs => exact withZr_answered (fun _ => withArg_answered (fun _ => answered_some _ nofun))
  | zrMul lhs rhs => exact withZr_answered (fun _ => withArg_answered (fun _ => answered_some _ nofun))
  | zrNeg self => exact withZr_answered (fun _ => answered_some _ nofun)
  | zrInt self => exact withZr_answered (fun _ => answered_some _ nofun)
  | zrPow lhs exp =>
    refine withZr_answered (fun z => ?_)
    cases exp with
    | none     => exact answered_some _ nofun
    | some exp => exact powAssign_answered z exp (fun _ => answered_some _ nofun)
  | zrSub lhs rhs => exact withZr_answered (fun _ => withArg_answered (fun _ => answered_some _ nofun))
  | zrEq self other =>
    cases other with
    | obj i   => exact withZr_answered (fun _ => withArg_answered (a := .obj i) (fun _ => answered_some _ nofun))
    | int n   => exact withZr_answered (fun _ => withArg_answered (a := .int n) (fun _ => answered_some _ nofun))
    | neither => exact withZr_answered (fun _ => answered_some _ nofun)
  | zrStr self => exact withZr_answered (fun _ => answered_some _ nofun)
  | gNew => exact answered_some _ nofun
  | gUniform bytes => exact answered_some _ nofun
  | gHashMany drawn => exact withMany_answered (fun _ => rfl) hc (fun _ => answered_some _ nofun)
  | gRand a bytes =>
    have hlen : ¬8 < a.length := hc
    dsimp only [step]
    rw [if_neg hlen]
    exact answered_some _ nofun
  | gOne self => exact withG_answered (fun _ _ => answered_some _ nofun)
  | gNegate self => exact withG_answered (fun _ _ => answered_some _ nofun)
  | gAddAssign self other => exact withG_answered (fun _ _ => withOtherG_answered (fun _ _ => answered_some _ nofun))
  | gSubAssign self other => exact withG_answered (fun _ _ => withOtherG_answered (fun _ _ => answered_some _ nofun))
  | gMulAssign self other => exact withG_answered (fun _ _ => withZr_answered (fun _ => answered_some _ nofun))
  | gEquals self other => exact withG_answered (fun _ _ => withG_answered (fun _ _ => answered_some _ nofun))
  | gCopy self other => exact withG_answered (fun _ _ => withOtherG_answered (fun _ _ => answered_some _ nofun))
  | gGetState self => exact withG_answered (fun _ _ => answered_some _ nofun)
  | gSetState self list =>
    refine withG_answered (fun _ _ => ?_)
    cases tryInto32 list with
    | none     => exact answered_some _ nofun
    | some arr =>
      have hdecompress : ideal.decompress arr = some (decoded arr) := rfl
      dsimp only
      rw [hdecompress]
      dsimp only [Option.bind_eq_bind, Option.bind_some]
      cases decoded arr <;> exact answered_some _ nofun
  | gPreprocess self level =>
    refine withG_answered (fun o _ => ?_)
    split
    · exact answered_some _ nofun
    obtain ⟨o', ho'⟩ := exists_preprocess o (fun hp => hc ⟨Nat.lt_of_not_le ‹_›, hp⟩)
    rw [ho']
    exact answered_some _ nofun
  | gPpmul self prodend out =>
    refine withG_answered (fun o ho => withZr_answered (fun z => withOtherG_answered (fun o' _ => ?_)))
    obtain ⟨x, hx⟩ := exists_ppmul (not_not.1 fun hne => hc ⟨o, ho, hne⟩) z o'
    rw [hx]
    exact answered_some _ nofun
  | gGetPplevel self => exact withG_answered (fun _ _ => answered_some _ nofun)
  | gPow self rhs =>
    refine withG_answered (fun o ho => withArg_answered (fun z => ?_))
    obtain ⟨x, hx⟩ := exists_ppmul (not_not.1 fun hne => hc ⟨o, ho, hne⟩) z ⟨ideal.identity, [], 0⟩
    rw [hx]
    exact answered_some _ nofun
  | gMul lhs rhs => exact withG_answered (fun _ _ => withG_answered (fun _ _ => answered_some _ nofun))
  | gImul self other => exact withG_answered (fun _ _ => withOtherG_answered (fun _ _ => answered_some _ nofun))
  | gTruediv lhs rhs => exact withG_answered (fun _ _ => withG_answered (fun _ _ => answered_some _ nofun))
  | gEq self other => exact withG_answered (fun _ _ => withG_answered (fun _ _ => answered_some _ nofun))
  | gStr self => exact withG_answered (fun _ _ => answered_some _ nofun)
  | hashcurve25519zrs a => exact withZrs_answered (fun _ _ => answered_some _ nofun)
  | hashcurve25519gs a =>
    refine withGs_answered (fun os _ => ?_)
    rw [mapM_compress]
    exact answered_some _ nofun
  | hashcurve25519gsbn a =>
    refine withGs_answered (fun os hos => ?_)
    have hbatch : ideal.doubleAndCompressBatch (os.map PpObj.elem) =
        some ((os.map PpObj.elem).map fun g => encoding (g + g)) := by
      refine if_neg (fun h0 => ?_)
      obtain ⟨o, ho, helem⟩ := List.mem_map.1 h0
      obtain ⟨i, hi, hio⟩ := exists_of_mem_mapM hos o ho
      refine hc ⟨i, hi, o, hio, ?_⟩
      classical
      exact congrArg some (decide_eq_true helem)
    rw [hbatch]
    exact answered_some _ nofun
  | curve25519dotprod a b =>
    refine withZrs_answered (fun zs _ => withZrs_answered (fun ws _ => ?_))
    obtain ⟨z, hz⟩ := exists_dotprod (zs.zip ws)
    rw [hz]
    exact answered_some _ nofun
  | curve25519multiexp gs zrs =>
    refine withGs_answered (fun os hos => withZrs_answered (fun zs hzs => ?_))
    have hlen : zs.length = (os.map PpObj.elem).length := by
      rw [List.length_map, length_of_mapM hos, length_of_mapM hzs, List.length_map, List.length_map]
    have hmul : ideal.vartimeMultiscalarMul zs (os.map PpObj.elem) =
        some ((zs.zip (os.map PpObj.elem)).map fun zg => zg.1.val • zg.2).sum := if_pos hlen
    rw [hmul]
    exact answered_some _ nofun

/-! ## Over the vendored curve -/

/-- What a call needs is the same on both sides. -/
theorem mayPanic_of_rel {s : RistState Scalar RistrettoPoint} (hst : StateRel IsZr IsG s t) {c : RistCall}
    (hc : MayPanic ideal t c) : MayPanic dalek s c := by
  have htable : ∀ {i : Nat}, (∃ p, t.gs[i]? = some p ∧ p.pp ≠ []) → ∃ o, s.gs[i]? = some o ∧ o.pp ≠ [] := by
    rintro i ⟨p, hp, hne⟩
    obtain ⟨o, ho, hrel⟩ := Lockstep.exists_left hst.gs hp
    refine ⟨o, ho, fun hnil => hne ?_⟩
    have hpp := hrel.pp
    rw [hnil] at hpp
    exact List.forall₂_nil_left_iff.1 hpp
  cases c with
  | zrNew s1 =>
    cases s1 with
    | none    => exact hc
    | some s1 => cases s1 <;> exact hc
  | gPpmul self prodend out => exact htable hc
  | gPow self rhs => exact htable hc
  | hashcurve25519gsbn a =>
    obtain ⟨i, hi, p, hp, hid⟩ := hc
    obtain ⟨o, ho, hrel⟩ := Lockstep.exists_left hst.gs hp
    exact ⟨i, hi, o, ho, (dalek_sim.equal hrel.elem dalek_sim.identity).trans hid⟩
  | _ => exact hc

theorem step_answered (calls : List RistCall) {c : RistCall} (hc : ¬MayPanic dalek (run dalek calls).1 c) :
    Answered (step dalek (run dalek calls).1 c) := by
  have hst := (run_rel dalek_sim calls).1
  obtain ⟨t', r, hb, hr⟩ := step_ideal_answered c (fun hp => hc (mayPanic_of_rel hst hp))
  have hrel := step_rel hst dalek_sim c
  rw [hb] at hrel
  obtain ⟨⟨s', r'⟩, ha, -, rfl⟩ := Lockstep.some_right hrel
  exact ⟨s', r', ha, hr⟩

/-- **A process never panics** whose calls keep clear of these, each in the state it is made in. -/
theorem run_answered : ∀ calls : List RistCall, (∀ pre c post, calls = pre ++ c :: post →
    ¬MayPanic dalek (run dalek pre).1 c) → Reply.panicked ∉ (run dalek calls).2 := by
  intro calls
  induction calls using List.reverseRecOn with
  | nil => exact fun _ => List.not_mem_nil
  | append_singleton calls c ih =>
    intro h hmem
    obtain ⟨s', r, hstep, hr⟩ := step_answered calls (h calls c [] rfl)
    rw [run_concat, next, hstep] at hmem
    rcases List.mem_append.1 hmem with hmem | hmem
    · exact ih (fun pre c' post heq => h pre c' (post ++ [c]) (by rw [heq, List.append_assoc]; rfl)) hmem
    · exact hr (List.mem_singleton.1 hmem).symm

/-- The basepoint is hashed in a batch, and multiplied without a table before it gets one. -/
theorem run_answered_basepoint : Reply.panicked ∉ (run dalek [.gNew, .gSetState 0 basepointBytes, .hashcurve25519gsbn [0],
    .gPow 0 (.int 7), .gPreprocess 0 5]).2 := by
  refine run_answered _ (fun pre c post heq => ?_)
  rcases pre with _ | ⟨_, _ | ⟨_, _ | ⟨_, _ | ⟨_, _ | ⟨_, pre⟩⟩⟩⟩⟩ <;>
    simp only [List.nil_append, List.cons_append, List.cons.injEq, List.nil_eq, List.append_eq_nil_iff, reduceCtorEq,
      and_false] at heq
  · obtain ⟨rfl, -⟩ := heq
    exact id
  · obtain ⟨-, rfl, -⟩ := heq
    exact id
  · obtain ⟨rfl, rfl, rfl, -⟩ := heq
    have hne : ((run dalek [.gNew, .gSetState 0 basepointBytes]).1.gs[0]?.bind fun o => dalek.equal o.elem dalek.identity) =
        some false := by decide +kernel
    rintro ⟨i, hi, o, ho, hid⟩
    obtain rfl := List.mem_singleton.1 hi
    rw [ho, Option.bind_some, hid] at hne
    cases hne
  · obtain ⟨rfl, rfl, rfl, rfl, -⟩ := heq
    have hnil : (run dalek [.gNew, .gSetState 0 basepointBytes, .hashcurve25519gsbn [0]]).1.gs[0]?.map (·.pp.length) = some 0 := by
      decide +kernel
    rintro ⟨o, ho, hne⟩
    rw [ho, Option.map_some, Option.some_inj] at hnil
    exact hne (List.eq_nil_of_length_eq_zero hnil)
  · obtain ⟨-, -, -, -, rfl, -⟩ := heq
    rintro ⟨-, hpanics⟩
    revert hpanics
    decide

end Rist
end Pairing
end Dpid
