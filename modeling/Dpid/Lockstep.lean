import Dpid.Checked
/-!
# Lockstep — two computations side by side

Two computations are in lock step if both fail, or both return and their results are related (`Option.Rel`); where a failure
has a value, these are related too (`Outcome`).  The rules follow the computations, one round of a loop or one element of a
list at a time.
-/
namespace Lockstep

variable {α β γ δ σ τ : Type} {R : α → β → Prop} {S : σ → τ → Prop}

theorem ret {a : α} {b : β} (h : R a b) : Option.Rel R (pure a) (pure b) := Option.Rel.some h

/-- **One computation after the other.** -/
theorem bind {m : Option α} {n : Option β} {f : α → Option σ} {g : β → Option τ} (h : Option.Rel R m n)
    (hf : ∀ a b, R a b → Option.Rel S (f a) (g b)) : Option.Rel S (m >>= f) (n >>= g) := by
  cases h with
  | none   => exact Option.Rel.none
  | some h => exact hf _ _ h

theorem map {m : Option α} {n : Option β} {f : α → σ} {g : β → τ} (h : Option.Rel R m n) (hf : ∀ a b, R a b → S (f a) (g b)) :
    Option.Rel S (m.map f) (n.map g) := by
  cases h with
  | none   => exact Option.Rel.none
  | some h => exact Option.Rel.some (hf _ _ h)

/-- A computation that returns, beside its result. -/
theorem of_returns {m : Option α} {b : β} (h : Checked.Returns m (R · b)) : Option.Rel R m (some b) := by
  obtain ⟨a, rfl, hR⟩ := h
  exact Option.Rel.some hR

/-- Where one side returns, so does the other. -/
theorem some_left {a : α} {n : Option β} (h : Option.Rel R (some a) n) : ∃ b, n = some b ∧ R a b := by
  cases h with
  | some h => exact ⟨_, rfl, h⟩

theorem some_right {m : Option α} {b : β} (h : Option.Rel R m (some b)) : ∃ a, m = some a ∧ R a b := by
  cases h with
  | some h => exact ⟨_, rfl, h⟩

/-- The same computation. -/
theorem refl {m : Option α} : Option.Rel (· = ·) m m := by
  cases m with
  | none   => exact Option.Rel.none
  | some a => exact Option.Rel.some rfl

/-! ## Failures with a value -/

/-- Both fail or both return, with related values. -/
inductive Outcome (R : α → β → Prop) (S : σ → τ → Prop) : Except α σ → Except β τ → Prop where
  | error {a b} (h : R a b) : Outcome R S (.error a) (.error b)
  | ok {x y} (h : S x y) : Outcome R S (.ok x) (.ok y)

namespace Outcome

theorem bind {T : γ → δ → Prop} {m : Except α σ} {n : Except β τ} {f : σ → Except α γ} {g : τ → Except β δ} (h : Outcome R S m n)
    (hf : ∀ x y, S x y → Outcome R T (f x) (g y)) : Outcome R T (m >>= f) (n >>= g) := by
  cases h with
  | error h => exact error h
  | ok h    => exact hf _ _ h

theorem toOption {m : Except α σ} {n : Except β τ} (h : Outcome R S m n) : Option.Rel S m.toOption n.toOption := by
  cases h with
  | error _ => exact Option.Rel.none
  | ok h    => exact Option.Rel.some h

end Outcome

/-! ## Lists -/

theorem foldlM {f : σ → α → Option σ} {g : τ → β → Option τ} (hf : ∀ s t a b, S s t → R a b → Option.Rel S (f s a) (g t b)) :
    ∀ {as : List α} {bs : List β} {s : σ} {t : τ}, List.Forall₂ R as bs → S s t → Option.Rel S (as.foldlM f s) (bs.foldlM g t)
  | [], [], _, _, List.Forall₂.nil, hs                  => ret hs
  | a :: as, b :: bs, s, t, List.Forall₂.cons h hr, hs => by
    rw [List.foldlM_cons, List.foldlM_cons]
    exact bind (hf s t a b hs h) (fun _ _ hs' => foldlM hf hr hs')

/-- The same list on both sides. -/
theorem foldlM_same {ι : Type} {f : σ → ι → Option σ} {g : τ → ι → Option τ} (hf : ∀ s t i, S s t → Option.Rel S (f s i) (g t i))
    (l : List ι) {s : σ} {t : τ} (hs : S s t) : Option.Rel S (l.foldlM f s) (l.foldlM g t) :=
  foldlM (R := (· = ·)) (fun s t i _ hs hij => hij ▸ hf s t i hs) (List.forall₂_refl l) hs

theorem mapM {f : α → Option σ} {g : β → Option τ} (hf : ∀ a b, R a b → Option.Rel S (f a) (g b)) :
    ∀ {as : List α} {bs : List β}, List.Forall₂ R as bs → Option.Rel (List.Forall₂ S) (as.mapM f) (bs.mapM g)
  | [], [], List.Forall₂.nil                    => ret List.Forall₂.nil
  | a :: as, b :: bs, List.Forall₂.cons h hr => by
    rw [List.mapM_cons, List.mapM_cons]
    exact bind (hf a b h) (fun _ _ hx => bind (mapM hf hr) (fun _ _ hxs => ret (List.Forall₂.cons hx hxs)))

theorem mapM_same {ι : Type} {f : ι → Option σ} {g : ι → Option τ} (hf : ∀ i, Option.Rel S (f i) (g i)) (l : List ι) :
    Option.Rel (List.Forall₂ S) (l.mapM f) (l.mapM g) :=
  mapM (R := (· = ·)) (fun i _ hij => hij ▸ hf i) (List.forall₂_refl l)

theorem getElem? : ∀ {as : List α} {bs : List β}, List.Forall₂ R as bs → ∀ i : Nat, Option.Rel R as[i]? bs[i]?
  | [], [], List.Forall₂.nil, _                     => Option.Rel.none
  | _ :: _, _ :: _, List.Forall₂.cons h _, 0        => Option.Rel.some h
  | _ :: as, _ :: bs, List.Forall₂.cons _ hr, i + 1 => by
    rw [List.getElem?_cons_succ, List.getElem?_cons_succ]
    exact getElem? hr i

/-- What stands beside an element. -/
theorem exists_right {as : List α} {bs : List β} (h : List.Forall₂ R as bs) {i : Nat} {a : α} (ha : as[i]? = some a) :
    ∃ b, bs[i]? = some b ∧ R a b := by
  have hrel := getElem? h i
  rw [ha] at hrel
  exact some_left hrel

theorem exists_left {as : List α} {bs : List β} (h : List.Forall₂ R as bs) {i : Nat} {b : β} (hb : bs[i]? = some b) :
    ∃ a, as[i]? = some a ∧ R a b := exists_right h.flip hb

theorem set {a : α} {b : β} (h : R a b) : ∀ {as : List α} {bs : List β}, List.Forall₂ R as bs → ∀ i : Nat,
    List.Forall₂ R (as.set i a) (bs.set i b)
  | [], [], List.Forall₂.nil, _                       => List.Forall₂.nil
  | _ :: _, _ :: _, List.Forall₂.cons _ hr, 0         => List.Forall₂.cons h hr
  | _ :: _, _ :: _, List.Forall₂.cons hx hr, i + 1    => List.Forall₂.cons hx (set h hr i)

theorem modify {f : α → α} {g : β → β} (hfg : ∀ a b, R a b → R (f a) (g b)) : ∀ {as : List α} {bs : List β},
    List.Forall₂ R as bs → ∀ i : Nat, List.Forall₂ R (as.modify i f) (bs.modify i g)
  | [], [], List.Forall₂.nil, 0                       => List.Forall₂.nil
  | [], [], List.Forall₂.nil, _ + 1                   => List.Forall₂.nil
  | _ :: _, _ :: _, List.Forall₂.cons h hr, 0         => List.Forall₂.cons (hfg _ _ h) hr
  | _ :: _, _ :: _, List.Forall₂.cons h hr, i + 1     => List.Forall₂.cons h (modify hfg hr i)

theorem append_singleton {as : List α} {bs : List β} (hr : List.Forall₂ R as bs) {a : α} {b : β} (h : R a b) :
    List.Forall₂ R (as ++ [a]) (bs ++ [b]) := List.rel_append hr (List.Forall₂.cons h List.Forall₂.nil)

theorem zip : ∀ {as : List α} {bs : List β} {cs : List σ} {ds : List τ}, List.Forall₂ R as bs → List.Forall₂ S cs ds →
    List.Forall₂ (fun x y => R x.1 y.1 ∧ S x.2 y.2) (as.zip cs) (bs.zip ds)
  | [], [], _, _, List.Forall₂.nil, _                                                           => List.Forall₂.nil
  | _ :: _, _ :: _, [], [], List.Forall₂.cons _ _, List.Forall₂.nil                             => List.Forall₂.nil
  | _ :: _, _ :: _, _ :: _, _ :: _, List.Forall₂.cons h hr, List.Forall₂.cons k ks =>
    List.Forall₂.cons ⟨h, k⟩ (zip hr ks)

end Lockstep
