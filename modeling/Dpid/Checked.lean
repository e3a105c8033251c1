import Mathlib.Algebra.Group.Nat.Defs
import Mathlib.Data.List.Forall2
/-!
# Checked — machine words that may overflow

A computation on machine words is an `Option`: it is `none` where a word overflows or an assertion fails.  `Returns` says
that it returns and what holds of its result, and its rules follow the computation.
-/
namespace Checked

variable {α β σ : Type}

/-! ## Computations that return -/

/-- It returns, with a result that satisfies `R`. -/
def Returns (m : Option α) (R : α → Prop) : Prop := ∃ a, m = some a ∧ R a

namespace Returns

variable {m : Option α} {R Q : α → Prop}

theorem ret {a : α} (h : R a) : Returns (pure a) R := ⟨a, rfl, h⟩

theorem mono (h : Returns m R) (hRQ : ∀ a, R a → Q a) : Returns m Q := by
  obtain ⟨a, ha, hR⟩ := h
  exact ⟨a, ha, hRQ a hR⟩

/-- **One computation after the other.** -/
theorem bind {f : α → Option β} {Q : β → Prop} (h : Returns m R) (hf : ∀ a, R a → Returns (f a) Q) :
    Returns (m >>= f) Q := by
  obtain ⟨a, rfl, hR⟩ := h
  exact hf a hR

theorem map {f : α → β} {Q : β → Prop} (h : Returns m R) (hf : ∀ a, R a → Q (f a)) : Returns (m.map f) Q := by
  obtain ⟨a, rfl, hR⟩ := h
  exact ⟨f a, rfl, hf a hR⟩

/-- **A loop over a list** keeps what each of its rounds keeps. -/
theorem foldlM {f : σ → α → Option σ} {I : List α → σ → Prop} :
    ∀ (l done : List α) (s : σ), (∀ pre x s, x ∈ l → I pre s → Returns (f s x) (I (pre ++ [x]))) → I done s →
      Returns (l.foldlM f s) (I (done ++ l))
  | [], done, s, _, hs         => by simpa using Returns.ret hs
  | x :: l, done, s, hstep, hs => by
    rw [List.foldlM_cons]
    refine (hstep done x s List.mem_cons_self hs).bind (fun s' hs' => ?_)
    have hrest := foldlM l (done ++ [x]) s' (fun pre y s hy => hstep pre y s (List.mem_cons_of_mem x hy)) hs'
    rwa [List.append_assoc, List.singleton_append] at hrest

/-- **The same computation on every element.** -/
theorem mapM {f : α → Option β} {R : α → β → Prop} :
    ∀ l : List α, (∀ x ∈ l, Returns (f x) (R x)) → Returns (l.mapM f) (List.Forall₂ R l)
  | [], _     => Returns.ret List.Forall₂.nil
  | x :: l, h => by
    rw [List.mapM_cons]
    refine (h x List.mem_cons_self).bind (fun y hy => ?_)
    refine (mapM l (fun z hz => h z (List.mem_cons_of_mem x hz))).bind (fun ys hys => ?_)
    exact Returns.ret (List.Forall₂.cons hy hys)

theorem mapM_forall₂ {γ : Type} {f : α → Option β} {R : γ → α → Prop} {Q : γ → β → Prop}
    (hf : ∀ k x, R k x → Returns (f x) (Q k)) : ∀ {ks : List γ} {xs : List α}, List.Forall₂ R ks xs →
      Returns (xs.mapM f) (List.Forall₂ Q ks)
  | [], [], List.Forall₂.nil                    => Returns.ret List.Forall₂.nil
  | _ :: _, x :: xs, List.Forall₂.cons hx hrest => by
    rw [List.mapM_cons]
    refine (hf _ x hx).bind (fun y hy => ?_)
    refine (mapM_forall₂ hf hrest).bind (fun ys hys => ?_)
    exact Returns.ret (List.Forall₂.cons hy hys)

/-- **A loop that does, on what stands for the elements, what a fold does on them.** -/
theorem foldlM_forall₂ {γ τ : Type} {f : σ → α → Option σ} {F : τ → γ → τ} {S : τ → σ → Prop} {R : γ → α → Prop}
    (hf : ∀ t s k x, R k x → S t s → Returns (f s x) (S (F t k))) : ∀ {ks : List γ} {xs : List α}, List.Forall₂ R ks xs →
      ∀ {t : τ} {s : σ}, S t s → Returns (xs.foldlM f s) (S (ks.foldl F t))
  | [], [], List.Forall₂.nil, _, _, hs                      => Returns.ret hs
  | k :: _, x :: _, List.Forall₂.cons hx hrest, t, s, hs => by
    rw [List.foldlM_cons, List.foldl_cons]
    exact (hf t s k x hx hs).bind (fun _ hs' => foldlM_forall₂ hf hrest hs')

end Returns

/-- `for i in (0..n).rev()`. -/
def forRev (f : Nat → σ → Option σ) : Nat → σ → Option σ
  | 0, s     => some s
  | i + 1, s => f i s >>= forRev f i

/-- **A loop downwards** keeps what each of its rounds keeps. -/
theorem Returns.forRev {f : Nat → σ → Option σ} {I : Nat → σ → Prop} : ∀ {n : Nat} {s : σ},
    (∀ i s, i < n → I (i + 1) s → Returns (f i s) (I i)) → I n s → Returns (forRev f n s) (I 0)
  | 0, _, _, hs         => Returns.ret hs
  | n + 1, s, hstep, hs => (hstep n s (Nat.lt_succ_self n) hs).bind (fun _ hs' =>
    Returns.forRev (fun i s hi => hstep i s (Nat.lt_succ_of_lt hi)) hs')

/-! ## Lists, element by element -/

theorem forall₂_mem_right {R : α → β → Prop} {l : List α} {l' : List β} (h : List.Forall₂ R l l') {y : β} (hy : y ∈ l') :
    ∃ x ∈ l, R x y := by
  induction h with
  | nil => exact absurd hy List.not_mem_nil
  | cons hR _ ih =>
    rcases List.mem_cons.1 hy with rfl | hy
    · exact ⟨_, List.mem_cons_self, hR⟩
    · obtain ⟨x, hx, hR⟩ := ih hy
      exact ⟨x, List.mem_cons_of_mem _ hx, hR⟩

theorem forall₂_mem_left {R : α → β → Prop} {l : List α} {l' : List β} (h : List.Forall₂ R l l') {x : α} (hx : x ∈ l) :
    ∃ y ∈ l', R x y := forall₂_mem_right h.flip hx

theorem forall₂_zip_right {γ : Type} {R : α → β → Prop} {S : β → γ → Prop} : ∀ {as : List α} {bs : List β} {cs : List γ},
    List.Forall₂ R as bs → List.Forall₂ S bs cs → List.Forall₂ (fun a z => R a z.1 ∧ S z.1 z.2) as (bs.zip cs)
  | [], [], [], _, _                                                                 => List.Forall₂.nil
  | _ :: _, _ :: _, _ :: _, List.Forall₂.cons h hs, List.Forall₂.cons k ks =>
    List.Forall₂.cons ⟨h, k⟩ (forall₂_zip_right hs ks)

/-! ## Words -/

/-- A number where a word of `w` bits is due. -/
def word (w n : Nat) : Option Nat := if n < 2 ^ w then some n else none

def u64 (n : Nat) : Option Nat := word 64 n

def u128 (n : Nat) : Option Nat := word 128 n

/-- The difference of two words. -/
def sub (a b : Nat) : Option Nat := if b ≤ a then some (a - b) else none

theorem word_bind {w n : Nat} {f : Nat → Option α} {Q : α → Prop} (h : n < 2 ^ w) (hf : Returns (f n) Q) :
    Returns (word w n >>= f) Q := by
  rw [word, if_pos h]
  exact hf

theorem u64_bind {n : Nat} {f : Nat → Option α} {Q : α → Prop} (h : n < 2 ^ 64) (hf : Returns (f n) Q) :
    Returns (u64 n >>= f) Q := word_bind h hf

theorem u128_bind {n : Nat} {f : Nat → Option α} {Q : α → Prop} (h : n < 2 ^ 128) (hf : Returns (f n) Q) :
    Returns (u128 n >>= f) Q := word_bind h hf

theorem sub_bind {a b : Nat} {f : Nat → Option α} {Q : α → Prop} (h : b ≤ a) (hf : Returns (f (a - b)) Q) :
    Returns (sub a b >>= f) Q := by
  rw [sub, if_pos h]
  exact hf

/-- An assertion that holds. -/
theorem guard_bind {P : Prop} [Decidable P] {f : Unit → Option α} {Q : α → Prop} (h : P) (hf : Returns (f ()) Q) :
    Returns ((guard P : Option Unit) >>= f) Q := by
  have hg : (guard P : Option Unit) = some () := if_pos h
  rw [hg]
  exact hf

end Checked
