import Dpid.Buckets
import Dpid.Checked
/-!
# Places — many multiples at a time, from the highest digit down

The elements `n • x`, `n` by its signed digits, are added up a place at a time: the sum so far is multiplied by the base, and
the digits of the next place are added (`placesFrom_horner`).  `foldlM_sum` is the loop over one place.
-/
namespace Places

open Buckets Checked

section

variable {G : Type} [AddCommGroup G]

/-- A digit string and the element it counts. -/
abbrev Term (G : Type) := List Int × G

/-- The sum with the digits from the place `j` on. -/
def placesFrom (w : Nat) (terms : List (Term G)) (j : Nat) : G := (terms.map fun t => digitsVal w (t.1.drop j) • t.2).sum

/-- What the digits of one place add. -/
def placeSum (terms : List (Term G)) (j : Nat) : G := (terms.map fun t => t.1.getD j 0 • t.2).sum

theorem digitsVal_drop (w : Nat) {l : List Int} {j : Nat} (h : j < l.length) :
    digitsVal w (l.drop j) = l.getD j 0 + 2 ^ w * digitsVal w (l.drop (j + 1)) := by
  rw [List.drop_eq_getElem_cons h, digitsVal, List.getD_eq_getElem?_getD, List.getElem?_eq_getElem h, Option.getD_some]

/-- **One place more.** -/
theorem placesFrom_horner (w : Nat) {j : Nat} : ∀ terms : List (Term G), (∀ t ∈ terms, j < t.1.length) →
    2 ^ w • placesFrom w terms (j + 1) + placeSum terms j = placesFrom w terms j
  | [], _         => by
    rw [placesFrom, placesFrom, placeSum, List.map_nil, List.map_nil, List.map_nil, List.sum_nil, nsmul_zero, add_zero]
  | t :: terms, h => by
    have ih := placesFrom_horner w terms (fun u hu => h u (List.mem_cons_of_mem t hu))
    unfold placesFrom placeSum at ih ⊢
    rw [List.map_cons, List.map_cons, List.map_cons, List.sum_cons, List.sum_cons, List.sum_cons,
      digitsVal_drop w (h t List.mem_cons_self), add_zsmul, ← ih, nsmul_add, ← natCast_zsmul (_ • t.2), Nat.cast_pow,
      Nat.cast_ofNat, ← mul_zsmul', mul_comm (2 ^ w : Int)]
    abel

/-- No digits, no sum. -/
theorem placesFrom_eq_zero (w : Nat) {j : Nat} : ∀ {terms : List (Term G)},
    (∀ t ∈ terms, ∀ d ∈ t.1.drop j, d = 0) → placesFrom w terms j = 0
  | [], _         => rfl
  | t :: terms, h => by
    have hval : ∀ l : List Int, (∀ d ∈ l, d = 0) → digitsVal w l = 0 := by
      intro l
      induction l with
      | nil          => exact fun _ => rfl
      | cons d l ih =>
        intro hl
        rw [digitsVal, hl d List.mem_cons_self, ih (fun e he => hl e (List.mem_cons_of_mem d he)), mul_zero, add_zero]
    rw [placesFrom, List.map_cons, List.sum_cons, hval _ (h t List.mem_cons_self), zero_zsmul, zero_add]
    exact placesFrom_eq_zero w (fun u hu => h u (List.mem_cons_of_mem t hu))

/-- Above the digits there is nothing. -/
theorem placesFrom_length (w : Nat) {terms : List (Term G)} {n : Nat} (h : ∀ t ∈ terms, t.1.length = n) :
    placesFrom w terms n = 0 := by
  refine placesFrom_eq_zero w (fun t ht d hd => ?_)
  rw [List.drop_eq_nil_of_le (Nat.le_of_eq (h t ht))] at hd
  exact absurd hd List.not_mem_nil

/-- All the digits. -/
theorem placesFrom_zero (w : Nat) (terms : List (Term G)) :
    placesFrom w terms 0 = (terms.map fun t => digitsVal w t.1 • t.2).sum := rfl

end

theorem foldl_add_map {G κ : Type} [AddMonoid G] (term : κ → G) : ∀ (ks : List κ) (P : G),
    ks.foldl (fun P k => P + term k) P = P + (ks.map term).sum
  | [], P      => by rw [List.foldl_nil, List.map_nil, List.sum_nil, add_zero]
  | k :: ks, P => by rw [List.foldl_cons, foldl_add_map term ks, List.map_cons, List.sum_cons, add_assoc]

/-- **The loop over one place**: each round adds a term. -/
theorem foldlM_sum {G σ ι κ : Type} [AddMonoid G] {Of : G → σ → Prop} {R : κ → ι → Prop} {term : κ → G} {f : σ → ι → Option σ}
    (hstep : ∀ P s k x, R k x → Of P s → Returns (f s x) (Of (P + term k))) {ks : List κ} {xs : List ι}
    (h : List.Forall₂ R ks xs) {P : G} {s : σ} (hs : Of P s) : Returns (xs.foldlM f s) (Of (P + (ks.map term).sum)) := by
  rw [← foldl_add_map]
  exact Returns.foldlM_forall₂ hstep h hs

end Places
