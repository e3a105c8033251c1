import Mathlib.Algebra.BigOperators.Group.List.Lemmas
import Mathlib.Algebra.Field.Basic
import Mathlib.Tactic.FieldSimp
/-!
# BatchInversion — many inverses by one

The products before every element are kept on the way forward; on the way back, the inverse of the product so far gives
the inverse of the last element and the inverse of the product before it.
-/
namespace BatchInversion

variable {F : Type} [Field F]

/-- The products before every element of a list that starts from `a`. -/
def products : F → List F → List F
  | _, []      => []
  | a, e :: es => a :: products (a * e) es

/-- The pairs of an element and the product before it, from the last on; `c` is the product of all. -/
def Downward : F → List (F × F) → Prop
  | _, []              => True
  | c, (e, s) :: pairs => e ≠ 0 ∧ s ≠ 0 ∧ c = s * e ∧ Downward s pairs

theorem downward_products : ∀ {es : List F} {a c : F} {tail : List (F × F)}, a ≠ 0 → (∀ e ∈ es, e ≠ 0) →
    c = a * es.prod → Downward a tail → Downward c ((es.zip (products a es)).reverse ++ tail)
  | [], a, c, tail, _, _, hc, htail         => by
    rw [List.prod_nil, mul_one] at hc
    rwa [hc]
  | e :: es, a, c, tail, ha, hes, hc, htail => by
    have he := hes e List.mem_cons_self
    rw [products, List.zip_cons_cons, List.reverse_cons, List.append_assoc, List.singleton_append]
    refine downward_products (mul_ne_zero ha he) (fun d hd => hes d (List.mem_cons_of_mem e hd)) ?_ ⟨he, ha, rfl, htail⟩
    rw [hc, List.prod_cons, mul_assoc]

theorem length_products : ∀ (es : List F) (a : F), (products a es).length = es.length
  | [], _      => rfl
  | e :: es, a => by rw [products, List.length_cons, List.length_cons, length_products es]

/-- The inverse of an element, by the inverse of the product up to it and the product before it. -/
theorem Downward.inv_mul_product {c e s : F} {pairs : List (F × F)} (h : Downward c ((e, s) :: pairs)) : c⁻¹ * s = e⁻¹ := by
  obtain ⟨he, hs, hc, _⟩ := h
  rw [hc]
  field_simp

/-- The inverse of the product before an element. -/
theorem Downward.inv_mul_element {c e s : F} {pairs : List (F × F)} (h : Downward c ((e, s) :: pairs)) : c⁻¹ * e = s⁻¹ := by
  obtain ⟨he, hs, hc, _⟩ := h
  rw [hc]
  field_simp

/-- The elements' inverses, found from the last on. -/
theorem map_inv_zip_products (es : List F) :
    es.map (·⁻¹) = ((es.zip (products 1 es)).reverse.map (fun p => p.1⁻¹)).reverse := by
  have hfst : (es.zip (products 1 es)).map Prod.fst = es := List.map_fst_zip (length_products es 1).ge
  rw [List.map_reverse, List.reverse_reverse]
  conv_lhs => rw [← hfst, List.map_map]
  rfl

end BatchInversion
