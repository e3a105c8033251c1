import Mathlib.Data.Fintype.Card
import Mathlib.Data.Fintype.Basic
/-!
# Quorum — counting parties against a bounded set of bad ones
-/
namespace Quorum

theorem exists_good {ι : Type} {bad A : Finset ι} (h : bad.card < A.card) : ∃ p ∈ A, p ∉ bad := by
  obtain ⟨p, hp⟩ := Finset.exists_mem_notMem_of_card_lt_card h
  exact ⟨p, hp⟩

variable {ι : Type} [DecidableEq ι]

theorem card_le_good_add (bad A : Finset ι) : A.card ≤ (A.filter (· ∉ bad)).card + bad.card := by
  have hsplit := Finset.card_filter_add_card_filter_not (s := A) (p := (· ∉ bad))
  have hle : (A.filter (fun p => ¬ p ∉ bad)).card ≤ bad.card :=
    Finset.card_le_card (fun p hp => by simpa using (Finset.mem_filter.1 hp).2)
  omega

/-- **Two sets that together outnumber the bad ones and all that they are taken from share a good party.** -/
theorem exists_good_inter_of_subset (bad : Finset ι) {V A B : Finset ι} (hA : A ⊆ V) (hB : B ⊆ V)
    (h : V.card + bad.card < A.card + B.card) : ∃ p, p ∈ A ∧ p ∈ B ∧ p ∉ bad := by
  have hunion := Finset.card_union_add_card_inter A B
  have hle : (A ∪ B).card ≤ V.card := Finset.card_le_card (Finset.union_subset hA hB)
  obtain ⟨p, hp, hg⟩ := exists_good (show bad.card < (A ∩ B).card by omega)
  exact ⟨p, Finset.mem_of_mem_inter_left hp, Finset.mem_of_mem_inter_right hp, hg⟩

theorem exists_good_inter [Fintype ι] (bad : Finset ι) {A B : Finset ι} (h : Fintype.card ι + bad.card < A.card + B.card) :
    ∃ p, p ∈ A ∧ p ∈ B ∧ p ∉ bad :=
  exists_good_inter_of_subset bad (Finset.subset_univ A) (Finset.subset_univ B) h

theorem card_univ_le [Fintype ι] (bad : Finset ι) :
    Fintype.card ι ≤ (Finset.univ.filter (· ∉ bad)).card + bad.card := by
  simpa using card_le_good_add bad Finset.univ

end Quorum
