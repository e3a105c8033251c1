import Mathlib
/-!
# Slots — counters and the senders behind them

A threshold is often kept by a bare counter, beside an array with a slot for each sender or a table of counts.  The
counter tells how many senders there are only while no sender is counted twice: `Tallied` for an array, a list of counted
messages without repetition for a table, `Counted` for a table beside the set of all senders.
-/
namespace Slots

variable {α : Type}

/-! ## An array and a counter -/

/-- The counter is the number of filled slots, and every slot holds what `R` asks for. -/
structure Tallied (N : ℕ) (R : ℕ → α → Prop) (slots : List (Option α)) (count : ℕ) : Prop where
  length : slots.length = N
  filled : slots.countP Option.isSome = count
  stored : ∀ k v, slots[k]? = some (some v) → R k v

section Tallied

variable {N : ℕ} {R R' : ℕ → α → Prop} {slots : List (Option α)} {count : ℕ}

theorem tallied_replicate (N : ℕ) (R : ℕ → α → Prop) : Tallied N R (List.replicate N none) 0 where
  length := List.length_replicate
  filled := by simp [List.countP_replicate]
  stored := by
    intro k v h
    rw [List.getElem?_replicate] at h
    split at h <;> cases h

theorem Tallied.mono (h : Tallied N R slots count) (hR : ∀ k v, R k v → R' k v) : Tallied N R' slots count :=
  ⟨h.length, h.filled, fun k v hv => hR k v (h.stored k v hv)⟩

/-- **Filling an empty slot counts one more sender.** -/
theorem Tallied.set (h : Tallied N R slots count) {k : ℕ} {v : α} (hk : slots[k]? = some none) (hR : R k v) :
    Tallied N R (slots.set k (some v)) (count + 1) where
  length := List.length_set.trans h.length
  filled := by
    obtain ⟨hlt, hnone⟩ := List.getElem?_eq_some_iff.1 hk
    rw [List.countP_set hlt, hnone, h.filled]
    simp
  stored := by
    intro j w hw
    rw [List.getElem?_set] at hw
    split at hw
    · rename_i hj
      split at hw
      · cases hw
        exact hj ▸ hR
      · cases hw
    · exact h.stored j w hw

/-- **The senders behind the counter.** -/
theorem Tallied.exists_senders (h : Tallied N R slots count) :
    ∃ S : Finset (Fin N), S.card = count ∧ ∀ q ∈ S, ∃ v, slots[(q : ℕ)]? = some (some v) ∧ R q v := by
  obtain ⟨rfl, rfl, hR⟩ := h
  refine ⟨Finset.univ.filter (fun q : Fin slots.length => slots[q].isSome), ?_, fun q hq => ?_⟩
  · conv_rhs => rw [← @List.ofFn_getElem _ slots]
    rw [List.ofFn_eq_map, List.countP_map, Fin.univ_def, Finset.card_def, Finset.filter_val]
    simp [List.countP_eq_length_filter, Function.comp_def]
  · obtain ⟨v, hv⟩ := Option.isSome_iff_exists.1 (Finset.mem_filter.1 hq).2
    have hget : slots[(q : ℕ)]? = some (some v) := (List.getElem?_eq_getElem q.isLt).trans (congrArg some hv)
    exact ⟨v, hget, hR q v hget⟩

end Tallied

/-! ## A table of counts -/

/-- **The senders of equal messages**: as many as are counted, if none is counted twice. -/
theorem exists_senders {ι M : Type} [DecidableEq ι] {l : List (ι × M)} (hl : l.Nodup) {m : M} (hm : ∀ x ∈ l, x.2 = m) :
    ∃ S : Finset ι, S.card = l.length ∧ ∀ q ∈ S, (q, m) ∈ l := by
  have hinj : ∀ x ∈ l, ∀ y ∈ l, x.1 = y.1 → x = y := fun x hx y hy h => Prod.ext h ((hm x hx).trans (hm y hy).symm)
  refine ⟨(l.map Prod.fst).toFinset, ?_, fun q hq => ?_⟩
  · rw [List.toFinset_card_of_nodup (hl.map_on hinj), List.length_map]
  · obtain ⟨x, hx, rfl⟩ := List.mem_map.1 (List.mem_toFinset.1 hq)
    exact hm x hx ▸ hx

/-! ## A table and the set of all senders -/

/-- `n` of the senders are such that `R`. -/
def Counted {ι : Type} (senders : Finset ι) (R : ι → Prop) (n : ℕ) : Prop :=
  ∃ S ⊆ senders, S.card = n ∧ ∀ q ∈ S, R q

section Counted

variable {ι : Type} {senders : Finset ι} {R R' : ι → Prop} {n : ℕ}

theorem counted_zero (senders : Finset ι) (R : ι → Prop) : Counted senders R 0 :=
  ⟨∅, Finset.empty_subset _, rfl, fun q hq => absurd hq (Finset.notMem_empty q)⟩

theorem Counted.mono (h : Counted senders R n) (hR : ∀ q, R q → R' q) : Counted senders R' n := by
  obtain ⟨S, hsub, hcard, hS⟩ := h
  exact ⟨S, hsub, hcard, fun q hq => hR q (hS q hq)⟩

variable [DecidableEq ι]

theorem Counted.skip (h : Counted senders R n) (q : ι) : Counted (insert q senders) R n := by
  obtain ⟨S, hsub, hcard, hS⟩ := h
  exact ⟨S, hsub.trans (Finset.subset_insert _ _), hcard, hS⟩

/-- **One more sender, counted.** -/
theorem Counted.insert (h : Counted senders R n) {q : ι} (hq : q ∉ senders) (hR : R q) :
    Counted (insert q senders) R (n + 1) := by
  obtain ⟨S, hsub, hcard, hS⟩ := h
  refine ⟨Insert.insert q S, Finset.insert_subset_insert _ hsub, ?_, fun q' hq' => ?_⟩
  · rw [Finset.card_insert_of_notMem (fun hmem => hq (hsub hmem)), hcard]
  · rcases Finset.mem_insert.1 hq' with rfl | hq'
    · exact hR
    · exact hS q' hq'

end Counted

end Slots
