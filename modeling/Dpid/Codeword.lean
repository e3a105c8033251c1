import Dpid.Coding
import Mathlib
/-!
# Codeword — every `K` stripes of one length lie on a codeword

A code whose stripes are as long as its blocks has no more words than there are choices of `K` stripes at given
positions.  As any `K` stripes give the blocks back, every such choice is taken (`exists_word`), so `decode` raises on
no `K` stripes of one length, unless that is zero, and what it gives is told by the codeword on which the `K` lowest
numbered stripes lie (`exists_reads`, `decode_of_reads`).
-/
namespace Dpid

/-- The stripes are as long as the blocks. -/
def Zfec.SameLength (z : Zfec) (K N : Nat) : Prop :=
  ∀ bl L stripes, bl.length = K → (∀ b ∈ bl, b.length = L) → z.encode K N bl = some stripes → ∀ b ∈ stripes, b.length = L

/-- `stripes` is the codeword of `bl`, `K` blocks of length `L`. -/
structure IsWord (z : Zfec) (K N L : Nat) (bl stripes : List Bytes) : Prop where
  count : bl.length = K
  width : ∀ b ∈ bl, b.length = L
  coded : z.encode K N bl = some stripes

/-! ## Counting words -/

instance finiteByte : Finite UInt8 := Finite.of_injective UInt8.toFin (fun _ _ h => UInt8.toFin_inj.1 h)

/-- `K` byte strings of length `L`. -/
abbrev Block (K L : Nat) : Type := {bl : List Bytes // bl.length = K ∧ ∀ b ∈ bl, b.length = L}

instance finiteBlock (K L : Nat) : Finite (Block K L) := by
  have hbyte : Finite {b : Bytes // b.length = L} := (List.finite_length_eq UInt8 L).to_subtype
  have himage := (List.finite_length_eq {b : Bytes // b.length = L} K).image (List.map Subtype.val)
  refine (himage.subset (fun bl hbl => ?_)).to_subtype
  refine ⟨bl.attachWith _ hbl.2, ?_, by simp⟩
  simpa using hbl.1

variable {z : Zfec} {K N L : Nat}

theorem length_filterMap_getElem? {stripes : List Bytes} {nums : List Nat} (h : ∀ i ∈ nums, i < stripes.length) :
    (nums.filterMap (stripes[·]?)).length = nums.length := by
  induction nums with
  | nil => rfl
  | cons i nums ih =>
    rw [List.filterMap_cons, List.getElem?_eq_getElem (h i List.mem_cons_self), List.length_cons, List.length_cons,
      ih (fun j hj => h j (List.mem_cons_of_mem _ hj))]

theorem getElem?_of_filterMap {stripes : List Bytes} : ∀ {l : List (Nat × Bytes)}, (∀ p ∈ l, p.1 < stripes.length) →
    (l.map Prod.fst).filterMap (stripes[·]?) = l.map Prod.snd → ∀ p ∈ l, stripes[p.1]? = some p.2
  | [], _, _, p, hp    => absurd hp List.not_mem_nil
  | a :: l, hlt, h, p, hp => by
    have ha := List.getElem?_eq_getElem (hlt a List.mem_cons_self)
    rw [List.map_cons, List.map_cons, List.filterMap_cons, ha, List.cons.injEq] at h
    rcases List.mem_cons.1 hp with rfl | hp
    · rw [ha, h.1]
    · exact getElem?_of_filterMap (fun q hq => hlt q (List.mem_cons_of_mem _ hq)) h.2 p hp

/-- **Every `K` stripes of length `L` lie on a codeword**: the map from blocks to the stripes at `K` positions is
one-to-one between finite sets of one size. -/
theorem exists_word (hz : z.IsMds K N) (hl : z.SameLength K N) {nums : List Nat} (hn : nums.length = K)
    (hnd : nums.Nodup) (hlt : ∀ i ∈ nums, i < N) {got : List Bytes} (hg : got.length = K)
    (hL : ∀ b ∈ got, b.length = L) :
    ∃ bl stripes, IsWord z K N L bl stripes ∧ nums.filterMap (stripes[·]?) = got := by
  have hcode : ∀ w : Block K L, ∃ stripes, z.encode K N w.1 = some stripes ∧ stripes.length = N :=
    fun w => hz.encode_isSome w.1 L w.2.1 w.2.2
  choose code hcoded hlen using hcode
  let part : Block K L → Block K L := fun w => ⟨nums.filterMap ((code w)[·]?), by
    rw [length_filterMap_getElem? (fun i hi => by rw [hlen]; exact hlt i hi), hn], fun b hb => by
    obtain ⟨i, -, hb⟩ := List.mem_filterMap.1 hb
    exact hl w.1 L _ w.2.1 w.2.2 (hcoded w) b (List.mem_of_getElem? hb)⟩
  have hinj : Function.Injective part := by
    intro w w' h
    have hdec := hz.decode_encode w.1 L _ nums w.2.1 w.2.2 (hcoded w) hn hnd hlt
    have hdec' := hz.decode_encode w'.1 L _ nums w'.2.1 w'.2.2 (hcoded w') hn hnd hlt
    have hpart : nums.filterMap ((code w)[·]?) = nums.filterMap ((code w')[·]?) := congrArg Subtype.val h
    rw [hpart, hdec'] at hdec
    exact Subtype.ext (Option.some.inj hdec).symm
  obtain ⟨w, hw⟩ := (Finite.injective_iff_surjective.1 hinj) ⟨got, hg, hL⟩
  exact ⟨w.1, code w, ⟨w.2.1, w.2.2, hcoded w⟩, congrArg Subtype.val hw⟩

/-! ## Stripes at their places -/

/-- The list of `N` slots with the stripes `P` at their places. -/
def place {N : Nat} (P : List (Fin N × Bytes)) : List (Option Bytes) :=
  P.foldl (fun slots x => slots.set x.1 (some x.2)) (List.replicate N none)

/-- The stripes of `P` with fewer than `K` lower numbered ones. -/
def lowest {N : Nat} (K : Nat) (P : List (Fin N × Bytes)) : List (Fin N × Bytes) :=
  P.filter (fun x => P.countP (fun y => decide (y.1 < x.1)) < K)

/-- The `K` lowest numbered stripes of `P` lie on the codeword of blocks from which `m` is cut. -/
def Reads (z : Zfec) {N : Nat} (K : Nat) (P : List (Fin N × Bytes)) (m : Bytes) : Prop :=
  ∃ L bl stripes, IsWord z K N L bl stripes ∧ (∀ x ∈ lowest K P, stripes[(x.1 : Nat)]? = some x.2) ∧
    unpad K bl.flatten = .ok m

theorem place_concat (P : List (Fin N × Bytes)) (x : Fin N × Bytes) :
    place (P ++ [x]) = (place P).set x.1 (some x.2) := by
  rw [place, List.foldl_append]
  rfl

theorem place_length (P : List (Fin N × Bytes)) : (place P).length = N := by
  induction P using List.reverseRecOn with
  | nil => exact List.length_replicate
  | append_singleton P x ih => rw [place_concat, List.length_set, ih]

theorem mem_place {P : List (Fin N × Bytes)} (hnd : (P.map Prod.fst).Nodup) (i : Nat) (b : Bytes) :
    (place P)[i]? = some (some b) ↔ ∃ x ∈ P, (x.1 : Nat) = i ∧ x.2 = b := by
  induction P using List.reverseRecOn with
  | nil => simp [place, List.getElem?_replicate]
  | append_singleton P x ih =>
    rw [List.map_append, List.map_singleton] at hnd
    have hx : x.1 ∉ P.map Prod.fst := fun h => (List.nodup_append.1 hnd).2.2 _ h _ (List.mem_singleton_self _) rfl
    rw [place_concat, List.getElem?_set, place_length]
    by_cases hi : (x.1 : Nat) = i
    · rw [if_pos hi, if_pos (hi ▸ x.1.isLt)]
      constructor
      · intro h
        exact ⟨x, by simp, hi, Option.some.inj (Option.some.inj h)⟩
      · rintro ⟨y, hy, hyi, rfl⟩
        rcases List.mem_append.1 hy with hy | hy
        · exact absurd (List.mem_map.2 ⟨y, hy, Fin.ext (hyi.trans hi.symm)⟩) hx
        · rw [List.mem_singleton.1 hy]
    · rw [if_neg hi, ih (List.nodup_append.1 hnd).1]
      constructor
      · rintro ⟨y, hy, h⟩
        exact ⟨y, List.mem_append_left _ hy, h⟩
      · rintro ⟨y, hy, h⟩
        rcases List.mem_append.1 hy with hy | hy
        · exact ⟨y, hy, h⟩
        · exact absurd (List.mem_singleton.1 hy ▸ h.1) hi

theorem present_place_perm {P : List (Fin N × Bytes)} (hnd : (P.map Prod.fst).Nodup) :
    (present 0 (place P)).Perm (P.map (fun x => ((x.1 : Nat), x.2))) := by
  have hP : (P.map (fun x => ((x.1 : Nat), x.2))).Nodup := by
    refine List.Nodup.of_map Prod.fst ?_
    rw [List.map_map, show (Prod.fst ∘ fun x : Fin N × Bytes => ((x.1 : Nat), x.2)) = Fin.val ∘ Prod.fst from rfl,
      ← List.map_map]
    exact hnd.map Fin.val_injective
  have hpresent : (present 0 (place P)).Nodup :=
    List.Nodup.of_map Prod.fst ((present_sorted (place P) 0).imp (fun h => Nat.ne_of_lt h))
  rw [List.perm_ext_iff_of_nodup hpresent hP]
  rintro ⟨i, b⟩
  rw [mem_present, Nat.sub_zero, mem_place hnd, List.mem_map]
  simp

/-- In a list sorted by number the first `K` are those with fewer than `K` before them. -/
theorem mem_take_iff : ∀ {l : List (Nat × Bytes)} {K : Nat} {x : Nat × Bytes}, (l.map Prod.fst).Pairwise (· < ·) →
    (x ∈ l.take K ↔ x ∈ l ∧ l.countP (fun y => decide (y.1 < x.1)) < K)
  | [], K, x, _         => by simp
  | a :: l, 0, x, _     => by simp
  | a :: l, K + 1, x, h => by
    rw [List.map_cons, List.pairwise_cons] at h
    have hlt : ∀ y ∈ l, a.1 < y.1 := fun y hy => h.1 _ (List.mem_map_of_mem hy)
    rw [List.take_succ_cons, List.mem_cons, List.mem_cons, mem_take_iff h.2, List.countP_cons]
    constructor
    · rintro (rfl | ⟨hx, hcount⟩)
      · have hzero : l.countP (fun y => decide (y.1 < x.1)) = 0 :=
          List.countP_eq_zero.2 (fun y hy => by simpa using Nat.le_of_lt (hlt y hy))
        exact ⟨Or.inl rfl, by simp [hzero]⟩
      · exact ⟨Or.inr hx, by split <;> omega⟩
    · rintro ⟨rfl | hx, hcount⟩
      · exact Or.inl rfl
      · rw [if_pos (by simpa using hlt x hx)] at hcount
        exact Or.inr ⟨hx, by omega⟩

theorem mem_take_present {P : List (Fin N × Bytes)} (hnd : (P.map Prod.fst).Nodup) (i : Nat) (b : Bytes) :
    (i, b) ∈ (present 0 (place P)).take K ↔ ∃ x ∈ lowest K P, (x.1 : Nat) = i ∧ x.2 = b := by
  have hperm := present_place_perm hnd
  rw [mem_take_iff (present_sorted _ _), hperm.mem_iff, hperm.countP_eq, List.countP_map]
  simp only [lowest, List.mem_map, List.mem_filter, Prod.mk.injEq, decide_eq_true_eq]
  constructor
  · rintro ⟨⟨x, hx, rfl, rfl⟩, hcount⟩
    exact ⟨x, ⟨hx, hcount⟩, rfl, rfl⟩
  · rintro ⟨x, ⟨hx, hcount⟩, rfl, rfl⟩
    exact ⟨⟨x, hx, rfl, rfl⟩, hcount⟩

section Decode

variable {P : List (Fin N × Bytes)}

theorem decode_place_few (hK : 1 ≤ K) (hnd : (P.map Prod.fst).Nodup) (h : P.length < K) :
    ∃ e, decode z K N (place P) = .error e := by
  cases hd : decode z K N (place P) with
  | error e => exact ⟨e, rfl⟩
  | ok m    =>
    have hcount := le_countP_of_decode hK hd
    rw [← present_length _ 0, (present_place_perm hnd).length_eq, List.length_map] at hcount
    omega

theorem decode_of_reads (hz : z.IsMds K N) (h1 : 1 ≤ K) (h2 : K ≤ N) (h3 : N ≤ 256) (hnd : (P.map Prod.fst).Nodup)
    (hP : K ≤ P.length) {m : Bytes} (h : Reads z K P m) : decode z K N (place P) = .ok m := by
  obtain ⟨L, bl, stripes, hword, hlie, hm⟩ := h
  rw [← hm]
  refine decode_of_word hz h1 h2 h3 hword.count hword.width hword.coded (place_length P) ?_ (fun p hp => ?_)
  · rw [(present_place_perm hnd).length_eq, List.length_map]
    exact hP
  · obtain ⟨x, hx, hi, hb⟩ := (mem_take_present hnd p.1 p.2).1 hp
    rw [← hi, ← hb]
    exact hlie x hx

/-- **`K` or more stripes of one length read some message.** -/
theorem exists_reads (hz : z.IsMds K N) (hl : z.SameLength K N) (h1 : 1 ≤ K) (hnd : (P.map Prod.fst).Nodup)
    (hP : K ≤ P.length) (hL : 1 ≤ L) (hwidth : ∀ x ∈ P, x.2.length = L) : ∃ m, Reads z K P m := by
  have hlen : ((present 0 (place P)).take K).length = K := by
    rw [List.length_take, (present_place_perm hnd).length_eq, List.length_map]
    omega
  have hnums : (((present 0 (place P)).take K).map Prod.fst).Nodup := by
    rw [List.map_take]
    exact ((present_sorted _ 0).imp (fun h => Nat.ne_of_lt h)).sublist (List.take_sublist _ _)
  have hmem : ∀ p ∈ (present 0 (place P)).take K, p.1 < N ∧ p.2.length = L := by
    rintro ⟨i, b⟩ hp
    obtain ⟨x, hx, rfl, rfl⟩ := (mem_take_present hnd i b).1 hp
    exact ⟨x.1.isLt, hwidth x (List.mem_filter.1 hx).1⟩
  have hfst : (((present 0 (place P)).take K).map Prod.fst).length = K := by rw [List.length_map, hlen]
  have hsnd : (((present 0 (place P)).take K).map Prod.snd).length = K := by rw [List.length_map, hlen]
  have hlt : ∀ i ∈ ((present 0 (place P)).take K).map Prod.fst, i < N := by
    intro i hi
    obtain ⟨p, hp, rfl⟩ := List.mem_map.1 hi
    exact (hmem p hp).1
  have hlong : ∀ b ∈ ((present 0 (place P)).take K).map Prod.snd, b.length = L := by
    intro b hb
    obtain ⟨p, hp, rfl⟩ := List.mem_map.1 hb
    exact (hmem p hp).2
  obtain ⟨bl, stripes, hword, hgot⟩ := exists_word hz hl hfst hnums hlt hsnd hlong
  obtain ⟨stripes', hcoded, hN⟩ := hz.encode_isSome bl L hword.count hword.width
  obtain rfl : stripes = stripes' := Option.some.inj (hword.coded.symm.trans hcoded)
  have hlie := getElem?_of_filterMap (fun p hp => hN ▸ (hmem p hp).1) hgot
  have hne : bl.flatten ≠ [] := by
    intro h
    obtain ⟨b, rest, rfl⟩ := List.exists_cons_of_length_pos (hword.count ▸ h1)
    have hb : b.length = 0 := by rw [List.flatten_eq_nil_iff.1 h b List.mem_cons_self]; rfl
    have hbL := hword.width b List.mem_cons_self
    omega
  have hm : ∃ m, unpad K bl.flatten = .ok m := by
    unfold unpad
    rw [List.getLast?_eq_some_getLast hne]
    exact ⟨_, rfl⟩
  obtain ⟨m, hm⟩ := hm
  exact ⟨m, L, bl, stripes, hword, fun x hx => hlie _ ((mem_take_present hnd _ _).2 ⟨x, hx, rfl, rfl⟩), hm⟩

end Decode

/-! ## Reed–Solomon coding -/

theorem reedSolomon_sameLength {K N : Nat} (h1 : 1 ≤ K) : reedSolomon.SameLength K N := by
  intro bl L stripes hK hL h s hs
  have hbl : bl ≠ [] := by rintro rfl; simp at hK; omega
  simp only [reedSolomon, headD_length hbl hL, Option.some.injEq] at h
  rw [← h] at hs
  obtain ⟨i, -, rfl⟩ := List.mem_map.1 hs
  simp

/-- The first `K` stripes are the blocks. -/
theorem reedSolomon_systematic {K N L : Nat} (hN : K ≤ 256) (hKN : K ≤ N) {bl stripes : List Bytes}
    (hword : IsWord reedSolomon K N L bl stripes) {j : Nat} (hj : j < K) : stripes[j]? = bl[j]? := by
  have hlt : j < bl.length := hword.count ▸ hj
  have hbl : bl ≠ [] := List.ne_nil_of_length_pos (by omega)
  have h := hword.coded
  simp only [reedSolomon, headD_length hbl hword.width, Option.some.injEq] at h
  have hcol : ∀ t, ofField (ReedSolomon.codeSymbol point K (column bl t) j) = (bl.getD j []).getD t 0 := fun t => by
    rw [ReedSolomon.codeSymbol_of_lt (point_injOn hN) _ hj, column, ofField_toField]
  have hget : bl.getD j [] = bl[j] := by rw [List.getD_eq_getElem?_getD, List.getElem?_eq_getElem hlt, Option.getD_some]
  rw [← h, List.getElem?_map, List.getElem?_range (by omega), Option.map_some, List.getElem?_eq_getElem hlt,
    Option.some.injEq]
  simp only [hcol, hget]
  exact hword.width bl[j] (List.getElem_mem _) ▸ map_getD_range 0 bl[j]

theorem onEqual_sameLength {z : Zfec} {K N : Nat} (hl : z.SameLength K N)
    (hconst : ∀ b, z.encode K N (List.replicate K b) = some (List.replicate N b)) : z.onEqual.SameLength K N := by
  intro bl L stripes hK hL h
  rw [Zfec.onEqual_encode hconst] at h
  exact hl bl L stripes hK hL h

theorem reedSolomonEq_sameLength {K N : Nat} (h1 : 1 ≤ K) (hK : K ≤ 256) : reedSolomonEq.SameLength K N :=
  onEqual_sameLength (reedSolomon_sameLength h1) (reedSolomon_const h1 hK)

end Dpid
