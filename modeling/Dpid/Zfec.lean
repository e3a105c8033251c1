import Dpid.Bytes
import Dpid.ReedSolomon
import Mathlib.FieldTheory.Finite.GaloisField
import Mathlib.SetTheory.Cardinal.NatCard
/-!
# Zfec — the erasure-coding library

zfec is not part of the repository: it is the parameter `Zfec`, and `Zfec.IsMds` is what its callers rely on.

zfec codes every byte column of its blocks by polynomial evaluation over the field of 256 elements.  `reedSolomon` is
such a code, so `Zfec.IsMds` is met at every `1 ≤ K ≤ N ≤ 256` (`reedSolomon_isMds`).  The bytes stand for the field's
elements in an order left open; every order gives the same stripes on equal blocks (`reedSolomon_const`), where
`reedSolomonEq` computes.
-/
namespace Dpid

open Finset (range)

/-- The zfec library: the calls of an `Encoder(K, N)` and a `Decoder(K, N)`; `none` is a raised `zfec.Error`. -/
structure Zfec where
  encode : Nat → Nat → List Bytes → Option (List Bytes)
  decode : Nat → Nat → List Bytes → List Nat → Option (List Bytes)

/-- **zfec as a maximum distance separable `(K, N)` code**: `K` blocks of one length become `N` stripes, and any `K`
stripes with their numbers give the blocks back. -/
structure Zfec.IsMds (z : Zfec) (K N : Nat) : Prop where
  encode_isSome : ∀ blocks L, blocks.length = K → (∀ b ∈ blocks, b.length = L) →
    ∃ stripes, z.encode K N blocks = some stripes ∧ stripes.length = N
  decode_encode : ∀ blocks L stripes nums, blocks.length = K → (∀ b ∈ blocks, b.length = L) →
    z.encode K N blocks = some stripes → nums.length = K → nums.Nodup → (∀ i ∈ nums, i < N) →
    z.decode K N (nums.filterMap (stripes[·]?)) nums = some blocks

/-- What both constructors, `zfec.Encoder(K, N)` and `zfec.Decoder(K, N)`, check. -/
def zfecInit (K N : Nat) : Except Exn Unit :=
  if 1 ≤ K ∧ K ≤ N ∧ N ≤ 256 then .ok () else .error .zfecError

/-! ## Bytes as field elements -/

instance factPrimeTwo : Fact (Nat.Prime 2) := ⟨Nat.prime_two⟩

/-- The field of 256 elements. -/
abbrev ByteField := GaloisField 2 8

theorem card_byteField : Nat.card ByteField = 256 := by
  rw [GaloisField.card 2 8 (by decide)]
  rfl

/-- The bytes as the field's elements. -/
noncomputable def byteEquiv : Fin 256 ≃ ByteField :=
  haveI : Finite ByteField := Nat.finite_of_card_ne_zero (by rw [card_byteField]; decide)
  (Finite.equivFinOfCardEq card_byteField).symm

noncomputable def toField (b : UInt8) : ByteField := byteEquiv b.toFin

noncomputable def ofField (x : ByteField) : UInt8 := ⟨⟨byteEquiv.symm x⟩⟩

@[simp] theorem ofField_toField (b : UInt8) : ofField (toField b) = b := by
  simp [ofField, toField]

@[simp] theorem toField_ofField (x : ByteField) : toField (ofField x) = x := by
  simp [ofField, toField]

/-- The evaluation points: the field's elements in the bytes' order. -/
noncomputable def point (i : ℕ) : ByteField := byteEquiv (Fin.ofNat 256 i)

theorem point_injOn {n : ℕ} (hn : n ≤ 256) : Set.InjOn point (range n) := by
  intro i hi j hj h
  have hi : i < n := by simpa using hi
  have hj : j < n := by simpa using hj
  have h := congrArg Fin.val (byteEquiv.injective h)
  simp only [Fin.val_ofNat] at h
  omega

/-! ## The code -/

/-- Byte `t` of block `j`, as a field element. -/
noncomputable def column (bl : List Bytes) (t j : ℕ) : ByteField := toField ((bl.getD j []).getD t 0)

/-- Byte-wise Reed–Solomon coding: stripe `i` holds, column by column, the code symbol at `i`. -/
noncomputable def reedSolomon : Zfec where
  encode K N bl := some ((List.range N).map (fun i => (List.range (bl.headD []).length).map (fun t =>
    ofField (ReedSolomon.codeSymbol point K (column bl t) i))))
  decode K _ bl nums := some ((List.range K).map (fun j => (List.range (bl.headD []).length).map (fun t =>
    ofField (ReedSolomon.recover point nums.toFinset (fun i => column bl t (nums.idxOf i)) j))))

theorem map_getD_range {α : Type} (d : α) (l : List α) : (List.range l.length).map (fun j => l.getD j d) = l := by
  refine List.ext_getElem (by simp) (fun i hi hi' => ?_)
  simp [List.getD_eq_getElem?_getD, List.getElem?_eq_getElem hi']

theorem headD_length {bl : List Bytes} {L : ℕ} (hne : bl ≠ []) (hL : ∀ b ∈ bl, b.length = L) :
    (bl.headD []).length = L := by
  cases bl with
  | nil => exact absurd rfl hne
  | cons b bl => exact hL b (by simp)

/-- **The byte-wise Reed–Solomon code is maximum distance separable.** -/
theorem reedSolomon_isMds {K N : ℕ} (h1 : 1 ≤ K) (hKN : K ≤ N) (hN : N ≤ 256) : reedSolomon.IsMds K N where
  encode_isSome bl L hK hL := ⟨_, rfl, by simp⟩
  decode_encode bl L stripes nums hK hL henc hn hnd hlt := by
    have hbl : bl ≠ [] := by rintro rfl; simp at hK; omega
    have hnums : nums ≠ [] := by rintro rfl; simp at hn; omega
    simp only [reedSolomon, headD_length hbl hL, Option.some.injEq] at henc
    generalize hstripe : (fun i => (List.range L).map (fun t =>
      ofField (ReedSolomon.codeSymbol point K (column bl t) i))) = stripe at henc
    have hlen : ∀ i, (stripe i).length = L := fun i => by rw [← hstripe]; simp
    have hgot : nums.filterMap (stripes[·]?) = nums.map stripe := by
      rw [← List.filterMap_eq_map]
      refine List.filterMap_congr (fun i hi => ?_)
      rw [← henc]
      simp [hlt i hi]
    have hgne : nums.map stripe ≠ [] := by simpa using hnums
    rw [hgot]
    simp only [reedSolomon, headD_length hgne (fun b hb => by
      obtain ⟨i, -, rfl⟩ := List.mem_map.1 hb
      exact hlen i), Option.some.injEq]
    have hs : nums.toFinset ⊆ range N := fun i hi => by simpa using hlt i (by simpa using hi)
    have hcard : nums.toFinset.card = K := by rw [List.toFinset_card_of_nodup hnd, hn]
    have hcol : ∀ t < L, ∀ j < K, ofField (ReedSolomon.recover point nums.toFinset
        (fun i => column (nums.map stripe) t (nums.idxOf i)) j) = (bl.getD j []).getD t 0 := by
      intro t ht j hj
      rw [ReedSolomon.recover_codeSymbol (point_injOn hN) hKN (column bl t) _ hs hcard (fun i hi => ?_) hj]
      · simp [column]
      · have hi : i ∈ nums := by simpa using hi
        have hidx : nums.idxOf i < nums.length := List.idxOf_lt_length_iff.2 hi
        simp only [column, List.getD_eq_getElem?_getD, List.getElem?_map, List.getElem?_eq_getElem hidx,
          List.getElem_idxOf, ← hstripe]
        simp [ht]
    refine Eq.trans (List.map_congr_left (fun j hj => ?_)) (hK ▸ map_getD_range [] bl)
    have hj : j < K := List.mem_range.1 hj
    have hjL : (bl.getD j []).length = L := by
      rw [List.getD_eq_getElem?_getD, List.getElem?_eq_getElem (hK ▸ hj)]
      exact hL _ (List.getElem_mem _)
    refine Eq.trans (List.map_congr_left (fun t ht => hcol t (List.mem_range.1 ht) j hj)) ?_
    exact hjL ▸ map_getD_range 0 (bl.getD j [])

theorem reedSolomon_const {K N : ℕ} (h1 : 1 ≤ K) (hK : K ≤ 256) (b : Bytes) :
    reedSolomon.encode K N (List.replicate K b) = some (List.replicate N b) := by
  have hhead : ((List.replicate K b).headD []).length = b.length :=
    headD_length (by simp; omega) (fun c hc => by rw [List.eq_of_mem_replicate hc])
  simp only [reedSolomon, hhead, Option.some.injEq]
  refine List.ext_getElem (by simp) (fun i hi hi' => ?_)
  rw [List.getElem_map, List.getElem_replicate]
  refine Eq.trans (List.map_congr_left (fun t _ => ?_)) (map_getD_range 0 b)
  rw [ReedSolomon.codeSymbol_const h1 (point_injOn hK) (a := toField (b.getD t 0)) (fun j hj => ?_), ofField_toField]
  simp [column, List.getD_eq_getElem?_getD, hj]

/-! ## Equal blocks -/

/-- `z`, with equal blocks and equal stripes answered directly: so much of a code can be evaluated. -/
def Zfec.onEqual (z : Zfec) : Zfec where
  encode K N bl :=
    match bl with
    | []      => z.encode K N bl
    | b :: _  => if bl = List.replicate K b then some (List.replicate N b) else z.encode K N bl
  decode K N bl nums :=
    match bl with
    | []     => z.decode K N bl nums
    | b :: _ => if bl = List.replicate K b then some (List.replicate K b) else z.decode K N bl nums

/-- For a code that turns equal blocks into equal stripes it is the same code. -/
theorem Zfec.onEqual_encode {z : Zfec} {K N : ℕ}
    (hconst : ∀ b, z.encode K N (List.replicate K b) = some (List.replicate N b)) (bl : List Bytes) :
    z.onEqual.encode K N bl = z.encode K N bl := by
  cases bl with
  | nil       => rfl
  | cons b bl =>
    simp only [onEqual]
    split
    · rename_i h
      rw [h, hconst]
    · rfl

theorem Zfec.onEqual_isMds {z : Zfec} {K N : ℕ} (hz : z.IsMds K N)
    (hconst : ∀ b, z.encode K N (List.replicate K b) = some (List.replicate N b)) : z.onEqual.IsMds K N where
  encode_isSome bl L hK hL := by
    rw [onEqual_encode hconst]
    exact hz.encode_isSome bl L hK hL
  decode_encode bl L stripes nums hK hL henc hn hnd hlt := by
    rw [onEqual_encode hconst] at henc
    have hdec := hz.decode_encode bl L stripes nums hK hL henc hn hnd hlt
    generalize hgot : nums.filterMap (stripes[·]?) = got at hdec
    cases got with
    | nil        => exact hdec
    | cons b got =>
      simp only [onEqual]
      split
      · rename_i heq
        -- the same stripes come from `K` blocks `b`
        have hrep := hz.decode_encode (List.replicate K b) b.length (List.replicate N b) nums (by simp)
          (fun c hc => by rw [List.eq_of_mem_replicate hc]) (hconst b) hn hnd hlt
        have hsame : nums.filterMap ((List.replicate N b)[·]?) = List.replicate K b := by
          rw [← hn, ← List.map_const', ← List.filterMap_eq_map]
          exact List.filterMap_congr (fun i hi => by simp [hlt i hi])
        rw [hsame, ← heq, hdec] at hrep
        rw [hrep, heq]
      · exact hdec

/-- Reed–Solomon coding that computes on equal blocks. -/
noncomputable def reedSolomonEq : Zfec := reedSolomon.onEqual

theorem reedSolomonEq_isMds {K N : ℕ} (h1 : 1 ≤ K) (hKN : K ≤ N) (hN : N ≤ 256) : reedSolomonEq.IsMds K N :=
  Zfec.onEqual_isMds (reedSolomon_isMds h1 hKN hN) (reedSolomon_const h1 (Nat.le_trans hKN hN))

end Dpid
