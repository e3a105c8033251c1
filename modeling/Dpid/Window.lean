import Dpid.EdwardsPoint
/-!
# Window — tables of multiples (`window.rs`)

A table holds `P, 2P, ..., size P`, from which `select` takes the multiple by a signed digit without branching on it, or the
odd multiples for the digits of a non-adjacent form.  The entries are points prepared for an addition, projective or affine.
-/
namespace Dpid
namespace Curve25519

open Checked

/-! ## Entries -/

/-- What the tables need of their entries. -/
class Entry (T : Type) where
  identity : T
  neg : T → Option T
  /-- `&EdwardsPoint + &T`. -/
  addTo : EdwardsPoint → T → Option CompletedPoint
  /-- `&EdwardsPoint - &T`. -/
  subFrom : EdwardsPoint → T → Option CompletedPoint
  /-- `to_projective_niels`, `to_affine_niels`. -/
  convert : EdwardsPoint → Option T

instance : Entry ProjectiveNielsPoint where
  identity := ProjectiveNielsPoint.identity
  neg := ProjectiveNielsPoint.neg
  addTo := EdwardsPoint.addProjectiveNiels
  subFrom := EdwardsPoint.subProjectiveNiels
  convert := EdwardsPoint.toProjectiveNiels

instance : Entry AffineNielsPoint where
  identity := AffineNielsPoint.identity
  neg := AffineNielsPoint.neg
  addTo := EdwardsPoint.addAffineNiels
  subFrom := EdwardsPoint.subAffineNiels
  convert := EdwardsPoint.toAffineNiels

/-- Entries that stand for points, as the operations on them do. -/
class LawfulEntry (T : Type) [Entry T] where
  Of : ed25519.Point → T → Prop
  identity_of : Of 0 Entry.identity
  neg_returns : ∀ {P : ed25519.Point} {t : T}, Of P t → Returns (Entry.neg t) (Of (-P))
  addTo_returns : ∀ {P Q : ed25519.Point} {p : EdwardsPoint} {t : T}, p.Of P → Of Q t →
    Returns (Entry.addTo p t) (CompletedPoint.Of (P + Q))
  subFrom_returns : ∀ {P Q : ed25519.Point} {p : EdwardsPoint} {t : T}, p.Of P → Of Q t →
    Returns (Entry.subFrom p t) (CompletedPoint.Of (P - Q))
  convert_returns : ∀ {P : ed25519.Point} {p : EdwardsPoint}, p.Of P → Returns (Entry.convert p) (Of P)

instance : LawfulEntry ProjectiveNielsPoint where
  Of := ProjectiveNielsPoint.Of
  identity_of := ProjectiveNielsPoint.identity_of
  neg_returns := ProjectiveNielsPoint.neg_returns
  addTo_returns := EdwardsPoint.addProjectiveNiels_returns
  subFrom_returns := EdwardsPoint.subProjectiveNiels_returns
  convert_returns := EdwardsPoint.toProjectiveNiels_returns

instance : LawfulEntry AffineNielsPoint where
  Of := AffineNielsPoint.Of
  identity_of := AffineNielsPoint.identity_of
  neg_returns := AffineNielsPoint.neg_returns
  addTo_returns := EdwardsPoint.addAffineNiels_returns
  subFrom_returns := EdwardsPoint.subAffineNiels_returns
  convert_returns := EdwardsPoint.toAffineNiels_returns

/-! ## The functions -/

section

variable {T : Type} [Entry T]

/-- `t`, and so many entries after it, each the sum of `p` and the one before. -/
def entriesFrom (p : EdwardsPoint) : Nat → T → Option (List T)
  | 0, t     => some [t]
  | k + 1, t => do
    let s ← (← Entry.addTo p t).toExtended
    let rest ← entriesFrom p k (← Entry.convert s)
    return t :: rest

/-- `LookupTable::from`: `P, 2P, ..., size P`. -/
def lookupTable (size : Nat) (p : EdwardsPoint) : Option (List T) := do
  entriesFrom p (size - 1) (← Entry.convert p)

/-- `NafLookupTable5::from` (size 8) and `NafLookupTable8::from` (size 64): `A, 3A, 5A, ...`. -/
def nafLookupTable (size : Nat) (p : EdwardsPoint) : Option (List T) := do
  let t ← Entry.convert p
  let p2 ← p.double
  entriesFrom p2 (size - 1) t

/-- `LookupTable::select`. -/
def select (size : Nat) (points : List T) (x : Int) : Option T := do
  guard (x ≥ -size)
  guard (x ≤ size)
  let x16 := Int16.ofInt x
  let xmask := x16 >>> 7
  let xabs := ((x16 + xmask) ^^^ xmask).toUInt16
  let t ← (List.range' 1 size).foldlM (fun t j => do
    let p ← points[j - 1]?
    return if xabs = UInt16.ofNat j then p else t) Entry.identity
  let neg ← Entry.neg t
  return if xmask &&& 1 = 1 then neg else t

/-- `NafLookupTable5::select` (size 8) and `NafLookupTable8::select` (size 64). -/
def nafSelect (size : Nat) (points : List T) (x : Nat) : Option T := do
  guard (x &&& 1 = 1)
  guard (x < 2 * size)
  points[x / 2]?

end

/-! ## What the tables hold -/

section

variable {T : Type} [Entry T] [LawfulEntry T] {P Q : ed25519.Point} {p : EdwardsPoint}

/-- The entries are `Q`, `Q + P`, `Q + 2P` and so on. -/
def Steps (P Q : ed25519.Point) (points : List T) : Prop := ∀ (i : Nat) (t : T), points[i]? = some t → LawfulEntry.Of (Q + i • P) t

theorem entriesFrom_returns (hp : p.Of P) : ∀ {k : Nat} {Q : ed25519.Point} {t : T}, LawfulEntry.Of Q t →
    Returns (entriesFrom p k t) (fun points => points.length = k + 1 ∧ Steps P Q points)
  | 0, Q, t, ht     => by
    refine Returns.ret ⟨rfl, fun i u hi => ?_⟩
    cases i with
    | zero   =>
      cases hi
      rwa [zero_nsmul, add_zero]
    | succ i => exact absurd hi (Option.some_ne_none _).symm
  | k + 1, Q, t, ht => by
    refine (LawfulEntry.addTo_returns hp ht).bind (fun c hc => ?_)
    refine (CompletedPoint.toExtended_returns hc).bind (fun s hs => ?_)
    refine (LawfulEntry.convert_returns hs).bind (fun t' ht' => ?_)
    refine (entriesFrom_returns hp ht').bind (fun rest hrest => Returns.ret ⟨?_, fun i u hi => ?_⟩)
    · rw [List.length_cons, hrest.1]
    · cases i with
      | zero   =>
        cases hi
        rwa [zero_nsmul, add_zero]
      | succ i =>
        have h := hrest.2 i u hi
        rwa [add_comm P Q, add_assoc, ← succ_nsmul'] at h

/-- The multiples of a point. -/
def Multiples (size : Nat) (P : ed25519.Point) (points : List T) : Prop := points.length = size ∧ Steps P P points

/-- The odd multiples of a point. -/
def OddMultiples (size : Nat) (P : ed25519.Point) (points : List T) : Prop :=
  points.length = size ∧ Steps (P + P) P points

theorem lookupTable_returns (hp : p.Of P) {size : Nat} (hsize : 0 < size) :
    Returns (lookupTable size p : Option (List T)) (Multiples size P) := by
  refine (LawfulEntry.convert_returns hp).bind (fun t ht => (entriesFrom_returns hp ht).mono (fun points h => ?_))
  rwa [Nat.sub_add_cancel hsize] at h

theorem nafLookupTable_returns (hp : p.Of P) {size : Nat} (hsize : 0 < size) :
    Returns (nafLookupTable size p : Option (List T)) (OddMultiples size P) := by
  refine (LawfulEntry.convert_returns hp).bind (fun t ht => ?_)
  refine (EdwardsPoint.double_returns hp).bind (fun p2 hp2 => (entriesFrom_returns hp2 ht).mono (fun points h => ?_))
  rwa [Nat.sub_add_cancel hsize] at h

/-! ## Selection -/

/-- The absolute value and the sign of an `i8`, without a branch. -/
theorem abs_select : ∀ n : Fin 256,
    let x16 := Int16.ofInt ((n.val : Int) - 128)
    ((x16 + x16 >>> 7) ^^^ x16 >>> 7).toUInt16.toNat = ((n.val : Int) - 128).natAbs ∧
      (x16 >>> 7 &&& 1 = 1 ↔ (n.val : Int) - 128 < 0) := by decide +kernel

theorem abs_select_of {x : Int} (h : -128 ≤ x ∧ x < 128) :
    ((Int16.ofInt x + Int16.ofInt x >>> 7) ^^^ Int16.ofInt x >>> 7).toUInt16.toNat = x.natAbs ∧
      (Int16.ofInt x >>> 7 &&& 1 = 1 ↔ x < 0) := by
  have hn := abs_select ⟨(x + 128).toNat, by omega⟩
  have hx : (((x + 128).toNat : Nat) : Int) - 128 = x := by omega
  simp only [hx] at hn
  exact hn

/-- **The loop of `select`** copies the entry of the absolute value, if it comes by it. -/
theorem selectLoop_returns {size : Nat} (hsize : size ≤ 128) {points : List T} (h : Multiples size P points) {xabs : UInt16}
    {a : Nat} (ha : xabs.toNat = a) :
    Returns ((List.range' 1 size).foldlM (fun (t : T) j => do
      let p ← points[j - 1]?
      return if xabs = UInt16.ofNat j then p else t) Entry.identity)
      (fun t => (a ∈ List.range' 1 size → LawfulEntry.Of (a • P) t) ∧ (a ∉ List.range' 1 size → LawfulEntry.Of 0 t)) := by
  refine Returns.foldlM (I := fun done t => (a ∈ done → LawfulEntry.Of (a • P) t) ∧ (a ∉ done → LawfulEntry.Of 0 t))
    (List.range' 1 size) [] _ (fun pre j t hj ht => ?_) ⟨fun hmem => absurd hmem List.not_mem_nil, fun _ =>
      LawfulEntry.identity_of⟩
  obtain ⟨hlo, hhi⟩ := List.mem_range'_1.1 hj
  have hlt : j - 1 < points.length := by
    rw [h.1]
    omega
  have hof := h.2 (j - 1) _ (List.getElem?_eq_getElem hlt)
  rw [← succ_nsmul', Nat.sub_add_cancel hlo] at hof
  have hiff : xabs = UInt16.ofNat j ↔ a = j := by
    rw [← UInt16.toNat_inj, UInt16.toNat_ofNat', Nat.mod_eq_of_lt (by omega), ha]
  rw [List.getElem?_eq_getElem hlt, Option.bind_eq_bind, Option.bind_some]
  refine Returns.ret ⟨fun hmem => ?_, fun hmem => ?_⟩
  · by_cases hj' : a = j
    · rw [if_pos (hiff.2 hj'), hj']
      exact hof
    · rw [if_neg (fun hx => hj' (hiff.1 hx))]
      rcases List.mem_append.1 hmem with hpre | hlast
      · exact ht.1 hpre
      · exact absurd (List.mem_singleton.1 hlast) hj'
  · have hj' : a ≠ j := fun h' => hmem (List.mem_append.2 (Or.inr (List.mem_singleton.2 h')))
    rw [if_neg (fun hx => hj' (hiff.1 hx))]
    exact ht.2 (fun hpre => hmem (List.mem_append.2 (Or.inl hpre)))

/-- **The multiple by a signed digit.** -/
theorem select_returns {size : Nat} (hsize : size ≤ 128) {points : List T} (h : Multiples size P points) {x : Int}
    (hx : -size ≤ x ∧ x ≤ size) (hx8 : x < 128) : Returns (select size points x) (LawfulEntry.Of (x • P)) := by
  obtain ⟨habs, hsign⟩ := abs_select_of (x := x) ⟨by omega, hx8⟩
  unfold select
  refine guard_bind hx.1 (guard_bind hx.2 ((selectLoop_returns hsize h habs).bind (fun t ht => ?_)))
  have hof : LawfulEntry.Of (x.natAbs • P) t := by
    by_cases h0 : x.natAbs = 0
    · have hnot : x.natAbs ∉ List.range' 1 size := by
        rw [List.mem_range'_1]
        omega
      rw [h0, zero_nsmul]
      exact ht.2 hnot
    · exact ht.1 (List.mem_range'_1.2 ⟨by omega, by omega⟩)
  refine (LawfulEntry.neg_returns hof).bind (fun t' ht' => Returns.ret ?_)
  by_cases hneg : x < 0
  · have hmul : -(x.natAbs • P) = x • P := by
      rw [← natCast_zsmul, ← neg_zsmul]
      congr 1
      omega
    rw [if_pos (hsign.2 hneg), ← hmul]
    exact ht'
  · have hmul : x.natAbs • P = x • P := by
      rw [← natCast_zsmul]
      congr 1
      omega
    rw [if_neg (fun hs => hneg (hsign.1 hs)), ← hmul]
    exact hof

/-- **The odd multiple.** -/
theorem nafSelect_returns {size : Nat} {points : List T} (h : OddMultiples size P points) {x : Nat} (hodd : x % 2 = 1)
    (hx : x < 2 * size) : Returns (nafSelect size points x) (LawfulEntry.Of (x • P)) := by
  have hlt : x / 2 < points.length := by
    rw [h.1]
    omega
  have hof := h.2 (x / 2) _ (List.getElem?_eq_getElem hlt)
  have hmul : P + (x / 2) • (P + P) = x • P := by
    rw [← two_nsmul, ← mul_nsmul', ← succ_nsmul']
    congr 1
    omega
  rw [hmul] at hof
  unfold nafSelect
  refine guard_bind (by rwa [Nat.and_one_is_mod]) (guard_bind hx ?_)
  rw [List.getElem?_eq_getElem hlt]
  exact Returns.ret hof

end

end Curve25519
end Dpid
