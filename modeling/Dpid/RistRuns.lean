import Dpid.RistIdeal
/-!
# RistRuns — what a process with vendored points shows

In every state that a process reaches its scalars are canonical and its points stand for elements of the group.  So its
replies are those of the group, panics among them, and its bytes are pickled and read back.
-/
namespace Dpid
namespace Pairing
namespace Rist

open LittleEndian
open Curve25519 (Bytes32 CompressedRistretto Scalar RistrettoPoint RistrettoGroup groupOrder Fl)

variable {calls : List RistCall} {s : RistState Scalar RistrettoPoint} {rs : List Reply}

/-! ## Reachable states -/

theorem reachable_rel (h : run dalek calls = (s, rs)) : ∃ t, run ideal calls = (t, rs) ∧ StateRel IsZr IsG s t := by
  obtain ⟨hst, hr⟩ := run_rel dalek_sim calls
  rw [h] at hst hr
  exact ⟨(run ideal calls).1, Prod.ext rfl hr.symm, hst⟩

/-- **The replies of a process are those of the group**, whatever its calls, also where it panics and after. -/
theorem run_replies (calls : List RistCall) : (run dalek calls).2 = (run ideal calls).2 := (run_rel dalek_sim calls).2

/-- Every object stands for an element. -/
theorem exists_elem (h : run dalek calls = (s, rs)) {i : Nat} {o : PpObj RistrettoPoint} (ho : s.gs[i]? = some o) :
    ∃ g, IsG o.elem g := by
  obtain ⟨t, -, hst⟩ := reachable_rel h
  obtain ⟨p, -, hop⟩ := Lockstep.exists_right hst.gs ho
  exact ⟨p.elem, hop.elem⟩

/-! ## Bytes -/

section

variable {i j : Nat} {o o' : PpObj RistrettoPoint} {g h : RistrettoGroup}

theorem step_getState (ho : s.gs[i]? = some o) (hg : IsG o.elem g) :
    step dalek s (.gGetState i) = some (s, .bytes (encoding g).toList) := by
  have hcompress : dalek.compress o.elem = some (encoding g) := compress_eq hg
  dsimp only [step, withG]
  rw [ho]
  dsimp only
  rw [hcompress]
  rfl

open Classical in
theorem step_equals (ho : s.gs[i]? = some o) (hg : IsG o.elem g) (ho' : s.gs[j]? = some o') (hh : IsG o'.elem h) :
    step dalek s (.gEquals i j) = some (s, .bool (decide (g = h))) := by
  have hequal : dalek.equal o.elem o'.elem = some (decide (g = h)) := equal_eq hg hh
  dsimp only [step, withG]
  rw [ho]
  dsimp only
  rw [ho']
  dsimp only
  rw [hequal]
  rfl

theorem tryInto32_toList (b : Bytes32) : tryInto32 b.toList = some b := by
  rw [tryInto32, dif_pos b.length_toList]
  rfl

theorem toList_of_tryInto32 {l : Bytes} {b : Bytes32} (h : tryInto32 l = some b) : b.toList = l := by
  unfold tryInto32 at h
  split at h
  · obtain rfl := Option.some.inj h
    rfl
  · cases h

theorem step_setState (ho : s.gs[i]? = some o) (l : Bytes) : step dalek s (.gSetState i l) = some (s, .raised) ∨
    ∃ g p, (encoding g).toList = l ∧ IsG p g ∧ step dalek s (.gSetState i l) = setObj s i (write p o) := by
  dsimp only [step, withG]
  rw [ho]
  dsimp only
  cases harr : tryInto32 l with
  | none     => exact Or.inl rfl
  | some arr =>
    have hrel := decompress_rel arr
    have hideal : ideal.decompress arr = some (decoded arr) := rfl
    rw [hideal] at hrel
    obtain ⟨d, hd, hread⟩ := Lockstep.some_right hrel
    generalize hdec : decoded arr = e at hread
    dsimp only
    rw [hd]
    cases hread with
    | none    => exact Or.inl rfl
    | some hg =>
      refine Or.inr ⟨_, _, ?_, hg, rfl⟩
      rw [encoding_of_decoded hdec]
      exact toList_of_tryInto32 harr

theorem getElem?_set_same {α : Type} {l : List α} {a : α} (h : l[i]? = some a) (x : α) : (l.set i x)[i]? = some x := by
  obtain ⟨hlt, -⟩ := List.getElem?_eq_some_iff.1 h
  rw [List.getElem?_set_self hlt]

/-- The bytes of an element are read back as this element. -/
theorem step_setState_encoding (ho : s.gs[i]? = some o) (g : RistrettoGroup) : ∃ p, IsG p g ∧
    step dalek s (.gSetState i (encoding g).toList) = setObj s i (write p o) := by
  have hrel := decompress_rel (encoding g)
  have hideal : ideal.decompress (encoding g) = some (some g) := congrArg some (decoded_encoding g)
  rw [hideal] at hrel
  obtain ⟨d, hd, hread⟩ := Lockstep.some_right hrel
  obtain ⟨p, rfl, hp⟩ := Lockstep.some_right hread
  refine ⟨p, hp, ?_⟩
  dsimp only [step, withG]
  rw [ho]
  dsimp only
  rw [tryInto32_toList]
  dsimp only
  rw [hd]
  rfl

end

/-- **A pickled point comes back**: its bytes make any object equal to it, with the same bytes. -/
theorem pickle_round_trip (h : run dalek calls = (s, rs)) {i j : Nat} {o o' : PpObj RistrettoPoint}
    (ho : s.gs[i]? = some o) (ho' : s.gs[j]? = some o') : ∃ b s', step dalek s (.gGetState i) = some (s, .bytes b) ∧
      step dalek s (.gSetState j b) = some (s', .done) ∧ step dalek s' (.gGetState j) = some (s', .bytes b) ∧
      step dalek s' (.gEquals j i) = some (s', .bool true) := by
  classical
  obtain ⟨g, hg⟩ := exists_elem h ho
  obtain ⟨p, hp, hstep⟩ := step_setState_encoding ho' g
  have hj := getElem?_set_same ho' (write p o')
  refine ⟨_, _, step_getState ho hg, hstep, step_getState hj hp, ?_⟩
  by_cases hij : j = i
  · subst hij
    rw [step_equals hj hp hj hp, decide_eq_true rfl]
  · have hi : (s.gs.set j (write p o'))[i]? = some o := by rw [List.getElem?_set_ne hij, ho]
    rw [step_equals hj hp hi hg, decide_eq_true rfl]

def basepointBytes : Bytes := RistrettoPoint.ristrettoBasepointCompressed.toList

/-- The basepoint and the identity. -/
def twoPoints : List RistCall := [.gNew, .gSetState 0 basepointBytes, .gNew]

theorem length_twoPoints : (run dalek twoPoints).1.gs.length = 2 := by decide +kernel

theorem getElem?_twoPoints {i : Nat} (h : i < 2) : ∃ o, (run dalek twoPoints).1.gs[i]? = some o :=
  ⟨_, List.getElem?_eq_getElem (by rwa [length_twoPoints])⟩

/-- The identity becomes the basepoint. -/
theorem pickle_round_trip_two : (run dalek twoPoints).2 = [.done, .done, .done] ∧
    let s := (run dalek twoPoints).1
    ∃ b s', step dalek s (.gGetState 0) = some (s, .bytes b) ∧ step dalek s (.gSetState 1 b) = some (s', .done) ∧
      step dalek s' (.gGetState 1) = some (s', .bytes b) ∧ step dalek s' (.gEquals 1 0) = some (s', .bool true) := by
  obtain ⟨_, ho⟩ := getElem?_twoPoints (i := 0) (by decide)
  obtain ⟨_, ho'⟩ := getElem?_twoPoints (i := 1) (by decide)
  exact ⟨by decide +kernel, pickle_round_trip rfl ho ho'⟩

/-- **What is read is canonical**: bytes that are accepted are given back as they were, and others change nothing. -/
theorem pickle_canonical {j : Nat} {o : PpObj RistrettoPoint} (ho : s.gs[j]? = some o) (l : Bytes) :
    step dalek s (.gSetState j l) = some (s, .raised) ∨
      ∃ s', step dalek s (.gSetState j l) = some (s', .done) ∧ step dalek s' (.gGetState j) = some (s', .bytes l) := by
  rcases step_setState ho l with hraised | ⟨g, p, rfl, hp, hstep⟩
  · exact Or.inl hraised
  · exact Or.inr ⟨_, hstep, step_getState (getElem?_set_same ho (write p o)) hp⟩

/-- The bytes of the basepoint are read. -/
theorem pickle_canonical_basepoint :
    let s := (run dalek twoPoints).1
    (next dalek s (.gSetState 1 basepointBytes)).2 = .done ∧ (step dalek s (.gSetState 1 basepointBytes) = some (s, .raised) ∨
      ∃ s', step dalek s (.gSetState 1 basepointBytes) = some (s', .done) ∧
        step dalek s' (.gGetState 1) = some (s', .bytes basepointBytes)) := by
  obtain ⟨_, ho⟩ := getElem?_twoPoints (i := 1) (by decide)
  exact ⟨by decide +kernel, pickle_canonical ho basepointBytes⟩

/-- **Equal points have the same bytes, and only they have.** -/
theorem equals_iff_getState (h : run dalek calls = (s, rs)) {i j : Nat} {o o' : PpObj RistrettoPoint}
    (ho : s.gs[i]? = some o) (ho' : s.gs[j]? = some o') : ∃ b c, step dalek s (.gGetState i) = some (s, .bytes b) ∧
      step dalek s (.gGetState j) = some (s, .bytes c) ∧ step dalek s (.gEquals i j) = some (s, .bool (decide (b = c))) := by
  classical
  obtain ⟨g, hg⟩ := exists_elem h ho
  obtain ⟨g', hg'⟩ := exists_elem h ho'
  refine ⟨_, _, step_getState ho hg, step_getState ho' hg', ?_⟩
  have hiff : g = g' ↔ (encoding g).toList = (encoding g').toList := by
    rw [Vector.toList_inj, encoding_injective.eq_iff]
  rw [step_equals ho hg ho' hg', decide_eq_decide.2 hiff]

/-- The basepoint is not the identity. -/
theorem equals_iff_getState_two :
    let s := (run dalek twoPoints).1
    (next dalek s (.gEquals 0 1)).2 = .bool false ∧ ∃ b c : Bytes, step dalek s (.gGetState 0) = some (s, .bytes b) ∧
      step dalek s (.gGetState 1) = some (s, .bytes c) ∧ step dalek s (.gEquals 0 1) = some (s, .bool (decide (b = c))) := by
  obtain ⟨_, ho⟩ := getElem?_twoPoints (i := 0) (by decide)
  obtain ⟨_, ho'⟩ := getElem?_twoPoints (i := 1) (by decide)
  exact ⟨by decide +kernel, equals_iff_getState rfl ho ho'⟩

/-! ## Scalars -/

/-- **The scalars are canonical**: below the order, told apart by their values, and read back from their bytes. -/
theorem scalars_canonical (h : run dalek calls = (s, rs)) {i j : Nat} {z w : Scalar} (hz : s.zrs[i]? = some z)
    (hw : s.zrs[j]? = some w) : z.val < groupOrder ∧ step dalek s (.zrInt i) = some (s, .int z.val) ∧
      step dalek s (.zrEquals i j) = some (s, .bool (decide (z.val = w.val))) ∧
      ∃ s', step dalek s (.zrSetState j z.bytes.toList) = some (s', .done) ∧ s'.zrs[j]? = some z := by
  obtain ⟨t, -, hst⟩ := reachable_rel h
  obtain ⟨e, -, he⟩ := Lockstep.exists_right hst.zrs hz
  have hequal : (z == w) = decide (z.val = w.val) := by
    rw [Bool.eq_iff_iff, beq_iff_eq, decide_eq_true_iff]
    exact ⟨fun h => h ▸ rfl, fun h => Scalar.val_injective h⟩
  refine ⟨Scalar.Canonical.lt he, ?_, ?_, ?_⟩
  · dsimp only [step, withZr]
    rw [hz]
    rfl
  · dsimp only [step, withZr]
    rw [hz, hw]
    exact congrArg (fun b => some (s, Reply.bool b)) hequal
  · obtain ⟨z', hread, hz'⟩ := Scalar.fromBytesModOrder_returns z.bytes
    have hcast : ((leVal z.bytes.toList : Nat) : Fl) = e := Scalar.Canonical.cast he
    rw [hcast] at hz'
    obtain rfl : z' = z := (Scalar.Canonical.eq_iff hz' he).2 rfl
    have hlib : dalek.fromBytesModOrder z'.bytes = some z' := hread
    refine ⟨{ s with zrs := s.zrs.set j z' }, ?_, ?_⟩
    · dsimp only [step, withZr]
      rw [hw]
      dsimp only
      rw [tryInto32_toList]
      dsimp only
      rw [hlib]
      rfl
    · exact getElem?_set_same hw z'

/-- 7 and -1. -/
def twoScalars : List RistCall := [.zrNew (some (.int 7)), .zrNew (some (.int (-1)))]

theorem scalars_canonical_two :
    let s := (run dalek twoScalars).1
    let z : Scalar := ⟨bytes32 7⟩
    let w : Scalar := ⟨bytes32 (groupOrder - 1)⟩
    z.val < groupOrder ∧ step dalek s (.zrInt 0) = some (s, .int z.val) ∧
      step dalek s (.zrEquals 0 1) = some (s, .bool (decide (z.val = w.val))) ∧
      ∃ s', step dalek s (.zrSetState 1 z.bytes.toList) = some (s', .done) ∧ s'.zrs[1]? = some z :=
  scalars_canonical rfl (by decide +kernel) (by decide +kernel)

end Rist
end Pairing
end Dpid
