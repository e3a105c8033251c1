import Dpid.Bytes
import Mathlib
/-!
# Curve — the elliptic-curve library

`ecdsa` is not part of the repository: it is the parameter `Curve`, a group with the library's view of its points as
pairs of coordinates, and `Curve.Lawful` is what the callers rely on.  Nothing is assumed of coordinates that are not
those of a point, reduced modulo `p`.
-/
namespace Dpid

structure Curve where
  Pt : Type
  group : AddCommGroup Pt
  p : Nat
  order : Nat
  generator : Pt
  /-- `P.x()` and `P.y()`; `none` is the pair of `None`s of `INFINITY`. -/
  xy : Pt → Option (Int × Int)
  /-- `curve.contains_point(x, y)`, which `Point(curve, x, y)` asserts. -/
  containsPoint : Int × Int → Bool
  /-- `Point(curve, x1, y1) + Point(curve, x2, y2)`. -/
  pointAdd : Int × Int → Int × Int → Except Exn Pt

attribute [instance] Curve.group

/-- **The group law as the library computes it**, on the reduced coordinates of finite points. -/
structure Curve.Lawful (E : Curve) : Prop where
  xy_eq_none : ∀ P, E.xy P = none ↔ P = 0
  xy_inj : ∀ P Q c, E.xy P = some c → E.xy Q = some c → P = Q
  xy_reduced : ∀ P x y, E.xy P = some (x, y) → 0 ≤ y ∧ y < E.p
  xy_neg : ∀ P x y, E.xy P = some (x, y) → E.xy (-P) = some (x, -y % E.p)
  containsPoint_xy : ∀ P c, E.xy P = some c → E.containsPoint c = true
  pointAdd_xy : ∀ P Q c d, E.xy P = some c → E.xy Q = some d → E.pointAdd c d = .ok (P + Q)

/-- `Point(curve, x, y)`. -/
def Curve.point (E : Curve) (c : Int × Int) : Except Exn (Int × Int) :=
  if E.containsPoint c then .ok c else .error .assertionError

variable {E : Curve}

theorem Curve.Lawful.exists_xy (hE : E.Lawful) {P : E.Pt} (hP : P ≠ 0) : ∃ c, E.xy P = some c :=
  Option.ne_none_iff_exists'.1 (fun h => hP ((hE.xy_eq_none P).1 h))

theorem Curve.Lawful.emod_y (hE : E.Lawful) {P : E.Pt} {x y : Int} (h : E.xy P = some (x, y)) : y % E.p = y :=
  Int.emod_eq_of_lt (hE.xy_reduced P x y h).1 (hE.xy_reduced P x y h).2

theorem Curve.Lawful.point_xy (hE : E.Lawful) {P : E.Pt} {c : Int × Int} (h : E.xy P = some c) : E.point c = .ok c := by
  rw [Curve.point, if_pos (hE.containsPoint_xy P c h)]

end Dpid
