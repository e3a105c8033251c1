import Dpid.EdwardsTorsion
/-!
# Decaf — one encoding for four points

A coset of the points of order four has one member with `x` and `x * y` not negative and `y` not zero (`Normal`).  It is sent
as the `s` that is not negative with `s² = (1 - y) / (1 + y)`; which elements are negative is a parameter.
-/
namespace Edwards

variable {F : Type} [Field F] {E : Curve F} {P Q : E.Point}

/-! ## Signs -/

/-- Of two opposite elements, one is negative, unless they are zero. -/
structure IsSign (neg : F → Prop) : Prop where
  zero : ¬ neg 0
  flip : ∀ {x : F}, x ≠ 0 → (neg (-x) ↔ ¬ neg x)

variable {neg : F → Prop}

theorem IsSign.eq_of_sq (h : IsSign neg) {x y : F} (hx : ¬ neg x) (hy : ¬ neg y) (hsq : x ^ 2 = y ^ 2) : x = y := by
  rcases sq_eq_sq_iff_eq_or_eq_neg.1 hsq with heq | hneg
  · exact heq
  · by_cases h0 : y = 0
    · rw [hneg, h0, neg_zero]
    · rw [hneg, h.flip h0] at hx
      exact absurd hy hx

/-- What a conditional negation leaves. -/
theorem IsSign.not_neg_neg (h : IsSign neg) {x : F} (hx : neg x) : ¬ neg (-x) := by
  have h0 : x ≠ 0 := by
    rintro rfl
    exact h.zero hx
  rw [h.flip h0]
  exact not_not.2 hx

/-! ## The encoding -/

/-- The member of the coset that is sent. -/
structure Normal (neg : F → Prop) (P : E.Point) : Prop where
  x : ¬ neg P.x
  t : ¬ neg (P.x * P.y)
  y : P.y ≠ 0

/-- **`s` stands for the coset of `P`.** -/
structure Encodes (neg : F → Prop) (s : F) (P : E.Point) : Prop where
  nonneg : ¬ neg s
  normal : Normal neg P
  ratio : s ^ 2 * (1 + P.y) = 1 - P.y

section

variable (h2 : (2 : F) ≠ 0)

include h2

theorem Encodes.one_add_y_ne_zero {s : F} (h : Encodes neg s P) : 1 + P.y ≠ 0 := by
  intro h0
  refine h2 ?_
  linear_combination (s ^ 2 + 1) * h0 - h.ratio

theorem Encodes.one_add_sq_ne_zero {s : F} (h : Encodes neg s P) : 1 + s ^ 2 ≠ 0 := by
  intro h0
  refine h2 ?_
  linear_combination (1 + P.y) * h0 - h.ratio

/-- `y`, from `s`. -/
theorem Encodes.y_eq {s : F} (h : Encodes neg s P) : P.y = (1 - s ^ 2) / (1 + s ^ 2) := by
  rw [eq_div_iff (h.one_add_sq_ne_zero h2)]
  linear_combination h.ratio

/-- A point has one encoding. -/
theorem Encodes.encoding_unique (hneg : IsSign neg) {s t : F} (hs : Encodes neg s P) (ht : Encodes neg t P) : s = t := by
  refine hneg.eq_of_sq hs.nonneg ht.nonneg (mul_right_cancel₀ (hs.one_add_y_ne_zero h2) ?_)
  rw [hs.ratio, ht.ratio]

variable (ha : E.a = -1)

include ha

/-- `x²`, from `s`. -/
theorem Encodes.x_sq {s : F} (h : Encodes neg s P) :
    P.x ^ 2 * (-E.d * (1 - s ^ 2) ^ 2 - (1 + s ^ 2) ^ 2) = 4 * s ^ 2 := by
  have hne := h.one_add_sq_ne_zero h2
  have hcurve := curve_eq ha P
  have hy := h.y_eq h2
  rw [eq_div_iff hne] at hy
  linear_combination (1 + s ^ 2) ^ 2 * hcurve + (-(1 + s ^ 2) * P.y - (1 - s ^ 2)) * (1 - E.d * P.x ^ 2) * hy

/-- A coset has one member that is sent. -/
theorem Normal.unique (hneg : IsSign neg) (hP : Normal neg P) (hQ : Normal neg Q) (hPy : 1 + P.y ≠ 0) (hQy : 1 + Q.y ≠ 0)
    (h : 4 • (P - Q) = 0) : P = Q := by
  obtain ⟨c, ⟨hx, hy, hc⟩ | ⟨hx, hy, hc⟩⟩ := coset_coords ha h2 h
  · rw [← one_pow 2] at hc
    rcases sq_eq_sq_iff_eq_or_eq_neg.1 hc with rfl | rfl
    · exact Curve.Point.ext (by rw [hx, one_mul]) (by rw [hy, one_mul])
    · -- both are `(0, 1)` or `(0, -1)`, and the second is not sent
      exfalso
      have hQx : Q.x = 0 := by
        by_contra hne
        have hPx := hP.x
        rw [hx, neg_one_mul, hneg.flip hne] at hPx
        exact hPx hQ.x
      have hcurve := curve_eq ha Q
      rw [hQx] at hcurve
      refine mul_ne_zero hPy hQy ?_
      rw [hy]
      linear_combination -hcurve
  · -- the products of the coordinates are opposite, and so zero
    exfalso
    have ht : P.x * P.y = -(Q.x * Q.y) := by
      rw [hx, hy]
      linear_combination Q.x * Q.y * hc
    have hprod : Q.x * Q.y = 0 := by
      by_contra hne
      have hPt := hP.t
      rw [ht, hneg.flip hne] at hPt
      exact hPt hQ.t
    have hQx := (mul_eq_zero.1 hprod).resolve_right hQ.y
    rw [hQx, mul_zero] at hy
    exact hP.y hy

variable {k : F} (hk : k ^ 2 = -(1 + E.d)) (hk0 : k ≠ 0)

include hk hk0

omit h2 in
theorem Encodes.isEven {s : F} (h : Encodes neg s P) : IsEven P := by
  rw [isEven_iff ha hk hk0]
  refine ⟨s * (1 + P.y), ?_⟩
  linear_combination -(1 + P.y) * h.ratio

omit h2 in
theorem one_add_d_mul_y_sq_ne_zero (P : E.Point) : 1 + E.d * P.y ^ 2 ≠ 0 := by
  intro h0
  have hcurve := curve_eq ha P
  refine pow_ne_zero 2 hk0 ?_
  rw [hk]
  linear_combination E.d * hcurve - (1 - E.d * P.x ^ 2) * h0

/-- **An encoding stands for one point.** -/
theorem Encodes.point_unique (hneg : IsSign neg) {s : F} (hP : Encodes neg s P) (hQ : Encodes neg s Q) : P = Q := by
  have hy : P.y = Q.y := by rw [hP.y_eq h2, hQ.y_eq h2]
  have hx : P.x ^ 2 * (1 + E.d * P.y ^ 2) = Q.x ^ 2 * (1 + E.d * P.y ^ 2) := by
    have hQ' := curve_eq ha Q
    rw [← hy] at hQ'
    linear_combination hQ' - curve_eq ha P
  have hne := one_add_d_mul_y_sq_ne_zero ha hk hk0 P
  exact Curve.Point.ext (hneg.eq_of_sq hP.normal.x hQ.normal.x (mul_right_cancel₀ hne hx)) hy

/-- **The cosets and the encodings are one to one.** -/
theorem Encodes.coset_iff (hneg : IsSign neg) {s t : F} (hP : Encodes neg s P) (hQ : Encodes neg t Q) :
    4 • (P - Q) = 0 ↔ s = t := by
  constructor
  · intro h
    have heq := hP.normal.unique h2 ha hneg hQ.normal (hP.one_add_y_ne_zero h2) (hQ.one_add_y_ne_zero h2) h
    subst heq
    exact hP.encoding_unique h2 hneg hQ
  · rintro rfl
    rw [hP.point_unique h2 ha hk hk0 hneg hQ, sub_self, nsmul_zero]

/-! ## Decoding -/

/-- What is taken the root of. -/
def decodeDenominator (d s : F) : F := -d * (1 - s ^ 2) ^ 2 - (1 + s ^ 2) ^ 2

theorem Encodes.denominator {s : F} (h : Encodes neg s P) :
    decodeDenominator E.d s ≠ 0 ∧ IsSquare (decodeDenominator E.d s) := by
  have hx := h.x_sq h2 ha
  by_cases hs : s = 0
  · have hv : decodeDenominator E.d s = k ^ 2 := by
      rw [decodeDenominator, hs, hk]
      ring
    rw [hv]
    exact ⟨pow_ne_zero 2 hk0, k, sq k⟩
  · have h4 : (4 : F) * s ^ 2 ≠ 0 := by
      have h22 : (4 : F) = 2 * 2 := by norm_num
      rw [h22]
      exact mul_ne_zero (mul_ne_zero h2 h2) (pow_ne_zero 2 hs)
    have hne := mul_ne_zero_iff.1 (hx ▸ h4)
    refine ⟨hne.2, 2 * s / P.x, ?_⟩
    rw [decodeDenominator, ← sq, div_pow, eq_div_iff hne.1]
    linear_combination hx

end

section

variable {d s I X : F} (hI : I ^ 2 * (decodeDenominator d s * (1 + s ^ 2) ^ 2) = 1)

include hI

theorem decode_y : (1 - s ^ 2) * (I * (I * (1 + s ^ 2) * decodeDenominator d s)) * (1 + s ^ 2) = 1 - s ^ 2 := by
  linear_combination (1 - s ^ 2) * hI

theorem decode_x_sq (hX : X ^ 2 = ((s + s) * (I * (1 + s ^ 2))) ^ 2) : X ^ 2 * decodeDenominator d s = 4 * s ^ 2 := by
  rw [hX]
  linear_combination 4 * s ^ 2 * hI

/-- **What is decoded is on the curve.** -/
theorem decode_onCurve (hX : X ^ 2 = ((s + s) * (I * (1 + s ^ 2))) ^ 2) {Y : F}
    (hY : Y = (1 - s ^ 2) * (I * (I * (1 + s ^ 2) * decodeDenominator d s))) : OnCurve (-1) d (X, Y) := by
  have hy : Y * (1 + s ^ 2) = 1 - s ^ 2 := by
    rw [hY]
    exact decode_y hI
  have hx := decode_x_sq hI hX
  have hne : decodeDenominator d s * (1 + s ^ 2) ^ 2 ≠ 0 := by
    intro h0
    rw [h0, mul_zero] at hI
    exact zero_ne_one hI
  refine mul_right_cancel₀ hne ?_
  rw [decodeDenominator] at hx ⊢
  linear_combination (-(1 + s ^ 2) ^ 2 - d * (Y * (1 + s ^ 2)) ^ 2) * hx +
    (-d * (1 - s ^ 2) ^ 2 - (1 + s ^ 2) ^ 2 - 4 * d * s ^ 2) * (Y * (1 + s ^ 2) + (1 - s ^ 2)) * hy

end

/-! ## Encoding -/

section

variable (ha : E.a = -1)

include ha

/-- The member of the coset with the coordinates times `c`. -/
theorem exists_straight (h2 : (2 : F) ≠ 0) {c : F} (hc : c ^ 2 = 1) (P : E.Point) :
    ∃ Q : E.Point, 4 • (P - Q) = 0 ∧ Q.x = c * P.x ∧ Q.y = c * P.y := by
  have hon : OnCurve E.a E.d (c * P.x, c * P.y) := by
    rw [OnCurve, ha]
    linear_combination curve_eq ha P + (P.y ^ 2 - P.x ^ 2 - E.d * P.x ^ 2 * P.y ^ 2 * (c ^ 2 + 1)) * hc
  refine ⟨⟨c * P.x, c * P.y, hon⟩, (Edwards.coset_iff ha h2).2 (Or.inl ?_), rfl, rfl⟩
  dsimp only
  ring

/-- And the one with the coordinates exchanged. -/
theorem exists_crossed (h2 : (2 : F) ≠ 0) {c : F} (hc : c ^ 2 = -1) (P : E.Point) :
    ∃ Q : E.Point, 4 • (P - Q) = 0 ∧ Q.x = c * P.y ∧ Q.y = c * P.x := by
  have hon : OnCurve E.a E.d (c * P.y, c * P.x) := by
    rw [OnCurve, ha]
    linear_combination curve_eq ha P + (P.x ^ 2 - P.y ^ 2 - E.d * P.x ^ 2 * P.y ^ 2 * (c ^ 2 - 1)) * hc
  refine ⟨⟨c * P.y, c * P.x, hon⟩, (Edwards.coset_iff ha h2).2 (Or.inr ?_), rfl, rfl⟩
  dsimp only
  ring

/-- **The member that is sent**, where `x * y` is not negative, -/
theorem exists_normal_straight (hneg : IsSign neg) (h2 : (2 : F) ≠ 0) (h0 : P.x * P.y ≠ 0) (ht : ¬ neg (P.x * P.y)) :
    ∃ Q : E.Point, 4 • (P - Q) = 0 ∧ Normal neg Q ∧ (neg P.x → Q.y = -P.y) ∧ (¬ neg P.x → Q.y = P.y) := by
  by_cases hx : neg P.x
  · obtain ⟨Q, hcoset, hQx, hQy⟩ := exists_straight ha h2 (c := -1) (by ring) P
    rw [neg_one_mul] at hQx hQy
    refine ⟨Q, hcoset, ⟨?_, ?_, ?_⟩, fun _ => hQy, fun h => absurd hx h⟩
    · rw [hQx]
      exact hneg.not_neg_neg hx
    · rwa [hQx, hQy, neg_mul_neg]
    · rw [hQy]
      exact neg_ne_zero.2 (mul_ne_zero_iff.1 h0).2
  · refine ⟨P, by rw [sub_self, nsmul_zero], ⟨hx, ht, (mul_ne_zero_iff.1 h0).2⟩, fun h => absurd h hx, fun _ => rfl⟩

/-- and where it is. -/
theorem exists_normal_crossed (hneg : IsSign neg) (h2 : (2 : F) ≠ 0) {i : F} (hi : i ^ 2 = -1) (h0 : P.x * P.y ≠ 0)
    (ht : neg (P.x * P.y)) : ∃ Q : E.Point, 4 • (P - Q) = 0 ∧ Normal neg Q ∧
      (neg (i * P.y) → Q.y = -(i * P.x)) ∧ (¬ neg (i * P.y) → Q.y = i * P.x) := by
  have hi0 : i ≠ 0 := by
    rintro rfl
    rw [zero_pow two_ne_zero] at hi
    exact one_ne_zero (neg_eq_zero.1 hi.symm)
  have hy : i * P.x ≠ 0 := mul_ne_zero hi0 (mul_ne_zero_iff.1 h0).1
  have hprod : i * P.y * (i * P.x) = -(P.x * P.y) := by linear_combination P.x * P.y * hi
  by_cases hx : neg (i * P.y)
  · obtain ⟨Q, hcoset, hQx, hQy⟩ := exists_crossed ha h2 (c := -i) (by rw [neg_sq, hi]) P
    rw [neg_mul] at hQx hQy
    refine ⟨Q, hcoset, ⟨?_, ?_, ?_⟩, fun _ => hQy, fun h => absurd hx h⟩
    · rw [hQx]
      exact hneg.not_neg_neg hx
    · rw [hQx, hQy, neg_mul_neg, hprod]
      exact hneg.not_neg_neg ht
    · rw [hQy]
      exact neg_ne_zero.2 hy
  · obtain ⟨Q, hcoset, hQx, hQy⟩ := exists_crossed ha h2 hi P
    refine ⟨Q, hcoset, ⟨?_, ?_, ?_⟩, fun h => absurd h hx, fun _ => hQy⟩
    · rwa [hQx]
    · rw [hQx, hQy, hprod]
      exact hneg.not_neg_neg ht
    · rwa [hQy]

end

theorem encodes_zero (hneg : IsSign neg) : Encodes neg 0 (0 : E.Point) := by
  have hx : (0 : E.Point).x = 0 := rfl
  have hy : (0 : E.Point).y = 1 := rfl
  refine ⟨hneg.zero, ⟨?_, ?_, ?_⟩, ?_⟩
  · rw [hx]
    exact hneg.zero
  · rw [hx, zero_mul]
    exact hneg.zero
  · rw [hy]
    exact one_ne_zero
  · rw [hy]
    ring

section

variable {X Y Z T I : F} (h : Extended E P X Y Z T) (hI : I ^ 2 * ((Z + Y) * (Z - Y) * (X * Y) ^ 2) = 1)

include h hI

theorem encode_z_inv : I * ((Z + Y) * (Z - Y)) * (I * (X * Y) * T) * Z = 1 := by
  have ht : T * Z = X * Y := by
    rw [h.t, h.x, h.y]
    ring
  linear_combination hI + I ^ 2 * (Z + Y) * (Z - Y) * (X * Y) * ht

omit h in
theorem encode_straight : (I * (X * Y)) ^ 2 * ((Z + Y) * (Z - Y)) = 1 := by linear_combination hI

theorem encode_crossed (ha : E.a = -1) {k m : F} (hk : k ^ 2 = -(1 + E.d)) (hm : m ^ 2 * k ^ 2 = 1) {i : F} (hi : i ^ 2 = -1) :
    (I * ((Z + Y) * (Z - Y)) * m) ^ 2 * ((Z + i * X) * (Z - i * X)) = 1 := by
  have hnorm : (Z + Y) * (Z - Y) * (Z ^ 2 + X ^ 2) = k ^ 2 * (X * Y) ^ 2 := by
    rw [h.x, h.y, hk]
    linear_combination Z ^ 4 * norm_eq ha P
  linear_combination hI + I ^ 2 * (Z + Y) * (Z - Y) * m ^ 2 * hnorm + I ^ 2 * (Z + Y) * (Z - Y) * (X * Y) ^ 2 * hm -
    (I * ((Z + Y) * (Z - Y)) * m) ^ 2 * X ^ 2 * hi

end

/-- **What is sent**, from an inverse root of `Z² - Y²`. -/
theorem ratio_of_denominator {Q : E.Point} {Y Z t s : F} (hZ : Z ≠ 0) (ht : t ^ 2 * ((Z + Y) * (Z - Y)) = 1) (hY : Y = Q.y * Z)
    (hs : s ^ 2 = (t * (Z - Y)) ^ 2) : s ^ 2 * (1 + Q.y) = 1 - Q.y := by
  refine mul_right_cancel₀ hZ ?_
  rw [hs]
  linear_combination (Z - Y) * ht - (1 + (t * (Z - Y)) ^ 2) * hY

/-! ## A point from any element -/

section

variable {d r c D N n : F}

/-- What makes the quotients below a point of the curve. -/
theorem elligator_norm (hD : D = (-1 - d * r) * (r + d)) (hn : n = c * (r - 1) * (d - 1) ^ 2 - D)
    (hc : c = -1 ∧ N = (r + 1) * (1 - d ^ 2) ∨ c = r ∧ N = r * ((r + 1) * (1 - d ^ 2))) :
    (1 + d) * n ^ 2 = (D + N) ^ 2 + d * (D - N) ^ 2 := by
  obtain ⟨rfl, rfl⟩ | ⟨rfl, rfl⟩ := hc
  · rw [hn, hD]
    ring
  · rw [hn, hD]
    ring

end

section

variable (ha : E.a = -1) (h2 : (2 : F) ≠ 0) {k : F} (hk : k ^ 2 = -(1 + E.d)) (hk0 : k ≠ 0)

include ha h2 hk hk0

/-- **The quotients are an even point**, whatever the root `s` of `N / D` is. -/
theorem elligator_completed {i : F} (hi : i ^ 2 = -1) (hd : ¬ IsSquare E.d) {D N n s : F}
    (hnorm : (1 + E.d) * n ^ 2 = (D + N) ^ 2 + E.d * (D - N) ^ 2) (hs : s ^ 2 * D = N) (hD : D ≠ 0) :
    ∃ P : E.Point, Completed E P ((s + s) * D) (1 - s ^ 2) (n * k) (1 + s ^ 2) ∧ IsEven P := by
  have hnorm' : (1 + E.d) * n ^ 2 = D ^ 2 * ((1 + s ^ 2) ^ 2 + E.d * (1 - s ^ 2) ^ 2) := by
    rw [hnorm, ← hs]
    ring
  have hT : 1 + s ^ 2 ≠ 0 := by
    intro h0
    have h2D : 2 * D ≠ 0 := mul_ne_zero h2 hD
    refine hd ⟨i * k * n / (2 * D), ?_⟩
    rw [← sq, div_pow, eq_div_iff (pow_ne_zero 2 h2D)]
    linear_combination -hnorm' + n ^ 2 * hk - k ^ 2 * n ^ 2 * hi + D ^ 2 * (E.d * (3 - s ^ 2) - (1 + s ^ 2)) * h0
  have hn : n ≠ 0 := by
    intro h0
    have hzero : D ^ 2 * ((1 + s ^ 2) ^ 2 + E.d * (1 - s ^ 2) ^ 2) = 0 := by
      rw [← hnorm', h0]
      ring
    have hsum := (mul_eq_zero.1 hzero).resolve_left (pow_ne_zero 2 hD)
    have hY : 1 - s ^ 2 ≠ 0 := by
      intro hY
      rw [hY, zero_pow two_ne_zero, mul_zero, add_zero] at hsum
      exact pow_ne_zero 2 hT hsum
    refine hd ⟨i * (1 + s ^ 2) / (1 - s ^ 2), ?_⟩
    rw [← sq, div_pow, eq_div_iff (pow_ne_zero 2 hY)]
    linear_combination hsum - (1 + s ^ 2) ^ 2 * hi
  have hZ : n * k ≠ 0 := mul_ne_zero hn hk0
  have hon : OnCurve E.a E.d ((s + s) * D / (n * k), (1 - s ^ 2) / (1 + s ^ 2)) := by
    have hx : (s + s) * D / (n * k) * (n * k) = (s + s) * D := div_mul_cancel₀ _ hZ
    have hy : (1 - s ^ 2) / (1 + s ^ 2) * (1 + s ^ 2) = 1 - s ^ 2 := div_mul_cancel₀ _ hT
    rw [OnCurve, ha]
    generalize (s + s) * D / (n * k) = x at hx ⊢
    generalize (1 - s ^ 2) / (1 + s ^ 2) = y at hy ⊢
    refine mul_right_cancel₀ (mul_ne_zero (pow_ne_zero 2 hZ) (pow_ne_zero 2 hT)) ?_
    linear_combination (-(1 + s ^ 2) ^ 2 - E.d * (y * (1 + s ^ 2)) ^ 2) * (x * (n * k) + (s + s) * D) * hx +
      ((n * k) ^ 2 - E.d * ((s + s) * D) ^ 2) * (y * (1 + s ^ 2) + (1 - s ^ 2)) * hy +
      n ^ 2 * ((1 - s ^ 2) ^ 2 - (1 + s ^ 2) ^ 2) * hk - ((1 - s ^ 2) ^ 2 - (1 + s ^ 2) ^ 2) * hnorm'
  refine ⟨⟨_, _, hon⟩, ⟨hZ, hT, (div_mul_cancel₀ _ hZ).symm, (div_mul_cancel₀ _ hT).symm⟩, ?_⟩
  rw [isEven_iff ha hk hk0]
  refine ⟨(s + s) / (1 + s ^ 2), ?_⟩
  dsimp only
  rw [← sq, div_pow, div_pow, eq_div_iff (pow_ne_zero 2 hT), sub_mul, div_mul_cancel₀ _ (pow_ne_zero 2 hT)]
  ring

end

/-! ## Doubles, without a root -/

section

variable {X Y Z T : F} (h : Extended E P X Y Z T)

include h

/-- The double, from the terms that the batch is made of. -/
theorem batch_double (ha : E.a = -1) : Z ^ 2 + T ^ 2 * E.d ≠ 0 ∧ Z ^ 2 - T ^ 2 * E.d ≠ 0 ∧
    (P + P).x * (Z ^ 2 + T ^ 2 * E.d) = X * (Y + Y) ∧ (P + P).y * (Z ^ 2 - T ^ 2 * E.d) = Y ^ 2 + X ^ 2 := by
  have hplus := Curve.Point.one_add_ne_zero P P
  have hminus := Curve.Point.one_sub_ne_zero P P
  have hf : Z ^ 2 + T ^ 2 * E.d = Z ^ 2 * (1 + E.d * (P.x * P.x * (P.y * P.y))) := by
    rw [h.t]
    ring
  have hh : Z ^ 2 - T ^ 2 * E.d = Z ^ 2 * (1 - E.d * (P.x * P.x * (P.y * P.y))) := by
    rw [h.t]
    ring
  rw [Curve.Point.add_x, Curve.Point.add_y, hf, hh, h.x, h.y, ha]
  refine ⟨mul_ne_zero (pow_ne_zero 2 h.ne) hplus, mul_ne_zero (pow_ne_zero 2 h.ne) hminus, ?_, ?_⟩
  · rw [mul_comm (Z ^ 2), ← mul_assoc, div_mul_cancel₀ _ hplus]
    ring
  · rw [mul_comm (Z ^ 2), ← mul_assoc, div_mul_cancel₀ _ hminus]
    ring

theorem batch_norm (ha : E.a = -1) : (Z ^ 2 - T ^ 2 * E.d) ^ 2 - (Y ^ 2 + X ^ 2) ^ 2 = -(1 + E.d) * (X * (Y + Y)) ^ 2 := by
  have hcurve := curve_eq ha P
  have hd : T ^ 2 * E.d = Z ^ 2 * (P.y ^ 2 - P.x ^ 2 - 1) := by
    rw [h.t]
    linear_combination -Z ^ 2 * hcurve
  rw [hd, h.x, h.y]
  linear_combination 4 * Z ^ 4 * norm_eq ha P

theorem batch_pythagoras (ha : E.a = -1) : (Z ^ 2 + T ^ 2 * E.d) ^ 2 + (X * (Y + Y)) ^ 2 = (Y ^ 2 + X ^ 2) ^ 2 := by
  have hcurve := curve_eq ha P
  have hd : T ^ 2 * E.d = Z ^ 2 * (P.y ^ 2 - P.x ^ 2 - 1) := by
    rw [h.t]
    linear_combination -Z ^ 2 * hcurve
  rw [hd, h.x, h.y]
  ring

end

/-- **What is sent**, without a root. -/
theorem ratio_of_batch {Q : E.Point} {h g m t s : F} (hh : h ≠ 0) (hone : (h ^ 2 - g ^ 2) * (m * (g * t)) ^ 2 = 1)
    (hQ : Q.y * h = g) (hs : s ^ 2 = ((h - g) * (m * (g * t))) ^ 2) : s ^ 2 * (1 + Q.y) = 1 - Q.y := by
  refine mul_right_cancel₀ hh ?_
  rw [hs]
  linear_combination (h - g) * hone + (((h - g) * (m * (g * t))) ^ 2 + 1) * hQ

end Edwards
