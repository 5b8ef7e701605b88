import Mathlib.AlgebraicGeometry.EllipticCurve.Affine.Point

/-! Jacobian coordinates on a short Weierstrass curve: what a triple stands for, and the formulas
    that double and add triples. -/

namespace Matching

open WeierstrassCurve.Affine

variable {F : Type} [Field F]

/-- The curve `y² = x³ + a x + b`. -/
def shortCurve (a b : F) : WeierstrassCurve.Affine F := ⟨0, 0, 0, a, b⟩

/-- The triple stands for the point at infinity if `z` is zero, else for the point
    `(x / z², y / z³)`. -/
inductive Represents {E : WeierstrassCurve.Affine F} (x y z : F) : E.Point → Prop where
  | infinite (hz : z = 0) : Represents x y z 0
  | finite (hz : z ≠ 0) (h : E.Nonsingular (x / z ^ 2) (y / z ^ 3)) : Represents x y z (.some _ _ h)

variable {E : WeierstrassCurve.Affine F} {a b x y z x1 y1 z1 x2 y2 z2 : F} {P Q : E.Point}

theorem represents_zero_iff : Represents x y z P → (P = 0 ↔ z = 0) := by
  intro h
  cases h with
  | infinite hz => exact iff_of_true rfl hz
  | finite hz h => exact iff_of_false (Point.some_ne_zero h) hz

theorem represents_unique (hP : Represents x y z P) (hQ : Represents x y z Q) : P = Q := by
  cases hP with
  | infinite hz => exact ((represents_zero_iff hQ).mpr hz).symm
  | finite hz h =>
    cases hQ with
    | infinite hz' => exact absurd hz' hz
    | finite => rfl

/-- A finite point under its own coordinates. -/
theorem represents_some {X Y : F} (h : E.Nonsingular X Y) (hz : z ≠ 0) (hx : x = X * z ^ 2)
    (hy : y = Y * z ^ 3) :
    Represents x y z (.some X Y h) := by
  have hX : X = x / z ^ 2 := by rw [hx, mul_div_cancel_right₀ _ (pow_ne_zero 2 hz)]
  have hY : Y = y / z ^ 3 := by rw [hy, mul_div_cancel_right₀ _ (pow_ne_zero 3 hz)]
  subst hX hY
  exact .finite hz h

theorem Represents.coordinates (h : Represents x y z P) (hz : z ≠ 0) :
    ∃ (X Y : F) (hXY : E.Nonsingular X Y), P = .some X Y hXY ∧ x = X * z ^ 2 ∧ y = Y * z ^ 3 := by
  cases h with
  | infinite hz' => exact absurd hz' hz
  | finite _ h =>
    exact ⟨_, _, h, rfl, (div_mul_cancel₀ x (pow_ne_zero 2 hz)).symm,
      (div_mul_cancel₀ y (pow_ne_zero 3 hz)).symm⟩

variable [DecidableEq F]

/-- The triple of twice a point. -/
theorem represents_double {P : (shortCurve a b).Point} (h2 : (2 : F) ≠ 0) (h : Represents x y z P)
    (hz : z ≠ 0) {m s : F} (hm : m = 3 * x ^ 2 + a * z ^ 4) (hs : s = 4 * x * y ^ 2)
    {x' y' z' : F} (hx' : x' = m ^ 2 - 2 * s) (hy' : y' = m * (s - x') - 8 * y ^ 4)
    (hz' : z' = 2 * y * z) : Represents x' y' z' (P + P) := by
  obtain ⟨X, Y, hXY, rfl, rfl, rfl⟩ := h.coordinates hz
  have hneg : (shortCurve a b).negY X Y = -Y := by simp [WeierstrassCurve.Affine.negY, shortCurve]
  by_cases hY : Y = 0
  · rw [Point.add_self_of_Y_eq (by rw [hneg, hY, neg_zero])]
    exact .infinite (by rw [hz', hY]; ring)
  · have hne : Y ≠ (shortCurve a b).negY X Y := by
      rw [hneg]
      intro h
      have : 2 * Y = 0 := by linear_combination h
      exact hY ((mul_eq_zero.mp this).resolve_left h2)
    rw [Point.add_self_of_Y_ne hne]
    have hslope : (shortCurve a b).slope X X Y Y = (3 * X ^ 2 + a) / (2 * Y) := by
      rw [slope_of_Y_ne rfl hne, hneg]
      simp only [shortCurve]
      congr 1 <;> ring
    have h2Y : 2 * Y ≠ 0 := mul_ne_zero h2 hY
    have hX' : x' = (shortCurve a b).addX X X ((shortCurve a b).slope X X Y Y) * z' ^ 2 := by
      rw [hslope, hx', hm, hs, hz', addX]
      simp only [shortCurve]
      field_simp
      ring
    refine represents_some _ ?_ hX' ?_
    · rw [hz']
      exact mul_ne_zero (mul_ne_zero h2 (mul_ne_zero hY (pow_ne_zero 3 hz))) hz
    · rw [hslope] at hX' ⊢
      rw [hy', hX', hm, hs, hz', addY, negAddY, WeierstrassCurve.Affine.negY]
      simp only [addX, shortCurve]
      field_simp
      ring

/-- The triple of a sum, for points with different first coordinates. -/
theorem represents_add {P Q : (shortCurve a b).Point} (hP : Represents x1 y1 z1 P)
    (hQ : Represents x2 y2 z2 Q) (hz1 : z1 ≠ 0) (hz2 : z2 ≠ 0) {u s h r : F}
    (hu : u = x1 * z2 ^ 2) (hs : s = y1 * z2 ^ 3) (hh : h = x2 * z1 ^ 2 - u)
    (hr : r = y2 * z1 ^ 3 - s) (hne : h ≠ 0) {x' y' z' : F}
    (hx' : x' = r ^ 2 - h ^ 3 - 2 * (u * h ^ 2)) (hy' : y' = r * (u * h ^ 2 - x') - s * h ^ 3)
    (hz' : z' = h * (z1 * z2)) :
    Represents x' y' z' (P + Q) := by
  obtain ⟨X1, Y1, h1, rfl, rfl, rfl⟩ := hP.coordinates hz1
  obtain ⟨X2, Y2, h2, rfl, rfl, rfl⟩ := hQ.coordinates hz2
  have hX : X1 - X2 ≠ 0 := by
    intro h0
    refine hne ?_
    rw [hh, hu, sub_eq_zero.mp h0]
    ring
  rw [Point.add_of_X_ne (sub_ne_zero.mp hX)]
  have hslope : (shortCurve a b).slope X1 X2 Y1 Y2 = (Y1 - Y2) / (X1 - X2) :=
    slope_of_X_ne (sub_ne_zero.mp hX)
  have hX' : x' = (shortCurve a b).addX X1 X2 ((shortCurve a b).slope X1 X2 Y1 Y2) * z' ^ 2 := by
    rw [hslope, hx', hr, hz', hh, hu, hs, addX]
    simp only [shortCurve]
    field_simp
    ring
  refine represents_some _ ?_ hX' ?_
  · rw [hz']
    exact mul_ne_zero hne (mul_ne_zero hz1 hz2)
  · rw [hslope] at hX' ⊢
    rw [hy', hX', hr, hz', hh, hu, hs, addY, negAddY, WeierstrassCurve.Affine.negY]
    simp only [addX, shortCurve]
    field_simp
    ring

/-- Points with one first coordinate are equal or cancel out. -/
theorem represents_same {P Q : (shortCurve a b).Point} (hP : Represents x1 y1 z1 P)
    (hQ : Represents x2 y2 z2 Q) (hz1 : z1 ≠ 0) (hz2 : z2 ≠ 0) (hx : x1 * z2 ^ 2 = x2 * z1 ^ 2) :
    (y1 * z2 ^ 3 = y2 * z1 ^ 3 → P = Q) ∧ (y1 * z2 ^ 3 ≠ y2 * z1 ^ 3 → P + Q = 0) := by
  obtain ⟨X1, Y1, h1, rfl, rfl, rfl⟩ := hP.coordinates hz1
  obtain ⟨X2, Y2, h2, rfl, rfl, rfl⟩ := hQ.coordinates hz2
  have hX : X1 = X2 := by
    refine mul_right_cancel₀ (mul_ne_zero (pow_ne_zero 2 hz1) (pow_ne_zero 2 hz2)) ?_
    linear_combination hx
  subst hX
  refine ⟨fun hy => ?_, fun hy => ?_⟩
  · have hY : Y1 = Y2 := by
      refine mul_right_cancel₀ (mul_ne_zero (pow_ne_zero 3 hz1) (pow_ne_zero 3 hz2)) ?_
      linear_combination hy
    subst hY
    rfl
  · rcases Y_eq_of_X_eq h1.1 h2.1 rfl with hY | hY
    · exact absurd (by rw [hY]; ring) hy
    · exact Point.add_of_Y_eq rfl hY

end Matching
