import Mathlib.Data.Int.ConditionallyCompleteOrder
import Mathlib.Data.Rat.Floor
import Mathlib.Order.Bounds.Basic
import Mathlib.Order.Monotone.Basic
import Mathlib.Tactic.Linarith

/-! Rounding integers to multiples of a step, and fractions toward zero. `floorTo` and `ceilTo` are
    the greatest multiple below and the least multiple above; both are monotone. `truncQ` is the
    fraction without its decimals: at most one off, on the side of zero. -/

namespace Matching

/-- The greatest multiple of `t` that is at most `x`. -/
def floorTo (t x : ℤ) : ℤ := x - x % t

/-- The least multiple of `t` that is at least `x`. -/
def ceilTo (t x : ℤ) : ℤ := -floorTo t (-x)

variable {t x y : ℤ}

theorem isGreatest_floorTo (ht : 0 < t) (x : ℤ) : IsGreatest {m | t ∣ m ∧ m ≤ x} (floorTo t x) := by
  have hmod := Int.emod_nonneg x ht.ne'
  refine ⟨⟨Int.dvd_self_sub_emod, by rw [floorTo]; omega⟩, ?_⟩
  rintro m ⟨hdvd, hle⟩
  rw [floorTo]
  by_contra hgt
  -- a multiple between `x - x % t` and `x` is a multiple less than `t` above another one
  have hdiff : t ∣ m - (x - x % t) := dvd_sub hdvd Int.dvd_self_sub_emod
  have hlt := Int.emod_lt_of_pos x ht
  have hle' := Int.le_of_dvd (by omega) hdiff
  omega

theorem isLeast_ceilTo (ht : 0 < t) (x : ℤ) : IsLeast {m | t ∣ m ∧ x ≤ m} (ceilTo t x) := by
  obtain ⟨⟨hdvd, hle⟩, hmax⟩ := isGreatest_floorTo ht (-x)
  refine ⟨⟨(dvd_neg).mpr hdvd, by rw [ceilTo]; omega⟩, ?_⟩
  rintro m ⟨hm, hxm⟩
  have h := hmax (show -m ∈ {m | t ∣ m ∧ m ≤ -x} from ⟨(dvd_neg).mpr hm, by omega⟩)
  rw [ceilTo]
  omega

theorem floorTo_le (ht : 0 < t) : floorTo t x ≤ x := (isGreatest_floorTo ht x).1.2

theorem le_ceilTo (ht : 0 < t) : x ≤ ceilTo t x := (isLeast_ceilTo ht x).1.2

theorem lt_floorTo_add (ht : 0 < t) : x < floorTo t x + t := by
  have h := Int.emod_lt_of_pos x ht
  rw [floorTo]
  omega

theorem ceilTo_lt_add (ht : 0 < t) : ceilTo t x < x + t := by
  have h := lt_floorTo_add (x := -x) ht
  rw [ceilTo]
  omega

theorem floorTo_mono (ht : 0 < t) : Monotone (floorTo t) := fun _ y hxy =>
  (isGreatest_floorTo ht y).2 ⟨(isGreatest_floorTo ht _).1.1, (floorTo_le ht).trans hxy⟩

theorem ceilTo_mono (ht : 0 < t) : Monotone (ceilTo t) :=
  fun _ _ hxy => neg_le_neg (floorTo_mono ht (neg_le_neg hxy))

theorem floorTo_eq_iff (ht : 0 < t) : floorTo t x = x ↔ t ∣ x := by
  refine ⟨fun h => h ▸ (isGreatest_floorTo ht x).1.1, fun h => ?_⟩
  exact le_antisymm (floorTo_le ht) ((isGreatest_floorTo ht x).2 ⟨h, le_rfl⟩)

theorem ceilTo_eq_iff (ht : 0 < t) : ceilTo t x = x ↔ t ∣ x := by
  rw [ceilTo, neg_eq_iff_eq_neg, floorTo_eq_iff ht, dvd_neg]

/-- The remainder that C++ division leaves, from which both are computed there. -/
theorem floorTo_of_tmod (ht : 0 < t) (x : ℤ) :
    floorTo t x = if x.tmod t ≥ 0 then x - x.tmod t else x - x.tmod t - t := by
  have hdvd : t ∣ x - x.tmod t := Int.dvd_self_sub_tmod
  have hlo := Int.lt_tmod_of_pos x ht
  have hhi := Int.tmod_lt_of_pos x ht
  refine IsGreatest.unique (isGreatest_floorTo ht x) ?_
  split_ifs with h
  · refine ⟨⟨hdvd, by omega⟩, fun m hm => ?_⟩
    by_contra hgt
    have hle := Int.le_of_dvd (by omega) (dvd_sub hm.1 hdvd)
    have := hm.2
    omega
  · refine ⟨⟨dvd_sub hdvd dvd_rfl, by omega⟩, fun m hm => ?_⟩
    by_contra hgt
    have hle := Int.le_of_dvd (by omega) (dvd_sub hm.1 (dvd_sub hdvd dvd_rfl))
    have := hm.2
    omega

theorem ceilTo_of_tmod (ht : 0 < t) (x : ℤ) : ceilTo t x =
    if x.tmod t = 0 then x else if x.tmod t > 0 then x + t - x.tmod t else x - x.tmod t := by
  have hneg : (-x).tmod t = -(x.tmod t) := Int.neg_tmod ..
  rw [ceilTo, floorTo_of_tmod ht, hneg]
  split_ifs <;> omega

/-! ### Fractions -/

/-- The fraction without its decimals. -/
def truncQ (q : ℚ) : ℤ := if 0 ≤ q then ⌊q⌋ else ⌈q⌉

variable {q : ℚ}

theorem truncQ_le (h : 0 ≤ q) : (truncQ q : ℚ) ≤ q := by
  rw [truncQ, if_pos h]
  exact Int.floor_le q

theorem lt_truncQ_add_one (q : ℚ) : q < truncQ q + 1 := by
  rw [truncQ]
  split_ifs
  · exact Int.lt_floor_add_one q
  · exact (Int.le_ceil q).trans_lt (lt_add_one _)

theorem le_truncQ (h : q ≤ 0) : q ≤ truncQ q := by
  rcases h.lt_or_eq with hlt | rfl
  · rw [truncQ, if_neg (not_le.mpr hlt)]
    exact Int.le_ceil q
  · simp [truncQ]

theorem truncQ_lt_add_one (q : ℚ) : (truncQ q : ℚ) < q + 1 := by
  rw [truncQ]
  split_ifs
  · exact (Int.floor_le q).trans_lt (lt_add_one _)
  · exact Int.ceil_lt_add_one q

end Matching
