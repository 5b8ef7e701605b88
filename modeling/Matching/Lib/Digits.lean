import Mathlib.Data.Nat.Digits.Lemmas

/-! Digits from the most significant on: the number they are read as, how a top digit comes off a
    number, and what is lost when the digits that are zero are left out. -/

namespace Matching

variable {b a a' n i d r : ℕ} {ds : List ℕ}

/-- The number that is read from digits behind the digits of `a`. -/
def readDigits (b a : ℕ) (ds : List ℕ) : ℕ := ds.foldl (fun a d => a * b + d) a

theorem readDigits_digits (b n : ℕ) : readDigits b 0 (Nat.digits b n).reverse = n := by
  rw [readDigits, List.foldl_reverse]
  conv_rhs => rw [← Nat.ofDigits_digits b n, Nat.ofDigits_eq_foldr]
  simp only [Nat.cast_id, Nat.add_comm, Nat.mul_comm]

theorem readDigits_lt (hb : 0 < b) (h : a < a') :
    ∀ ds : List ℕ, readDigits b a ds < readDigits b a' ds := by
  intro ds
  induction ds generalizing a a' with
  | nil => exact h
  | cons d ds ih => exact ih (Nat.add_lt_add_right (Nat.mul_lt_mul_of_pos_right h hb) d)

theorem le_readDigits (hb : 0 < b) (a : ℕ) (ds : List ℕ) : a ≤ readDigits b a ds := by
  induction ds generalizing a with
  | nil => exact le_rfl
  | cons d ds ih =>
    exact ((Nat.le_mul_of_pos_right a hb).trans (Nat.le_add_right _ d)).trans (ih (a * b + d))

theorem filter_ne_zero (h : 0 ∉ ds) : ds.filter (· ≠ 0) = ds := by
  refine List.filter_eq_self.mpr (fun d hd => ?_)
  rw [decide_eq_true_eq]
  rintro rfl
  exact h hd

/-- Behind a number that is not zero every zero left out makes the number smaller. -/
theorem readDigits_filter_lt (hb : 1 < b) : ∀ {a : ℕ} {ds : List ℕ}, 0 < a → 0 ∈ ds →
    readDigits b a (ds.filter (· ≠ 0)) < readDigits b a ds
  | a, 0 :: ds, ha, _ => by
    have hle : readDigits b a (ds.filter (· ≠ 0)) ≤ readDigits b a ds := by
      by_cases hds : 0 ∈ ds
      · exact (readDigits_filter_lt hb ha hds).le
      · rw [filter_ne_zero hds]
    exact hle.trans_lt (readDigits_lt (by omega) (lt_mul_of_one_lt_right ha hb) ds)
  | a, (d + 1) :: ds, ha, hds => by
    rw [List.filter_cons_of_pos (by simp)]
    refine readDigits_filter_lt hb (a := a * b + (d + 1)) (by omega) ?_
    simpa using hds

/-- The digits of a number without those that are zero, most significant first. -/
def nonzeroDigits (b n : ℕ) : List ℕ := (Nat.digits b n).reverse.filter (· ≠ 0)

theorem nonzeroDigits_zero (b : ℕ) : nonzeroDigits b 0 = [] := by
  rw [nonzeroDigits, Nat.digits_zero]; rfl

theorem mem_nonzeroDigits_lt (hb : 1 < b) (hd : d ∈ nonzeroDigits b n) : d < b :=
  Nat.digits_lt_base hb (List.mem_reverse.mp (List.mem_of_mem_filter hd))

/-- A number whose digits are all needed is read back. -/
theorem readDigits_nonzeroDigits (h : 0 ∉ Nat.digits b n) :
    readDigits b 0 (nonzeroDigits b n) = n := by
  rw [nonzeroDigits, filter_ne_zero (by rwa [List.mem_reverse]), readDigits_digits]

/-- The top digit comes first, and behind it the digits of what is left. -/
theorem nonzeroDigits_top (hb : 1 < b) (hd : 0 < d) (hdb : d < b) (hr : r < b ^ i) :
    nonzeroDigits b (d * b ^ i + r) = d :: nonzeroDigits b r := by
  have hlen : (Nat.digits b r).length ≤ i := (Nat.digits_length_le_iff hb r).mpr hr
  have hdigits :=
    Nat.digits_append_zeroes_append_digits (b := b) (k := i - (Nat.digits b r).length) (m := d)
      (n := r) hb hd
  rw [Nat.add_sub_cancel' hlen, Nat.digits_of_lt b d hd.ne' hdb, Nat.mul_comm,
    Nat.add_comm] at hdigits
  rw [nonzeroDigits, ← hdigits]
  simp [nonzeroDigits, hd.ne', List.filter_append]

/-- A number with a zero among its digits is read back as a smaller one, and not as zero. -/
theorem readDigits_nonzeroDigits_lt (hb : 1 < b) (h : 0 ∈ Nat.digits b n) :
    0 < readDigits b 0 (nonzeroDigits b n) ∧ readDigits b 0 (nonzeroDigits b n) < n := by
  have hn : n ≠ 0 := by
    rintro rfl
    simp at h
  have hne := Nat.digits_ne_nil_iff_ne_zero (b := b) |>.mpr hn
  have htop := Nat.getLast_digit_ne_zero b hn
  have hread := readDigits_digits b n
  rw [nonzeroDigits]
  rw [← List.head_reverse (by simpa using hne)] at htop
  rw [← List.mem_reverse] at h
  rcases hds : (Nat.digits b n).reverse with _ | ⟨d, ds⟩
  · exact absurd hds (by simpa using hne)
  simp only [hds, List.head_cons] at htop h hread
  have hmem := (List.mem_cons.mp h).resolve_left htop.symm
  have hpos : 0 < 0 * b + d := by omega
  rw [List.filter_cons_of_pos (by simpa using htop)]
  refine ⟨hpos.trans_le (le_readDigits (by omega) _ _), ?_⟩
  conv_rhs => rw [← hread]
  exact readDigits_filter_lt hb hpos hmem

end Matching
