import Matching.Lib.Limbs
import Mathlib.GroupTheory.OrderOfElement

/-! Multiples by doubling and adding, from the highest bit on, over any group. With an addition that
    does not come away from zero the loop goes wrong at certain beginnings of the multiplier. -/

namespace Matching

variable {W l : ℕ} {G : Type} [AddCommGroup G]

/-- A turn of the loop. Nothing is there before the first bit that is set. -/
def multipleTurn (add : G → G → G) (P : G) : Option G → Bool → Option G
  | none, b => if b then some P else none
  | some Q, b => some (if b then add (Q + Q) P else Q + Q)

/-- What the loop has behind the bits of `m`. -/
def multiple (P : G) (m : ℕ) : Option G := if m = 0 then none else some (m • P)

theorem multiple_turn (P : G) (m : ℕ) (b : Bool) :
    multipleTurn (· + ·) P (multiple P m) b = multiple P (2 * m + b.toNat) := by
  rcases Nat.eq_zero_or_pos m with rfl | hm
  · cases b with
    | false => rfl
    | true => simp [multiple, multipleTurn]
  · rw [multiple, multiple, if_neg hm.ne', if_neg (by omega)]
    cases b with
    | false => simp [multipleTurn, two_mul, add_nsmul]
    | true => simp [multipleTurn, two_mul, add_nsmul]

theorem bitLoop_multiple (P : G) (k : Limbs W l) :
    bitLoop (multipleTurn (· + ·) P) k none = multiple P k.value :=
  bitLoop_induct (P := fun m s => s = multiple P m) (fun m s b h => by rw [h, multiple_turn]) k rfl

/-- A beginning of `m`, in binary digits, is odd, more than one, and one modulo `n`. -/
def Passes (n m : ℕ) : Prop := ∃ j, m / 2 ^ j % 2 = 1 ∧ 1 < m / 2 ^ j ∧ n ∣ m / 2 ^ j - 1

theorem passes_append {n m : ℕ} (b : Bool) :
    Passes n (2 * m + b.toNat) ↔ Passes n m ∨ b = true ∧ 0 < m ∧ n ∣ 2 * m := by
  have hdiv (j : ℕ) : (2 * m + b.toNat) / 2 ^ (j + 1) = m / 2 ^ j := by
    rw [Nat.pow_succ', ← Nat.div_div_eq_div_mul, Nat.mul_add_div (by decide),
      Nat.div_eq_of_lt (Bool.toNat_lt b), Nat.add_zero]
  constructor
  · rintro ⟨j, hj⟩
    cases j with
    | zero =>
      rw [Nat.pow_zero, Nat.div_one] at hj
      cases b with
      | false =>
        have hodd : (2 * m) % 2 = 1 := hj.1
        omega
      | true => exact Or.inr ⟨rfl, by have : 1 < 2 * m + 1 := hj.2.1; omega, hj.2.2⟩
    | succ j =>
      rw [hdiv] at hj
      exact Or.inl ⟨j, hj⟩
  · rintro (⟨j, hj⟩ | ⟨rfl, hm, hn⟩)
    · exact ⟨j + 1, by rwa [hdiv]⟩
    · rw [Bool.toNat_true]
      exact ⟨0, by rw [Nat.pow_zero, Nat.div_one]; omega,
        by rw [Nat.pow_zero, Nat.div_one]; omega, by simpa using hn⟩

/-- An addition that leaves zero as it is. -/
def stuckAdd [DecidableEq G] (Q P : G) : G := if Q = 0 then 0 else Q + P

open Classical in
/-- What the loop has with the addition that is stuck. -/
noncomputable def stuckMultiple (P : G) (m : ℕ) : Option G :=
  if m = 0 then none else some (if Passes (addOrderOf P) m then 0 else m • P)

theorem stuckMultiple_turn [DecidableEq G] (P : G) (m : ℕ) (b : Bool) :
    multipleTurn stuckAdd P (stuckMultiple P m) b = stuckMultiple P (2 * m + b.toNat) := by
  rcases Nat.eq_zero_or_pos m with rfl | hm
  · cases b with
    | false => rfl
    | true =>
      have hnot : ¬ Passes (addOrderOf P) (2 * 0 + 1) := by
        rintro ⟨j, -, hlt, -⟩
        exact absurd hlt (Nat.not_lt.mpr (Nat.div_le_self 1 (2 ^ j)))
      simp [stuckMultiple, multipleTurn, hnot]
  · have happend := passes_append (n := addOrderOf P) (m := m) b
    have hdouble : m • P + m • P = (2 * m) • P := by rw [two_mul, add_nsmul]
    have hne : 2 * m + b.toNat ≠ 0 := by omega
    rw [stuckMultiple, stuckMultiple, if_neg hm.ne', if_neg hne, multipleTurn]
    by_cases hpass : Passes (addOrderOf P) m
    · rw [if_pos hpass, if_pos (happend.mpr (Or.inl hpass)), add_zero, stuckAdd,
        if_pos rfl, ite_self]
    · rw [if_neg hpass, hdouble]
      cases b with
      | false =>
        have hnot : ¬ Passes (addOrderOf P) (2 * m + false.toNat) := by
          rw [happend]
          rintro (h | ⟨h, -⟩)
          · exact hpass h
          · cases h
        rw [if_neg hnot]
        rfl
      | true =>
        have hzero : Passes (addOrderOf P) (2 * m + true.toNat) ↔ (2 * m) • P = 0 := by
          rw [happend, addOrderOf_dvd_iff_nsmul_eq_zero]
          simp only [hpass, hm, true_and, false_or]
        have hsucc : (2 * m) • P + P = (2 * m + true.toNat) • P := by
          rw [Bool.toNat_true, add_nsmul, one_nsmul]
        rw [if_pos rfl, stuckAdd, hsucc]
        simp only [hzero]

theorem bitLoop_stuckMultiple [DecidableEq G] (P : G) (k : Limbs W l) :
    bitLoop (multipleTurn stuckAdd P) k none = stuckMultiple P k.value :=
  bitLoop_induct (P := fun m s => s = stuckMultiple P m)
    (fun m s b h => by rw [h, stuckMultiple_turn]) k (by simp [stuckMultiple])

end Matching
