import Mathlib.Data.List.Basic
import Mathlib.Algebra.Order.Ring.Nat

/-! A log of items laid on `n` slots: the item of sequence number `i` is in slot `i % n`. Less than
    a lap apart, two sequence numbers share a slot only when they are equal, so a writer inside the
    window of the last lap damages nothing that is still to be read. -/

namespace Matching

variable {α : Type}

/-- Less than a lap apart, sequence numbers with one slot are equal. -/
theorem eq_of_same_slot {n i j : ℕ} (h : i % n = j % n) (hi : i < j + n) (hj : j < i + n) :
    i = j := by
  have hdi := Nat.div_add_mod i n
  have hdj := Nat.div_add_mod j n
  rcases Nat.lt_trichotomy (i / n) (j / n) with hlt | heq | hgt
  · have hmul : n * (i / n) + n ≤ n * (j / n) := by
      have hle := Nat.mul_le_mul_left n (Nat.succ_le_of_lt hlt)
      rwa [Nat.succ_eq_add_one, Nat.mul_add, Nat.mul_one] at hle
    omega
  · rw [heq] at hdi
    omega
  · have hmul : n * (j / n) + n ≤ n * (i / n) := by
      have hle := Nat.mul_le_mul_left n (Nat.succ_le_of_lt hgt)
      rwa [Nat.succ_eq_add_one, Nat.mul_add, Nat.mul_one] at hle
    omega

/-- Inside a lap, the slot of a sequence number is found from the slot of an earlier one. -/
theorem slot_add {n i k : ℕ} (hk : k < n) :
    (i + k) % n = if k < n - i % n then i % n + k else k - (n - i % n) := by
  have hn : 0 < n := by omega
  have hlt := Nat.mod_lt i hn
  rw [Nat.add_mod, Nat.mod_eq_of_lt hk]
  split
  · exact Nat.mod_eq_of_lt (by omega)
  · rw [Nat.mod_eq_sub_mod (by omega), Nat.mod_eq_of_lt (by omega)]
    omega

/-- The slots hold the log from sequence number `lo` up to `hi`; the log begins at `start`. -/
def Laid (n start : ℕ) (log : List α) (slots : ℕ → α) (lo hi : ℕ) : Prop :=
  ∀ i, lo ≤ i → i < hi → log[i - start]? = some (slots (i % n))

namespace Laid

variable {n start lo hi : ℕ} {log more : List α} {slots : ℕ → α}

theorem empty (h : hi ≤ lo) : Laid n start log slots lo hi :=
  fun _ hlo hhi => absurd (hlo.trans_lt hhi) (by omega)

theorem mono {lo' hi' : ℕ} (h : Laid n start log slots lo hi) (hlo : lo ≤ lo') (hhi : hi' ≤ hi) :
    Laid n start log slots lo' hi' := fun i h1 h2 => h i (hlo.trans h1) (h2.trans_le hhi)

theorem append (h : Laid n start log slots lo hi) : Laid n start (log ++ more) slots lo hi := by
  intro i hlo hhi
  have hi := h i hlo hhi
  have hlt := (List.getElem?_eq_some_iff.mp hi).1
  rw [List.getElem?_append_left hlt, hi]

/-- A write to the slot of `j` damages nothing of a window that ends less than a lap before `j`. -/
theorem write {j : ℕ} {v : α} (h : Laid n start log slots lo hi)
    (hj : ∀ i, lo ≤ i → i < hi → i ≠ j ∧ i < j + n ∧ j < i + n) :
    Laid n start log (Function.update slots (j % n) v) lo hi := by
  intro i hlo hhi
  obtain ⟨hne, hlt, hgt⟩ := hj i hlo hhi
  rw [Function.update_of_ne fun heq => hne (eq_of_same_slot heq hlt hgt)]
  exact h i hlo hhi

/-- Writing the item of `hi` extends the window. -/
theorem extend {v : α} (h : Laid n start log slots lo hi) (hn : 0 < n) (hlap : hi < lo + n)
    (hv : log[hi - start]? = some v) :
    Laid n start log (Function.update slots (hi % n) v) lo (hi + 1) := by
  intro i hlo hhi
  by_cases heq : i = hi
  · subst heq
    rw [Function.update_self, hv]
  · exact h.write (fun i h1 h2 => ⟨by omega, by omega, by omega⟩) i hlo (by omega)

/-- What the slots of a window hold is the log's part. -/
theorem read (h : Laid n start log slots lo hi) (hlo : start ≤ lo)
    (hlen : log.length = hi - start) (hle : lo ≤ hi) :
    (List.range (hi - lo)).map (fun k => slots ((lo + k) % n)) = log.drop (lo - start) := by
  refine List.ext_getElem? fun k => ?_
  rw [List.getElem?_map, List.getElem?_drop]
  by_cases hk : k < hi - lo
  · have hitem := h (lo + k) (by omega) (by omega)
    rw [show lo + k - start = lo - start + k by omega] at hitem
    rw [List.getElem?_range hk, hitem, Option.map_some]
  · rw [List.getElem?_eq_none (by simp only [List.length_range]; omega),
      List.getElem?_eq_none (by omega), Option.map_none]

end Laid

end Matching
