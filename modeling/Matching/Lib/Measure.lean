import Mathlib.Data.Fintype.BigOperators

/-! Measures of a state that are sums over its threads: what a step of one thread does to them. -/

namespace Matching

/-- A sum changes as the summand does that is replaced. -/
theorem sum_update {ι α : Type} [Fintype ι] [DecidableEq ι] (f : ι → α) (g : α → ℕ) (i : ι)
    (x : α) :
    ∑ j, g (Function.update f i x j) + g (f i) = ∑ j, g (f j) + g x := by
  have hrest : ∑ j ∈ Finset.univ.erase i, g (Function.update f i x j) =
      ∑ j ∈ Finset.univ.erase i, g (f j) :=
    Finset.sum_congr rfl fun j hj => by rw [Function.update_of_ne (Finset.ne_of_mem_erase hj)]
  rw [← Finset.add_sum_erase _ _ (Finset.mem_univ i),
    ← Finset.add_sum_erase _ (fun j => g (f j)) (Finset.mem_univ i), hrest, Function.update_self]
  omega

end Matching
