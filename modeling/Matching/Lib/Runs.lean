import Mathlib.Algebra.BigOperators.Group.List.Basic
import Mathlib.Algebra.GroupWithZero.Nat
import Mathlib.Data.List.Nodup
import Mathlib.Data.List.Zip
import Mathlib.Tactic.SplitIfs

/-! Sequences given as runs (a value and how often it occurs), and two of them taken side by side:
    `zipRuns` cuts both at the shorter run and stands for the pairs of what they stand for. -/

namespace Matching.Runs

variable {α β : Type} {a x : α} {b : β} {k n : ℕ} {xs : List (α × ℕ)} {ys : List (β × ℕ)}

/-- What the runs stand for. -/
def expand (xs : List (α × ℕ)) : List α := xs.flatMap fun x => List.replicate x.2 x.1

/-- What is left of a run, if anything is. -/
def resume (a : α) (k : ℕ) (xs : List (α × ℕ)) : List (α × ℕ) := if k = 0 then xs else (a, k) :: xs

/-- The common part of the first two runs, then the rest. Every round uses up one run at least. -/
def zipRuns : ℕ → List (α × ℕ) → List (β × ℕ) → List ((α × β) × ℕ)
  | n + 1, (a, p) :: xs, (b, q) :: ys =>
    let m := if p < q then p else q
    ((a, b), m) :: zipRuns n (resume a (p - m) xs) (resume b (q - m) ys)
  | _, _, _ => []

/-! ### What runs stand for -/

@[simp] theorem expand_nil : expand ([] : List (α × ℕ)) = [] := rfl

@[simp] theorem expand_cons (y : α × ℕ) (xs : List (α × ℕ)) :
    expand (y :: xs) = List.replicate y.2 y.1 ++ expand xs := rfl

theorem expand_resume (a : α) (k : ℕ) (xs : List (α × ℕ)) :
    expand (resume a k xs) = List.replicate k a ++ expand xs := by
  unfold resume
  split_ifs with h
  · rw [h]
    rfl
  · rfl

theorem length_expand : ∀ xs : List (α × ℕ), (expand xs).length = (xs.map Prod.snd).sum
  | [] => rfl
  | y :: xs => by
      rw [expand_cons, List.length_append, List.length_replicate, length_expand xs, List.map_cons,
        List.sum_cons]

/-- Where no run is empty, the values are those of the runs. -/
theorem mem_expand (hpos : ∀ y ∈ xs, 0 < y.2) : x ∈ expand xs ↔ x ∈ xs.map Prod.fst := by
  rw [expand, List.mem_flatMap, List.mem_map]
  constructor
  · rintro ⟨y, hy, hx⟩
    exact ⟨y, hy, (List.eq_of_mem_replicate hx).symm⟩
  · rintro ⟨y, hy, rfl⟩
    exact ⟨y, hy, List.mem_replicate.mpr ⟨(hpos y hy).ne', rfl⟩⟩

theorem length_resume_le (a : α) (k : ℕ) (xs : List (α × ℕ)) :
    (resume a k xs).length ≤ xs.length + 1 := by
  unfold resume
  split_ifs
  · exact Nat.le_succ _
  · exact le_rfl

theorem resume_zero (a : α) (xs : List (α × ℕ)) : resume a 0 xs = xs := rfl

theorem mem_resume {y : α × ℕ} (h : y ∈ resume a k xs) : (y = (a, k) ∧ k ≠ 0) ∨ y ∈ xs := by
  unfold resume at h
  split_ifs at h with h0
  · exact .inr h
  · exact (List.mem_cons.mp h).imp (fun he => ⟨he, h0⟩) fun h => h

theorem resume_pos (h : ∀ y ∈ (a, n) :: xs, 0 < y.2) : ∀ y ∈ resume a k xs, 0 < y.2 := fun y hy =>
  (mem_resume hy).elim (fun he => he.1 ▸ Nat.pos_of_ne_zero he.2) fun hm =>
    h y (List.mem_cons_of_mem _ hm)

/-- What is left has no new values. -/
theorem fst_mem_of_resume (h : x ∈ (resume a k xs).map Prod.fst) :
    x ∈ ((a, n) :: xs).map Prod.fst := by
  obtain ⟨y, hy, rfl⟩ := List.mem_map.mp h
  rcases mem_resume hy with ⟨rfl, _⟩ | hm
  · exact List.mem_cons_self
  · exact List.mem_cons_of_mem _ (List.mem_map.mpr ⟨y, hm, rfl⟩)

theorem nodup_resume (h : (((a, n) :: xs).map Prod.fst).Nodup) :
    ((resume a k xs).map Prod.fst).Nodup := by
  unfold resume
  split_ifs
  · exact (List.nodup_cons.mp h).2
  · exact h

/-! ### Two sequences side by side -/

/-- With a round for every run, `zipRuns` stands for the pairs. -/
theorem expand_zipRuns :
    ∀ (n : ℕ) (xs : List (α × ℕ)) (ys : List (β × ℕ)), xs.length + ys.length ≤ n →
    expand (zipRuns n xs ys) = (expand xs).zip (expand ys)
  | 0, [], _, _ => rfl
  | 0, _ :: _, _, hn => absurd hn (by simp)
  | _ + 1, [], _, _ => by simp [zipRuns]
  | _ + 1, _ :: _, [], _ => by simp [zipRuns]
  | n + 1, (a, p) :: xs, (b, q) :: ys, hn => by
    simp only [List.length_cons] at hn
    simp only [zipRuns, expand_cons]
    set m := if p < q then p else q with hm
    have hle : m ≤ p ∧ m ≤ q ∧ (p - m = 0 ∨ q - m = 0) := by
      rw [hm]
      split_ifs <;> omega
    obtain ⟨hp, hq, hend⟩ := hle
    have hfuel : (resume a (p - m) xs).length + (resume b (q - m) ys).length ≤ n := by
      have h1 := length_resume_le a (p - m) xs
      have h2 := length_resume_le b (q - m) ys
      rcases hend with h0 | h0
      · rw [h0, resume_zero]
        omega
      · rw [h0, resume_zero]
        omega
    have hcut : ∀ {γ : Type} (c : γ) {j : ℕ} (cs : List γ), m ≤ j →
        List.replicate j c ++ cs =
          List.replicate m c ++ (List.replicate (j - m) c ++ cs) := fun c j cs hj => by
      rw [← List.append_assoc, List.replicate_append_replicate, Nat.add_sub_cancel' hj]
    have hfront : ∀ (us : List α) (vs : List β),
        (List.replicate m a ++ us).zip (List.replicate m b ++ vs) =
        List.replicate m (a, b) ++ us.zip vs := fun us vs => by
      rw [List.zip_append (by rw [List.length_replicate, List.length_replicate]),
        List.zip_replicate']
    rw [expand_zipRuns n _ _ hfuel, expand_resume, expand_resume, hcut a (expand xs) hp,
      hcut b (expand ys) hq, hfront]

/-- A step takes a run of each sequence, and no empty one. -/
theorem mem_zipRuns :
    ∀ {n : ℕ} {xs : List (α × ℕ)} {ys : List (β × ℕ)} {z : (α × β) × ℕ}, z ∈ zipRuns n xs ys →
    (∀ y ∈ xs, 0 < y.2) → (∀ y ∈ ys, 0 < y.2) → z.1.1 ∈ xs.map Prod.fst ∧
      z.1.2 ∈ ys.map Prod.fst ∧ 0 < z.2
  | 0, _, _, _, h, _, _ => by simp [zipRuns] at h
  | _ + 1, [], _, _, h, _, _ => by simp [zipRuns] at h
  | _ + 1, _ :: _, [], _, h, _, _ => by simp [zipRuns] at h
  | n + 1, (a, p) :: xs, (b, q) :: ys, z, h, hx, hy => by
    have hp : 0 < p := hx (a, p) List.mem_cons_self
    have hq : 0 < q := hy (b, q) List.mem_cons_self
    rcases List.mem_cons.mp h with rfl | h
    · refine ⟨List.mem_cons_self, List.mem_cons_self, ?_⟩
      dsimp only
      split_ifs <;> assumption
    · obtain ⟨h1, h2, h3⟩ := mem_zipRuns h (resume_pos hx) (resume_pos hy)
      exact ⟨fst_mem_of_resume h1, fst_mem_of_resume h2, h3⟩

/-- Where each sequence has a run for a value, so have the pairs. -/
theorem nodup_zipRuns :
    ∀ {n : ℕ} {xs : List (α × ℕ)} {ys : List (β × ℕ)}, (∀ y ∈ xs, 0 < y.2) → (∀ y ∈ ys, 0 < y.2) →
    (xs.map Prod.fst).Nodup → (ys.map Prod.fst).Nodup → ((zipRuns n xs ys).map Prod.fst).Nodup
  | 0, _, _, _, _, _, _ => by simp [zipRuns]
  | _ + 1, [], _, _, _, _, _ => by simp [zipRuns]
  | _ + 1, _ :: _, [], _, _, _, _ => by simp [zipRuns]
  | n + 1, (a, p) :: xs, (b, q) :: ys, hx, hy, hnx, hny => by
    simp only [zipRuns, List.map_cons]
    set m := if p < q then p else q with hm
    refine List.nodup_cons.mpr
      ⟨fun hmem => ?_,
      nodup_zipRuns (resume_pos hx) (resume_pos hy) (nodup_resume hnx) (nodup_resume hny)⟩
    -- one of the two runs is used up, so its value does not come back
    obtain ⟨z, hz, hab⟩ := List.mem_map.mp hmem
    obtain ⟨h1, h2, -⟩ := mem_zipRuns hz (resume_pos hx) (resume_pos hy)
    rw [hab] at h1 h2
    have hend : p - m = 0 ∨ q - m = 0 := by
      rw [hm]
      split_ifs <;> omega
    rcases hend with h0 | h0
    · rw [h0, resume_zero] at h1
      exact (List.nodup_cons.mp hnx).1 h1
    · rw [h0, resume_zero] at h2
      exact (List.nodup_cons.mp hny).1 h2

end Matching.Runs
