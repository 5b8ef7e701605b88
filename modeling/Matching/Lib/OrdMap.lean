import Mathlib.Algebra.BigOperators.Group.List.Basic
import Mathlib.Algebra.GroupWithZero.Nat
import Mathlib.Data.List.Basic
import Mathlib.Data.List.Pairwise
import Mathlib.Order.Basic
import Mathlib.Order.Lattice
import Mathlib.Tactic.SplitIfs

/-! Ordered associative containers with unique keys (`std::map`, and `std::unordered_map` up to its
    iteration order). The entries are kept sorted by key and the sortedness is a field, so two
    containers with the same lookups are the same container (`OrdMap.ext_find`). -/

namespace Matching

/-- A finite map whose entries are sorted by key. -/
structure OrdMap (κ β : Type) [LinearOrder κ] where
  entries : List (κ × β)
  sorted : entries.Pairwise (fun a b => a.1 < b.1)

namespace OrdMap

variable {κ β : Type} [LinearOrder κ]

/-- The value stored under `k` in a list of entries. -/
def assoc (k : κ) : List (κ × β) → Option β
  | [] => none
  | e :: es => if k = e.1 then some e.2 else assoc k es

/-- Store `v` under `k`, replacing what was there. -/
def put (k : κ) (v : β) : List (κ × β) → List (κ × β)
  | [] => [(k, v)]
  | e :: es =>
    if k < e.1 then (k, v) :: e :: es else if k = e.1 then (k, v) :: es else e :: put k v es

/-! ### The entry list -/

theorem mem_put {k : κ} {v : β} :
    ∀ {l : List (κ × β)} {e : κ × β}, e ∈ put k v l → e = (k, v) ∨ e ∈ l
  | [], e, h => by simpa [put] using h
  | x :: xs, e, h => by
    simp only [put] at h
    split_ifs at h with h1 h2
    · simpa using h
    · rcases List.mem_cons.mp h with h | h
      · exact Or.inl h
      · exact Or.inr (List.mem_cons_of_mem _ h)
    · rcases List.mem_cons.mp h with h | h
      · exact Or.inr (h ▸ List.mem_cons_self ..)
      · exact (mem_put h).imp id (List.mem_cons_of_mem _)

theorem sorted_put (k : κ) (v : β) : ∀ {l : List (κ × β)}, l.Pairwise (fun a b => a.1 < b.1) →
    (put k v l).Pairwise (fun a b => a.1 < b.1)
  | [], _ => by simp [put]
  | x :: xs, h => by
    obtain ⟨hx, hxs⟩ := List.pairwise_cons.mp h
    simp only [put]
    split_ifs with h1 h2
    · refine List.pairwise_cons.mpr ⟨fun e he => ?_, h⟩
      rcases List.mem_cons.mp he with rfl | he
      · exact h1
      · exact h1.trans (hx e he)
    · exact List.pairwise_cons.mpr ⟨fun e he => h2 ▸ hx e he, hxs⟩
    · refine List.pairwise_cons.mpr ⟨fun e he => ?_, sorted_put k v hxs⟩
      rcases mem_put he with rfl | he
      · exact lt_of_le_of_ne (not_lt.mp h1) (Ne.symm h2)
      · exact hx e he

theorem assoc_put (k k' : κ) (v : β) : ∀ l : List (κ × β),
    assoc k' (put k v l) = if k' = k then some v else assoc k' l
  | [] => by simp [put, assoc]
  | x :: xs => by
    have ih := assoc_put k k' v xs
    rcases lt_trichotomy k x.1 with h | h | h
    · simp [put, h, assoc]
    · by_cases hk : k' = k
      · simp [put, h, assoc, hk]
      · have hx : k' ≠ x.1 := h ▸ hk
        simp [put, h, assoc, hx]
    · by_cases hk : k' = k
      · simp [put, h.not_gt, h.ne', assoc, hk] at ih ⊢
        exact ih
      · simp [put, h.not_gt, h.ne', assoc, hk, ih]

theorem assoc_filter (k k' : κ) : ∀ l : List (κ × β),
    assoc k' (l.filter (fun e => e.1 ≠ k)) = if k' = k then none else assoc k' l
  | [] => by simp [assoc]
  | x :: xs => by
    have ih := assoc_filter k k' xs
    by_cases hx : x.1 = k
    · rw [List.filter_cons_of_neg (by simpa using hx), ih]
      by_cases hk : k' = k
      · simp [hk]
      · simp [hk, assoc, hx]
    · rw [List.filter_cons_of_pos (by simpa using hx), assoc, assoc, ih]
      by_cases hk : k' = k
      · simp [hk, Ne.symm hx]
      · simp [hk]

theorem assoc_eq_some_iff {l : List (κ × β)} (hl : l.Pairwise (fun a b => a.1 < b.1)) {k : κ}
    {v : β} :
    assoc k l = some v ↔ (k, v) ∈ l := by
  induction l with
  | nil => simp [assoc]
  | cons x xs ih =>
    obtain ⟨hx, hxs⟩ := List.pairwise_cons.mp hl
    by_cases hk : k = x.1
    · have hnone : (k, v) ∉ xs := fun hmem => absurd (hx _ hmem) (by simp [hk])
      simp only [assoc, hk, if_true, Option.some.injEq, List.mem_cons]
      constructor
      · rintro rfl; exact Or.inl rfl
      · rintro (h | h)
        · rw [← h]
        · exact absurd (hk ▸ h) hnone
    · have hne : (k, v) ≠ x := fun h => hk (by rw [← h])
      simp [assoc, hk, ih hxs, hne]

/-- Sorted entry lists with the same entries are equal. -/
theorem eq_of_mem_iff : ∀ {l l' : List (κ × β)}, l.Pairwise (fun a b => a.1 < b.1) →
    l'.Pairwise (fun a b => a.1 < b.1) → (∀ e, e ∈ l ↔ e ∈ l') → l = l'
  | [], [], _, _, _ => rfl
  | [], y :: _, _, _, h => absurd ((h y).mpr (List.mem_cons_self ..)) (by simp)
  | x :: _, [], _, _, h => absurd ((h x).mp (List.mem_cons_self ..)) (by simp)
  | x :: xs, y :: ys, hl, hl', h => by
    obtain ⟨hx, hxs⟩ := List.pairwise_cons.mp hl
    obtain ⟨hy, hys⟩ := List.pairwise_cons.mp hl'
    have hxy : x = y := by
      rcases List.mem_cons.mp ((h x).mp (List.mem_cons_self ..)) with e | hxm
      · exact e
      · rcases List.mem_cons.mp ((h y).mpr (List.mem_cons_self ..)) with e | hym
        · exact e.symm
        · exact absurd (hx y hym) (not_lt.mpr (hy x hxm).le)
    subst hxy
    have htail : ∀ e, e ∈ xs ↔ e ∈ ys := fun e => by
      constructor
      · intro he
        rcases List.mem_cons.mp ((h e).mp (List.mem_cons_of_mem _ he)) with rfl | he'
        · exact absurd (hx e he) (lt_irrefl _)
        · exact he'
      · intro he
        rcases List.mem_cons.mp ((h e).mpr (List.mem_cons_of_mem _ he)) with rfl | he'
        · exact absurd (hy e he) (lt_irrefl _)
        · exact he'
    rw [eq_of_mem_iff hxs hys htail]

/-! ### The container -/

def empty : OrdMap κ β := ⟨[], List.Pairwise.nil⟩

def find? (m : OrdMap κ β) (k : κ) : Option β := assoc k m.entries

def insert (m : OrdMap κ β) (k : κ) (v : β) : OrdMap κ β :=
  ⟨put k v m.entries, sorted_put k v m.sorted⟩

def erase (m : OrdMap κ β) (k : κ) : OrdMap κ β :=
  ⟨m.entries.filter (fun e => e.1 ≠ k), m.sorted.sublist List.filter_sublist⟩

/-- Keep the entries that satisfy `p`. -/
def filter (p : κ × β → Bool) (m : OrdMap κ β) : OrdMap κ β :=
  ⟨m.entries.filter p, m.sorted.sublist List.filter_sublist⟩

/-- `emplace`: store `v` under `k` unless the key is already there. -/
def emplace (m : OrdMap κ β) (k : κ) (v : β) : OrdMap κ β :=
  match m.find? k with
  | some _ => m
  | none => m.insert k v

@[simp] theorem find?_empty (k : κ) : (empty : OrdMap κ β).find? k = none := rfl

@[simp] theorem find?_insert (m : OrdMap κ β) (k k' : κ) (v : β) :
    (m.insert k v).find? k' = if k' = k then some v else m.find? k' := assoc_put k k' v m.entries

@[simp] theorem find?_erase (m : OrdMap κ β) (k k' : κ) :
    (m.erase k).find? k' = if k' = k then none else m.find? k' := assoc_filter k k' m.entries

theorem find?_emplace (m : OrdMap κ β) (k k' : κ) (v : β) :
    (m.emplace k v).find? k' = if k' = k then some ((m.find? k).getD v) else m.find? k' := by
  unfold emplace
  cases h : m.find? k with
  | none => simp
  | some u =>
    by_cases hk : k' = k
    · simp [hk, h]
    · simp [hk]

/-- Whatever is found after an `emplace` was there before, or it is what was stored. -/
theorem of_find?_emplace {m : OrdMap κ β} {k k' : κ} {v u : β}
    (h : (m.emplace k v).find? k' = some u) :
    m.find? k' = some u ∨ (k' = k ∧ u = v) := by
  rw [find?_emplace] at h
  split_ifs at h with hk
  · cases hf : m.find? k with
    | none =>
      rw [hf] at h
      exact .inr ⟨hk, (Option.some.inj h).symm⟩
    | some u' =>
      rw [hf] at h
      exact .inl (hk ▸ hf.trans h)
  · exact .inl h

theorem mem_entries {m : OrdMap κ β} {k : κ} {v : β} : (k, v) ∈ m.entries ↔ m.find? k = some v :=
  (assoc_eq_some_iff m.sorted).symm

theorem find?_filter (p : κ × β → Bool) (m : OrdMap κ β) {k : κ} {v : β} :
    (m.filter p).find? k = some v ↔ m.find? k = some v ∧ p (k, v) = true := by
  rw [← mem_entries, ← mem_entries, filter, List.mem_filter]

theorem ext_find {m m' : OrdMap κ β} (h : ∀ k, m.find? k = m'.find? k) : m = m' := by
  have he : m.entries = m'.entries :=
    eq_of_mem_iff m.sorted m'.sorted (fun ⟨k, v⟩ => by rw [mem_entries, mem_entries, h k])
  cases m; cases m'; simp only at he; subst he; rfl

theorem erase_none {m : OrdMap κ β} {k : κ} (hk : m.find? k = none) : m.erase k = m := by
  refine ext_find fun j => ?_
  rw [find?_erase]
  split_ifs with hj
  · rw [hj, hk]
  · rfl

/-- An entry that is new when it is stored is gone when its key is erased. -/
theorem erase_emplace {m : OrdMap κ β} {k : κ} (v : β) (hk : m.find? k = none) :
    (m.emplace k v).erase k = m := by
  refine ext_find fun j => ?_
  rw [find?_erase, find?_emplace]
  split_ifs with hj
  · rw [hj, hk]
  · rfl

/-! ### Sums over the entries -/

/-- The sum of `f` over all entries. -/
def total (f : κ → β → ℕ) (m : OrdMap κ β) : ℕ := (m.entries.map (fun e => f e.1 e.2)).sum

/-- What `f` makes of the entry under `k`, 0 when there is none. -/
def share (f : κ → β → ℕ) (m : OrdMap κ β) (k : κ) : ℕ := ((m.find? k).map (f k)).getD 0

theorem sum_put (f : κ → β → ℕ) (k : κ) (v : β) :
    ∀ {l : List (κ × β)}, l.Pairwise (fun a b => a.1 < b.1) →
    ((put k v l).map (fun e => f e.1 e.2)).sum + ((assoc k l).map (f k)).getD 0 =
      (l.map (fun e => f e.1 e.2)).sum + f k v
  | [], _ => by simp [put, assoc]
  | x :: xs, h => by
    obtain ⟨hx, hxs⟩ := List.pairwise_cons.mp h
    have ih := sum_put f k v hxs
    rcases lt_trichotomy k x.1 with hk | hk | hk
    · have hnone : assoc k xs = none := by
        rcases ha : assoc k xs with _ | u
        · rfl
        · exact absurd (hx _ ((assoc_eq_some_iff hxs).mp ha)) hk.not_gt
      simp only [put, hk, if_true, assoc, hk.ne, if_false, hnone, List.map_cons, List.sum_cons,
        Option.map_none, Option.getD_none]
      omega
    · subst hk
      simp only [put, lt_irrefl, if_false, if_true, assoc, List.map_cons, List.sum_cons,
        Option.map_some, Option.getD_some]
      omega
    · simp only [put, hk.not_gt, hk.ne', if_false, assoc, List.map_cons, List.sum_cons]
      omega

theorem total_insert (f : κ → β → ℕ) (m : OrdMap κ β) (k : κ) (v : β) :
    (m.insert k v).total f + m.share f k = m.total f + f k v := sum_put f k v m.sorted

theorem total_erase (f : κ → β → ℕ) (m : OrdMap κ β) (k : κ) :
    (m.erase k).total f + m.share f k = m.total f := by
  rcases hf : m.find? k with _ | v
  · simp [erase_none hf, share, hf]
  · have hback : (m.erase k).insert k v = m := ext_find fun j => by
      rw [find?_insert, find?_erase]
      split_ifs with hj
      · rw [hj, hf]
      · rfl
    have hins := total_insert f (m.erase k) k v
    have hnone : (m.erase k).share f k = 0 := by simp [share]
    rw [hback, hnone] at hins
    simp only [share, hf, Option.map_some, Option.getD_some]
    omega

theorem share_erase (f : κ → β → ℕ) (m : OrdMap κ β) (k j : κ) :
    (m.erase k).share f j = if j = k then 0 else m.share f j := by
  rw [share, find?_erase]
  split_ifs <;> rfl

theorem total_eq_zero {f : κ → β → ℕ} {m : OrdMap κ β} (h : ∀ k, m.share f k = 0) :
    m.total f = 0 := by
  refine List.sum_eq_zero fun x hx => ?_
  obtain ⟨e, he, rfl⟩ := List.mem_map.mp hx
  have hk := h e.1
  rwa [share, mem_entries.mp he] at hk

/-- The sum is that over any list of distinct keys which has all keys that count. -/
theorem total_eq_sum {f : κ → β → ℕ} : ∀ (ks : List κ) {m : OrdMap κ β}, ks.Nodup →
    (∀ k, m.share f k ≠ 0 → k ∈ ks) → m.total f = (ks.map (m.share f)).sum
  | [], m, _, h => total_eq_zero fun k => by_contra fun hk => nomatch h k hk
  | k :: ks, m, hnd, h => by
    obtain ⟨hk, hnd⟩ := List.nodup_cons.mp hnd
    have ih : (m.erase k).total f = (ks.map ((m.erase k).share f)).sum := by
      refine total_eq_sum ks hnd fun j hj => ?_
      rw [share_erase] at hj
      split_ifs at hj with hjk
      · exact absurd rfl hj
      · exact (List.mem_cons.mp (h j hj)).resolve_left hjk
    have hsame : ks.map ((m.erase k).share f) = ks.map (m.share f) :=
        List.map_congr_left fun j hj => by
      rw [share_erase, if_neg (fun he : j = k => hk (he ▸ hj))]
    rw [List.map_cons, List.sum_cons, ← hsame, ← ih, ← total_erase f m k, Nat.add_comm]

theorem insert_insert (m : OrdMap κ β) (k : κ) (a b : β) :
    (m.insert k a).insert k b = m.insert k b := by
  refine ext_find (fun j => ?_)
  simp only [find?_insert]
  split_ifs <;> rfl

theorem insert_self {m : OrdMap κ β} {k : κ} {a : β} (h : m.find? k = some a) :
    m.insert k a = m := by
  refine ext_find (fun j => ?_)
  rw [find?_insert]
  split_ifs with hj
  · rw [hj, h]
  · rfl

end OrdMap
end Matching
