import Matching.Lib.Ladder

/-! The scan for the best of a list: keep what was found first unless something strictly
    better comes. It ends with the first of the best (`FirstBest`), and with nothing
    only on an empty list. -/

namespace Matching

namespace StrictLt

variable {κ : Type} {lt : κ → κ → Bool} [StrictLt lt] {a b c : κ}

theorem asymm (h : lt a b = true) : lt b a = false := by
  by_contra hba
  have hself : lt a a = true := trans h (by simpa using hba)
  have hirr : lt a a = false := irrefl a
  exact Bool.false_ne_true (hirr.symm.trans hself)

/-- What is better than `b` is better than what is not better than `b`. -/
theorem trans_of_not (h : lt a b = true) (hn : lt c b = false) : lt a c = true := by
  by_cases he : c = b
  · rw [he]
    exact h
  · exact trans h (tri he hn)

theorem trans_not (hn : lt a c = false) (h : lt a b = true) : lt c b = true := by
  by_cases he : a = c
  · rw [← he]
    exact h
  · exact trans (tri he hn) h

theorem eq_of_not (h : lt a b = false) (h' : lt b a = false) : a = b := by
  by_contra hne
  rw [tri hne h] at h'
  cases h'

end StrictLt

variable {α κ : Type} {lt : κ → κ → Bool} {key : α → κ}

/-- `t` is in the list, nothing after it is better, and everything before it is worse. -/
def FirstBest (lt : κ → κ → Bool) (key : α → κ) (xs : List α) (t : α) : Prop :=
  ∃ pre post, xs = pre ++ t :: post ∧ (∀ x ∈ pre, lt (key t) (key x) = true) ∧
    ∀ x ∈ post, lt (key x) (key t) = false

/-- The scan, from what was found before. -/
def choose (lt : κ → κ → Bool) (key : α → κ) : Option α → List α → Option α
  | t, [] => t
  | none, x :: xs => choose lt key (some x) xs
  | some t, x :: xs => choose lt key (some (if lt (key x) (key t) then x else t)) xs

variable [StrictLt lt] {xs : List α} {t u x : α}

namespace FirstBest

omit [StrictLt lt] in
theorem mem (h : FirstBest lt key xs t) : t ∈ xs := by
  obtain ⟨pre, post, rfl, _⟩ := h
  simp

theorem best (h : FirstBest lt key xs t) (hx : x ∈ xs) : lt (key x) (key t) = false := by
  obtain ⟨pre, post, rfl, hpre, hpost⟩ := h
  rcases List.mem_append.mp hx with hx | hx
  · exact StrictLt.asymm (hpre x hx)
  · rcases List.mem_cons.mp hx with rfl | hx
    · exact StrictLt.irrefl _
    · exact hpost x hx

/-- Something better in front of the list changes the choice only if it is as good. -/
theorem cons_worse (h : FirstBest lt key (x :: xs) u) (hx : lt (key x) (key t) = true) :
    FirstBest lt key (t :: x :: xs) u := by
  obtain ⟨pre, post, hsplit, hpre, hpost⟩ := h
  refine ⟨t :: pre, post, by rw [hsplit]; rfl, fun y hy => ?_, hpost⟩
  rcases List.mem_cons.mp hy with rfl | hy
  · rcases pre with _ | ⟨z, pre⟩
    · obtain rfl := (List.cons.inj hsplit).1
      exact hx
    · obtain rfl := (List.cons.inj hsplit).1
      exact StrictLt.trans (hpre x List.mem_cons_self) hx
  · exact hpre y hy

theorem cons_kept (h : FirstBest lt key (t :: xs) u) (hx : lt (key x) (key t) = false) :
    FirstBest lt key (t :: x :: xs) u := by
  obtain ⟨pre, post, hsplit, hpre, hpost⟩ := h
  rcases pre with _ | ⟨z, pre⟩
  · obtain ⟨rfl, rfl⟩ := List.cons.inj hsplit
    refine ⟨[], x :: xs, rfl, fun y hy => (nomatch hy), fun y hy => ?_⟩
    rcases List.mem_cons.mp hy with rfl | hy
    · exact hx
    · exact hpost y hy
  · obtain ⟨rfl, rfl⟩ := List.cons.inj hsplit
    refine ⟨t :: x :: pre, post, rfl, fun y hy => ?_, hpost⟩
    have ht := hpre t List.mem_cons_self
    rcases List.mem_cons.mp hy with rfl | hy
    · exact ht
    · rcases List.mem_cons.mp hy with rfl | hy
      · exact StrictLt.trans_of_not ht hx
      · exact hpre y (List.mem_cons_of_mem _ hy)

end FirstBest

theorem choose_some :
    ∀ (xs : List α) (t : α), ∃ u, choose lt key (some t) xs = some u ∧ FirstBest lt key (t :: xs) u
  | [], t => ⟨t, rfl, [], [], rfl, fun _ h => (nomatch h), fun _ h => nomatch h⟩
  | x :: xs, t => by
    rw [choose]
    split_ifs with hx
    · obtain ⟨u, hu, hf⟩ := choose_some xs x
      exact ⟨u, hu, hf.cons_worse hx⟩
    · obtain ⟨u, hu, hf⟩ := choose_some xs t
      exact ⟨u, hu, hf.cons_kept (by simpa using hx)⟩

theorem choose_none_iff : choose lt key none xs = none ↔ xs = [] := by
  rcases xs with _ | ⟨x, xs⟩
  · exact ⟨fun _ => rfl, fun _ => rfl⟩
  · obtain ⟨u, hu, _⟩ : ∃ u, choose lt key (some x) xs = some u ∧ FirstBest lt key (x :: xs) u :=
      choose_some xs x
    simp [choose, hu]

/-- What the scan of a list chooses. -/
theorem choose_eq_some (h : choose lt key none xs = some u) : FirstBest lt key xs u := by
  rcases xs with _ | ⟨x, xs⟩
  · cases h
  · obtain ⟨u', hu, hf⟩ : ∃ u, choose lt key (some x) xs = some u ∧ FirstBest lt key (x :: xs) u :=
      choose_some xs x
    obtain rfl := Option.some.inj (hu.symm.trans h)
    exact hf

end Matching
