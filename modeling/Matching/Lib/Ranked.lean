import Matching.Lib.Ladder
import Matching.Lib.OrdMap

/-! Entry lists ranked best first by a strict order on their keys, as an ordered map is walked from
    either end. Two of them begin with the same `n` entries exactly when every key they disagree on
    has `n` better keys. -/

namespace Matching

variable {κ β : Type} [LinearOrder κ]

open OrdMap (assoc)

/-- Better keys come first. -/
def Ranked (lt : κ → κ → Bool) (l : List (κ × β)) : Prop :=
  l.Pairwise (fun a b => lt a.1 b.1 = true)

namespace Ranked

variable {lt : κ → κ → Bool} [StrictLt lt] {l l' : List (κ × β)}

omit [LinearOrder κ] in
theorem not_self {k : κ} (h : lt k k = true) : False := by
  have hk : lt k k = false := StrictLt.irrefl k
  rw [hk] at h
  cases h

theorem assoc_none {k : κ} : ∀ {l : List (κ × β)}, (∀ x ∈ l, x.1 ≠ k) → assoc k l = none
  | [], _ => rfl
  | x :: xs, h => by
    have hx : k ≠ x.1 := Ne.symm (h x List.mem_cons_self)
    rw [assoc, if_neg hx, assoc_none (fun y hy => h y (List.mem_cons_of_mem _ hy))]

omit [LinearOrder κ] in
theorem ne_head {x : κ × β} {xs : List (κ × β)} (h : Ranked lt (x :: xs)) :
    ∀ y ∈ xs, y.1 ≠ x.1 := by
  intro y hy heq
  have hlt := (List.pairwise_cons.mp h).1 y hy
  exact not_self (heq ▸ hlt)

theorem mem_iff {k : κ} {v : β} :
    ∀ {l : List (κ × β)}, Ranked lt l → (assoc k l = some v ↔ (k, v) ∈ l)
  | [], _ => by simp [assoc]
  | x :: xs, h => by
    have ih := mem_iff (k := k) (v := v) (List.pairwise_cons.mp h).2
    by_cases hk : k = x.1
    · subst hk
      have hnot : (x.1, v) ∉ xs := fun hm => ne_head h _ hm rfl
      simp only [assoc, if_true, Option.some.injEq, List.mem_cons, hnot, or_false]
      exact ⟨fun hv => by rw [← hv], fun hv => by rw [← hv]⟩
    · have hne : (k, v) ≠ x := fun hx => hk (by rw [← hx])
      simp only [assoc, hk, if_false, ih, List.mem_cons, hne, false_or]

omit [LinearOrder κ] [StrictLt lt] in
theorem sublist (h : Ranked lt l) (hs : l'.Sublist l) : Ranked lt l' := List.Pairwise.sublist hs h

omit [LinearOrder κ] in
/-- No key is better than the first. -/
theorem count_head {x : κ × β} {xs : List (κ × β)} (h : Ranked lt (x :: xs)) {k : κ}
    (hk : k = x.1 ∨ lt k x.1 = true) :
    (x :: xs).countP (fun y => lt y.1 k) = 0 := by
  rw [List.countP_eq_zero]
  intro y hy hlt
  have hkx : lt y.1 x.1 = true := by
    rcases hk with rfl | hk
    · exact hlt
    · exact StrictLt.trans hlt hk
  rcases List.mem_cons.mp hy with rfl | hy
  · exact not_self hkx
  · exact not_self (StrictLt.trans hkx ((List.pairwise_cons.mp h).1 y hy))

omit [LinearOrder κ] [StrictLt lt] in
/-- A key that is worse than the first. -/
theorem count_cons {x : κ × β} {xs : List (κ × β)} {k : κ} (hk : lt x.1 k = true) :
    (x :: xs).countP (fun y => lt y.1 k) = xs.countP (fun y => lt y.1 k) + 1 :=
  List.countP_cons_of_pos hk

/-- A key that is better than the first is nowhere. -/
theorem assoc_better {x : κ × β} {xs : List (κ × β)} (h : Ranked lt (x :: xs)) {k : κ}
    (hk : lt k x.1 = true) :
    assoc k (x :: xs) = none := by
  refine assoc_none (fun y hy heq => ?_)
  have hky : lt k y.1 = true := by
    rcases List.mem_cons.mp hy with rfl | hy
    · exact hk
    · exact StrictLt.trans hk ((List.pairwise_cons.mp h).1 y hy)
  exact not_self (heq ▸ hky)

theorem take_eq_iff : ∀ (n : ℕ) {l l' : List (κ × β)}, Ranked lt l → Ranked lt l' →
    (l.take n = l'.take n ↔ ∀ k, assoc k l ≠ assoc k l' → n ≤ l'.countP (fun x => lt x.1 k))
  | 0, l, l', _, _ => by simp
  | n + 1, [], [], _, _ => by simp
  | n + 1, x :: xs, [], _, _ => by
    refine ⟨fun h => by simp at h, fun h => ?_⟩
    have hx := h x.1 (by simp [assoc])
    simp at hx
  | n + 1, [], y :: ys, _, h' => by
    refine ⟨fun h => by simp at h, fun h => ?_⟩
    have hy := h y.1 (by simp [assoc])
    rw [count_head h' (Or.inl rfl)] at hy
    omega
  | n + 1, x :: xs, y :: ys, h, h' => by
    by_cases hxy : x = y
    · subst hxy
      rw [List.take_succ_cons, List.take_succ_cons, List.cons.injEq, and_iff_right rfl,
        take_eq_iff n (List.pairwise_cons.mp h).2 (List.pairwise_cons.mp h').2]
      constructor
      · intro hn k hk
        by_cases hkx : k = x.1
        · simp [assoc, hkx] at hk
        · rcases hlt : lt x.1 k with _ | _
          · have hbetter : lt k x.1 = true := StrictLt.tri (Ne.symm hkx) hlt
            rw [assoc_better h hbetter, assoc_better h' hbetter] at hk
            exact absurd rfl hk
          · simp only [assoc, hkx, if_false] at hk
            rw [count_cons hlt]
            exact Nat.succ_le_succ (hn k hk)
      · intro hn k hk
        have hne : k ≠ x.1 := by
          rintro rfl
          rw [assoc_none (ne_head h), assoc_none (ne_head h')] at hk
          exact hk rfl
        have hk' := hn k (by simpa [assoc, hne] using hk)
        rcases hlt : lt x.1 k with _ | _
        · rw [count_head h' (Or.inr (StrictLt.tri (Ne.symm hne) hlt))] at hk'
          omega
        · rw [count_cons hlt] at hk'
          exact Nat.le_of_succ_le_succ hk'
    · -- the better one of the two first keys is one they disagree on, and it has no better key
      constructor
      · intro heq
        rw [List.take_succ_cons, List.take_succ_cons, List.cons.injEq] at heq
        exact absurd heq.1 hxy
      · intro hn
        by_cases hkey : x.1 = y.1
        · have hv : x.2 ≠ y.2 := fun hv => hxy (Prod.ext hkey hv)
          have := hn y.1 (by simpa [assoc, hkey] using hv)
          rw [count_head h' (Or.inl rfl)] at this
          omega
        · rcases hlt : lt x.1 y.1 with _ | _
          · have hyx : lt y.1 x.1 = true := StrictLt.tri hkey hlt
            have := hn y.1 (by rw [assoc_better h hyx]; simp [assoc])
            rw [count_head h' (Or.inl rfl)] at this
            omega
          · have := hn x.1 (by rw [assoc_better h' hlt]; simp [assoc])
            rw [count_head h' (Or.inr hlt)] at this
            omega

end Ranked
end Matching
