import Mathlib.Data.List.Infix

/-! Searching a stream for a pattern: how much of the pattern the stream ends with, and the stream
    up to the first place where it ends with all of it. -/

namespace Matching

variable {α : Type} {D xs ys : List α} {c : α} {q b : ℕ}

/-- The stream `xs` up to and with the first occurrence of `D`, or all of it where there is none. -/
structure UpToFirst (D xs out : List α) : Prop where
  start : out <+: xs
  ends : D <:+ out ∨ out = xs
  first : ∀ pre, pre <+: xs → D <:+ pre → out.length ≤ pre.length

/-- Of the beginnings of `D` that `xs` ends with, the longest has length `q`. -/
structure Longest (D xs : List α) (q : ℕ) : Prop where
  le : q ≤ D.length
  ends : D.take q <:+ xs
  longest : ∀ b ≤ D.length, D.take b <:+ xs → b ≤ q

theorem Longest.nil (D : List α) : Longest D [] 0 where
  le := Nat.zero_le _
  ends := by simp
  longest := by
    intro b hb h
    have hlen := h.length_le
    rw [List.length_take, List.length_nil] at hlen
    omega

/-- The whole pattern stands at the end. -/
theorem Longest.whole (h : Longest D xs q) : D <:+ xs ↔ q = D.length := by
  constructor
  · intro hD
    exact le_antisymm h.le (h.longest _ le_rfl (by rwa [List.take_length]))
  · rintro rfl
    simpa using h.ends

theorem take_succ_of_getElem? (h : D[q]? = some c) : D.take (q + 1) = D.take q ++ [c] := by
  rw [List.take_add_one, h]
  rfl

/-- What a longer stream ends with: a beginning of one element less before the last element. -/
theorem take_suffix_append_singleton (hb : b < D.length) :
    D.take (b + 1) <:+ xs ++ [c] ↔ D[b]? = some c ∧ D.take b <:+ xs := by
  obtain ⟨d, hd⟩ : ∃ d, D[b]? = some d := ⟨D[b], List.getElem?_eq_getElem hb⟩
  rw [take_succ_of_getElem? hd, hd, List.suffix_concat_iff, Option.some.injEq]
  constructor
  · rintro (h | ⟨t, ht, hsuf⟩)
    · simp at h
    · obtain ⟨rfl, heq⟩ := List.append_inj' ht rfl
      exact ⟨List.singleton_inj.mp heq, hsuf⟩
  · rintro ⟨rfl, hsuf⟩
    exact .inr ⟨_, rfl, hsuf⟩

/-- The next element goes on with the pattern. -/
theorem Longest.extend (h : Longest D xs q) (hc : D[q]? = some c) :
    Longest D (xs ++ [c]) (q + 1) where
  le := (List.getElem?_eq_some_iff.mp hc).1
  ends := (take_suffix_append_singleton (List.getElem?_eq_some_iff.mp hc).1).mpr ⟨hc, h.ends⟩
  longest := by
    intro b hb hsuf
    cases b with
    | zero => omega
    | succ b =>
      have hlt := h.longest b (by omega) ((take_suffix_append_singleton hb).mp hsuf).2
      omega

/-- No beginning of the pattern that stops inside a partial match is repeated at the end of that
    match, save where the pattern goes on the same way after both. -/
def Separated (D : List α) : Prop :=
  ∀ q < D.length, ∀ b < q, 1 ≤ b → D.take b <:+ D.take q → D[b]? = D[q]?

instance [DecidableEq α] (D : List α) : Decidable (Separated D) :=
  inferInstanceAs
    (Decidable (∀ q < D.length, ∀ b < q, 1 ≤ b → D.take b <:+ D.take q → D[b]? = D[q]?))

/-- After a mismatch nothing longer than one element can be kept of a partial match. -/
theorem Longest.restart [DecidableEq α] (hD : Separated D) (h : Longest D xs q) (hq : q < D.length)
    (hc : D[q]? ≠ some c) : Longest D (xs ++ [c]) (if D.head? = some c then 1 else 0) := by
  have hmost : ∀ b ≤ D.length, D.take b <:+ xs ++ [c] → b = 0 ∨ b = 1 ∧ D.head? = some c := by
    intro b hb hsuf
    rcases b with _ | b
    · exact .inl rfl
    obtain ⟨hget, hends⟩ := (take_suffix_append_singleton hb).mp hsuf
    have hle := h.longest b (by omega) hends
    have hne : b ≠ q := by
      rintro rfl
      exact hc hget
    have hborder : D.take b <:+ D.take q :=
      List.suffix_of_suffix_length_le hends h.ends (by simp only [List.length_take]; omega)
    rcases Nat.eq_zero_or_pos b with rfl | hpos
    · exact .inr ⟨rfl, by rw [List.head?_eq_getElem?, hget]⟩
    · exact absurd ((hD q hq b (by omega) hpos hborder).symm.trans hget) hc
  split
  · next hhead =>
    refine ⟨by omega, (take_suffix_append_singleton (b := 0) (by omega)).mpr ⟨?_, by simp⟩, ?_⟩
    · rw [← List.head?_eq_getElem?, hhead]
    · intro b hb hsuf
      rcases hmost b hb hsuf with rfl | ⟨rfl, -⟩ <;> omega
  · next hhead =>
    refine ⟨Nat.zero_le _, by simp, ?_⟩
    intro b hb hsuf
    rcases hmost b hb hsuf with rfl | ⟨-, hhead'⟩
    · omega
    · exact absurd hhead' hhead

end Matching
