import Matching.Lib.Fault

/-! Computations that are one computation seen in different places. `Uniform F view` says that the
    run of `F` at every `a` is one and the same run, whose result is looked at through `view a`. It
    goes through binds and branches, so that it is shown of a program piece by piece. -/

namespace Matching

variable {α ε β γ δ : Type}

def Uniform (F : α → Except ε γ) (view : α → δ → γ) : Prop :=
  ∃ r : Except ε δ, ∀ a, F a = r.map (view a)

/-- The value does not depend on the place. -/
abbrev value (_ : α) (d : δ) : δ := d

namespace Uniform

variable {F : α → Except ε γ} {view : α → δ → γ}

theorem ok (d : δ) (h : ∀ a, F a = .ok (view a d)) : Uniform F view := ⟨.ok d, h⟩

theorem error (e : ε) (h : ∀ a, F a = .error e) : Uniform F view := ⟨.error e, h⟩

theorem const (r : Except ε δ) : Uniform (fun _ : α => r) value := ⟨r, fun _ => by cases r <;> rfl⟩

theorem bind {G : α → γ → Except ε β} {τ : Type} {view' : α → τ → β} (hF : Uniform F view)
    (hG : ∀ d, Uniform (fun a => G a (view a d)) view') : Uniform (fun a => F a >>= G a) view' := by
  obtain ⟨r, hr⟩ := hF
  cases r with
  | error e => exact ⟨.error e, fun a => congrArg (fun y => y >>= G a) (hr a)⟩
  | ok d =>
    obtain ⟨r', hr'⟩ := hG d
    exact ⟨r', fun a => (congrArg (fun y => y >>= G a) (hr a)).trans (hr' a)⟩

/-- What was read does not depend on the place. -/
theorem read {G : α → δ → Except ε β} {F : α → Except ε δ} {τ : Type} {view' : α → τ → β}
    (hF : Uniform F value) (hG : ∀ d, Uniform (fun a => G a d) view') :
    Uniform (fun a => F a >>= G a) view' := hF.bind hG

/-- The places agree on the condition, though not on how it is decided. -/
theorem ite {c : Prop} {dec : α → Decidable c} {G : α → Except ε γ} (hF : c → Uniform F view)
    (hG : ¬c → Uniform G view) :
    Uniform (fun a => @ite _ c (dec a) (F a) (G a)) view := by
  rcases Classical.em c with h | h
  · obtain ⟨r, hr⟩ := hF h
    exact ⟨r, fun a => (if_pos h).trans (hr a)⟩
  · obtain ⟨r, hr⟩ := hG h
    exact ⟨r, fun a => (if_neg h).trans (hr a)⟩

theorem congr {G : α → Except ε γ} (h : Uniform F view) (heq : ∀ a, G a = F a) :
    Uniform G view := by
  obtain ⟨r, hr⟩ := h
  exact ⟨r, fun a => (heq a).trans (hr a)⟩

end Uniform

end Matching
