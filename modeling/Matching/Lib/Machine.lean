import Matching.Lib.Fault

/-! Machines with total steps: a run is a left fold. `Along step ok s rs` says that every step of
    the run of `rs` from `s` is acceptable in the state it is taken in; an invariant of acceptable
    steps holds after an acceptable run. -/

namespace Matching

variable {σ ρ : Type}

/-- Every step of the run is acceptable where it is taken. -/
def Along (step : σ → ρ → σ) (ok : σ → ρ → Prop) : σ → List ρ → Prop
  | _, [] => True
  | s, r :: rs => ok s r ∧ Along step ok (step s r) rs

instance {step : σ → ρ → σ} {ok : σ → ρ → Prop} [∀ s r, Decidable (ok s r)] :
    ∀ s rs, Decidable (Along step ok s rs)
  | _, [] => isTrue trivial
  | s, r :: rs =>
    have : Decidable (Along step ok (step s r) rs) := instDecidableAlong _ rs
    inferInstanceAs (Decidable (_ ∧ _))

theorem Along.append {step : σ → ρ → σ} {ok : σ → ρ → Prop} : ∀ {s : σ} (xs : List ρ) {ys : List ρ},
    Along step ok s (xs ++ ys) ↔ Along step ok s xs ∧ Along step ok (xs.foldl step s) ys
  | s, [], ys => by simp [Along]
  | s, x :: xs, ys => by
    simp only [List.cons_append, Along, List.foldl_cons, Along.append xs, and_assoc]

/-- What every acceptable step preserves, every acceptable run preserves. -/
theorem Along.preserves {step : σ → ρ → σ} {ok : σ → ρ → Prop} {I : σ → Prop}
    (hstep : ∀ {s r}, ok s r → I s → I (step s r)) :
    ∀ {s : σ} (rs : List ρ), Along step ok s rs → I s →
    I (rs.foldl step s)
  | _, [], _, hI => hI
  | s, r :: rs, h, hI => by
    obtain ⟨hr, hrs⟩ := h
    exact Along.preserves hstep rs hrs (hstep hr hI)

/-- What acceptable steps do where an invariant holds, an acceptable run does at every step. -/
theorem Along.gives {step : σ → ρ → σ} {ok good : σ → ρ → Prop} {I : σ → Prop}
    (hstep : ∀ {s r}, ok s r → I s → I (step s r) ∧ good s r) :
    ∀ {s : σ} (rs : List ρ), Along step ok s rs → I s →
    Along step good s rs
  | _, [], _, _ => trivial
  | s, r :: rs, h, hI => by
    obtain ⟨hr, hrs⟩ := h
    obtain ⟨hI', hgood⟩ := hstep hr hI
    exact ⟨hgood, Along.gives hstep rs hrs hI'⟩

/-- Two conditions that agree where an invariant holds, and keep it, hold along the same runs. -/
theorem Along.congr {step : σ → ρ → σ} {ok cond : σ → ρ → Prop} {I : σ → Prop}
    (hstep : ∀ s r, I s → ok s r → I (step s r)) (hiff : ∀ s r, I s → (ok s r ↔ cond s r)) :
    ∀ {s : σ} (rs : List ρ), I s → (Along step ok s rs ↔ Along step cond s rs)
  | _, [], _ => Iff.rfl
  | s, r :: rs, hI => by
    constructor
    · rintro ⟨hr, hrs⟩
      exact ⟨(hiff s r hI).mp hr, (Along.congr hstep hiff rs (hstep s r hI hr)).mp hrs⟩
    · rintro ⟨hr, hrs⟩
      have hok := (hiff s r hI).mpr hr
      exact ⟨hok, (Along.congr hstep hiff rs (hstep s r hI hok)).mpr hrs⟩

/-- A view that every step goes along with turns a run of one machine into a run of another. -/
theorem Along.view {τ : Type} {step : σ → ρ → σ} {step' : τ → ρ → τ} {ok : σ → ρ → Prop}
    {ok' : τ → ρ → Prop} {f : σ → τ} (hstep : ∀ s r, f (step s r) = step' (f s) r)
    (hok : ∀ {s r}, ok s r → ok' (f s) r) : ∀ {s : σ} (rs : List ρ),
    Along step ok s rs → Along step' ok' (f s) rs ∧ f (rs.foldl step s) = rs.foldl step' (f s)
  | _, [], _ => ⟨trivial, rfl⟩
  | s, r :: rs, ⟨hr, hrs⟩ => by
    obtain ⟨halong, hlast⟩ := Along.view hstep hok rs hrs
    rw [hstep] at halong hlast
    exact ⟨⟨hok hr, halong⟩, hlast⟩

/-- Where an invariant rules out the faults of acceptable steps, a run is a left
    fold of what the steps do. -/
theorem RunsAlong.total {ε : Type} {step : σ → ρ → Except ε σ} {f : σ → ρ → σ} {ok : σ → ρ → Prop}
    {I : σ → Prop} (hstep : ∀ {s r}, ok s r → I s → step s r = .ok (f s r) ∧ I (f s r)) :
    ∀ {s : σ} (rs : List ρ),
    RunsAlong step ok s rs → I s → runs step s rs = .ok (rs.foldl f s) ∧ Along f ok s rs ∧
      I (rs.foldl f s)
  | _, [], _, hI => ⟨rfl, trivial, hI⟩
  | s, r :: rs, h, hI => by
    obtain ⟨hr, hrs⟩ := h
    obtain ⟨hok, hI'⟩ := hstep hr hI
    obtain ⟨hrun, halong, hlast⟩ := RunsAlong.total hstep rs (hrs _ hok) hI'
    exact ⟨bind_ok.mpr ⟨_, hok, hrun⟩, ⟨hr, halong⟩, hlast⟩

end Matching
