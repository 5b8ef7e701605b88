import Mathlib.Data.List.Basic

/-! Computations that can go wrong. `Except Fault α` is the result of a call that may read outside
    live memory, fail to return, or wait for a lock nobody releases. The lemmas peel one bind at a
    time off a run that returned, and an invariant of one call holds after a whole run. -/

namespace Matching

/-- Why a call does not return normally: undefined behaviour, an endless
    loop, a lock held for ever. -/
inductive Fault where | ub | diverge | deadlock
  deriving DecidableEq, Repr

/-- Reading through a pointer or iterator that may be invalid. -/
def orUb {α : Type} : Option α → Except Fault α
  | some a => .ok a
  | none => .error .ub

variable {ε α β σ ρ : Type}

@[simp] theorem bind_ok {x : Except ε α} {f : α → Except ε β} {b : β} :
    (x >>= f) = .ok b ↔ ∃ a, x = .ok a ∧ f a = .ok b := by
  cases x <;> simp [bind, Except.bind]

@[simp] theorem pure_ok {a b : α} : (pure a : Except ε α) = .ok b ↔ a = b := by
  simp [pure, Except.pure]

@[simp] theorem orUb_ok {o : Option α} {a : α} : orUb o = .ok a ↔ o = some a := by
  cases o <;> simp [orUb]

@[simp] theorem ok_bind (a : α) (f : α → Except ε β) : (Except.ok a >>= f) = f a := rfl

theorem map_ok {x : Except ε α} {f : α → β} {b : β} :
    x.map f = .ok b ↔ ∃ a, x = .ok a ∧ f a = b := by
  cases x <;> simp [Except.map]

/-- Handle a list of requests one after the other. -/
def runs (step : σ → ρ → Except ε σ) : σ → List ρ → Except ε σ
  | s, [] => .ok s
  | s, r :: rs => do runs step (← step s r) rs

theorem runs_append (step : σ → ρ → Except ε σ) : ∀ (s : σ) (xs ys : List ρ),
    runs step s (xs ++ ys) = (do runs step (← runs step s xs) ys)
  | s, [], ys => rfl
  | s, x :: xs, ys => by
    simp only [List.cons_append, runs]
    cases hx : step s x with
    | error e => rfl
    | ok s' => exact runs_append step s' xs ys

/-- Every request of the run is acceptable in the state it is handled in. -/
def RunsAlong (step : σ → ρ → Except ε σ) (ok : σ → ρ → Prop) : σ → List ρ → Prop
  | _, [] => True
  | s, r :: rs => ok s r ∧ ∀ s', step s r = .ok s' → RunsAlong step ok s' rs

/-- What every acceptable call preserves, every acceptable run preserves. -/
theorem RunsAlong.preserves {step : σ → ρ → Except ε σ} {ok : σ → ρ → Prop} {I : σ → Prop}
    (hstep : ∀ {s r s'}, ok s r → step s r = .ok s' → I s → I s') :
    ∀ (rs : List ρ) {s s' : σ}, RunsAlong step ok s rs → runs step s rs = .ok s' → I s → I s'
  | [], s, s', _, h, hI => by
    obtain rfl := Except.ok.inj h
    exact hI
  | r :: rs, s, s', hok, h, hI => by
    obtain ⟨t, ht, h⟩ := bind_ok.mp h
    exact RunsAlong.preserves hstep rs (hok.2 t ht) h (hstep hok.1 ht hI)

theorem RunsAlong.of_forall {step : σ → ρ → Except ε σ} {ok : σ → ρ → Prop} :
    ∀ (rs : List ρ) {s : σ}, (∀ r ∈ rs, ∀ s, ok s r) → RunsAlong step ok s rs
  | [], _, _ => trivial
  | r :: rs, s, h =>
    ⟨h r List.mem_cons_self s,
      fun _ _ => of_forall rs fun r' hr' => h r' (List.mem_cons_of_mem _ hr')⟩

theorem RunsAlong.concat {step : σ → ρ → Except ε σ} {ok : σ → ρ → Prop} {r : ρ} :
    ∀ (rs : List ρ) {s : σ}, RunsAlong step ok s rs → (∀ s', runs step s rs = .ok s' → ok s' r) →
      RunsAlong step ok s (rs ++ [r])
  | [], s, _, hr => ⟨hr s rfl, fun _ _ => trivial⟩
  | _ :: rs, _, h, hr =>
    ⟨h.1, fun t ht => RunsAlong.concat rs (h.2 t ht) fun s' hs' =>
      hr s' (bind_ok.mpr ⟨t, ht, hs'⟩)⟩

theorem RunsAlong.and {step : σ → ρ → Except ε σ} {ok ok' : σ → ρ → Prop} :
    ∀ (rs : List ρ) {s : σ}, RunsAlong step ok s rs → RunsAlong step ok' s rs →
      RunsAlong step (fun s r => ok s r ∧ ok' s r) s rs
  | [], _, _, _ => trivial
  | _ :: rs, _, h, h' => ⟨⟨h.1, h'.1⟩, fun s' hs' => RunsAlong.and rs (h.2 s' hs') (h'.2 s' hs')⟩

instance RunsAlong.decidable {step : σ → ρ → Except ε σ} {ok : σ → ρ → Prop}
    [∀ s r, Decidable (ok s r)] :
    ∀ (s : σ) (rs : List ρ), Decidable (RunsAlong step ok s rs)
  | _, [] => isTrue trivial
  | s, r :: rs =>
    match hs : step s r with
    | .error _ =>
      decidable_of_iff (ok s r) ⟨fun h => ⟨h, fun s' hs' => nomatch hs.symm.trans hs'⟩, And.left⟩
    | .ok t =>
      haveI : Decidable (RunsAlong step ok t rs) := RunsAlong.decidable t rs
      decidable_of_iff (ok s r ∧ RunsAlong step ok t rs)
        ⟨fun h => ⟨h.1, fun s' hs' => by cases hs.symm.trans hs'; exact h.2⟩,
          fun h => ⟨h.1, h.2 t hs⟩⟩

end Matching
