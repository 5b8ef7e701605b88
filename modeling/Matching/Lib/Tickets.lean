import Mathlib.Logic.Function.Basic
import Matching.Lib.Laps

/-! Publication through a ring of flags. Threads take consecutive blocks of sequence numbers and
    finish them in any order; whoever finishes a block writes its end into the flag of its base, and
    the `n` flags are used again on every lap. A position is published by following the flags from
    the last one. `ends` and `finished` record the blocks that were taken and those that are
    finished.

    No stale flag extends the walk: a flag of an earlier lap is behind the position, and a flag of a
    later lap would belong to a block outside the window of `n` numbers that may be finished. -/

namespace Matching

structure Tickets where
  next : ℕ
  flags : ℕ → ℕ
  ends : ℕ → ℕ
  finished : ℕ → Bool

namespace Tickets

/-- Nothing taken. -/
def fresh (start : ℕ) : Tickets := ⟨start, fun _ => 0, fun _ => 0, fun _ => false⟩

/-- A block of `size` numbers is taken. -/
def take (t : Tickets) (size : ℕ) : Tickets :=
  { t with next := t.next + size, ends := Function.update t.ends t.next (t.next + size) }

/-- The block at `base` is finished. -/
def finish (n : ℕ) (t : Tickets) (base : ℕ) : Tickets :=
  { t with
    flags := Function.update t.flags (base % n) (t.ends base),
    finished := Function.update t.finished base true }

/-- A block begins here, or the next one will. -/
def Boundary (t : Tickets) (p : ℕ) : Prop := p = t.next ∨ t.ends p ≠ 0

/-- The block of `i` is finished. -/
def Done (t : Tickets) (i : ℕ) : Prop := ∃ b, t.finished b = true ∧ b ≤ i ∧ i < t.ends b

/-- Every block before `p` is finished, and `p` is where a block ends. -/
structure Prefix (t : Tickets) (p : ℕ) : Prop where
  boundary : t.Boundary p
  le : p ≤ t.next
  done : ∀ b, t.ends b ≠ 0 → b < p → t.finished b = true ∧ t.ends b ≤ p

/-- Finished blocks end at most `n` numbers past `room`. -/
structure Roomy (n room : ℕ) (t : Tickets) : Prop where
  bounds : ∀ b, t.ends b ≠ 0 → b < t.ends b ∧ t.ends b ≤ t.next
  taken : ∀ b, t.finished b = true → t.ends b ≠ 0
  flag : ∀ p, t.flags p ≠ 0 → ∃ b, b % n = p ∧ t.finished b = true ∧ t.ends b = t.flags p
  window : ∀ b, t.finished b = true → t.ends b ≤ room + n

/-- Every number from `start` up to `p` belongs to a finished block. -/
def Reached (start p : ℕ) (t : Tickets) : Prop := ∀ i, start ≤ i → i < p → t.Done i

structure Wf (n start : ℕ) (t : Tickets) (ready : ℕ) : Prop where
  bounds : ∀ b, t.ends b ≠ 0 → start ≤ b ∧ b < t.ends b ∧ t.ends b ≤ b + n ∧ t.ends b ≤ t.next
  apart : ∀ b b', t.ends b ≠ 0 → t.ends b' ≠ 0 → b < b' → t.ends b ≤ b'
  chain : ∀ b, t.ends b ≠ 0 → t.Boundary (t.ends b)
  cover : ∀ i, start ≤ i → i < t.next → ∃ b, t.ends b ≠ 0 ∧ b ≤ i ∧ i < t.ends b
  taken : ∀ b, t.finished b = true → t.ends b ≠ 0
  flag : ∀ p, t.flags p ≠ 0 → ∃ b, b % n = p ∧ t.finished b = true ∧ t.ends b = t.flags p
  window : ∀ b, t.finished b = true → t.ends b ≤ ready + n
  start_le : start ≤ ready
  ready : t.Prefix ready

variable {n start ready room p base size : ℕ} {t : Tickets}

theorem fresh_wf : (fresh start).Wf n start start where
  bounds := fun _ h => absurd rfl h
  apart := fun _ _ h => absurd rfl h
  chain := fun _ h => absurd rfl h
  cover := fun _ hlo hhi => absurd (hlo.trans_lt hhi) (lt_irrefl _)
  taken := fun _ h => nomatch h
  flag := fun _ h => absurd rfl h
  window := fun _ h => nomatch h
  start_le := le_refl _
  ready := ⟨.inl rfl, le_refl _, fun _ h => absurd rfl h⟩

theorem fresh_roomy : (fresh start).Roomy n room where
  bounds := fun _ h => absurd rfl h
  taken := fun _ h => nomatch h
  flag := fun _ h => absurd rfl h
  window := fun _ h => nomatch h

theorem Roomy.mono (h : t.Roomy n room) {room' : ℕ} (hle : room ≤ room') : t.Roomy n room' :=
  { h with window := fun b hb => (h.window b hb).trans (Nat.add_le_add_right hle n) }

theorem Wf.roomy (h : t.Wf n start ready) : t.Roomy n ready where
  bounds := fun b hb => ⟨(h.bounds b hb).2.1, (h.bounds b hb).2.2.2⟩
  taken := h.taken
  flag := h.flag
  window := h.window

/-! ### Taking a block -/

theorem take_ends (b : ℕ) :
    (t.take size).ends b = if b = t.next then t.next + size else t.ends b := by
  simp only [take, Function.update_apply]

theorem Roomy.take_old (h : t.Roomy n room) (hb : t.ends p ≠ 0) :
    (t.take size).ends p = t.ends p := by
  obtain ⟨hlt, hle⟩ := h.bounds p hb
  rw [take_ends, if_neg (by omega)]

theorem Roomy.take (h : t.Roomy n room) (hsize : 0 < size) : (t.take size).Roomy n room where
  bounds := by
    intro b hb
    rw [take_ends] at hb ⊢
    split
    · next heq =>
      subst heq
      simp only [Tickets.take]
      omega
    · next hne =>
      rw [if_neg hne] at hb
      obtain ⟨hlt, hle⟩ := h.bounds b hb
      exact ⟨hlt, hle.trans (Nat.le_add_right _ _)⟩
  taken := by
    intro b hb
    rw [h.take_old (h.taken b hb)]
    exact h.taken b hb
  flag := by
    intro p hp
    obtain ⟨b, hslot, hfin, hend⟩ := h.flag p hp
    exact ⟨b, hslot, hfin, by rw [h.take_old (h.taken b hfin), hend]; rfl⟩
  window := by
    intro b hb
    rw [h.take_old (h.taken b hb)]
    exact h.window b hb

theorem Reached.take (h : t.Reached start p) (hr : t.Roomy n room) :
    (t.take size).Reached start p := by
  intro i hlo hhi
  obtain ⟨b, hfin, hle, hlt⟩ := h i hlo hhi
  exact ⟨b, hfin, hle, by rwa [hr.take_old (hr.taken b hfin)]⟩

/-- A block lies before the next one. -/
theorem Wf.lt_next (h : t.Wf n start ready) (hb : t.ends p ≠ 0) : p < t.next := by
  obtain ⟨-, hlt, -, hle⟩ := h.bounds p hb
  omega

theorem Wf.take_old (h : t.Wf n start ready) (hb : t.ends p ≠ 0) :
    (t.take size).ends p = t.ends p := h.roomy.take_old hb

theorem Wf.take_boundary (h : t.Wf n start ready) (hsize : 0 < size) (hp : t.Boundary p) :
    (t.take size).Boundary p := by
  rcases hp with rfl | hp
  · refine .inr ?_
    rw [take_ends, if_pos rfl]
    omega
  · exact .inr (by rwa [h.take_old hp])

theorem Wf.take_prefix (h : t.Wf n start ready) (hsize : 0 < size) (hp : t.Prefix p) :
    (t.take size).Prefix p where
  boundary := h.take_boundary hsize hp.boundary
  le := hp.le.trans (Nat.le_add_right _ _)
  done := by
    intro b hb hlt
    have hle := hp.le
    rw [take_ends, if_neg (by omega)] at hb ⊢
    exact hp.done b hb hlt

theorem Wf.take (h : t.Wf n start ready) (hsize : 0 < size) (hn : size ≤ n) :
    (t.take size).Wf n start ready where
  bounds := by
    intro b hb
    rw [take_ends] at hb ⊢
    split
    · next heq =>
      subst heq
      have hle := h.start_le.trans h.ready.le
      simp only [Tickets.take]
      omega
    · next hne =>
      rw [if_neg hne] at hb
      obtain ⟨h1, h2, h3, h4⟩ := h.bounds b hb
      exact ⟨h1, h2, h3, h4.trans (Nat.le_add_right _ _)⟩
  apart := by
    intro b b' hb hb' hlt
    rw [take_ends] at hb hb' ⊢
    split
    · next heq =>
      subst heq
      rw [if_neg (by omega)] at hb'
      exact absurd (h.lt_next hb') (by omega)
    · next hne =>
      rw [if_neg hne] at hb
      split at hb'
      · next heq =>
        subst heq
        exact (h.bounds b hb).2.2.2
      · exact h.apart b b' hb hb' hlt
  chain := by
    intro b hb
    rw [take_ends] at hb ⊢
    split
    · exact .inl rfl
    · next hne =>
      rw [if_neg hne] at hb
      exact h.take_boundary hsize (h.chain b hb)
  cover := by
    intro i hlo hhi
    by_cases hi : i < t.next
    · obtain ⟨b, hb, hbi, hib⟩ := h.cover i hlo hi
      exact ⟨b, by rwa [h.take_old hb], hbi, by rwa [h.take_old hb]⟩
    · simp only [Tickets.take] at hhi
      refine ⟨t.next, ?_, by omega, ?_⟩
      · rw [take_ends, if_pos rfl]
        omega
      · rwa [take_ends, if_pos rfl]
  taken := (h.roomy.take hsize).taken
  flag := (h.roomy.take hsize).flag
  window := (h.roomy.take hsize).window
  start_le := h.start_le
  ready := h.take_prefix hsize h.ready

/-! ### Finishing a block -/

theorem finish_finished (b : ℕ) :
    (t.finish n base).finished b = true ↔ b = base ∨ t.finished b = true := by
  simp only [finish, Function.update_apply]
  split <;> simp_all

theorem Roomy.finish (h : t.Roomy n room) (hbase : t.ends base ≠ 0)
    (hwin : t.ends base ≤ room + n) :
    (t.finish n base).Roomy n room where
  bounds := h.bounds
  taken := by
    intro b hb
    rcases (finish_finished b).mp hb with rfl | hb
    · exact hbase
    · exact h.taken b hb
  flag := by
    intro p hp
    simp only [Tickets.finish, Function.update_apply] at hp
    split at hp
    · next heq =>
      exact ⟨base, heq.symm, (finish_finished base).mpr (.inl rfl), by simp [Tickets.finish, heq]⟩
    · next hne =>
      obtain ⟨b, hslot, hfin, hend⟩ := h.flag p hp
      exact ⟨b, hslot, (finish_finished b).mpr (.inr hfin),
        by simpa [Tickets.finish, Function.update_of_ne hne] using hend⟩
  window := by
    intro b hb
    rcases (finish_finished b).mp hb with rfl | hb
    · exact hwin
    · exact h.window b hb

theorem Reached.finish (h : t.Reached start p) : (t.finish n base).Reached start p := by
  intro i hlo hhi
  obtain ⟨b, hfin, hle, hlt⟩ := h i hlo hhi
  exact ⟨b, (finish_finished b).mpr (.inr hfin), hle, hlt⟩

theorem finish_prefix (hp : t.Prefix p) : (t.finish n base).Prefix p where
  boundary := hp.boundary
  le := hp.le
  done := fun b hb hlt =>
    ⟨(finish_finished b).mpr (.inr (hp.done b hb hlt).1), (hp.done b hb hlt).2⟩

theorem Wf.finish (h : t.Wf n start ready) (hbase : t.ends base ≠ 0)
    (hwin : t.ends base ≤ ready + n) :
    (t.finish n base).Wf n start ready where
  bounds := h.bounds
  apart := h.apart
  chain := h.chain
  cover := h.cover
  taken := (h.roomy.finish hbase hwin).taken
  flag := (h.roomy.finish hbase hwin).flag
  window := (h.roomy.finish hbase hwin).window
  start_le := h.start_le
  ready := finish_prefix h.ready

/-! ### Following the flags -/

/-- A flag that is past a position with room ends a finished block that covers the position. -/
theorem Roomy.follow (h : t.Roomy n room) (hp : t.Reached start p) (hle : room ≤ p)
    (hflag : p < t.flags (p % n)) :
    t.Reached start (t.flags (p % n)) := by
  obtain ⟨b, hslot, hfin, hend⟩ := h.flag (p % n) (by omega)
  have hwin := h.window b hfin
  obtain ⟨hlt, -⟩ := h.bounds b (h.taken b hfin)
  -- a block of a later lap would end past the room
  have hbp : b ≤ p := by
    by_contra hgt
    have hlap : p + n ≤ b := by
      by_contra hnear
      exact absurd (eq_of_same_slot hslot.symm (by omega) (by omega)) (by omega)
    omega
  intro i hlo hhi
  rcases Nat.lt_or_ge i p with hi | hi
  · exact hp i hlo hi
  · exact ⟨b, hfin, by omega, by omega⟩

/-- A flag that is past the position it is read for is the flag of the block there, and the walk may
    go on from the block's end. -/
theorem Wf.follow (h : t.Wf n start ready) (hp : t.Prefix p) (hle : ready ≤ p)
    (hflag : p < t.flags (p % n)) :
    t.Prefix (t.flags (p % n)) := by
  obtain ⟨b, hslot, hfin, hend⟩ := h.flag (p % n) (by omega)
  have hb := h.taken b hfin
  obtain ⟨-, hlt, -, hnext⟩ := h.bounds b hb
  have hwin := h.window b hfin
  -- not an earlier lap, as those blocks end before `p`, and not a later one, which would leave the
  -- window
  have hbp : b = p := by
    rcases Nat.lt_trichotomy b p with hbp | hbp | hbp
    · have hdone := (hp.done b hb hbp).2
      omega
    · exact hbp
    · exact eq_of_same_slot hslot (by omega) (by omega)
  subst hbp
  rw [← hend]
  refine ⟨h.chain b hb, hnext, ?_⟩
  intro c hc hlt'
  rcases Nat.lt_trichotomy c b with hcb | rfl | hcb
  · obtain ⟨hfinc, hendc⟩ := hp.done c hc hcb
    exact ⟨hfinc, by omega⟩
  · exact ⟨hfin, le_refl _⟩
  · exact absurd (h.apart b c hb hc hcb) (by omega)

/-- Publishing a position the walk has reached. -/
theorem Wf.publish (h : t.Wf n start ready) (hp : t.Prefix p) (hle : ready ≤ p) : t.Wf n start p :=
  { h with
    window := fun b hb => (h.window b hb).trans (Nat.add_le_add_right hle n)
    start_le := h.start_le.trans hle
    ready := hp }

/-! ### What is published -/

/-- Every number before the published position belongs to a finished block. -/
theorem Wf.done (h : t.Wf n start ready) {i : ℕ} (hlo : start ≤ i) (hhi : i < ready) :
    t.Done i := by
  obtain ⟨b, hb, hbi, hib⟩ := h.cover i hlo (hhi.trans_le h.ready.le)
  exact ⟨b, (h.ready.done b hb (by omega)).1, hbi, hib⟩

/-- The published position is the end of a finished block, or nothing is published. -/
theorem Wf.ready_end (h : t.Wf n start ready) :
    ready = start ∨ ∃ b, t.finished b = true ∧ t.ends b = ready := by
  rcases h.start_le.eq_or_lt with heq | hlt
  · exact .inl heq.symm
  · obtain ⟨b, hb, hbi, hib⟩ := h.cover (ready - 1) (by omega) (by have := h.ready.le; omega)
    obtain ⟨hfin, hend⟩ := h.ready.done b hb (by omega)
    exact .inr ⟨b, hfin, by omega⟩

/-- A block that is not finished lies past the published position. -/
theorem Wf.ready_le (h : t.Wf n start ready) (hb : t.ends p ≠ 0) (hfin : t.finished p ≠ true) :
    ready ≤ p := by
  by_contra hlt
  exact hfin (h.ready.done p hb (by omega)).1

end Tickets

end Matching
