import Matching.Props.MpscFifo

/-! What each step of the multi-producer queue leaves alone, and where a call of its threads can go:
    the consumer reserves nothing for producers and releases a block when its call returns, and a
    producer takes its numbers when it begins to wait, or at the `set_reserve` of a try. -/

namespace Matching.Ring

variable {ι : Type}

namespace Mpsc

variable {α : Type} {SIZE : ℕ} {moved : α → α} {s : Mpsc ι α}

/-! ### What a step of the consumer changes -/

/-- A call of the consumer that begins touches nothing of the producers. -/
theorem dequeues_frame (tries : Bool) (how : Taking) (size : ℕ) :
    (s.dequeues tries how size).reserved = s.reserved ∧
      (s.dequeues tries how size).prods = s.prods ∧
      (s.dequeues tries how size).writeBarrier = s.writeBarrier ∧
      (s.dequeues tries how size).readBarrier.ready = s.readBarrier.ready := by
  unfold dequeues
  split <;> exact ⟨rfl, rfl, rfl, rfl⟩

/-- The consumer begins the call, or goes on with the one it makes. -/
theorem dequeues_cons (tries : Bool) (how : Taking) (size : ℕ) :
    (s.cons = .idle ∧
      (s.dequeues tries how size).cons = .waits tries how size s.readBarrier.reserved .enter) ∨
      s.dequeues tries how size = s := by
  unfold dequeues
  split
  · next hidle => exact .inl ⟨hidle, rfl⟩
  · next hidle => exact .inl ⟨hidle, rfl⟩
  · exact .inr rfl

/-- The consumer reserves nothing for producers. -/
theorem consumes_frame (weak : Bool) :
    (s.consumes SIZE moved weak).reserved = s.reserved ∧
      (s.consumes SIZE moved weak).prods = s.prods ∧
      (s.consumes SIZE moved weak).writeBarrier.reserved = s.writeBarrier.reserved := by
  unfold consumes
  split
  · exact ⟨rfl, rfl, rfl⟩
  · next tries how size base look hc =>
    have hsame := BarrierMt.look_tickets SIZE s.writeBarrier tries (add64 base size) weak look
    simp only
    generalize s.writeBarrier.look SIZE tries (add64 base size) weak look = r at *
    obtain ⟨b, look' | got⟩ := r
    · exact ⟨rfl, rfl, congrArg Tickets.next hsame⟩
    · simp only
      split <;> exact ⟨rfl, rfl, congrArg Tickets.next hsame⟩
  · split <;> exact ⟨rfl, rfl, rfl⟩

/-- The consumer releases a block when its call returns, and at no other step. -/
theorem consumes_ready (weak : Bool) :
    ((∀ how size base k, s.cons = .copies how size base k → k < size) ∧
      (s.consumes SIZE moved weak).readBarrier.ready = s.readBarrier.ready) ∨
    ∃ how size base k, s.cons = .copies how size base k ∧ size ≤ k ∧
      s.consumes SIZE moved weak =
        { s with readBarrier := s.readBarrier.set (add64 base size), cons := .idle } := by
  unfold consumes
  split
  · next hc => exact .inl ⟨by rw [hc]; nofun, rfl⟩
  · next tries how size base look hc =>
    refine .inl ⟨by rw [hc]; nofun, ?_⟩
    simp only
    generalize s.writeBarrier.look SIZE tries (add64 base size) weak look = r
    obtain ⟨b, look' | got⟩ := r
    · rfl
    · simp only
      split
      · rfl
      · cases tries <;> rfl
  · next how size base k hc =>
    split
    · next hlt =>
      refine .inl ⟨?_, rfl⟩
      rw [hc]
      rintro _ _ _ _ heq
      cases heq
      exact hlt
    · next hnot => exact .inr ⟨how, size, base, k, hc, Nat.le_of_not_lt hnot, rfl⟩

/-- The consumer's call stays the call it is. -/
theorem consumes_cons (weak : Bool) :
    (s.consumes SIZE moved weak).cons = .idle ∨
    (∃ tries how size base look, s.cons = .waits tries how size base look ∧
      ((∃ look', (s.consumes SIZE moved weak).cons = .waits tries how size base look') ∨
        (s.consumes SIZE moved weak).cons = .copies how size base 0)) ∨
    ∃ how size base k, s.cons = .copies how size base k ∧
      (s.consumes SIZE moved weak).cons = .copies how size base (k + 1) := by
  unfold consumes
  split
  · next hc => exact .inl hc
  · next tries how size base look hc =>
    simp only
    generalize s.writeBarrier.look SIZE tries (add64 base size) weak look = r
    obtain ⟨b, look' | got⟩ := r
    · exact .inr (.inl ⟨tries, how, size, base, look, hc, .inl ⟨look', rfl⟩⟩)
    · simp only
      split
      · exact .inl rfl
      · exact .inr (.inl ⟨tries, how, size, base, look, hc, .inr rfl⟩)
  · next how size base k hc =>
    split
    · exact .inr (.inr ⟨how, size, base, k, hc, rfl⟩)
    · exact .inl rfl

/-- A blocking call of the consumer has reserved its block when it began. -/
theorem consumes_reserved (weak : Bool)
    (hc : ∀ how size base look, s.cons ≠ .waits true how size base look) :
    (s.consumes SIZE moved weak).readBarrier.reserved = s.readBarrier.reserved := by
  unfold consumes
  split
  · rfl
  · next tries how size base look hcons =>
    simp only
    generalize s.writeBarrier.look SIZE tries (add64 base size) weak look = r
    obtain ⟨b, look' | got⟩ := r
    · rfl
    · cases tries with
      | true => exact absurd hcons (hc how size base look)
      | false => rfl
  · split <;> rfl

end Mpsc

/-! ### What a step of a producer changes -/

/-- Waiting changes only the cached position. -/
theorem BarrierSt.look_same (b : BarrierSt) (tries : Bool) (min : ℕ) (room : Room) :
    (b.look tries min room).1.ready = b.ready ∧
      (b.look tries min room).1.reserved = b.reserved := by
  cases room <;> exact ⟨rfl, rfl⟩

/-- A call that moves on without reserving anything is the same call, or is over. -/
def Hand.Goes {α : Type} (h h' : Hand α) : Prop :=
  h' = .idle ∨
  (∃ tries items base room, h = .waits tries items base room ∧
    ((∃ room', h' = .waits tries items base room') ∨ (tries = true ∧ h' = .swaps items base) ∨
      (tries = false ∧ h' = .copies items base 0))) ∨
  ∃ items base k, h = .copies items base k ∧ h' = .copies items base (k + 1)

namespace Mpsc

variable {α : Type} [DecidableEq ι] {SIZE : ℕ} {s : Mpsc ι α} {p : ι}

/-- A producer that begins a call takes a number for it, or will when it has found room. -/
theorem enqueues_cases (s : Mpsc ι α) (p : ι) (tries : Bool) (items : List α) :
    (tries = true ∧
      s.enqueues p tries items = s.move p (.waits true items s.writeBarrier.reserved .test)) ∨
    (tries = false ∧ s.enqueues p tries items =
      (s.reserve items).move p (.waits false items s.writeBarrier.reserved .test)) ∨
      s.enqueues p tries items = s := by
  unfold enqueues
  split
  · exact .inl ⟨rfl, rfl⟩
  · exact .inr (.inl ⟨rfl, rfl⟩)
  · exact .inr (.inr rfl)

/-- A producer leaves the others and the consumer alone. -/
theorem produces_frame (weak : Bool) :
    (s.produces SIZE p weak).readBarrier.ready = s.readBarrier.ready ∧
      (s.produces SIZE p weak).readBarrier.reserved = s.readBarrier.reserved ∧
      (s.produces SIZE p weak).cons = s.cons ∧ ∀ q, q ≠ p →
        (s.produces SIZE p weak).prods q = s.prods q := by
  have hmove : ∀ (v : Mpsc ι α) hand q, v.prods = s.prods → q ≠ p →
      (v.move p hand).prods q = s.prods q := by
    intro v hand q hv hq
    rw [move_prods, if_neg hq, hv]
  unfold produces
  split
  · exact ⟨rfl, rfl, rfl, fun _ _ => rfl⟩
  · next tries items base room hp =>
    have hlook :=
      BarrierSt.look_same s.readBarrier tries
        (sub64 (add64 base items.length) (sizeToPow2 SIZE)) room
    generalize s.readBarrier.look tries
      (sub64 (add64 base items.length) (sizeToPow2 SIZE)) room = r at *
    obtain ⟨b, room' | got⟩ := r
    · exact ⟨hlook.1, hlook.2, rfl, fun q => hmove _ _ q rfl⟩
    · exact ⟨hlook.1, hlook.2, rfl, fun q => hmove _ _ q rfl⟩
  · split <;> exact ⟨rfl, rfl, rfl, fun q => hmove _ _ q rfl⟩
  · split <;> exact ⟨rfl, rfl, rfl, fun q => hmove _ _ q rfl⟩

/-- A producer reserves its block when its `set_reserve` succeeds, and at no
    other step of its call. -/
theorem produces_log (weak : Bool) :
    ((s.produces SIZE p weak).reserved = s.reserved ∧
      (s.produces SIZE p weak).writeBarrier.reserved = s.writeBarrier.reserved ∧
      (s.prods p).Goes ((s.produces SIZE p weak).prods p)) ∨
    ∃ items, s.prods p = .swaps items s.writeBarrier.reserved ∧ s.produces SIZE p weak =
      (s.reserve items).move p (.copies items s.writeBarrier.reserved 0) := by
  have hmove : ∀ (v : Mpsc ι α) hand, (v.move p hand).prods p = hand :=
    fun v hand => by rw [move_prods, if_pos rfl]
  unfold produces
  split
  · next hp => exact .inl ⟨rfl, rfl, .inl hp⟩
  · next tries items base room hp =>
    rw [hp]
    generalize s.readBarrier.look tries (sub64 (add64 base items.length) (sizeToPow2 SIZE)) room = r
    obtain ⟨b, room' | got⟩ := r
    · refine .inl ⟨rfl, rfl, ?_⟩
      simp only [hmove]
      exact .inr (.inl ⟨tries, items, base, room, rfl, .inl ⟨room', rfl⟩⟩)
    · refine .inl ⟨rfl, rfl, ?_⟩
      simp only [hmove]
      cases tries with
      | false => exact .inr (.inl ⟨false, items, base, room, rfl, .inr (.inr ⟨rfl, rfl⟩)⟩)
      | true =>
        simp only [Bool.true_eq_false, if_false]
        split
        · exact .inl rfl
        · exact .inr (.inl ⟨true, items, base, room, rfl, .inr (.inl ⟨rfl, rfl⟩)⟩)
  · next items base hp =>
    split
    · next hswap =>
      obtain ⟨rfl, -⟩ := hswap
      exact .inr ⟨items, hp, rfl⟩
    · refine .inl ⟨rfl, rfl, ?_⟩
      rw [hmove]
      exact .inl rfl
  · next items base k hp =>
    rw [hp]
    split
    · refine .inl ⟨rfl, rfl, ?_⟩
      rw [hmove]
      exact .inr (.inr ⟨items, base, k, rfl, rfl⟩)
    · refine .inl ⟨rfl, rfl, ?_⟩
      rw [hmove]
      exact .inl rfl

end Mpsc

end Matching.Ring
