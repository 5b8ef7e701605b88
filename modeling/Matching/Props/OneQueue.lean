import Mathlib.Algebra.Order.BigOperators.Group.Finset
import Matching.Lib.Machine
import Matching.Lib.Measure
import Matching.Proxy.OneQueue

/-! With one queue, the tasks of all callers run one at a time and in the order in which they were
    enqueued, and no wake-up is lost: the threads that pump come to the end of what was enqueued. -/

namespace Matching.OneQueue

variable {Q T P E : Type} [DecidableEq Q] [DecidableEq P] [DecidableEq E] {s : State Q T P E}
  {p : P} {e : E} {q : Q} {t : T}

/-! ### The invariant -/

/-- The thread has locked the mutex. -/
def Pump.HasMutex : Pump Q T → Prop
  | .locked | .running _ _ => True
  | _ => False

/-- What is enqueued and not finished is in one queue, which is pending, or is with a pump
    thread at its first task. -/
inductive Content (s : State Q T P E) : Prop where
  | idle (pending : s.pending = []) (queue : ∀ q, s.queue q = [])
      (still : ∀ p q t, s.pump p ≠ .running q t) (begun : s.begun = s.finished)
      (sent : s.sent = s.finished)
  | pending (q : Q) (pending : s.pending = [q]) (some : s.queue q ≠ [])
      (queue : ∀ q', q' ≠ q → s.queue q' = []) (still : ∀ p q t, s.pump p ≠ .running q t)
      (begun : s.begun = s.finished) (sent : s.sent = s.finished ++ s.queue q)
  | running (p : P) (q : Q) (t : T) (pending : s.pending = []) (pump : s.pump p = .running q t)
      (first : ∃ rest, s.queue q = t :: rest) (queue : ∀ q', q' ≠ q → s.queue q' = [])
      (begun : s.begun = s.finished ++ [t]) (sent : s.sent = s.finished ++ s.queue q)

structure Sound (s : State Q T P E) : Prop where
  mutex : ∀ p, (s.pump p).HasMutex ↔ s.owner = some p
  content : Content s
  wake : s.pending ≠ [] → (∃ e, s.notifying e = true) ∨ ∃ p, s.pump p ≠ .waits
  fault : s.fault = false

section
omit [DecidableEq Q] [DecidableEq P] [DecidableEq E]

theorem init_sound : Sound (State.init : State Q T P E) where
  mutex p := by simp [State.init, Pump.HasMutex]
  content := .idle rfl (fun _ => rfl) (by simp [State.init]) rfl rfl
  wake h := absurd rfl h
  fault := rfl

/-- Where nobody has the mutex, no task runs. -/
theorem Sound.still (h : Sound s) (howner : s.owner = none) (p : P) (q : Q) (t : T) :
    s.pump p ≠ .running q t := by
  intro hrun
  have hmutex := (h.mutex p).mp (by rw [hrun]; trivial)
  rw [howner] at hmutex
  cases hmutex

/-- Only the thread that has the mutex runs a task. -/
theorem Sound.alone (h : Sound s) {p' : P} (hp : (s.pump p).HasMutex) (hp' : (s.pump p').HasMutex) :
    p' = p := by
  have howner := (h.mutex p).mp hp
  rw [(h.mutex p').mp hp', Option.some_inj] at howner
  exact howner

end

omit [DecidableEq Q] [DecidableEq E] in
/-- A thread that is at no task goes where it is at none. -/
theorem Content.move (h : Content s) {x : Pump Q T} {o : Option P} {n : E → Bool}
    (hp : ∀ q t, s.pump p ≠ .running q t) (hx : ∀ q t, x ≠ .running q t) :
    Content { s with pump := Function.update s.pump p x, owner := o, notifying := n } := by
  have hstill : (∀ p q t, s.pump p ≠ .running q t) →
      ∀ p' q t, Function.update s.pump p x p' ≠ .running q t := fun hstill p' q t => by
    rcases eq_or_ne p' p with rfl | hne
    · rw [Function.update_self]
      exact hx q t
    · rw [Function.update_of_ne hne]
      exact hstill p' q t
  cases h with
  | idle hpending hqueue still hbegun hsent =>
      exact .idle hpending hqueue (hstill still) hbegun hsent
  | pending q hpending hsome hqueue still hbegun hsent =>
      exact .pending q hpending hsome hqueue (hstill still) hbegun hsent
  | running p' q t hpending hpump hfirst hqueue hbegun hsent =>
    have hne : p' ≠ p := fun heq => hp q t (heq ▸ hpump)
    exact .running p' q t hpending
      (by simp only [Function.update_of_ne hne, hpump]) hfirst hqueue hbegun hsent

omit [DecidableEq Q] [DecidableEq E] in
/-- Who has the mutex, after a thread that has it or nobody has it has moved. -/
theorem Sound.mutex_update (h : Sound s) {x : Pump Q T} {o : Option P}
    (hfree : ∀ p', p' ≠ p → s.owner ≠ some p')
    (ho : o = none ∧ ¬ x.HasMutex ∨ o = some p ∧ x.HasMutex) (p' : P) :
    (Function.update s.pump p x p').HasMutex ↔ o = some p' := by
  rcases eq_or_ne p' p with rfl | hne
  · rw [Function.update_self]
    rcases ho with ⟨rfl, hx⟩ | ⟨rfl, hx⟩
    · exact iff_of_false hx nofun
    · exact iff_of_true hx rfl
  · rw [Function.update_of_ne hne, h.mutex p']
    refine iff_of_false (hfree p' hne) ?_
    rcases ho with ⟨rfl, -⟩ | ⟨rfl, -⟩
    · nofun
    · exact fun heq => hne (Option.some_inj.mp heq).symm

/-! ### Steps -/

omit [DecidableEq P] in
theorem enqueue_sound (h : Sound s) (howner : s.owner = none) (e : E) (q : Q) (t : T) :
    Sound (s.enqueue e q t) := by
  have hnotifying : ∃ e', Function.update s.notifying e true e' = true :=
    ⟨e, Function.update_self ..⟩
  cases h.content with
  | idle hpending hqueue still hbegun hsent =>
    simp only [State.enqueue, hpending]
    refine ⟨h.mutex, .pending q rfl ?_ (fun q' hne => ?_) still hbegun ?_,
      fun _ => .inl hnotifying, h.fault⟩
    · simp
    · simp only [Function.update_of_ne hne, hqueue]
    · simp only [Function.update_self, hqueue, hsent, List.nil_append]
  | pending front hpending hsome hqueue still hbegun hsent =>
    simp only [State.enqueue, hpending]
    refine ⟨h.mutex, .pending front rfl ?_ (fun q' hne => ?_) still hbegun ?_,
      fun _ => .inl hnotifying, h.fault⟩
    · simp
    · simp only [Function.update_of_ne hne, hqueue q' hne]
    · simp only [Function.update_self, hsent, List.append_assoc]
  | running p q' t' _ hpump => exact absurd hpump (h.still howner p q' t')

omit [DecidableEq Q] [DecidableEq E] in
/-- A pump thread that waits goes to lock the mutex. -/
theorem wakes_sound (h : Sound s) (hp : s.pump p = .waits) (n : E → Bool) :
    Sound { s with pump := Function.update s.pump p .outside, notifying := n } := by
  refine ⟨fun p' => ?_, h.content.move (by simp [hp]) (by simp),
    fun _ => .inr ⟨p, by simp⟩, h.fault⟩
  rcases eq_or_ne p' p with rfl | hne
  · have hmutex := h.mutex p'
    rw [hp] at hmutex
    simp only [Function.update_self, ← hmutex]
    exact Iff.rfl
  · simp only [Function.update_of_ne hne, h.mutex p']

omit [DecidableEq Q] [DecidableEq P] [DecidableEq E] in
theorem notify_sound [Nonempty P] (h : Sound s) (hnone : ∀ p, s.pump p ≠ .waits) (n : E → Bool) :
    Sound { s with notifying := n } := by
  refine ⟨h.mutex, ?_, fun _ => .inr ⟨Classical.arbitrary P, hnone _⟩, h.fault⟩
  cases h.content with
  | idle hpending hqueue still hbegun hsent => exact .idle hpending hqueue still hbegun hsent
  | pending q hpending hsome hqueue still hbegun hsent =>
      exact .pending q hpending hsome hqueue still hbegun hsent
  | running p q t hpending hpump hfirst hqueue hbegun hsent =>
    exact .running p q t hpending hpump hfirst hqueue hbegun hsent

omit [DecidableEq Q] [DecidableEq E] in
theorem lock_sound (h : Sound s) (howner : s.owner = none) (hp : s.pump p = .outside) :
    Sound { s with owner := some p, pump := Function.update s.pump p .locked } := by
  refine ⟨h.mutex_update (by simp [howner]) (.inr ⟨rfl, trivial⟩),
    h.content.move (by simp [hp]) (by simp), fun _ => .inr ⟨p, by simp⟩, h.fault⟩

omit [DecidableEq Q] [DecidableEq E] in
theorem looks_sound (h : Sound s) (hp : s.pump p = .locked) : Sound (s.looks p) := by
  have howner := (h.mutex p).mp (by rw [hp]; trivial)
  have hfree : ∀ p', p' ≠ p → s.owner ≠ some p' := fun p' hne heq => by
    rw [howner, Option.some_inj] at heq
    exact hne heq.symm
  cases h.content with
  | idle hpending hqueue still hbegun hsent =>
    simp only [State.looks, hpending]
    refine ⟨h.mutex_update hfree (.inl ⟨rfl, id⟩), ?_, fun hne => absurd rfl hne, h.fault⟩
    have hmove :=
      h.content.move (x := .waits) (o := none) (n := s.notifying) (p := p) (by simp [hp]) (by simp)
    rw [hpending] at hmove
    exact hmove
  | pending q hpending hsome hqueue still hbegun hsent =>
    obtain ⟨t, rest, hfirst⟩ := List.exists_cons_of_ne_nil hsome
    simp only [State.looks, hpending, hfirst]
    refine ⟨h.mutex_update hfree (.inr ⟨howner, trivial⟩), ?_, fun hne => absurd rfl hne, h.fault⟩
    exact .running p q t rfl (Function.update_self ..) ⟨rest, hfirst⟩ hqueue
      (by simp only [hbegun]) hsent
  | running p' q t _ hpump =>
    have hmutex : (s.pump p).HasMutex := by rw [hp]; trivial
    have hmutex' : (s.pump p').HasMutex := by rw [hpump]; trivial
    obtain rfl := h.alone hmutex hmutex'
    rw [hp] at hpump
    cases hpump

omit [DecidableEq E] in
theorem returns_sound (h : Sound s) (hp : s.pump p = .running q t) : Sound (s.returns p q t) := by
  have howner := (h.mutex p).mp (by rw [hp]; trivial)
  have hfree : ∀ p', p' ≠ p → s.owner ≠ some p' := fun p' hne heq => by
    rw [howner, Option.some_inj] at heq
    exact hne heq.symm
  cases h.content with
  | idle _ _ still => exact absurd hp (still p q t)
  | pending _ _ _ _ still => exact absurd hp (still p q t)
  | running p' q' t' hpending hpump hfirst hqueue hbegun hsent =>
    have hmutex : (s.pump p).HasMutex := by rw [hp]; trivial
    have hmutex' : (s.pump p').HasMutex := by rw [hpump]; trivial
    obtain rfl := h.alone hmutex hmutex'
    obtain ⟨rfl, rfl⟩ : q = q' ∧ t = t' := by simpa [hp] using hpump
    obtain ⟨rest, hrest⟩ := hfirst
    have hstill : ∀ p q t, Function.update s.pump p' Pump.locked p ≠
        .running q t := fun p q t hrun => by
      rcases eq_or_ne p p' with rfl | hne
      · simp at hrun
      · rw [Function.update_of_ne hne] at hrun
        exact hne (h.alone (by rw [hp]; trivial) (by rw [hrun]; trivial))
    have hwake : ∃ p, Function.update s.pump p' Pump.locked p ≠ .waits := ⟨p', by simp⟩
    simp only [State.returns, hrest, List.tail_cons, hpending, List.nil_append]
    refine ⟨h.mutex_update hfree (.inr ⟨howner, trivial⟩), ?_, fun _ => .inr hwake, h.fault⟩
    cases rest with
    | nil =>
      refine .idle rfl (fun q' => ?_) hstill hbegun (by rw [hsent, hrest])
      rcases eq_or_ne q' q with rfl | hne
      · exact Function.update_self ..
      · simp only [Function.update_of_ne hne, hqueue q' hne]
    | cons t' rest =>
      refine .pending q rfl (by simp) (fun q' hne => ?_) hstill hbegun (by simp [hsent, hrest])
      simp only [Function.update_of_ne hne, hqueue q' hne]

theorem step_sound [Nonempty P] {a : Act Q T P E} (ha : s.Enabled a) (h : Sound s) :
    Sound (s.step a) := by
  cases a with
  | enqueue e q t => exact enqueue_sound h ha.1 e q t
  | notify e woken =>
    cases woken with
    | some p => exact wakes_sound h ha.2 _
    | none => exact notify_sound h ha.2 _
  | lock p => exact lock_sound h ha.1 ha.2
  | looks p => exact looks_sound h ha
  | returns p =>
    obtain ⟨q, t, hp⟩ := ha
    simp only [State.step, hp]
    exact returns_sound h hp
  | wakes p => exact wakes_sound h ha s.notifying

/-! ### Coming to the end -/

section
variable [Fintype P] [Fintype E]

/-- How far a pump thread is from its next wait. -/
def Pump.rank : Pump Q T → ℕ
  | .outside => 2
  | .locked => 1
  | _ => 0

/-- How many steps can be made without a further call. -/
def left (s : State Q T P E) : ℕ :=
  3 * (s.sent.length - s.finished.length) + ∑ p, (s.pump p).rank + ∑ e, 3 * (s.notifying e).toNat

omit [DecidableEq Q] [DecidableEq P] [DecidableEq E] in
theorem left_le (s : State Q T P E) :
    left s ≤ 3 * (s.sent.length - s.finished.length) + 2 * Fintype.card P + 3 * Fintype.card E := by
  have hpump : ∑ p, (s.pump p).rank ≤ ∑ _ : P, 2 := Finset.sum_le_sum fun p _ => by
    cases s.pump p <;> simp [Pump.rank]
  have hnotifying : ∑ e, 3 * (s.notifying e).toNat ≤ ∑ _ : E, 3 := Finset.sum_le_sum fun e _ => by
    cases s.notifying e <;> decide
  rw [Finset.sum_const, Finset.card_univ, Nat.nsmul_eq_mul] at hpump hnotifying
  rw [left]
  omega

/-- Every such step comes closer to the end, and calls nothing. -/
theorem own_step {a : Act Q T P E} (ha : s.Own a) (h : Sound s) :
    left (s.step a) < left s ∧ (s.step a).sent = s.sent := by
  obtain ⟨ha, hown⟩ := ha
  cases a with
  | enqueue e q t => cases hown
  | wakes p => cases hown
  | notify e woken =>
    have hnotifying := sum_update s.notifying (fun b => 3 * b.toNat) e false
    cases woken with
    | none =>
      rw [ha.1] at hnotifying
      refine ⟨?_, rfl⟩
      simp only [left, State.step, Bool.toNat_true, Bool.toNat_false] at hnotifying ⊢
      omega
    | some p =>
      have hpump := sum_update s.pump Pump.rank p .outside
      rw [ha.1] at hnotifying
      rw [ha.2] at hpump
      refine ⟨?_, rfl⟩
      simp only [left, State.step, Bool.toNat_true, Bool.toNat_false,
        Pump.rank] at hnotifying hpump ⊢
      omega
  | lock p =>
    have hpump := sum_update s.pump Pump.rank p .locked
    rw [ha.2] at hpump
    refine ⟨?_, rfl⟩
    simp only [left, State.step, Pump.rank] at hpump ⊢
    omega
  | looks p =>
    have hp : s.pump p = .locked := ha
    have hwaits := sum_update s.pump Pump.rank p .waits
    rw [hp] at hwaits
    cases h.content with
    | idle hpending =>
      simp only [State.step, State.looks, hpending]
      refine ⟨?_, trivial⟩
      simp only [left, Pump.rank] at hwaits ⊢
      omega
    | pending q hpending hsome =>
      obtain ⟨t, rest, hfirst⟩ := List.exists_cons_of_ne_nil hsome
      have hrunning := sum_update s.pump Pump.rank p (.running q t)
      rw [hp] at hrunning
      simp only [State.step, State.looks, hpending, hfirst]
      refine ⟨?_, trivial⟩
      simp only [left, Pump.rank] at hrunning ⊢
      omega
    | running p' q t hpending hpump =>
      have hmutex : (s.pump p).HasMutex := by rw [hp]; trivial
      have hmutex' : (s.pump p').HasMutex := by rw [hpump]; trivial
      obtain rfl := h.alone hmutex hmutex'
      rw [hp] at hpump
      cases hpump
  | returns p =>
    obtain ⟨q, t, hp⟩ := ha
    have hlocked := sum_update s.pump Pump.rank p .locked
    rw [hp] at hlocked
    have hopen : s.finished.length < s.sent.length := by
      cases h.content with
      | idle _ _ still => exact absurd hp (still p q t)
      | pending _ _ _ _ still => exact absurd hp (still p q t)
      | running p' q' t' _ _ hfirst _ _ hsent =>
        obtain ⟨rest, hrest⟩ := hfirst
        rw [hsent, hrest, List.length_append, List.length_cons]
        omega
    simp only [State.step, hp, State.returns]
    refine ⟨?_, trivial⟩
    simp only [left, Pump.rank, List.length_append, List.length_singleton] at hlocked ⊢
    omega

/-- A run of these steps. -/
theorem own_run [Nonempty P] :
    ∀ (own : List (Act Q T P E)) {s : State Q T P E}, Sound s → Along State.step State.Own s own →
    own.length + left (own.foldl State.step s) ≤ left s ∧ (own.foldl State.step s).sent = s.sent
  | [], s, _, _ => ⟨by simp, rfl⟩
  | a :: own, s, h, hown => by
    obtain ⟨ha, hrest⟩ := hown
    obtain ⟨hless, hsent⟩ := own_step ha h
    obtain ⟨hlen, hsent'⟩ := own_run own (step_sound ha.1 h) hrest
    refine ⟨?_, hsent'.trans hsent⟩
    simp only [List.length_cons, List.foldl_cons]
    omega

omit [DecidableEq Q] [DecidableEq P] [DecidableEq E] [Fintype P] [Fintype E] in
/-- When no step can be made without a further call, everything is finished. -/
theorem Sound.stuck [Nonempty P] (h : Sound s) (hstuck : ∀ a, ¬ s.Own a) : s.finished = s.sent := by
  have hnotifying : ∀ e, s.notifying e ≠ true := fun e he => by
    rcases Classical.em (∃ p, s.pump p = .waits) with ⟨p, hp⟩ | hnone
    · exact hstuck (.notify e (some p)) ⟨⟨he, hp⟩, trivial⟩
    · exact hstuck (.notify e none) ⟨⟨he, not_exists.mp hnone⟩, trivial⟩
  have hwaits : ∀ p, s.pump p = .waits ∨ s.pump p = .outside := fun p => by
    cases hp : s.pump p with
    | outside => exact .inr rfl
    | waits => exact .inl rfl
    | locked => exact absurd ⟨hp, trivial⟩ (hstuck (.looks p))
    | running q t => exact absurd ⟨⟨q, t, hp⟩, trivial⟩ (hstuck (.returns p))
  have howner : s.owner = none := by
    cases howner : s.owner with
    | none => rfl
    | some p =>
      have hmutex := (h.mutex p).mpr howner
      rcases hwaits p with hp | hp
      · rw [hp] at hmutex
        cases hmutex
      · rw [hp] at hmutex
        cases hmutex
  have hall : ∀ p, s.pump p = .waits := fun p =>
    (hwaits p).resolve_right fun hp => hstuck (.lock p) ⟨⟨howner, hp⟩, trivial⟩
  have hempty : s.pending = [] := by
    by_contra hne
    rcases h.wake hne with ⟨e, he⟩ | ⟨p, hp⟩
    · exact hnotifying e he
    · exact hp (hall p)
  cases h.content with
  | idle _ _ _ _ hsent => exact hsent.symm
  | pending q hpending =>
    rw [hpending] at hempty
    cases hempty
  | running p q t _ hpump =>
    rw [hall p] at hpump
    cases hpump

omit [DecidableEq Q] [DecidableEq P] [DecidableEq E] [Fintype P] [Fintype E] in
/-- The tasks that were started are those that were enqueued first, and all but the last
    of them are finished. -/
theorem Content.order (h : Content s) :
    s.begun <+: s.sent ∧ ∃ l, s.begun = s.finished ++ l ∧ l.length ≤ 1 := by
  cases h with
  | idle _ _ _ hbegun hsent =>
    exact ⟨by rw [hbegun, hsent], [], by rw [hbegun, List.append_nil], by simp⟩
  | pending q _ _ _ _ hbegun hsent =>
    exact ⟨⟨_, by rw [hbegun, hsent]⟩, [], by rw [hbegun, List.append_nil], by simp⟩
  | running p q t _ _ hfirst _ hbegun hsent =>
    obtain ⟨rest, hrest⟩ := hfirst
    exact ⟨⟨rest, by rw [hbegun, hsent, hrest, List.append_assoc, List.singleton_append]⟩, [t],
      hbegun, by simp⟩

/-! ### Every run -/

/-- In every interleaving of callers with pump threads: the tasks of all queues are started in the
    order in which they were enqueued, each when the one before it has finished; no empty queue is
    read; while something is not finished, a caller is about to notify or a pump thread does not
    wait; and without further calls the threads come to an end, with everything finished, after a
    number of steps that what there is to do bounds. -/
theorem tasks_in_order [Nonempty P] (acts : List (Act Q T P E))
    (hok : Along State.step State.Enabled State.init acts) (s : State Q T P E)
    (hs : s = acts.foldl State.step State.init) :
    (s.begun <+: s.sent ∧ ∃ l, s.begun = s.finished ++ l ∧ l.length ≤ 1) ∧ s.fault = false ∧
    (s.finished ≠ s.sent → (∃ e, s.notifying e = true) ∨ ∃ p, s.pump p ≠ .waits) ∧
    ∀ own, Along State.step State.Own s own →
      own.length ≤
        3 * (s.sent.length - s.finished.length) + 2 * Fintype.card P + 3 * Fintype.card E ∧
      ((∀ a, ¬ (own.foldl State.step s).Own a) → (own.foldl State.step s).finished = s.sent) := by
  have h : Sound s := hs ▸ Along.preserves step_sound acts hok init_sound
  refine ⟨h.content.order, h.fault, fun hopen => ?_, fun own hown => ?_⟩
  · cases hcontent : h.content with
    | idle _ _ _ _ hsent => exact absurd hsent.symm hopen
    | pending q hpending => exact h.wake (by rw [hpending]; simp)
    | running p q t _ hpump => exact .inr ⟨p, by rw [hpump]; nofun⟩
  · obtain ⟨hlen, hsent⟩ := own_run own h hown
    have hleft := left_le s
    have hsound : Sound (own.foldl State.step s) :=
      Along.preserves (fun ha h => step_sound ha.1 h) own hown h
    refine ⟨by omega, fun hstuck => ?_⟩
    rw [hsound.stuck hstuck, hsent]

end

/-- Two callers through queues of their own: the second task goes to the queue of the
    first, and runs after it. -/
def bothCall : List (Act Bool ℕ Unit Bool) :=
  [.lock (), .looks (), .enqueue false false 1, .enqueue true true 2, .notify false (some ()),
    .lock (), .looks (), .returns (), .looks (), .notify true none]

theorem tasks_in_order_bothCall :
    (fun s : State Bool ℕ Unit Bool => s.begun = [1, 2] ∧ s.finished = [1] ∧ s.queue true = [] ∧
      s.begun <+: s.sent ∧ ((∃ e, s.notifying e = true) ∨ ∃ p, s.pump p ≠ .waits))
      (bothCall.foldl State.step (State.init : State Bool ℕ Unit Bool)) := by
  have h := tasks_in_order bothCall ?_ _ rfl
  · exact ⟨by decide, by decide, by decide, h.1.1, h.2.2.1 (by decide)⟩
  · simp [bothCall, Along, State.Enabled, State.step, State.init, State.looks, State.enqueue,
      State.returns]

end Matching.OneQueue
