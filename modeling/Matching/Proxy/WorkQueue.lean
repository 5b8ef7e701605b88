import Mathlib.Data.List.Nodup
import Mathlib.Logic.Function.Basic
import Mathlib.Logic.Relation

/-! The work queues of the market-data proxy: `WorkQueue::enqueue` and `WorkQueue::pump`.
    Every section under a mutex is one atomic step, so a state says, for each thread,
    between which two sections it is. The argument follows a token: a queue with tasks is
    carried by exactly one of the list of pending queues, one pump thread, or one producer
    that has pushed and is about to schedule. -/

namespace Matching.WorkQueue

/-- Where a pump thread is: at the lock of `pending_queues` with nothing to push back, with a queue
    it took, executing the front task of that queue, done with it, or past the pop. -/
inductive Pump (Q T : Type) where
  | idle
  | taken (q : Q)
  | running (q : Q) (t : T)
  | ran (q : Q) (t : T)
  | popped (q : Q) (stillPending : Bool)
  deriving DecidableEq, Repr

/-- Where a producer is: outside `enqueue`, or inside it with `newly_pending` set. -/
inductive Producer (Q : Type) where
  | idle
  | scheduling (q : Q)
  deriving DecidableEq, Repr

/-- All queues, `pending_queues` and all threads; `sent`, `begun` and `finished` are the
    histories of `enqueue` calls, of tasks that were started and of tasks that came to
    their end, queue by queue. -/
structure State (Q T P E : Type) where
  queue : Q → List T
  pending : List Q
  pump : P → Pump Q T
  producer : E → Producer Q
  sent : Q → List T
  begun : Q → List T
  finished : Q → List T

variable {Q T P E : Type} [DecidableEq Q] [DecidableEq P] [DecidableEq E]

/-- No queue has a task and no thread has entered a section. -/
def State.init : State Q T P E where
  queue _ := []
  pending := []
  pump _ := .idle
  producer _ := .idle
  sent _ := []
  begun _ := []
  finished _ := []

/-- The end of a section of `pump` under the lock of `pending_queues`: the loop waits while there is
    no pending queue and else takes the first one. -/
def State.next (s : State Q T P E) (p : P) (pending : List Q) : State Q T P E :=
  match pending with
  | [] => { s with pending := [], pump := Function.update s.pump p .idle }
  | q :: rest => { s with pending := rest, pump := Function.update s.pump p (.taken q) }

/-- One section of one thread. -/
inductive Step : State Q T P E → State Q T P E → Prop
  /-- `enqueue`, under the queue's mutex. -/
  | push {s : State Q T P E} (e : E) (q : Q) (t : T) (h : s.producer e = .idle) :
      Step s { s with
        queue := Function.update s.queue q (s.queue q ++ [t])
        sent := Function.update s.sent q (s.sent q ++ [t])
        producer :=
          if (s.queue q).isEmpty then Function.update s.producer e (.scheduling q) else s.producer }
  /-- `enqueue` of a queue that was empty, under the mutex of `pending_queues`. -/
  | schedule {s : State Q T P E} (e : E) (q : Q) (h : s.producer e = .scheduling q) :
      Step s { s with
        pending := s.pending ++ [q]
        producer := Function.update s.producer e .idle }
  /-- `pump`, woken up or entering its loop. -/
  | wake {s : State Q T P E} (p : P) (h : s.pump p = .idle) : Step s (s.next p s.pending)
  /-- `pump` reads the front of the queue it took. -/
  | front {s : State Q T P E} (p : P) (q : Q) (t : T) (rest : List T) (h : s.pump p = .taken q)
      (hq : s.queue q = t :: rest) :
      Step s { s with
        pump := Function.update s.pump p (.running q t)
        begun := Function.update s.begun q (s.begun q ++ [t]) }
  /-- `work()` returns. -/
  | work {s : State Q T P E} (p : P) (q : Q) (t : T) (h : s.pump p = .running q t) :
      Step s { s with
        pump := Function.update s.pump p (.ran q t)
        finished := Function.update s.finished q (s.finished q ++ [t]) }
  /-- `pump` pops the task it executed. -/
  | pop {s : State Q T P E} (p : P) (q : Q) (t : T) (h : s.pump p = .ran q t) :
      Step s { s with
        queue := Function.update s.queue q (s.queue q).tail
        pump := Function.update s.pump p (.popped q (!(s.queue q).tail.isEmpty)) }
  /-- `pump` pushes the queue back if it is still pending and goes on with the next one. -/
  | again {s : State Q T P E} (p : P) (q : Q) (b : Bool) (h : s.pump p = .popped q b) :
      Step s (s.next p (if b then s.pending ++ [q] else s.pending))

/-- The states the threads can reach. -/
def Reachable (s : State Q T P E) : Prop := Relation.ReflTransGen Step State.init s

/-- A pump thread that took the queue from `pending_queues` and has not let it go. -/
def Pump.Holds (q : Q) : Pump Q T → Prop
  | .idle => False
  | .taken q' => q' = q
  | .running q' _ => q' = q
  | .ran q' _ => q' = q
  | .popped q' b => q' = q ∧ b = true

/-- A pump thread between the start of a task of the queue and its pop. -/
def Pump.At (q : Q) (t : T) : Pump Q T → Prop
  | .running q' t' => q' = q ∧ t' = t
  | .ran q' t' => q' = q ∧ t' = t
  | _ => False

/-- Who may carry a queue. -/
inductive Place (P E : Type) where
  | pending
  | pump (p : P)
  | producer (e : E)

/-- The place carries the queue: it is the one that will see to its tasks. -/
def State.Carries (s : State Q T P E) (q : Q) : Place P E → Prop
  | .pending => q ∈ s.pending
  | .pump p => (s.pump p).Holds q
  | .producer e => s.producer e = .scheduling q

/-- Every queue with tasks has exactly one place that carries it, every other queue none. -/
structure Tokens (s : State Q T P E) : Prop where
  nodup : s.pending.Nodup
  unique : ∀ {q a b}, s.Carries q a → s.Carries q b → a = b
  carried : ∀ q, s.queue q ≠ [] ↔ ∃ a, s.Carries q a

/-- The histories of a queue and its tasks: the front task is the one that was begun last while a
    pump thread is at it, and has not been begun otherwise. -/
structure Tasks (s : State Q T P E) : Prop where
  front : ∀ {p q t}, (s.pump p).At q t → ∃ rest, s.queue q = t :: rest
  resting : ∀ q, (∀ p t, ¬(s.pump p).At q t) → s.sent q = s.begun q ++ s.queue q ∧
    s.finished q = s.begun q
  busy : ∀ {p q t}, (s.pump p).At q t → s.sent q = s.begun q ++ (s.queue q).tail
  running : ∀ {p q t}, s.pump p = .running q t → s.begun q = s.finished q ++ [t]
  ran : ∀ {p q t}, s.pump p = .ran q t → s.begun q = s.finished q

variable {s s' : State Q T P E} {p : P} {e : E} {q : Q} {t : T}

namespace Pump

omit [DecidableEq Q]

@[simp] theorem holds_idle (q : Q) : (idle : Pump Q T).Holds q ↔ False := Iff.rfl
@[simp] theorem holds_taken (q q' : Q) : (taken q' : Pump Q T).Holds q ↔ q' = q := Iff.rfl
@[simp] theorem holds_running (q q' : Q) (t : T) : (running q' t).Holds q ↔ q' = q := Iff.rfl
@[simp] theorem holds_ran (q q' : Q) (t : T) : (ran q' t).Holds q ↔ q' = q := Iff.rfl
@[simp] theorem holds_popped (q q' : Q) (b : Bool) :
    (popped q' b : Pump Q T).Holds q ↔ q' = q ∧ b = true := Iff.rfl
@[simp] theorem at_idle (q : Q) (t : T) : (idle : Pump Q T).At q t ↔ False := Iff.rfl
@[simp] theorem at_taken (q q' : Q) (t : T) : (taken q' : Pump Q T).At q t ↔ False := Iff.rfl
@[simp] theorem at_running (q q' : Q) (t t' : T) : (running q' t').At q t ↔ q' = q ∧ t' = t :=
  Iff.rfl
@[simp] theorem at_ran (q q' : Q) (t t' : T) : (ran q' t').At q t ↔ q' = q ∧ t' = t := Iff.rfl
@[simp] theorem at_popped (q q' : Q) (b : Bool) (t : T) : (popped q' b).At q t ↔ False := Iff.rfl

theorem At.holds {x : Pump Q T} (h : x.At q t) : x.Holds q := by
  cases x <;> simp_all

end Pump

omit [DecidableEq Q] [DecidableEq P] [DecidableEq E] in
theorem tokens_init : Tokens (State.init : State Q T P E) where
  nodup := List.nodup_nil
  unique {q a b} ha := by cases a <;> simp [State.Carries, State.init] at ha
  carried q := by
    simp only [State.init, ne_eq, not_true_eq_false, false_iff, not_exists]
    intro a
    cases a <;> simp [State.Carries]

omit [DecidableEq Q] [DecidableEq P] [DecidableEq E] in
theorem tasks_init : Tasks (State.init : State Q T P E) where
  front h := by simp [State.init] at h
  resting q _ := ⟨rfl, rfl⟩
  busy h := by simp [State.init] at h
  running h := by cases h
  ran h := by cases h

/-! ### Tokens move -/

omit [DecidableEq P] [DecidableEq E] in
/-- The carriers of `s'` are those of `s`, but that the place `b` got the token
    of `q` that was at `a`. -/
theorem Tokens.move {a b : Place P E} (h : Tokens s) (hnd : s'.pending.Nodup)
    (hqueue : s'.queue = s.queue) (ha : s.Carries q a)
    (hc : ∀ q' c, s'.Carries q' c ↔ (s.Carries q' c ∧ ¬(q' = q ∧ c = a)) ∨ (q' = q ∧ c = b)) :
    Tokens s' := by
  refine ⟨hnd, fun {q' c d} hc1 hd1 => ?_, fun q' => ?_⟩
  · rw [hc] at hc1 hd1
    rcases hc1 with ⟨hc1, hne⟩ | ⟨rfl, rfl⟩
    · rcases hd1 with ⟨hd1, _⟩ | ⟨rfl, rfl⟩
      · exact h.unique hc1 hd1
      · exact absurd ⟨rfl, h.unique hc1 ha⟩ hne
    · rcases hd1 with ⟨hd1, hne⟩ | ⟨_, rfl⟩
      · exact absurd ⟨rfl, h.unique hd1 ha⟩ hne
      · rfl
  · rw [hqueue, h.carried q']
    constructor
    · rintro ⟨c, hcar⟩
      by_cases hq : q' = q
      · exact ⟨b, (hc q' b).mpr (Or.inr ⟨hq, rfl⟩)⟩
      · exact ⟨c, (hc q' c).mpr (Or.inl ⟨hcar, fun hx => hq hx.1⟩)⟩
    · rintro ⟨c, hcar⟩
      rcases (hc q' c).mp hcar with ⟨hcar, _⟩ | ⟨rfl, _⟩
      · exact ⟨c, hcar⟩
      · exact ⟨a, ha⟩

omit [DecidableEq Q] [DecidableEq P] [DecidableEq E] in
/-- A section that moves no token. -/
theorem Tokens.stay (h : Tokens s) (hpending : s'.pending = s.pending)
    (hqueue : ∀ q, s'.queue q ≠ [] ↔ s.queue q ≠ []) (hc : ∀ q c, s'.Carries q c ↔ s.Carries q c) :
    Tokens s' := by
  refine ⟨by rw [hpending]; exact h.nodup, fun ha hb => ?_, fun q => ?_⟩
  · exact h.unique ((hc _ _).mp ha) ((hc _ _).mp hb)
  · simp only [hqueue, h.carried, hc]

omit [DecidableEq E] in
/-- What is pending, when a pump thread that holds nothing takes the next queue. -/
theorem tokens_next (h : Tokens s) (hp : ∀ q, ¬(s.pump p).Holds q) :
    Tokens (s.next p s.pending) := by
  rcases hpend : s.pending with _ | ⟨q, rest⟩
  · refine h.stay hpend.symm (fun _ => Iff.rfl) (fun q c => ?_)
    cases c with
    | pending => simp [State.Carries, State.next, hpend]
    | pump p' =>
      by_cases hpp : p' = p
      · subst hpp; simp [State.Carries, State.next, hp]
      · simp [State.Carries, State.next, hpp]
    | producer e => rfl
  · have hnd := h.nodup
    rw [hpend, List.nodup_cons] at hnd
    have ha : s.Carries q (.pending : Place P E) := by simp [State.Carries, hpend]
    refine h.move (a := .pending) (b := .pump p) hnd.2 rfl ha (fun q' c => ?_)
    cases c with
    | pending =>
      simp only [State.Carries, State.next, hpend, List.mem_cons, reduceCtorEq, and_false,
        or_false, and_true]
      constructor
      · intro hmem
        exact ⟨Or.inr hmem, fun he => hnd.1 (he ▸ hmem)⟩
      · rintro ⟨he | hmem, hne⟩
        · exact absurd he hne
        · exact hmem
    | pump p' =>
      by_cases hpp : p' = p
      · subst hpp
        simp [State.Carries, State.next, hp, eq_comm]
      · simp [State.Carries, State.next, hpp]
    | producer e => simp [State.Carries, State.next]

omit [DecidableEq P] in
theorem tokens_push (h : Tokens s) (he : s.producer e = .idle) (q : Q) (t : T) (sent : Q → List T) :
    Tokens { s with
      queue := Function.update s.queue q (s.queue q ++ [t])
      sent := sent
      producer := if (s.queue q).isEmpty then Function.update s.producer e (.scheduling q)
        else s.producer } := by
  by_cases hq : s.queue q = []
  · have hfree : ∀ c, ¬s.Carries q c := fun c hc => (h.carried q).mpr ⟨c, hc⟩ hq
    have hold : ∀ q', ¬s.Carries q' (.producer e : Place P E) := fun q' hc => by
      simp [State.Carries, he] at hc
    simp only [hq, List.isEmpty_nil, if_true]
    have hc : ∀ q' c, State.Carries { s with
        queue := Function.update s.queue q ([] ++ [t]), sent := sent,
        producer := Function.update s.producer e (.scheduling q) } q' c ↔
        s.Carries q' c ∨ (q' = q ∧ c = .producer e) := by
      intro q' c
      cases c with
      | pending => simp [State.Carries]
      | pump p => simp [State.Carries]
      | producer e' =>
        by_cases hee : e' = e
        · subst hee; simp [State.Carries, he, eq_comm]
        · simp [State.Carries, hee]
    refine ⟨h.nodup, fun {q' c d} hc1 hd1 => ?_, fun q' => ?_⟩
    · rw [hc] at hc1 hd1
      rcases hc1 with hc1 | ⟨rfl, rfl⟩
      · rcases hd1 with hd1 | ⟨rfl, rfl⟩
        · exact h.unique hc1 hd1
        · exact absurd hc1 (hfree _)
      · rcases hd1 with hd1 | ⟨_, rfl⟩
        · exact absurd hd1 (hfree _)
        · rfl
    · simp only [hc]
      by_cases hqq : q' = q
      · subst hqq; simp
      · simp [hqq, h.carried q']
  · have hne : (s.queue q).isEmpty = false := by simpa using hq
    simp only [hne, Bool.false_eq_true, if_false]
    refine h.stay rfl (fun q' => ?_) (fun q' c => by cases c <;> rfl)
    by_cases hqq : q' = q
    · subst hqq; simp [hq]
    · simp [hqq]

omit [DecidableEq P] in
theorem tokens_schedule (h : Tokens s) (he : s.producer e = .scheduling q) :
    Tokens { s with
      pending := s.pending ++ [q], producer := Function.update s.producer e .idle } := by
  have ha : s.Carries q (.producer e : Place P E) := he
  have hq : q ∉ s.pending := fun hmem => by
    have hb : s.Carries q (.pending : Place P E) := hmem
    cases h.unique ha hb
  have hnd : (s.pending ++ [q]).Nodup := by
    refine List.nodup_append.mpr ⟨h.nodup, List.nodup_singleton q, fun x hx y hy hxy => ?_⟩
    rw [List.mem_singleton] at hy
    exact hq (hy ▸ hxy ▸ hx)
  refine h.move (a := .producer e) (b := .pending) hnd rfl ha (fun q' c => ?_)
  cases c with
  | pending => simp [State.Carries]
  | pump p => simp [State.Carries]
  | producer e' =>
    by_cases hee : e' = e
    · subst hee; simp [State.Carries, he, eq_comm]
    · simp [State.Carries, hee]

omit [DecidableEq E] in
/-- `pump` pushes a queue back that is still pending, or forgets it. -/
theorem tokens_release {b : Bool} (h : Tokens s) (hp : s.pump p = .popped q b) :
    Tokens { s with
      pending := if b then s.pending ++ [q] else s.pending
      pump := Function.update s.pump p .idle } := by
  cases b with
  | false =>
    refine h.stay rfl (fun _ => Iff.rfl) (fun q' c => ?_)
    cases c with
    | pending => rfl
    | pump p' =>
      by_cases hpp : p' = p
      · subst hpp; simp [State.Carries, hp]
      · simp [State.Carries, hpp]
    | producer e => rfl
  | true =>
    have ha : s.Carries q (.pump p : Place P E) := by simp [State.Carries, hp]
    have hq : q ∉ s.pending := fun hmem => by
      have hb : s.Carries q (.pending : Place P E) := hmem
      cases h.unique ha hb
    have hnd : (s.pending ++ [q]).Nodup := by
      refine List.nodup_append.mpr ⟨h.nodup, List.nodup_singleton q, fun x hx y hy hxy => ?_⟩
      rw [List.mem_singleton] at hy
      exact hq (hy ▸ hxy ▸ hx)
    refine h.move (a := .pump p) (b := .pending) hnd rfl ha (fun q' c => ?_)
    cases c with
    | pending => simp [State.Carries]
    | pump p' =>
      by_cases hpp : p' = p
      · subst hpp; simp [State.Carries, hp, eq_comm]
      · simp [State.Carries, hpp]
    | producer e => simp [State.Carries]

omit [DecidableEq Q] [DecidableEq E] in
/-- A pump thread goes on with the queue it holds. -/
theorem tokens_hold {x : Pump Q T} {begun finished : Q → List T} (h : Tokens s)
    (hx : ∀ q, x.Holds q ↔ (s.pump p).Holds q) :
    Tokens { s with pump := Function.update s.pump p x, begun := begun, finished := finished } := by
  refine h.stay rfl (fun _ => Iff.rfl) (fun q' c => ?_)
  cases c with
  | pending => rfl
  | pump p' =>
    by_cases hpp : p' = p
    · subst hpp; simp [State.Carries, hx]
    · simp [State.Carries, hpp]
  | producer e => rfl

omit [DecidableEq E] in
theorem tokens_pop (h : Tokens s) (hp : s.pump p = .ran q t) (hq : s.queue q ≠ []) :
    Tokens { s with
      queue := Function.update s.queue q (s.queue q).tail
      pump := Function.update s.pump p (.popped q (!(s.queue q).tail.isEmpty)) } := by
  have ha : s.Carries q (.pump p : Place P E) := by simp [State.Carries, hp]
  by_cases hnil : (s.queue q).tail = []
  · have hc : ∀ q' c, State.Carries { s with
        queue := Function.update s.queue q (s.queue q).tail
        pump := Function.update s.pump p (.popped q (!(s.queue q).tail.isEmpty)) } q' c ↔
        s.Carries q' c ∧ q' ≠ q := by
      intro q' c
      have hout : q' = q → s.Carries q' c → c = .pump p := fun hqq hcar => h.unique hcar (hqq ▸ ha)
      cases c with
      | pending => simpa [State.Carries] using fun hmem hqq => nomatch hout hqq hmem
      | pump p' =>
        by_cases hpp : p' = p
        · subst hpp; simp [State.Carries, hp, hnil, eq_comm]
        · have hne : s.Carries q' (.pump p' : Place P E) → q' ≠ q := fun hcar hqq =>
            hpp (Place.pump.inj (hout hqq hcar))
          simpa [State.Carries, hpp] using hne
      | producer e => simpa [State.Carries] using fun hmem hqq => nomatch hout hqq hmem
    refine ⟨h.nodup, fun hc1 hd1 => h.unique ((hc _ _).mp hc1).1 ((hc _ _).mp hd1).1, fun q' => ?_⟩
    simp only [hc]
    by_cases hqq : q' = q
    · subst hqq; simp [hnil]
    · simp [hqq, h.carried q']
  · refine h.stay rfl (fun q' => ?_) (fun q' c => ?_)
    · by_cases hqq : q' = q
      · subst hqq; simp [hnil, hq]
      · simp [hqq]
    · cases c with
      | pending => rfl
      | pump p' =>
        by_cases hpp : p' = p
        · subst hpp; simp [State.Carries, hp, hnil]
        · simp [State.Carries, hpp]
      | producer e => rfl

/-! ### Tasks are begun in the order of the queue -/

omit [DecidableEq Q] [DecidableEq E] in
/-- A pump thread that is at no task goes where it is at none. -/
theorem tasks_leave {x : Pump Q T} {pending : List Q} {producer : E → Producer Q} (h : Tasks s)
    (hx : ∀ q t, ¬x.At q t) (hp : ∀ q t, ¬(s.pump p).At q t) :
    Tasks { s with
      pending := pending, producer := producer, pump := Function.update s.pump p x } := by
  have hat : ∀ {p' q t}, (Function.update s.pump p x p').At q t ↔ (s.pump p').At q t := by
    intro p' q t
    by_cases hpp : p' = p
    · subst hpp; simp [hx, hp]
    · simp [hpp]
  refine ⟨fun h' => h.front (hat.mp h'),
    fun q h' => h.resting q (fun p' t hc => h' p' t (hat.mpr hc)), fun h' => h.busy (hat.mp h'),
    fun {p' q t} h' => ?_, fun {p' q t} h' => ?_⟩
  · by_cases hpp : p' = p
    · subst hpp
      have hxr : x = .running q t := by simpa using h'
      exact absurd (by simp [hxr]) (hx q t)
    · exact h.running (by simpa [hpp] using h')
  · by_cases hpp : p' = p
    · subst hpp
      have hxr : x = .ran q t := by simpa using h'
      exact absurd (by simp [hxr]) (hx q t)
    · exact h.ran (by simpa [hpp] using h')

omit [DecidableEq Q] [DecidableEq E] in
theorem tasks_next (h : Tasks s) (hp : ∀ q t, ¬(s.pump p).At q t) (pending : List Q) :
    Tasks (s.next p pending) := by
  cases pending with
  | nil => exact tasks_leave h (by simp) hp
  | cons q rest => exact tasks_leave h (by simp) hp

omit [DecidableEq P] [DecidableEq E] in
theorem tasks_push {producer : E → Producer Q} (h : Tasks s) (q : Q) (t : T) :
    Tasks { s with
      queue := Function.update s.queue q (s.queue q ++ [t])
      sent := Function.update s.sent q (s.sent q ++ [t])
      producer := producer } := by
  refine ⟨fun {p' q' t'} h' => ?_, fun q' h' => ?_, fun {p' q' t'} h' => ?_, h.running, h.ran⟩
  · obtain ⟨rest, hrest⟩ := h.front h'
    by_cases hq : q' = q
    · subst hq; exact ⟨rest ++ [t], by simp [hrest]⟩
    · exact ⟨rest, by simpa [hq] using hrest⟩
  · obtain ⟨hsent, hfin⟩ := h.resting q' h'
    by_cases hq : q' = q
    · subst hq; exact ⟨by simp [hsent], hfin⟩
    · exact ⟨by simpa [hq] using hsent, hfin⟩
  · obtain ⟨rest, hrest⟩ := h.front h'
    have hbusy := h.busy h'
    by_cases hq : q' = q
    · subst hq; simp [hbusy, hrest]
    · simpa [hq] using hbusy

omit [DecidableEq E] in
theorem tasks_front {rest : List T} (h : Tasks s) (htok : Tokens s) (hp : s.pump p = .taken q)
    (hq : s.queue q = t :: rest) :
    Tasks { s with
      pump := Function.update s.pump p (.running q t)
      begun := Function.update s.begun q (s.begun q ++ [t]) } := by
  have hcar : s.Carries q (.pump p : Place P E) := by simp [State.Carries, hp]
  have hnone : ∀ p' t', ¬(s.pump p').At q t' := by
    intro p' t' hat
    obtain rfl := Place.pump.inj (htok.unique (a := .pump p') hat.holds hcar)
    simp [hp] at hat
  obtain ⟨hsent, hfin⟩ := h.resting q hnone
  -- nobody else is at a task of this queue
  have hother : ∀ {p' q' t'}, p' ≠ p → (s.pump p').At q' t' → q' ≠ q := fun _ hat hqq =>
    hnone _ _ (hqq ▸ hat)
  refine ⟨fun {p' q' t'} h' => ?_, fun q' h' => ?_, fun {p' q' t'} h' => ?_,
    fun {p' q' t'} h' => ?_, fun {p' q' t'} h' => ?_⟩
  · by_cases hpp : p' = p
    · subst hpp
      obtain ⟨rfl, rfl⟩ : q = q' ∧ t = t' := by simpa using h'
      exact ⟨rest, hq⟩
    · exact h.front (by simpa [hpp] using h')
  · have hqq : q' ≠ q := by
      rintro rfl
      exact h' p t (by simp)
    have hold : ∀ p' t', ¬(s.pump p').At q' t' := by
      intro p' t' hat
      refine h' p' t' ?_
      by_cases hpp : p' = p
      · subst hpp; simp [hp] at hat
      · simpa [hpp] using hat
    simpa [hqq] using h.resting q' hold
  · by_cases hpp : p' = p
    · subst hpp
      obtain ⟨rfl, rfl⟩ : q = q' ∧ t = t' := by simpa using h'
      simp [hsent, hq]
    · have hat : (s.pump p').At q' t' := by simpa [hpp] using h'
      simpa [hother hpp hat] using h.busy hat
  · by_cases hpp : p' = p
    · subst hpp
      obtain ⟨rfl, rfl⟩ : q = q' ∧ t = t' := by simpa using h'
      simp [hfin]
    · have hat : s.pump p' = .running q' t' := by simpa [hpp] using h'
      simpa [hother hpp (show (s.pump p').At q' t' by simp [hat])] using h.running hat
  · by_cases hpp : p' = p
    · subst hpp; simp at h'
    · have hat : s.pump p' = .ran q' t' := by simpa [hpp] using h'
      simpa [hother hpp (show (s.pump p').At q' t' by simp [hat])] using h.ran hat

omit [DecidableEq Q] [DecidableEq P] [DecidableEq E] in
/-- A pump thread at a task of a queue is the only one. -/
theorem at_unique {p' : P} {t' : T} (htok : Tokens s) (h : (s.pump p).At q t)
    (h' : (s.pump p').At q t') : p' = p :=
  Place.pump.inj (htok.unique (a := .pump p') (b := .pump p) h'.holds h.holds)

omit [DecidableEq E] in
theorem tasks_work (h : Tasks s) (htok : Tokens s) (hp : s.pump p = .running q t) :
    Tasks { s with
      pump := Function.update s.pump p (.ran q t)
      finished := Function.update s.finished q (s.finished q ++ [t]) } := by
  have hpat : (s.pump p).At q t := by simp [hp]
  have hat : ∀ {p' q' t'}, (Function.update s.pump p (.ran q t) p').At q' t' ↔
      (s.pump p').At q' t' := by
    intro p' q' t'
    by_cases hpp : p' = p
    · subst hpp; simp [hp]
    · simp [hpp]
  have hother : ∀ {p' q' t'}, p' ≠ p → (s.pump p').At q' t' → q' ≠ q := fun hpp hat hqq =>
    hpp (at_unique htok hpat (hqq ▸ hat))
  refine ⟨fun h' => h.front (hat.mp h'), fun q' h' => ?_, fun h' => h.busy (hat.mp h'),
    fun {p' q' t'} h' => ?_, fun {p' q' t'} h' => ?_⟩
  · have hqq : q' ≠ q := by
      rintro rfl
      exact h' p t (by simp)
    simpa [hqq] using h.resting q' (fun p' t' hc => h' p' t' (hat.mpr hc))
  · by_cases hpp : p' = p
    · subst hpp; simp at h'
    · have hrun : s.pump p' = .running q' t' := by simpa [hpp] using h'
      simpa [hother hpp (show (s.pump p').At q' t' by simp [hrun])] using h.running hrun
  · by_cases hpp : p' = p
    · subst hpp
      obtain ⟨rfl, rfl⟩ : q = q' ∧ t = t' := by simpa using h'
      simp [h.running hp]
    · have hran : s.pump p' = .ran q' t' := by simpa [hpp] using h'
      simpa [hother hpp (show (s.pump p').At q' t' by simp [hran])] using h.ran hran

omit [DecidableEq E] in
theorem tasks_pop {b : Bool} (h : Tasks s) (htok : Tokens s) (hp : s.pump p = .ran q t) :
    Tasks { s with
      queue := Function.update s.queue q (s.queue q).tail
      pump := Function.update s.pump p (.popped q b) } := by
  have hpat : (s.pump p).At q t := by simp [hp]
  have hback : ∀ {p' q' t'}, (Function.update s.pump p (.popped q b) p').At q' t' →
      (s.pump p').At q' t' ∧ q' ≠ q := by
    intro p' q' t' hat
    by_cases hpp : p' = p
    · subst hpp; simp at hat
    · have hold : (s.pump p').At q' t' := by simpa [hpp] using hat
      exact ⟨hold, fun hqq => hpp (at_unique htok hpat (hqq ▸ hold))⟩
  have hstate : ∀ {p' : P} {x : Pump Q T}, Function.update s.pump p (.popped q b) p' = x →
      (∀ q' b', x ≠ .popped q' b') → s.pump p' = x := by
    intro p' x hx hne
    by_cases hpp : p' = p
    · subst hpp
      exact absurd (by simpa using hx.symm) (hne q b)
    · simpa [hpp] using hx
  refine ⟨fun {p' q' t'} h' => ?_, fun q' h' => ?_, fun {p' q' t'} h' => ?_,
    fun {p' q' t'} h' => ?_, fun {p' q' t'} h' => ?_⟩
  · obtain ⟨hold, hqq⟩ := hback h'
    simpa [hqq] using h.front hold
  · by_cases hqq : q' = q
    · subst hqq
      exact ⟨by simpa using h.busy hpat, (h.ran hp).symm⟩
    · have hold : ∀ p' t', ¬(s.pump p').At q' t' := by
        intro p' t' hat
        refine h' p' t' ?_
        by_cases hpp : p' = p
        · subst hpp
          rw [hp, Pump.at_ran] at hat
          exact absurd hat.1.symm hqq
        · simpa [hpp] using hat
      simpa [hqq] using h.resting q' hold
  · obtain ⟨hold, hqq⟩ := hback h'
    simpa [hqq] using h.busy hold
  · exact h.running (hstate h' (by simp))
  · exact h.ran (hstate h' (by simp))

/-! ### Every reachable state -/

/-- One section keeps the invariant. -/
theorem inv_step (hstep : Step s s') (h : Tokens s ∧ Tasks s) : Tokens s' ∧ Tasks s' := by
  obtain ⟨htok, htask⟩ := h
  cases hstep with
  | push e q t he => exact ⟨tokens_push htok he q t _, tasks_push htask q t⟩
  | schedule e q he =>
    exact ⟨tokens_schedule htok he,
      ⟨htask.front, htask.resting, htask.busy, htask.running, htask.ran⟩⟩
  | wake p hp => exact ⟨tokens_next htok (by simp [hp]), tasks_next htask (by simp [hp]) _⟩
  | front p q t rest hp hq => exact ⟨tokens_hold htok (by simp [hp]), tasks_front htask htok hp hq⟩
  | work p q t hp => exact ⟨tokens_hold htok (by simp [hp]), tasks_work htask htok hp⟩
  | pop p q t hp =>
    obtain ⟨rest, hrest⟩ := htask.front (p := p) (q := q) (t := t) (by simp [hp])
    exact ⟨tokens_pop htok hp (by simp [hrest]), tasks_pop htask htok hp⟩
  | again p q b hp =>
    have hrel := tokens_release htok hp
    have hnext : s.next p (if b then s.pending ++ [q] else s.pending) =
        State.next { s with
          pending := if b then s.pending ++ [q] else s.pending
          pump := Function.update s.pump p .idle } p
            (if b then s.pending ++ [q] else s.pending) := by
      cases hpend : (if b then s.pending ++ [q] else s.pending) <;> simp [State.next]
    refine ⟨?_, tasks_next htask (by simp [hp]) _⟩
    rw [hnext]
    exact tokens_next hrel (by simp)

theorem inv_reachable (h : Reachable s) : Tokens s ∧ Tasks s := by
  induction h with
  | refl => exact ⟨tokens_init, tasks_init⟩
  | tail _ hstep ih => exact inv_step hstep ih

/-- The tasks of a queue that have not come to their end. -/
def State.unfinished (s : State Q T P E) (q : Q) : List T := (s.sent q).drop (s.finished q).length

/-- What the scheduler guarantees. -/
structure Scheduled (s : State Q T P E) : Prop where
  /-- A queue is held by at most one pump thread. -/
  held_once : ∀ q p p', (s.pump p).Holds q → (s.pump p').Holds q → p = p'
  /-- A queue is pending at most once. -/
  pending_once : s.pending.Nodup
  never_both : ∀ q p, (s.pump p).Holds q → q ∉ s.pending
  /-- With no thread in the middle of a step on it, a queue is pending or held exactly when it has
      unfinished tasks. -/
  served : ∀ q, (∀ e, s.producer e ≠ .scheduling q) → (∀ p t, s.pump p ≠ .ran q t) →
    ((q ∈ s.pending ∨ ∃ p, (s.pump p).Holds q) ↔ s.unfinished q ≠ [])
  /-- Tasks begin in the order of the `enqueue` calls, -/
  begun_order : ∀ q, s.begun q <+: s.sent q
  /-- each after all earlier ones have come to their end, -/
  finished_order : ∀ q, s.finished q <+: s.begun q ∧ (s.begun q).length ≤ (s.finished q).length + 1
  /-- and an unfinished task is in the queue: none is lost. -/
  kept : ∀ q, s.sent q = s.finished q ++ s.unfinished q ∧ (s.unfinished q).IsSuffix (s.queue q)
  /-- The front a pump thread reads is there. -/
  nonempty : ∀ p q, s.pump p = .taken q → s.queue q ≠ []

omit [DecidableEq Q] [DecidableEq P] [DecidableEq E] in
/-- The histories of a queue, by what a pump thread is doing with it. -/
theorem histories (h : Tasks s) (q : Q) :
    (s.begun q = s.finished q ∧ s.sent q = s.finished q ++ s.queue q) ∨
    (∃ p t, s.pump p = .running q t ∧ s.begun q = s.finished q ++ [t] ∧
      s.sent q = s.finished q ++ s.queue q) ∨
    (∃ p t, s.pump p = .ran q t ∧ s.begun q = s.finished q ∧
      s.sent q = s.finished q ++ (s.queue q).tail) := by
  by_cases hat : ∃ p t, (s.pump p).At q t
  · obtain ⟨p, t, hat⟩ := hat
    have hbusy := h.busy hat
    obtain ⟨rest, hfront⟩ := h.front hat
    rcases hp : s.pump p with _ | q' | ⟨q', t'⟩ | ⟨q', t'⟩ | ⟨q', b⟩
    · simp [hp] at hat
    · simp [hp] at hat
    · obtain ⟨rfl, rfl⟩ : q' = q ∧ t' = t := by simpa [hp] using hat
      refine Or.inr (Or.inl ⟨p, t', hp, h.running hp, ?_⟩)
      rw [hbusy, h.running hp, hfront]
      simp
    · obtain ⟨rfl, rfl⟩ : q' = q ∧ t' = t := by simpa [hp] using hat
      refine Or.inr (Or.inr ⟨p, t', hp, h.ran hp, ?_⟩)
      rw [hbusy, h.ran hp]
    · simp [hp] at hat
  · obtain ⟨hsent, hfin⟩ := h.resting q (fun p t hc => hat ⟨p, t, hc⟩)
    exact Or.inl ⟨hfin.symm, by rw [hsent, hfin]⟩

/-- In every interleaving of any number of producers and pump threads, the queues are scheduled as
    the class promises. -/
theorem scheduled (h : Reachable s) : Scheduled s := by
  obtain ⟨htok, htask⟩ := inv_reachable h
  have hunf : ∀ q rest, s.sent q = s.finished q ++ rest → s.unfinished q = rest := by
    intro q rest hsent
    rw [State.unfinished, hsent, List.drop_left]
  refine ⟨fun q p p' hp hp' => ?_, htok.nodup, fun q p hp hmem => ?_,
    fun q hprod hran => ?_, fun q => ?_, fun q => ?_, fun q => ?_, fun p q hp => ?_⟩
  · exact Place.pump.inj (htok.unique (a := .pump p) (b := .pump p') hp hp')
  · cases htok.unique (a := .pump p) (b := .pending) hp hmem
  · have hqueue : s.unfinished q = s.queue q := by
      rcases histories htask q with ⟨_, hsent⟩ | ⟨_, _, _, _, hsent⟩ | ⟨p, t, hp, _⟩
      · exact hunf q _ hsent
      · exact hunf q _ hsent
      · exact absurd hp (hran p t)
    rw [hqueue, htok.carried q]
    constructor
    · rintro (hmem | ⟨p, hp⟩)
      · exact ⟨.pending, hmem⟩
      · exact ⟨.pump p, hp⟩
    · rintro ⟨a, ha⟩
      cases a with
      | pending => exact Or.inl ha
      | pump p => exact Or.inr ⟨p, ha⟩
      | producer e => exact absurd ha (hprod e)
  · rcases histories htask q with ⟨hbeg, hsent⟩ | ⟨p, t, hp, hbeg, hsent⟩ | ⟨p, t, hp, hbeg, hsent⟩
    · rw [hbeg, hsent]; exact List.prefix_append _ _
    · obtain ⟨rest, hrest⟩ := htask.front (p := p) (q := q) (t := t) (by simp [hp])
      exact ⟨rest, by rw [hbeg, hsent, hrest]; simp⟩
    · rw [hbeg, hsent]; exact List.prefix_append _ _
  · rcases histories htask q with ⟨hbeg, _⟩ | ⟨_, t, _, hbeg, _⟩ | ⟨_, _, _, hbeg, _⟩
    · rw [hbeg]; exact ⟨List.prefix_rfl, Nat.le_succ _⟩
    · rw [hbeg]; exact ⟨List.prefix_append _ _, by simp⟩
    · rw [hbeg]; exact ⟨List.prefix_rfl, Nat.le_succ _⟩
  · rcases histories htask q with ⟨_, hsent⟩ | ⟨_, _, _, _, hsent⟩ | ⟨_, _, _, _, hsent⟩
    · rw [hunf q _ hsent]; exact ⟨hsent, List.suffix_rfl⟩
    · rw [hunf q _ hsent]; exact ⟨hsent, List.suffix_rfl⟩
    · rw [hunf q _ hsent]; exact ⟨hsent, List.tail_suffix _⟩
  · exact (htok.carried q).mpr ⟨.pump p, by simp [State.Carries, hp]⟩

/-- Two tasks were enqueued; a pump thread has finished the first, pushed the queue
    back and taken it again. -/
theorem scheduled_twoTasks : ∃ s : State ℕ ℕ ℕ ℕ, Reachable s ∧ Scheduled s ∧
    s.sent 7 = [1, 2] ∧ s.finished 7 = [1] ∧ s.queue 7 = [2] ∧ s.pump 0 = .taken 7 := by
  have hpushed : Reachable _ :=
    ((Relation.ReflTransGen.single (Step.push (0 : ℕ) (7 : ℕ) (1 : ℕ) rfl)).tail
    (Step.schedule (P := ℕ) 0 7 rfl)).tail (Step.push 1 7 2 rfl)
  have hran :=
    ((hpushed.tail (Step.wake 0 rfl)).tail (Step.front 0 7 1 [2] rfl rfl)).tail
      (Step.work 0 7 1 rfl)
  have hagain : Reachable _ := (hran.tail (Step.pop 0 7 1 rfl)).tail (Step.again 0 7 true rfl)
  exact ⟨_, hagain, scheduled hagain, rfl, rfl, rfl, rfl⟩

end Matching.WorkQueue
