import Mathlib.Data.List.Perm.Basic
import Matching.Common.Scheduler
import Matching.Lib.Machine

/-! The scheduler runs every task once and not before its time, and no wake-up is lost: whenever
    work is due, the runner is up, or was notified, or sleeps no longer than until now. All this
    where no call makes the queue grow out of its vector while the runner waits for a deadline. -/

namespace Matching.Common.Scheduler

variable {s : Scheduler}

/-! ### The invariant -/

/-- A runner that sleeps and was not notified has seen what is in the queue: nothing, or its top. -/
def Seen (queue : List Work) : Runner → Prop
  | .sleeps none false => queue = []
  | .sleeps (some d) false => ∀ w ∈ queue, d ≤ w.deadline
  | _ => True

structure Sound (s : Scheduler) : Prop where
  once : (s.taken.map Prod.fst ++ s.queue).Perm s.called
  late : ∀ x ∈ s.taken, x.1.deadline ≤ x.2 ∧ x.2 ≤ s.now
  seen : Seen s.queue s.runner
  held : s.held ≠ .dangling

theorem start_sound (now : ℤ) : (start now).Sound := ⟨List.Perm.refl _, nofun, trivial, nofun⟩

/-- Whoever was notified need not have seen anything. -/
theorem seen_notifyOne (queue : List Work) (runner : Runner) : Seen queue (notifyOne runner) := by
  cases runner with
  | head => trivial
  | sleeps till woken => cases till <;> trivial
  | runs work => trivial

/-- Work that is not due before the rest leaves a sleeper with what it has seen. -/
theorem Seen.push {queue : List Work} {runner : Runner} {work : Work} (h : Seen queue runner)
    (hlate : ¬ ∀ v ∈ queue, work.deadline < v.deadline) : Seen (queue ++ [work]) runner := by
  obtain ⟨v, hv, hle⟩ : ∃ v ∈ queue, v.deadline ≤ work.deadline := by
    by_contra hnone
    refine hlate fun v hv => Int.not_le.mp fun hle => hnone ⟨v, hv, hle⟩
  cases runner with
  | head => trivial
  | runs work => trivial
  | sleeps till woken =>
    cases woken with
    | true => cases till <;> trivial
    | false =>
      cases till with
      | none =>
        obtain rfl : queue = [] := h
        cases hv
      | some d =>
        intro w hw
        rcases List.mem_append.mp hw with hw | hw
        · exact h w hw
        · obtain rfl := List.mem_singleton.mp hw
          exact (h v hv).trans hle

theorem callAt_sound (h : s.Sound) (work : Work) (room : ℕ)
    (hroom : s.held = .none ∨ s.queue.length < s.capacity) :
    (s.callAt work room).Sound := by
  refine ⟨?_, h.late, ?_, ?_⟩
  · simp only [callAt, ← List.append_assoc]
    exact h.once.append_right [work]
  · simp only [callAt]
    split
    · exact seen_notifyOne _ _
    · next hlate => exact h.seen.push hlate
  · simp only [callAt]
    rcases hroom with hnone | hroom
    · rw [hnone]
      split <;> exact nofun
    · rw [if_neg (Nat.not_le.mpr hroom)]
      exact h.held

theorem looks_sound (h : s.Sound) {top : Work} (htop : s.queue = [] ∨ IsTop s.queue top) :
    (s.looks top).Sound := by
  unfold looks
  split
  · next hempty => exact ⟨h.once, h.late, hempty, nofun⟩
  · next hne =>
    obtain ⟨hmem, hmin⟩ := htop.resolve_left hne
    split
    · exact ⟨h.once, h.late, hmin, nofun⟩
    · next hdue =>
      refine ⟨?_, ?_, trivial, nofun⟩
      · simp only [List.map_append, List.map_cons, List.map_nil, List.append_assoc,
          List.singleton_append]
        exact ((List.perm_cons_erase hmem).symm.append_left _).trans h.once
      · intro x hx
        rcases List.mem_append.mp hx with hx | hx
        · exact h.late x hx
        · obtain rfl := List.mem_singleton.mp hx
          exact ⟨Int.not_lt.mp hdue, le_refl _⟩

theorem next_sound {a : Act} (hok : s.Looks a) (h : s.Sound) : (s.next a).Sound := by
  cases a with
  | passes ticks =>
    refine ⟨h.once, fun x hx => ?_, h.seen, h.held⟩
    obtain ⟨hdue, hnow⟩ := h.late x hx
    exact ⟨hdue, hnow.trans (Int.le_add_of_nonneg_right (Int.natCast_nonneg ticks))⟩
  | callAt work room => exact callAt_sound h work room hok
  | looks top =>
    simp only [next]
    split
    · exact looks_sound h hok
    · exact h
  | wakes =>
    simp only [next]
    split
    · exact ⟨h.once, h.late, trivial, h.held⟩
    · exact h
  | returns =>
    simp only [next]
    split
    · exact ⟨h.once, h.late, trivial, h.held⟩
    · exact h

/-- A step of a sound scheduler returns. -/
theorem Sound.step {a : Act} (hok : s.Looks a) (h : s.Sound) :
    s.step a = .ok (s.next a) ∧ (s.next a).Sound := by
  refine ⟨if_neg fun hdangles => ?_, next_sound hok h⟩
  cases a with
  | looks top => exact h.held hdangles.2
  | _ => exact hdangles

/-- Work that is due finds the runner up. -/
theorem Sound.awake (h : s.Sound) {w : Work} (hw : w ∈ s.queue) (hdue : w.deadline ≤ s.now) :
    s.Awake := by
  have hseen := h.seen
  unfold Awake
  split
  · next till woken hr =>
    rw [hr] at hseen
    cases woken with
    | true => exact .inl rfl
    | false =>
      cases till with
      | none =>
        rw [show s.queue = [] from hseen] at hw
        cases hw
      | some d => exact .inr ⟨d, rfl, (hseen w hw).trans hdue⟩
  · trivial

/-! ### The runner's own steps -/

/-- A queue has a top, or is empty. -/
theorem exists_top : ∀ queue : List Work, queue = [] ∨ ∃ top, IsTop queue top
  | [] => .inl rfl
  | w :: ws => by
    right
    rcases exists_top ws with rfl | ⟨top, hmem, hmin⟩
    · exact ⟨w, List.mem_cons_self, fun v hv => by rw [List.mem_singleton.mp hv]⟩
    · rcases Int.le_total w.deadline top.deadline with hle | hle
      · refine ⟨w, List.mem_cons_self, fun v hv => ?_⟩
        rcases List.mem_cons.mp hv with rfl | hv
        · exact le_refl _
        · exact hle.trans (hmin v hv)
      · refine ⟨top, List.mem_cons_of_mem w hmem, fun v hv => ?_⟩
        rcases List.mem_cons.mp hv with rfl | hv
        · exact hle
        · exact hmin v hv

/-- How many steps the runner can still make while everything in the queue is due. -/
def left (s : Scheduler) : ℕ :=
  match s.runner with
  | .head => 2 * s.queue.length + 1
  | .runs _ => 2 * s.queue.length + 2
  | .sleeps none false => 0
  | .sleeps _ _ => 2 * s.queue.length + 2

theorem left_le (s : Scheduler) : s.left ≤ 2 * s.queue.length + 2 := by
  unfold left
  split <;> omega

/-- The next task that is taken, if the step takes one. -/
def takes (s : Scheduler) : Act → List Work
  | .looks top => if s.queue = [] then [] else [top]
  | _ => []

theorem takes_pairwise (s : Scheduler) (a : Act) :
    (s.takes a).Pairwise fun w v => w.deadline ≤ v.deadline := by
  cases a with
  | looks top =>
    simp only [takes]
    split
    · exact List.Pairwise.nil
    · exact List.pairwise_singleton _ _
  | _ => exact List.Pairwise.nil

/-- Where everything in the queue is due, a step of the runner comes closer to the end: it takes the
    top of the queue, or nothing. -/
theorem own_step {a : Act} (hdue : ∀ w ∈ s.queue, w.deadline ≤ s.now) (ha : s.Own a) :
    (s.next a).left < s.left ∧ (s.next a).now = s.now ∧
      (s.next a).taken = s.taken ++ (s.takes a).map (fun w => (w, s.now)) ∧
      (s.takes a ++ (s.next a).queue).Perm s.queue ∧ ∀ w ∈ s.takes a, ∀ v ∈ (s.next a).queue,
        w.deadline ≤ v.deadline := by
  cases a with
  | passes ticks => cases ha
  | callAt work room => cases ha
  | looks top =>
    obtain ⟨hhead, htop⟩ := ha
    simp only [next, hhead, looks, takes]
    rcases htop with hempty | ⟨hmem, hmin⟩
    · simp only [if_pos hempty, List.map_nil, List.append_nil, List.nil_append]
      refine ⟨?_, trivial, trivial, List.Perm.refl _, fun w hw => absurd hw List.not_mem_nil⟩
      simp only [left, hhead]
      omega
    · have hne : s.queue ≠ [] := List.ne_nil_of_mem hmem
      have hlen := List.length_erase_of_mem hmem
      have hpos := List.length_pos_of_mem hmem
      simp only [if_neg hne, if_neg (Int.not_lt.mpr (hdue top hmem)), List.map_cons, List.map_nil]
      refine ⟨?_, trivial, trivial, (List.perm_cons_erase hmem).symm, fun w hw v hv => ?_⟩
      · simp only [left, hhead]
        omega
      · obtain rfl := List.mem_singleton.mp hw
        exact hmin v (List.mem_of_mem_erase hv)
  | wakes =>
    obtain ⟨⟨till, woken, hsleeps⟩, hawake⟩ := ha
    simp only [next, hsleeps, takes, List.map_nil, List.append_nil, List.nil_append]
    refine ⟨?_, trivial, trivial, List.Perm.refl _, fun w hw => absurd hw List.not_mem_nil⟩
    simp only [Awake, hsleeps] at hawake
    cases till with
    | some d => simp only [left, hsleeps]; omega
    | none =>
      cases woken with
      | true => simp only [left, hsleeps]; omega
      | false =>
        rcases hawake with hno | ⟨d, hno, -⟩
        · cases hno
        · cases hno
  | returns =>
    obtain ⟨work, hruns⟩ := ha
    simp only [next, hruns, takes, List.map_nil, List.append_nil, List.nil_append]
    refine ⟨?_, trivial, trivial, List.Perm.refl _, fun w hw => absurd hw List.not_mem_nil⟩
    simp only [left, hruns]
    omega

/-- A run of the runner's steps where everything is due takes tasks in the
    order of their deadlines. -/
theorem own_run :
    ∀ (own : List Act) {s : Scheduler}, (∀ w ∈ s.queue, w.deadline ≤ s.now) → Along next Own s own →
    own.length + (own.foldl next s).left ≤ s.left ∧ (own.foldl next s).now = s.now ∧
      ∃ l, (own.foldl next s).taken = s.taken ++ l.map (fun w => (w, s.now)) ∧
        (l ++ (own.foldl next s).queue).Perm s.queue ∧
        l.Pairwise fun w v => w.deadline ≤ v.deadline
  | [], s, _, _ => ⟨by simp, rfl, [], by simp, List.Perm.refl _, List.Pairwise.nil⟩
  | a :: own, s, hdue, h => by
    obtain ⟨ha, hown⟩ := h
    obtain ⟨hleft, hnow, htaken, hperm, hmin⟩ := own_step hdue ha
    have hdue' : ∀ w ∈ (s.next a).queue, w.deadline ≤ (s.next a).now := fun w hw => by
      rw [hnow]
      exact hdue w (hperm.mem_iff.mp (List.mem_append_right _ hw))
    obtain ⟨hlen, hnow', l, htaken', hperm', hsorted⟩ := own_run own hdue' hown
    refine ⟨?_, hnow'.trans hnow, s.takes a ++ l, ?_, ?_, ?_⟩
    · simp only [List.length_cons, List.foldl_cons]
      omega
    · rw [List.foldl_cons, htaken', htaken, hnow, List.map_append, List.append_assoc]
    · rw [List.foldl_cons, List.append_assoc]
      exact (hperm'.append_left _).trans hperm
    · refine List.pairwise_append.mpr ⟨takes_pairwise s a, hsorted, fun w hw v hv => ?_⟩
      exact hmin w hw v (hperm'.mem_iff.mp (List.mem_append_left _ hv))

theorem own_looks {a : Act} (ha : s.Own a) : s.Looks a := by
  cases a with
  | looks top => exact ha.2
  | _ => trivial

/-- A runner that cannot make a step sleeps, and nothing in the queue is due. -/
theorem Sound.stuck (h : s.Sound) (hstuck : ∀ a, ¬ s.Own a) (w : Work) (hw : w ∈ s.queue) :
    s.now < w.deadline := by
  by_contra hdue
  have hawake := h.awake hw (Int.not_lt.mp hdue)
  cases hr : s.runner with
  | head =>
    rcases exists_top s.queue with hempty | ⟨top, htop⟩
    · rw [hempty] at hw
      cases hw
    · exact hstuck (.looks top) ⟨hr, .inr htop⟩
  | sleeps till woken => exact hstuck .wakes ⟨⟨till, woken, hr⟩, hawake⟩
  | runs work => exact hstuck .returns ⟨work, hr⟩

/-! ### Every run -/

/-- In every interleaving of callers with the runner in which no call grows the vector while the
    runner waits for a deadline: every step returns; what was taken and what is pending is what was
    called, each once; nothing was taken before its deadline; whenever something is due the runner
    is not kept asleep; and once everything pending is due, the runner's own next steps, of which
    there are at most two for each and two more, take all of it in the order of the deadlines. -/
theorem tasks_run (now : ℤ) (acts : List Act) (hok : RunsAlong step Looks (start now) acts) :
    ∃ s, runs step (start now) acts = .ok s ∧ (s.taken.map Prod.fst ++ s.queue).Perm s.called ∧
      (∀ x ∈ s.taken, x.1.deadline ≤ x.2 ∧ x.2 ≤ s.now) ∧
      (∀ w ∈ s.queue, w.deadline ≤ s.now → s.Awake) ∧
      ((∀ w ∈ s.queue, w.deadline ≤ s.now) → ∀ own, RunsAlong step Own s own →
        ∃ s', runs step s own = .ok s' ∧ own.length ≤ 2 * s.queue.length + 2 ∧
          ∃ l, s'.taken = s.taken ++ l.map (fun w => (w, s.now)) ∧
          (l.Pairwise fun w v => w.deadline ≤ v.deadline) ∧ (l ++ s'.queue).Perm s.queue ∧
            ((∀ a, ¬ s'.Own a) → l.Perm s.queue)) := by
  obtain ⟨hrun, -, h⟩ :=
    hok.total (I := Sound) (f := next) (fun hok h => h.step hok) acts (start_sound now)
  refine ⟨_, hrun, h.once, h.late, fun w => h.awake, fun hdue own hown => ?_⟩
  obtain ⟨hrun', hown, hsound⟩ :=
    hown.total (I := Sound) (f := next) (fun ha h => h.step (own_looks ha)) own h
  obtain ⟨hlen, hnow, l, htaken, hperm, hsorted⟩ := own_run own hdue hown
  have hleft := (acts.foldl next (start now)).left_le
  refine ⟨_, hrun', by omega, l, htaken, hsorted, hperm, fun hstuck => ?_⟩
  have hempty : (own.foldl next (acts.foldl next (start now))).queue = [] := by
    refine List.eq_nil_iff_forall_not_mem.mpr fun w hw => ?_
    have hlate := hsound.stuck hstuck w hw
    rw [hnow] at hlate
    exact absurd (hdue w (hperm.mem_iff.mp (List.mem_append_right _ hw))) (Int.not_le.mpr hlate)
  rwa [hempty, List.append_nil] at hperm

/-- The runner sleeps until 10 when work for 5 is called, for which the vector has room: it is
    notified, and at 7 it takes that first. -/
def earlier : List Act :=
  [.callAt ⟨10, 0⟩ 1, .looks ⟨10, 0⟩, .callAt ⟨5, 1⟩ 0, .wakes, .looks ⟨5, 1⟩, .passes 7, .wakes,
    .looks ⟨5, 1⟩, .passes 4]

theorem tasks_run_earlier :
    ∃ s, runs step (start 0) earlier = .ok s ∧ s.taken = [(⟨5, 1⟩, 7)] ∧ s.queue = [⟨10, 0⟩] ∧
      (s.taken.map Prod.fst ++ s.queue).Perm s.called ∧
      ∀ w ∈ s.queue, w.deadline ≤ s.now → s.Awake := by
  obtain ⟨s, hrun, honce, -, hawake, -⟩ := tasks_run 0 earlier (by decide)
  refine ⟨s, hrun, ?_, ?_, honce, hawake⟩
  · have htaken : (runs step (start 0) earlier).map Scheduler.taken = .ok [(⟨5, 1⟩, 7)] := by decide
    rw [hrun] at htaken
    exact Except.ok.inj htaken
  · have hqueue : (runs step (start 0) earlier).map Scheduler.queue = .ok [⟨10, 0⟩] := by decide
    rw [hrun] at hqueue
    exact Except.ok.inj hqueue

/-- Without that room the second call frees the deadline the runner has been waiting for. -/
example : runs step (start 0)
    [.callAt ⟨10, 0⟩ 0, .looks ⟨10, 0⟩, .callAt ⟨5, 1⟩ 0, .wakes, .looks ⟨5, 1⟩] = .error .ub :=
  rfl

end Matching.Common.Scheduler
