import Mathlib.Algebra.Order.Ring.Int
import Matching.Lib.Fault

/-! `Scheduler`: threads push work under the mutex, and one thread runs it. A step is one
    passage through the mutex, so `condition.wait` goes to sleep in the step that has seen
    the queue. `wait_until` is given a reference to the deadline in the queue's vector and
    looks at it again when it comes back, so that a `call_at` that makes the vector grow
    meanwhile leaves it dangling. `called` records what was pushed and `taken` what the
    runner took out and when; the code reads neither. -/

namespace Matching.Common

/-- `Work`; a task is known by a number. -/
structure Work where
  deadline : ℤ
  task : ℕ
  deriving DecidableEq, Repr

/-- Where `run()` is: about to lock the mutex and look at the queue, in `condition.wait` or
    `wait_until`, or in a task. A sleeper that was notified is `woken`. -/
inductive Runner where
  | head
  | sleeps (till : Option ℤ) (woken : Bool)
  | runs (work : Work)
  deriving DecidableEq, Repr

/-- The reference that `wait_until` was given: there is none, or its vector
    is there, or was freed. -/
inductive Held where
  | none
  | live
  | dangling
  deriving DecidableEq, Repr

/-- The vector moves. -/
def Held.moved : Held → Held
  | .live => .dangling
  | held => held

/-- `capacity` is that of the queue's vector. -/
structure Scheduler where
  now : ℤ
  queue : List Work
  capacity : ℕ
  runner : Runner
  held : Held
  called : List Work
  taken : List (Work × ℤ)

namespace Scheduler

/-- Time passes, a thread calls `call_at`, or the runner looks at the queue, whose top is `top` if
    there is one, wakes up, for whatever reason, or returns from a task. A vector that grows gets
    room for `room` more. -/
inductive Act where
  | passes (ticks : ℕ)
  | callAt (work : Work) (room : ℕ)
  | looks (top : Work)
  | wakes
  | returns
  deriving DecidableEq, Repr

/-- The scheduler when `run` starts. -/
def start (now : ℤ) : Scheduler := ⟨now, [], 0, .head, .none, [], []⟩

/-- `notify_one()`: the runner is the only thread that waits. -/
def notifyOne : Runner → Runner
  | .sleeps till _ => .sleeps till true
  | runner => runner

/-- `call_at(deadline, task)`. -/
def callAt (s : Scheduler) (work : Work) (room : ℕ) : Scheduler :=
  let grows := s.capacity ≤ s.queue.length
  { s with
    -- the queue is empty, or the deadline is before that of its top and so before every one
    runner := if ∀ v ∈ s.queue, work.deadline < v.deadline then notifyOne s.runner else s.runner
    queue := s.queue ++ [work]
    capacity := if grows then s.queue.length + 1 + room else s.capacity
    held := if grows then s.held.moved else s.held
    called := s.called ++ [work] }

/-- One round of the loop of `run()`, up to where it gives the mutex back. -/
def looks (s : Scheduler) (top : Work) : Scheduler :=
  if s.queue = [] then { s with runner := .sleeps none false, held := .none }
  else if s.now < top.deadline then
    { s with runner := .sleeps (some top.deadline) false, held := .live }
  else
    { s with
      queue := s.queue.erase top, runner := .runs top, held := .none,
      taken := s.taken ++ [(top, s.now)] }

/-- The runner, with the mutex again, reads the deadline it has waited for, and
    it is no longer there. -/
def Dangles (s : Scheduler) : Act → Prop
  | .looks _ => s.runner = .head ∧ s.held = .dangling
  | _ => False

instance (s : Scheduler) : ∀ a, Decidable (s.Dangles a)
  | .looks _ => inferInstanceAs (Decidable (s.runner = .head ∧ s.held = .dangling))
  | .passes _ | .callAt .. | .wakes | .returns => isFalse id

/-- What a step does that reads nothing that is no longer there. -/
def next (s : Scheduler) : Act → Scheduler
  | .passes ticks => { s with now := s.now + ticks }
  | .callAt work room => s.callAt work room
  | .looks top =>
    match s.runner with
    | .head => s.looks top
    | _ => s
  | .wakes =>
    match s.runner with
    | .sleeps _ _ => { s with runner := .head }
    | _ => s
  | .returns =>
    match s.runner with
    | .runs _ => { s with runner := .head }
    | _ => s

/-- One step. -/
def step (s : Scheduler) (a : Act) : Except Fault Scheduler :=
  if s.Dangles a then .error .ub else .ok (s.next a)

/-- The top of the priority queue: no work in it has an earlier deadline. -/
def IsTop (queue : List Work) (top : Work) : Prop :=
  top ∈ queue ∧ ∀ v ∈ queue, top.deadline ≤ v.deadline

instance (queue : List Work) (top : Work) : Decidable (IsTop queue top) := by
  unfold IsTop
  infer_instance

/-- The runner looks at the top of the queue; among several it is any of them. While it waits for a
    deadline no call makes the vector grow. -/
def Looks (s : Scheduler) : Act → Prop
  | .looks top => s.queue = [] ∨ IsTop s.queue top
  | .callAt .. => s.held = .none ∨ s.queue.length < s.capacity
  | _ => True

instance (s : Scheduler) (a : Act) : Decidable (s.Looks a) := by
  unfold Looks
  split <;> infer_instance

/-- The runner is not kept asleep: it was notified, or the time it waits for has come,
    or it does not sleep. -/
def Awake (s : Scheduler) : Prop :=
  match s.runner with
  | .sleeps till woken => woken = true ∨ ∃ d, till = some d ∧ d ≤ s.now
  | _ => True

/-- The steps of the runner, where each can be taken. -/
def Own (s : Scheduler) : Act → Prop
  | .passes _ | .callAt .. => False
  | .looks top => s.runner = .head ∧ (s.queue = [] ∨ IsTop s.queue top)
  | .wakes => (∃ till woken, s.runner = .sleeps till woken) ∧ s.Awake
  | .returns => ∃ work, s.runner = .runs work

end Scheduler

end Matching.Common
