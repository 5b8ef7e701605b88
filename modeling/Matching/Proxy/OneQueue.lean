import Mathlib.Data.Fintype.BigOperators
import Mathlib.Logic.Function.Basic

/-! The work queues of a proxy that is started with one queue: `WorkQueue::enqueue_1_queue` and
    `WorkQueue::pump_1_queue`. The pump keeps the mutex of `pending_queues` while a task runs, and
    gives it back only to wait. A step is a call of `enqueue_1_queue` under that mutex, its
    `notify_one` behind it, or a piece of the pump between two looks at its condition. -/

namespace Matching.OneQueue

/-- Where a pump thread is: about to lock the mutex (it starts, or was woken), in
    `wait`, at the condition of its loop with the mutex locked, or in a task of the
    queue it took, with the mutex locked. -/
inductive Pump (Q T : Type) where
  | outside
  | waits
  | locked
  | running (q : Q) (t : T)
  deriving DecidableEq, Repr

/-- All queues, `pending_queues`, who has its mutex, where the pump threads are, and which callers
    have left the mutex and not yet notified. `fault` says that `front()` was called on an empty
    queue. The histories record the tasks of all queues in the order in which they were enqueued,
    started and finished. -/
structure State (Q T P E : Type) where
  queue : Q → List T
  pending : List Q
  owner : Option P
  pump : P → Pump Q T
  notifying : E → Bool
  fault : Bool
  sent : List T
  begun : List T
  finished : List T

/-- A caller `e` enqueues a task through the queue `q`, or notifies, which wakes a pump thread if
    one waits; a pump thread locks the mutex, looks at its condition, returns from its task, or
    wakes up spuriously. -/
inductive Act (Q T P E : Type) where
  | enqueue (e : E) (q : Q) (t : T)
  | notify (e : E) (woken : Option P)
  | lock (p : P)
  | looks (p : P)
  | returns (p : P)
  | wakes (p : P)
  deriving DecidableEq, Repr

variable {Q T P E : Type} [DecidableEq Q] [DecidableEq P] [DecidableEq E]

/-- No task has been enqueued, and the pump threads start. -/
def State.init : State Q T P E where
  queue _ := []
  pending := []
  owner := none
  pump _ := .outside
  notifying _ := false
  fault := false
  sent := []
  begun := []
  finished := []

namespace State

/-- `enqueue_1_queue`: the task goes to the queue that is pending, if there is one, and
    else to the caller's own. -/
def enqueue (s : State Q T P E) (e : E) (q : Q) (t : T) : State Q T P E :=
  let s := { s with notifying := Function.update s.notifying e true, sent := s.sent ++ [t] }
  match s.pending with
  | [] => { s with queue := Function.update s.queue q (s.queue q ++ [t]), pending := [q] }
  | front :: rest =>
    { s with
      queue := Function.update s.queue front (s.queue front ++ [t]), pending := rest ++ [front] }

/-- The condition of the loop of `pump_1_queue`, and what is behind it up to `work()`. -/
def looks (s : State Q T P E) (p : P) : State Q T P E :=
  match s.pending with
  | [] => { s with owner := none, pump := Function.update s.pump p .waits }
  | q :: rest =>
    match s.queue q with
    | [] => { s with fault := true }
    | t :: _ =>
      { s with
        pending := rest, pump := Function.update s.pump p (.running q t),
        begun := s.begun ++ [t] }

/-- What is behind `work()`, up to the condition again. -/
def returns (s : State Q T P E) (p : P) (q : Q) (t : T) : State Q T P E :=
  let work := (s.queue q).tail
  { s with
    queue := Function.update s.queue q work
    pending := if work.isEmpty then s.pending else s.pending ++ [q]
    pump := Function.update s.pump p .locked
    finished := s.finished ++ [t] }

/-- One step. -/
def step (s : State Q T P E) : Act Q T P E → State Q T P E
  | .enqueue e q t => s.enqueue e q t
  | .notify e woken =>
    let s := { s with notifying := Function.update s.notifying e false }
    match woken with
    | some p => { s with pump := Function.update s.pump p .outside }
    | none => s
  | .lock p => { s with owner := some p, pump := Function.update s.pump p .locked }
  | .looks p => s.looks p
  | .returns p =>
    match s.pump p with
    | .running q t => s.returns p q t
    | _ => s
  | .wakes p => { s with pump := Function.update s.pump p .outside }

/-- Where a step can be taken: the mutex excludes callers and pump threads, and a caller
    makes one call at a time. -/
def Enabled (s : State Q T P E) : Act Q T P E → Prop
  | .enqueue e _ _ => s.owner = none ∧ s.notifying e = false
  | .notify e (some p) => s.notifying e = true ∧ s.pump p = .waits
  | .notify e none => s.notifying e = true ∧ ∀ p, s.pump p ≠ .waits
  | .lock p => s.owner = none ∧ s.pump p = .outside
  | .looks p => s.pump p = .locked
  | .returns p => ∃ q t, s.pump p = .running q t
  | .wakes p => s.pump p = .waits

/-- A step that follows from what was called: neither a call nor a spurious wake-up. -/
def Own (s : State Q T P E) (a : Act Q T P E) : Prop :=
  s.Enabled a ∧ match a with
    | .enqueue .. | .wakes _ => False
    | _ => True

end State

end Matching.OneQueue
