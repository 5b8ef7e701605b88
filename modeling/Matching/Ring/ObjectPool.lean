import Mathlib.Data.Fintype.Basic
import Matching.Ring.Mpsc

/-! `mpsc_ring_buffer_object_pool`: a queue of pointers to the objects of one buffer, which
    many threads release objects into and one thread gets them from. The constructor runs
    `warm_up` and then enqueues every object; its thread's steps are the steps of the queue.
    `held` is what `get_obj` and `try_get_obj` have returned and no release has put back;
    the code does not read it. -/

namespace Matching.Ring

variable {ι : Type}

/-- A `T*`: the object at `ptr + i`, or `nullptr`. -/
abbrev Ptr := Option ℕ

/-- Where the constructor is: about to enqueue or dequeue in round `i` of `warm_up`, about to
    enqueue object `i`, inside one of these calls, or done. -/
inductive Building where
  | warm (i : ℕ)
  | warming (i : ℕ)
  | cool (i : ℕ)
  | cooling (i : ℕ)
  | fill (i : ℕ)
  | filling (i : ℕ)
  | done
  deriving DecidableEq, Repr

structure MpscPool (ι : Type) where
  queue : Mpsc ι Ptr
  building : Building
  held : List Ptr

/-- A thread calls the pool, or makes its next step. -/
inductive PoolAct (ι : Type) where
  | builds (weak : Bool)
  | getObj (tries : Bool)
  | gets (weak : Bool)
  | releaseObj (p : ι) (tries : Bool) (ptr : Ptr)
  | releases (p : ι) (weak : Bool)
  deriving DecidableEq, Repr

namespace MpscPool

section Defs
variable [DecidableEq ι] (SIZE : ℕ) (owner : ι)

/-- A pool whose constructor is about to run on thread `owner`, over whatever the
    queue's memory holds. -/
def start (slots : ℕ → Ptr) : MpscPool ι := ⟨.start SIZE slots, .warm 0, []⟩

/-- The next step of the constructor. -/
def builds (s : MpscPool ι) (weak : Bool) : MpscPool ι :=
  match s.building with
  | .warm i =>
    if i < sizeToPow2 SIZE then
      { s with queue := s.queue.enqueues owner false [none], building := .warming i }
    else { s with building := .fill 0 }
  | .warming i =>
    if s.queue.prods owner = .idle then { s with building := .cool i }
    else { s with queue := s.queue.produces SIZE owner weak }
  | .cool i => { s with queue := s.queue.dequeues false .move 1, building := .cooling i }
  | .cooling i =>
    if s.queue.cons = .idle then { s with building := .warm (i + 1) }
    else { s with queue := s.queue.consumes SIZE id weak }
  | .fill i =>
    if i < sizeToPow2 SIZE then
      { s with queue := s.queue.enqueues owner false [some i], building := .filling i }
    else { s with building := .done }
  | .filling i =>
    if s.queue.prods owner = .idle then { s with building := .fill (i + 1) }
    else { s with queue := s.queue.produces SIZE owner weak }
  | .done => s

/-- `get_obj()` or `try_get_obj()` is called. -/
def getObj (s : MpscPool ι) (tries : Bool) : MpscPool ι :=
  { s with queue := s.queue.dequeues tries .move 1 }

/-- The next step of `get_obj()` or `try_get_obj()`; the last one returns the
    pointer that was dequeued. -/
def gets (s : MpscPool ι) (weak : Bool) : MpscPool ι :=
  match s.queue.cons with
  | .copies _ size _ k =>
    if k < size then { s with queue := s.queue.consumes SIZE id weak }
    else
      { s with
        queue := s.queue.consumes SIZE id weak,
        held := s.held ++ s.queue.dequeued.getLast?.toList }
  | _ => { s with queue := s.queue.consumes SIZE id weak }

/-- The queue moves on, and what it reserves room for is given back. -/
def give (s : MpscPool ι) (q : Mpsc ι Ptr) : MpscPool ι :=
  { s with queue := q, held := s.held.diff (q.reserved.drop s.queue.reserved.length) }

/-- Thread `p` calls `release_obj(ptr)` or `try_release_obj(ptr)`. -/
def releaseObj (s : MpscPool ι) (p : ι) (tries : Bool) (ptr : Ptr) : MpscPool ι :=
  s.give (s.queue.enqueues p tries [ptr])

/-- The next step of a release by thread `p`. -/
def releases (s : MpscPool ι) (p : ι) (weak : Bool) : MpscPool ι :=
  s.give (s.queue.produces SIZE p weak)

/-- One step of one of the threads. -/
def step (s : MpscPool ι) : PoolAct ι → MpscPool ι
  | .builds weak => s.builds SIZE owner weak
  | .getObj tries => s.getObj tries
  | .gets weak => s.gets SIZE weak
  | .releaseObj p tries ptr => s.releaseObj p tries ptr
  | .releases p weak => s.releases SIZE p weak

end Defs

end MpscPool

/-- What a `try_release_obj` that is under way may still leave with its caller. -/
def Hand.offers : Hand Ptr → List Ptr
  | .waits true items _ _ => items
  | .swaps items _ => items
  | _ => []

namespace MpscPool

/-- What callers do: they use a pool that is built, release what they hold, and no two release the
    same object; sequence numbers stay below `2 ^ 64`. -/
def Used (s : MpscPool ι) : PoolAct ι → Prop
  | .builds _ =>
    s.queue.writeBarrier.reserved + 1 < 2 ^ 64 ∧ s.queue.readBarrier.reserved + 1 < 2 ^ 64
  | .getObj _ => s.building = .done ∧ s.queue.readBarrier.reserved + 1 < 2 ^ 64
  | .releaseObj _ _ ptr =>
    s.building = .done ∧ ptr ∈ s.held ∧ (∀ p, ptr ∉ (s.queue.prods p).offers) ∧
      s.queue.writeBarrier.reserved + 1 < 2 ^ 64
  | .gets _ | .releases _ _ => s.building = .done

instance [Fintype ι] (s : MpscPool ι) (a : PoolAct ι) : Decidable (s.Used a) := by
  unfold Used
  split <;> infer_instance

/-- The pointers that are in the queue or on their way into it. -/
def waiting (SIZE : ℕ) (s : MpscPool ι) : List Ptr :=
  s.queue.reserved.drop (s.queue.readBarrier.ready - sizeToPow2 SIZE)

/-- The objects of the buffer. -/
def objects (SIZE : ℕ) : List Ptr := (List.range (sizeToPow2 SIZE)).map some

end MpscPool

end Matching.Ring
