import Matching.Lib.Machine
import Matching.Ring.Barrier

/-! `spsc_ring_buffer_queue`: one producer thread and one consumer thread, both barriers
    `ring_buffer_barrier_st`. A step is one access to a variable the threads share (a
    `ready` position, one slot), with the thread's own work up to its next access.
    `accepted` and `dequeued` record what the producer has published and what has been
    copied out; neither is read by the code. -/

namespace Matching.Ring

variable {α : Type}

/-- The producer's call: waiting for room (a try operation gives up), or copying,
    with `k` items written. -/
inductive Producer (α : Type) where
  | idle
  | waits (tries : Bool) (items : List α) (base : ℕ)
  | copies (items : List α) (base k : ℕ)
  deriving DecidableEq, Repr

/-- The consumer's call, with `k` items taken. -/
inductive Consumer where
  | idle
  | waits (tries : Bool) (how : Taking) (size base : ℕ)
  | copies (how : Taking) (size base k : ℕ)
  deriving DecidableEq, Repr

/-- The sequence number of the next item to be copied out, where the numbers before
    `ready` are released. -/
def Consumer.next (ready : ℕ) : Consumer → ℕ
  | .copies _ _ base k => base + k
  | _ => ready

structure Spsc (α : Type) where
  slots : ℕ → α
  writeBarrier : BarrierSt
  readBarrier : BarrierSt
  prod : Producer α
  cons : Consumer
  accepted : List α
  dequeued : List α

/-- A thread begins a call, or makes its next step. -/
inductive Act (α : Type) where
  | enqueues (tries : Bool) (items : List α)
  | produces
  | dequeues (tries : Bool) (how : Taking) (size : ℕ)
  | consumes
  deriving DecidableEq, Repr

namespace Act

/-- `block_enqueue`. -/
def blockEnqueue (items : List α) : Act α := .enqueues false items

/-- `block_dequeue`. -/
def blockDequeue (size : ℕ) : Act α := .dequeues false .copy size

/-- `reader try_block_dequeue(size)`, up to the release of the reader. -/
def readBlock (size : ℕ) : Act α := .dequeues true .reader size

end Act

namespace Spsc

section Defs
variable (SIZE : ℕ) (moved : α → α)

/-- A queue that was just built, over whatever the memory holds. -/
def start (slots : ℕ → α) : Spsc α := ⟨slots, .reset SIZE, .reset SIZE, .idle, .idle, [], []⟩

/-- The producer begins a call. -/
def enqueues (s : Spsc α) (tries : Bool) (items : List α) : Spsc α :=
  match s.prod, tries with
  | .idle, true => { s with prod := .waits true items s.writeBarrier.tryReserve }
  | .idle, false =>
    let (base, b) := s.writeBarrier.reserve items.length
    { s with writeBarrier := b, prod := .waits false items base }
  | _, _ => s

/-- The producer's next step. -/
def produces (s : Spsc α) : Spsc α :=
  match s.prod with
  | .idle => s
  | .waits tries items base =>
    let last := add64 base items.length
    let min := sub64 last (sizeToPow2 SIZE)
    if s.readBarrier.passes tries min then { s with
      readBarrier := s.readBarrier.refresh min
      writeBarrier := if tries then s.writeBarrier.setReserve last else s.writeBarrier
      prod := .copies items base 0 }
    else
      -- a try operation returns false, the others go round the loop of `wait`
      { s with
        readBarrier := s.readBarrier.refresh min,
        prod := if tries then .idle else .waits tries items base }
  | .copies items base k =>
    match items[k]? with
    | some v => { s with
      slots := Function.update s.slots (blockSlot SIZE (mode SIZE base) items.length k) v
      prod := .copies items base (k + 1) }
    | none => { s with
      writeBarrier := s.writeBarrier.set (add64 base items.length)
      prod := .idle
      accepted := s.accepted ++ items }

/-- The consumer begins a call. -/
def dequeues (s : Spsc α) (tries : Bool) (how : Taking) (size : ℕ) : Spsc α :=
  match s.cons, tries with
  | .idle, true => { s with cons := .waits true how size s.readBarrier.tryReserve }
  | .idle, false =>
    let (base, b) := s.readBarrier.reserve size
    { s with readBarrier := b, cons := .waits false how size base }
  | _, _ => s

/-- The consumer's next step. -/
def consumes (s : Spsc α) : Spsc α :=
  match s.cons with
  | .idle => s
  | .waits tries how size base =>
    let last := add64 base size
    if s.writeBarrier.passes tries last then { s with
      writeBarrier := s.writeBarrier.refresh last
      readBarrier := if tries then s.readBarrier.setReserve last else s.readBarrier
      cons := .copies how size base 0 }
    else { s with
      writeBarrier := s.writeBarrier.refresh last
      cons := if tries then .idle else .waits tries how size base }
  | .copies how size base k =>
    if k < size then
      let slot := how.slot SIZE (mode SIZE base) size k
      { s with
        slots := Function.update s.slots slot (how.leaves moved (s.slots slot))
        cons := .copies how size base (k + 1)
        dequeued := s.dequeued ++ [s.slots slot] }
    else { s with readBarrier := s.readBarrier.set (add64 base size), cons := .idle }

/-- One step of one of the two threads. -/
def step (s : Spsc α) : Act α → Spsc α
  | .enqueues tries items => s.enqueues tries items
  | .produces => s.produces SIZE
  | .dequeues tries how size => s.dequeues tries how size
  | .consumes => s.consumes SIZE moved

/-- The sequence number of the next item to be copied out. -/
def taken (s : Spsc α) : ℕ := s.cons.next s.readBarrier.ready

/-- `size()`. -/
def size (s : Spsc α) : ℕ := sub64 s.writeBarrier.ready s.readBarrier.ready

/-- The published items that are still to be copied out, as the slots hold them. -/
def stored (s : Spsc α) : List α :=
  (List.range (s.writeBarrier.ready - s.taken)).map (fun k => s.slots (mode SIZE (s.taken + k)))

end Defs

end Spsc

end Matching.Ring
