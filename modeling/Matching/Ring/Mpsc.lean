import Matching.Ring.Waits

/-! `mpsc_ring_buffer_queue`: producer threads `ι` on a `ring_buffer_barrier_mt`, one consumer
    thread on a `ring_buffer_barrier_st` whose `ready_cache_` the producers share. A step is one
    read or write of a variable that threads share, or of one slot. `reserved` records the items in
    the order their sequence numbers were reserved and `dequeued` what has been copied out; neither
    is read by the code. -/

namespace Matching.Ring

variable {ι α : Type}

/-- A producer's call: waiting for room, at `set_reserve` of a try operation, or copying,
    with `k` items written. -/
inductive Hand (α : Type) where
  | idle
  | waits (tries : Bool) (items : List α) (base : ℕ) (room : Room)
  | swaps (items : List α) (base : ℕ)
  | copies (items : List α) (base k : ℕ)
  deriving DecidableEq, Repr

/-- The consumer's call, with `k` items taken once it copies. -/
inductive Reader where
  | idle
  | waits (tries : Bool) (how : Taking) (size base : ℕ) (look : Look)
  | copies (how : Taking) (size base k : ℕ)
  deriving DecidableEq, Repr

/-- The sequence number of the next item to be copied out, where the numbers before
    `ready` are released. -/
def Reader.next (ready : ℕ) : Reader → ℕ
  | .copies _ _ base k => base + k
  | _ => ready

structure Mpsc (ι α : Type) where
  slots : ℕ → α
  writeBarrier : BarrierMt
  readBarrier : BarrierSt
  prods : ι → Hand α
  cons : Reader
  reserved : List α
  dequeued : List α

/-- A thread begins a call, or makes its next step; `weak` lets a
    `compare_exchange_weak` of the step fail. -/
inductive MpscAct (ι α : Type) where
  | enqueues (p : ι) (tries : Bool) (items : List α)
  | produces (p : ι) (weak : Bool)
  | dequeues (tries : Bool) (how : Taking) (size : ℕ)
  | consumes (weak : Bool)
  deriving DecidableEq, Repr

namespace Mpsc

section Defs
variable [DecidableEq ι] (SIZE : ℕ) (moved : α → α)

/-- A queue that was just built, over whatever the memory holds. -/
def start (slots : ℕ → α) : Mpsc ι α :=
  ⟨slots, .reset SIZE, .reset SIZE, fun _ => .idle, .idle, [], []⟩

/-- Producer `p` is now at `h`. -/
def move (s : Mpsc ι α) (p : ι) (h : Hand α) : Mpsc ι α :=
  { s with prods := Function.update s.prods p h }

/-- A block is reserved. -/
def reserve (s : Mpsc ι α) (items : List α) : Mpsc ι α :=
  { s with
    writeBarrier := (s.writeBarrier.reserve items.length).2, reserved := s.reserved ++ items }

/-- Producer `p` begins a call. -/
def enqueues (s : Mpsc ι α) (p : ι) (tries : Bool) (items : List α) : Mpsc ι α :=
  match s.prods p, tries with
  | .idle, true => s.move p (.waits true items s.writeBarrier.tryReserve .test)
  | .idle, false =>
      (s.reserve items).move p (.waits false items (s.writeBarrier.reserve items.length).1 .test)
  | _, _ => s

/-- The next step of producer `p`. -/
def produces (s : Mpsc ι α) (p : ι) (weak : Bool) : Mpsc ι α :=
  match s.prods p with
  | .idle => s
  | .waits tries items base room =>
    match s.readBarrier.look tries (sub64 (add64 base items.length) (sizeToPow2 SIZE)) room with
    | (b, .inl room) => { s with readBarrier := b }.move p (.waits tries items base room)
    | (b, .inr got) => { s with readBarrier := b }.move p (
      if tries = false then .copies items base 0 else if got = 0 then .idle else .swaps items base)
  | .swaps items base =>
    if s.writeBarrier.reserved = base ∧ weak = false then
      (s.reserve items).move p (.copies items base 0)
    else s.move p .idle
  | .copies items base k =>
    match items[k]? with
    | some v =>
      { s with
        slots := Function.update s.slots (blockSlot SIZE (mode SIZE base) items.length k) v
        }.move p (.copies items base (k + 1))
    | none =>
      { s with
        writeBarrier := s.writeBarrier.set base (mode SIZE base) (add64 base items.length)
        }.move p .idle

/-- The consumer begins a call. -/
def dequeues (s : Mpsc ι α) (tries : Bool) (how : Taking) (size : ℕ) : Mpsc ι α :=
  match s.cons, tries with
  | .idle, true => { s with cons := .waits true how size s.readBarrier.tryReserve .enter }
  | .idle, false =>
    let (base, b) := s.readBarrier.reserve size
    { s with readBarrier := b, cons := .waits false how size base .enter }
  | _, _ => s

/-- The consumer's next step. -/
def consumes (s : Mpsc ι α) (weak : Bool) : Mpsc ι α :=
  match s.cons with
  | .idle => s
  | .waits tries how size base look =>
    let last := add64 base size
    match s.writeBarrier.look SIZE tries last weak look with
    | (b, .inl look) => { s with writeBarrier := b, cons := .waits tries how size base look }
    | (b, .inr got) =>
      if tries = true ∧ got = 0 then { s with writeBarrier := b, cons := .idle }
      else { s with
        writeBarrier := b
        readBarrier := if tries then s.readBarrier.setReserve last else s.readBarrier
        cons := .copies how size base 0 }
  | .copies how size base k =>
    if k < size then
      let slot := how.slot SIZE (mode SIZE base) size k
      { s with
        slots := Function.update s.slots slot (how.leaves moved (s.slots slot))
        cons := .copies how size base (k + 1)
        dequeued := s.dequeued ++ [s.slots slot] }
    else { s with readBarrier := s.readBarrier.set (add64 base size), cons := .idle }

/-- One step of one of the threads. -/
def step (s : Mpsc ι α) : MpscAct ι α → Mpsc ι α
  | .enqueues p tries items => s.enqueues p tries items
  | .produces p weak => s.produces SIZE p weak
  | .dequeues tries how size => s.dequeues tries how size
  | .consumes weak => s.consumes SIZE moved weak

/-- The sequence number of the next item to be copied out. -/
def taken (s : Mpsc ι α) : ℕ := s.cons.next s.readBarrier.ready

end Defs

end Mpsc

end Matching.Ring
