import Matching.Ring.Waits

/-! A `ring_buffer_barrier_mt` with any number of threads `ι` in `wait` or `try_wait`, which all
    write the one `ready_cache_` and swap `ready_`, and others that reserve blocks and set them. A
    step is one read or write of a variable that threads share, or one compare-and-swap. `began` and
    `told` are read by no code: where a waiter's scan of the flags began, and the highest position a
    wait was over for. -/

namespace Matching.Ring

variable {ι : Type}

/-- A call of `wait(min)` or `try_wait(min)`. -/
structure Waiter where
  tries : Bool
  min : ℕ
  look : Look
  began : ℕ
  deriving DecidableEq, Repr

/-- The call goes on; a scan begins with the cached position, and goes on from the
    one it has published. -/
def Waiter.next (w : Waiter) (look : Look) : Waiter :=
  { w with
    look
    began := match w.look, look with
      | .begin, .test pre | .swap _ _, .keep pre => pre
      | _, _ => w.began }

/-- A compare-and-swap that is about to succeed finds `ready_` where the scan began. -/
def Waiter.current (w : Waiter) (ready : ℕ) : Bool :=
  match w.look with
  | .swap _ seen => decide (ready = seen → seen = w.began)
  | _ => true

structure Waiters (ι : Type) where
  barrier : BarrierMt
  waits : ι → Option Waiter
  told : ℕ

/-- A block is reserved, the block at `base` is set, or thread `w` begins a wait or makes its next
    step; `weak` lets a `compare_exchange_weak` of the step fail. -/
inductive WaitersAct (ι : Type) where
  | reserves (size : ℕ)
  | sets (base : ℕ)
  | begins (w : ι) (tries : Bool) (min : ℕ)
  | looks (w : ι) (weak : Bool)
  deriving DecidableEq, Repr

namespace Waiters

section Defs
variable [DecidableEq ι] (SIZE : ℕ)

/-- A barrier that was just reset. -/
def start : Waiters ι := ⟨.reset SIZE, fun _ => none, sizeToPow2 SIZE⟩

/-- Thread `w` is now at `x`. -/
def move (s : Waiters ι) (w : ι) (x : Option Waiter) : Waiters ι :=
  { s with waits := Function.update s.waits w x }

/-- The next step of a wait. -/
def looks (s : Waiters ι) (w : ι) (weak : Bool) : Waiters ι :=
  match s.waits w with
  | none => s
  | some x =>
    match s.barrier.look SIZE x.tries x.min weak x.look with
    | (b, .inl look) => { s with barrier := b }.move w (some (x.next look))
    | (b, .inr got) =>
      { s with
        barrier := b, told := if x.tries = true ∧ got = 0 then s.told else max s.told x.min
        }.move w none

/-- One step of one of the threads. -/
def step (s : Waiters ι) : WaitersAct ι → Waiters ι
  | .reserves size => { s with barrier := (s.barrier.reserve size).2 }
  | .sets base => { s with barrier := s.barrier.set base (mode SIZE base) (s.barrier.ends base) }
  | .begins w tries min => if s.waits w = none then s.move w (some ⟨tries, min, .enter, 0⟩) else s
  | .looks w weak => s.looks SIZE w weak

/-- What the callers of a barrier see to: a block has a number, and numbers stay below `2 ^ 64`; a
    block that is set was reserved, and there is room for it, as a position was waited for that is
    at most a lap behind its end. -/
def Called (s : Waiters ι) : WaitersAct ι → Prop
  | .reserves size => 0 < size ∧ s.barrier.reserved + size < 2 ^ 64
  | .sets base => s.barrier.ends base ≠ 0 ∧ s.barrier.ends base ≤ s.told + sizeToPow2 SIZE
  | .begins _ _ _ | .looks _ _ => True

instance (s : Waiters ι) : ∀ a, Decidable (s.Called SIZE a)
  | .reserves _ | .sets _ => inferInstanceAs (Decidable (_ ∧ _))
  | .begins _ _ _ | .looks _ _ => isTrue trivial

/-- No compare-and-swap succeeds but where `ready_` is the position its caller's scan began from. -/
def undisturbed (s : Waiters ι) : WaitersAct ι → Bool
  | .looks w false => (s.waits w).all (fun x => x.current s.barrier.ready)
  | .looks _ true | .reserves _ | .sets _ | .begins _ _ _ => true

end Defs

variable (SIZE : ℕ)

/-- The published position, and every position a wait was over for, is reached: the
    numbers before it are set. -/
def Published (s : Waiters ι) : Prop :=
  s.barrier.tickets.Reached (sizeToPow2 SIZE) s.barrier.ready ∧
    s.barrier.tickets.Reached (sizeToPow2 SIZE) s.told

/-- The step takes nothing that is published back, and publishes nothing that is not set. -/
def Advances [DecidableEq ι] (s : Waiters ι) (a : WaitersAct ι) : Prop :=
  s.barrier.ready ≤ (s.step SIZE a).barrier.ready ∧ (s.step SIZE a).Published SIZE

end Waiters

end Matching.Ring
