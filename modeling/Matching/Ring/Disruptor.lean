import Matching.Ring.Configure
import Matching.Ring.Waits

/-! A committed `ring_buffer_disruptor` at work: threads `τ` produce into the ring and
    consume from it, each for one node of the graph, the disruptor itself for a producer.
    Every call reserves on its node's barrier, waits for the barriers its node was given,
    copies its slots one at a time and sets its barrier. The items are left out: only the
    order in which slots are used matters here. -/

namespace Matching.Ring

variable {κ τ : Type}

/-- The write barrier of the disruptor or the read barrier of a consumer, of either kind. -/
inductive Barrier where
  | st (b : BarrierSt)
  | mt (b : BarrierMt)

/-- Where a thread is in the `wait` or `try_wait` of one barrier. -/
inductive Phase where
  | room (r : Room)
  | look (l : Look)
  deriving DecidableEq, Repr

namespace Barrier

def reset (SIZE : ℕ) (multi : Bool) : Barrier :=
  if multi then .mt (.reset SIZE) else .st (.reset SIZE)

def reserve (size : ℕ) : Barrier → ℕ × Barrier
  | .st b => ((b.reserve size).1, .st (b.reserve size).2)
  | .mt b => ((b.reserve size).1, .mt (b.reserve size).2)

def tryReserve : Barrier → ℕ
  | .st b => b.tryReserve
  | .mt b => b.tryReserve

/-- `set_reserve(base, end)`, where it returns true. -/
def setReserve (base size : ℕ) (weak : Bool) : Barrier → Option Barrier
  | .st b => some (.st (b.setReserve (add64 base size)))
  | .mt b => if b.reserved = base ∧ weak = false then some (.mt (b.reserve size).2) else none

/-- `set(pos, end)` for the block at `base`. -/
def set (base pos last : ℕ) : Barrier → Barrier
  | .st b => .st (b.set last)
  | .mt b => .mt (b.set base pos last)

/-- Where `wait` and `try_wait` begin. -/
def enter : Barrier → Phase
  | .st _ => .room .test
  | .mt _ => .look .enter

/-- One step of `wait(min)` or `try_wait(min)`. -/
def wait (SIZE : ℕ) (tries : Bool) (min : ℕ) (weak : Bool) : Barrier → Phase → Barrier × (Phase ⊕ ℕ)
  | .st b, .room r => ((b.look tries min r).1 |> .st, (b.look tries min r).2.map .room id)
  | .mt b, .look l =>
    ((b.look SIZE tries min weak l).1 |> .mt, (b.look SIZE tries min weak l).2.map .look id)
  | b, phase => (b, .inl phase)

/-- `ready()`. -/
def ready : Barrier → ℕ
  | .st b => b.ready
  | .mt b => b.ready

/-- The block of `i` was set. -/
def Finished (i : ℕ) : Barrier → Prop
  | .st b => i < b.ready
  | .mt b => b.tickets.Done i

end Barrier

/-- A thread's call. While it waits, `us` are the barriers `barriers::wait` has still to go through,
    the first one at `phase`, and `rt` is the smallest position returned so far. -/
inductive Call (κ : Type) where
  | idle
  | waits (tries : Bool) (size base rt : ℕ) (us : List κ) (phase : Phase)
  | swaps (size base : ℕ)
  | copies (size base k : ℕ)
  deriving DecidableEq

/-- A committed graph, the node each thread works for, and the nodes with a multi-thread barrier. -/
structure Setup (κ τ : Type) where
  config : Configure κ
  node : τ → κ
  multi : κ → Bool

structure Disruptor (κ τ : Type) where
  barriers : κ → Barrier
  calls : τ → Call κ

/-- A thread begins a call, or makes its next step. -/
inductive DisruptorAct (τ : Type) where
  | begins (t : τ) (tries : Bool) (size : ℕ)
  | advances (t : τ) (weak : Bool)

namespace Disruptor

section Defs
variable [DecidableEq κ] [DecidableEq τ] (SIZE : ℕ) (S : Setup κ τ)

/-- A disruptor and consumers that were just built. -/
def start : Disruptor κ τ := ⟨fun x => .reset SIZE (S.multi x), fun _ => .idle⟩

/-- Thread `t` is now at `call`, and the barrier of `x` is `b`. -/
def put (s : Disruptor κ τ) (x : κ) (b : Barrier) (t : τ) (call : Call κ) : Disruptor κ τ :=
  ⟨Function.update s.barriers x b, Function.update s.calls t call⟩

/-- The position a call waits for: `end - buffer_size` in a producer, `end` in a consumer. -/
def least (x : κ) (size base : ℕ) : ℕ :=
  if x = S.config.root then sub64 (add64 base size) (sizeToPow2 SIZE) else add64 base size

/-- The call with the barriers `us` still to go through. -/
def goesOn (s : Disruptor κ τ) (tries : Bool) (size base rt : ℕ) : List κ → Call κ
  | u :: us => .waits tries size base rt (u :: us) (s.barriers u).enter
  | [] => if tries then (if rt = 0 then .idle else .swaps size base) else .copies size base 0

/-- Thread `t` begins a call of an enqueue or dequeue operation for `size` slots. -/
def begins (s : Disruptor κ τ) (t : τ) (tries : Bool) (size : ℕ) : Disruptor κ τ :=
  let x := S.node t
  match s.calls t, tries with
  | .idle, true =>
    s.put x (s.barriers x) t
      (s.goesOn true size (s.barriers x).tryReserve (2 ^ 64 - 1) (S.config.uppers x))
  | .idle, false =>
    let (base, b) := (s.barriers x).reserve size
    s.put x b t (s.goesOn false size base (2 ^ 64 - 1) (S.config.uppers x))
  | _, _ => s

/-- The next step of thread `t`. -/
def advances (s : Disruptor κ τ) (t : τ) (weak : Bool) : Disruptor κ τ :=
  let x := S.node t
  match s.calls t with
  | .idle => s
  | .waits _ _ _ _ [] _ => s
  | .waits tries size base rt (u :: us) phase =>
    match (s.barriers u).wait SIZE tries (least SIZE S x size base) weak phase with
    | (b, .inl phase) => s.put u b t (.waits tries size base rt (u :: us) phase)
    | (b, .inr got) => s.put u b t (s.goesOn tries size base (if got < rt then got else rt) us)
  | .swaps size base =>
    match (s.barriers x).setReserve base size weak with
    | some b => s.put x b t (.copies size base 0)
    | none => s.put x (s.barriers x) t .idle
  | .copies size base k =>
    if k < size then s.put x (s.barriers x) t (.copies size base (k + 1))
    else s.put x ((s.barriers x).set base (mode SIZE base) (add64 base size)) t .idle

def step (s : Disruptor κ τ) : DisruptorAct τ → Disruptor κ τ
  | .begins t tries size => s.begins S t tries size
  | .advances t weak => s.advances SIZE S t weak

end Defs

end Disruptor

end Matching.Ring
