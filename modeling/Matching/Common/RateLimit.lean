import Mathlib.Algebra.Order.Ring.Int
import Mathlib.Data.Int.DivMod
import Matching.Lib.Fault

/-! `TokenBucket`, by which a proxy limits the requests of a client. Times are counts of
    `ticks_t`, in which both the clock's ticks and the tokens are whole; `ref` is the time
    at which the bucket would have been empty. The counts are signed numbers of 64 bits, and
    a result that does not fit is undefined. -/

namespace Matching.Common

/-- The template arguments: how many ticks a token takes to fill, and `Max`. -/
structure Rate where
  token : ℤ
  max : ℤ
  deriving DecidableEq, Repr

structure TokenBucket where
  ref : ℤ
  deriving DecidableEq, Repr

namespace TokenBucket

/-- A result of the arithmetic of `ticks_t`. -/
def tick (x : ℤ) : Except Fault ℤ := if -2 ^ 63 ≤ x ∧ x < 2 ^ 63 then .ok x else .error .ub

/-- The constructor. -/
def new (r : Rate) (now initialFill : ℤ) : Except Fault TokenBucket := do
  return ⟨← tick (now - (← tick (initialFill * r.token)))⟩

/-- What there is to take, in ticks; it is negative when the bucket was overdrawn. -/
def avail (r : Rate) (b : TokenBucket) (now : ℤ) : Except Fault ℤ := do
  return min (← tick (now - b.ref)) (← tick (r.max * r.token))

/-- `take(take)` returns how many whole tokens were taken. -/
def take (r : Rate) (b : TokenBucket) (now n : ℤ) : Except Fault (ℤ × TokenBucket) := do
  let avail ← b.avail r now
  if avail ≤ 0 then return (0, b)
  let taken := min (← tick (n * r.token)) avail
  return (taken.tdiv r.token, ⟨← tick ((← tick (now - avail)) + taken)⟩)

/-- `overdraw(take)`. -/
def overdraw (r : Rate) (b : TokenBucket) (now n : ℤ) : Except Fault TokenBucket := do
  let avail ← b.avail r now
  return ⟨← tick ((← tick (now - avail)) + (← tick (n * r.token)))⟩

/-- A call, at the time that its `Clock::now()` returns. -/
inductive Call where
  | take (now n : ℤ)
  | overdraw (now n : ℤ)
  deriving DecidableEq, Repr

def Call.now : Call → ℤ
  | .take now _ | .overdraw now _ => now

def Call.amount : Call → ℤ
  | .take _ n | .overdraw _ n => n

/-- One call, and the tokens it grants. -/
def step (r : Rate) (b : TokenBucket) : Call → Except Fault (ℤ × TokenBucket)
  | .take now n => b.take r now n
  | .overdraw now n => do return (0, ← b.overdraw r now n)

/-- The tokens that each of the calls grants, one after another. -/
def grants (r : Rate) : TokenBucket → List Call → Except Fault (List ℤ)
  | _, [] => .ok []
  | b, c :: cs => do
    let (m, b) ← b.step r c
    return m :: (← grants r b cs)

/-- The bucket after the calls. -/
def after (r : Rate) (b : TokenBucket) (cs : List Call) : Except Fault TokenBucket :=
  runs (fun b c => do return (← b.step r c).2) b cs

/-- A steady clock: no call is before the one that it follows, nor before `t`. -/
def Steady : ℤ → List Call → Prop
  | _, [] => True
  | t, c :: cs => t ≤ c.now ∧ Steady c.now cs

instance : ∀ t cs, Decidable (Steady t cs)
  | _, [] => isTrue trivial
  | t, c :: cs =>
    have : Decidable (Steady c.now cs) := instDecidableSteady c.now cs
    inferInstanceAs (Decidable (t ≤ c.now ∧ Steady c.now cs))

/-- The time of the last call. -/
def lastNow : ℤ → List Call → ℤ
  | t, [] => t
  | _, c :: cs => lastNow c.now cs

end TokenBucket

end Matching.Common
