import Matching.Lib.Limbs

/-! `mpn.h` and `fp.cpp`: arithmetic modulo a number of `l` limbs of `W` bits. The `mpn` functions
    of GMP are a parameter. A function returns what the source writes to its first argument. -/

namespace Matching.Common

variable {W : ℕ}

/-! ### GMP -/

/-- The functions of GMP, on operands of one length: what they write, and what they return. -/
structure Gmp (W : ℕ) where
  mpnAddN {l : ℕ} (s1 s2 : Limbs W l) : Limbs W l × BitVec W
  mpnSubN {l : ℕ} (s1 s2 : Limbs W l) : Limbs W l × BitVec W
  mpnLshift {l : ℕ} (s : Limbs W l) (count : ℕ) : Limbs W l × BitVec W
  mpnRshift {l : ℕ} (s : Limbs W l) (count : ℕ) : Limbs W l × BitVec W
  mpnCmp {l : ℕ} (s1 s2 : Limbs W l) : ℤ
  mpnZeroP {l : ℕ} (s : Limbs W l) : ℤ

/-- What is documented of them: a sum with its carry, a difference with its borrow, shifts
    by less than a limb with the bits that are shifted out, an order, and a test for zero.
    No operand is without limbs. -/
structure Gmp.Documented (g : Gmp W) : Prop where
  addN {l : ℕ} : 0 < l → ∀ s1 s2 : Limbs W l,
    (g.mpnAddN s1 s2).1.value + 2 ^ (W * l) * (g.mpnAddN s1 s2).2.toNat = s1.value + s2.value
  subN {l : ℕ} : 0 < l → ∀ s1 s2 : Limbs W l,
    (g.mpnSubN s1 s2).1.value + s2.value = s1.value + 2 ^ (W * l) * (g.mpnSubN s1 s2).2.toNat
  lshift {l : ℕ} : 0 < l → ∀ (s : Limbs W l) (count : ℕ), 0 < count → count < W →
    (g.mpnLshift s count).1.value + 2 ^ (W * l) * (g.mpnLshift s count).2.toNat =
      s.value * 2 ^ count
  rshift {l : ℕ} : 0 < l → ∀ (s : Limbs W l) (count : ℕ), 0 < count → count < W →
    (g.mpnRshift s count).1.value = s.value / 2 ^ count ∧
      (g.mpnRshift s count).2.toNat = s.value % 2 ^ count * 2 ^ (W - count)
  cmp {l : ℕ} : 0 < l → ∀ s1 s2 : Limbs W l,
    (g.mpnCmp s1 s2 < 0 ↔ s1.value < s2.value) ∧ (g.mpnCmp s1 s2 = 0 ↔ s1.value = s2.value)
  zeroP {l : ℕ} : 0 < l → ∀ s : Limbs W l, g.mpnZeroP s = if s.value = 0 then 1 else 0

/-- Whether `mpn_one_p` finds the number one. Of a single limb it asks whether no limbs are zero:
    the test for zero in `mpn.h`, which is there for releases of GMP before 6.1, says yes. -/
def Gmp.FindsOne (g : Gmp W) (l : ℕ) : Prop := 1 < l ∨ g.mpnZeroP (Limbs.zero W 0) ≠ 0

variable {l : ℕ} (g : Gmp W)

def mpnOneP (n : Limbs W l) : Bool := ∃ h : 0 < l, n[0] = 1 ∧ g.mpnZeroP n.tail ≠ 0

def mpnEvenP (n : Limbs W l) : Bool := ∀ h : 0 < l, n[0] &&& 1 = 0

/-! ### Addition and multiplication -/

def fpAdd (n1 n2 p : Limbs W l) : Limbs W l :=
  let (r, c) := g.mpnAddN n1 n2
  if c ≠ 0 ∨ g.mpnCmp r p ≥ 0 then (g.mpnSubN r p).1 else r

def fpSub (n1 n2 p : Limbs W l) : Limbs W l :=
  let (r, c) := g.mpnSubN n1 n2
  if c ≠ 0 then (g.mpnAddN r p).1 else r

def fpDbl (n p : Limbs W l) : Limbs W l :=
  let (r, c) := g.mpnLshift n 1
  if c ≠ 0 ∨ g.mpnCmp r p ≥ 0 then (g.mpnSubN r p).1 else r

/-- The body of the inner loop of `fp_mul`, with `r`, `active` and the sign of `w`. -/
def fpMulTurn (n1 p : Limbs W l) (s : Limbs W l × Bool) (negative : Bool) : Limbs W l × Bool :=
  let r := if s.2 then fpDbl g s.1 p else s.1
  if negative then (fpAdd g r n1 p, true) else (r, s.2)

def fpMul (n1 n2 p : Limbs W l) : Limbs W l :=
  (bitLoop (fpMulTurn g n1 p) n2 (Limbs.zero W l, false)).1

def fpSqr (n p : Limbs W l) : Limbs W l := fpMul g n n p

/-! ### Powers -/

/-- The buffers of `fp_pow`: that of the caller, `n2_` and `t_`. -/
inductive Buffer where
  | r_ | n2_ | t_
  deriving DecidableEq

/-- The variables of `fp_pow`: the buffers and the pointers to them. -/
structure Ladder (W l : ℕ) where
  mem : Buffer → Limbs W l
  r : Buffer
  n2 : Buffer
  t : Buffer
  active : Bool

namespace Ladder

/-- A product is written to `*t`. -/
def store (s : Ladder W l) (n : Limbs W l) : Ladder W l :=
  { s with mem := Function.update s.mem s.t n }

/-- `std::swap(t, r)`. -/
def swapR (s : Ladder W l) : Ladder W l := { s with t := s.r, r := s.t }

/-- `std::swap(t, n2)`. -/
def swapN2 (s : Ladder W l) : Ladder W l := { s with t := s.n2, n2 := s.t }

end Ladder

/-- The body of the inner loop of `fp_pow`. -/
def fpPowTurn (p : Limbs W l) (s : Ladder W l) (negative : Bool) : Ladder W l :=
  if negative then
    if s.active then
      let s := (s.store (fpMul g (s.mem s.r) (s.mem s.n2) p)).swapR
      (s.store (fpSqr g (s.mem s.n2) p)).swapN2
    else { s with active := true }
  else if s.active then
    let s := (s.store (fpMul g (s.mem s.n2) (s.mem s.r) p)).swapN2
    (s.store (fpSqr g (s.mem s.r) p)).swapR
  else s

/-- The content of `r` afterwards, with what is in the buffers before. -/
def fpPow (mem : Buffer → Limbs W l) (n e p : Limbs W l) : Limbs W l :=
  if g.mpnZeroP e ≠ 0 then (Limbs.zero W l).setIfInBounds 0 1
  else
    let mem := Function.update mem .r_ n
    let mem := Function.update mem .n2_ (fpSqr g n p)
    let s := bitLoop (fpPowTurn g p) e ⟨mem, .r_, .n2_, .t_, false⟩
    if s.r ≠ .r_ then Function.update s.mem .r_ (s.mem s.r) .r_ else s.mem .r_

/-! ### Inverses -/

/-- The exception of `fp_inv`, and the fuel of the model. -/
inductive FpError where
  | domainError (what : String)
  | outOfFuel
  deriving DecidableEq, Repr

/-- `r` is halved modulo `p`. -/
def fpHalve (r p : Limbs W l) : Limbs W l :=
  if mpnEvenP r then (g.mpnRshift r 1).1
  else
    let (r, carry) := g.mpnAddN r p
    let c := carry <<< (W - 1)
    let r := (g.mpnRshift r 1).1
    r.setIfInBounds (l - 1) (r[l - 1]?.getD 0 ||| c)

/-- `while (mpn_even_p(u, l))`, with the number that is halved along. -/
def fpInvHalve (p : Limbs W l) : ℕ → Limbs W l → Limbs W l → Except FpError (Limbs W l × Limbs W l)
  | 0, _, _ => .error .outOfFuel
  | fuel + 1, u, r =>
    if mpnEvenP u then fpInvHalve p fuel (g.mpnRshift u 1).1 (fpHalve g r p) else .ok (u, r)

/-- The loop of `fp_inv`. -/
def fpInvLoop (p : Limbs W l) :
    ℕ → Limbs W l → Limbs W l → Limbs W l → Limbs W l → Except FpError (Limbs W l)
  | 0, _, _, _, _ => .error .outOfFuel
  | fuel + 1, u, v, r, s =>
    if mpnOneP g u then .ok r
    else if mpnOneP g v then .ok s
    else do
      let (u, r) ← fpInvHalve g p fuel u r
      let (v, s) ← fpInvHalve g p fuel v s
      if g.mpnCmp u v ≥ 0 then fpInvLoop p fuel (g.mpnSubN u v).1 v (fpSub g r s p) s
      else fpInvLoop p fuel u (g.mpnSubN v u).1 r (fpSub g s r p)

def fpInv (fuel : ℕ) (n p : Limbs W l) : Except FpError (Limbs W l) :=
  if g.mpnZeroP n ≠ 0 then .error (.domainError "not invertible")
  else fpInvLoop g p fuel n p ((Limbs.zero W l).setIfInBounds 0 1) (Limbs.zero W l)

end Matching.Common
