import Matching.Common.Fp

/-! `ecp.cpp`: points in Jacobian coordinates, their sums, and multiples by a
    ladder between two buffers. -/

namespace Matching.Common

variable {W l : ℕ}

/-- The `3 * l` limbs of a point. -/
structure Ecp (W l : ℕ) where
  x : Limbs W l
  y : Limbs W l
  z : Limbs W l

variable (g : Gmp W)

/-- The number one, of which the source writes the lowest limb. -/
def one (W l : ℕ) : Limbs W l := (Limbs.zero W l).setIfInBounds 0 1

def ecpDbl (N : Ecp W l) (a p : Limbs W l) : Ecp W l :=
  if g.mpnZeroP N.z ≠ 0 then ⟨.zero W l, .zero W l, .zero W l⟩
  else
    let t0 := fpSqr g N.x p
    let t1 := fpDbl g t0 p
    let t0 := fpAdd g t0 t1 p
    let t0 :=
      if g.mpnZeroP a = 0 then
        let t1 := fpSqr g N.z p
        let t2 := fpSqr g t1 p
        let t1 := fpMul g a t2 p
        fpAdd g t0 t1 p
      else t0
    let t1 := fpDbl g (fpSqr g N.y p) p
    let t2 := fpDbl g (fpMul g N.x t1 p) p
    let t3 := fpDbl g (fpSqr g t1 p) p
    let x := fpSub g (fpSqr g t0 p) (fpDbl g t2 p) p
    let y := fpSub g (fpMul g t0 (fpSub g t2 x p) p) t3 p
    let z := fpDbl g (fpMul g N.y N.z p) p
    ⟨x, y, z⟩

/-- The sum of a point and one with `z = 1`, which is asserted and not read. -/
def ecpAddAff (N1 N2 : Ecp W l) (a p : Limbs W l) : Ecp W l :=
  let t0 := fpSqr g N1.z p
  let t1 := fpMul g N2.x t0 p
  let t2 := fpMul g N1.z t0 p
  let t0 := fpMul g N2.y t2 p
  if g.mpnCmp t1 N1.x = 0 then
    if g.mpnCmp t0 N1.y = 0 then ecpDbl g N1 a p else ⟨one W l, one W l, .zero W l⟩
  else
    let t2 := fpSub g t1 N1.x p
    let t1 := fpSub g t0 N1.y p
    let t0 := fpSqr g t2 p
    let t3 := fpMul g t0 t2 p
    let t4 := fpMul g N1.x t0 p
    let x := fpSub g (fpSub g (fpSqr g t1 p) t3 p) (fpDbl g t4 p) p
    let y := fpSub g (fpMul g t1 (fpSub g t4 x p) p) (fpMul g N1.y t3 p) p
    let z := fpMul g N1.z t2 p
    ⟨x, y, z⟩

def ecpAdd (N1 N2 : Ecp W l) (a p : Limbs W l) : Ecp W l :=
  if g.mpnZeroP N1.z ≠ 0 then
    if g.mpnZeroP N2.z ≠ 0 then ⟨.zero W l, .zero W l, .zero W l⟩ else N2
  else if g.mpnZeroP N2.z ≠ 0 then N1
  else if mpnOneP g N2.z then ecpAddAff g N1 N2 a p
  else
    let t0 := fpSqr g N1.z p
    let t1 := fpMul g N2.x t0 p
    let t2 := fpMul g N1.z t0 p
    let t0 := fpMul g N2.y t2 p
    let t2 := fpSqr g N2.z p
    let t3 := fpMul g N1.x t2 p
    let t4 := fpMul g N2.z t2 p
    let t2 := fpMul g N1.y t4 p
    if g.mpnCmp t3 t1 = 0 then
      if g.mpnCmp t2 t0 = 0 then ecpDbl g N1 a p else ⟨one W l, one W l, .zero W l⟩
    else
      let t4 := fpSub g t1 t3 p
      let t1 := fpSub g t0 t2 p
      let t0 := fpSqr g t4 p
      let t5 := fpMul g t4 t0 p
      let t6 := fpMul g t3 t0 p
      let x := fpSub g (fpSub g (fpSqr g t1 p) t5 p) (fpDbl g t6 p) p
      let y := fpSub g (fpMul g t1 (fpSub g t6 x p) p) (fpMul g t2 t5 p) p
      let z := fpMul g t4 (fpMul g N1.z N2.z p) p
      ⟨x, y, z⟩

/-! ### Multiples -/

/-- The variables of `ecp_mul_`: its two buffers, that of the caller and `Ss`, which of them `R`
    points to (`S` points to the other one), and the flags. -/
structure EcpLadder (W l : ℕ) where
  caller : Ecp W l
  ss : Ecp W l
  own : Bool
  swaps : ℕ
  active : Bool

namespace EcpLadder

/-- `*R`. -/
def r (s : EcpLadder W l) : Ecp W l := if s.own then s.ss else s.caller

/-- `*R` is written. -/
def setR (s : EcpLadder W l) (N : Ecp W l) : EcpLadder W l :=
  if s.own then { s with ss := N } else { s with caller := N }

/-- `*S` is written. -/
def setS (s : EcpLadder W l) (N : Ecp W l) : EcpLadder W l :=
  if s.own then { s with caller := N } else { s with ss := N }

/-- `T = S, S = R, R = T, ++swaps`. -/
def swap (s : EcpLadder W l) : EcpLadder W l := { s with own := !s.own, swaps := s.swaps + 1 }

end EcpLadder

/-- The body of the inner loop of `ecp_mul_`. -/
def ecpMulTurn (add : Ecp W l → Ecp W l → Limbs W l → Limbs W l → Ecp W l) (N2 : Ecp W l)
    (a p : Limbs W l) (s : EcpLadder W l) (negative : Bool) : EcpLadder W l :=
  let s := if s.active then (s.setS (ecpDbl g s.r a p)).swap else s
  if negative then
    if s.active then (s.setS (add s.r N2 a p)).swap else { s.setR N2 with active := true }
  else s

/-- What the returned pointer points to, with the contents of both buffers before. -/
def ecpMul_ (R S : Ecp W l) (n1 : Limbs W l) (N2 : Ecp W l) (a p : Limbs W l)
    (add : Ecp W l → Ecp W l → Limbs W l → Limbs W l → Ecp W l) : Ecp W l :=
  let s := bitLoop (ecpMulTurn g add N2 a p) n1 ⟨R, S, false, 0, false⟩
  if s.swaps &&& 1 ≠ 0 then (s.setS s.r).swap.r else s.r

def ecpMul (R S : Ecp W l) (n1 : Limbs W l) (N2 : Ecp W l) (a p : Limbs W l) : Ecp W l :=
  ecpMul_ g R S n1 N2 a p (if mpnOneP g N2.z then ecpAddAff g else ecpAdd g)

/-! ### Keys and signatures -/

/-- The affine coordinates; `fp_inv` throws where there are none. -/
def ecpProj (fuel : ℕ) (N : Ecp W l) (p : Limbs W l) : Except FpError (Ecp W l) := do
  let t0 ← fpInv g fuel N.z p
  let t1 := fpSqr g t0 p
  let t2 := fpMul g t0 t1 p
  return ⟨fpMul g N.x t1 p, fpMul g N.y t2 p, one W l⟩

/-- What is in the local points of a routine before they are written: that
    of a multiple, and `Ss`. -/
structure EcpGarbage (W l : ℕ) where
  r : Ecp W l
  ss : Ecp W l

def ecpPubkey (fuel : ℕ) (garbage : EcpGarbage W l) (p a : Limbs W l) (G : Ecp W l)
    (d : Limbs W l) : Except FpError (Ecp W l) :=
  ecpProj g fuel (ecpMul g garbage.r garbage.ss d G a p) p

/-- A first coordinate, from which `n` is subtracted once if need be. -/
def ecpReduce (x n : Limbs W l) : Limbs W l := if g.mpnCmp x n ≥ 0 then (g.mpnSubN x n).1 else x

/-- A turn of the loop of `ecp_sign` with the random number `k`: the signature, if the loop ends. -/
def ecpSignTurn (fuel : ℕ) (p a : Limbs W l) (G : Ecp W l) (n d z k : Limbs W l)
    (garbage : EcpGarbage W l) :
    Except FpError (Option (Limbs W l × Limbs W l)) := do
  let R ← ecpProj g fuel (ecpMul g garbage.r garbage.ss k G a p) p
  let r := ecpReduce g R.x n
  if g.mpnZeroP r = 0 then
    let t1 := fpAdd g z (fpMul g r d n) n
    let t0 ← fpInv g fuel k n
    let s := fpMul g t0 t1 n
    if g.mpnZeroP s = 0 then
      return some (r, s)
  return none

/-- `ecp_sign`, as long as there are random numbers. -/
def ecpSign (fuel : ℕ) (p a : Limbs W l) (G : Ecp W l) (n d z : Limbs W l) :
    List (Limbs W l × EcpGarbage W l) → Except FpError (Option (Limbs W l × Limbs W l))
  | [] => return none
  | (k, garbage) :: random => do
    match ← ecpSignTurn g fuel p a G n d z k garbage with
    | some signature => return some signature
    | none => ecpSign fuel p a G n d z random

def ecpVerify (fuel : ℕ) (garbage1 garbage2 : EcpGarbage W l) (p a : Limbs W l) (G : Ecp W l)
    (n : Limbs W l) (Q : Ecp W l) (z r s : Limbs W l) : Except FpError Bool := do
  if g.mpnZeroP r ≠ 0 ∨ g.mpnZeroP s ≠ 0 ∨ g.mpnCmp r n ≥ 0 ∨ g.mpnCmp s n ≥ 0 then
    return false
  let w ← fpInv g fuel s n
  let u1 := fpMul g z w n
  let u2 := fpMul g r w n
  let T2 := ecpAdd g (ecpMul g garbage1.r garbage1.ss u1 G a p)
    (ecpMul g garbage2.r garbage2.ss u2 Q a p) a p
  if g.mpnZeroP T2.z ≠ 0 then
    return false
  let Rp ← ecpProj g fuel T2 p
  return g.mpnCmp (ecpReduce g Rp.x n) r = 0

end Matching.Common
