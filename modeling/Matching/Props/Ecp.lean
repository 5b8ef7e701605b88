import Matching.Common.Ecp
import Matching.Lib.Jacobian
import Matching.Lib.Multiples
import Matching.Props.Fp
import Mathlib.Algebra.Field.ZMod

/-! Multiples of points. The routines compute the formulas of Jacobian coordinates, and the ladder
    the multiple, as long as the addition of an affine point does not meet the point at infinity. -/

namespace Matching.Common

variable {W l : ℕ} {g : Gmp W} {p : Limbs W l}

/-! ### Residues -/

/-- The limbs are the number below `p` of a residue. -/
structure Residue (p v : Limbs W l) (x : ZMod p.value) : Prop where
  lt : v.value < p.value
  eq : (v.value : ZMod p.value) = x

section

variable {v v1 v2 : Limbs W l} {x y x1 x2 : ZMod p.value}

theorem Residue.of_lt (h : v.value < p.value) : Residue p v v.value := ⟨h, rfl⟩

theorem Residue.of_eq (h : Residue p v x) (hxy : x = y) : Residue p v y := hxy ▸ h

theorem Residue.mod {n : ℕ} (hp : 0 < p.value) (hv : v.value = n % p.value)
    (hx : (n : ZMod p.value) = x) : Residue p v x :=
  ⟨hv ▸ Nat.mod_lt _ hp, by rw [hv, ZMod.natCast_mod, hx]⟩

theorem Residue.pos (h : Residue p v x) : 0 < p.value := (Nat.zero_le _).trans_lt h.lt

theorem Residue.inj (h1 : Residue p v1 x1) (h2 : Residue p v2 x2) :
    v1.value = v2.value ↔ x1 = x2 := by
  rw [← h1.eq, ← h2.eq, ZMod.natCast_eq_natCast_iff', Nat.mod_eq_of_lt h1.lt,
    Nat.mod_eq_of_lt h2.lt]

theorem Residue.zero (hp : 0 < p.value) : Residue p (Limbs.zero W l) 0 :=
  ⟨by rwa [Limbs.value_zero], by rw [Limbs.value_zero, Nat.cast_zero]⟩

theorem Residue.one (hW : 1 < W) (hl : 0 < l) (hp : 1 < p.value) : Residue p (one W l) 1 :=
  ⟨by rwa [Common.one, value_one hW hl], by rw [Common.one, value_one hW hl, Nat.cast_one]⟩

theorem Residue.zeroP (hg : g.Documented) (hl : 0 < l) (h : Residue p v x) :
    g.mpnZeroP v ≠ 0 ↔ x = 0 := by
  rw [mpnZeroP_iff hg hl, ← h.inj (Residue.zero h.pos), Limbs.value_zero]

theorem Residue.cmp (hg : g.Documented) (hl : 0 < l) (h1 : Residue p v1 x1) (h2 : Residue p v2 x2) :
    g.mpnCmp v1 v2 = 0 ↔ x1 = x2 := by
  rw [(hg.cmp hl v1 v2).2, h1.inj h2]

theorem Residue.add (hg : g.Documented) (hl : 0 < l) (h1 : Residue p v1 x1) (h2 : Residue p v2 x2) :
    Residue p (fpAdd g v1 v2 p) (x1 + x2) :=
  .mod h1.pos (fpAdd_value hg hl h1.lt h2.lt) (by rw [Nat.cast_add, h1.eq, h2.eq])

theorem Residue.sub (hg : g.Documented) (hl : 0 < l) (h1 : Residue p v1 x1) (h2 : Residue p v2 x2) :
    Residue p (fpSub g v1 v2 p) (x1 - x2) :=
  ⟨fpSub_value hg hl h1.lt h2.lt ▸ Nat.mod_lt _ h1.pos,
    by rw [fpSub_residue hg hl h1.lt h2.lt, h1.eq, h2.eq]⟩

theorem Residue.dbl (hg : g.Documented) (hW : 1 < W) (hl : 0 < l) (h : Residue p v x) :
    Residue p (fpDbl g v p) (2 * x) :=
  .mod h.pos (fpDbl_value hg hW hl h.lt) (by rw [Nat.cast_add, h.eq, two_mul])

theorem Residue.mul (hg : g.Documented) (hW : 1 < W) (hl : 0 < l) (h1 : Residue p v1 x1)
    (h2 : Residue p v2 x2) :
    Residue p (fpMul g v1 v2 p) (x1 * x2) :=
  .mod h1.pos (fpMul_value hg hW hl h1.lt v2) (by rw [Nat.cast_mul, h1.eq, h2.eq])

theorem Residue.sqr (hg : g.Documented) (hW : 1 < W) (hl : 0 < l) (h : Residue p v x) :
    Residue p (fpSqr g v p) (x ^ 2) :=
  (h.mul hg hW hl h).of_eq (pow_two x).symm

end

theorem two_residue_ne_zero (hp : 3 < p.value) : (2 : ZMod p.value) ≠ 0 := by
  have hdvd : ¬ p.value ∣ 2 := Nat.not_dvd_of_pos_of_lt (by decide) (by omega)
  rwa [← ZMod.natCast_eq_zero_iff] at hdvd

/-! ### Points -/

/-- Reduced coordinates of a point. -/
structure Holds (p : Limbs W l) [Fact p.value.Prime] {E : WeierstrassCurve.Affine (ZMod p.value)}
    (N : Ecp W l) (P : E.Point) : Prop where
  x : N.x.value < p.value
  y : N.y.value < p.value
  z : N.z.value < p.value
  represents : Represents (N.x.value : ZMod p.value) N.y.value N.z.value P

variable [Fact p.value.Prime]

theorem Holds.of_residues {E : WeierstrassCurve.Affine (ZMod p.value)} {N : Ecp W l} {P : E.Point}
    {x y z : ZMod p.value} (hx : Residue p N.x x) (hy : Residue p N.y y) (hz : Residue p N.z z)
    (h : Represents x y z P) : Holds p N P :=
  ⟨hx.lt, hy.lt, hz.lt, by rwa [hx.eq, hy.eq, hz.eq]⟩

/-- The point at infinity. -/
theorem Holds.zero_iff {E : WeierstrassCurve.Affine (ZMod p.value)} {N : Ecp W l} {P : E.Point}
    (h : Holds p N P) :
    (N.z.value : ZMod p.value) = 0 ↔ P = 0 :=
  (represents_zero_iff h.represents).symm

variable {a : Limbs W l} {b : ZMod p.value} {N N1 N2 : Ecp W l}
  {P P1 P2 : (shortCurve (a.value : ZMod p.value) b).Point}

theorem ecpDbl_holds (hg : g.Documented) (hW : 1 < W) (hl : 0 < l) (hp : 3 < p.value)
    (ha : a.value < p.value) (h : Holds p N P) :
    Holds p (ecpDbl g N a p) (P + P) := by
  have hx := Residue.of_lt h.x
  have hy := Residue.of_lt h.y
  have hz := Residue.of_lt h.z
  have hzero := Residue.zero hx.pos
  have h2 := two_residue_ne_zero hp
  rw [ecpDbl]
  split
  · next hinf =>
    rw [hz.zeroP hg hl, h.zero_iff] at hinf
    rw [hinf, add_zero]
    exact .of_residues hzero hzero hzero (.infinite rfl)
  · next hfin =>
    rw [hz.zeroP hg hl] at hfin
    have hm : Residue p (if g.mpnZeroP a = 0 then
        fpAdd g (fpAdd g (fpSqr g N.x p) (fpDbl g (fpSqr g N.x p) p) p)
          (fpMul g a (fpSqr g (fpSqr g N.z p) p) p) p
        else fpAdd g (fpSqr g N.x p) (fpDbl g (fpSqr g N.x p) p) p)
        (3 * (N.x.value : ZMod p.value) ^ 2 + a.value * (N.z.value : ZMod p.value) ^ 4) := by
      have hxx := (hx.sqr hg hW hl).add hg hl ((hx.sqr hg hW hl).dbl hg hW hl)
      have hres := Residue.of_lt ha
      split
      · exact (hxx.add hg hl (hres.mul hg hW hl ((hz.sqr hg hW hl).sqr hg hW hl))).of_eq (by ring)
      · next hne =>
        rw [← ne_eq, hres.zeroP hg hl] at hne
        exact hxx.of_eq (by rw [hne]; ring)
    have ht1 := (hy.sqr hg hW hl).dbl hg hW hl
    have ht2 := (hx.mul hg hW hl ht1).dbl hg hW hl
    have ht3 := (ht1.sqr hg hW hl).dbl hg hW hl
    have hx' := (hm.sqr hg hW hl).sub hg hl (ht2.dbl hg hW hl)
    have hy' := (hm.mul hg hW hl (ht2.sub hg hl hx')).sub hg hl ht3
    have hz' := (hy.mul hg hW hl hz).dbl hg hW hl
    refine .of_residues hx' hy' hz'
      (represents_double h2 h.represents hfin rfl (by ring) rfl ?_ (by ring))
    ring

theorem ecpInfinity_holds (hW : 1 < W) (hl : 0 < l) :
    Holds p ⟨one W l, one W l, .zero W l⟩ (0 : (shortCurve (a.value : ZMod p.value) b).Point) := by
  have hp := (Fact.out : p.value.Prime).one_lt
  exact .of_residues (.one hW hl hp) (.one hW hl hp) (.zero (by omega)) (.infinite rfl)

/-- Adding an affine point, the sum is right unless the first point is the one at
    infinity, which stays. -/
theorem ecpAddAff_holds (hg : g.Documented) (hW : 1 < W) (hl : 0 < l) (hp : 3 < p.value)
    (ha : a.value < p.value) (h1 : Holds p N1 P1) (h2 : Holds p N2 P2)
    (hz2 : (N2.z.value : ZMod p.value) = 1) : Holds p (ecpAddAff g N1 N2 a p) (stuckAdd P1 P2) := by
  have hx1 := Residue.of_lt h1.x
  have hy1 := Residue.of_lt h1.y
  have hz1 := Residue.of_lt h1.z
  have hu := (Residue.of_lt h2.x).mul hg hW hl (hz1.sqr hg hW hl)
  have hs := (Residue.of_lt h2.y).mul hg hW hl (hz1.mul hg hW hl (hz1.sqr hg hW hl))
  have hh := hu.sub hg hl hx1
  have hr := hs.sub hg hl hy1
  have hhh := hh.sqr hg hW hl
  have hhhh := hhh.mul hg hW hl hh
  have huhh := hx1.mul hg hW hl hhh
  have hx' := ((hr.sqr hg hW hl).sub hg hl hhhh).sub hg hl (huhh.dbl hg hW hl)
  have hy' := (hr.mul hg hW hl (huhh.sub hg hl hx')).sub hg hl (hy1.mul hg hW hl hhhh)
  have hz' := hz1.mul hg hW hl hh
  have hone : (N2.z.value : ZMod p.value) ≠ 0 := by rw [hz2]; exact one_ne_zero
  rw [ecpAddAff]
  simp only [hu.cmp hg hl hx1, hs.cmp hg hl hy1]
  rw [stuckAdd]
  by_cases hP1 : P1 = 0
  · rw [if_pos hP1]
    split
    · split
      · have hdbl := ecpDbl_holds hg hW hl hp ha h1
        rwa [hP1, add_zero] at hdbl
      · exact ecpInfinity_holds hW hl
    · exact .of_residues hx' hy' hz' (.infinite (by rw [h1.zero_iff.mpr hP1, zero_mul]))
  · rw [if_neg hP1]
    have hz1' : (N1.z.value : ZMod p.value) ≠ 0 := fun h => hP1 (h1.zero_iff.mp h)
    split
    · next hx =>
      obtain ⟨hsame, hinv⟩ :=
        represents_same h1.represents h2.represents hz1' hone (by rw [hz2]; linear_combination -hx)
      rw [hz2] at hsame hinv
      split
      · next hy =>
        rw [← hsame (by linear_combination -hy)]
        exact ecpDbl_holds hg hW hl hp ha h1
      · next hy =>
        rw [hinv (fun h => hy (by linear_combination -h))]
        exact ecpInfinity_holds hW hl
    · next hx =>
      refine .of_residues hx' hy' hz'
        (represents_add h1.represents h2.represents hz1' hone rfl rfl rfl rfl ?_ ?_ ?_ ?_)
      · rw [hz2]
        exact fun h => hx (by linear_combination h)
      · rw [hz2]
        ring
      · rw [hz2]
        ring
      · rw [hz2]
        ring

theorem ecpAdd_holds (hg : g.Documented) (hW : 1 < W) (hl : 0 < l) (hp : 3 < p.value)
    (ha : a.value < p.value) (h1 : Holds p N1 P1) (h2 : Holds p N2 P2) :
    Holds p (ecpAdd g N1 N2 a p) (P1 + P2) := by
  have hx1 := Residue.of_lt h1.x
  have hy1 := Residue.of_lt h1.y
  have hz1 := Residue.of_lt h1.z
  have hx2 := Residue.of_lt h2.x
  have hy2 := Residue.of_lt h2.y
  have hz2 := Residue.of_lt h2.z
  rw [ecpAdd]
  simp only [hz1.zeroP hg hl, hz2.zeroP hg hl, h1.zero_iff, h2.zero_iff]
  split
  · next hP1 =>
    rw [hP1, zero_add]
    split
    · next hP2 =>
      rw [hP2]
      have hzero := Residue.zero (W := W) (l := l) hx1.pos
      exact .of_residues hzero hzero hzero (.infinite rfl)
    · exact h2
  next hP1 =>
  split
  · next hP2 => rwa [hP2, add_zero]
  next hP2 =>
  split
  · next hone =>
    have hone' : (N2.z.value : ZMod p.value) = 1 := by
      rw [value_of_mpnOneP hg hW hone, Nat.cast_one]
    have haff := ecpAddAff_holds hg hW hl hp ha h1 h2 hone'
    rwa [stuckAdd, if_neg hP1] at haff
  have hz1' : (N1.z.value : ZMod p.value) ≠ 0 := fun h => hP1 (h1.zero_iff.mp h)
  have hz2' : (N2.z.value : ZMod p.value) ≠ 0 := fun h => hP2 (h2.zero_iff.mp h)
  have hu2 := hx2.mul hg hW hl (hz1.sqr hg hW hl)
  have hs2 := hy2.mul hg hW hl (hz1.mul hg hW hl (hz1.sqr hg hW hl))
  have hu1 := hx1.mul hg hW hl (hz2.sqr hg hW hl)
  have hs1 := hy1.mul hg hW hl (hz2.mul hg hW hl (hz2.sqr hg hW hl))
  have hh := hu2.sub hg hl hu1
  have hr := hs2.sub hg hl hs1
  have hhh := hh.sqr hg hW hl
  have hhhh := hh.mul hg hW hl hhh
  have huhh := hu1.mul hg hW hl hhh
  have hx' := ((hr.sqr hg hW hl).sub hg hl hhhh).sub hg hl (huhh.dbl hg hW hl)
  have hy' := (hr.mul hg hW hl (huhh.sub hg hl hx')).sub hg hl (hs1.mul hg hW hl hhhh)
  have hz' := hh.mul hg hW hl (hz1.mul hg hW hl hz2)
  simp only [hu1.cmp hg hl hu2, hs1.cmp hg hl hs2]
  split
  · next hx =>
    obtain ⟨hsame, hinv⟩ := represents_same h1.represents h2.represents hz1' hz2' hx
    split
    · next hy =>
      rw [← hsame (by linear_combination hy)]
      exact ecpDbl_holds hg hW hl hp ha h1
    · next hy =>
      rw [hinv (fun h => hy (by linear_combination h))]
      exact ecpInfinity_holds hW hl
  · next hx =>
    refine .of_residues hx' hy' hz'
      (represents_add h1.represents h2.represents hz1' hz2' rfl rfl rfl rfl ?_ ?_ ?_ rfl)
    · exact fun h => hx (by linear_combination -h)
    · ring
    · ring

/-! ### The ladder -/

namespace EcpLadder

theorem setS_swap (s : EcpLadder W l) (N : Ecp W l) :
    (s.setS N).swap.r = N ∧ (s.setS N).swap.own = !s.own ∧ (s.setS N).swap.swaps = s.swaps + 1 ∧
      (s.setS N).swap.active = s.active := by
  cases hown : s.own with
  | false => simp [setS, swap, r, hown]
  | true => simp [setS, swap, r, hown]

/-- The flags and the buffer that `R` points to, behind the bits that have made `Q`. -/
structure Follows (R : Ecp W l) (s : EcpLadder W l)
    (Q : Option (shortCurve (a.value : ZMod p.value) b).Point) : Prop where
  parity : s.own = decide (s.swaps % 2 = 1)
  idle : Q = none → s.active = false ∧ s.own = false ∧ s.caller = R
  point : ∀ P, Q = some P → s.active = true ∧ Holds p s.r P

variable {R : Ecp W l} {s : EcpLadder W l}
  {Q : Option (shortCurve (a.value : ZMod p.value) b).Point}

/-- A point is written to the other buffer, and the pointers are swapped. -/
theorem Follows.store (h : Follows R s Q) (hactive : s.active = true) (hN : Holds p N P) :
    Follows R (s.setS N).swap (some P) := by
  obtain ⟨hr, hown, hswaps, hact⟩ := s.setS_swap N
  refine ⟨?_, (by rintro ⟨⟩), ?_⟩
  · rw [hown, hswaps, h.parity, ← decide_not, decide_eq_decide]
    omega
  · rintro P' ⟨rfl⟩
    rw [hr, hact]
    exact ⟨hactive, hN⟩

theorem Follows.turn {add : Ecp W l → Ecp W l → Limbs W l → Limbs W l → Ecp W l}
    {op : (shortCurve (a.value : ZMod p.value) b).Point →
      (shortCurve (a.value : ZMod p.value) b).Point → (shortCurve (a.value : ZMod p.value) b).Point}
    (hg : g.Documented) (hW : 1 < W) (hl : 0 < l) (hp : 3 < p.value) (ha : a.value < p.value)
    (hN : Holds p N P) (hadd : ∀ N1 P1, Holds p N1 P1 → Holds p (add N1 N a p) (op P1 P))
    (h : Follows R s Q) (c : Bool) :
    Follows R (ecpMulTurn g add N a p s c) (multipleTurn op P Q c) := by
  cases Q with
  | none =>
    obtain ⟨hactive, hown, hcaller⟩ := h.idle rfl
    cases c with
    | false => simpa [ecpMulTurn, multipleTurn, hactive] using h
    | true =>
      refine ⟨?_, (by rintro ⟨⟩), ?_⟩
      · simpa [ecpMulTurn, hactive, setR, hown] using h.parity
      · rintro P' ⟨rfl⟩
        simpa [ecpMulTurn, hactive, setR, hown, r] using hN
  | some P1 =>
    obtain ⟨hactive, hr⟩ := h.point P1 rfl
    have hdbl := h.store hactive (ecpDbl_holds hg hW hl hp ha hr)
    obtain ⟨hactive', hr'⟩ := hdbl.point _ rfl
    rw [ecpMulTurn, if_pos hactive, multipleTurn]
    cases c with
    | false => exact hdbl
    | true =>
      rw [if_pos rfl, if_pos hactive', if_pos rfl]
      exact hdbl.store hactive' (hadd _ _ hr')

/-- The buffer that is returned holds what `R` points to, also when it is copied. -/
theorem returned (s : EcpLadder W l) :
    (if s.swaps &&& 1 ≠ 0 then (s.setS s.r).swap.r else s.r) = s.r := by
  rw [(s.setS_swap s.r).1, ite_self]

end EcpLadder

/-- What the loop of additions makes, the code makes. -/
theorem ecpMulWith_follows {add : Ecp W l → Ecp W l → Limbs W l → Limbs W l → Ecp W l}
    {op : (shortCurve (a.value : ZMod p.value) b).Point →
      (shortCurve (a.value : ZMod p.value) b).Point → (shortCurve (a.value : ZMod p.value) b).Point}
    (hg : g.Documented) (hW : 1 < W) (hl : 0 < l) (hp : 3 < p.value) (ha : a.value < p.value)
    (hN : Holds p N P) (hadd : ∀ N1 P1, Holds p N1 P1 → Holds p (add N1 N a p) (op P1 P))
    (R S : Ecp W l) (k : Limbs W l) :
    (bitLoop (multipleTurn op P) k none = none → ecpMul_ g R S k N a p add = R) ∧
      ∀ Q, bitLoop (multipleTurn op P) k none = some Q → Holds p (ecpMul_ g R S k N a p add) Q := by
  have hstart : EcpLadder.Follows (a := a) (b := b) R ⟨R, S, false, 0, false⟩ none :=
    ⟨rfl, fun _ => ⟨rfl, rfl, rfl⟩, by rintro _ ⟨⟩⟩
  have h := bitLoop_rel (fun _ _ c h => h.turn hg hW hl hp ha hN hadd c) k hstart
  rw [ecpMul_]
  simp only [EcpLadder.returned]
  refine ⟨fun hnone => ?_, fun Q hsome => (h.point Q hsome).2⟩
  obtain ⟨-, hown, hcaller⟩ := h.idle hnone
  rw [EcpLadder.r, hown, if_neg (by decide), hcaller]

theorem Holds.unique {N : Ecp W l} {P Q : (shortCurve (a.value : ZMod p.value) b).Point}
    (hP : Holds p N P) (hQ : Holds p N Q) : P = Q :=
  represents_unique hP.represents hQ.represents

/-- With a general addition every multiple but that by zero is right, and that by zero is
    what was there before. -/
theorem ecpMul_general (hg : g.Documented) (hW : 1 < W) (hl : 0 < l) (hp : 3 < p.value)
    (ha : a.value < p.value) (hN : Holds p N P) (hone : ¬ mpnOneP g N.z = true) (R S : Ecp W l)
    (k : Limbs W l) :
    (k.value = 0 → ecpMul g R S k N a p = R) ∧
      (k.value ≠ 0 → Holds p (ecpMul g R S k N a p) (k.value • P)) := by
  have h :=
    ecpMulWith_follows hg hW hl hp ha hN (fun _ _ h1 => ecpAdd_holds hg hW hl hp ha h1 hN) R S k
  rw [bitLoop_multiple, multiple] at h
  rw [ecpMul, if_neg hone]
  exact ⟨fun hk => h.1 (if_pos hk), fun hk => h.2 _ (if_neg hk)⟩

/-- With a point that is seen to be affine the multiple gets lost where a beginning of the
    multiplier passes the order. -/
theorem ecpMul_affine (hg : g.Documented) (hW : 1 < W) (hl : 0 < l) (hp : 3 < p.value)
    (ha : a.value < p.value) (hN : Holds p N P) (hone : mpnOneP g N.z = true) (R S : Ecp W l)
    (k : Limbs W l) :
    (k.value = 0 → ecpMul g R S k N a p = R) ∧
      (k.value ≠ 0 →
        (Passes (addOrderOf P) k.value →
        Holds p (ecpMul g R S k N a p) (0 : (shortCurve (a.value : ZMod p.value) b).Point)) ∧
        (¬ Passes (addOrderOf P) k.value → Holds p (ecpMul g R S k N a p) (k.value • P))) := by
  have hcast : (N.z.value : ZMod p.value) = 1 := by rw [value_of_mpnOneP hg hW hone, Nat.cast_one]
  have h :=
    ecpMulWith_follows hg hW hl hp ha hN
      (fun _ _ h1 => ecpAddAff_holds hg hW hl hp ha h1 hN hcast) R S k
  rw [bitLoop_stuckMultiple, stuckMultiple] at h
  rw [ecpMul, if_pos hone]
  refine ⟨fun hk => h.1 (if_pos hk), fun hk => ⟨fun hpass => h.2 _ ?_, fun hpass => h.2 _ ?_⟩⟩
  · rw [if_neg hk, if_pos hpass]
  · rw [if_neg hk, if_neg hpass]

/-- The multiple by zero is what was in the buffer. -/
theorem ecpMul_of_zero (hg : g.Documented) (hW : 1 < W) (hl : 0 < l) (hp : 3 < p.value)
    (ha : a.value < p.value) (hN : Holds p N P) (R S : Ecp W l) {k : Limbs W l} (hk : k.value = 0) :
    ecpMul g R S k N a p = R := by
  by_cases hone : mpnOneP g N.z = true
  · exact (ecpMul_affine hg hW hl hp ha hN hone R S k).1 hk
  · exact (ecpMul_general hg hW hl hp ha hN hone R S k).1 hk

/-- The result stands for the multiple just when a multiple by zero finds the point at infinity in
    its buffer, and a point that is seen to be affine is not lost: no beginning of the multiplier
    passes the order, or the multiple is infinite anyway. -/
theorem ecpMul_iff (hg : g.Documented) (hW : 1 < W) (hl : 0 < l) (hp : 3 < p.value)
    (ha : a.value < p.value) (hN : Holds p N P) (R S : Ecp W l) (k : Limbs W l) :
    Holds p (ecpMul g R S k N a p) (k.value • P) ↔
      (k.value = 0 → Holds p R (0 : (shortCurve (a.value : ZMod p.value) b).Point)) ∧
      (k.value ≠ 0 → N.z.value = 1 → g.FindsOne l →
        addOrderOf P ∣ k.value ∨ ¬ Passes (addOrderOf P) k.value) := by
  rcases Nat.eq_zero_or_pos k.value with hk | hk
  · rw [ecpMul_of_zero hg hW hl hp ha hN R S hk, hk, zero_nsmul]
    simp
  rw [addOrderOf_dvd_iff_nsmul_eq_zero]
  by_cases hone : mpnOneP g N.z = true
  · obtain ⟨hlost, hright⟩ := (ecpMul_affine hg hW hl hp ha hN hone R S k).2 hk.ne'
    obtain ⟨hfinds, hz⟩ := (mpnOneP_iff hg hW hl _).mp hone
    refine ⟨fun h => ⟨fun hk' => absurd hk' hk.ne', fun _ _ _ => ?_⟩, fun ⟨_, h⟩ => ?_⟩
    · rcases Classical.em (Passes (addOrderOf P) k.value) with hpass | hpass
      · exact Or.inl (h.unique (hlost hpass))
      · exact Or.inr hpass
    · rcases Classical.em (Passes (addOrderOf P) k.value) with hpass | hpass
      · rw [(h hk.ne' hz hfinds).resolve_right (not_not_intro hpass)]
        exact hlost hpass
      · exact hright hpass
  · have hright := (ecpMul_general hg hW hl hp ha hN hone R S k).2 hk.ne'
    refine iff_of_true hright ⟨fun hk' => absurd hk' hk.ne', fun _ hz hfinds => ?_⟩
    exact absurd ((mpnOneP_iff hg hW hl _).mpr ⟨hfinds, hz⟩) hone

/-! ### A small curve -/

/-- A small number in two limbs. -/
def limbs (n : ℕ) : Limbs 64 2 := Limbs.ofValue 64 2 n

theorem limbs_value {n : ℕ} (h : n < 11) : (limbs n).value = n := small_value (by decide) h

def five : Limbs 64 2 := limbs 5

theorem five_value : five.value = 5 := limbs_value (by decide)

instance : Fact five.value.Prime := ⟨by rw [five_value]; decide⟩

/-- The affine point `(0, 1)` of the curve `y² = x³ + 1`. -/
theorem small_holds :
    ∃ P : (shortCurve ((limbs 0).value : ZMod five.value) 1).Point,
      Holds five ⟨limbs 0, limbs 1, limbs 1⟩ P := by
  have h0 : ((limbs 0).value : ZMod five.value) = 0 := by
    rw [limbs_value (n := 0) (by decide), Nat.cast_zero]
  have h1 : ((limbs 1).value : ZMod five.value) = 1 := by
    rw [limbs_value (n := 1) (by decide), Nat.cast_one]
  have hns : (shortCurve ((limbs 0).value : ZMod five.value) 1).Nonsingular 0 1 := by
    rw [WeierstrassCurve.Affine.nonsingular_iff, WeierstrassCurve.Affine.equation_iff]
    refine ⟨by simp [shortCurve], Or.inr ?_⟩
    simp only [shortCurve]
    intro h
    exact two_residue_ne_zero (by rw [five_value]; decide) (by linear_combination h)
  have hlt (n : ℕ) (h : n < 5) : (limbs n).value < five.value := by
    rwa [limbs_value (by omega), five_value]
  refine ⟨.some 0 1 hns, hlt 0 (by decide), hlt 1 (by decide), hlt 1 (by decide),
    represents_some hns ?_ ?_ ?_⟩
  · rw [h1]
    exact one_ne_zero
  · rw [h0, zero_mul]
  · rw [h1, one_pow, one_mul]

/-- Twice the point. -/
theorem ecpMul_iff_two :
    ∃ P : (shortCurve ((limbs 0).value : ZMod five.value) 1).Point,
      Holds five ⟨limbs 0, limbs 1, limbs 1⟩ P ∧
      Holds five
        (ecpMul (Gmp.since601 64) ⟨limbs 1, limbs 1, limbs 1⟩ ⟨limbs 1, limbs 1, limbs 1⟩ (limbs 2)
          ⟨limbs 0, limbs 1, limbs 1⟩ (limbs 0) five) ((limbs 2).value • P) := by
  obtain ⟨P, hP⟩ := small_holds
  have h2 : (limbs 2).value = 2 := limbs_value (by decide)
  have h0 : (limbs 0).value < five.value := by
    rw [limbs_value (by decide), five_value]
    decide
  refine ⟨P, hP,
    (ecpMul_iff (Gmp.since601_documented (by decide)) (by decide) (by decide)
    (by rw [five_value]; decide) h0 hP _ _ _).mpr ⟨fun h => ?_, fun _ _ _ => Or.inr ?_⟩⟩
  · rw [h2] at h
    cases h
  · rw [h2]
    rintro ⟨j, hodd, hlt, -⟩
    cases j with
    | zero => cases hodd
    | succ j =>
      rw [Nat.pow_succ', ← Nat.div_div_eq_div_mul] at hlt
      exact absurd hlt (Nat.not_lt.mpr (Nat.div_le_self 1 (2 ^ j)))

/-- The multiple by zero is what was in the buffer. -/
theorem ecpMul_zero :
    ∃ P : (shortCurve ((limbs 0).value : ZMod five.value) 1).Point,
      Holds five ⟨limbs 0, limbs 1, limbs 1⟩ P ∧
      ¬ Holds five
        (ecpMul (Gmp.since601 64) ⟨limbs 1, limbs 1, limbs 1⟩ ⟨limbs 1, limbs 1, limbs 1⟩ (limbs 0)
          ⟨limbs 0, limbs 1, limbs 1⟩ (limbs 0) five) ((limbs 0).value • P) := by
  obtain ⟨P, hP⟩ := small_holds
  have h0 : (limbs 0).value = 0 := limbs_value (by decide)
  have h1 : (limbs 1).value = 1 := limbs_value (by decide)
  have hlt : (limbs 0).value < five.value := by
    rw [h0, five_value]
    decide
  have hresult := ecpMul_of_zero (Gmp.since601_documented (by decide)) (by decide) (by decide)
    (by rw [five_value]; decide) hlt hP ⟨limbs 1, limbs 1, limbs 1⟩ ⟨limbs 1, limbs 1, limbs 1⟩ h0
  refine ⟨P, hP, fun h => ?_⟩
  have hnsmul : (limbs 0).value • P = 0 := (congrArg (· • P) h0).trans (zero_nsmul P)
  rw [hresult, hnsmul] at h
  have hz := h.zero_iff.mpr rfl
  rw [h1, Nat.cast_one] at hz
  exact one_ne_zero hz

end Matching.Common
