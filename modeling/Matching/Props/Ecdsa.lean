import Matching.Lib.Ecdsa
import Matching.Props.Ecp

/-! Signatures. `ecp_verify` decides whether its numbers are a signature in the group of the curve,
    and accepts what `ecp_sign` makes with the private key. -/

namespace Matching.Common

variable {W l : ℕ} {g : Gmp W} {p a n : Limbs W l} [Fact p.value.Prime] {b : ZMod p.value}
  {P B : (shortCurve (a.value : ZMod p.value) b).Point} {N G Q : Ecp W l}

/-! ### Points -/

/-- The first coordinate of a point modulo `n`; the point at infinity has none. -/
def pointNumber (n : ℕ) {E : WeierstrassCurve.Affine (ZMod p.value)} : E.Point → Option ℕ
  | .zero => none
  | .some x _ _ => some (x.val % n)

theorem pointNumber_neg (n : ℕ) (P : (shortCurve (a.value : ZMod p.value) b).Point) :
    pointNumber n (-P) = pointNumber n P := by
  cases P with
  | zero => rfl
  | some x y h => rfl

theorem Holds.ne_zero (h : Holds p N P) (hz : N.z.value = 1) : P ≠ 0 := by
  intro hP
  have hzero := h.zero_iff.mpr hP
  rw [hz, Nat.cast_one] at hzero
  exact one_ne_zero hzero

/-- The number of a point with affine coordinates. -/
theorem Holds.number (h : Holds p N P) (hz : N.z.value = 1) :
    pointNumber n.value P = some (N.x.value % n.value) := by
  have hone : (N.z.value : ZMod p.value) = 1 := by rw [hz, Nat.cast_one]
  obtain ⟨X, Y, hXY, rfl, hx, -⟩ := h.represents.coordinates (by rw [hone]; exact one_ne_zero)
  rw [hone, one_pow, mul_one] at hx
  rw [pointNumber, ← hx, ZMod.val_natCast, Nat.mod_eq_of_lt h.x]

/-! ### Affine coordinates -/

theorem ecpProj_holds (hg : g.Documented) (hW : 1 < W) (hl : 0 < l) (hfinds : g.FindsOne l)
    (hp : 3 < p.value) (h : Holds p N P) (hP : P ≠ 0) {fuel : ℕ} (hfuel : 2 * 2 ^ (W * l) ≤ fuel) :
    ∃ R, ecpProj g fuel N p = .ok R ∧ Holds p R P ∧ R.z.value = 1 := by
  have hprime : p.value.Prime := Fact.out
  have hodd : p.value % 2 = 1 := hprime.eq_two_or_odd.resolve_left (by omega)
  have hz : (N.z.value : ZMod p.value) ≠ 0 := fun hz => hP (h.zero_iff.mp hz)
  have hpos : 0 < N.z.value := by
    refine Nat.pos_of_ne_zero fun hzero => hz ?_
    rw [hzero, Nat.cast_zero]
  have hcoprime : Nat.Coprime N.z.value p.value :=
    (Nat.coprime_of_lt_prime hpos.ne' h.z hprime).symm
  have hsteps : N.z.value + p.value ≤ fuel := by
    have hsize := Limbs.value_lt N.z
    have hsize' := Limbs.value_lt p
    omega
  obtain ⟨t, heq, hlt, hinv⟩ := fpInv_spec hg hW hl hfinds hodd hprime.one_lt hpos hcoprime hsteps
  have hone : (t.value : ZMod p.value) * N.z.value = 1 := by
    rw [← Nat.cast_mul, ← Nat.cast_one, ZMod.natCast_eq_natCast_iff', hinv,
      Nat.mod_eq_of_lt hprime.one_lt]
  obtain ⟨X, Y, hXY, rfl, hx, hy⟩ := h.represents.coordinates hz
  have ht := Residue.of_lt hlt
  have ht1 := ht.sqr hg hW hl
  have hx' :=
    ((Residue.of_lt h.x).mul hg hW hl ht1).of_eq (y := X)
      (by rw [hx]; linear_combination (X * (t.value * N.z.value + 1)) * hone)
  have hy' := ((Residue.of_lt h.y).mul hg hW hl (ht.mul hg hW hl ht1)).of_eq (y := Y) (by
    rw [hy]
    linear_combination (Y * ((t.value * N.z.value) ^ 2 + t.value * N.z.value + 1)) * hone)
  refine ⟨_, by rw [ecpProj, heq]; rfl,
    .of_residues hx' hy' (.one hW hl hprime.one_lt) (represents_some hXY one_ne_zero ?_ ?_), ?_⟩
  · rw [one_pow, mul_one]
  · rw [one_pow, mul_one]
  · rw [Common.one, value_one hW hl]

/-- The point at infinity has none. -/
theorem ecpProj_zero (hg : g.Documented) (hl : 0 < l)
    (h : Holds p N (0 : (shortCurve (a.value : ZMod p.value) b).Point)) (fuel : ℕ) (R : Ecp W l) :
    ecpProj g fuel N p ≠ .ok R := by
  have hzero : N.z.value = 0 := by
    have hcast := h.zero_iff.mpr rfl
    rw [ZMod.natCast_eq_zero_iff] at hcast
    exact Nat.eq_zero_of_dvd_of_lt hcast h.z
  rw [ecpProj, fpInv, if_pos ((mpnZeroP_iff hg hl _).mpr hzero)]
  rintro ⟨⟩

/-! ### Multiples of an affine point -/

/-- What the routines are given: a point `G` of the curve, in affine coordinates and of an odd prime
    order `n`, for which subtracting `n` once reduces what is below `p`. -/
structure EcpDomain (p a n : Limbs W l) [Fact p.value.Prime] (b : ZMod p.value) (G : Ecp W l)
    (B : (shortCurve (a.value : ZMod p.value) b).Point) : Prop where
  three_lt : 3 < p.value
  a_lt : a.value < p.value
  holds : Holds p G B
  affine : G.z.value = 1
  prime : n.value.Prime
  odd : n.value % 2 = 1
  order : n.value • B = 0
  lt_twice : p.value < 2 * n.value

/-- One subtraction reduces a number below `2 * n`. -/
theorem ecpReduce_value (hg : g.Documented) (hl : 0 < l) {x : Limbs W l}
    (hx : x.value < 2 * n.value) : (ecpReduce g x n).value = x.value % n.value := by
  have hcmp := (hg.cmp hl x n).1
  rw [ecpReduce]
  split
  · next hge =>
    have hle : n.value ≤ x.value := Nat.not_lt.mp fun hlt => absurd (hcmp.mpr hlt) (by omega)
    rw [mpnSubN_value hg hl hle, Nat.mod_eq_sub_mod hle, Nat.mod_eq_of_lt (by omega)]
  · next hlt => rw [Nat.mod_eq_of_lt (hcmp.mp (by omega))]

theorem not_passes {n m : ℕ} (h : m ≤ n) : ¬ Passes n m := by
  rintro ⟨j, -, hlt, hdvd⟩
  have hle : m / 2 ^ j ≤ m := Nat.div_le_self m _
  have := Nat.le_of_dvd (by omega) hdvd
  omega

/-- The multiplier that is made of a reduced number and an inverse. -/
theorem fpMul_inverse (hg : g.Documented) (hW : 1 < W) (hl : 0 < l) (hn : n.value.Prime)
    {w x : Limbs W l} {s : ℕ} (hinv : w.value * s ≡ 1 [MOD n.value]) (hpos : 0 < x.value)
    (hlt : x.value < n.value) : 0 < (fpMul g x w n).value ∧ (fpMul g x w n).value < n.value ∧
      (fpMul g x w n).value ≡ x.value * w.value [MOD n.value] := by
  have hvalue := fpMul_value hg hW hl hlt w
  have hw : ¬ n.value ∣ w.value := fun hdvd => by
    have hzero : w.value * s ≡ 0 [MOD n.value] :=
      (Nat.modEq_zero_iff_dvd.mpr hdvd).mul_right s |>.trans (by rw [Nat.zero_mul])
    exact hn.one_lt.ne' (Nat.dvd_one.mp (Nat.modEq_zero_iff_dvd.mp (hinv.symm.trans hzero)))
  refine ⟨Nat.pos_of_ne_zero fun hzero => ?_,
    hvalue ▸ Nat.mod_lt _ hn.pos, by rw [Nat.ModEq, hvalue, Nat.mod_mod]⟩
  rw [hvalue] at hzero
  rcases hn.dvd_mul.mp (Nat.dvd_of_mod_eq_zero hzero) with hdvd | hdvd
  · exact Nat.not_dvd_of_pos_of_lt hpos hlt hdvd
  · exact hw hdvd

section

variable (hg : g.Documented) (hW : 1 < W) (hl : 0 < l) (hfinds : g.FindsOne l)
include hg hW hl hfinds

/-- A multiple of an affine point of prime order is right if the multiplier is
    reduced, and not zero. -/
theorem ecpMul_reduced (hd : EcpDomain p a n b G B) (hN : Holds p N P) (hz : N.z.value = 1)
    (hP : n.value • P = 0) (R S : Ecp W l) {k : Limbs W l} (hk : 0 < k.value)
    (hkn : k.value < n.value) : Holds p (ecpMul g R S k N a p) (k.value • P) := by
  have : Fact n.value.Prime := ⟨hd.prime⟩
  have horder : addOrderOf P = n.value := addOrderOf_eq_prime hP (hN.ne_zero hz)
  have hpass : ¬ Passes (addOrderOf P) k.value := by
    rw [horder]
    exact not_passes hkn.le
  exact ((ecpMul_affine hg hW hl hd.three_lt hd.a_lt hN
    ((mpnOneP_iff hg hW hl _).mpr ⟨hfinds, hz⟩) R S k).2 hk.ne').2 hpass

/-- If a multiple of `G` has affine coordinates, it is right. -/
theorem ecpProj_ecpMul (hd : EcpDomain p a n b G B) {fuel : ℕ} (hfuel : 2 * 2 ^ (W * l) ≤ fuel)
    {garbage : EcpGarbage W l} {k : Limbs W l} {R : Ecp W l} (hk : 0 < k.value)
    (h : ecpProj g fuel (ecpMul g garbage.r garbage.ss k G a p) p = .ok R) :
    Holds p R (k.value • B) ∧ R.z.value = 1 := by
  obtain ⟨hlost, hright⟩ :=
    (ecpMul_affine hg hW hl hd.three_lt hd.a_lt hd.holds
      ((mpnOneP_iff hg hW hl _).mpr ⟨hfinds, hd.affine⟩) garbage.r garbage.ss k).2 hk.ne'
  rcases Classical.em (Passes (addOrderOf B) k.value) with hpass | hpass
  · exact absurd h (ecpProj_zero hg hl (hlost hpass) fuel R)
  · have hholds := hright hpass
    have hfinite : k.value • B ≠ 0 := fun hzero => ecpProj_zero hg hl (hzero ▸ hholds) fuel R h
    obtain ⟨R', hR', hprops⟩ := ecpProj_holds hg hW hl hfinds hd.three_lt hholds hfinite hfuel
    obtain rfl : R' = R := Except.ok.inj (hR'.symm.trans h)
    exact hprops

/-! ### `ecp_verify` -/

/-- An inverse of a reduced number that is not zero. -/
theorem fpInv_prime (hn : n.value.Prime) (hodd : n.value % 2 = 1) {v : Limbs W l}
    (hpos : 0 < v.value) (hdvd : ¬ n.value ∣ v.value) {fuel : ℕ} (hfuel : 2 * 2 ^ (W * l) ≤ fuel) :
    ∃ w, fpInv g fuel v n = .ok w ∧ w.value < n.value ∧ w.value * v.value ≡ 1 [MOD n.value] := by
  have hcoprime : Nat.Coprime v.value n.value := (hn.coprime_iff_not_dvd.mpr hdvd).symm
  have hsteps : v.value + n.value ≤ fuel := by
    have hsize := Limbs.value_lt v
    have hsize' := Limbs.value_lt n
    omega
  obtain ⟨w, heq, hlt, hinv⟩ := fpInv_spec hg hW hl hfinds hodd hn.one_lt hpos hcoprime hsteps
  exact ⟨w, heq, hlt, by rw [Nat.ModEq, hinv, Nat.mod_eq_of_lt hn.one_lt]⟩

/-- The code accepts what the algorithm accepts. -/
theorem ecpVerify_spec (hd : EcpDomain p a n b G B) (hQ : Holds p Q P) (haff : Q.z.value = 1)
    (hP : n.value • P = 0) {fuel : ℕ} (hfuel : 2 * 2 ^ (W * l) ≤ fuel)
    (garbage1 garbage2 : EcpGarbage W l) {z : Limbs W l} (hz : 0 < z.value)
    (hzn : z.value < n.value) (r s : Limbs W l) :
    ∃ v, ecpVerify g fuel garbage1 garbage2 p a G n Q z r s = .ok v ∧
      (v = true ↔ Ecdsa.Accepts n.value B (pointNumber n.value) P z.value r.value s.value) := by
  have hrange : (g.mpnZeroP r ≠ 0 ∨ g.mpnZeroP s ≠ 0 ∨ g.mpnCmp r n ≥ 0 ∨ g.mpnCmp s n ≥ 0) ↔
      ¬ Ecdsa.Range n.value r.value s.value := by
    have hr := (hg.cmp hl r n).1
    have hs := (hg.cmp hl s n).1
    rw [mpnZeroP_iff hg hl, mpnZeroP_iff hg hl, ge_iff_le, ge_iff_le, ← not_lt, ← not_lt, hr, hs]
    constructor
    · rintro h ⟨hr, hrn, hs, hsn⟩
      omega
    · intro h
      by_contra hnot
      exact h ⟨by omega, by omega, by omega, by omega⟩
  rw [ecpVerify]
  split
  · next hbad => exact ⟨false, rfl, iff_of_false Bool.false_ne_true fun h => hrange.mp hbad h.1⟩
  next hgood =>
  have hok : Ecdsa.Range n.value r.value s.value := not_not.mp (mt hrange.mpr hgood)
  obtain ⟨w, hw, hwn, hinv⟩ :=
    fpInv_prime hg hW hl hfinds hd.prime hd.odd hok.s_pos
      (Nat.not_dvd_of_pos_of_lt hok.s_pos hok.s_lt) hfuel
  obtain ⟨hu1, hu1n, hmod1⟩ := fpMul_inverse hg hW hl hd.prime hinv hz hzn
  obtain ⟨hu2, hu2n, hmod2⟩ := fpMul_inverse hg hW hl hd.prime hinv hok.r_pos hok.r_lt
  have hleft :=
    ecpMul_reduced hg hW hl hfinds hd hd.holds hd.affine hd.order garbage1.r garbage1.ss hu1 hu1n
  have hright := ecpMul_reduced hg hW hl hfinds hd hQ haff hP garbage2.r garbage2.ss hu2 hu2n
  have hsum := ecpAdd_holds hg hW hl hd.three_lt hd.a_lt hleft hright
  rw [Ecdsa.nsmul_congr hd.order hmod1, Ecdsa.nsmul_congr hP hmod2] at hsum
  rw [Ecdsa.accepts_iff hd.order hP hinv, hw, and_iff_right hok]
  simp only [bind, Except.bind]
  split
  · next hzero =>
    rw [(Residue.of_lt hsum.z).zeroP hg hl, hsum.zero_iff] at hzero
    refine ⟨false, rfl, iff_of_false Bool.false_ne_true ?_⟩
    rw [hzero]
    rintro ⟨⟩
  · next hfinite =>
    rw [(Residue.of_lt hsum.z).zeroP hg hl, hsum.zero_iff] at hfinite
    obtain ⟨R, heq, hR, hone⟩ := ecpProj_holds hg hW hl hfinds hd.three_lt hsum hfinite hfuel
    have hreduce := ecpReduce_value hg hl (n := n) (hR.x.trans hd.lt_twice)
    rw [heq]
    refine ⟨_, rfl, ?_⟩
    rw [decide_eq_true_eq, (hg.cmp hl _ _).2, hreduce, hR.number hone, Option.some_inj]

/-! ### `ecp_sign` -/

/-- The signature of a turn is one of the algorithm, from the number that was drawn. -/
theorem ecpSignTurn_signs (hd : EcpDomain p a n b G B) {fuel : ℕ} (hfuel : 2 * 2 ^ (W * l) ≤ fuel)
    {d z k r s : Limbs W l} {garbage : EcpGarbage W l} (hzn : z.value < n.value)
    (h : ecpSignTurn g fuel p a G n d z k garbage = .ok (some (r, s))) :
    Ecdsa.Signs n.value B (pointNumber n.value) d.value z.value r.value s.value := by
  rw [ecpSignTurn] at h
  cases hproj : ecpProj g fuel (ecpMul g garbage.r garbage.ss k G a p) p with
  | error e =>
    rw [hproj] at h
    cases h
  | ok R =>
    rw [hproj] at h
    simp only [bind, Except.bind] at h
    split at h
    case isFalse => cases h
    next hr =>
    rcases Nat.eq_zero_or_pos k.value with hk | hk
    -- zero is drawn: the number is read from what was in the buffer, and then there is no inverse
    · rw [fpInv, if_pos ((mpnZeroP_iff hg hl k).mpr hk)] at h
      cases h
    obtain ⟨hR, haff⟩ := ecpProj_ecpMul hg hW hl hfinds hd hfuel hk hproj
    have hdvd : ¬ n.value ∣ k.value := by
      rintro ⟨m, hm⟩
      refine hR.ne_zero haff ?_
      rw [hm, mul_nsmul, hd.order, nsmul_zero]
    obtain ⟨w, hw, hwn, hinv⟩ := fpInv_prime hg hW hl hfinds hd.prime hd.odd hk hdvd hfuel
    have hreduce := ecpReduce_value hg hl (n := n) (hR.x.trans hd.lt_twice)
    have hrn : (ecpReduce g R.x n).value < n.value := hreduce ▸ Nat.mod_lt _ hd.prime.pos
    have hmul := fpMul_value hg hW hl hrn d
    have hadd := fpAdd_value hg hl hzn (hmul ▸ Nat.mod_lt _ hd.prime.pos)
    have hs := fpMul_value hg hW hl hwn (fpAdd g z (fpMul g (ecpReduce g R.x n) d n) n)
    rw [hw] at h
    simp only at h
    split at h
    case isFalse => cases h
    next hs0 =>
    obtain ⟨rfl, rfl⟩ := Prod.mk.inj (Option.some.inj (Except.ok.inj h))
    have hpos : ∀ v : Limbs W l, g.mpnZeroP v = 0 → 0 < v.value := fun v hv =>
      Nat.pos_of_ne_zero fun hzero => (mpnZeroP_iff hg hl v).mpr hzero hv
    refine ⟨⟨hpos _ hr, hrn, hpos _ hs0, hs ▸ Nat.mod_lt _ hd.prime.pos⟩, k.value, ?_, ?_⟩
    · rw [hR.number haff, hreduce]
    · rw [hs, hadd, hmul]
      calc k.value * (w.value *
        ((z.value + (ecpReduce g R.x n).value * d.value % n.value) % n.value) % n.value)
        _ ≡ k.value * (w.value * (z.value + (ecpReduce g R.x n).value * d.value))
            [MOD n.value] := by
          refine Nat.ModEq.mul_left _
            ((Nat.mod_modEq _ _).trans (Nat.ModEq.mul_left _ ((Nat.mod_modEq _ _).trans ?_)))
          exact Nat.ModEq.add_left _ (Nat.mod_modEq _ _)
        _ = w.value * k.value * (z.value + (ecpReduce g R.x n).value * d.value) := by ring
        _ ≡ z.value + (ecpReduce g R.x n).value * d.value [MOD n.value] := by
          simpa using hinv.mul_right _

theorem ecpSign_signs (hd : EcpDomain p a n b G B) {fuel : ℕ} (hfuel : 2 * 2 ^ (W * l) ≤ fuel)
    {d z r s : Limbs W l} (hzn : z.value < n.value) : ∀ random : List (Limbs W l × EcpGarbage W l),
    ecpSign g fuel p a G n d z random = .ok (some (r, s)) →
      Ecdsa.Signs n.value B (pointNumber n.value) d.value z.value r.value s.value
  | [], h => by cases h
  | (k, garbage) :: random, h => by
    rw [ecpSign] at h
    cases hturn : ecpSignTurn g fuel p a G n d z k garbage with
    | error e =>
      rw [hturn] at h
      cases h
    | ok o =>
      rw [hturn] at h
      cases o with
      | none => exact ecpSign_signs hd hfuel hzn random h
      | some signature =>
        obtain rfl : signature = (r, s) := Option.some.inj (Except.ok.inj h)
        exact ecpSignTurn_signs hg hW hl hfinds hd hfuel hzn hturn

/-- A number that the order does not divide, and that no beginning of it passes,
    has a finite multiple. -/
theorem ecpProj_multiple (hd : EcpDomain p a n b G B) {fuel : ℕ} (hfuel : 2 * 2 ^ (W * l) ≤ fuel)
    (garbage : EcpGarbage W l) {k : Limbs W l} (hdvd : ¬ n.value ∣ k.value)
    (hpass : ¬ Passes n.value k.value) :
    ∃ R, ecpProj g fuel (ecpMul g garbage.r garbage.ss k G a p) p = .ok R := by
  have : Fact n.value.Prime := ⟨hd.prime⟩
  have horder : addOrderOf B = n.value := addOrderOf_eq_prime hd.order (hd.holds.ne_zero hd.affine)
  have hk : k.value ≠ 0 := fun hzero => hdvd (hzero ▸ dvd_zero _)
  have hholds :=
    ((ecpMul_affine hg hW hl hd.three_lt hd.a_lt hd.holds
      ((mpnOneP_iff hg hW hl _).mpr ⟨hfinds, hd.affine⟩) garbage.r garbage.ss k).2 hk).2
      (horder.symm ▸ hpass)
  have hfinite : k.value • B ≠ 0 :=
    fun hzero => hdvd (horder ▸ addOrderOf_dvd_of_nsmul_eq_zero hzero)
  obtain ⟨R, hR, -⟩ := ecpProj_holds hg hW hl hfinds hd.three_lt hholds hfinite hfuel
  exact ⟨R, hR⟩

/-- With such numbers nothing is thrown. -/
theorem ecpSign_ok (hd : EcpDomain p a n b G B) {fuel : ℕ} (hfuel : 2 * 2 ^ (W * l) ≤ fuel)
    (d z : Limbs W l) :
    ∀ random : List (Limbs W l × EcpGarbage W l),
      (∀ t ∈ random, ¬ n.value ∣ t.1.value ∧ ¬ Passes n.value t.1.value) →
      ∃ o, ecpSign g fuel p a G n d z random = .ok o
  | [], _ => ⟨none, rfl⟩
  | (k, garbage) :: random, h => by
    obtain ⟨hdvd, hpass⟩ := h _ List.mem_cons_self
    obtain ⟨R, hR⟩ := ecpProj_multiple hg hW hl hfinds hd hfuel garbage hdvd hpass
    have hk : 0 < k.value := Nat.pos_of_ne_zero fun hzero => hdvd (hzero ▸ dvd_zero _)
    obtain ⟨w, hw, -⟩ := fpInv_prime hg hW hl hfinds hd.prime hd.odd hk hdvd hfuel
    obtain ⟨o, ho⟩ := ecpSign_ok hd hfuel d z random fun t ht => h t (List.mem_cons_of_mem _ ht)
    have hturn : ∃ o', ecpSignTurn g fuel p a G n d z k garbage = .ok o' := by
      rw [ecpSignTurn, hR]
      simp only [bind, Except.bind, hw]
      split
      · split
        · exact ⟨_, rfl⟩
        · exact ⟨_, rfl⟩
      · exact ⟨_, rfl⟩
    obtain ⟨o', ho'⟩ := hturn
    rw [ecpSign, ho']
    cases o' with
    | none => exact ⟨o, ho⟩
    | some signature => exact ⟨_, rfl⟩

end

/-! ### Keys, signatures and their check -/

/-- With a private key that is reduced and not zero there is a public key; signing throws nothing
    unless a number is drawn that the order divides or that passes it; and whatever is drawn, what
    is signed is accepted. -/
theorem ecpSign_ecpVerify (hg : g.Documented) (hW : 1 < W) (hl : 1 < l)
    (hd : EcpDomain p a n b G B) {fuel : ℕ} (hfuel : 2 * 2 ^ (W * l) ≤ fuel) {d z : Limbs W l}
    (hd0 : 0 < d.value) (hdn : d.value < n.value) (hz : 0 < z.value) (hzn : z.value < n.value)
    (garbage : EcpGarbage W l) :
    ∃ Q, ecpPubkey g fuel garbage p a G d = .ok Q ∧ ∀ random : List (Limbs W l × EcpGarbage W l),
      ((∀ t ∈ random, ¬ n.value ∣ t.1.value ∧ ¬ Passes n.value t.1.value) →
        ∃ o, ecpSign g fuel p a G n d z random = .ok o) ∧
      ∀ r s, ecpSign g fuel p a G n d z random = .ok (some (r, s)) → ∀ garbage1 garbage2,
        ecpVerify g fuel garbage1 garbage2 p a G n Q z r s = .ok true := by
  obtain ⟨Q, hpub⟩ :=
    ecpProj_multiple hg hW hl.le (.inl hl) hd hfuel garbage (Nat.not_dvd_of_pos_of_lt hd0 hdn)
      (not_passes hdn.le)
  obtain ⟨hQ, haff⟩ := ecpProj_ecpMul hg hW hl.le (.inl hl) hd hfuel hd0 hpub
  have horder : n.value • d.value • B = 0 := by rw [nsmul_left_comm, hd.order, nsmul_zero]
  refine ⟨Q, hpub, fun random => ⟨ecpSign_ok hg hW hl.le (.inl hl) hd hfuel d z random, ?_⟩⟩
  intro r s hsign garbage1 garbage2
  obtain ⟨v, hv, hiff⟩ :=
    ecpVerify_spec hg hW hl.le (.inl hl) hd hQ haff horder hfuel garbage1 garbage2 hz hzn r s
  rw [hv, hiff.mpr
    ((ecpSign_signs hg hW hl.le (.inl hl) hd hfuel hzn random hsign).accepts hd.prime hd.order)]

/-- The code accepts what the algorithm accepts, and with a signature also the one with the opposite
    of `s`, whatever is in the buffers. -/
theorem ecpVerify_iff (hg : g.Documented) (hW : 1 < W) (hl : 1 < l) (hd : EcpDomain p a n b G B)
    (hQ : Holds p Q P) (haff : Q.z.value = 1) (hP : n.value • P = 0) {fuel : ℕ}
    (hfuel : 2 * 2 ^ (W * l) ≤ fuel) {z : Limbs W l} (hz : 0 < z.value) (hzn : z.value < n.value)
    (r s : Limbs W l) :
    (∀ garbage1 garbage2, ∃ v, ecpVerify g fuel garbage1 garbage2 p a G n Q z r s = .ok v ∧
      (v = true ↔ Ecdsa.Accepts n.value B (pointNumber n.value) P z.value r.value s.value)) ∧
    ∀ s' : Limbs W l, s.value + s'.value = n.value → ∀ garbage1 garbage2,
      ecpVerify g fuel garbage1 garbage2 p a G n Q z r s' =
        ecpVerify g fuel garbage1 garbage2 p a G n Q z r s := by
  refine ⟨fun garbage1 garbage2 => ecpVerify_spec hg hW hl.le
    (.inl hl) hd hQ haff hP hfuel garbage1 garbage2 hz hzn r s, ?_⟩
  intro s' hs' garbage1 garbage2
  obtain ⟨v, hv, hiff⟩ :=
    ecpVerify_spec hg hW hl.le (.inl hl) hd hQ haff hP hfuel garbage1 garbage2 hz hzn r s
  obtain ⟨v', hv', hiff'⟩ :=
    ecpVerify_spec hg hW hl.le (.inl hl) hd hQ haff hP hfuel garbage1 garbage2 hz hzn r s'
  have hneg : ∀ P : (shortCurve (a.value : ZMod p.value) b).Point, pointNumber n.value (-P) =
      pointNumber n.value P :=
    pointNumber_neg n.value
  have hs : n.value - s.value = s'.value := by omega
  have hs'' : n.value - s'.value = s.value := by omega
  have hsame : v' = v := by
    rw [Bool.eq_iff_iff, hiff, hiff']
    constructor
    · intro h
      exact hs'' ▸ Ecdsa.accepts_mirror hd.order hP hneg h
    · intro h
      exact hs ▸ Ecdsa.accepts_mirror hd.order hP hneg h
  rw [hv, hv', hsame]

/-! ### A small curve of prime order -/

def seven : Limbs 64 2 := limbs 7

theorem seven_value : seven.value = 7 := limbs_value (by decide)

/-- The point `(0, 1)` of the curve `y² = x³ + 2 x + 1` over the field of five
    elements has order seven. -/
theorem seven_domain : ∃ B : (shortCurve ((limbs 2).value : ZMod five.value) 1).Point,
    EcpDomain five (limbs 2) seven 1 ⟨limbs 0, limbs 1, limbs 1⟩ B := by
  have hg := Gmp.since601_documented (W := 64) (by decide)
  have h0 : ((limbs 0).value : ZMod five.value) = 0 := by
    rw [limbs_value (n := 0) (by decide), Nat.cast_zero]
  have h1 : ((limbs 1).value : ZMod five.value) = 1 := by
    rw [limbs_value (n := 1) (by decide), Nat.cast_one]
  have hns : (shortCurve ((limbs 2).value : ZMod five.value) 1).Nonsingular 0 1 := by
    rw [WeierstrassCurve.Affine.nonsingular_iff, WeierstrassCurve.Affine.equation_iff]
    refine ⟨by simp [shortCurve], Or.inr ?_⟩
    simp only [shortCurve]
    intro h
    exact two_residue_ne_zero (by rw [five_value]; decide) (by linear_combination h)
  have hlt (n : ℕ) (h : n < 5) : (limbs n).value < five.value := by
    rwa [limbs_value (by omega), five_value]
  have hB : Holds five ⟨limbs 0, limbs 1, limbs 1⟩ (.some 0 1 hns) := by
    refine ⟨hlt 0 (by decide), hlt 1 (by decide), hlt 1 (by decide), represents_some hns ?_ ?_ ?_⟩
    · rw [h1]
      exact one_ne_zero
    · rw [h0, zero_mul]
    · rw [h1, one_pow, one_mul]
  have hfive : 3 < five.value := by
    rw [five_value]
    decide
  have ha : (limbs 2).value < five.value := hlt 2 (by decide)
  have h2B := ecpDbl_holds hg (by decide) (by decide) hfive ha hB
  have h3B := ecpAdd_holds hg (by decide) (by decide) hfive ha h2B hB
  have h6B := ecpDbl_holds hg (by decide) (by decide) hfive ha h3B
  have h7B := ecpAdd_holds hg (by decide) (by decide) hfive ha h6B hB
  refine ⟨.some 0 1 hns, hfive, ha, hB, limbs_value (by decide), ?_, ?_, ?_, ?_⟩
  · rw [seven_value]
    decide
  · rw [seven_value]
  · have hzero := h7B.zero_iff.mp (by decide +kernel)
    rw [seven_value, ← hzero]
    abel
  · rw [seven_value, five_value]
    decide

/-- The private key three, and four to be signed. -/
theorem ecpSign_ecpVerify_three :
    ∃ Q, ecpPubkey (Gmp.since601 64) (2 * 2 ^ 128)
        ⟨⟨limbs 0, limbs 0, limbs 0⟩, ⟨limbs 0, limbs 0, limbs 0⟩⟩ five (limbs 2)
        ⟨limbs 0, limbs 1, limbs 1⟩ (limbs 3) = .ok Q ∧
      ∀ random : List (Limbs 64 2 × EcpGarbage 64 2),
        ((∀ t ∈ random, ¬ seven.value ∣ t.1.value ∧ ¬ Passes seven.value t.1.value) →
          ∃ o, ecpSign (Gmp.since601 64) (2 * 2 ^ 128) five (limbs 2) ⟨limbs 0, limbs 1, limbs 1⟩
            seven (limbs 3) (limbs 4) random = .ok o) ∧
        ∀ r s, ecpSign (Gmp.since601 64) (2 * 2 ^ 128) five (limbs 2) ⟨limbs 0, limbs 1, limbs 1⟩
            seven (limbs 3) (limbs 4) random = .ok (some (r, s)) →
          ∀ garbage1 garbage2, ecpVerify (Gmp.since601 64) (2 * 2 ^ 128) garbage1 garbage2 five
            (limbs 2) ⟨limbs 0, limbs 1, limbs 1⟩ seven Q (limbs 4) r s = .ok true := by
  obtain ⟨B, hB⟩ := seven_domain
  have h3 : (limbs 3).value = 3 := limbs_value (by decide)
  have h4 : (limbs 4).value = 4 := limbs_value (by decide)
  exact ecpSign_ecpVerify (Gmp.since601_documented (by decide)) (by decide) (by decide) hB
    (Nat.le_refl _) (by omega) (by rw [h3, seven_value]; decide) (by omega)
    (by rw [h4, seven_value]; decide) _

/-- Under the public key of one. -/
theorem ecpVerify_iff_one : ∃ B : (shortCurve ((limbs 2).value : ZMod five.value) 1).Point,
    (∀ garbage1 garbage2, ∃ v, ecpVerify (Gmp.since601 64) (2 * 2 ^ 128) garbage1 garbage2 five
        (limbs 2) ⟨limbs 0, limbs 1, limbs 1⟩ seven ⟨limbs 0, limbs 1, limbs 1⟩ (limbs 4) (limbs 1)
        (limbs 2) = .ok v ∧
      (v = true ↔ Ecdsa.Accepts seven.value B (pointNumber seven.value) B (limbs 4).value
        (limbs 1).value (limbs 2).value)) ∧
    ∀ s' : Limbs 64 2, (limbs 2).value + s'.value = seven.value → ∀ garbage1 garbage2,
      ecpVerify (Gmp.since601 64) (2 * 2 ^ 128) garbage1 garbage2 five (limbs 2)
          ⟨limbs 0, limbs 1, limbs 1⟩ seven ⟨limbs 0, limbs 1, limbs 1⟩ (limbs 4) (limbs 1) s' =
        ecpVerify (Gmp.since601 64) (2 * 2 ^ 128) garbage1 garbage2 five (limbs 2)
          ⟨limbs 0, limbs 1, limbs 1⟩ seven ⟨limbs 0, limbs 1, limbs 1⟩ (limbs 4) (limbs 1)
          (limbs 2) := by
  obtain ⟨B, hB⟩ := seven_domain
  have h4 : (limbs 4).value = 4 := limbs_value (by decide)
  exact ⟨B,
    ecpVerify_iff (Gmp.since601_documented (by decide)) (by decide)
    (by decide) hB hB.holds hB.affine hB.order (Nat.le_refl _) (by omega)
    (by rw [h4, seven_value]; decide) (limbs 1) (limbs 2)⟩

end Matching.Common
