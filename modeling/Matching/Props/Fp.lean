import Matching.Common.Fp
import Mathlib.Data.ZMod.Basic
import Mathlib.Tactic.LinearCombination

/-! Arithmetic modulo `p` computes what it should: every intermediate result is below `p`, with the
    carry out of the top limb counted in, the ladder keeps two powers that follow each other, and
    the two numbers of an inversion become smaller together. -/

namespace Matching.Common

variable {W l : ℕ} {g : Gmp W}

/-! ### Limbs -/

theorem toNat_one (hW : 1 < W) : (1 : BitVec W).toNat = 1 := by
  have h : (1 : BitVec W).toNat = 1 % 2 ^ W := rfl
  rw [h, Nat.mod_eq_of_lt (Nat.one_lt_two_pow (by omega))]

theorem mpnZeroP_iff (hg : g.Documented) (hl : 0 < l) (n : Limbs W l) :
    g.mpnZeroP n ≠ 0 ↔ n.value = 0 := by
  rw [hg.zeroP hl]
  split
  · next h => exact iff_of_true one_ne_zero h
  · next h => exact iff_of_false (not_not_intro rfl) h

/-- What `mpn_one_p` finds is one. -/
theorem value_of_mpnOneP (hg : g.Documented) (hW : 1 < W) {n : Limbs W l} (h : mpnOneP g n = true) :
    n.value = 1 := by
  rw [mpnOneP, decide_eq_true_eq] at h
  obtain ⟨hl, hone, hz⟩ := h
  have hrest : Limbs.value n.tail = 0 := by
    rcases Nat.eq_zero_or_pos (l - 1) with hnone | hmore
    · have hlt := Limbs.value_lt n.tail
      have hpow : 2 ^ (W * (l - 1)) = 1 := by rw [hnone, Nat.mul_zero, Nat.pow_zero]
      omega
    · exact (mpnZeroP_iff hg hmore _).mp hz
  rw [Limbs.value_low n hl, hone, toNat_one hW, hrest, Nat.mul_zero]

theorem mpnOneP_of_value (hg : g.Documented) (hW : 1 < W) (hl : 0 < l) (hfinds : g.FindsOne l)
    {n : Limbs W l} (h : n.value = 1) :
    mpnOneP g n = true := by
  have hlow := Limbs.value_low n hl
  have hpow : 1 < 2 ^ W := Nat.one_lt_two_pow (by omega)
  have hrest : Limbs.value n.tail = 0 := by
    by_contra hne
    have := Nat.le_mul_of_pos_right (2 ^ W) (Nat.pos_of_ne_zero hne)
    omega
  have hz : g.mpnZeroP n.tail ≠ 0 := by
    rcases Nat.eq_or_lt_of_le (Nat.succ_le_of_lt hl) with rfl | hmore
    · have hempty : n.tail = Limbs.zero W 0 := Vector.ext fun i hi => absurd hi (Nat.not_lt_zero i)
      rw [hempty]
      exact hfinds.resolve_left (Nat.lt_irrefl 1)
    · exact (mpnZeroP_iff hg (by omega) _).mpr hrest
  rw [mpnOneP, decide_eq_true_eq]
  refine ⟨hl, BitVec.eq_of_toNat_eq ?_, hz⟩
  rw [toNat_one hW, ← h, hlow, hrest, Nat.mul_zero, Nat.add_zero]

theorem mpnOneP_false (hl : 0 < l) (hfinds : ¬ g.FindsOne l) (n : Limbs W l) :
    mpnOneP g n = false := by
  obtain ⟨hle, hnone⟩ := not_or.mp hfinds
  obtain rfl : l = 1 := by omega
  have hempty : n.tail = Limbs.zero W 0 := Vector.ext fun i hi => absurd hi (Nat.not_lt_zero i)
  rw [mpnOneP, decide_eq_false_iff_not]
  rintro ⟨-, -, hz⟩
  rw [hempty] at hz
  exact hnone hz

theorem mpnOneP_iff (hg : g.Documented) (hW : 1 < W) (hl : 0 < l) (n : Limbs W l) :
    mpnOneP g n = true ↔ g.FindsOne l ∧ n.value = 1 := by
  refine ⟨fun h => ⟨?_, value_of_mpnOneP hg hW h⟩,
    fun ⟨hfinds, h⟩ => mpnOneP_of_value hg hW hl hfinds h⟩
  by_contra hfinds
  exact Bool.false_ne_true ((mpnOneP_false hl hfinds n).symm.trans h)

theorem mpnEvenP_iff (hW : 1 < W) (hl : 0 < l) (n : Limbs W l) :
    mpnEvenP n = true ↔ n.value % 2 = 0 := by
  have hlow : n.value % 2 = n[0].toNat % 2 := by
    obtain ⟨k, rfl⟩ : ∃ k, W = k + 1 := ⟨W - 1, by omega⟩
    rw [Limbs.value_low n hl, Nat.pow_succ, Nat.mul_right_comm, Nat.add_mul_mod_self_right]
  rw [mpnEvenP, decide_eq_true_eq, hlow, forall_prop_of_true hl, ← BitVec.toNat_inj,
    BitVec.toNat_and, toNat_one hW, Nat.and_one_is_mod]
  rfl

/-- A number that does not fit leaves its rest, and a carry just when it does not fit. -/
theorem carry_spec {b X r c : ℕ} (h : r + b * c = X) (hr : r < b) :
    r = X % b ∧ (c ≠ 0 ↔ b ≤ X) := by
  subst h
  refine ⟨by rw [Nat.add_mul_mod_self_left, Nat.mod_eq_of_lt hr], ?_⟩
  rcases Nat.eq_zero_or_pos c with rfl | hc
  · simp only [ne_eq, not_true_eq_false, false_iff]
    omega
  · have := Nat.le_mul_of_pos_right b hc
    exact iff_of_true hc.ne' (by omega)

/-- A difference below zero comes around, with a borrow. -/
theorem borrow_spec {b x y r c : ℕ} (h : r + y = x + b * c) (hr : r < b) (hy : y < b) :
    r = (x + b - y) % b ∧ (c ≠ 0 ↔ x < y) := by
  match c, h with
  | 0, h =>
    have hsum : x + b - y = r + b := by omega
    rw [hsum, Nat.add_mod_right, Nat.mod_eq_of_lt hr]
    exact ⟨rfl, iff_of_false (not_not_intro rfl) (by omega)⟩
  | 1, h =>
    have hsum : x + b - y = r := by omega
    rw [hsum, Nat.mod_eq_of_lt hr]
    exact ⟨rfl, iff_of_true one_ne_zero (by omega)⟩
  | c + 2, h =>
    have : b * (c + 2) = b * c + 2 * b := by ring
    omega

theorem toNat_ne_zero (c : BitVec W) : c ≠ 0 ↔ c.toNat ≠ 0 := by
  rw [ne_eq, ← BitVec.toNat_inj]
  rfl

theorem mpnAddN_spec (hg : g.Documented) (hl : 0 < l) (s1 s2 : Limbs W l) :
    (g.mpnAddN s1 s2).1.value = (s1.value + s2.value) % 2 ^ (W * l) ∧
      ((g.mpnAddN s1 s2).2 ≠ 0 ↔ 2 ^ (W * l) ≤ s1.value + s2.value) := by
  rw [toNat_ne_zero]
  exact carry_spec (hg.addN hl s1 s2) (Limbs.value_lt _)

theorem mpnLshift_spec (hg : g.Documented) (hW : 1 < W) (hl : 0 < l) (s : Limbs W l) :
    (g.mpnLshift s 1).1.value = (s.value + s.value) % 2 ^ (W * l) ∧
      ((g.mpnLshift s 1).2 ≠ 0 ↔ 2 ^ (W * l) ≤ s.value + s.value) := by
  rw [toNat_ne_zero]
  refine carry_spec ((hg.lshift hl s 1 Nat.one_pos hW).trans ?_) (Limbs.value_lt _)
  omega

theorem mpnSubN_spec (hg : g.Documented) (hl : 0 < l) (s1 s2 : Limbs W l) :
    (g.mpnSubN s1 s2).1.value = (s1.value + 2 ^ (W * l) - s2.value) % 2 ^ (W * l) ∧
      ((g.mpnSubN s1 s2).2 ≠ 0 ↔ s1.value < s2.value) := by
  rw [toNat_ne_zero]
  exact borrow_spec (hg.subN hl s1 s2) (Limbs.value_lt _) (Limbs.value_lt _)

/-- What is done behind an addition: `p` is taken off once if the sum is not below it. -/
theorem reduce_spec (hg : g.Documented) (hl : 0 < l) {r p : Limbs W l} {c : BitVec W} {X : ℕ}
    (hr : r.value = X % 2 ^ (W * l)) (hc : c ≠ 0 ↔ 2 ^ (W * l) ≤ X) (hX : X < 2 * p.value) :
    (if c ≠ 0 ∨ g.mpnCmp r p ≥ 0 then (g.mpnSubN r p).1 else r).value = X % p.value := by
  have hp := p.value_lt
  have hcmp : g.mpnCmp r p ≥ 0 ↔
    p.value ≤ r.value := by rw [ge_iff_le, ← not_lt, (hg.cmp hl r p).1, not_lt]
  simp only [hc, hcmp]
  rcases Nat.lt_or_ge X (2 ^ (W * l)) with hfit | hover
  · rw [Nat.mod_eq_of_lt hfit] at hr
    rcases Nat.lt_or_ge X p.value with hlt | hge
    · rw [if_neg (by omega), hr, Nat.mod_eq_of_lt hlt]
    · have hmod : X % p.value = X - p.value := by
        rw [Nat.mod_eq_sub_mod hge, Nat.mod_eq_of_lt (by omega)]
      rw [if_pos (by omega), (mpnSubN_spec hg hl r p).1, hr, Nat.sub_add_comm hge,
        Nat.add_mod_right, Nat.mod_eq_of_lt (by omega), hmod]
  · have hmod : X % p.value = X - p.value := by
      rw [Nat.mod_eq_sub_mod (by omega), Nat.mod_eq_of_lt (by omega)]
    rw [Nat.mod_eq_sub_mod hover, Nat.mod_eq_of_lt (by omega)] at hr
    rw [if_pos (Or.inl hover), (mpnSubN_spec hg hl r p).1, hr, Nat.sub_add_cancel hover,
      Nat.mod_eq_of_lt (by omega), hmod]

theorem fpAdd_value (hg : g.Documented) (hl : 0 < l) {n1 n2 p : Limbs W l}
    (h1 : n1.value < p.value) (h2 : n2.value < p.value) :
    (fpAdd g n1 n2 p).value = (n1.value + n2.value) % p.value := by
  obtain ⟨hr, hc⟩ := mpnAddN_spec hg hl n1 n2
  exact reduce_spec hg hl hr hc (by omega)

theorem fpDbl_value (hg : g.Documented) (hW : 1 < W) (hl : 0 < l) {n p : Limbs W l}
    (h : n.value < p.value) :
    (fpDbl g n p).value = (n.value + n.value) % p.value := by
  obtain ⟨hr, hc⟩ := mpnLshift_spec hg hW hl n
  exact reduce_spec hg hl hr hc (by omega)

theorem fpSub_value (hg : g.Documented) (hl : 0 < l) {n1 n2 p : Limbs W l}
    (h1 : n1.value < p.value) (h2 : n2.value < p.value) :
    (fpSub g n1 n2 p).value = (n1.value + p.value - n2.value) % p.value := by
  have hp := p.value_lt
  obtain ⟨hr, hc⟩ := mpnSubN_spec hg hl n1 n2
  rw [fpSub]
  simp only [hc]
  rcases Nat.lt_or_ge n1.value n2.value with hlt | hge
  · rw [Nat.mod_eq_of_lt (by omega)] at hr
    have hsum : n1.value + 2 ^ (W * l) - n2.value + p.value = n1.value + p.value - n2.value + 2 ^
      (W * l) := by omega
    rw [if_pos hlt, (mpnAddN_spec hg hl _ p).1, hr, hsum, Nat.add_mod_right,
      Nat.mod_eq_of_lt (by omega), Nat.mod_eq_of_lt (by omega)]
  · rw [Nat.sub_add_comm hge, Nat.add_mod_right, Nat.mod_eq_of_lt (by omega)] at hr
    rw [if_neg (by omega), hr, Nat.sub_add_comm hge, Nat.add_mod_right, Nat.mod_eq_of_lt (by omega)]

/-! ### Products and powers -/

theorem fpMul_value (hg : g.Documented) (hW : 1 < W) (hl : 0 < l) {n1 p : Limbs W l}
    (h1 : n1.value < p.value) (n2 : Limbs W l) :
    (fpMul g n1 n2 p).value = n1.value * n2.value % p.value := by
  have hpos : 0 < p.value := by omega
  have h := bitLoop_induct (f := fpMulTurn g n1 p) (n := n2) (s := (Limbs.zero W l, false))
    (P := fun m s => s.1.value = n1.value * m % p.value ∧ (s.2 = false → m = 0)) ?_
      ⟨by simp, fun _ => rfl⟩
  · exact h.1
  · rintro m ⟨r, active⟩ b ⟨hr, hactive⟩
    have hdbl : (if active then fpDbl g r p else r).value = n1.value * (2 * m) % p.value := by
      cases active with
      | false =>
        rw [hactive rfl] at hr ⊢
        exact hr
      | true =>
        rw [if_pos rfl, fpDbl_value hg hW hl (hr ▸ Nat.mod_lt _ hpos), hr, ← Nat.add_mod]
        congr 1
        ring
    cases b with
    | false => exact ⟨hdbl, fun h => by rw [hactive h]; rfl⟩
    | true =>
      refine ⟨?_, fun h => by cases h⟩
      refine (fpAdd_value hg hl (hdbl ▸ Nat.mod_lt _ hpos) h1).trans ?_
      rw [hdbl, Nat.mod_add_mod]
      rfl

theorem fpSqr_value (hg : g.Documented) (hW : 1 < W) (hl : 0 < l) {n p : Limbs W l}
    (h : n.value < p.value) :
    (fpSqr g n p).value = n.value * n.value % p.value :=
  fpMul_value hg hW hl h n

/-- The pointers are apart, and the powers with exponents `k` and `k + 1` are in the
    buffers `r` and `n2`, where `k` is the part `m` of the exponent that is read, or one
    as long as that has no bits. -/
structure Ladder.Holds (n p : Limbs W l) (m : ℕ) (s : Ladder W l) : Prop where
  r_n2 : s.r ≠ s.n2
  r_t : s.r ≠ s.t
  n2_t : s.n2 ≠ s.t
  r : (s.mem s.r).value = n.value ^ (if s.active then m else 1) % p.value
  n2 : (s.mem s.n2).value = n.value ^ ((if s.active then m else 1) + 1) % p.value
  idle : s.active = false → m = 0

/-- A bit that is set: the product becomes `r` and the square of `n2` the new `n2`. -/
theorem Ladder.Holds.odd {n p : Limbs W l} {m : ℕ} {s : Ladder W l} (hg : g.Documented)
    (hW : 1 < W) (hl : 0 < l) (hp : 0 < p.value) (h : s.Holds n p m) (hs : s.active = true) :
    (fpPowTurn g p s true).Holds n p (2 * m + 1) := by
  have hr := h.r
  have hn2 := h.n2
  rw [if_pos hs] at hr hn2
  have hprod := fpMul_value hg hW hl (hr ▸ Nat.mod_lt _ hp) (s.mem s.n2)
  have hsqr := fpSqr_value hg hW hl (n := s.mem s.n2) (hn2 ▸ Nat.mod_lt _ hp)
  rw [hr, hn2, ← Nat.mul_mod, ← Nat.pow_add, ← Nat.add_assoc, ← Nat.two_mul] at hprod
  rw [hn2, ← Nat.mul_mod, ← Nat.pow_add, Nat.add_add_add_comm, ← Nat.two_mul] at hsqr
  rw [fpPowTurn, if_pos rfl, if_pos hs]
  refine ⟨h.r_t.symm, h.n2_t.symm, h.r_n2, ?_, ?_,
    fun hidle => absurd (hs.symm.trans hidle) (by decide)⟩
  · simpa [Ladder.store, Ladder.swapR, Ladder.swapN2, hs, h.r_t.symm] using hprod
  · simpa [Ladder.store, Ladder.swapR, Ladder.swapN2, hs, h.n2_t] using hsqr

/-- A bit that is not set: the product becomes `n2` and the square of `r` the new `r`. -/
theorem Ladder.Holds.even {n p : Limbs W l} {m : ℕ} {s : Ladder W l} (hg : g.Documented)
    (hW : 1 < W) (hl : 0 < l) (hp : 0 < p.value) (h : s.Holds n p m) (hs : s.active = true) :
    (fpPowTurn g p s false).Holds n p (2 * m) := by
  have hr := h.r
  have hn2 := h.n2
  rw [if_pos hs] at hr hn2
  have hprod := fpMul_value hg hW hl (hn2 ▸ Nat.mod_lt _ hp) (s.mem s.r)
  have hsqr := fpSqr_value hg hW hl (n := s.mem s.r) (hr ▸ Nat.mod_lt _ hp)
  rw [hr, hn2, ← Nat.mul_mod, ← Nat.pow_add, Nat.add_right_comm, ← Nat.two_mul] at hprod
  rw [hr, ← Nat.mul_mod, ← Nat.pow_add, ← Nat.two_mul] at hsqr
  rw [fpPowTurn, if_neg (by decide), if_pos hs]
  refine ⟨h.n2_t, h.r_n2.symm, h.r_t.symm, ?_, ?_,
    fun hidle => absurd (hs.symm.trans hidle) (by decide)⟩
  · simpa [Ladder.store, Ladder.swapR, Ladder.swapN2, hs, h.r_t] using hsqr
  · simpa [Ladder.store, Ladder.swapR, Ladder.swapN2, hs, h.n2_t.symm] using hprod

/-- Before the first bit that is set nothing moves. -/
theorem Ladder.Holds.first {n p : Limbs W l} {m : ℕ} {s : Ladder W l} (h : s.Holds n p m)
    (hs : s.active = false) (b : Bool) :
    (fpPowTurn g p s b).Holds n p (2 * m + b.toNat) := by
  obtain ⟨h1, h2, h3, hr, hn2, hidle⟩ := h
  have hm := hidle hs
  subst hm
  cases b with
  | true =>
    rw [fpPowTurn, if_pos rfl, if_neg (by simp [hs])]
    exact ⟨h1, h2, h3, by simpa [hs] using hr, by simpa [hs] using hn2, fun h => by cases h⟩
  | false =>
    rw [fpPowTurn, if_neg (by decide), if_neg (by simp [hs])]
    exact ⟨h1, h2, h3, hr, hn2, fun _ => rfl⟩

theorem Ladder.Holds.turn {n p : Limbs W l} {m : ℕ} {s : Ladder W l} (hg : g.Documented)
    (hW : 1 < W) (hl : 0 < l) (hp : 0 < p.value) (h : s.Holds n p m) (b : Bool) :
    (fpPowTurn g p s b).Holds n p (2 * m + b.toNat) := by
  rcases Bool.eq_false_or_eq_true s.active with hs | hs
  · cases b with
    | true => exact h.odd hg hW hl hp hs
    | false => exact h.even hg hW hl hp hs
  · exact h.first hs b

theorem Ladder.Holds.start (hg : g.Documented) (hW : 1 < W) (hl : 0 < l)
    (mem : Buffer → Limbs W l) {n p : Limbs W l} (hn : n.value < p.value) :
    Ladder.Holds n p 0
      ⟨Function.update (Function.update mem .r_ n) .n2_ (fpSqr g n p), .r_, .n2_, .t_, false⟩ where
  r_n2 := by simp
  r_t := by simp
  n2_t := by simp
  r := by simp [Nat.mod_eq_of_lt hn]
  n2 := by simp [fpSqr_value hg hW hl hn, Nat.pow_two]
  idle := fun _ => rfl

theorem value_one (hW : 1 < W) (hl : 0 < l) :
    Limbs.value ((Limbs.zero W l).setIfInBounds 0 1) = 1 := by
  have hset := Limbs.value_set (Limbs.zero W l) hl 1
  have hzero : (Limbs.zero W l)[0].toNat = 0 := by simp [Limbs.zero]
  rwa [hzero, toNat_one hW, Limbs.value_zero, Nat.mul_zero, Nat.add_zero, Nat.zero_add,
    Nat.mul_zero, Nat.pow_zero] at hset

theorem fpPow_value (hg : g.Documented) (hW : 1 < W) (hl : 0 < l) (mem : Buffer → Limbs W l)
    {n e p : Limbs W l} (hn : n.value < p.value) (hp : 1 < p.value) :
    (fpPow g mem n e p).value = n.value ^ e.value % p.value := by
  rcases Nat.eq_zero_or_pos e.value with he | he
  · rw [fpPow, if_pos ((mpnZeroP_iff hg hl e).mpr he), value_one hW hl, he, Nat.pow_zero,
      Nat.mod_eq_of_lt hp]
  · have h := bitLoop_induct (P := Ladder.Holds n p) (fun m s b h => h.turn hg hW hl (by omega) b) e
      (Ladder.Holds.start hg hW hl mem hn)
    have hne : ¬ g.mpnZeroP e ≠ 0 := by
      rw [mpnZeroP_iff hg hl]
      omega
    rw [fpPow, if_neg hne]
    dsimp only
    generalize bitLoop (fpPowTurn g p) e _ = s at h ⊢
    have hactive : s.active = true := by
      rcases Bool.eq_false_or_eq_true s.active with hs | hs
      · exact hs
      · have := h.idle hs
        omega
    have hr := h.r
    rw [if_pos hactive] at hr
    split
    · rw [Function.update_self, hr]
    · next hback => rw [← hr, not_not.mp hback]

/-! ### Inverses -/

theorem fpSub_residue (hg : g.Documented) (hl : 0 < l) {n1 n2 p : Limbs W l}
    (h1 : n1.value < p.value) (h2 : n2.value < p.value) :
    ((fpSub g n1 n2 p).value : ZMod p.value) = n1.value - n2.value := by
  rw [fpSub_value hg hl h1 h2, ZMod.natCast_mod, Nat.cast_sub (by omega), Nat.cast_add,
    ZMod.natCast_self, add_zero]

/-- The bit that is carried is put on top. -/
theorem set_high (hW : 1 < W) (hl : 0 < l) {v : Limbs W l} {c : BitVec W}
    (hv : 2 * v.value < 2 ^ (W * l)) (hc : c.toNat ≤ 1) :
    2 * Limbs.value (v.setIfInBounds (l - 1) (v[l - 1]?.getD 0 ||| c <<< (W - 1))) =
      2 * v.value + 2 ^ (W * l) * c.toNat := by
  obtain ⟨k, rfl⟩ : ∃ k, W = k + 1 := ⟨W - 1, by omega⟩
  obtain ⟨i, rfl⟩ : ∃ i, l = i + 1 := ⟨l - 1, by omega⟩
  have hpow : 2 ^ ((k + 1) * (i + 1)) = 2 ^ ((k + 1) * i) * 2 ^ k * 2 := by
    rw [Nat.mul_succ, Nat.pow_add, Nat.pow_succ 2 k, Nat.mul_assoc]
  rw [Nat.add_sub_cancel, Nat.add_sub_cancel, Vector.getElem?_eq_getElem (by omega),
    Option.getD_some]
  have hset := Limbs.value_set v (i := i) (by omega)
  have htop : v[i].toNat < 2 ^ k := by
    have hle := hset 0
    by_contra hge
    have := Nat.mul_le_mul_left (2 ^ ((k + 1) * i)) (Nat.le_of_not_lt hge)
    have hz : (0 : BitVec (k + 1)).toNat = 0 := rfl
    rw [hz] at hle
    omega
  have hor : (v[i] ||| c <<< k).toNat = v[i].toNat + c.toNat * 2 ^ k := by
    have hfit : c.toNat * 2 ^ k < 2 ^ (k + 1) := by
      have := Nat.mul_le_mul_right (2 ^ k) hc
      rw [Nat.pow_succ]
      omega
    rw [BitVec.toNat_or, BitVec.toNat_shiftLeft, Nat.shiftLeft_eq, Nat.mod_eq_of_lt hfit,
      ← Nat.shiftLeft_eq, Nat.or_comm, ← Nat.shiftLeft_add_eq_or_of_lt htop,
      Nat.shiftLeft_eq, Nat.add_comm]
  have hvalue := hset (v[i] ||| c <<< k)
  rw [hor, Nat.mul_add] at hvalue
  rw [hpow]
  linarith

/-- Twice the result is the number itself, or it with `p` added. -/
theorem fpHalve_value (hg : g.Documented) (hW : 1 < W) (hl : 0 < l) {r p : Limbs W l}
    (hodd : p.value % 2 = 1) (hr : r.value < p.value) :
    2 * (fpHalve g r p).value = r.value ∨ 2 * (fpHalve g r p).value = r.value + p.value := by
  rw [fpHalve]
  split
  · next h =>
    rw [mpnEvenP_iff hW hl] at h
    rw [(hg.rshift hl r 1 Nat.one_pos hW).1]
    omega
  · next h =>
    rw [mpnEvenP_iff hW hl] at h
    have hadd := hg.addN hl r p
    have hp := p.value_lt
    rcases heq : g.mpnAddN r p with ⟨sum, carry⟩
    simp only [heq] at hadd
    have hsum := sum.value_lt
    have hshift := (hg.rshift hl sum 1 Nat.one_pos hW).1
    have hcarry : carry.toNat ≤ 1 := by
      by_contra hgt
      have := Nat.mul_le_mul_left (2 ^ (W * l)) (Nat.lt_of_not_le hgt)
      omega
    obtain ⟨k, hk⟩ : ∃ k, W * l = k + 1 :=
      ⟨W * l - 1, by have := Nat.mul_pos (Nat.zero_lt_of_lt hW) hl; omega⟩
    have heven : 2 ^ (W * l) * carry.toNat % 2 = 0 := by
      rw [hk, Nat.pow_succ, Nat.mul_right_comm, Nat.mul_mod_left]
    refine Or.inr ((set_high hW hl (by omega) hcarry).trans ?_)
    omega

theorem two_isUnit {p : ℕ} (hodd : p % 2 = 1) : IsUnit (2 : ZMod p) := by
  have h := (ZMod.isUnit_iff_coprime 2 p).mpr (Nat.coprime_two_left.mpr (Nat.odd_iff.mpr hodd))
  exact_mod_cast h

theorem fpHalve_lt (hg : g.Documented) (hW : 1 < W) (hl : 0 < l) {r p : Limbs W l}
    (hodd : p.value % 2 = 1) (hr : r.value < p.value) :
    (fpHalve g r p).value < p.value := by
  rcases fpHalve_value hg hW hl hodd hr with h | h
  · omega
  · omega

theorem fpHalve_residue (hg : g.Documented) (hW : 1 < W) (hl : 0 < l) {r p : Limbs W l}
    (hodd : p.value % 2 = 1) (hr : r.value < p.value) :
    (2 : ZMod p.value) * (fpHalve g r p).value = r.value := by
  rcases fpHalve_value hg hW hl hodd hr with h | h
  · exact_mod_cast congrArg (Nat.cast (R := ZMod p.value)) h
  · have hcast := congrArg (Nat.cast (R := ZMod p.value)) h
    push_cast at hcast
    rwa [ZMod.natCast_self, add_zero] at hcast

/-- `u` is `r` times the number that is inverted. -/
def Multiple (n p u r : Limbs W l) : Prop :=
  r.value < p.value ∧ (u.value : ZMod p.value) = r.value * n.value

/-- The loop of halvings ends with the odd part, which goes on being a multiple. -/
theorem fpInvHalve_spec (hg : g.Documented) (hW : 1 < W) (hl : 0 < l) {n p : Limbs W l}
    (hodd : p.value % 2 = 1) :
    ∀ (fuel : ℕ) (u r : Limbs W l), 0 < u.value → u.value ≤ fuel → Multiple n p u r →
      ∃ u' r', fpInvHalve g p fuel u r = .ok (u', r') ∧ u'.value ∣ u.value ∧ u'.value % 2 = 1 ∧
        (u.value % 2 = 1 → u'.value = u.value) ∧ Multiple n p u' r'
  | 0, u, _, hu, hfuel, _ => by omega
  | fuel + 1, u, r, hu, hfuel, h => by
    rw [fpInvHalve]
    split
    · next heven =>
      rw [mpnEvenP_iff hW hl] at heven
      have hshift : 2 * (g.mpnRshift u 1).1.value = u.value := by
        rw [(hg.rshift hl u 1 Nat.one_pos hW).1]
        omega
      have hmult : Multiple n p (g.mpnRshift u 1).1 (fpHalve g r p) := by
        refine ⟨fpHalve_lt hg hW hl hodd h.1, (two_isUnit hodd).mul_left_cancel ?_⟩
        have hcast := congrArg (Nat.cast (R := ZMod p.value)) hshift
        push_cast at hcast
        rw [hcast, h.2, ← mul_assoc, fpHalve_residue hg hW hl hodd h.1]
      obtain ⟨u', r', heq, hdvd, hodd', -, hmult'⟩ :=
        fpInvHalve_spec hg hW hl hodd fuel (g.mpnRshift u 1).1 (fpHalve g r p) (by omega)
          (by omega) hmult
      exact ⟨u', r', heq, hdvd.trans (Dvd.intro_left 2 hshift), hodd', fun ho => by omega, hmult'⟩
    · next ho =>
      rw [mpnEvenP_iff hW hl] at ho
      exact ⟨u, r, rfl, dvd_rfl, by omega, fun _ => rfl, h⟩

/-- The numbers of an inversion: without a common divisor, not both even, and
    multiples of what is inverted. -/
structure Inverting (n p u v r s : Limbs W l) : Prop where
  u_pos : 0 < u.value
  v_pos : 0 < v.value
  coprime : Nat.Coprime u.value v.value
  odd : u.value % 2 = 1 ∨ v.value % 2 = 1
  r : Multiple n p u r
  s : Multiple n p v s

theorem mpnSubN_value (hg : g.Documented) (hl : 0 < l) {s1 s2 : Limbs W l}
    (h : s2.value ≤ s1.value) :
    (g.mpnSubN s1 s2).1.value = s1.value - s2.value := by
  have := s1.value_lt
  rw [(mpnSubN_spec hg hl s1 s2).1, Nat.sub_add_comm h, Nat.add_mod_right,
    Nat.mod_eq_of_lt (by omega)]

theorem Multiple.sub (hg : g.Documented) (hl : 0 < l) {n p u v r s : Limbs W l}
    (hu : Multiple n p u r) (hv : Multiple n p v s) (h : v.value ≤ u.value) :
    Multiple n p (g.mpnSubN u v).1 (fpSub g r s p) := by
  have hp : 0 < p.value := by have := hu.1; omega
  refine ⟨?_, ?_⟩
  · rw [fpSub_value hg hl hu.1 hv.1]
    exact Nat.mod_lt _ hp
  · rw [mpnSubN_value hg hl h, Nat.cast_sub h, hu.2, hv.2, fpSub_residue hg hl hu.1 hv.1, sub_mul]

theorem fpInvLoop_spec (hg : g.Documented) (hW : 1 < W) (hl : 0 < l) (hfinds : g.FindsOne l)
    {n p : Limbs W l} (hodd : p.value % 2 = 1) :
    ∀ (fuel : ℕ) (u v r s : Limbs W l), Inverting n p u v r s → u.value + v.value ≤ fuel →
      ∃ x : Limbs W l, fpInvLoop g p fuel u v r s = .ok x ∧ x.value < p.value ∧
        (x.value : ZMod p.value) * n.value = 1
  | 0, u, _, _, _, h, hfuel => by
    have := h.u_pos
    omega
  | fuel + 1, u, v, r, s, h, hfuel => by
    have hupos := h.u_pos
    have hvpos := h.v_pos
    rw [fpInvLoop]
    split
    · next hu =>
      rw [mpnOneP_iff hg hW hl, and_iff_right hfinds] at hu
      have hone := h.r.2
      rw [hu, Nat.cast_one] at hone
      exact ⟨r, rfl, h.r.1, hone.symm⟩
    split
    · next hv =>
      rw [mpnOneP_iff hg hW hl, and_iff_right hfinds] at hv
      have hone := h.s.2
      rw [hv, Nat.cast_one] at hone
      exact ⟨s, rfl, h.s.1, hone.symm⟩
    next hu hv =>
    rw [mpnOneP_iff hg hW hl, and_iff_right hfinds] at hu hv
    obtain ⟨u', r', hueq, hudvd, huodd, husame, hur⟩ :=
      fpInvHalve_spec hg hW hl hodd fuel u r hupos (by omega) h.r
    obtain ⟨v', s', hveq, hvdvd, hvodd, hvsame, hvs⟩ :=
      fpInvHalve_spec hg hW hl hodd fuel v s hvpos (by omega) h.s
    have hule := Nat.le_of_dvd hupos hudvd
    have hvle := Nat.le_of_dvd hvpos hvdvd
    have hcoprime : Nat.Coprime u'.value v'.value :=
      (h.coprime.coprime_dvd_left hudvd).coprime_dvd_right hvdvd
    have hne : u'.value ≠ v'.value := by
      intro heq
      have hone : u'.value = 1 := by
        rwa [← heq, Nat.coprime_self] at hcoprime
      rcases h.odd with ho | ho
      · exact hu ((husame ho).symm.trans hone)
      · exact hv ((hvsame ho).symm.trans (heq.symm.trans hone))
    have hcmp : g.mpnCmp u' v' ≥ 0 ↔
      v'.value ≤ u'.value := by rw [ge_iff_le, ← not_lt, (hg.cmp hl u' v').1, not_lt]
    simp only [hueq, hveq, bind, Except.bind, hcmp]
    split
    · next hge =>
      have hsub := mpnSubN_value hg hl hge
      refine fpInvLoop_spec hg hW hl hfinds hodd fuel _ _ _ _
        ⟨by omega, by omega, ?_, Or.inr hvodd, hur.sub hg hl hvs hge, hvs⟩ (by omega)
      rw [hsub]
      exact (Nat.coprime_sub_self_left hge).mpr hcoprime
    · next hlt =>
      have hsub := mpnSubN_value hg hl (Nat.le_of_not_le hlt)
      refine fpInvLoop_spec hg hW hl hfinds hodd fuel _ _ _ _
        ⟨by omega, by omega, ?_, Or.inl huodd, hur, hvs.sub hg hl hur (Nat.le_of_not_le hlt)⟩
          (by omega)
      rw [hsub]
      exact (Nat.coprime_sub_self_right (Nat.le_of_not_le hlt)).mpr hcoprime

theorem fpInv_spec (hg : g.Documented) (hW : 1 < W) (hl : 0 < l) (hfinds : g.FindsOne l)
    {n p : Limbs W l} (hodd : p.value % 2 = 1) (hp : 1 < p.value) (hpos : 0 < n.value)
    (hcoprime : Nat.Coprime n.value p.value) {fuel : ℕ} (hfuel : n.value + p.value ≤ fuel) :
    ∃ r : Limbs W l, fpInv g fuel n p = .ok r ∧ r.value < p.value ∧
      r.value * n.value % p.value = 1 := by
  have hinv : Inverting n p n p ((Limbs.zero W l).setIfInBounds 0 1) (Limbs.zero W l) := by
    refine ⟨hpos, by omega, hcoprime, Or.inr hodd, ⟨by rwa [value_one hW hl], ?_⟩,
      ⟨by rw [Limbs.value_zero]; omega, ?_⟩⟩
    · rw [value_one hW hl, Nat.cast_one, one_mul]
    · rw [Limbs.value_zero, Nat.cast_zero, zero_mul, ZMod.natCast_self]
  obtain ⟨r, heq, hr, hone⟩ := fpInvLoop_spec hg hW hl hfinds hodd fuel n p _ _ hinv hfuel
  have hne : ¬ g.mpnZeroP n ≠ 0 := by
    rw [mpnZeroP_iff hg hl]
    omega
  refine ⟨r, by rw [fpInv, if_neg hne, heq], hr, ?_⟩
  have hmod : ((r.value * n.value : ℕ) : ZMod p.value) = (1 : ℕ) := by
    rw [Nat.cast_mul, hone, Nat.cast_one]
  rw [(ZMod.natCast_eq_natCast_iff' _ _ _).mp hmod, Nat.mod_eq_of_lt hp]

/-- Where one is not found, the loop goes on for ever. -/
theorem fpInvLoop_never (hnever : ∀ n : Limbs W l, mpnOneP g n = false) (p : Limbs W l) :
    ∀ (fuel : ℕ) (u v r s x : Limbs W l), fpInvLoop g p fuel u v r s ≠ .ok x
  | 0, _, _, _, _, _ => nofun
  | fuel + 1, u, v, r, s, x => by
    rw [fpInvLoop, hnever u, hnever v, if_neg Bool.false_ne_true, if_neg Bool.false_ne_true]
    intro h
    cases hu : fpInvHalve g p fuel u r with
    | error e => simp [hu, bind, Except.bind] at h
    | ok ur =>
      cases hv : fpInvHalve g p fuel v s with
      | error e => simp [hu, hv, bind, Except.bind] at h
      | ok vs =>
        simp only [hu, hv, bind, Except.bind] at h
        split at h
        · exact fpInvLoop_never hnever p fuel _ _ _ _ _ h
        · exact fpInvLoop_never hnever p fuel _ _ _ _ _ h

theorem fpInv_never (hl : 0 < l) (hfinds : ¬ g.FindsOne l) (fuel : ℕ) (n p r : Limbs W l) :
    fpInv g fuel n p ≠ .ok r := by
  rw [fpInv]
  split
  · nofun
  · exact fpInvLoop_never (mpnOneP_false hl hfinds) p fuel _ _ _ _ r

/-! ### Modulo any number -/

/-- Products, powers and inverses modulo `p`. -/
structure FpCorrect (g : Gmp W) (p : Limbs W l) : Prop where
  mul (n1 n2 : Limbs W l) : n1.value < p.value →
    (fpMul g n1 n2 p).value = n1.value * n2.value % p.value
  pow (mem : Buffer → Limbs W l) (n e : Limbs W l) : n.value < p.value → 1 < p.value →
    (fpPow g mem n e p).value = n.value ^ e.value % p.value
  inv : p.value % 2 = 1 → 1 < p.value → ∀ n : Limbs W l, 0 < n.value → n.value < p.value →
    Nat.Coprime n.value p.value → ∀ fuel, n.value + p.value ≤ fuel →
      ∃ r : Limbs W l, fpInv g fuel n p = .ok r ∧ r.value < p.value ∧
        r.value * n.value % p.value = 1

/-- They are right just when one is found, or there is nothing to invert. -/
theorem fpCorrect_iff (hg : g.Documented) (hW : 1 < W) (hl : 0 < l) (p : Limbs W l) :
    FpCorrect g p ↔ g.FindsOne l ∨ p.value % 2 = 0 ∨ p.value ≤ 1 := by
  constructor
  · intro h
    by_contra hnot
    obtain ⟨hfinds, hodd, hp⟩ : ¬ g.FindsOne l ∧ p.value % 2 = 1 ∧ 1 < p.value :=
      ⟨fun hf => hnot (.inl hf), by omega, by omega⟩
    have hone := value_one hW hl
    obtain ⟨r, hr, -⟩ := h.inv hodd hp ((Limbs.zero W l).setIfInBounds 0 1) (by omega) (by omega)
      (by rw [hone]; exact Nat.coprime_one_left _) _ le_rfl
    exact fpInv_never hl hfinds _ _ _ _ hr
  · intro h
    refine ⟨fun _ n2 hn => fpMul_value hg hW hl hn n2,
      fun mem _ _ hn hp => fpPow_value hg hW hl mem hn hp, ?_⟩
    intro hodd hp n hpos _ hcoprime fuel hfuel
    exact fpInv_spec hg hW hl (h.resolve_right (by omega)) hodd hp hpos hcoprime hfuel

/-! ### The functions of GMP on numbers -/

/-- What the functions of GMP compute. -/
def Gmp.reference (W : ℕ) : Gmp W where
  mpnAddN {l} s1 s2 :=
    (.ofValue W l (s1.value + s2.value), .ofNat W ((s1.value + s2.value) / 2 ^ (W * l)))
  mpnSubN {l} s1 s2 :=
    (.ofValue W l (s1.value + 2 ^ (W * l) - s2.value),
      .ofNat W (if s1.value < s2.value then 1 else 0))
  mpnLshift {l} s count :=
    (.ofValue W l (s.value * 2 ^ count), .ofNat W (s.value * 2 ^ count / 2 ^ (W * l)))
  mpnRshift {l} s count :=
    (.ofValue W l (s.value / 2 ^ count), .ofNat W (s.value % 2 ^ count * 2 ^ (W - count)))
  mpnCmp s1 s2 := s1.value - s2.value
  mpnZeroP s := if s.value = 0 then 1 else 0

theorem toNat_ofNat_fits {n : ℕ} (h : n < 2 ^ W) : (BitVec.ofNat W n).toNat = n := by
  rw [BitVec.toNat_ofNat, Nat.mod_eq_of_lt h]

theorem Gmp.reference_documented (hW : 0 < W) : (Gmp.reference W).Documented where
  addN {l} _ s1 s2 := by
    have h1 := s1.value_lt
    have h2 := s2.value_lt
    have hpow : 1 < 2 ^ W := Nat.one_lt_two_pow (by omega)
    have hcarry : (s1.value + s2.value) / 2 ^ (W * l) < 2 ^ W :=
      lt_of_le_of_lt (Nat.le_of_lt_succ (Nat.div_lt_of_lt_mul (by omega))) hpow
    rw [Gmp.reference, Limbs.value_ofValue, toNat_ofNat_fits hcarry, Nat.mod_add_div]
  subN {l} _ s1 s2 := by
    have h1 := s1.value_lt
    have h2 := s2.value_lt
    have hpow : 1 < 2 ^ W := Nat.one_lt_two_pow (by omega)
    simp only [Gmp.reference, Limbs.value_ofValue]
    split
    · rw [toNat_ofNat_fits hpow, Nat.mod_eq_of_lt (by omega)]
      omega
    · rw [toNat_ofNat_fits (by omega), Nat.sub_add_comm (by omega), Nat.add_mod_right,
        Nat.mod_eq_of_lt (by omega)]
      omega
  lshift {l} _ s count _ hcount := by
    have h := s.value_lt
    have hout : s.value * 2 ^ count / 2 ^ (W * l) < 2 ^ W := by
      refine Nat.div_lt_of_lt_mul (Nat.mul_lt_mul_of_lt_of_le h ?_ (Nat.two_pow_pos _))
      exact Nat.pow_le_pow_right (by decide) hcount.le
    rw [Gmp.reference, Limbs.value_ofValue, toNat_ofNat_fits hout, Nat.mod_add_div]
  rshift {l} _ s count _ hcount := by
    have hout : s.value % 2 ^ count * 2 ^ (W - count) < 2 ^ W := by
      calc s.value % 2 ^ count * 2 ^ (W - count) < 2 ^ count * 2 ^ (W - count) :=
            Nat.mul_lt_mul_of_pos_right (Nat.mod_lt _ (Nat.two_pow_pos _)) (Nat.two_pow_pos _)
        _ = 2 ^ W := by rw [← Nat.pow_add, Nat.add_sub_cancel' hcount.le]
    rw [Gmp.reference]
    exact ⟨Limbs.value_ofValue_of_lt ((Nat.div_le_self _ _).trans_lt s.value_lt),
      toNat_ofNat_fits hout⟩
  cmp _ s1 s2 := by
    simp only [Gmp.reference]
    omega
  zeroP _ _ := rfl

/-- The test for zero since release 6.1 looks at a limb before it counts. Of no limbs it looks at
    the one in front of them, where `mpn_one_p` has found a one. -/
def Gmp.since601 (W : ℕ) : Gmp W :=
  { Gmp.reference W with mpnZeroP := fun {l} s => if 0 < l ∧ s.value = 0 then 1 else 0 }

theorem Gmp.since601_documented (hW : 0 < W) : (Gmp.since601 W).Documented :=
  { Gmp.reference_documented hW with
    zeroP := fun hl s => by simp only [Gmp.since601, hl, true_and] }

theorem small_value {l n : ℕ} (hl : 0 < l) (h : n < 11) : (Limbs.ofValue 64 l n).value = n := by
  have hpow : 2 ^ 64 ≤ 2 ^ (64 * l) := Nat.pow_le_pow_right (by decide) (by omega)
  exact Limbs.value_ofValue_of_lt (by omega)

/-- Seven in two limbs. -/
theorem fpCorrect_iff_seven :
    (fpMul (Gmp.since601 64) (Limbs.ofValue 64 2 5) (Limbs.ofValue 64 2 9)
      (Limbs.ofValue 64 2 7)).value = 3 ∧
    (fpPow (Gmp.since601 64) (fun _ => Limbs.zero 64 2) (Limbs.ofValue 64 2 3)
      (Limbs.ofValue 64 2 10) (Limbs.ofValue 64 2 7)).value = 4 ∧
    ∃ r : Limbs 64 2, fpInv (Gmp.since601 64) 10 (Limbs.ofValue 64 2 3) (Limbs.ofValue 64 2 7) =
      .ok r ∧ r.value < 7 ∧
      r.value * 3 % 7 = 1 := by
  obtain ⟨hmul, hpow, hinv⟩ :=
    (fpCorrect_iff (Gmp.since601_documented (W := 64) (by decide)) (by decide) (by decide)
    (Limbs.ofValue 64 2 7)).mpr (.inl (.inl (by decide)))
  simp only [small_value (l := 2) (n := 7) (by decide) (by decide)] at hmul hpow hinv
  have h5 := hmul (Limbs.ofValue 64 2 5) (Limbs.ofValue 64 2 9)
  have h3 := hpow (fun _ => Limbs.zero 64 2) (Limbs.ofValue 64 2 3) (Limbs.ofValue 64 2 10)
  have h3' := hinv (by decide) (by decide) (Limbs.ofValue 64 2 3)
  rw [small_value (by decide) (by decide), small_value (by decide) (by decide)] at h5
  rw [small_value (by decide) (by decide), small_value (by decide) (by decide)] at h3
  rw [small_value (by decide) (by decide)] at h3'
  exact ⟨h5 (by decide), h3 (by decide) (by decide),
    h3' (by decide) (by decide) (by decide) 10 le_rfl⟩

/-- In one limb the inverse of three is never found. -/
theorem fpInv_oneLimb : (Gmp.since601 64).Documented ∧ Nat.Coprime 3 7 ∧
    (∀ fuel r, fpInv (Gmp.since601 64) fuel (Limbs.ofValue 64 1 3) (Limbs.ofValue 64 1 7) ≠ .ok r) ∧
    ¬ FpCorrect (Gmp.since601 64) (Limbs.ofValue 64 1 7) := by
  have hg : (Gmp.since601 64).Documented := Gmp.since601_documented (by decide)
  have hfinds : ¬ (Gmp.since601 64).FindsOne 1 := by simp [Gmp.FindsOne, Gmp.since601]
  refine ⟨hg, by decide, fun fuel r => fpInv_never (by decide) hfinds fuel _ _ r, fun h => ?_⟩
  have h7 := small_value (l := 1) (n := 7) (by decide) (by decide)
  have hone := value_one (W := 64) (l := 1) (by decide) (by decide)
  obtain ⟨r, hr, -⟩ :=
    h.inv (by rw [h7]) (by rw [h7]; decide) ((Limbs.zero 64 1).setIfInBounds 0 1)
      (by omega) (by omega)
    (by rw [hone]; exact Nat.coprime_one_left _) _ le_rfl
  exact fpInv_never (by decide) hfinds _ _ _ _ hr

end Matching.Common
