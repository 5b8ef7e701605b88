import Matching.Common.SerialRead

/-! The writers of `serial.cpp` write codes of `LengthCode`. Each is a ladder: on every rung the
    value is what is left of the number above the start of the rung's length, and is written there
    or moved on to the next. -/

namespace Matching.Common

variable {w L p : ℕ}

/-- The bytes are the code, of at most `most` bytes, of a signed number. -/
def Coded (most : ℕ) (z : ℤ) (bytes : List UInt8) : Prop :=
  ∃ L p, 1 ≤ L ∧ L ≤ most ∧ p < room L ∧ bytes = code L p ∧ z = away (signed L p) (start half L)

theorem be_ofInt (hw : 8 ∣ w) (hL : 8 * L ≤ w) {z : ℤ} {n : ℕ}
    (hn : (n : ℤ) % 256 ^ L = z % 256 ^ L) :
    be L (BitVec.ofInt w z) = bigEndian L n := by
  have hdvd : (256 : ℤ) ^ L ∣ 2 ^ w := by
    rw [show (256 : ℤ) = 2 ^ 8 by norm_num, ← pow_mul]
    exact pow_dvd_pow 2 hL
  have hz : ((BitVec.ofInt w z).toNat : ℤ) % 256 ^ L = z % 256 ^ L := by
    rw [BitVec.toNat_ofInt, Int.toNat_of_nonneg (Int.emod_nonneg _ (by positivity))]
    push_cast
    exact Int.emod_emod_of_dvd z hdvd
  have hmod : (BitVec.ofInt w z).toNat % 256 ^ L = n % 256 ^ L := by
    rw [← hn] at hz
    exact_mod_cast hz
  rw [be, drop_bigEndian (j := L) _ (by omega), ← bigEndian_mod, hmod, bigEndian_mod]

theorem be_ofNat (hw : 8 ∣ w) (hL : 8 * L ≤ w) (n : ℕ) :
    be L (BitVec.ofNat w n) = bigEndian L n := by
  rw [← BitVec.ofInt_natCast]
  exact be_ofInt hw hL rfl

theorem room_eq : ∀ L < 9, 1 ≤ L → room L = 2 ^ (7 * L) ∧ 2 * half L = 2 ^ (7 * L) ∧
    256 ^ (L - 1) * (256 - 2 ^ (9 - L)) = (2 ^ L - 2) * 2 ^ (7 * L) ∧
    256 ^ (L - 1) * (256 - 2 ^ (9 - L)) + 2 * 2 ^ (7 * L) = 256 ^ L := by
  decide

theorem bit_eq (i : ℕ) : (bit i : BitVec w) = BitVec.ofInt w (2 ^ i) := by
  refine BitVec.eq_of_toNat_eq ?_
  rw [bit, ← BitVec.twoPow_eq, BitVec.toNat_twoPow, BitVec.toNat_ofInt]
  push_cast
  exact_mod_cast (Int.toNat_natCast (2 ^ i % 2 ^ w)).symm

/-- The number of a payload is the one that is congruent to it. -/
theorem signed_eq (hL : 1 ≤ L) {z : ℤ} (hz : (p : ℤ) % room L = z % room L)
    (hlow : -(half L : ℤ) ≤ z) (hhigh : z < half L) :
    signed L p = z := by
  have heven := two_dvd_room hL
  have hpos : 0 < room L := Nat.mul_pos (Nat.pow_pos (by decide)) (Nat.pow_pos (by decide))
  rw [half] at hlow hhigh
  rw [signed, Int.bmod_eq_iff hpos]
  exact ⟨by omega, by omega,
    Int.dvd_of_emod_eq_zero (Int.emod_eq_emod_iff_emod_sub_eq_zero.mp hz.symm)⟩

/-- The ones of the length in front of a payload. -/
theorem be_or (hw : 8 ∣ w) (hL : 1 ≤ L) (hLw : 8 * L ≤ w) (hL8 : L ≤ 8) {x : BitVec w}
    (hx : x.toNat < room L) :
    be L (BitVec.ofNat w (256 ^ (L - 1) * (256 - 2 ^ (9 - L))) ||| x) = code L x.toNat := by
  obtain ⟨hroom, -, hlead, -⟩ := room_eq L (by omega) hL
  have hx' : x = BitVec.ofNat w x.toNat := by rw [BitVec.ofNat_toNat, BitVec.setWidth_eq]
  rw [hroom] at hx
  generalize x.toNat = n at hx hx'
  rw [hx', hlead, ofNat_mul_or hx (by omega), be_ofNat hw hLw, code, hlead]

/-- A payload below zero: of the ones of its sign, one is taken out. -/
theorem be_not_and (hw : 8 ∣ w) (hL : 1 ≤ L) (hLw : 8 * L ≤ w) (hL8 : L ≤ 8) {x : BitVec w}
    (hx : x.toInt < 0) (hlow : -(half L : ℤ) ≤ x.toInt) :
    ∃ p < room L, be L (~~~(bit (7 * L)) &&& x) = code L p ∧ signed L p = x.toInt := by
  obtain ⟨hroom, hhalf, -, hlead⟩ := room_eq L (by omega) hL
  have hbit : x.getLsbD (7 * L) = true := by
    have hnat : x.toNat = 2 ^ w - ((-1 - x.toInt).toNat + 1) := by
      have hint := BitVec.toInt_eq_toNat_cond x
      have hlt := x.isLt
      split at hint <;> omega
    rw [BitVec.getLsbD, hnat, Nat.testBit_two_pow_sub_succ, Nat.testBit_lt_two_pow]
    · simp
      omega
    · omega
    · have hmono : 2 ^ (7 * L) ≤ 2 ^ w := Nat.pow_le_pow_right (by decide) (by omega)
      omega
  obtain ⟨p, hp⟩ : ∃ p : ℕ, (p : ℤ) = 2 ^ (7 * L) + x.toInt :=
    ⟨(2 ^ (7 * L) + x.toInt).toNat, Int.toNat_of_nonneg (by zify at hhalf; omega)⟩
  have hhalf' : 2 * (half L : ℤ) = 2 ^ (7 * L) := by exact_mod_cast hhalf
  refine ⟨p, ?_, ?_, ?_⟩
  · zify
    rw [hroom]
    push_cast
    omega
  · have hz : x - 1#w <<< (7 * L) = BitVec.ofInt w (x.toInt - 2 ^ (7 * L)) := by
      have hbit' : 1#w <<< (7 * L) = BitVec.ofInt w (2 ^ (7 * L)) := bit_eq (7 * L)
      rw [hbit', Int.sub_eq_add_neg, BitVec.ofInt_add, BitVec.ofInt_neg, BitVec.ofInt_toInt,
        BitVec.sub_eq_add_neg]
    rw [bit, not_shiftLeft_and hbit, hz, code]
    refine be_ofInt hw hLw ?_
    have hlead' : ((256 ^ (L - 1) * (256 - 2 ^ (9 - L)) : ℕ) : ℤ) + 2 * 2 ^ (7 * L) = 256 ^ L := by
      exact_mod_cast hlead
    have hsum : ((256 ^ (L - 1) * (256 - 2 ^ (9 - L)) + p : ℕ) : ℤ) =
        x.toInt - 2 ^ (7 * L) + 256 ^ L := by
      rw [Nat.cast_add, hp, ← hlead']
      ring
    rw [hsum, Int.add_emod_right]
  · refine signed_eq hL ?_ hlow (by omega)
    rw [hp, hroom]
    push_cast
    exact Int.add_emod_left _ _

section Steps

variable {x : BitVec w} {most i : ℕ} {z : ℤ} {bytes : List UInt8}

theorem toInt_bounds (hw : i + 1 < w) (x : BitVec w) :
    (2 : ℤ) ^ i < 2 ^ (w - 1) ∧ x.toInt < 2 ^ (w - 1) ∧ -2 ^ (w - 1) ≤ x.toInt :=
  ⟨pow_lt_pow_right₀ (by norm_num) (by omega), BitVec.toInt_lt, BitVec.le_toInt x⟩

theorem toInt_bit (hw : i + 1 < w) : (bit i : BitVec w).toInt = 2 ^ i := by
  obtain ⟨hpow, -, -⟩ := toInt_bounds hw (0#w)
  rw [bit_eq,
    toInt_ofInt_of_mem (by omega)
    (by linarith [show (0 : ℤ) < 2 ^ i by positivity, show (0 : ℤ) < 2 ^ (w - 1) by positivity])
    hpow]

theorem toInt_add_bit (hw : i + 1 < w) (hx : x.toInt < 0) :
    (x + bit i).toInt = x.toInt + 2 ^ i := by
  obtain ⟨hpow, hlt, hle⟩ := toInt_bounds hw x
  have hsum : x + bit i = BitVec.ofInt w (x.toInt + 2 ^ i) := by
    rw [BitVec.ofInt_add, BitVec.ofInt_toInt, bit_eq]
  rw [hsum,
    toInt_ofInt_of_mem (by omega) (by linarith [show (0 : ℤ) < 2 ^ i by positivity]) (by linarith)]

theorem toInt_sub_bit (hw : i + 1 < w) (hx : 0 ≤ x.toInt) :
    (x - bit i).toInt = x.toInt - 2 ^ i := by
  obtain ⟨hpow, hlt, hle⟩ := toInt_bounds hw x
  have hdiff : x - bit i = BitVec.ofInt w (x.toInt - 2 ^ i) := by
    rw [Int.sub_eq_add_neg, BitVec.ofInt_add, BitVec.ofInt_neg, BitVec.ofInt_toInt, bit_eq,
      BitVec.sub_eq_add_neg]
  rw [hdiff,
    toInt_ofInt_of_mem (by omega) (by linarith) (by linarith [show (0 : ℤ) < 2 ^ i by positivity])]

theorem not_bit_slt (hw : i + 1 < w) (x : BitVec w) :
    (~~~(bit i)).slt x = true ↔ -2 ^ i ≤ x.toInt := by
  obtain ⟨hpow, -, -⟩ := toInt_bounds hw x
  have hnot : ~~~(bit i : BitVec w) = BitVec.ofInt w (-2 ^ i - 1) := by
    rw [Int.sub_eq_add_neg, BitVec.ofInt_add, BitVec.ofInt_neg, BitVec.ofInt_neg, ← bit_eq,
      BitVec.not_eq_neg_add, BitVec.sub_eq_add_neg]
    exact congrArg (-bit i + -·) (BitVec.ofInt_natCast w 1).symm
  rw [BitVec.slt_iff_toInt_lt, hnot,
    toInt_ofInt_of_mem (by omega) (by linarith) (by linarith [show (0 : ℤ) < 2 ^ i by positivity])]
  omega

theorem slt_bit (hw : i + 1 < w) (x : BitVec w) : x.slt (bit i) = true ↔ x.toInt < 2 ^ i := by
  rw [BitVec.slt_iff_toInt_lt, toInt_bit hw]

theorem half_pow (hL : 1 ≤ L) (hL8 : L ≤ 8) : (half L : ℤ) = 2 ^ (7 * L - 1) := by
  have hall : ∀ L < 9, 1 ≤ L → half L = 2 ^ (7 * L - 1) := by decide
  exact_mod_cast hall L (by omega) hL

theorem start_half_succ (hL : 1 ≤ L) (hL8 : L ≤ 8) :
    (start half (L + 1) : ℤ) = start half L + 2 ^ (7 * L - 1) := by
  rw [start_succ half hL, Nat.cast_add, half_pow hL hL8]

/-- A rung of the writer below zero: the number has this length, or is written further down. -/
theorem Coded.below (hw : 8 ∣ w) (hL : 1 ≤ L) (hLw : 8 * L ≤ w) (hL8 : L ≤ 8) (hmost : L ≤ most)
    (hx : x.toInt < 0) (hz : z = x.toInt - start half L)
    (next : (x + bit (7 * L - 1)).toInt < 0 → z = (x + bit (7 * L - 1)).toInt - start half (L + 1) →
      Coded most z bytes) :
    Coded most z
      (if (~~~(bit (7 * L - 1))).slt x then be L (~~~(bit (7 * L)) &&& x) else bytes) := by
  have hhalf := half_pow hL hL8
  split
  · next hslt =>
    rw [not_bit_slt (by omega), ← hhalf] at hslt
    obtain ⟨p, hp, hbytes, hsigned⟩ := be_not_and hw hL hLw hL8 hx hslt
    exact ⟨L, p, hL, hmost, hp, hbytes, by rw [hsigned, away, if_pos hx, hz]⟩
  · next hslt =>
    rw [not_bit_slt (by omega)] at hslt
    have hstart := start_half_succ hL hL8
    refine next ?_ ?_ <;> rw [toInt_add_bit (by omega) hx] <;> omega

/-- A rung of the writer from zero up. -/
theorem Coded.above (hw : 8 ∣ w) (hL : 1 ≤ L) (hLw : 8 * L ≤ w) (hL8 : L ≤ 8) (hmost : L ≤ most)
    (hx : 0 ≤ x.toInt) (hz : z = x.toInt + start half L)
    (next : 0 ≤ (x - bit (7 * L - 1)).toInt → z = (x - bit (7 * L - 1)).toInt + start half (L + 1) →
      Coded most z bytes) :
    Coded most z
      (if x.slt (bit (7 * L - 1)) then be L
      (BitVec.ofNat w (256 ^ (L - 1) * (256 - 2 ^ (9 - L))) ||| x)
      else bytes) := by
  have hhalf := half_pow hL hL8
  split
  · next hslt =>
    rw [slt_bit (by omega), ← hhalf] at hslt
    have hnat : x.toInt = x.toNat := by
      have hint := BitVec.toInt_eq_toNat_cond x
      have hlt := x.isLt
      split at hint <;> omega
    have hroom : x.toNat < room L := by
      rw [half] at hslt
      omega
    refine ⟨L, x.toNat, hL, hmost, hroom, be_or hw hL hLw hL8 hroom, ?_⟩
    rw [signed_eq hL (by rw [hnat]) (by omega) hslt, away, if_neg (by omega), hz]
  · next hslt =>
    rw [slt_bit (by omega)] at hslt
    have hstart := start_half_succ hL hL8
    refine next ?_ ?_ <;> rw [toInt_sub_bit (by omega) hx] <;> omega

theorem be_one (x : BitVec w) :
    be 1 x = be 1 (BitVec.ofNat w (256 ^ (1 - 1) * (256 - 2 ^ (9 - 1))) ||| x) := by
  simp

/-- The last rung: the payload stands in bytes of its own. -/
theorem Coded.last {b : UInt8} {q : ℕ} (hw : w = 8 * (L - 1)) (hL : 1 ≤ L) (hq : q < 2 ^ (8 - L))
    (hb : b = UInt8.ofNat (256 - 2 ^ (9 - L) + q))
    (hx : ((q * 256 ^ (L - 1) + x.toNat : ℕ) : ℤ) % room L = x.toInt % room L)
    (hlow : -(half L : ℤ) ≤ x.toInt) (hhigh : x.toInt < half L)
    (hz : z = away x.toInt (start half L)) :
    Coded L z (b :: be (L - 1) x) := by
  have hn : x.toNat < 256 ^ (L - 1) := by
    rw [show (256 : ℕ) = 2 ^ 8 by rfl, ← Nat.pow_mul, ← hw]
    exact x.isLt
  refine ⟨L, q * 256 ^ (L - 1) + x.toNat, hL, le_rfl, ?_, ?_, ?_⟩
  · calc q * 256 ^ (L - 1) + x.toNat < (q + 1) * 256 ^ (L - 1) := by rw [Nat.succ_mul]; omega
      _ ≤ room L := Nat.mul_le_mul_right _ hq
  · rw [code_split hL hn, hb, be, drop_bigEndian (j := L - 1) _ (by omega)]
  · rw [signed_eq hL hx hlow hhigh, hz]

end Steps

theorem Coded.last4_below {x : BitVec 32} {z : ℤ} (hx : x.toInt < 0)
    (hz : z = x.toInt - start half 5) :
    Coded 5 z (be 1 0xF7#32 ++ be 4 x) := by
  have hint := BitVec.toInt_eq_toNat_cond x
  have hlt := x.isLt
  have hle := BitVec.le_toInt x
  have hroom : room 5 = 2 ^ 35 := rfl
  have hhalf : half 5 = 2 ^ 34 := rfl
  have hfirst : be 1 0xF7#32 = [0xF7] := rfl
  rw [hfirst, List.singleton_append]
  refine Coded.last (L := 5) (q := 7) (by decide) (by decide) (by decide) (by decide) ?_ ?_ ?_ ?_
  · rw [hroom]
    push_cast
    split at hint <;> omega
  · rw [hhalf]
    push_cast
    omega
  · rw [hhalf]
    push_cast
    omega
  · rw [away, if_pos hx, hz]

theorem Coded.last4_above {x : BitVec 32} {z : ℤ} (hx : 0 ≤ x.toInt)
    (hz : z = x.toInt + start half 5) :
    Coded 5 z (be 1 0xF0#32 ++ be 4 x) := by
  have hint := BitVec.toInt_eq_toNat_cond x
  have hlt := x.isLt
  have hle : x.toInt < 2 ^ 31 := BitVec.toInt_lt
  have hroom : room 5 = 2 ^ 35 := rfl
  have hhalf : half 5 = 2 ^ 34 := rfl
  have hfirst : be 1 0xF0#32 = [0xF0] := rfl
  rw [hfirst, List.singleton_append]
  refine Coded.last (L := 5) (q := 0) (by decide) (by decide) (by decide) (by decide) ?_ ?_ ?_ ?_
  · rw [hroom]
    push_cast
    split at hint <;> omega
  · rw [hhalf]
    push_cast
    omega
  · rw [hhalf]
    push_cast
    omega
  · rw [away, if_neg (by omega), hz]

/-- What `_varint_ops<4>` writes is the code of the value. -/
theorem writeSigned4_coded (v : BitVec 32) : Coded 5 v.toInt (VarintOps4.writeSigned v) := by
  rw [VarintOps4.writeSigned]
  split
  · next hneg =>
    rw [BitVec.slt_iff_toInt_lt] at hneg
    refine Coded.below (L := 1) (by decide) (by decide) (by decide) (by decide) (by decide) hneg
      (by simp [start]) fun h z => ?_
    refine Coded.below (L := 2) (by decide) (by decide) (by decide) (by decide)
      (by decide) h z fun h z => ?_
    refine Coded.below (L := 3) (by decide) (by decide) (by decide) (by decide)
      (by decide) h z fun h z => ?_
    refine Coded.below (L := 4) (by decide) (by decide) (by decide) (by decide)
      (by decide) h z fun h z => ?_
    exact Coded.last4_below h z
  · next hpos =>
    rw [BitVec.slt_iff_toInt_lt] at hpos
    rw [be_one]
    refine Coded.above (L := 1) (by decide) (by decide) (by decide) (by decide) (by decide)
      (not_lt.mp hpos) (by simp [start]) fun h z => ?_
    refine Coded.above (L := 2) (by decide) (by decide) (by decide) (by decide)
      (by decide) h z fun h z => ?_
    refine Coded.above (L := 3) (by decide) (by decide) (by decide) (by decide)
      (by decide) h z fun h z => ?_
    refine Coded.above (L := 4) (by decide) (by decide) (by decide) (by decide)
      (by decide) h z fun h z => ?_
    exact Coded.last4_above h z

theorem Coded.last8 {x : BitVec 64} {z : ℤ} (hz : z = away x.toInt (start half 9)) :
    Coded 9 z (be 1 0xFF#64 ++ be 8 x) := by
  have hint := BitVec.toInt_eq_toNat_cond x
  have hlt : x.toInt < 2 ^ 63 := BitVec.toInt_lt
  have hle := BitVec.le_toInt x
  have hroom : room 9 = 2 ^ 64 := rfl
  have hhalf : half 9 = 2 ^ 63 := rfl
  have hfirst : be 1 0xFF#64 = [0xFF] := rfl
  rw [hfirst, List.singleton_append]
  refine Coded.last (L := 9) (q := 0) (by decide) (by decide) (by decide) (by decide) ?_ ?_ ?_ hz
  · rw [hroom]
    push_cast
    split at hint <;> omega
  · rw [hhalf]
    push_cast
    omega
  · rw [hhalf]
    push_cast
    omega

/-- What `_varint_ops<8>` writes is the code of the value. -/
theorem writeSigned8_coded (v : BitVec 64) : Coded 9 v.toInt (VarintOps8.writeSigned v) := by
  rw [VarintOps8.writeSigned]
  split
  · next hneg =>
    rw [BitVec.slt_iff_toInt_lt] at hneg
    refine Coded.below (L := 1) (by decide) (by decide) (by decide) (by decide) (by decide) hneg
      (by simp [start]) fun h z => ?_
    refine Coded.below (L := 2) (by decide) (by decide) (by decide) (by decide)
      (by decide) h z fun h z => ?_
    refine Coded.below (L := 3) (by decide) (by decide) (by decide) (by decide)
      (by decide) h z fun h z => ?_
    refine Coded.below (L := 4) (by decide) (by decide) (by decide) (by decide)
      (by decide) h z fun h z => ?_
    refine Coded.below (L := 5) (by decide) (by decide) (by decide) (by decide)
      (by decide) h z fun h z => ?_
    refine Coded.below (L := 6) (by decide) (by decide) (by decide) (by decide)
      (by decide) h z fun h z => ?_
    refine Coded.below (L := 7) (by decide) (by decide) (by decide) (by decide)
      (by decide) h z fun h z => ?_
    refine Coded.below (L := 8) (by decide) (by decide) (by decide) (by decide)
      (by decide) h z fun h z => ?_
    exact Coded.last8 (by rw [away, if_pos h, z])
  · next hpos =>
    rw [BitVec.slt_iff_toInt_lt] at hpos
    rw [be_one]
    refine Coded.above (L := 1) (by decide) (by decide) (by decide) (by decide) (by decide)
      (not_lt.mp hpos) (by simp [start]) fun h z => ?_
    refine Coded.above (L := 2) (by decide) (by decide) (by decide) (by decide)
      (by decide) h z fun h z => ?_
    refine Coded.above (L := 3) (by decide) (by decide) (by decide) (by decide)
      (by decide) h z fun h z => ?_
    refine Coded.above (L := 4) (by decide) (by decide) (by decide) (by decide)
      (by decide) h z fun h z => ?_
    refine Coded.above (L := 5) (by decide) (by decide) (by decide) (by decide)
      (by decide) h z fun h z => ?_
    refine Coded.above (L := 6) (by decide) (by decide) (by decide) (by decide)
      (by decide) h z fun h z => ?_
    refine Coded.above (L := 7) (by decide) (by decide) (by decide) (by decide)
      (by decide) h z fun h z => ?_
    refine Coded.above (L := 8) (by decide) (by decide) (by decide) (by decide)
      (by decide) h z fun h z => ?_
    exact Coded.last8 (by rw [away, if_neg (not_lt.mpr h), z])

/-- The bytes are the code, of at most `most` bytes, of an unsigned number. -/
def Counted (most n : ℕ) (bytes : List UInt8) : Prop :=
  ∃ L p, 1 ≤ L ∧ L ≤ most ∧ p < room L ∧ bytes = code L p ∧ n = p + start room L

section Steps

variable {x : BitVec w} {most n : ℕ} {bytes : List UInt8}

theorem toNat_bit {i : ℕ} (hi : i < w) : (bit i : BitVec w).toNat = 2 ^ i := by
  rw [bit, ← BitVec.twoPow_eq, BitVec.toNat_twoPow_of_lt hi]

/-- A rung of the writer. -/
theorem Counted.rung (hw : 8 ∣ w) (hL : 1 ≤ L) (hLw : 8 * L ≤ w) (hL8 : L ≤ 8) (hmost : L ≤ most)
    (hn : n = x.toNat + start room L)
    (next : n = (x - bit (7 * L)).toNat + start room (L + 1) → Counted most n bytes) :
    Counted most n
      (if x < bit (7 * L) then be L (BitVec.ofNat w (256 ^ (L - 1) * (256 - 2 ^ (9 - L))) ||| x)
      else bytes) := by
  obtain ⟨hroom, -⟩ := room_eq L (by omega) hL
  have hbit : (bit (7 * L) : BitVec w).toNat = 2 ^ (7 * L) := toNat_bit (by omega)
  split
  · next hlt =>
    rw [BitVec.lt_def, hbit, ← hroom] at hlt
    exact ⟨L, x.toNat, hL, hmost, hlt, be_or hw hL hLw hL8 hlt, hn⟩
  · next hlt =>
    rw [BitVec.lt_def, hbit, ← hroom] at hlt
    refine next ?_
    rw [BitVec.toNat_sub_of_le (by rw [BitVec.le_def, hbit, ← hroom]; omega), hbit, ← hroom,
      start_succ room hL]
    omega

theorem Counted.last {b : UInt8} (hw : w = 8 * (L - 1)) (hL : 1 ≤ L)
    (hb : b = UInt8.ofNat (256 - 2 ^ (9 - L))) (hn : n = x.toNat + start room L) :
    Counted L n (b :: be (L - 1) x) := by
  have hlt : x.toNat < 256 ^ (L - 1) := by
    rw [show (256 : ℕ) = 2 ^ 8 by rfl, ← Nat.pow_mul, ← hw]
    exact x.isLt
  have hroom : x.toNat < room L := hlt.trans_le (Nat.le_mul_of_pos_left _ (Nat.pow_pos (by decide)))
  have hsplit := code_split hL hlt 0
  rw [Nat.zero_mul, Nat.zero_add, Nat.add_zero] at hsplit
  refine ⟨L, x.toNat, hL, le_rfl, hroom, ?_, hn⟩
  rw [hsplit, hb, be, drop_bigEndian (j := L - 1) _ (by omega)]

end Steps

theorem writeUnsigned4_counted (v : BitVec 32) :
    Counted 5 v.toNat (VarintOps4.writeUnsigned v) := by
  have hfirst : be 1 0xF0#32 = [0xF0] := rfl
  rw [VarintOps4.writeUnsigned, be_one]
  refine Counted.rung (L := 1) (by decide) (by decide) (by decide) (by decide) (by decide)
    (by simp [start]) fun h => ?_
  refine Counted.rung (L := 2) (by decide) (by decide) (by decide) (by decide)
    (by decide) h fun h => ?_
  refine Counted.rung (L := 3) (by decide) (by decide) (by decide) (by decide)
    (by decide) h fun h => ?_
  refine Counted.rung (L := 4) (by decide) (by decide) (by decide) (by decide)
    (by decide) h fun h => ?_
  rw [hfirst]
  exact Counted.last (L := 5) (by decide) (by decide) (by decide) h

theorem writeUnsigned8_counted (v : BitVec 64) :
    Counted 9 v.toNat (VarintOps8.writeUnsigned v) := by
  have hfirst : be 1 0xFF#64 = [0xFF] := rfl
  rw [VarintOps8.writeUnsigned, be_one]
  refine Counted.rung (L := 1) (by decide) (by decide) (by decide) (by decide) (by decide)
    (by simp [start]) fun h => ?_
  refine Counted.rung (L := 2) (by decide) (by decide) (by decide) (by decide)
    (by decide) h fun h => ?_
  refine Counted.rung (L := 3) (by decide) (by decide) (by decide) (by decide)
    (by decide) h fun h => ?_
  refine Counted.rung (L := 4) (by decide) (by decide) (by decide) (by decide)
    (by decide) h fun h => ?_
  refine Counted.rung (L := 5) (by decide) (by decide) (by decide) (by decide)
    (by decide) h fun h => ?_
  refine Counted.rung (L := 6) (by decide) (by decide) (by decide) (by decide)
    (by decide) h fun h => ?_
  refine Counted.rung (L := 7) (by decide) (by decide) (by decide) (by decide)
    (by decide) h fun h => ?_
  refine Counted.rung (L := 8) (by decide) (by decide) (by decide) (by decide)
    (by decide) h fun h => ?_
  rw [hfirst]
  exact Counted.last (L := 9) (by decide) (by decide) (by decide) h

end Matching.Common
