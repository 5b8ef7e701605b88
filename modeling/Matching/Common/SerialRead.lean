import Matching.Common.Serial
import Matching.Lib.LengthCode
import Matching.Lib.Words

/-! What the readers of `serial.cpp` make of the codes of `LengthCode`: of every code the
    number it stands for, as long as that is in the range of the type, and of less than a
    code the end of the data. -/

namespace Matching.Common

variable {w L p k up m down d off : ℕ}

/-- Half of the words of a length are for the numbers from zero up, half for those below. -/
def half (L : ℕ) : ℕ := room L / 2

theorem varintSize_eq (b : UInt8) : varintSize b = announced b := by
  have hall : ∀ L < 10, 1 ≤ L →
    ∀ q < 2 ^ (8 - L), varintSize (UInt8.ofNat (256 - 2 ^ (9 - L) + q)) = L := by decide
  obtain ⟨hL, hL9, hlow, hq⟩ := first_announced b
  have hb := hall (announced b) (by omega) hL _ hq
  rwa [Nat.add_sub_cancel' hlow, UInt8.ofNat_toNat] at hb

/-! ### Reading the parts of a code -/

theorem readBe_bigEndian (w n p : ℕ) (rest : List UInt8) :
    readBe w n (bigEndian n p ++ rest) = .ok (BitVec.ofNat w (p % 256 ^ n), rest) := by
  have hfull : readFully n (bigEndian n p ++ rest) = .ok (bigEndian n p, rest) := by
    rw [readFully, if_pos (by simp), List.take_left' (length_bigEndian n p),
      List.drop_left' (length_bigEndian n p)]
  rw [readBe, hfull, ok_bind]
  change Except.ok (BitVec.ofNat w (ofBigEndian (bigEndian n p)), rest) = _
  rw [ofBigEndian_bigEndian]

theorem readBe_short {s : List UInt8} {n : ℕ} (h : s.length < n) (w : ℕ) :
    readBe w n s = .error .prematureEof := by
  rw [readBe, readFully, if_neg (by omega)]
  rfl

/-- The first byte shifted to the top of a word keeps its payload. -/
theorem promote_first : (∀ L < 9, 1 ≤ L → ∀ q < 2 ^ (8 - L),
      promote 32 (UInt8.ofNat (256 - 2 ^ (9 - L) + q)) (24 + L) =
        BitVec.ofNat 32 (q * 2 ^ (24 + L))) ∧
    ∀ L < 9, 1 ≤ L → ∀ q < 2 ^ (8 - L),
      promote 64 (UInt8.ofNat (256 - 2 ^ (9 - L) + q)) (56 + L) =
        BitVec.ofNat 64 (q * 2 ^ (56 + L)) := by
  constructor <;> decide

/-- The sign-extended payload, moved away from zero. -/
theorem awayFromZero_eq (hw : k + up = w) (hk : 0 < k) (hdown : m + down = up) (hd : d < 2 ^ m)
    (x : ℕ) :
    awayFromZero (BitVec.ofNat w (x * 2 ^ up)) down (BitVec.ofNat w d) (BitVec.ofNat w off) =
      BitVec.ofInt w (away (Int.bmod ((x * 2 ^ m + d : ℕ)) (2 ^ k * 2 ^ m)) off) := by
  have hm : up - down = m := by omega
  have hbmod := bmod_mul_pow_add hk (x : ℤ) hd
  have hscale : (0 : ℤ) < 2 ^ m := by positivity
  have hscale' : (0 : ℤ) < 2 ^ up := by positivity
  have hd' : (d : ℤ) < 2 ^ m := by exact_mod_cast hd
  have hsign : Int.bmod x (2 ^ k) * 2 ^ up < 0 ↔ Int.bmod x (2 ^ k) * 2 ^ m + d < 0 := by
    constructor
    · intro h
      have hneg : Int.bmod x (2 ^ k) ≤ -1 := by
        by_contra hge
        nlinarith
      nlinarith
    · intro h
      have hneg : Int.bmod x (2 ^ k) < 0 := by
        by_contra hge
        nlinarith
      nlinarith
  rw [awayFromZero, sshiftRight_ofNat hw hk (by omega), hm, ofInt_mul_or hd (by omega)]
  change _ + (_ ||| 1#w) * _ = _
  rw [sshiftRight_sign_or (by omega), toInt_ofNat_mul_pow hw hk, ← BitVec.ofInt_natCast w off,
    ← BitVec.ofInt_mul, ← BitVec.ofInt_add]
  push_cast
  rw [hbmod]
  simp only [away, hsign]
  split
  · rw [neg_one_mul, sub_eq_add_neg]
  · rw [one_mul]

theorem mod_pow_256 (p n : ℕ) : p / 256 ^ n * 2 ^ (8 * n) + p % 256 ^ n = p := by
  rw [Nat.pow_mul, Nat.mul_comm]
  exact Nat.div_add_mod p (256 ^ n)

/-- A code of four bytes or less in a word of 32 bits. -/
theorem arm32 (hL : 1 ≤ L) (hL7 : L ≤ 4) (hp : p < room L) (off : ℕ) :
    awayFromZero
      (promote 32 (UInt8.ofNat (256 - 2 ^ (9 - L) + p / 256 ^ (L - 1))) (24 + L)) (32 - 7 * L)
      (BitVec.ofNat 32 (p % 256 ^ (L - 1))) (BitVec.ofNat 32 off) =
        BitVec.ofInt 32 (away (signed L p) off) := by
  have hd : p % 256 ^ (L - 1) < 2 ^ (8 * (L - 1)) := by
    rw [Nat.pow_mul]
    exact Nat.mod_lt _ (Nat.pow_pos (by decide))
  rw [promote_first.1 L (by omega) hL _ (div_lt_of_lt_room hp),
    awayFromZero_eq (k := 8 - L) (m := 8 * (L - 1)) (by omega) (by omega) (by omega) hd,
    mod_pow_256, Nat.pow_mul]
  rfl

theorem arm64 (hL : 1 ≤ L) (hL7 : L ≤ 7) (hp : p < room L) (off : ℕ) :
    awayFromZero
      (promote 64 (UInt8.ofNat (256 - 2 ^ (9 - L) + p / 256 ^ (L - 1))) (56 + L)) (64 - 7 * L)
      (BitVec.ofNat 64 (p % 256 ^ (L - 1))) (BitVec.ofNat 64 off) =
        BitVec.ofInt 64 (away (signed L p) off) := by
  have hd : p % 256 ^ (L - 1) < 2 ^ (8 * (L - 1)) := by
    rw [Nat.pow_mul]
    exact Nat.mod_lt _ (Nat.pow_pos (by decide))
  rw [promote_first.2 L (by omega) hL _ (div_lt_of_lt_room hp),
    awayFromZero_eq (k := 8 - L) (m := 8 * (L - 1)) (by omega) (by omega) (by omega) hd,
    mod_pow_256, Nat.pow_mul]
  rfl

theorem arm_one : ∀ p < 128,
    (promote 32 (UInt8.ofNat (256 - 2 ^ (9 - 1) + p / 256 ^ (1 - 1))) 0 &&& 0x3F) +
        ~~~((promote 32 (UInt8.ofNat (256 - 2 ^ (9 - 1) + p / 256 ^ (1 - 1))) 0 &&& 0x40) - 1) =
      BitVec.ofInt 32 (away (signed 1 p) (start half 1)) := by
  decide

theorem arm_eight (hp : p < room 8) :
    awayFromZero (BitVec.ofNat 64 (p % 256 ^ 7) <<< 8) 8 0 0x01020408102040 =
    BitVec.ofInt 64 (away (signed 8 p) (start half 8)) := by
  have hmod : p % 256 ^ 7 = p := Nat.mod_eq_of_lt hp
  have hshift : BitVec.ofNat 64 p <<< 8 = BitVec.ofNat 64 (p * 2 ^ 8) := by
    rw [BitVec.shiftLeft_eq_mul_twoPow, BitVec.ofNat_mul]
    rfl
  have harm : awayFromZero (BitVec.ofNat 64 (p * 2 ^ 8)) 8 (BitVec.ofNat 64 0)
      (BitVec.ofNat 64 0x01020408102040) = _ :=
    awayFromZero_eq (k := 56) (m := 0) (by decide) (by decide) (by decide) (by decide) p
  rw [Nat.pow_zero, Nat.mul_one, Nat.add_zero, Nat.mul_one] at harm
  have hroom : room 8 = 2 ^ 56 := rfl
  have hstart : start half 8 = 0x01020408102040 := rfl
  rw [hmod, hshift, signed, hroom, hstart]
  exact harm

/-- What `_varint_ops<4>` reads of a code of four bytes or less. -/
theorem readSigned4_code (hL : 1 ≤ L) (hL4 : L ≤ 4) (hp : p < room L) (rest : List UInt8) :
    VarintOps4.readSigned (code L p ++ rest) =
      .ok (BitVec.ofInt 32 (away (signed L p) (start half L)), rest) := by
  have hsize := announced_first L (by omega) hL _ (div_lt_of_lt_room hp)
  rw [code_eq hL, List.cons_append, VarintOps4.readSigned, readByte, ok_bind]
  simp only [varintSize_eq, hsize]
  obtain rfl | rfl | rfl | rfl : L = 1 ∨ L = 2 ∨ L = 3 ∨ L = 4 := by omega
  · exact congrArg (fun v => Except.ok (v, rest)) (arm_one p hp)
  · simp only [readBe_bigEndian, ok_bind]
    exact congrArg (fun v => Except.ok (v, rest)) (arm32 (L := 2) (by decide) (by decide) hp 0x40)
  · simp only [readBe_bigEndian, ok_bind]
    exact congrArg (fun v => Except.ok (v, rest)) (arm32 (L := 3) (by decide) (by decide) hp 0x2040)
  · simp only [readBe_bigEndian, ok_bind]
    exact congrArg (fun v => Except.ok (v, rest))
      (arm32 (L := 4) (by decide) (by decide) hp 0x102040)

theorem signExtend_ofInt {z : ℤ} (hlow : -2 ^ 31 ≤ z) (hhigh : z < 2 ^ 31) :
    (BitVec.ofInt 32 z).signExtend 64 = BitVec.ofInt 64 z := by
  rw [BitVec.signExtend, BitVec.toInt_ofInt, Int.bmod_eq_of_le (by omega) (by omega)]

theorem away_small (hL : 1 ≤ L) (hL4 : L ≤ 4) (p : ℕ) :
    -2 ^ 31 ≤ away (signed L p) (start half L) ∧ away (signed L p) (start half L) < 2 ^ 31 := by
  have hmag := mag_signed_lt hL p
  have hall : ∀ L < 5, start half L + room L / 2 < 2 ^ 31 := by decide
  have hstart := hall L (by omega)
  have haway := mag_away (signed L p) (start half L)
  rw [mag] at haway
  split at haway <;> omega

/-- What `_varint_ops<8>` reads of a code of eight bytes or less. -/
theorem readSigned8_code (hL : 1 ≤ L) (hL8 : L ≤ 8) (hp : p < room L) (rest : List UInt8) :
    VarintOps8.readSigned (code L p ++ rest) =
      .ok (BitVec.ofInt 64 (away (signed L p) (start half L)), rest) := by
  have hsize := announced_first L (by omega) hL _ (div_lt_of_lt_room hp)
  have hsmall : L ≤ 4 → (BitVec.ofInt 32 (away (signed L p) (start half L))).signExtend 64 =
      BitVec.ofInt 64 (away (signed L p) (start half L)) := fun hL4 =>
    signExtend_ofInt (away_small hL hL4 p).1 (away_small hL hL4 p).2
  rw [code_eq hL, List.cons_append, VarintOps8.readSigned, readByte, ok_bind]
  simp only [varintSize_eq, hsize]
  obtain rfl | rfl | rfl | rfl | rfl | rfl | rfl | rfl :
    L = 1 ∨ L = 2 ∨ L = 3 ∨ L = 4 ∨ L = 5 ∨ L = 6 ∨ L = 7 ∨ L = 8 := by omega
  · rw [← hsmall (by decide)]
    exact congrArg (fun v => Except.ok (v.signExtend 64, rest)) (arm_one p hp)
  · simp only [readBe_bigEndian, ok_bind]
    rw [← hsmall (by decide)]
    exact congrArg (fun v => Except.ok (v.signExtend 64, rest))
      (arm32 (L := 2) (by decide) (by decide) hp 0x40)
  · simp only [readBe_bigEndian, ok_bind]
    rw [← hsmall (by decide)]
    exact congrArg (fun v => Except.ok (v.signExtend 64, rest))
      (arm32 (L := 3) (by decide) (by decide) hp 0x2040)
  · simp only [readBe_bigEndian, ok_bind]
    rw [← hsmall (by decide)]
    exact congrArg (fun v => Except.ok (v.signExtend 64, rest))
      (arm32 (L := 4) (by decide) (by decide) hp 0x102040)
  · simp only [readBe_bigEndian, ok_bind]
    exact congrArg (fun v => Except.ok (v, rest))
      (arm64 (L := 5) (by decide) (by decide) hp 0x08102040)
  · simp only [readBe_bigEndian, ok_bind]
    exact congrArg (fun v => Except.ok (v, rest))
      (arm64 (L := 6) (by decide) (by decide) hp 0x0408102040)
  · simp only [readBe_bigEndian, ok_bind]
    exact congrArg (fun v => Except.ok (v, rest))
      (arm64 (L := 7) (by decide) (by decide) hp 0x020408102040)
  · simp only [readBe_bigEndian, ok_bind]
    exact congrArg (fun v => Except.ok (v, rest)) (arm_eight hp)

/-- The payload in the first byte of an unsigned code. -/
theorem mask_first : (∀ L < 9, 1 ≤ L → ∀ q < 2 ^ (8 - L),
      (UInt8.ofNat (256 - 2 ^ (9 - L) + q)).toBitVec.zeroExtend 32 &&& BitVec.ofNat 32
        (2 ^ (8 - L) - 1) = BitVec.ofNat 32 q) ∧
    ∀ L < 9, 1 ≤ L → ∀ q < 2 ^ (8 - L),
      (UInt8.ofNat (256 - 2 ^ (9 - L) + q)).toBitVec.zeroExtend 64 &&& BitVec.ofNat 64
        (2 ^ (8 - L) - 1) = BitVec.ofNat 64 q := by
  constructor <;> decide

theorem shiftLeft_or_add (hd : d < 2 ^ m) (hm : m ≤ w) (x off : ℕ) :
    (BitVec.ofNat w x <<< m ||| BitVec.ofNat w d) + BitVec.ofNat w off =
      BitVec.ofNat w (x * 2 ^ m + d + off) := by
  have hshift : BitVec.ofNat w x <<< m = BitVec.ofNat w (x * 2 ^ m) := by
    refine BitVec.eq_of_toNat_eq ?_
    rw [BitVec.toNat_shiftLeft, BitVec.toNat_ofNat, BitVec.toNat_ofNat, Nat.shiftLeft_eq,
      Nat.mod_mul_mod]
  rw [hshift, ofNat_mul_or hd hm, BitVec.ofNat_add_ofNat]

theorem uarm32 (hL : 1 ≤ L) (hL4 : L ≤ 4) (hp : p < room L) (off : ℕ) :
    (((UInt8.ofNat (256 - 2 ^ (9 - L) + p / 256 ^ (L - 1))).toBitVec.zeroExtend 32 &&& BitVec.ofNat
      32 (2 ^ (8 - L) - 1)) <<<
        (8 * (L - 1)) ||| BitVec.ofNat 32 (p % 256 ^ (L - 1))) + BitVec.ofNat 32 off =
          BitVec.ofNat 32 (p + off) := by
  have hd : p % 256 ^ (L - 1) < 2 ^ (8 * (L - 1)) := by
    rw [Nat.pow_mul]
    exact Nat.mod_lt _ (Nat.pow_pos (by decide))
  rw [mask_first.1 L (by omega) hL _ (div_lt_of_lt_room hp),
    shiftLeft_or_add hd (by omega), mod_pow_256]

theorem uarm64 (hL : 1 ≤ L) (hL7 : L ≤ 7) (hp : p < room L) (off : ℕ) :
    (((UInt8.ofNat (256 - 2 ^ (9 - L) + p / 256 ^ (L - 1))).toBitVec.zeroExtend 64 &&& BitVec.ofNat
      64 (2 ^ (8 - L) - 1)) <<<
        (8 * (L - 1)) ||| BitVec.ofNat 64 (p % 256 ^ (L - 1))) + BitVec.ofNat 64 off =
          BitVec.ofNat 64 (p + off) := by
  have hd : p % 256 ^ (L - 1) < 2 ^ (8 * (L - 1)) := by
    rw [Nat.pow_mul]
    exact Nat.mod_lt _ (Nat.pow_pos (by decide))
  rw [mask_first.2 L (by omega) hL _ (div_lt_of_lt_room hp),
    shiftLeft_or_add hd (by omega), mod_pow_256]

theorem uarm_one :
    (∀ p < 128, (UInt8.ofNat (256 - 2 ^ (9 - 1) + p / 256 ^ (1 - 1))).toBitVec.zeroExtend 32 =
      BitVec.ofNat 32 (p + start room 1)) ∧
    ∀ p < 128, (UInt8.ofNat (256 - 2 ^ (9 - 1) + p / 256 ^ (1 - 1))).toBitVec.zeroExtend 64 =
      BitVec.ofNat 64 (p + start room 1) := by
  constructor <;> decide

/-- What `_varint_ops<4>` reads of a code of four bytes or less. -/
theorem readUnsigned4_code (hL : 1 ≤ L) (hL4 : L ≤ 4) (hp : p < room L) (rest : List UInt8) :
    VarintOps4.readUnsigned (code L p ++ rest) =
      .ok (BitVec.ofNat 32 (p + start room L), rest) := by
  have hsize := announced_first L (by omega) hL _ (div_lt_of_lt_room hp)
  rw [code_eq hL, List.cons_append, VarintOps4.readUnsigned, readByte, ok_bind]
  simp only [varintSize_eq, hsize]
  obtain rfl | rfl | rfl | rfl : L = 1 ∨ L = 2 ∨ L = 3 ∨ L = 4 := by omega
  · exact congrArg (fun v => Except.ok (v, rest)) (uarm_one.1 p hp)
  · simp only [readBe_bigEndian, ok_bind]
    exact congrArg (fun v => Except.ok (v, rest)) (uarm32 (L := 2) (by decide) (by decide) hp 0x80)
  · simp only [readBe_bigEndian, ok_bind]
    exact congrArg (fun v => Except.ok (v, rest))
      (uarm32 (L := 3) (by decide) (by decide) hp 0x4080)
  · simp only [readBe_bigEndian, ok_bind]
    exact congrArg (fun v => Except.ok (v, rest))
      (uarm32 (L := 4) (by decide) (by decide) hp 0x204080)

/-- What `_varint_ops<8>` reads of a code of eight bytes or less. -/
theorem readUnsigned8_code (hL : 1 ≤ L) (hL8 : L ≤ 8) (hp : p < room L) (rest : List UInt8) :
    VarintOps8.readUnsigned (code L p ++ rest) =
      .ok (BitVec.ofNat 64 (p + start room L), rest) := by
  have hsize := announced_first L (by omega) hL _ (div_lt_of_lt_room hp)
  rw [code_eq hL, List.cons_append, VarintOps8.readUnsigned, readByte, ok_bind]
  simp only [varintSize_eq, hsize]
  obtain rfl | rfl | rfl | rfl | rfl | rfl | rfl | rfl :
    L = 1 ∨ L = 2 ∨ L = 3 ∨ L = 4 ∨ L = 5 ∨ L = 6 ∨ L = 7 ∨ L = 8 := by omega
  · exact congrArg (fun v => Except.ok (v, rest)) (uarm_one.2 p hp)
  · simp only [readBe_bigEndian, ok_bind]
    exact congrArg (fun v => Except.ok (v, rest)) (uarm64 (L := 2) (by decide) (by decide) hp 0x80)
  · simp only [readBe_bigEndian, ok_bind]
    exact congrArg (fun v => Except.ok (v, rest))
      (uarm64 (L := 3) (by decide) (by decide) hp 0x4080)
  · simp only [readBe_bigEndian, ok_bind]
    exact congrArg (fun v => Except.ok (v, rest))
      (uarm64 (L := 4) (by decide) (by decide) hp 0x204080)
  · simp only [readBe_bigEndian, ok_bind]
    exact congrArg (fun v => Except.ok (v, rest))
      (uarm64 (L := 5) (by decide) (by decide) hp 0x10204080)
  · simp only [readBe_bigEndian, ok_bind]
    exact congrArg (fun v => Except.ok (v, rest))
      (uarm64 (L := 6) (by decide) (by decide) hp 0x0810204080)
  · simp only [readBe_bigEndian, ok_bind]
    exact congrArg (fun v => Except.ok (v, rest))
      (uarm64 (L := 7) (by decide) (by decide) hp 0x040810204080)
  · have hmod : p % 256 ^ 7 = p := Nat.mod_eq_of_lt hp
    simp only [readBe_bigEndian, ok_bind, hmod]
    exact congrArg (fun v => Except.ok (v, rest)) (BitVec.ofNat_add_ofNat p 0x02040810204080)

/-! ### The longest codes -/

theorem toInt_ofInt_of_mem (hw : 0 < w) {z : ℤ} (hlow : -2 ^ (w - 1) ≤ z)
    (hhigh : z < 2 ^ (w - 1)) :
    (BitVec.ofInt w z).toInt = z := by
  obtain ⟨j, rfl⟩ : ∃ j, w = j + 1 := ⟨w - 1, by omega⟩
  rw [Nat.add_sub_cancel] at hlow hhigh
  rw [BitVec.toInt_ofInt]
  refine Int.bmod_eq_of_le ?_ ?_ <;> push_cast <;> rw [pow_succ] <;> omega

theorem slt_zero (v : BitVec w) : v.slt 0 = true ↔ v.toInt < 0 := by
  rw [BitVec.slt_iff_toInt_lt]
  change _ < (0#w).toInt ↔ _
  rw [BitVec.toInt_zero]

/-- An offset that is added or taken away, on numbers. -/
theorem checkedOffset_eq (hw : 0 < w) {off : ℕ} (hoff : off < 2 ^ (w - 1)) (down : Bool)
    (value : BitVec w) (s : List UInt8) :
    checkedOffset down value (BitVec.ofNat w off) s =
      if down then
        if value.toInt - off < -2 ^ (w - 1) then .error .ub
        else if value.toInt - off < 0 then .ok (BitVec.ofInt w (value.toInt - off), s)
        else .error .tooLarge
      else if 2 ^ (w - 1) ≤ value.toInt + off then .error .ub
      else if value.toInt + off < 0 then .error .tooLarge
      else .ok (BitVec.ofInt w (value.toInt + off), s) := by
  obtain ⟨j, rfl⟩ : ∃ j, w = j + 1 := ⟨w - 1, by omega⟩
  rw [Nat.add_sub_cancel] at hoff ⊢
  have hoff' : (off : ℤ) < 2 ^ j := by exact_mod_cast hoff
  have hpow : (2 : ℤ) ^ (j + 1) = 2 * 2 ^ j := by rw [pow_succ, mul_comm]
  have hint : (BitVec.ofNat (j + 1) off).toInt = off := by
    rw [BitVec.toInt_ofNat']
    refine Int.bmod_eq_of_le ?_ ?_ <;> push_cast <;> omega
  have hlow := BitVec.le_toInt value
  have hhigh := BitVec.toInt_lt (x := value)
  rw [Nat.add_sub_cancel] at hlow hhigh
  have hsub : value.ssubOverflow (BitVec.ofNat (j + 1) off) = true ↔
      value.toInt - off < -2 ^ j := by
    simp only [BitVec.ssubOverflow, hint, Nat.add_sub_cancel, Bool.or_eq_true, decide_eq_true_eq]
    omega
  have hadd : value.saddOverflow (BitVec.ofNat (j + 1) off) = true ↔ 2 ^ j ≤ value.toInt + off := by
    simp only [BitVec.saddOverflow, hint, Nat.add_sub_cancel, Bool.or_eq_true, decide_eq_true_eq]
    omega
  have hdiff : value - BitVec.ofNat (j + 1) off = BitVec.ofInt (j + 1) (value.toInt - off) := by
    rw [Int.sub_eq_add_neg, BitVec.ofInt_add, BitVec.ofInt_neg, BitVec.ofInt_toInt,
      BitVec.ofInt_natCast, BitVec.sub_eq_add_neg]
  have hsum : value + BitVec.ofNat (j + 1) off = BitVec.ofInt (j + 1) (value.toInt + off) := by
    rw [BitVec.ofInt_add, BitVec.ofInt_toInt, BitVec.ofInt_natCast]
  rw [checkedOffset]
  simp only [hsub, hadd, slt_zero, hdiff, hsum]
  cases down with
  | true =>
    simp only [if_true]
    refine ite_congr rfl (fun _ => rfl) fun hin => ?_
    rw [toInt_ofInt_of_mem hw (by rw [Nat.add_sub_cancel]; omega)
      (by rw [Nat.add_sub_cancel]; omega)]
  | false =>
    simp only [Bool.false_eq_true, if_false]
    refine ite_congr rfl (fun _ => rfl) fun hin => ?_
    rw [toInt_ofInt_of_mem hw (by rw [Nat.add_sub_cancel]; omega)
      (by rw [Nat.add_sub_cancel]; omega)]

/-- Nine bytes are read as the number they stand for, if that has eight bytes. -/
theorem readUnsigned8_nine (hp : p < room 9) (rest : List UInt8) :
    VarintOps8.readUnsigned (code 9 p ++ rest) =
      if p + start room 9 < 2 ^ 64 then .ok (BitVec.ofNat 64 (p + start room 9), rest)
      else .error .tooLarge := by
  have hsize := announced_first 9 (by decide) (by decide) _ (div_lt_of_lt_room hp)
  have hroom : room 9 = 2 ^ 64 := rfl
  have hmod : p % 256 ^ 8 = p := Nat.mod_eq_of_lt (by omega)
  have hstart : start room 9 = 0x0102040810204080 := rfl
  have hle : BitVec.ofNat 64 p ≤ 0xFFFFFFFFFFFFFFFF#64 - 0x0102040810204080#64 ↔
      p + start room 9 < 2 ^ 64 := by
    rw [BitVec.le_def, BitVec.toNat_ofNat, Nat.mod_eq_of_lt (by omega), hstart]
    change p ≤ 0xFFFFFFFFFFFFFFFF - 0x0102040810204080 ↔ _
    omega
  rw [code_eq (by decide), List.cons_append, VarintOps8.readUnsigned, readByte, ok_bind]
  simp only [varintSize_eq, hsize, readBe_bigEndian, ok_bind, hmod]
  refine if_congr hle ?_ rfl
  rw [hstart, BitVec.ofNat_add]
  rfl

/-- Five bytes are read as the number they stand for, if that has four bytes. -/
theorem readUnsigned4_five (hp : p < room 5) (rest : List UInt8) :
    VarintOps4.readUnsigned (code 5 p ++ rest) =
      if p + start room 5 < 2 ^ 32 then .ok (BitVec.ofNat 32 (p + start room 5), rest)
      else .error .tooLarge := by
  have hq := div_lt_of_lt_room hp
  have hsize := announced_first 5 (by decide) (by decide) _ hq
  have hstart : start room 5 = 0x10204080 := rfl
  have hmask := mask_first.1 5 (by decide) (by decide) _ hq
  have hzero : (UInt8.ofNat (256 - 2 ^ (9 - 5) + p / 256 ^ (5 - 1))).toBitVec.zeroExtend 32 &&&
      0x07 = 0 ↔ p / 256 ^ 4 = 0 := by
    refine (Iff.of_eq (congrArg (· = 0#32) hmask)).trans ?_
    rw [BitVec.toNat_eq, BitVec.toNat_ofNat]
    change p / 256 ^ (5 - 1) % 2 ^ 32 = 0 ↔ _
    omega
  rw [code_eq (by decide), List.cons_append, VarintOps4.readUnsigned, readByte, ok_bind]
  simp only [varintSize_eq, hsize, readBe_bigEndian, ok_bind]
  rw [if_congr hzero rfl rfl]
  split
  · next hlow =>
    have hle : BitVec.ofNat 32 (p % 256 ^ 4) ≤ 0xFFFFFFFF#32 - 0x10204080#32 ↔
        p + start room 5 < 2 ^ 32 := by
      rw [BitVec.le_def, BitVec.toNat_ofNat, hstart]
      change p % 256 ^ 4 % 2 ^ 32 ≤ 0xFFFFFFFF - 0x10204080 ↔ _
      omega
    have hmod : p % 256 ^ 4 = p := Nat.mod_eq_of_lt (by omega)
    refine if_congr hle ?_ rfl
    rw [hstart, BitVec.ofNat_add, hmod]
    rfl
  · rw [if_neg (by omega)]
    rfl

/-- Nine bytes are read as the signed number they stand for, if that has eight bytes. -/
theorem readSigned8_nine (hp : p < room 9) (rest : List UInt8) :
    VarintOps8.readSigned (code 9 p ++ rest) =
      if -2 ^ 63 ≤ away (signed 9 p) (start half 9) ∧ away (signed 9 p) (start half 9) < 2 ^ 63 then
        .ok (BitVec.ofInt 64 (away (signed 9 p) (start half 9)), rest)
      else .error .ub := by
  have hsize := announced_first 9 (by decide) (by decide) _ (div_lt_of_lt_room hp)
  have hroom : room 9 = 2 ^ 64 := rfl
  have hmod : p % 256 ^ 8 = p := Nat.mod_eq_of_lt (by omega)
  have hstart : start half 9 = 0x0081020408102040 := rfl
  have hsigned : (BitVec.ofNat 64 p).toInt = signed 9 p := by
    rw [BitVec.toInt_ofNat', signed, hroom]
  have hlt : signed 9 p < 2 ^ 63 := hsigned ▸ BitVec.toInt_lt
  have hge : -2 ^ 63 ≤ signed 9 p := hsigned ▸ BitVec.le_toInt _
  rw [code_eq (by decide), List.cons_append, VarintOps8.readSigned, readByte, ok_bind]
  simp only [varintSize_eq, hsize, readBe_bigEndian, ok_bind, hmod]
  have hoff : 0x0081020408102040 < 2 ^ (64 - 1) := by decide
  refine (checkedOffset_eq (by decide) hoff _ _ _).trans ?_
  simp only [slt_zero, hsigned]
  rcases lt_or_ge (signed 9 p) 0 with hneg | hpos
  · have haway : away (signed 9 p) (start half 9) = signed 9 p - (0x0081020408102040 : ℕ) := by
      rw [away, if_pos hneg, hstart]
    rw [if_pos hneg, haway]
    split
    · rw [if_neg (by omega)]
    · rw [if_pos (by omega), if_pos (by omega)]
  · have haway : away (signed 9 p) (start half 9) = signed 9 p + (0x0081020408102040 : ℕ) := by
      rw [away, if_neg (by omega), hstart]
    rw [if_neg (by omega), haway]
    split
    · rw [if_neg (by omega)]
    · rw [if_neg (by omega), if_pos (by omega)]

/-- Five bytes with the payload of four bytes behind a first byte that has the sign only. -/
theorem readSigned4_five (hp : p < room 5) (rest : List UInt8) :
    VarintOps4.readSigned (code 5 p ++ rest) =
      if p / 256 ^ 4 = 7 ∨ p / 256 ^ 4 = 0 then
        checkedOffset (decide (p / 256 ^ 4 = 7)) (BitVec.ofNat 32 p)
          (BitVec.ofNat 32 0x08102040) rest
      else .error .tooLarge := by
  have hq := div_lt_of_lt_room hp
  have hsize := announced_first 5 (by decide) (by decide) _ hq
  have hpromote := promote_first.1 5 (by decide) (by decide) _ hq
  have hall : ∀ q < 8, ((BitVec.ofNat 32 (q * 2 ^ 29)).sshiftRight 29 + 1 ≤ 1 ↔ q = 7 ∨ q = 0) ∧
      (q = 7 ∨ q = 0 → (BitVec.ofNat 32 (q * 2 ^ 29)).slt 0 = decide (q = 7)) := by
    decide
  obtain ⟨hsign, hslt⟩ := hall _ hq
  have hmod : BitVec.ofNat 32 (p % 256 ^ 4) = BitVec.ofNat 32 p := by
    refine BitVec.eq_of_toNat_eq ?_
    rw [BitVec.toNat_ofNat, BitVec.toNat_ofNat]
    omega
  rw [code_eq (by decide), List.cons_append, VarintOps4.readSigned, readByte, ok_bind]
  simp only [varintSize_eq, hsize, readBe_bigEndian, ok_bind, hmod]
  have hprom : promote 32 (UInt8.ofNat (256 - 2 ^ (9 - 5) + p / 256 ^ (5 - 1))) 29 = _ := hpromote
  rw [hprom]
  refine ite_congr (propext hsign) (fun hone => ?_) fun _ => rfl
  rw [hslt hone]
  rfl

/-! ### Codes that end early -/

/-- Fewer bytes than the first one announces are not enough. -/
theorem readSigned8_short {b : UInt8} {s : List UInt8} (h : s.length + 1 < announced b) :
    VarintOps8.readSigned (b :: s) = .error .prematureEof := by
  obtain ⟨hL, hL9, -⟩ := first_announced b
  rw [VarintOps8.readSigned, readByte, ok_bind]
  simp only [varintSize_eq]
  generalize announced b = L at h hL hL9
  obtain rfl | rfl | rfl | rfl | rfl | rfl | rfl | rfl :
    L = 2 ∨ L = 3 ∨ L = 4 ∨ L = 5 ∨ L = 6 ∨ L = 7 ∨ L = 8 ∨ L = 9 := by omega
  all_goals
    simp (disch := omega) only [readBe_short]
    rfl

theorem readUnsigned8_short {b : UInt8} {s : List UInt8} (h : s.length + 1 < announced b) :
    VarintOps8.readUnsigned (b :: s) = .error .prematureEof := by
  obtain ⟨hL, hL9, -⟩ := first_announced b
  rw [VarintOps8.readUnsigned, readByte, ok_bind]
  simp only [varintSize_eq]
  generalize announced b = L at h hL hL9
  obtain rfl | rfl | rfl | rfl | rfl | rfl | rfl | rfl :
    L = 2 ∨ L = 3 ∨ L = 4 ∨ L = 5 ∨ L = 6 ∨ L = 7 ∨ L = 8 ∨ L = 9 := by omega
  all_goals
    simp (disch := omega) only [readBe_short]
    rfl

theorem sign_only :
    ∀ q < 8, ((promote 32 (UInt8.ofNat (240 + q)) 29).sshiftRight 29 + 1 ≤ 1 ↔ q = 0 ∨ q = 7) := by
  decide

theorem five_bytes {b : UInt8} (h : announced b = 5) :
    240 ≤ b.toNat ∧ b.toNat < 248 ∧
      ((promote 32 b 29).sshiftRight 29 + 1 ≤ 1 ↔ b.toNat = 0xF0 ∨ b.toNat = 0xF7) := by
  obtain ⟨-, -, hlow, hhigh⟩ := first_announced b
  rw [h] at hlow hhigh
  have hlow' : 240 ≤ b.toNat := hlow
  have hhigh' : b.toNat - 240 < 8 := hhigh
  have hsign := sign_only (b.toNat - 240) hhigh
  rw [Nat.add_sub_cancel' hlow', UInt8.ofNat_toNat] at hsign
  exact ⟨hlow', by omega, hsign.trans (by omega)⟩

theorem more_bytes {b : UInt8} (h : 5 < announced b) : 248 ≤ b.toNat := by
  obtain ⟨-, -, hlow, -⟩ := first_announced b
  have hpow : 2 ^ (9 - announced b) ≤ 2 ^ 3 := Nat.pow_le_pow_right (by decide) (by omega)
  omega

/-- The reader of four bytes looks at a first byte that announces five or
    more before it reads on. -/
theorem readSigned4_short {b : UInt8} {s : List UInt8} (h : s.length + 1 < announced b) :
    VarintOps4.readSigned (b :: s) =
      .error (if announced b ≤ 4 ∨ b.toNat = 0xF0 ∨ b.toNat = 0xF7 then .prematureEof
        else .tooLarge) := by
  have hL9 := (first_announced b).2.1
  rw [VarintOps4.readSigned, readByte, ok_bind]
  simp only [varintSize_eq]
  obtain heq | heq | heq | heq | hmore : announced b = 2 ∨ announced b = 3 ∨ announced b = 4 ∨
      announced b = 5 ∨ 5 < announced b := by
    omega
  · simp (disch := omega) only [heq, readBe_short]
    rfl
  · simp (disch := omega) only [heq, readBe_short]
    rfl
  · simp (disch := omega) only [heq, readBe_short]
    rfl
  · obtain ⟨-, -, hsign⟩ := five_bytes heq
    simp (disch := omega) only [heq, readBe_short]
    split
    · next hone =>
      rw [if_pos (.inr (hsign.mp hone) : 5 ≤ 4 ∨ b.toNat = 0xF0 ∨ b.toNat = 0xF7)]
      rfl
    · next hone =>
      rw [hsign] at hone
      rw [if_neg (show ¬(5 ≤ 4 ∨ b.toNat = 0xF0 ∨ b.toNat = 0xF7) by omega)]
      rfl
  · have hbig := more_bytes hmore
    rw [if_neg (show ¬(announced b ≤ 4 ∨ b.toNat = 0xF0 ∨ b.toNat = 0xF7) by omega)]
    obtain heq | heq | heq | heq : announced b = 6 ∨ announced b = 7 ∨ announced b = 8 ∨
      announced b = 9 := by omega
    all_goals
      simp only [heq]
      rfl

/-- The same for unsigned numbers. -/
theorem readUnsigned4_short {b : UInt8} {s : List UInt8} (h : s.length + 1 < announced b) :
    VarintOps4.readUnsigned (b :: s) =
      .error (if announced b ≤ 4 ∨ b.toNat = 0xF0 then .prematureEof else .tooLarge) := by
  have hL9 := (first_announced b).2.1
  rw [VarintOps4.readUnsigned, readByte, ok_bind]
  simp only [varintSize_eq]
  obtain heq | heq | heq | heq | hmore : announced b = 2 ∨ announced b = 3 ∨ announced b = 4 ∨
      announced b = 5 ∨ 5 < announced b := by
    omega
  · simp (disch := omega) only [heq, readBe_short]
    rfl
  · simp (disch := omega) only [heq, readBe_short]
    rfl
  · simp (disch := omega) only [heq, readBe_short]
    rfl
  · obtain ⟨hlow, hhigh, -⟩ := five_bytes heq
    have hall : ∀ q < 8,
      ((UInt8.ofNat (240 + q)).toBitVec.zeroExtend 32 &&& 0x07 = 0 ↔ q = 0) := by decide
    have hmask := hall (b.toNat - 240) (by omega)
    rw [Nat.add_sub_cancel' hlow, UInt8.ofNat_toNat] at hmask
    simp (disch := omega) only [heq, readBe_short]
    split
    · next hone =>
      rw [hmask] at hone
      rw [if_pos (show 5 ≤ 4 ∨ b.toNat = 0xF0 by omega)]
      rfl
    · next hone =>
      rw [hmask] at hone
      rw [if_neg (show ¬(5 ≤ 4 ∨ b.toNat = 0xF0) by omega)]
      rfl
  · have hbig := more_bytes hmore
    rw [if_neg (show ¬(announced b ≤ 4 ∨ b.toNat = 0xF0) by omega)]
    obtain heq | heq | heq | heq : announced b = 6 ∨ announced b = 7 ∨ announced b = 8 ∨
      announced b = 9 := by omega
    all_goals
      simp only [heq]
      rfl

/-- `_varint_ops<4>` turns a code of six bytes or more down after its first byte. -/
theorem read4_long (hL : 5 < L) (hL9 : L ≤ 9) (hp : p < room L) (rest : List UInt8) :
    VarintOps4.readSigned (code L p ++ rest) = .error .tooLarge ∧
      VarintOps4.readUnsigned (code L p ++ rest) = .error .tooLarge := by
  have hsize := announced_first L (by omega) (by omega) _ (div_lt_of_lt_room hp)
  rw [code_eq (by omega), List.cons_append, VarintOps4.readSigned, VarintOps4.readUnsigned,
    readByte, ok_bind, ok_bind]
  simp only [varintSize_eq, hsize]
  obtain rfl | rfl | rfl | rfl : L = 6 ∨ L = 7 ∨ L = 8 ∨ L = 9 := by omega
  all_goals exact ⟨rfl, rfl⟩

end Matching.Common
