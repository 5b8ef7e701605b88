import Mathlib.Tactic.IntervalCases
import Matching.Lib.Memory

/-! `memxor32`, which puts a mask on a buffer and takes it off: single bytes up to an
    aligned address, vectors of four words, and single bytes again. It comes to the same as
    going over the buffer byte by byte. Shifts take their count modulo the width of what
    they shift, as the processors do. -/

namespace Matching.WebSocket

/-- `rotr`. -/
def rotr (v s : UInt32) : UInt32 := v >>> s ||| v <<< (32 - s)

/-- The loop over single bytes up to an aligned address: the bytes it made,
    the rest, and `mask_le`. -/
def memxorHead (addr : ℕ) (maskLe : UInt32) : List UInt8 → List UInt8 × List UInt8 × UInt32
  | [] => ([], [], maskLe)
  | b :: bs =>
    if addr % 16 = 0 then ([], b :: bs, maskLe)
    else
      let (out, rest, maskLe') := memxorHead (addr + 1) (rotr maskLe 8) bs
      ((b ^^^ maskLe.toUInt8) :: out, rest, maskLe')

/-- The loop over vectors of four words; each word of a vector is xored with `mask_he`. -/
def memxorVectors (maskHe : UInt32) : ℕ → List UInt8 → List UInt8 × List UInt8
  | 0, bs => ([], bs)
  | k + 1, bs =>
    if 16 ≤ bs.length then
      let word := wordBytes 4 maskHe.toNat
      let (out, rest) := memxorVectors maskHe k (bs.drop 16)
      (List.zipWith (fun b c => b ^^^ c) (bs.take 16) (word ++ word ++ word ++ word) ++ out, rest)
    else ([], bs)

/-- The loop over the rest. -/
def memxorTail (maskLe : UInt32) : List UInt8 → List UInt8
  | [] => []
  | b :: bs => (b ^^^ maskLe.toUInt8) :: memxorTail (rotr maskLe 8) bs

/-- `memxor32(buf, n, mask, phase)` for a buffer at `addr`. -/
def memxor32 (addr : ℕ) (buf : List UInt8) (mask : UInt32) (phase : ℕ) : List UInt8 :=
  let maskLe := rotr mask (UInt32.ofNat (phase * 8 % 2 ^ 64))
  let (out, rest, maskLe) := memxorHead addr maskLe buf
  let (vectors, rest) := memxorVectors maskLe (rest.length / 16) rest
  out ++ vectors ++ memxorTail maskLe rest

/-! ### Rotations -/

/-- The byte of a mask that a payload byte is xored with. -/
def maskByte (v : UInt32) (k : ℕ) : UInt8 := UInt8.ofNat (v.toNat / 2 ^ (8 * (k % 4)))

/-- A rotation by whole bytes, bit by bit. -/
theorem testBit_rotr (v : UInt32) {s : UInt32} {p j : ℕ} (hp : p < 4) (hs : s.toNat % 32 = 8 * p)
    (hj : j < 32) :
    (rotr v s).toNat.testBit j = v.toNat.testBit ((8 * p + j) % 32) := by
  have hv := v.toNat_lt
  have hslt := s.toNat_lt
  have hback : (32 - s).toNat % 32 = (32 - 8 * p) % 32 := by
    rw [UInt32.toNat_sub]
    simp only [UInt32.reduceToNat]
    omega
  rw [rotr, UInt32.toNat_or, UInt32.toNat_shiftRight, UInt32.toNat_shiftLeft, hs, hback,
    Nat.testBit_or, Nat.testBit_shiftRight, Nat.testBit_mod_two_pow, Nat.testBit_shiftLeft]
  rcases Nat.eq_zero_or_pos p with rfl | hpos
  · simp [hj, Nat.mod_eq_of_lt hj]
  · rw [Nat.mod_eq_of_lt (show 32 - 8 * p < 32 by omega)]
    rcases Nat.lt_or_ge (8 * p + j) 32 with hin | hout
    · rw [Nat.mod_eq_of_lt hin]
      simp [show ¬32 - 8 * p ≤ j by omega]
    · have hzero : v.toNat.testBit (8 * p + j) = false :=
        Nat.testBit_lt_two_pow (hv.trans_le (Nat.pow_le_pow_right (by decide) hout))
      rw [hzero, show (8 * p + j) % 32 = j - (32 - 8 * p) by omega]
      simp [hj, show 32 - 8 * p ≤ j by omega]

/-- Rotating a mask moves on to its next bytes. -/
theorem maskByte_rotr (v : UInt32) {s : UInt32} {p : ℕ} (hs : s.toNat % 32 = 8 * (p % 4)) (k : ℕ) :
    maskByte (rotr v s) k = maskByte v (p + k) := by
  have hp : p % 4 < 4 := Nat.mod_lt _ (by decide)
  apply UInt8.toNat_inj.mp
  rw [maskByte, maskByte, UInt8.toNat_ofNat', UInt8.toNat_ofNat']
  refine Nat.eq_of_testBit_eq fun i => ?_
  rw [Nat.testBit_mod_two_pow, Nat.testBit_mod_two_pow, Nat.testBit_div_two_pow,
    Nat.testBit_div_two_pow]
  rcases Nat.lt_or_ge i 8 with hi | hi
  · rw [testBit_rotr v hp hs (by omega)]
    congr 2
    omega
  · simp [show ¬i < 8 by omega]

theorem toUInt8_eq (v : UInt32) : v.toUInt8 = maskByte v 0 := by
  apply UInt8.toNat_inj.mp
  simp [maskByte]

theorem wordBytes_eq (v : UInt32) :
    wordBytes 4 v.toNat = [maskByte v 0, maskByte v 1, maskByte v 2, maskByte v 3] := by
  simp [wordBytes, maskByte, Nat.div_div_eq_div_mul]

/-! ### The loops -/

/-- Bytes under a mask, the first of them at phase `p`. -/
def xorFrom (v : UInt32) (p : ℕ) (bs : List UInt8) : List UInt8 :=
  bs.mapIdx fun i b => b ^^^ maskByte v (p + i)

theorem maskByte_mod (v : UInt32) (k : ℕ) : maskByte v (k % 4) = maskByte v k := by simp [maskByte]

theorem xorFrom_cons (v : UInt32) (p : ℕ) (b : UInt8) (bs : List UInt8) :
    xorFrom v p (b :: bs) = (b ^^^ maskByte v p) :: xorFrom v (p + 1) bs := by
  simp [xorFrom, List.mapIdx_cons, Nat.add_assoc, Nat.add_comm 1]

theorem xorFrom_append (v : UInt32) (p : ℕ) (xs ys : List UInt8) :
    xorFrom v p (xs ++ ys) = xorFrom v p xs ++ xorFrom v (p + xs.length) ys := by
  simp [xorFrom, List.mapIdx_append, Nat.add_assoc, Nat.add_comm xs.length]

/-- Masks with the same bytes from some phase on. -/
theorem xorFrom_congr {v w : UInt32} {p q : ℕ} (h : ∀ k, maskByte v (p + k) = maskByte w (q + k))
    (bs : List UInt8) :
    xorFrom v p bs = xorFrom w q bs := by
  simp only [xorFrom, h]

theorem memxorHead_spec : ∀ (bs : List UInt8) (addr : ℕ) (v : UInt32),
    let r := memxorHead addr v bs
    ∃ pre, bs = pre ++ r.2.1 ∧ r.1 = xorFrom v 0 pre ∧
      ∀ k, maskByte r.2.2 k = maskByte v (pre.length + k)
  | [], addr, v => ⟨[], rfl, rfl, fun k => by rw [List.length_nil, Nat.zero_add]; rfl⟩
  | b :: bs, addr, v => by
    by_cases haddr : addr % 16 = 0
    · simp only [memxorHead, if_pos haddr]
      exact ⟨[], rfl, rfl, fun k => by rw [List.length_nil, Nat.zero_add]⟩
    · simp only [memxorHead, if_neg haddr]
      obtain ⟨pre, hsplit, hout, hmask⟩ := memxorHead_spec bs (addr + 1) (rotr v 8)
      have hrot : ∀ k, maskByte (rotr v 8) k = maskByte v (1 + k) := maskByte_rotr v (by decide)
      refine ⟨b :: pre, by rw [List.cons_append, ← hsplit], ?_, fun k => ?_⟩
      · rw [hout, xorFrom_cons, toUInt8_eq,
          xorFrom_congr (q := 1) (fun k => by rw [Nat.zero_add, hrot])]
      · rw [hmask, hrot, List.length_cons]
        congr 1
        omega

theorem xorFrom_vector (v : UInt32) {bs : List UInt8} (hlen : bs.length = 16) :
    List.zipWith (fun b c => b ^^^ c) bs
      (wordBytes 4 v.toNat ++ wordBytes 4 v.toNat ++ wordBytes 4 v.toNat ++ wordBytes 4 v.toNat) =
      xorFrom v 0 bs := by
  rw [wordBytes_eq]
  refine List.ext_getElem? fun i => ?_
  rcases Nat.lt_or_ge i 16 with hi | hi
  · have hbyte :
      ([maskByte v 0, maskByte v 1, maskByte v 2, maskByte v 3] ++
        [maskByte v 0, maskByte v 1, maskByte v 2, maskByte v 3] ++
          [maskByte v 0, maskByte v 1, maskByte v 2, maskByte v 3] ++
          [maskByte v 0, maskByte v 1, maskByte v 2, maskByte v 3])[i]? = some (maskByte v i) := by
      rw [← maskByte_mod v i]
      interval_cases i <;> rfl
    have hin : i < bs.length := by omega
    simp only [List.getElem?_zipWith, hbyte, xorFrom, List.getElem?_mapIdx, Nat.zero_add,
      List.getElem?_eq_getElem hin, Option.map_some]
  · rw [List.getElem?_eq_none (by simp; omega), List.getElem?_eq_none (by simp [xorFrom]; omega)]

theorem memxorVectors_spec (v : UInt32) : ∀ (k : ℕ) (bs : List UInt8),
    let r := memxorVectors v k bs
    ∃ pre, bs = pre ++ r.2 ∧ r.1 = xorFrom v 0 pre ∧ ∀ i, maskByte v (pre.length + i) = maskByte v i
  | 0, bs => ⟨[], rfl, rfl, fun i => by rw [List.length_nil, Nat.zero_add]⟩
  | k + 1, bs => by
    by_cases hlen : 16 ≤ bs.length
    · simp only [memxorVectors, if_pos hlen]
      obtain ⟨pre, hsplit, hout, hmask⟩ := memxorVectors_spec v k (bs.drop 16)
      have htake : (bs.take 16).length = 16 := by rw [List.length_take]; omega
      have hperiod : ∀ i, maskByte v (16 + i) = maskByte v i := fun i => by
        rw [← maskByte_mod, ← maskByte_mod v i]
        congr 1
        omega
      refine ⟨bs.take 16 ++ pre, ?_, ?_, fun i => ?_⟩
      · rw [List.append_assoc, ← hsplit, List.take_append_drop]
      · rw [xorFrom_vector v htake, xorFrom_append, hout, htake]
        congr 1
        exact xorFrom_congr (fun i => by rw [Nat.zero_add, Nat.zero_add, hperiod]) pre
      · rw [List.length_append, htake, Nat.add_assoc, hperiod, hmask]
    · simp only [memxorVectors, if_neg hlen]
      exact ⟨[], rfl, rfl, fun i => by rw [List.length_nil, Nat.zero_add]⟩

theorem memxorTail_eq : ∀ (bs : List UInt8) (v : UInt32), memxorTail v bs = xorFrom v 0 bs
  | [], _ => rfl
  | b :: bs, v => by
    have hrot : ∀ k, maskByte (rotr v 8) k = maskByte v (1 + k) := maskByte_rotr v (by decide)
    rw [memxorTail, memxorTail_eq bs, xorFrom_cons, toUInt8_eq,
      xorFrom_congr (q := 1) (fun k => by rw [Nat.zero_add, hrot])]

/-- Wherever the buffer lies, each byte is xored with the byte of the mask at its phase. -/
theorem memxor32_eq (addr : ℕ) (buf : List UInt8) (v : UInt32) (phase : ℕ) :
    memxor32 addr buf v phase = xorFrom v phase buf := by
  have hshift : (UInt32.ofNat (phase * 8 % 2 ^ 64)).toNat % 32 = 8 * (phase % 4) := by
    rw [UInt32.toNat_ofNat']
    omega
  have hrot := maskByte_rotr v hshift
  obtain ⟨pre, hsplit, hout, hmask⟩ :=
    memxorHead_spec buf addr (rotr v (UInt32.ofNat (phase * 8 % 2 ^ 64)))
  simp only [memxor32]
  generalize memxorHead addr (rotr v (UInt32.ofNat (phase * 8 % 2 ^ 64))) buf =
    r at hsplit hout hmask ⊢
  obtain ⟨mid, hsplit', hout', hmask'⟩ := memxorVectors_spec r.2.2 (r.2.1.length / 16) r.2.1
  generalize memxorVectors r.2.2 (r.2.1.length / 16) r.2.1 = q at hsplit' hout' ⊢
  rw [memxorTail_eq, hout, hout', hsplit, hsplit', xorFrom_append, xorFrom_append,
    List.append_assoc]
  congr 1
  · exact xorFrom_congr (fun k => by rw [Nat.zero_add, hrot]) pre
  congr 1
  · refine xorFrom_congr (fun k => ?_) mid
    rw [Nat.zero_add, hmask, hrot, Nat.add_assoc]
  · refine xorFrom_congr (fun k => ?_) q.2
    rw [Nat.zero_add, ← hmask' k, hmask, hrot]
    congr 1
    omega

end Matching.WebSocket
