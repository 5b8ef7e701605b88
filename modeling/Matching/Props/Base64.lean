import Matching.Common.Base64
import Matching.Lib.Words

/-! The text that the encoder writes, however its input and its output buffers are cut, is the
    standard base64 text of the whole input, and the decoder takes it back. -/

namespace Matching.Common

namespace Base64

/-! ### The standard text -/

/-- The base64 alphabet. -/
def digit (i : ℕ) : UInt8 :=
  if i < 26 then .ofNat (65 + i)
  else if i < 52 then .ofNat (97 + (i - 26))
  else if i < 62 then .ofNat (48 + (i - 52))
  else if i = 62 then 43 else 47

/-- A group of 24 bits as four digits of six bits. -/
def group (n : ℕ) : List UInt8 :=
  [digit (n / 2 ^ 18 % 64), digit (n / 2 ^ 12 % 64), digit (n / 2 ^ 6 % 64), digit (n % 64)]

/-- The base64 text: groups of three bytes, most significant first; a last group is filled up with
    zero bits, and padding characters stand for the digits it has no byte for. -/
def standard : List UInt8 → List UInt8
  | [] => []
  | [a] => (group (a.toNat * 2 ^ 16)).take 2 ++ [61, 61]
  | [a, b] => (group (a.toNat * 2 ^ 16 + b.toNat * 2 ^ 8)).take 3 ++ [61]
  | a :: b :: c :: bytes => group (a.toNat * 2 ^ 16 + b.toNat * 2 ^ 8 + c.toNat) ++ standard bytes

/-! ### The encoder -/

theorem encode_digit : ∀ i < 64, Base64Encoder.encode i = digit i := by decide

/-- An index into the table that joins low bits of one byte with high bits of the next. -/
theorem sextet {k x y : ℕ} (hk : k ≤ 6) (hy : y < 2 ^ k) :
    x <<< k &&& 0x3F ||| y = x % 2 ^ (6 - k) * 2 ^ k + y := by
  rw [← shiftLeft_mod_or hk hy, ← Nat.and_two_pow_sub_one_eq_mod]

/-- The encoder's indices into the table are the digits of the group. -/
theorem encode_group {a b c : ℕ} (ha : a < 256) (hb : b < 256) (hc : c < 256) :
    [Base64Encoder.encode (a >>> 2), Base64Encoder.encode (a <<< 4 &&& 0x3F ||| b >>> 4),
      Base64Encoder.encode (b <<< 2 &&& 0x3F ||| c >>> 6), Base64Encoder.encode (c &&& 0x3F)] =
    group (a * 2 ^ 16 + b * 2 ^ 8 + c) := by
  have hlast : c &&& 0x3F = c % 64 := Nat.and_two_pow_sub_one_eq_mod c 6
  have hhigh : ∀ {x : ℕ} (k : ℕ), x < 2 ^ (8 - k) * 2 ^ k → x >>> k < 2 ^ (8 - k) := fun k hx => by
    rw [Nat.shiftRight_eq_div_pow]
    exact Nat.div_lt_of_lt_mul (by rwa [Nat.mul_comm])
  rw [sextet (k := 4) (by decide) (hhigh 4 hb), sextet (k := 2) (by decide) (hhigh 6 hc), hlast]
  simp only [Nat.shiftRight_eq_div_pow]
  rw [encode_digit _ (by omega), encode_digit _ (by omega), encode_digit _ (by omega),
    encode_digit _ (by omega), group]
  refine congrArg₂ _ (congrArg digit (by omega))
    (congrArg₂ _ (congrArg digit (by omega))
    (congrArg₂ _ (congrArg digit (by omega)) (congrArg₂ _ (congrArg digit (by omega)) rfl)))

/-- The machine's text of whole inputs is the standard text. -/
theorem encoder_text : ∀ bytes, Base64Encoder.text .state0 bytes = standard bytes
  | [] => rfl
  | [a] => by
    have hgroup := encode_group a.toNat_lt (show 0 < 256 by decide) (show 0 < 256 by decide)
    simp only [Nat.zero_mul, Nat.add_zero, Nat.zero_shiftRight, Nat.or_zero] at hgroup
    rw [standard, ← hgroup]
    rfl
  | [a, b] => by
    have hgroup := encode_group a.toNat_lt b.toNat_lt (show 0 < 256 by decide)
    simp only [Nat.add_zero, Nat.zero_shiftRight, Nat.or_zero] at hgroup
    rw [standard, ← hgroup]
    rfl
  | a :: b :: c :: bytes => by
    have hgroup := encode_group a.toNat_lt b.toNat_lt c.toNat_lt
    rw [standard, ← hgroup, ← encoder_text bytes]
    rfl

/-! ### The decoder -/

theorem decode_digit : ∀ i < 64, Base64Decoder.decode (digit i) = .ok (.ofNat i) := by
  decide +kernel

theorem digit_ne_pad : ∀ i < 64, digit i ≠ pad := by decide

/-- The decoder's bytes are those of the group. -/
theorem decode_group (n : ℕ) :
    UInt8.ofNat (n / 2 ^ 18 % 64) <<< 2 ||| UInt8.ofNat (n / 2 ^ 12 % 64) >>> 4 =
      UInt8.ofNat (n / 2 ^ 16) ∧
    UInt8.ofNat (n / 2 ^ 12 % 64) <<< 4 ||| UInt8.ofNat (n / 2 ^ 6 % 64) >>> 2 =
      UInt8.ofNat (n / 2 ^ 8) ∧
    UInt8.ofNat (n / 2 ^ 6 % 64) <<< 6 ||| UInt8.ofNat (n % 64) = UInt8.ofNat n := by
  have hsmall : ∀ x : ℕ, x % 64 % 2 ^ 8 = x % 64 := fun x => by omega
  have hhigh : ∀ x k : ℕ, k < 6 → x % 64 / 2 ^ k < 2 ^ (6 - k) := fun x k hk => by
    have hpow : 2 ^ k * 2 ^ (6 - k) = 64 := by rw [← Nat.pow_add, Nat.add_sub_cancel' hk.le]
    rw [Nat.div_lt_iff_lt_mul (Nat.two_pow_pos k), Nat.mul_comm, hpow]
    exact Nat.mod_lt _ (by decide)
  refine ⟨UInt8.toNat_inj.mp ?_, UInt8.toNat_inj.mp ?_, UInt8.toNat_inj.mp ?_⟩ <;>
    simp only [UInt8.toNat_or, UInt8.toNat_shiftLeft, UInt8.toNat_shiftRight, UInt8.toNat_ofNat',
      UInt8.reduceToNat, Nat.reduceMod, Nat.shiftRight_eq_div_pow, hsmall]
  · rw [shiftLeft_mod_or (w := 8) (by decide) (hhigh (n / 2 ^ 12) 4 (by decide))]
    omega
  · rw [shiftLeft_mod_or (w := 8) (by decide) (hhigh (n / 2 ^ 6) 2 (by decide))]
    omega
  · rw [shiftLeft_mod_or (w := 8) (k := 6) (by decide)
      (show n % 64 < 2 ^ 6 from Nat.mod_lt n (by decide))]
    omega

section Groups

open Base64Decoder

theorem decode_mod (x : ℕ) : decode (digit (x % 64)) = .ok (.ofNat (x % 64)) :=
  decode_digit _ (Nat.mod_lt x (by decide))

theorem digit_mod_ne_pad (x : ℕ) : digit (x % 64) ≠ pad := digit_ne_pad _ (Nat.mod_lt x (by decide))

/-- A group of one byte. -/
theorem bytes_one (n : ℕ) :
    bytes .state0 ((group n).take 2 ++ [61, 61]) = .ok [.ofNat (n / 2 ^ 16)] := by
  rw [← (decode_group n).1]
  simp only [group, List.take_succ_cons, List.take_zero, List.cons_append, List.nil_append, bytes,
    decode_mod, ok_bind]
  rfl

/-- A group of two bytes. -/
theorem bytes_two (n : ℕ) :
    bytes .state0 ((group n).take 3 ++ [61]) = .ok [.ofNat (n / 2 ^ 16), .ofNat (n / 2 ^ 8)] := by
  rw [← (decode_group n).1, ← (decode_group n).2.1]
  simp only [group, List.take_succ_cons, List.take_zero, List.cons_append, List.nil_append, bytes,
    decode_mod, ok_bind, if_neg (digit_mod_ne_pad _)]
  rfl

/-- A group of three bytes. -/
theorem bytes_three (n : ℕ) (rest : List UInt8) :
    bytes .state0 (group n ++ rest) =
      (bytes .state0 rest).map ([.ofNat (n / 2 ^ 16), .ofNat (n / 2 ^ 8), .ofNat n] ++ ·) := by
  rw [← (decode_group n).1, ← (decode_group n).2.1, ← (decode_group n).2.2]
  simp only [group, List.cons_append, List.nil_append, bytes, decode_mod, ok_bind,
    if_neg (digit_mod_ne_pad _)]
  cases bytes .state0 rest <;> rfl

end Groups

/-- The machine's bytes of standard texts are what the texts were made from. -/
theorem decoder_bytes : ∀ bytes, Base64Decoder.bytes .state0 (standard bytes) = .ok bytes
  | [] => rfl
  | [a] => by
    have ha : a.toNat * 2 ^ 16 / 2 ^ 16 = a.toNat := Nat.mul_div_cancel _ (by decide)
    rw [standard, bytes_one, ha, UInt8.ofNat_toNat]
  | [a, b] => by
    have hb := b.toNat_lt
    have hfirst : (a.toNat * 2 ^ 16 + b.toNat * 2 ^ 8) / 2 ^ 16 = a.toNat := by omega
    have hsecond : UInt8.ofNat ((a.toNat * 2 ^ 16 + b.toNat * 2 ^ 8) / 2 ^ 8) = b :=
      UInt8.toNat_inj.mp (by rw [UInt8.toNat_ofNat']; omega)
    rw [standard, bytes_two, hfirst, hsecond, UInt8.ofNat_toNat]
  | a :: b :: c :: bytes => by
    have hb := b.toNat_lt
    have hc := c.toNat_lt
    have hfirst : (a.toNat * 2 ^ 16 + b.toNat * 2 ^ 8 + c.toNat) / 2 ^ 16 = a.toNat := by omega
    have hsecond : UInt8.ofNat ((a.toNat * 2 ^ 16 + b.toNat * 2 ^ 8 + c.toNat) / 2 ^ 8) = b :=
      UInt8.toNat_inj.mp (by rw [UInt8.toNat_ofNat']; omega)
    have hthird : UInt8.ofNat (a.toNat * 2 ^ 16 + b.toNat * 2 ^ 8 + c.toNat) = c :=
      UInt8.toNat_inj.mp (by rw [UInt8.toNat_ofNat']; omega)
    rw [standard, bytes_three, decoder_bytes bytes, hfirst, hsecond, hthird, UInt8.ofNat_toNat]
    rfl

end Base64

/-- Fed in any pieces and with any output buffers, the encoder writes the standard text of
    all its input, and the decoder, fed that text in any pieces and with any output buffers,
    writes the input again. -/
theorem base64_in_pieces (bytes : List UInt8) :
    Base64Encoder.codec.Delivers bytes (Base64.standard bytes) ∧
      Base64Decoder.codec.Delivers (Base64.standard bytes) bytes :=
  ⟨Base64Encoder.denotes.delivers (congrArg Except.ok (Base64.encoder_text bytes)),
    Base64Decoder.denotes.delivers (Base64.decoder_bytes bytes)⟩

end Matching.Common
