import Mathlib.Algebra.Order.Group.Nat
import Mathlib.Algebra.Order.Ring.Nat
import Mathlib.Data.List.Basic

/-! Memory as a sequence of cells: `memcpy` into a buffer of a fixed length, and what the parts of
    the buffer hold after it; and unsigned words as bytes, the lowest or the highest one first. -/

namespace Matching

variable {α : Type} {dst src : List α} {i j size : ℕ}

/-- `std::memcpy(dst + i, src + j, size)`. -/
def memcpy (dst : List α) (i : ℕ) (src : List α) (j size : ℕ) : List α :=
  dst.take i ++ (src.drop j).take size ++ dst.drop (i + size)

theorem length_memcpy (hdst : i + size ≤ dst.length) (hsrc : j + size ≤ src.length) :
    (memcpy dst i src j size).length = dst.length := by
  simp only [memcpy, List.length_append, List.length_take, List.length_drop]
  omega

/-- The buffer up to the end of what was copied. -/
theorem take_memcpy (hdst : i + size ≤ dst.length) (hsrc : j + size ≤ src.length) :
    (memcpy dst i src j size).take (i + size) = dst.take i ++ (src.drop j).take size := by
  have hlen : (dst.take i ++ (src.drop j).take size).length = i + size := by
    simp only [List.length_append, List.length_take, List.length_drop]
    omega
  rw [memcpy, ← hlen, List.take_left]

/-- All that follows `j` is copied to the front. -/
theorem take_memcpy_front (hdst : size ≤ dst.length) (hsrc : j + size = src.length) :
    (memcpy dst 0 src j size).take size = src.drop j := by
  have htake := take_memcpy (i := 0) (j := j) (by omega : 0 + size ≤ dst.length) hsrc.le
  rw [Nat.zero_add] at htake
  rw [htake, List.take_zero, List.nil_append,
    List.take_of_length_le (by rw [List.length_drop]; omega)]

/-- A copy over the whole buffer. -/
theorem memcpy_all (hdst : dst.length = size) :
    memcpy dst 0 src j size = (src.drop j).take size := by
  rw [memcpy, List.take_zero, List.nil_append,
    List.drop_eq_nil_of_le (show dst.length ≤ 0 + size by omega), List.append_nil]

/-- A copy that fills the buffer up. -/
theorem memcpy_fill (hdst : i + size = dst.length) :
    memcpy dst i src j size = dst.take i ++ (src.drop j).take size := by
  rw [memcpy, List.drop_eq_nil_of_le (show dst.length ≤ i + size by omega), List.append_nil]

/-! ### Words -/

/-- An unsigned word in memory, the lowest byte first. -/
def word (bytes : List UInt8) : ℕ := bytes.foldr (fun b n => b.toNat + 256 * n) 0

/-- The `k` bytes of a word. -/
def wordBytes : ℕ → ℕ → List UInt8
  | 0, _ => []
  | k + 1, n => UInt8.ofNat n :: wordBytes k (n / 256)

@[simp] theorem length_wordBytes : ∀ k n : ℕ, (wordBytes k n).length = k
  | 0, _ => rfl
  | k + 1, n => by rw [wordBytes, List.length_cons, length_wordBytes k]

theorem word_wordBytes : ∀ (k : ℕ) {n : ℕ}, n < 256 ^ k → word (wordBytes k n) = n
  | 0, n, h => by
    obtain rfl : n = 0 := by simpa using h
    rfl
  | k + 1, n, h => by
    have hdiv : n / 256 < 256 ^ k := Nat.div_lt_of_lt_mul (by rwa [Nat.pow_succ, Nat.mul_comm] at h)
    have hrec := word_wordBytes k hdiv
    rw [word] at hrec
    rw [word, wordBytes, List.foldr_cons, hrec, UInt8.toNat_ofNat']
    omega

@[simp] theorem word_replicate_zero : ∀ k : ℕ, word (List.replicate k 0) = 0
  | 0 => rfl
  | k + 1 => by
    have hrec := word_replicate_zero k
    rw [word] at hrec
    rw [List.replicate_succ, word, List.foldr_cons, hrec]
    rfl

theorem word_eq_zero : ∀ {bytes : List UInt8}, word bytes = 0 → ∀ b ∈ bytes, b = 0
  | [], _ => by simp
  | b :: bs, h => by
    rw [word, List.foldr_cons] at h
    have hhead : b = 0 := UInt8.toNat_inj.mp (by rw [UInt8.toNat_zero]; omega)
    have hrec := word_eq_zero (show word bs = 0 by rw [word]; omega)
    exact List.forall_mem_cons.mpr ⟨hhead, hrec⟩

theorem word_lt : ∀ bytes : List UInt8, word bytes < 256 ^ bytes.length
  | [] => by simp [word]
  | b :: bs => by
    have hrec := word_lt bs
    have hb := b.toNat_lt
    rw [word] at hrec
    rw [word, List.foldr_cons, List.length_cons, Nat.pow_succ]
    omega

theorem wordBytes_word : ∀ bytes : List UInt8, wordBytes bytes.length (word bytes) = bytes
  | [] => rfl
  | b :: bs => by
    have hrec := wordBytes_word bs
    have hword : word (b :: bs) = b.toNat + 256 * word bs := rfl
    have hdiv : word (b :: bs) / 256 = word bs := by
      have hb := b.toNat_lt
      omega
    have hlow : UInt8.ofNat (word (b :: bs)) = b := UInt8.toNat_inj.mp <| by
      have hb := b.toNat_lt
      rw [UInt8.toNat_ofNat']
      omega
    rw [List.length_cons, wordBytes, hdiv, hlow, hrec]

/-- Only the low bytes of a word count. -/
theorem wordBytes_mod : ∀ k n : ℕ, wordBytes k (n % 256 ^ k) = wordBytes k n
  | 0, _ => rfl
  | k + 1, n => by
    have hrec := wordBytes_mod k (n / 256)
    have hdiv : n % 256 ^ (k + 1) / 256 = n / 256 % 256 ^ k := by
      rw [Nat.pow_succ, Nat.mul_comm, Nat.mod_mul_right_div_self]
    have hlow : UInt8.ofNat (n % 256 ^ (k + 1)) = UInt8.ofNat n := UInt8.toNat_inj.mp <| by
      rw [UInt8.toNat_ofNat', UInt8.toNat_ofNat', Nat.mod_mod_of_dvd]
      exact Dvd.intro_left (256 ^ k) rfl
    rw [wordBytes, wordBytes, hdiv, hlow, hrec]

theorem take_wordBytes : ∀ {j k : ℕ} (n : ℕ), j ≤ k → (wordBytes k n).take j = wordBytes j n
  | 0, k, n, _ => by simp [wordBytes]
  | j + 1, k + 1, n, h => by
    rw [wordBytes, List.take_succ_cons, take_wordBytes (n / 256) (by omega)]
    rfl

theorem wordBytes_succ :
    ∀ k n : ℕ, wordBytes (k + 1) n = wordBytes k n ++ [UInt8.ofNat (n / 256 ^ k)]
  | 0, n => by simp [wordBytes]
  | k + 1, n => by
    have hdiv : n / 256 / 256 ^ k = n / 256 ^ (k + 1) := by
      rw [Nat.div_div_eq_div_mul, Nat.pow_succ, Nat.mul_comm]
    rw [wordBytes, wordBytes_succ k, hdiv]
    rfl

/-- Zeros above the highest byte change nothing. -/
theorem word_append_zeros (bytes : List UInt8) (k : ℕ) :
    word (bytes ++ List.replicate k 0) = word bytes := by
  have hzero := word_replicate_zero k
  rw [word] at hzero
  rw [word, List.foldr_append, hzero, word]

/-- The `k` bytes of a word, the highest one first. -/
def bigEndian (k n : ℕ) : List UInt8 := (wordBytes k n).reverse

/-- A word in memory, the highest byte first. -/
def ofBigEndian (bytes : List UInt8) : ℕ := word bytes.reverse

@[simp] theorem length_bigEndian (k n : ℕ) : (bigEndian k n).length = k := by
  rw [bigEndian, List.length_reverse, length_wordBytes]

theorem ofBigEndian_lt (bytes : List UInt8) : ofBigEndian bytes < 256 ^ bytes.length := by
  rw [← List.length_reverse]
  exact word_lt _

theorem ofBigEndian_bigEndian (k n : ℕ) : ofBigEndian (bigEndian k n) = n % 256 ^ k := by
  rw [ofBigEndian, bigEndian, List.reverse_reverse, ← wordBytes_mod,
    word_wordBytes k (Nat.mod_lt _ (Nat.pow_pos (by decide)))]

theorem bigEndian_ofBigEndian {k : ℕ} {bytes : List UInt8} (h : bytes.length = k) :
    bigEndian k (ofBigEndian bytes) = bytes := by
  have hbytes := wordBytes_word bytes.reverse
  rw [List.length_reverse, h] at hbytes
  rw [bigEndian, ofBigEndian, hbytes, List.reverse_reverse]

theorem bigEndian_mod (k n : ℕ) : bigEndian k (n % 256 ^ k) = bigEndian k n := by
  rw [bigEndian, wordBytes_mod, bigEndian]

/-- The highest byte comes first. -/
theorem bigEndian_succ (k n : ℕ) :
    bigEndian (k + 1) n = UInt8.ofNat (n / 256 ^ k) :: bigEndian k n := by
  rw [bigEndian, wordBytes_succ, List.reverse_concat, bigEndian]

/-- A shorter word is the end of a longer one. -/
theorem drop_bigEndian {j k i : ℕ} (n : ℕ) (h : i + j = k) :
    (bigEndian k n).drop i = bigEndian j n := by
  rw [bigEndian, List.drop_reverse, length_wordBytes, take_wordBytes n (by omega), bigEndian]
  congr 2
  omega

end Matching
