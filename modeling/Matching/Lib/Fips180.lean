import Mathlib.Data.Nat.Find
import Mathlib.Order.Lattice.Nat
import Mathlib.Data.Nat.Prime.Basic
import Mathlib.Tactic.Linarith
import Matching.Lib.Stream

/-! The secure hash standard (SHA-1 and SHA-2), over words of `w` bits: its functions, where
    its constants come from, the message schedule, the compression of a block and the hash
    of a message of whole bytes. -/

namespace Matching.Fips180

variable {w : ℕ}

/-! ### Words and bytes -/

/-- A word from its bytes, the first one highest. -/
def ofBytes (w : ℕ) (bs : List UInt8) : BitVec w :=
  BitVec.ofNat w (bs.foldl (fun x b => 256 * x + b.toNat) 0)

/-- The `n` bytes of a number, the highest one first. -/
def toBytes : ℕ → ℕ → List UInt8
  | 0, _ => []
  | n + 1, x => toBytes n (x / 256) ++ [UInt8.ofNat x]

/-- Word `t` of a block. -/
def word (w : ℕ) (block : List UInt8) (t : ℕ) : BitVec w :=
  ofBytes w ((block.drop (t * (w / 8))).take (w / 8))

/-! ### Functions -/

def ch (x y z : BitVec w) : BitVec w := (x &&& y) ^^^ (~~~x &&& z)

def parity (x y z : BitVec w) : BitVec w := x ^^^ y ^^^ z

def maj (x y z : BitVec w) : BitVec w := (x &&& y) ^^^ (x &&& z) ^^^ (y &&& z)

/-! ### Constants -/

/-- The whole part of a root. -/
def root (k n : ℕ) : ℕ := Nat.findGreatest (fun r => r ^ k ≤ n) n

/-- The first `w` bits of the fractional part of the `k`-th root of `p`. -/
def fraction (k w p : ℕ) : BitVec w := BitVec.ofNat w (root k (p * 2 ^ (k * w)))

theorem root_eq {k n x : ℕ} (hk : k ≠ 0) (hlo : x ^ k ≤ n) (hhi : n < (x + 1) ^ k) :
    root k n = x := by
  have hle : x ≤ n := (Nat.le_self_pow hk x).trans hlo
  refine Nat.findGreatest_eq_iff.mpr ⟨hle, fun _ => hlo, fun m hm _ hpow => ?_⟩
  exact absurd (hhi.trans_le (Nat.pow_le_pow_left hm k)) (Nat.not_lt.mpr hpow)

/-- A word that is found between the powers is the fraction, whatever the whole part `q`. -/
theorem fraction_eq {k p q : ℕ} {x : BitVec w} (hk : k ≠ 0)
    (hlo : (q * 2 ^ w + x.toNat) ^ k ≤ p * 2 ^ (k * w))
    (hhi : p * 2 ^ (k * w) < (q * 2 ^ w + x.toNat + 1) ^ k) : fraction k w p = x := by
  rw [fraction, root_eq hk hlo hhi]
  refine BitVec.eq_of_toNat_eq ?_
  rw [BitVec.toNat_ofNat, Nat.mul_comm, Nat.mul_add_mod, Nat.mod_eq_of_lt x.isLt]

/-- The table holds the fractions of the roots; the whole parts are below eight. -/
def isTable (k : ℕ) : List ℕ → List (BitVec w) → Bool
  | [], [] => true
  | p :: ps, x :: xs =>
    decide (∃ q ∈ List.range 8, (q * 2 ^ w + x.toNat) ^ k ≤ p * 2 ^ (k * w) ∧
      p * 2 ^ (k * w) < (q * 2 ^ w + x.toNat + 1) ^ k) && isTable k ps xs
  | _, _ => false

theorem isTable_eq {k : ℕ} (hk : k ≠ 0) :
    ∀ {ps : List ℕ} {xs : List (BitVec w)}, isTable k ps xs = true →
    ps.map (fraction k w) = xs
  | [], [], _ => rfl
  | [], _ :: _, h => nomatch h
  | _ :: _, [], h => nomatch h
  | p :: ps, x :: xs, h => by
    rw [isTable, Bool.and_eq_true, decide_eq_true_eq] at h
    obtain ⟨⟨q, -, hlo, hhi⟩, hrest⟩ := h
    rw [List.map_cons, fraction_eq hk hlo hhi, isTable_eq hk hrest]

/-- The first eighty primes. -/
def primes : List ℕ := (List.range 410).filter fun n => Nat.Prime n

/-- They are found by the divisors up to 20. -/
theorem primes_eq :
    primes = (List.range 410).filter fun n => 2 ≤ n ∧ ∀ m < 21, 2 ≤ m → m * m ≤ n → ¬ m ∣ n := by
  refine List.filter_congr fun n hn => decide_eq_decide.mpr ?_
  have hlt := List.mem_range.mp hn
  rw [Nat.prime_def_le_sqrt]
  refine and_congr_right fun _ =>
    ⟨fun h m _ hm hmn => h m hm (Nat.le_sqrt.mpr hmn), fun h m hm hmn => ?_⟩
  have hsq := Nat.le_sqrt.mp hmn
  exact h m (by nlinarith) hm hsq

/-! ### SHA-2 -/

/-- What distinguishes the two families of functions over words of `w` bits. -/
structure Sha2 (w : ℕ) where
  rounds : ℕ
  bigSigma0 : BitVec w → BitVec w
  bigSigma1 : BitVec w → BitVec w
  smallSigma0 : BitVec w → BitVec w
  smallSigma1 : BitVec w → BitVec w

/-- SHA-224 and SHA-256. -/
def sha256 : Sha2 32 where
  rounds := 64
  bigSigma0 x := x.rotateRight 2 ^^^ x.rotateRight 13 ^^^ x.rotateRight 22
  bigSigma1 x := x.rotateRight 6 ^^^ x.rotateRight 11 ^^^ x.rotateRight 25
  smallSigma0 x := x.rotateRight 7 ^^^ x.rotateRight 18 ^^^ x >>> 3
  smallSigma1 x := x.rotateRight 17 ^^^ x.rotateRight 19 ^^^ x >>> 10

/-- SHA-384 and SHA-512. -/
def sha512 : Sha2 64 where
  rounds := 80
  bigSigma0 x := x.rotateRight 28 ^^^ x.rotateRight 34 ^^^ x.rotateRight 39
  bigSigma1 x := x.rotateRight 14 ^^^ x.rotateRight 18 ^^^ x.rotateRight 41
  smallSigma0 x := x.rotateRight 1 ^^^ x.rotateRight 8 ^^^ x >>> 7
  smallSigma1 x := x.rotateRight 19 ^^^ x.rotateRight 61 ^^^ x >>> 6

namespace Sha2

variable (p : Sha2 w)

/-- Constant `t`: the fraction of the cube root of prime `t`. -/
def constant (w t : ℕ) : BitVec w := fraction 3 w (primes[t]?.getD 0)

/-- Word `t` of the message schedule. -/
def schedule (block : List UInt8) (t : ℕ) : BitVec w :=
  if t < 16 then word w block t
  else p.smallSigma1 (schedule block (t - 2)) + schedule block (t - 7) +
    p.smallSigma0 (schedule block (t - 15)) + schedule block (t - 16)

/-- Round `t` on the eight working variables. -/
def round : BitVec w → BitVec w → List (BitVec w) → List (BitVec w)
  | k, x, [a, b, c, d, e, f, g, h] =>
    let t1 := h + p.bigSigma1 e + ch e f g + k + x
    let t2 := p.bigSigma0 a + maj a b c
    [t1 + t2, a, b, c, d + t1, e, f, g]
  | _, _, vars => vars

/-- The hash value after a block. -/
def compress (hash : List (BitVec w)) (block : List UInt8) : List (BitVec w) :=
  List.zipWith (· + ·) hash
    ((List.range p.rounds).foldl
      (fun vars t => p.round (constant w t) (p.schedule block t) vars) hash)

end Sha2

/-! ### SHA-1 -/

namespace Sha1

/-- The function of round `t`. -/
def f (t : ℕ) : BitVec 32 → BitVec 32 → BitVec 32 → BitVec 32 :=
  if t < 20 then ch else if t < 40 then parity else if t < 60 then maj else parity

/-- Its constant: the first 32 bits of the square root of 2, 3, 5 or 10,
    which is divided by four. -/
def constant (t : ℕ) : BitVec 32 :=
  BitVec.ofNat 32
    (root 2 ((if t < 20 then 2 else if t < 40 then 3 else if t < 60 then 5 else 10) * 2 ^ 60))

/-- Word `t` of the message schedule. -/
def schedule (block : List UInt8) (t : ℕ) : BitVec 32 :=
  if t < 16 then word 32 block t
  else (schedule block (t - 3) ^^^ schedule block (t - 8) ^^^
    schedule block (t - 14) ^^^ schedule block (t - 16)).rotateLeft 1

/-- Round `t` on the five working variables. -/
def round (f : BitVec 32 → BitVec 32 → BitVec 32 → BitVec 32) :
    BitVec 32 → BitVec 32 → List (BitVec 32) → List (BitVec 32)
  | k, x, [a, b, c, d, e] => [a.rotateLeft 5 + f b c d + e + k + x, a, b.rotateLeft 30, c, d]
  | _, _, vars => vars

/-- The hash value after a block. -/
def compress (hash : List (BitVec 32)) (block : List UInt8) : List (BitVec 32) :=
  List.zipWith (· + ·) hash
    ((List.range 80).foldl (fun vars t => round (f t) (constant t) (schedule block t) vars) hash)

end Sha1

/-! ### The hash of a message -/

/-- A hash function: its compression of blocks of sixteen words, where it starts, and how many words
    of the last hash value it returns. -/
structure Algorithm (w : ℕ) where
  compress : List (BitVec w) → List UInt8 → List (BitVec w)
  start : List (BitVec w)
  words : ℕ

/-- The message, a one, as few zeros as fill the last block, and its length in two words. -/
noncomputable def pad (w : ℕ) (m : List UInt8) : List UInt8 :=
  m ++ [0x80] ++
    (List.replicate (sInf {k | 2 * w ∣ m.length + 1 + w / 4 + k}) 0 ++
      toBytes (w / 4) (8 * m.length))

/-- The hash of a message. -/
noncomputable def Algorithm.hash (a : Algorithm w) (m : List UInt8) : List UInt8 :=
  (((blocks (2 * w) (pad w m)).foldl a.compress a.start).take a.words).flatMap fun x =>
    toBytes (w / 8) x.toNat

def SHA1 : Algorithm 32 :=
  ⟨Sha1.compress, [0x67452301, 0xefcdab89, 0x98badcfe, 0x10325476, 0xc3d2e1f0], 5⟩

/-- The fractions of the square roots of the first eight primes. -/
def SHA256 : Algorithm 32 := ⟨sha256.compress, (primes.take 8).map (fraction 2 32), 8⟩

/-- The second 32 bits of the fractions of the square roots of the next eight primes. -/
def SHA224 : Algorithm 32 :=
  ⟨sha256.compress, ((primes.drop 8).take 8).map fun p => (fraction 2 64 p).setWidth 32, 7⟩

/-- The fractions of the square roots of the first eight primes. -/
def SHA512 : Algorithm 64 := ⟨sha512.compress, (primes.take 8).map (fraction 2 64), 8⟩

/-- The fractions of the square roots of the next eight primes. -/
def SHA384 : Algorithm 64 := ⟨sha512.compress, ((primes.drop 8).take 8).map (fraction 2 64), 6⟩

end Matching.Fips180
