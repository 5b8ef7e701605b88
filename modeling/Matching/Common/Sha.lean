import Matching.Common.Hash
import Matching.Lib.Fips180

/-! The SHA classes: `update` of `SHA1`, of `SHA256Base` and of `SHA512Base`, and the initial
    states. The two SHA-2 functions have the same text up to the word type, the constants and the
    amounts of the shifts. -/

namespace Matching.Common

variable {w : ℕ}

/-- `words`: sixteen from the block, and the others by the loop up to `n`. -/
def loadWords (w : ℕ) (next : List (BitVec w) → ℕ → BitVec w) (n : ℕ) (block : List UInt8) :
    List (BitVec w) :=
  (List.range' 16 (n - 16)).foldl (fun words i => words ++ [next words i])
    ((List.range 16).map (Fips180.word w block))

/-! ### `SHA1` -/

def sha1Init : List (BitVec 32) := [0x67452301, 0xefcdab89, 0x98badcfe, 0x10325476, 0xc3d2e1f0]

/-- The loop body of one of the four loops over `a` to `e`. -/
def sha1Round (f : BitVec 32 → BitVec 32 → BitVec 32 → BitVec 32) (k word : BitVec 32) :
    List (BitVec 32) → List (BitVec 32)
  | [a, b, c, d, e] =>
    let temp := e + f b c d + a.rotateLeft 5 + k + word
    [temp, a, b.rotateLeft 30, c, d]
  | regs => regs

/-- `SHA1::update(block)`. -/
def sha1Update (state : List (BitVec 32)) (block : List UInt8) : List (BitVec 32) :=
  let words := loadWords 32
    (fun words i =>
      (words[i - 3]! ^^^ words[i - 8]! ^^^ words[i - 14]! ^^^ words[i - 16]!).rotateLeft 1)
    80 block
  let rounds f k first regs :=
    (List.range' first 20).foldl (fun regs i => sha1Round f k words[i]! regs) regs
  let regs := rounds (fun b c d => (d ^^^ c) &&& b ^^^ d) 0x5a827999 0 state
  let regs := rounds (fun b c d => d ^^^ c ^^^ b) 0x6ed9eba1 20 regs
  let regs := rounds (fun b c d => d &&& (c ^^^ b) ^^^ c &&& b) 0x8f1bbcdc 40 regs
  let regs := rounds (fun b c d => d ^^^ c ^^^ b) 0xca62c1d6 60 regs
  List.zipWith (· + ·) state regs

/-! ### `SHA256Base` and `SHA512Base` -/

/-- What the texts of the two `update` functions differ in: the rotations of `t2` and `t1`, and
    those and the shift of words `i - 15` and `i - 2`. -/
structure Sha2Numbers (w : ℕ) where
  constants : List (BitVec w)
  ofA : ℕ × ℕ × ℕ
  ofE : ℕ × ℕ × ℕ
  of15 : ℕ × ℕ × ℕ
  of2 : ℕ × ℕ × ℕ

/-- The loop body over `a` to `h`. -/
def sha2Round (p : Sha2Numbers w) (k word : BitVec w) : List (BitVec w) → List (BitVec w)
  | [a, b, c, d, e, f, g, h] =>
    let t1 :=
      h + ((g ^^^ f) &&& e ^^^ g) +
        (e.rotateRight p.ofE.1 ^^^ e.rotateRight p.ofE.2.1 ^^^ e.rotateRight p.ofE.2.2) + k + word
    let (h, g, f, e) := (g, f, e, d + t1)
    let t2 :=
      (c &&& (b ^^^ a) ^^^ b &&& a) +
        (a.rotateRight p.ofA.1 ^^^ a.rotateRight p.ofA.2.1 ^^^ a.rotateRight p.ofA.2.2)
    [t1 + t2, a, b, c, e, f, g, h]
  | regs => regs

/-- Word `i` from those before it. -/
def sha2Next (p : Sha2Numbers w) (words : List (BitVec w)) (i : ℕ) : BitVec w :=
  let x := words[i - 15]!
  let y := words[i - 2]!
  words[i - 16]! + (x.rotateRight p.of15.1 ^^^ x.rotateRight p.of15.2.1 ^^^ x >>> p.of15.2.2) +
    words[i - 7]! + (y.rotateRight p.of2.1 ^^^ y.rotateRight p.of2.2.1 ^^^ y >>> p.of2.2.2)

/-- The text of `update(block)`. -/
def sha2Update (p : Sha2Numbers w) (state : List (BitVec w)) (block : List UInt8) :
    List (BitVec w) :=
  let words := loadWords w (sha2Next p) p.constants.length block
  let regs := (List.range p.constants.length).foldl
    (fun regs i => sha2Round p p.constants[i]! words[i]! regs) state
  List.zipWith (· + ·) state regs

def sha256RoundConstants : List (BitVec 32) := [
    0x428a2f98, 0x71374491, 0xb5c0fbcf, 0xe9b5dba5, 0x3956c25b, 0x59f111f1, 0x923f82a4, 0xab1c5ed5,
    0xd807aa98, 0x12835b01, 0x243185be, 0x550c7dc3, 0x72be5d74, 0x80deb1fe, 0x9bdc06a7, 0xc19bf174,
    0xe49b69c1, 0xefbe4786, 0x0fc19dc6, 0x240ca1cc, 0x2de92c6f, 0x4a7484aa, 0x5cb0a9dc, 0x76f988da,
    0x983e5152, 0xa831c66d, 0xb00327c8, 0xbf597fc7, 0xc6e00bf3, 0xd5a79147, 0x06ca6351, 0x14292967,
    0x27b70a85, 0x2e1b2138, 0x4d2c6dfc, 0x53380d13, 0x650a7354, 0x766a0abb, 0x81c2c92e, 0x92722c85,
    0xa2bfe8a1, 0xa81a664b, 0xc24b8b70, 0xc76c51a3, 0xd192e819, 0xd6990624, 0xf40e3585, 0x106aa070,
    0x19a4c116, 0x1e376c08, 0x2748774c, 0x34b0bcb5, 0x391c0cb3, 0x4ed8aa4a, 0x5b9cca4f, 0x682e6ff3,
    0x748f82ee, 0x78a5636f, 0x84c87814, 0x8cc70208, 0x90befffa, 0xa4506ceb, 0xbef9a3f7, 0xc67178f2]

/-- `SHA256Base::update(block)`. -/
def sha256Update : List (BitVec 32) → List UInt8 → List (BitVec 32) :=
  sha2Update ⟨sha256RoundConstants, (2, 13, 22), (6, 11, 25), (7, 18, 3), (17, 19, 10)⟩

def sha256Init : List (BitVec 32) :=
  [0x6a09e667, 0xbb67ae85, 0x3c6ef372, 0xa54ff53a, 0x510e527f, 0x9b05688c, 0x1f83d9ab, 0x5be0cd19]

def sha224Init : List (BitVec 32) :=
  [0xc1059ed8, 0x367cd507, 0x3070dd17, 0xf70e5939, 0xffc00b31, 0x68581511, 0x64f98fa7, 0xbefa4fa4]

def sha512RoundConstants : List (BitVec 64) := [
    0x428a2f98d728ae22, 0x7137449123ef65cd, 0xb5c0fbcfec4d3b2f, 0xe9b5dba58189dbbc,
    0x3956c25bf348b538, 0x59f111f1b605d019, 0x923f82a4af194f9b, 0xab1c5ed5da6d8118,
    0xd807aa98a3030242, 0x12835b0145706fbe, 0x243185be4ee4b28c, 0x550c7dc3d5ffb4e2,
    0x72be5d74f27b896f, 0x80deb1fe3b1696b1, 0x9bdc06a725c71235, 0xc19bf174cf692694,
    0xe49b69c19ef14ad2, 0xefbe4786384f25e3, 0x0fc19dc68b8cd5b5, 0x240ca1cc77ac9c65,
    0x2de92c6f592b0275, 0x4a7484aa6ea6e483, 0x5cb0a9dcbd41fbd4, 0x76f988da831153b5,
    0x983e5152ee66dfab, 0xa831c66d2db43210, 0xb00327c898fb213f, 0xbf597fc7beef0ee4,
    0xc6e00bf33da88fc2, 0xd5a79147930aa725, 0x06ca6351e003826f, 0x142929670a0e6e70,
    0x27b70a8546d22ffc, 0x2e1b21385c26c926, 0x4d2c6dfc5ac42aed, 0x53380d139d95b3df,
    0x650a73548baf63de, 0x766a0abb3c77b2a8, 0x81c2c92e47edaee6, 0x92722c851482353b,
    0xa2bfe8a14cf10364, 0xa81a664bbc423001, 0xc24b8b70d0f89791, 0xc76c51a30654be30,
    0xd192e819d6ef5218, 0xd69906245565a910, 0xf40e35855771202a, 0x106aa07032bbd1b8,
    0x19a4c116b8d2d0c8, 0x1e376c085141ab53, 0x2748774cdf8eeb99, 0x34b0bcb5e19b48a8,
    0x391c0cb3c5c95a63, 0x4ed8aa4ae3418acb, 0x5b9cca4f7763e373, 0x682e6ff3d6b2b8a3,
    0x748f82ee5defb2fc, 0x78a5636f43172f60, 0x84c87814a1f0ab72, 0x8cc702081a6439ec,
    0x90befffa23631e28, 0xa4506cebde82bde9, 0xbef9a3f7b2c67915, 0xc67178f2e372532b,
    0xca273eceea26619c, 0xd186b8c721c0c207, 0xeada7dd6cde0eb1e, 0xf57d4f7fee6ed178,
    0x06f067aa72176fba, 0x0a637dc5a2c898a6, 0x113f9804bef90dae, 0x1b710b35131c471b,
    0x28db77f523047d84, 0x32caab7b40c72493, 0x3c9ebe0a15c9bebc, 0x431d67c49c100d4c,
    0x4cc5d4becb3e42b6, 0x597f299cfc657e2a, 0x5fcb6fab3ad6faec, 0x6c44198c4a475817]

/-- `SHA512Base::update(block)`. -/
def sha512Update : List (BitVec 64) → List UInt8 → List (BitVec 64) :=
  sha2Update ⟨sha512RoundConstants, (28, 34, 39), (14, 18, 41), (1, 8, 7), (19, 61, 6)⟩

def sha512Init : List (BitVec 64) := [
    0x6a09e667f3bcc908, 0xbb67ae8584caa73b, 0x3c6ef372fe94f82b, 0xa54ff53a5f1d36f1,
    0x510e527fade682d1, 0x9b05688c2b3e6c1f, 0x1f83d9abfb41bd6b, 0x5be0cd19137e2179]

def sha384Init : List (BitVec 64) := [
    0xcbbb9d5dc1059ed8, 0x629a292a367cd507, 0x9159015a3070dd17, 0x152fecd8f70e5939,
    0x67332667ffc00b31, 0x8eb44a8768581511, 0xdb0c2e0d64f98fa7, 0x47b5481dbefa4fa4]

/-! ### The classes -/

/-- `class SHA1 : public Hash<64, 20, 20, uint32_t, uint64_t, true>`. -/
def SHA1 : HashType (BitVec 32) :=
  ⟨64, 20, 4, 8, true, BitVec.toNat, sha1Init, sha1Update, by decide, by decide⟩

/-- `class SHA256Base : public Hash<64, 32, Digest_Size, uint32_t, uint64_t, true>`. -/
def SHA256Base (digestSize : ℕ) (init : List (BitVec 32)) : HashType (BitVec 32) :=
  ⟨64, digestSize, 4, 8, true, BitVec.toNat, init, sha256Update, by decide, by decide⟩

def SHA256 : HashType (BitVec 32) := SHA256Base 32 sha256Init

def SHA224 : HashType (BitVec 32) := SHA256Base 28 sha224Init

/-- `class SHA512Base : public Hash<128, 64, Digest_Size, uint64_t, sha512_length_t, true>`. -/
def SHA512Base (digestSize : ℕ) (init : List (BitVec 64)) : HashType (BitVec 64) :=
  ⟨128, digestSize, 8, 16, true, BitVec.toNat, init, sha512Update, by decide, by decide⟩

def SHA512 : HashType (BitVec 64) := SHA512Base 64 sha512Init

def SHA384 : HashType (BitVec 64) := SHA512Base 48 sha384Init

end Matching.Common
