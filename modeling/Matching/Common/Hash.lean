import Mathlib.Algebra.GroupWithZero.Nat
import Mathlib.Data.List.Basic

/-! `Hash`, over the word type, the sizes and the `update` of the classes that derive from it, and
    `HMAC` over one of these classes. What `buffer` holds beyond `buffer_pos` is never read, so the
    model keeps the first `buffer_pos` bytes. -/

namespace Matching.Common

/-- The bytes of `x` in a word of `n`, in the order of `be` or of `le`. -/
def endianBytes (bigEndian : Bool) (n x : ℕ) : List UInt8 :=
  let bytes := (List.range n).map fun i => UInt8.ofNat (x >>> (8 * i))
  if bigEndian then bytes.reverse else bytes

theorem length_endianBytes (bigEndian : Bool) (n x : ℕ) :
    (endianBytes bigEndian n x).length = n := by
  cases bigEndian <;> simp [endianBytes]

/-- The template arguments, and what a derived class passes to the constructor and overrides. The
    length that ends the last block fits into one. -/
structure HashType (ω : Type) where
  blockSize : ℕ
  digestSize : ℕ
  wordSize : ℕ
  lengthSize : ℕ
  bigEndian : Bool
  toNat : ω → ℕ
  init : List ω
  update : List ω → List UInt8 → List ω
  lengthSize_pos : 0 < lengthSize
  lengthSize_le : lengthSize ≤ blockSize

theorem HashType.blockSize_pos {ω : Type} (H : HashType ω) : 0 < H.blockSize :=
  Nat.lt_of_lt_of_le H.lengthSize_pos H.lengthSize_le

/-- An object of the class. -/
structure Hash (ω : Type) where
  state : List ω
  length : ℕ
  buffer : List UInt8

namespace Hash

variable {ω : Type} (H : HashType ω)

/-- The constructor. -/
def new : Hash ω := ⟨H.init, 0, []⟩

/-- `this->update(block)` and `length += block_size`. -/
def absorb (s : Hash ω) (block : List UInt8) : Hash ω :=
  { s with
    state := H.update s.state block, length := (s.length + H.blockSize) % 2 ^ (8 * H.lengthSize) }

/-- The loop of `write` over the whole blocks of `buf`, and what is left of it; every round
    takes a byte at least. -/
def absorbBlocks : ℕ → Hash ω → List UInt8 → Hash ω × List UInt8
  | 0, s, buf => (s, buf)
  | fuel + 1, s, buf =>
    if H.blockSize ≤ buf.length then
      absorbBlocks fuel (s.absorb H (buf.take H.blockSize)) (buf.drop H.blockSize)
    else (s, buf)

/-- The loop and the end of `write`, with `buffer_pos` at 0. -/
def writeBlocks (s : Hash ω) (buf : List UInt8) : Hash ω :=
  let (s, rest) := absorbBlocks H buf.length s buf
  { s with buffer := rest }

/-- `write(buf, n)`. -/
def write (s : Hash ω) (buf : List UInt8) : Hash ω :=
  if 0 < s.buffer.length then
    let r := H.blockSize - s.buffer.length
    if buf.length < r then { s with buffer := s.buffer ++ buf }
    -- the first block of the loop is `buffer`, and the others follow in `buf`
    else writeBlocks H ({ s with buffer := [] }.absorb H (s.buffer ++ buf.take r)) (buf.drop r)
  else writeBlocks H s buf

/-- The words of the state that `digest` converts, as bytes. -/
def digestBytes (state : List ω) : List UInt8 :=
  (state.take (H.digestSize / H.wordSize)).flatMap fun w =>
    endianBytes H.bigEndian H.wordSize (H.toNat w)

/-- `digest()`. -/
def digest (s : Hash ω) : List UInt8 :=
  let length := (s.length + s.buffer.length) <<< 3 % 2 ^ (8 * H.lengthSize)
  let s := s.write H [0x80]
  let s :=
    if H.blockSize < s.buffer.length + H.lengthSize then
      { s with
        state := H.update s.state (s.buffer ++ List.replicate (H.blockSize - s.buffer.length) 0),
        buffer := [] }
    else s
  let zeros := List.replicate (H.blockSize - H.lengthSize - s.buffer.length) 0
  digestBytes H
    (H.update s.state (s.buffer ++ zeros ++ endianBytes H.bigEndian H.lengthSize length))

end Hash

/-- An object of `HMAC<Hash_Type>`. -/
structure HMAC (ω : Type) where
  secret : List UInt8
  hash : Hash ω

namespace HMAC

variable {ω : Type} (H : HashType ω)

/-- What becomes of the key before it is masked: a key longer than a block is hashed, a
    shorter one is filled up. -/
def keyBlock (key : List UInt8) : List UInt8 :=
  let secret := if H.blockSize < key.length then
    (((Hash.new H).write H key).digest H).take (min H.digestSize H.blockSize) else key
  secret ++ List.replicate (H.blockSize - secret.length) 0

/-- The constructor. -/
def new (key : List UInt8) : HMAC ω :=
  let secret := (keyBlock H key).map (· ^^^ 0x36)
  ⟨secret, (Hash.new H).write H secret⟩

/-- `write(buf, n)`. -/
def write (s : HMAC ω) (buf : List UInt8) : HMAC ω := { s with hash := s.hash.write H buf }

/-- `digest()`. -/
def digest (s : HMAC ω) : List UInt8 :=
  let ihash := s.hash.digest H
  let secret := s.secret.map (· ^^^ (0x36 ^^^ 0x5c))
  (((Hash.new H).write H secret).write H ihash).digest H

end HMAC

end Matching.Common
