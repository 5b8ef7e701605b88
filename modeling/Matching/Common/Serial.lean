import Matching.Lib.Fault
import Matching.Lib.Memory

/-! `serial.h` and `serial.cpp`: integers of four and eight bytes in one to nine bytes. The
    reader takes its bytes from the front of a stream that ends; machine words are bit
    vectors, on which shifts and casts wrap as the compiler documents. A signed sum or
    difference that leaves its type is undefined. -/

namespace Matching.Common

/-- How a reader ends without a value: `std::ios_base::failure` is thrown, or a
    signed sum leaves its type. -/
inductive SerialError where | prematureEof | tooLarge | ub
  deriving DecidableEq, Repr

/-- What the exception is thrown with. -/
def SerialError.what : SerialError → Option String
  | .prematureEof => some "premature EOF"
  | .tooLarge => some "value is too large"
  | .ub => none

/-- `source.read_fully(buf, n)` on the bytes a source has left. -/
def readFully (n : ℕ) (s : List UInt8) : Except SerialError (List UInt8 × List UInt8) :=
  if n ≤ s.length then .ok (s.take n, s.drop n) else .error .prematureEof

/-- `source.read_fully(&b, sizeof b)` for one byte. -/
def readByte (s : List UInt8) : Except SerialError (UInt8 × List UInt8) :=
  match s with
  | [] => .error .prematureEof
  | b :: s => .ok (b, s)

/-- Reading the last `n` bytes of a zero `be<T>` of `w` bits. -/
def readBe (w n : ℕ) (s : List UInt8) : Except SerialError (BitVec w × List UInt8) := do
  let (bytes, s) ← readFully n s
  return (BitVec.ofNat w (ofBigEndian bytes), s)

/-- The last `n` bytes of a `be<T>`. -/
def be {w : ℕ} (n : ℕ) (x : BitVec w) : List UInt8 := (bigEndian (w / 8) x.toNat).drop (w / 8 - n)

/-- The static `varint_size`. -/
def varintSize (first_byte : UInt8) : ℕ :=
  let i := (~~~first_byte).toNat
  if i = 0 then 9
  else
    let (n, i) := if i >>> 4 = 0 then (2 + 4, i <<< 4) else (2, i)
    let (n, i) := if i >>> 6 = 0 then (n + 2, i <<< 2) else (n, i)
    n - i >>> 7

/-- `1 << i` in a word of `w` bits. -/
def bit {w : ℕ} (i : ℕ) : BitVec w := 1#w <<< i

/-- `(x >> down | d) + (x >> (w - 1) | 1) * offset`: the payload that starts with the sign bit of
    `x`, moved away from zero. -/
def awayFromZero {w : ℕ} (x : BitVec w) (down : ℕ) (d offset : BitVec w) : BitVec w :=
  (x.sshiftRight down ||| d) + (x.sshiftRight (w - 1) ||| 1) * offset

/-- The promoted and shifted first byte, `b << up`. -/
def promote (w : ℕ) (b : UInt8) (up : ℕ) : BitVec w := b.toBitVec.signExtend w <<< up

/-- `(value -= offset) < 0` and `(value += offset) >= 0`, on which the longest
    signed codes are accepted. -/
def checkedOffset {w : ℕ} (down : Bool) (value offset : BitVec w) (s : List UInt8) :
    Except SerialError (BitVec w × List UInt8) :=
  if down then
    if value.ssubOverflow offset then .error .ub
    else if (value - offset).slt 0 then .ok (value - offset, s)
    else .error .tooLarge
  else if value.saddOverflow offset then .error .ub
  else if (value + offset).slt 0 then .error .tooLarge
  else .ok (value + offset, s)

/-! ### Four bytes -/

namespace VarintOps4

/-- `_varint_ops<4>::read_signed`. -/
def readSigned (s : List UInt8) : Except SerialError (BitVec 32 × List UInt8) := do
  let (b, s) ← readByte s
  match varintSize b with
  | 1 => return ((promote 32 b 0 &&& 0x3F) + ~~~((promote 32 b 0 &&& 0x40) - 1), s)
  | 2 =>
    let (b1, s) ← readBe 32 1 s
    return (awayFromZero (promote 32 b 26) 18 b1 0x40, s)
  | 3 =>
    let (w, s) ← readBe 32 2 s
    return (awayFromZero (promote 32 b 27) 11 w 0x2040, s)
  | 4 =>
    let (d, s) ← readBe 32 3 s
    return (awayFromZero (promote 32 b 28) 4 d 0x102040, s)
  | 5 =>
    let x := promote 32 b 29
    if x.sshiftRight 29 + 1 ≤ 1 then
      let (value, s) ← readBe 32 4 s
      checkedOffset (x.slt 0) value 0x08102040 s
    else throw .tooLarge
  | _ => throw .tooLarge

/-- `_varint_ops<4>::write_signed`. -/
def writeSigned (value : BitVec 32) : List UInt8 :=
  if value.slt 0 then
    if (~~~(bit 6)).slt value then be 1 (~~~(bit 7) &&& value)
    else
      let value := value + bit 6
      if (~~~(bit 13)).slt value then be 2 (~~~(bit 14) &&& value)
      else
        let value := value + bit 13
        if (~~~(bit 20)).slt value then be 3 (~~~(bit 21) &&& value)
        else
          let value := value + bit 20
          if (~~~(bit 27)).slt value then be 4 (~~~(bit 28) &&& value)
          else be 1 0xF7#32 ++ be 4 (value + bit 27)
  else
    if value.slt (bit 6) then be 1 value
    else
      let value := value - bit 6
      if value.slt (bit 13) then be 2 (0x8000 ||| value)
      else
        let value := value - bit 13
        if value.slt (bit 20) then be 3 (0xC00000 ||| value)
        else
          let value := value - bit 20
          if value.slt (bit 27) then be 4 (0xE0000000 ||| value)
          else be 1 0xF0#32 ++ be 4 (value - bit 27)

/-- `_varint_ops<4>::read_unsigned`. -/
def readUnsigned (s : List UInt8) : Except SerialError (BitVec 32 × List UInt8) := do
  let (first, s) ← readByte s
  let b := first.toBitVec.zeroExtend 32
  match varintSize first with
  | 1 => return (b, s)
  | 2 =>
    let (b1, s) ← readBe 32 1 s
    return (((b &&& 0x3F) <<< 8 ||| b1) + 0x80, s)
  | 3 =>
    let (w, s) ← readBe 32 2 s
    return (((b &&& 0x1F) <<< 16 ||| w) + 0x4080, s)
  | 4 =>
    let (d, s) ← readBe 32 3 s
    return (((b &&& 0x0F) <<< 24 ||| d) + 0x204080, s)
  | 5 =>
    if b &&& 0x07 = 0 then
      let (value, s) ← readBe 32 4 s
      if value ≤ 0xFFFFFFFF - 0x10204080 then return (value + 0x10204080, s) else throw .tooLarge
    else throw .tooLarge
  | _ => throw .tooLarge

/-- `_varint_ops<4>::write_unsigned`. -/
def writeUnsigned (value : BitVec 32) : List UInt8 :=
  if value < bit 7 then be 1 value
  else
    let value := value - bit 7
    if value < bit 14 then be 2 (0x8000 ||| value)
    else
      let value := value - bit 14
      if value < bit 21 then be 3 (0xC00000 ||| value)
      else
        let value := value - bit 21
        if value < bit 28 then be 4 (0xE0000000 ||| value)
        else be 1 0xF0#32 ++ be 4 (value - bit 28)

end VarintOps4

/-! ### Eight bytes -/

namespace VarintOps8

/-- `_varint_ops<8>::read_signed`. -/
def readSigned (s : List UInt8) : Except SerialError (BitVec 64 × List UInt8) := do
  let (b, s) ← readByte s
  match varintSize b with
  | 1 => return (((promote 32 b 0 &&& 0x3F) + ~~~((promote 32 b 0 &&& 0x40) - 1)).signExtend 64, s)
  | 2 =>
    let (b1, s) ← readBe 32 1 s
    return ((awayFromZero (promote 32 b 26) 18 b1 0x40).signExtend 64, s)
  | 3 =>
    let (w, s) ← readBe 32 2 s
    return ((awayFromZero (promote 32 b 27) 11 w 0x2040).signExtend 64, s)
  | 4 =>
    let (d, s) ← readBe 32 3 s
    return ((awayFromZero (promote 32 b 28) 4 d 0x102040).signExtend 64, s)
  | 5 =>
    let (d, s) ← readBe 64 4 s
    return (awayFromZero (promote 64 b 61) 29 d 0x08102040, s)
  | 6 =>
    let (q, s) ← readBe 64 5 s
    return (awayFromZero (promote 64 b 62) 22 q 0x0408102040, s)
  | 7 =>
    let (q, s) ← readBe 64 6 s
    return (awayFromZero (promote 64 b 63) 15 q 0x020408102040, s)
  | 8 =>
    let (x, s) ← readBe 64 7 s
    return (awayFromZero (x <<< 8) 8 0 0x01020408102040, s)
  | 9 =>
    let (value, s) ← readBe 64 8 s
    checkedOffset (value.slt 0) value 0x0081020408102040 s
  | _ => throw .tooLarge

/-- `_varint_ops<8>::write_signed`. -/
def writeSigned (value : BitVec 64) : List UInt8 :=
  if value.slt 0 then
    if (~~~(bit 6)).slt value then be 1 (~~~(bit 7) &&& value)
    else
      let value := value + bit 6
      if (~~~(bit 13)).slt value then be 2 (~~~(bit 14) &&& value)
      else
        let value := value + bit 13
        if (~~~(bit 20)).slt value then be 3 (~~~(bit 21) &&& value)
        else
          let value := value + bit 20
          if (~~~(bit 27)).slt value then be 4 (~~~(bit 28) &&& value)
          else
            let value := value + bit 27
            if (~~~(bit 34)).slt value then be 5 (~~~(bit 35) &&& value)
            else
              let value := value + bit 34
              if (~~~(bit 41)).slt value then be 6 (~~~(bit 42) &&& value)
              else
                let value := value + bit 41
                if (~~~(bit 48)).slt value then be 7 (~~~(bit 49) &&& value)
                else
                  let value := value + bit 48
                  if (~~~(bit 55)).slt value then be 8 (~~~(bit 56) &&& value)
                  else be 1 0xFF#64 ++ be 8 (value + bit 55)
  else
    if value.slt (bit 6) then be 1 value
    else
      let value := value - bit 6
      if value.slt (bit 13) then be 2 (0x8000 ||| value)
      else
        let value := value - bit 13
        if value.slt (bit 20) then be 3 (0xC00000 ||| value)
        else
          let value := value - bit 20
          if value.slt (bit 27) then be 4 (0xE0000000 ||| value)
          else
            let value := value - bit 27
            if value.slt (bit 34) then be 5 (0xF000000000 ||| value)
            else
              let value := value - bit 34
              if value.slt (bit 41) then be 6 (0xF80000000000 ||| value)
              else
                let value := value - bit 41
                if value.slt (bit 48) then be 7 (0xFC000000000000 ||| value)
                else
                  let value := value - bit 48
                  if value.slt (bit 55) then be 8 (0xFE00000000000000 ||| value)
                  else be 1 0xFF#64 ++ be 8 (value - bit 55)

/-- `_varint_ops<8>::read_unsigned`. -/
def readUnsigned (s : List UInt8) : Except SerialError (BitVec 64 × List UInt8) := do
  let (first, s) ← readByte s
  let b := first.toBitVec.zeroExtend 64
  match varintSize first with
  | 1 => return (b, s)
  | 2 =>
    let (b1, s) ← readBe 64 1 s
    return (((b &&& 0x3F) <<< 8 ||| b1) + 0x80, s)
  | 3 =>
    let (w, s) ← readBe 64 2 s
    return (((b &&& 0x1F) <<< 16 ||| w) + 0x4080, s)
  | 4 =>
    let (d, s) ← readBe 64 3 s
    return (((b &&& 0x0F) <<< 24 ||| d) + 0x204080, s)
  | 5 =>
    let (d, s) ← readBe 64 4 s
    return (((b &&& 0x07) <<< 32 ||| d) + 0x10204080, s)
  | 6 =>
    let (q, s) ← readBe 64 5 s
    return (((b &&& 0x03) <<< 40 ||| q) + 0x0810204080, s)
  | 7 =>
    let (q, s) ← readBe 64 6 s
    return (((b &&& 0x01) <<< 48 ||| q) + 0x040810204080, s)
  | 8 =>
    let (q, s) ← readBe 64 7 s
    return (q + 0x02040810204080, s)
  | 9 =>
    let (value, s) ← readBe 64 8 s
    if value ≤ 0xFFFFFFFFFFFFFFFF - 0x0102040810204080 then return (value + 0x0102040810204080, s)
    else throw .tooLarge
  | _ => throw .tooLarge

/-- `_varint_ops<8>::write_unsigned`. -/
def writeUnsigned (value : BitVec 64) : List UInt8 :=
  if value < bit 7 then be 1 value
  else
    let value := value - bit 7
    if value < bit 14 then be 2 (0x8000 ||| value)
    else
      let value := value - bit 14
      if value < bit 21 then be 3 (0xC00000 ||| value)
      else
        let value := value - bit 21
        if value < bit 28 then be 4 (0xE0000000 ||| value)
        else
          let value := value - bit 28
          if value < bit 35 then be 5 (0xF000000000 ||| value)
          else
            let value := value - bit 35
            if value < bit 42 then be 6 (0xF80000000000 ||| value)
            else
              let value := value - bit 42
              if value < bit 49 then be 7 (0xFC000000000000 ||| value)
              else
                let value := value - bit 49
                if value < bit 56 then be 8 (0xFE00000000000000 ||| value)
                else be 1 0xFF#64 ++ be 8 (value - bit 56)

end VarintOps8

/-! ### By type -/

/-- The integer types with operations of their own. -/
inductive VarintType where | signed4 | unsigned4 | signed8 | unsigned8
  deriving DecidableEq, Repr

/-- The bits of a type. -/
def VarintType.width : VarintType → ℕ
  | .signed4 => 32
  | .unsigned4 => 32
  | .signed8 => 64
  | .unsigned8 => 64

/-- `read_varint`. -/
def readVarint : (t : VarintType) → List UInt8 → Except SerialError (BitVec t.width × List UInt8)
  | .signed4 => VarintOps4.readSigned
  | .unsigned4 => VarintOps4.readUnsigned
  | .signed8 => VarintOps8.readSigned
  | .unsigned8 => VarintOps8.readUnsigned

/-- `write_varint`. -/
def writeVarint : (t : VarintType) → BitVec t.width → List UInt8
  | .signed4 => VarintOps4.writeSigned
  | .unsigned4 => VarintOps4.writeUnsigned
  | .signed8 => VarintOps8.writeSigned
  | .unsigned8 => VarintOps8.writeUnsigned

end Matching.Common
