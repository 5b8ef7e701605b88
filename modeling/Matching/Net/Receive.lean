import Matching.Net.Memxor
import Matching.Net.WebSocket
import Matching.Order

/-! `WebSocket::receive` over the memory of its members: `recv_data_rem`, `recv_mask`, `recv_state`
    and `recv_hdr_pos` lie one behind the other, the words with their lowest byte first, and a
    header is read straight into them. How many bytes the socket gives at each read is an input; 0
    is nothing available. -/

namespace Matching.WebSocket

/-! ### Memory -/

/-- The members, from `&recv_data_rem` on. -/
abbrev Mem := ℕ → UInt8

namespace Mem

/-- Where the members are. -/
def recvMask : ℕ := 8
def recvState : ℕ := 12
def recvHdrPos : ℕ := 13

/-- Bytes are stored from address `i` on. -/
def store (m : Mem) (i : ℕ) (bytes : List UInt8) : Mem :=
  fun k => if i ≤ k ∧ k < i + bytes.length then bytes.getD (k - i) 0 else m k

/-- The bytes at an address. -/
def load (m : Mem) (i size : ℕ) : List UInt8 := (List.range size).map fun k => m (i + k)

/-- `recv_data_rem`. -/
def dataRem (m : Mem) : ℕ := word (m.load 0 8)

/-- `recv_mask`. -/
def mask (m : Mem) : UInt32 := UInt32.ofNat (word (m.load recvMask 4))

/-- A new object; `recv_mask` has no initializer. -/
def start (junk : Mem) : Mem := fun k => if recvMask ≤ k ∧ k < recvState then junk k else 0

/-- `is_final()`. -/
def isFinal (m : Mem) : Bool := (m recvState).toNat ≥ 128

end Mem

/-! ### `receive` -/

/-- The bytes that are to come, and what the reads return. -/
structure Socket where
  stream : List UInt8
  counts : List ℕ

/-- `socket.read(buf, n)`. -/
def Socket.read (s : Socket) (n : ℕ) : List UInt8 × Socket :=
  let r := min (s.counts.headD 0) n
  (s.stream.take r, { stream := s.stream.drop r, counts := s.counts.tail })

/-- The exceptions. -/
inductive Failure where | reservedBits | fragmentedControl | unrecognizedOpcode
  deriving DecidableEq, Repr

def Failure.what : Failure → String
  | .reservedBits => "received WebSocket frame with non-zero reserved bits"
  | .fragmentedControl => "received fragmented WebSocket control frame"
  | .unrecognizedOpcode => "received WebSocket frame with unrecognized opcode"

/-- What a call returns, the opcode it stored, what it stored to the buffer. -/
structure Received where
  ret : ℤ
  opcode : Option Opcode
  buf : List UInt8
  mem : Mem
  socket : Socket

/-- A part of `receive` returns, or falls through to the next. -/
inductive Step where
  | back (r : Received)
  | on (opcode : Option Opcode) (mem : Mem) (socket : Socket)

/-- The `switch` over opcodes. -/
def Opcode.ofCode (code : UInt8) : Option Opcode :=
  if code = 0x0 then some .continuation
  else if code = 0x1 then some .text
  else if code = 0x2 then some .binary
  else if code = 0x8 then some .close
  else if code = 0x9 then some .ping
  else if code = 0xA then some .pong
  else none

open Mem

/-- The second byte has been read into `recv_hdr_pos`. -/
def secondByte (m : Mem) : Mem :=
  let m := m.store recvMask (wordBytes 4 (m recvHdrPos &&& 0x80).toNat)
  let m := m.store recvState [(m recvHdrPos &&& 0x7F) ||| (m recvState &&& 0x80)]
  m.store recvHdrPos [2]

/-- Nothing of the header has been read. -/
def readStart (m : Mem) (s : Socket) : Except Failure Step :=
  let (bytes, s) := s.read 2
  if bytes = [] then .ok (.back ⟨0, none, [], m, s⟩)
  else
    let m := m.store recvState bytes
    if m recvState &&& 0x70 ≠ 0 then .error .reservedBits
    else match Opcode.ofCode (m recvState &&& 0xF) with
      | none => .error .unrecognizedOpcode
      | some opcode =>
        if opcode.isControl ∧ m recvState &&& 0x80 = 0 then .error .fragmentedControl
        else if bytes.length = 1 then .ok (.back ⟨0, some opcode, [], m.store recvHdrPos [1], s⟩)
        else .ok (.on (some opcode) (secondByte m) s)

/-- One byte of the header has been read. -/
def readSecond (m : Mem) (s : Socket) : Step :=
  let (bytes, s) := s.read 1
  if bytes = [] then .back ⟨0, none, [], m, s⟩
  else .on none (secondByte (m.store recvHdrPos bytes)) s

/-- The rest of the header, and `recv_data_rem`. -/
def readHeader (opcode : Option Opcode) (m : Mem) (s : Socket) : Step :=
  let hdrPos := (m recvHdrPos).toNat
  let payloadLen := (m recvState &&& 0x7F).toNat
  let (hdrBuf, hdrSize) :=
    if payloadLen = 127 then (recvMask - 8, 2 + 8)
    else if payloadLen = 126 then (recvMask - 2, 2 + 2)
    else (recvMask, 2)
  let hdrSize := if hdrPos > hdrSize ∨ m.mask ≠ 0 then hdrSize + 4 else hdrSize
  let hdrSize := subU64 hdrSize hdrPos
  let whole (m : Mem) (s : Socket) : Step :=
    let m := m.store 0
      (wordBytes 8 (if payloadLen > 125 then word (m.load 0 8).reverse else payloadLen))
    .on opcode (m.store recvHdrPos [255]) s
  if hdrSize > 0 then
    let (bytes, s) := s.read hdrSize
    if bytes = [] then .back ⟨0, opcode, [], m, s⟩
    else
      let m := m.store (hdrBuf + hdrPos - 2) bytes
      let m := m.store recvHdrPos [UInt8.ofNat (hdrPos + bytes.length)]
      if bytes.length < hdrSize then .back ⟨0, opcode, [], m, s⟩ else whole m s
  else whole m s

/-- The payload: `buf` at `addr` has room for `n` bytes. -/
def readPayload (n addr : ℕ) (opcode : Option Opcode) (m : Mem) (s : Socket) : Received :=
  if m.dataRem = 0 then ⟨-1, opcode, [], m.store recvHdrPos [0], s⟩
  else if n = 0 then ⟨0, opcode, [], m, s⟩
  else
    let (bytes, s) := s.read (min n m.dataRem)
    if bytes = [] then ⟨0, opcode, [], m, s⟩
    else
      let r := bytes.length
      let m := m.store 0 (wordBytes 8 (m.dataRem - r))
      if m.mask ≠ 0 then
        -- `~recv_hdr_pos` is an `int`, and a `size_t` where it is used
        let phase := 2 ^ 64 - 1 - (m recvHdrPos).toNat
        let hdrPos := UInt8.ofNat (255 - (phase + r) % 2 ^ 64 % 4)
        ⟨r, opcode, memxor32 addr bytes m.mask phase, m.store recvHdrPos [hdrPos], s⟩
      else ⟨r, opcode, bytes, m, s⟩

/-- `receive(opcode, buf, n)`. -/
def receive (n addr : ℕ) (m : Mem) (s : Socket) : Except Failure Received := do
  let header (step : Step) : Received :=
    match step with
    | .back r => r
    | .on opcode m s =>
      match readHeader opcode m s with
      | .back r => r
      | .on opcode m s => readPayload n addr opcode m s
  -- the sign of `recv_hdr_pos` as an `int8_t`
  if m recvHdrPos ≥ 128 then .ok (readPayload n addr none m s)
  else if m recvHdrPos = 0 then .ok (header (← readStart m s))
  else if m recvHdrPos = 1 then .ok (header (readSecond m s))
  else .ok (header (.on none m s))

end Matching.WebSocket
