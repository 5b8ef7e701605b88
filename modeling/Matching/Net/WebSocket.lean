import Matching.Lib.Fault
import Matching.Lib.Memory

/-! `WebSocket`: what the wire protocol says a frame is in bytes, and `send`, which writes
    the frame of a message in as many calls as the socket needs. How many bytes the socket
    accepts in a call is an input. -/

namespace Matching.WebSocket

/-! ### Frames -/

/-- The opcodes of frames. -/
inductive Opcode where | continuation | text | binary | close | ping | pong
  deriving DecidableEq, Repr

namespace Opcode

def code : Opcode → ℕ
  | .continuation => 0x0
  | .text => 0x1
  | .binary => 0x2
  | .close => 0x8
  | .ping => 0x9
  | .pong => 0xA

def isControl : Opcode → Bool
  | .close | .ping | .pong => true
  | _ => false

end Opcode

/-- How the length of a payload is written: in 7, 16 or 64 bits. -/
inductive LengthForm where | short | medium | long
  deriving DecidableEq, Repr

namespace LengthForm

/-- The lengths that can be written. -/
def limit : LengthForm → ℕ
  | .short => 126
  | .medium => 2 ^ 16
  | .long => 2 ^ 63

/-- The seven bits in the second byte. -/
def field : LengthForm → ℕ → ℕ
  | .short, n => n
  | .medium, _ => 126
  | .long, _ => 127

/-- The bytes that follow it. -/
def extra : LengthForm → ℕ
  | .short => 0
  | .medium => 2
  | .long => 8

/-- The shortest form. -/
def least (n : ℕ) : LengthForm := if n < 126 then .short else if n < 2 ^ 16 then .medium else .long

end LengthForm

/-- A frame. -/
structure Frame where
  fin : Bool
  opcode : Opcode
  form : LengthForm
  mask : Option (Vector UInt8 4)
  payload : List UInt8
  fits : payload.length < form.limit

namespace Frame

/-- The `FIN` bit and the opcode, the mask bit and the length, the rest of the length with its
    highest byte first, the mask. -/
def header (f : Frame) : List UInt8 :=
  UInt8.ofNat ((if f.fin then 128 else 0) + f.opcode.code) ::
    UInt8.ofNat ((if f.mask.isSome then 128 else 0) + f.form.field f.payload.length) ::
      ((wordBytes f.form.extra f.payload.length).reverse ++ (f.mask.map Vector.toList).getD [])

/-- The payload under the mask. -/
def body (f : Frame) : List UInt8 :=
  match f.mask with
  | none => f.payload
  | some key => f.payload.mapIdx (fun i b => b ^^^ key.toList.getD (i % 4) 0)

def encode (f : Frame) : List UInt8 := f.header ++ f.body

end Frame

/-! ### `send` -/

/-- The arguments of a call; no buffer is longer than `PTRDIFF_MAX`. -/
structure Message where
  opcode : Opcode
  payload : List UInt8
  more : Bool
  fits : payload.length < 2 ^ 63

/-- The frame of a message: its length in the shortest form, and the null
    mask when masks are sent. -/
def Message.frame (m : Message) (sendMask : Bool) : Frame where
  fin := !m.more
  opcode := m.opcode
  form := .least m.payload.length
  mask := if sendMask then some (Vector.replicate 4 0) else none
  payload := m.payload
  fits := by
    have hfits := m.fits
    unfold LengthForm.least
    split
    · assumption
    split
    · assumption
    · exact hfits

/-- The bytes of the frame of a message. -/
def Message.encode (m : Message) (sendMask : Bool) : List UInt8 := (m.frame sendMask).encode

/-- `send_mask`, `send_hdr_pos` and `send_data_rem`. -/
structure Sender where
  sendMask : Bool
  sendHdrPos : ℕ
  sendDataRem : ℕ
  deriving DecidableEq, Repr

/-- `send_hdr`, up to `send_hdr_len`. -/
def sendHdr (sendMask : Bool) (m : Message) : List UInt8 :=
  let n := m.payload.length
  let first := UInt8.ofNat m.opcode.code &&& 0xF
  let first := if !m.more then first ||| 0x80 else first
  let (second, length) : UInt8 × List UInt8 :=
    if n >>> 16 ≠ 0 then
      (127,
        [n >>> 56, n >>> 48, n >>> 40, n >>> 32, n >>> 24, n >>> 16, n >>> 8, n].map UInt8.ofNat)
    else if n > 125 then (126, [n >>> 8, n].map UInt8.ofNat)
    else (UInt8.ofNat n, [])
  let second := if sendMask then second ||| 0x80 else second
  first :: second :: (length ++ if sendMask then List.replicate 4 0 else [])

/-- `send`, where the socket accepts up to `accepts` bytes: what it returns, and the
    bytes the socket got. -/
def Sender.send (s : Sender) (m : Message) (accepts : ℕ) :
    Except Fault (Bool × Sender × List UInt8) :=
  let n := m.payload.length
  -- the sign of `send_hdr_pos` as an `int8_t`
  if s.sendHdrPos < 128 then
    let hdr := sendHdr s.sendMask m
    -- `send_hdr_len -= send_hdr_pos` wraps, and memory behind `send_hdr` is written
    if hdr.length < s.sendHdrPos then .error .ub
    else
      let hdrLen := hdr.length - s.sendHdrPos
      let bytes := hdr.drop s.sendHdrPos ++ m.payload
      let w := min accepts bytes.length
      if w < hdrLen then
        .ok (false, { s with sendHdrPos := (s.sendHdrPos + w) % 256, sendDataRem := n },
          bytes.take w)
      else
        let rem := n - (w - hdrLen)
        if rem > 0 then .ok (false, { s with sendHdrPos := 255, sendDataRem := rem }, bytes.take w)
        else .ok (true, { s with sendDataRem := rem }, bytes.take w)
  else if n < s.sendDataRem then .error .ub
  else
    let w := min accepts s.sendDataRem
    let rem := s.sendDataRem - w
    .ok (rem = 0, { s with sendDataRem := rem }, (m.payload.drop (n - s.sendDataRem)).take w)

/-- A caller that repeats each call until it returns true: the messages it still has to send, the
    one it is at in front, and what the socket got. -/
structure Caller where
  ws : Sender
  left : List Message
  wire : List UInt8

/-- The next call. -/
def Caller.step (c : Caller) (accepts : ℕ) : Except Fault Caller :=
  match c.left with
  | [] => .ok c
  | m :: ms => do
    let (done, ws, bytes) ← c.ws.send m accepts
    .ok { ws, left := if done then ms else m :: ms, wire := c.wire ++ bytes }

/-- The calls for messages on a new connection; `accepts` says what the socket does in each. -/
def sendAll (sendMask : Bool) (ms : List Message) (accepts : List ℕ) : Except Fault Caller :=
  runs Caller.step ⟨⟨sendMask, 0, 0⟩, ms, []⟩ accepts

/-! ### The header -/

theorem first_eq (opcode : Opcode) (more : Bool) :
    (if !more then (UInt8.ofNat opcode.code &&& 0xF) ||| 0x80
      else UInt8.ofNat opcode.code &&& 0xF) =
      UInt8.ofNat ((if !more then 128 else 0) + opcode.code) := by
  cases opcode <;> cases more <;> decide

theorem second_eq (sendMask : Bool) {n : ℕ} (hn : n < 128) :
    (if sendMask then UInt8.ofNat n ||| 0x80 else UInt8.ofNat n) =
      UInt8.ofNat ((if sendMask then 128 else 0) + n) := by
  have hmask : ∀ n < 128, UInt8.ofNat n ||| 0x80 = UInt8.ofNat (128 + n) := by decide
  cases sendMask with
  | true => exact hmask n hn
  | false => simp

/-- The mask that is sent. -/
theorem mask_eq (sendMask : Bool) (m : Message) :
    (((m.frame sendMask).mask.map Vector.toList).getD []) =
      if sendMask then List.replicate 4 0 else [] := by
  cases sendMask <;> rfl

theorem isSome_mask (sendMask : Bool) (m : Message) :
    (m.frame sendMask).mask.isSome = sendMask := by
  cases sendMask <;> rfl

/-- `send_hdr` is the header of the frame. -/
theorem sendHdr_eq (sendMask : Bool) (m : Message) :
    sendHdr sendMask m = (m.frame sendMask).header := by
  have hshift : m.payload.length >>> 16 = m.payload.length / 2 ^ 16 := Nat.shiftRight_eq_div_pow _ _
  have hform : (m.frame sendMask).form = .least m.payload.length := rfl
  simp only [sendHdr, Frame.header, mask_eq, isSome_mask, hform, first_eq]
  rcases Nat.lt_or_ge m.payload.length 126 with hshort | hnot
  · have hzero : ¬m.payload.length >>> 16 ≠ 0 := by omega
    simp only [if_neg hzero, if_neg (show ¬m.payload.length > 125 by omega), LengthForm.least,
      if_pos hshort, LengthForm.field, LengthForm.extra, wordBytes, List.reverse_nil]
    rw [second_eq sendMask (by omega)]
    rfl
  · rcases Nat.lt_or_ge m.payload.length (2 ^ 16) with hmedium | hlong
    · have hzero : ¬m.payload.length >>> 16 ≠ 0 := by omega
      simp only [if_neg hzero, if_pos (show m.payload.length > 125 by omega), LengthForm.least,
        if_pos hmedium, if_neg (show ¬m.payload.length < 126 by omega), LengthForm.field,
        LengthForm.extra, wordBytes]
      rw [← second_eq sendMask (show 126 < 128 by omega)]
      simp [Nat.shiftRight_eq_div_pow, Message.frame]
    · have hpos : m.payload.length >>> 16 ≠ 0 := by omega
      simp only [if_pos hpos, LengthForm.least, if_neg (show ¬m.payload.length < 2 ^ 16 by omega),
        if_neg (show ¬m.payload.length < 126 by omega), LengthForm.field,
        LengthForm.extra, wordBytes]
      rw [← second_eq sendMask (show 127 < 128 by omega)]
      simp [Nat.shiftRight_eq_div_pow, Message.frame, Nat.div_div_eq_div_mul]

theorem length_sendHdr (sendMask : Bool) (m : Message) :
    2 ≤ (sendHdr sendMask m).length ∧ (sendHdr sendMask m).length ≤ 14 := by
  have hextra : ∀ form : LengthForm, form.extra ≤ 8 := by
    intro form
    cases form <;> decide
  have hform := hextra (m.frame sendMask).form
  rw [sendHdr_eq, Frame.header, mask_eq]
  simp only [List.length_cons, List.length_append, List.length_reverse, length_wordBytes]
  cases sendMask <;> simp <;> omega

end Matching.WebSocket
