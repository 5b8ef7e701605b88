import Matching.Common.Codec

/-! Chunked transfer in `http.cpp`: `ChunkedSink` writes the size of a chunk, its bytes and the
    separators through a sink that may take fewer bytes than it is offered, `ChunkedSource` reads
    them back. Both keep the point where they were interrupted in `state`; a step is one turn of the
    `for`/`switch` of the source. -/

namespace Matching.Common

def cr : UInt8 := Char.toUInt8 '\r'
def lf : UInt8 := Char.toUInt8 '\n'

/-! ### The sink -/

inductive ChunkedSink.State where | idle | size | sizeCr | sizeLf | data | dataCr | dataLf | ended
  deriving DecidableEq, Repr

structure ChunkedSink where
  sink : Sink
  write_size : ℕ
  state : ChunkedSink.State

namespace ChunkedSink

/-- `BITS(l, o)`. -/
def bits (l o : ℕ) : ℕ := (1 <<< l - 1) <<< o

/-- The table `HEX`. -/
def hex : List UInt8 :=
  ['0', '1', '2', '3', '4', '5', '6', '7', '8', '9', 'a', 'b', 'c', 'd', 'e', 'f'].map Char.toUInt8

/-- `c = HEX[(mask = write_size & BITS(4, o)) >> o]`, with the mask. -/
def nibble (write_size o : ℕ) : UInt8 × ℕ :=
  (hex.getD ((write_size &&& bits 4 o) >>> o) 0, write_size &&& bits 4 o)

/-- The digit at `o + 4` if it is not zero, else the one at `o`. -/
def nibbles (write_size o : ℕ) : UInt8 × ℕ :=
  if write_size &&& bits 4 (o + 4) ≠ 0 then nibble write_size (o + 4) else nibble write_size o

/-- The digit that goes out next and the mask that takes it off the size. -/
def topDigit (write_size : ℕ) : UInt8 × ℕ :=
  if write_size &&& bits 32 32 ≠ 0 then
    if write_size &&& bits 16 48 ≠ 0 then
      if write_size &&& bits 8 56 ≠ 0 then nibbles write_size 56 else nibbles write_size 48
    else if write_size &&& bits 8 40 ≠ 0 then nibbles write_size 40
    else nibbles write_size 32
  else if write_size &&& bits 16 16 ≠ 0 then
    if write_size &&& bits 8 24 ≠ 0 then nibbles write_size 24 else nibbles write_size 16
  else if write_size &&& bits 8 8 ≠ 0 then nibbles write_size 8
  else nibbles write_size 0

/-- `(write_size ^= mask) == 0`, behind which the size is written. -/
def unmask (mask : ℕ) (s : ChunkedSink) : ChunkedSink :=
  if s.write_size ^^^ mask = 0 then { s with write_size := 0, state := .sizeCr }
  else { s with write_size := s.write_size ^^^ mask }

/-- The variables of `write`: `buf` stands for the pointer and `n`. -/
structure Vars where
  self : ChunkedSink
  buf : List UInt8
  ret : ℕ

/-- `sink.write(&c, 1)`: nothing for a byte that is not taken, and the call returns. -/
def Vars.put (v : Vars) (c : UInt8) (next : ChunkedSink → ChunkedSink) : Bool × Vars :=
  let (r, sink) := v.self.sink.write [c]
  let self := { v.self with sink }
  if r = 0 then (true, { v with self }) else (false, { v with self := next self })

/-- One turn of the loop of `write`, and whether it returns. -/
def step (flush : Bool) (v : Vars) : Except Thrown (Bool × Vars) :=
  match v.self.state with
  | .idle =>
    if v.buf.length = 0 ∧ !flush then .ok (true, v)
    else .ok (false, { v with self := { v.self with write_size := v.buf.length, state := .size } })
  | .size =>
    let (c, mask) := topDigit v.self.write_size
    .ok <| v.put c (unmask mask)
  | .sizeCr => .ok <| v.put cr fun s => { s with state := .sizeLf }
  | .sizeLf =>
    .ok <| v.put lf fun s => { s with state := if v.buf.length ≠ 0 then .data else .ended }
  | .data =>
    let (ret, sink) := v.self.sink.write v.buf
    if ret < v.buf.length then .ok (true, { v with self := { v.self with sink }, ret })
    else .ok (false, { self := { v.self with sink, state := .dataCr }, buf := [], ret })
  | .dataCr => .ok <| v.put cr fun s => { s with state := .dataLf }
  | .dataLf => .ok <| v.put lf fun s => { s with state := .idle }
  | .ended =>
    if v.buf.length > 0 then .error (.logic_error "final chunk already sent") else .ok (true, v)

/-- The loop. A call takes at most sixteen turns for a size and two for each other state. -/
def loop (flush : Bool) : ℕ → Vars → Except Thrown (ℕ × ChunkedSink)
  | 0, v => .ok (v.ret, v.self)
  | turns + 1, v => do
    let (returns, v) ← step flush v
    if returns then return (v.ret, v.self) else loop flush turns v

/-- `write(buf, n, flush)`. -/
def writeWith (s : ChunkedSink) (buf : List UInt8) (flush : Bool) :
    Except Thrown (ℕ × ChunkedSink) :=
  loop flush 64 ⟨s, buf, 0⟩

/-- `write(buf, n)`. -/
def write (s : ChunkedSink) (buf : List UInt8) : Except Thrown (ℕ × ChunkedSink) :=
  s.writeWith buf false

/-- The call of `write(nullptr, 0, true)` in `flush`, unless the last chunk is sent. -/
def writeLast (s : ChunkedSink) : Except Thrown ChunkedSink :=
  if s.state ≠ .ended then (s.writeWith [] true).map Prod.snd else .ok s

def flush (s : ChunkedSink) : Except Thrown (Bool × ChunkedSink) := do
  let s ← s.writeLast
  if s.state ≠ .ended then return (false, s)
  let (flushed, sink) := s.sink.flush
  return (flushed, { s with sink })

/-- The caller: each block is written until it is accepted, again with the rest of a block
    that was accepted in part, and then the sink is flushed until that succeeds; `none`
    where the calls run out. -/
def send : ℕ → ChunkedSink → List (List UInt8) → Except Thrown (Option ChunkedSink)
  | 0, _, _ => .ok none
  | calls + 1, s, [] => do
    let (flushed, s) ← s.flush
    if flushed then return some s else send calls s []
  | calls + 1, s, block :: blocks => do
    let (r, s) ← s.write block
    if r = block.length then send calls s blocks else send calls s (block.drop r :: blocks)

end ChunkedSink

/-! ### The source -/

inductive ChunkedSource.State where
  | size | sizeCr | extensions | extensionsCr | data | dataEnd | dataCr | ended
  deriving DecidableEq, Repr

structure ChunkedSource where
  source : Source
  chunk_rem : ℕ
  state : ChunkedSource.State

namespace ChunkedSource

/-- The table `UNHEX`, from `'0'` on. -/
def unhex : List ℤ := [
  0, 1, 2, 3, 4, 5, 6, 7, 8, 9, -1, -1, -1, -1, -1, -1, -1, 10, 11, 12, 13, 14, 15, -1, -1, -1, -1,
  -1, -1, -1, -1, -1,
  -1, -1, -1, -1, -1, -1, -1, -1, -1, -1, -1, -1, -1, -1, -1, -1, -1, 10, 11, 12, 13, 14, 15]

/-- What a byte `c` read in a state other than `data` does to `state` and
    `chunk_rem`, a word of 64 bits. -/
def take (state : State) (chunk_rem : ℕ) (c : UInt8) : Except Thrown (State × ℕ) :=
  match state with
  | .size =>
    if c = Char.toUInt8 ';' then .ok (.extensions, chunk_rem)
    else if c = cr then .ok (.sizeCr, chunk_rem)
    else if c.toNat < 48 ∨ c.toNat > 102 ∨ unhex.getD (c.toNat - 48) (-1) < 0 then
      .error (.failure "invalid chunk size")
    else .ok (.size, (chunk_rem <<< 4 ||| (unhex.getD (c.toNat - 48) (-1)).toNat) % 2 ^ 64)
  | .sizeCr =>
    if c ≠ lf then .error (.failure "invalid chunk size")
    else .ok (if chunk_rem ≠ 0 then .data else .ended, chunk_rem)
  | .extensions => .ok (if c = cr then .extensionsCr else .extensions, chunk_rem)
  | .extensionsCr =>
    if c ≠ lf then .ok (if c ≠ cr then .extensions else .extensionsCr, chunk_rem)
    else .ok (if chunk_rem ≠ 0 then .data else .ended, chunk_rem)
  | .dataEnd => if c ≠ cr then .error (.failure "invalid chunk") else .ok (.dataCr, chunk_rem)
  | .dataCr => if c ≠ lf then .error (.failure "invalid chunk") else .ok (.size, chunk_rem)
  | .data | .ended => .ok (state, chunk_rem)

/-- What a turn of the loop of `read` does: it returns bytes, or `none` for a
    negative value, or goes on. -/
inductive Turn where
  | ret (bytes : Option (List UInt8)) (self : ChunkedSource)
  | next (self : ChunkedSource)

/-- `source.read(&c, 1)` and what is done with `c`; at `Exit` a negative `r` is a failure
    and zero is returned. -/
def takeByte (s : ChunkedSource) : Except Thrown Turn :=
  match s.source.read 1 with
  | (none, _) => .error (.failure "premature End")
  | (some [], source) => .ok (.ret (some []) { s with source })
  | (some (c :: _), source) => do
    let (state, chunk_rem) ← take s.state s.chunk_rem c
    return .next ⟨source, chunk_rem, state⟩

/-- One turn. -/
def step (s : ChunkedSource) (n : ℕ) : Except Thrown Turn :=
  match s.state with
  | .ended => .ok (.ret none s)
  | .data =>
    match s.source.read (min n s.chunk_rem) with
    | (none, _) => .error (.failure "premature End")
    | (some [], source) => .ok (.ret (some []) { s with source })
    | (some bytes, source) =>
      let chunk_rem := s.chunk_rem - bytes.length
      .ok (.ret (some bytes) ⟨source, chunk_rem, if chunk_rem = 0 then .dataEnd else .data⟩)
  | _ => s.takeByte

/-- The loop. A turn that goes on has read a byte. -/
def loop (n : ℕ) : ℕ → ChunkedSource → Except Thrown (Option (List UInt8) × ChunkedSource)
  | 0, s => .ok (some [], s)
  | turns + 1, s => do
    match ← step s n with
    | .ret bytes s => return (bytes, s)
    | .next s => loop n turns s

/-- `read(buf, n)`. -/
def read (s : ChunkedSource) (n : ℕ) : Except Thrown (Option (List UInt8) × ChunkedSource) :=
  loop n (s.source.rest.length + 1) s

/-- What a caller gets from reads of the given sizes up to the first negative value: whether it
    came, and the bytes returned one after the other. -/
def reads : List ℕ → ChunkedSource → Except Thrown (Bool × List UInt8)
  | [], _ => .ok (false, [])
  | n :: sizes, s => do
    match ← s.read n with
    | (none, _) => return (true, [])
    | (some bytes, s) =>
      let (ended, out) ← reads sizes s
      return (ended, bytes ++ out)

end ChunkedSource

end Matching.Common
