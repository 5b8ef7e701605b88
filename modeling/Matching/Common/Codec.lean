import Matching.Common.Io
import Matching.Lib.Fault
import Matching.Lib.Transducer

/-! `codec.h` and `codec.tcc`: a codec pulled through `CodecSource`, whose caller reads the
    transcoded bytes, and `transcode`, which pushes a whole input through a codec of its own. -/

namespace Matching.Common

/-- What the codecs throw. -/
inductive Thrown where
  | logic_error (what : String)
  | failure (what : String)
  deriving DecidableEq, Repr

/-- A codec class: its initial state, `process` and `finish`. -/
abbrev Codec (σ : Type) := Transducer σ UInt8 UInt8 Thrown

/-! ### Pulling -/

/-- `CodecSource`: `ibuf` holds what was read up to `ibuf_eptr`, and `ibuf_ptr`
    is an offset into it. -/
structure CodecSource (σ : Type) where
  source : Source
  codec : σ
  ibuf : List UInt8
  ibuf_ptr : ℕ

/-- What a call of `read` does: the bytes at `buf` whose number it returns, or `none` for a negative
    value, and the bytes it writes from `buf + n` on. -/
structure Pulled (σ : Type) where
  ret : Option (List UInt8)
  beyond : List UInt8
  self : CodecSource σ

namespace CodecSource

variable {σ : Type}

def buffer_size : ℕ := 512

def init (c : Codec σ) (source : Source) : CodecSource σ := ⟨source, c.init, [], 0⟩

/-- `read(buf, n)`. The end of the source is passed on as the end of the codec: `finish` writes to
    `obuf_eptr`, and `obuf_ptr` does not move. -/
def read (c : Codec σ) (s : CodecSource σ) (n : ℕ) : Except Thrown (Pulled σ) := do
  let (r, source) := s.source.read (buffer_size - s.ibuf.length)
  let ibuf := s.ibuf ++ r.getD []
  let p ← c.process s.codec n (ibuf.drop s.ibuf_ptr)
  if p.finished then
    match r with
    | some _ => return ⟨some p.out, [], ⟨source, p.state, [], 0⟩⟩
    | none =>
      let (finished, beyond, codec) ← c.finish p.state (n - p.out.length)
      return ⟨if p.out = [] ∧ finished then none else some p.out, beyond, ⟨source, codec, [], 0⟩⟩
  else
    return ⟨some p.out, [], ⟨source, p.state, ibuf, ibuf.length - p.rest.length⟩⟩

/-- What a caller gets from reads of the given sizes up to the first negative value: whether it
    came, the bytes returned one after the other, and what was written beyond its buffers. -/
def reads (c : Codec σ) : List ℕ → CodecSource σ → Except Thrown (Bool × List UInt8 × List UInt8)
  | [], _ => .ok (false, [], [])
  | n :: ns, s => do
    let p ← read c s n
    match p.ret with
    | none => return (true, [], p.beyond)
    | some bytes =>
      let (ended, out, beyond) ← reads c ns p.self
      return (ended, bytes ++ out, p.beyond ++ beyond)

end CodecSource

/-! ### Pushing -/

namespace Codec

variable {σ : Type}

/-- `OBufSize`. -/
def obufSize : ℕ := 512

/-- The loop of `transcode` over `process`, with an output buffer a round; `none`
    where the rounds run out. -/
def processAll (c : Codec σ) : ℕ → σ → List UInt8 → Option (Except Thrown (List UInt8 × σ))
  | 0, _, _ => none
  | rounds + 1, s, input =>
    match c.process s obufSize input with
    | .error e => some (.error e)
    | .ok p =>
      if p.finished then some (.ok (p.out, p.state))
      else (processAll c rounds p.state p.rest).map (·.map fun r => (p.out ++ r.1, r.2))

/-- Its loop over `finish`. -/
def finishAll (c : Codec σ) : ℕ → σ → Option (Except Thrown (List UInt8))
  | 0, _ => none
  | rounds + 1, s =>
    match c.finish s obufSize with
    | .error e => some (.error e)
    | .ok (finished, out, s) =>
      if finished then some (.ok out) else (finishAll c rounds s).map (·.map (out ++ ·))

/-- `transcode(out, in, n_in)` into a string. -/
def transcode (c : Codec σ) (rounds : ℕ) (input : List UInt8) :
    Option (Except Thrown (List UInt8)) :=
  match processAll c rounds c.init input with
  | none => none
  | some (.error e) => some (.error e)
  | some (.ok (out, s)) => (finishAll c rounds s).map (·.map (out ++ ·))

end Codec

end Matching.Common
