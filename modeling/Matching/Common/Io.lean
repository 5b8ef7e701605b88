import Matching.Lib.Memory

/-! `io.h` and `io.cpp`: byte sources and sinks, the write buffer `BufferedSinkBase` and
    `DelimitedSource`. What lies under them is not ours: an underlying source or sink is
    the bytes it has still to give or has received, and a script of how many bytes it
    moves in each coming call. -/

namespace Matching.Common

/-! ### The ends of a stream -/

/-- A source gives at most the scripted number of bytes in a call, and all that is
    asked after the script. -/
structure Source where
  rest : List UInt8
  grants : List ℕ

/-- `Source::read(buf, n)`: the bytes stored in `buf`, whose number is the value returned, or `none`
    for a negative value, the end of the data. -/
def Source.read (s : Source) (n : ℕ) : Option (List UInt8) × Source :=
  let r := min n (s.grants.headD n)
  (if r ≠ 0 ∧ s.rest = [] then none else some (s.rest.take r), ⟨s.rest.drop r, s.grants.tail⟩)

/-- A sink takes at most the scripted number of bytes in a call, and all of
    them after the script. -/
structure Sink where
  got : List UInt8
  takes : List ℕ
  flushes : List Bool

/-- `Sink::write(buf, n)`. -/
def Sink.write (s : Sink) (bytes : List UInt8) : ℕ × Sink :=
  let r := min bytes.length (s.takes.headD bytes.length)
  (r, { s with got := s.got ++ bytes.take r, takes := s.takes.tail })

/-- `Sink::flush()`. -/
def Sink.flush (s : Sink) : Bool × Sink :=
  (s.flushes.headD true, { s with flushes := s.flushes.tail })

section Ends

variable {s s' : Source} {n : ℕ} {bytes : List UInt8}

/-- A read takes what it returns from the front, at most what was asked. -/
theorem Source.read_some (h : s.read n = (some bytes, s')) :
    s.rest = bytes ++ s'.rest ∧ bytes.length ≤ n ∧ s'.grants = s.grants.tail := by
  simp only [Source.read, Prod.mk.injEq] at h
  obtain ⟨h, rfl⟩ := h
  split at h
  · cases h
  · cases h
    refine ⟨(List.take_append_drop _ _).symm, ?_, rfl⟩
    rw [List.length_take]
    omega

/-- The end is reported only where nothing is left. -/
theorem Source.read_none (h : s.read n = (none, s')) :
    s.rest = [] ∧ s'.rest = [] ∧ s'.grants = s.grants.tail := by
  simp only [Source.read, Prod.mk.injEq] at h
  obtain ⟨h, rfl⟩ := h
  split at h
  · next hend => exact ⟨hend.2, by rw [hend.2, List.drop_nil], rfl⟩
  · cases h

/-- Only a source that grants nothing gives nothing to who asks for something. -/
theorem Source.read_ne_nil (h : s.read n = (some bytes, s')) (hn : 0 < n) (hgrants : 0 ∉ s.grants) :
    bytes ≠ [] := by
  have hpos : 0 < min n (s.grants.headD n) := by
    rcases hs : s.grants with _ | ⟨g, gs⟩
    · simpa using hn
    · rw [hs] at hgrants
      simp only [List.mem_cons, not_or] at hgrants
      simp only [List.headD_cons]
      omega
  simp only [Source.read, Prod.mk.injEq] at h
  obtain ⟨h, -⟩ := h
  split at h
  · cases h
  · next hrest =>
    cases h
    rw [Ne, List.take_eq_nil_iff, not_or]
    exact ⟨hpos.ne', fun hnil => hrest ⟨hpos.ne', hnil⟩⟩

theorem Sink.write_fst_le (s : Sink) (bytes : List UInt8) : (s.write bytes).1 ≤ bytes.length :=
  Nat.min_le_left _ _

theorem Sink.write_got (s : Sink) (bytes : List UInt8) :
    (s.write bytes).2.got = s.got ++ bytes.take (s.write bytes).1 := rfl

theorem Sink.write_takes_le (s : Sink) (bytes : List UInt8) :
    (s.write bytes).2.takes.length ≤ s.takes.length :=
  (List.length_tail ▸ Nat.sub_le _ _ : s.takes.tail.length ≤ s.takes.length)

/-- Only the script makes a sink take less than it is offered. -/
theorem Sink.write_takes_lt (s : Sink) {bytes : List UInt8} (h : (s.write bytes).1 < bytes.length) :
    (s.write bytes).2.takes.length < s.takes.length := by
  obtain ⟨got, takes, flushes⟩ := s
  rcases takes with _ | ⟨t, takes⟩
  · simp [Sink.write] at h
  · exact Nat.lt_succ_self _

/-- Only the script makes a flush fail. -/
theorem Sink.flush_flushes_lt (s : Sink) (h : s.flush.1 = false) :
    s.flush.2.flushes.length < s.flushes.length := by
  obtain ⟨got, takes, flushes⟩ := s
  rcases flushes with _ | ⟨f, flushes⟩
  · cases h
  · exact Nat.lt_succ_self _

end Ends

/-! ### The write buffer -/

/-- A call of `sink.write`, with the pointers of the buffer at that moment: over the cells `lo` to
    `hi` of the buffer, or over bytes of the caller's. -/
inductive Passed where
  | cells (gptr pptr lo hi : ℕ)
  | caller (gptr pptr : ℕ)

/-- `BufferedSinkBase`. Pointers are offsets from `buf_bptr`; `passed` records the
    calls of `sink.write`. -/
structure BufferedSinkBase where
  sink : Sink
  buf : List UInt8
  gptr : ℕ
  pptr : ℕ
  passed : List Passed

namespace BufferedSinkBase

/-- `buf_eptr`. -/
def eptr (s : BufferedSinkBase) : ℕ := s.buf.length

/-- The constructor: get and put pointer stand at the end. -/
def init (sink : Sink) (buf : List UInt8) : BufferedSinkBase :=
  ⟨sink, buf, buf.length, buf.length, []⟩

/-- `std::memcpy(buf_pptr, buf, n), buf_pptr += n`. -/
def put (s : BufferedSinkBase) (bytes : List UInt8) (n : ℕ) : BufferedSinkBase :=
  { s with buf := memcpy s.buf s.pptr bytes 0 n, pptr := s.pptr + n }

/-- `buf_gptr += sink.write(buf_gptr, b)`. -/
def pass (s : BufferedSinkBase) (b : ℕ) : BufferedSinkBase :=
  let (t, sink) := s.sink.write ((s.buf.drop s.gptr).take b)
  { s with
    sink, gptr := s.gptr + t, passed := s.passed ++ [.cells s.gptr s.pptr s.gptr (s.gptr + b)] }

/-- `sink.write(buf, n)` on bytes of the caller's. -/
def bypass (s : BufferedSinkBase) (bytes : List UInt8) : ℕ × BufferedSinkBase :=
  let (t, sink) := s.sink.write bytes
  (t, { s with sink, passed := s.passed ++ [.caller s.gptr s.pptr] })

/-- The part of `write` behind the drain: large requests go past the buffer,
    small ones to its start. -/
def refill (s : BufferedSinkBase) (bytes : List UInt8) : ℕ × BufferedSinkBase :=
  if bytes.length ≥ s.eptr then s.bypass bytes
  else
    (bytes.length,
      { s with buf := memcpy s.buf 0 bytes 0 bytes.length, gptr := 0, pptr := bytes.length })

/-- The part of `write` behind the copy: `r` bytes were copied and `bytes` are left. -/
def drain (s : BufferedSinkBase) (r : ℕ) (bytes : List UInt8) : ℕ × BufferedSinkBase :=
  let b := s.eptr - s.gptr
  if b > 0 then
    let s := s.pass b
    if s.gptr < s.eptr then (r, s) else ((s.refill bytes).1 + r, (s.refill bytes).2)
  else ((s.refill bytes).1 + r, (s.refill bytes).2)

/-- `BufferedSinkBase::write`. -/
def write (s : BufferedSinkBase) (bytes : List UInt8) : ℕ × BufferedSinkBase :=
  if bytes.length = 0 then (0, s)
  else
    let r := s.eptr - s.pptr
    if r > 0 then
      if bytes.length < r then (bytes.length, s.put bytes bytes.length)
      else (s.put bytes r).drain r (bytes.drop r)
    else s.drain r bytes

/-- `BufferedSinkBase::flush`. -/
def flush (s : BufferedSinkBase) : Bool × BufferedSinkBase :=
  let b := s.pptr - s.gptr
  let s := if b = 0 then s else s.pass b
  if s.gptr = s.pptr then
    let (ok, sink) := s.sink.flush
    (ok, { s with sink })
  else (false, s)

end BufferedSinkBase

/-! ### Reading up to a delimiter -/

/-- `DelimitedSource`: `delim_itr` as an offset from `delimiter.begin()`. -/
structure DelimitedSource where
  source : Source
  delimiter : List UInt8
  delim_itr : ℕ

namespace DelimitedSource

/-- The constructor. -/
def init (source : Source) (delimiter : List UInt8) : DelimitedSource := ⟨source, delimiter, 0⟩

/-- The next value of `delim_itr`, which a byte moves on by one, to the second
    place or to the first. -/
def advance (delimiter : List UInt8) (delim_itr : ℕ) (c : UInt8) : ℕ :=
  if delimiter[delim_itr]? = some c then delim_itr + 1
  else if delimiter.head? = some c then 1 else 0

/-- `return r == 0 ? s : r` for a negative `s`. -/
def orEnd (r : List UInt8) : Option (List UInt8) := if r = [] then none else some r

/-- The loop of `DelimitedSource::read`, after `r` bytes and with room for `n` more; a round that
    does not return makes `n` smaller, so that `n` rounds are enough. -/
def readLoop : ℕ → DelimitedSource → ℕ → List UInt8 → Option (List UInt8) × DelimitedSource
  | 0, s, _, r => (some r, s)
  | fuel + 1, s, n, r =>
    if n = 0 then (some r, s)
    else if s.delimiter.length - s.delim_itr = 0 then (orEnd r, s)
    else
      match s.source.read (min (s.delimiter.length - s.delim_itr) n) with
      | (none, source) => (orEnd r, { s with source })
      | (some [], source) => (some r, { s with source })
      | (some (b :: bs), source) =>
        readLoop fuel
          { s with source, delim_itr := (b :: bs).foldl (advance s.delimiter) s.delim_itr }
          (n - (b :: bs).length) (r ++ (b :: bs))

/-- `DelimitedSource::read`. -/
def read (s : DelimitedSource) (n : ℕ) : Option (List UInt8) × DelimitedSource := readLoop n s n []

end DelimitedSource

end Matching.Common
