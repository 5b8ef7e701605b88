import Matching.Common.Codec

/-! `hex.cpp`: the encoder and the decoder. `buf_full` says that half of a byte is done; inside
    `process` it is the label behind which the byte, or its first digit, is live. -/

namespace Matching.Common

structure HexEncoder where
  buf_full : Bool
  buf : UInt8
  deriving DecidableEq, Repr

namespace HexEncoder

/-- The table `encode` of `process`. -/
def encodeTable : List UInt8 :=
  ['0', '1', '2', '3', '4', '5', '6', '7', '8', '9', 'a', 'b', 'c', 'd', 'e', 'f'].map Char.toUInt8

def encode (i : ℕ) : UInt8 := encodeTable.getD i 0

/-- `process` with room for `n_out` bytes: from the head of the loop, or from
    `buf_full` with a live byte. -/
def run (s : HexEncoder) : Option UInt8 → ℕ → List UInt8 → Transduced HexEncoder UInt8 UInt8
  | none, _, [] => ⟨true, [], [], { s with buf_full := false }⟩
  | none, 0, b :: input => ⟨false, [], b :: input, { s with buf_full := false }⟩
  | none, n_out + 1, b :: input => (run s (some b) n_out input).emit [encode (b.toNat >>> 4)]
  | some b, 0, input => ⟨false, [], input, { buf_full := true, buf := b }⟩
  | some b, n_out + 1, input => (run s none n_out input).emit [encode (b.toNat &&& 0xF)]

def process (s : HexEncoder) (n_out : ℕ) (input : List UInt8) :
    Except Thrown (Transduced HexEncoder UInt8 UInt8) :=
  .ok (s.run (if s.buf_full then some s.buf else none) n_out input)

def finish (s : HexEncoder) (n_out : ℕ) : Except Thrown (Bool × List UInt8 × HexEncoder) := do
  let p ← s.process n_out []
  return (p.finished, p.out, p.state)

def codec : Codec HexEncoder := ⟨⟨false, 0⟩, process, finish⟩

/-! ### What the states mean -/

def text (bytes : List UInt8) : List UInt8 :=
  bytes.flatMap fun b => [encode (b.toNat >>> 4), encode (b.toNat &&& 0xF)]

/-- The digit of a live byte. -/
def pending (s : HexEncoder) : List UInt8 :=
  if s.buf_full then [encode (s.buf.toNat &&& 0xF)] else []

def meaning : Denotation HexEncoder UInt8 UInt8 Thrown where
  reads _ := True
  whole s input := .ok (s.pending ++ text input)
  left s := .ok s.pending

theorem run_sound (s : HexEncoder) : ∀ (n : ℕ) (live : Option UInt8) (input : List UInt8),
    meaning.Sound n ⟨live.isSome, live.getD s.buf⟩ input (.ok (s.run live n input))
  | n, none, [] => by
    rw [run]
    exact .done trivial (fun _ => rfl)
  | 0, none, _ :: _ | 0, some _, _ => .stuck trivial (fun _ => rfl)
  | n + 1, none, b :: input =>
    .read [encode (b.toNat >>> 4)] (fun _ => rfl) (run_sound s n (some b) input)
  | n + 1, some b, input =>
    .write [encode (b.toNat &&& 0xF)] (fun _ => rfl) (run_sound s n none input)

theorem process_sound (n : ℕ) (input : List UInt8) (s : HexEncoder) :
    meaning.Sound n s input (s.process n input) := by
  obtain ⟨buf_full, buf⟩ := s
  cases buf_full with
  | false => exact run_sound ⟨false, buf⟩ n none input
  | true => exact run_sound ⟨true, buf⟩ n (some buf) input

theorem run_nil (s : HexEncoder) (n : ℕ) :
    s.run none n [] = ⟨true, [], [], { s with buf_full := false }⟩ := by rw [run]

theorem denotes : codec.Denotes meaning where
  init := trivial
  process n input s _ := process_sound n input s
  ends {s} _ := congrArg Except.ok (List.append_nil s.pending)
  finish_ok {n s r} h := by
    refine ⟨s.pending, rfl, ?_⟩
    obtain ⟨buf_full, buf⟩ := s
    rcases buf_full with _ | _
    · have hprocess : process ⟨false, buf⟩ n [] = .ok ⟨true, [], [], ⟨false, buf⟩⟩ :=
        congrArg Except.ok (run_nil _ n)
      simp only [codec, finish, hprocess, ok_bind] at h
      cases h
      exact .done rfl
    · rcases n with _ | n
      · cases h
        exact .stuck rfl
      · have hprocess : process ⟨true, buf⟩ (n + 1) [] =
          .ok ⟨true, [encode (buf.toNat &&& 0xF)], [], ⟨false, buf⟩⟩ :=
          congrArg (fun c : Transduced HexEncoder UInt8 UInt8 =>
            Except.ok (c.emit [encode (buf.toNat &&& 0xF)])) (run_nil ⟨true, buf⟩ n)
        simp only [codec, finish, hprocess, ok_bind] at h
        cases h
        exact .write _ (.done rfl)
  finish_error h := by cases h

end HexEncoder

structure HexDecoder where
  buf_full : Bool
  buf : UInt8
  deriving DecidableEq, Repr

namespace HexDecoder

/-- The table `decode` of `process`, from `'0'` on. -/
def decodeTable : List ℤ := [
  0,  1,  2,  3,  4,  5,  6,  7,  8,  9, -1, -1, -1, -1, -1, -1,
  -1, 10, 11, 12, 13, 14, 15, -1, -1, -1, -1, -1, -1, -1, -1, -1,
  -1, -1, -1, -1, -1, -1, -1, -1, -1, -1, -1, -1, -1, -1, -1, -1,
  -1, 10, 11, 12, 13, 14, 15]

def invalid : Thrown := .failure "invalid hex"

/-- The value of a digit; `b -= '0'` wraps below `'0'`. -/
def decode (b : UInt8) : Except Thrown UInt8 :=
  let i := (b.toNat + 2 ^ 32 - 48) % 2 ^ 32
  if i > 102 - 48 ∨ decodeTable.getD i (-1) < 0 then .error invalid
  else .ok (UInt8.ofNat (decodeTable.getD i (-1)).toNat)

/-- `process` with room for `n_out` bytes: from the head of the loop, or from
    `buf_full` with a live digit. -/
def run (s : HexDecoder) :
    Option UInt8 → ℕ → List UInt8 → Except Thrown (Transduced HexDecoder UInt8 UInt8)
  | none, _, [] => .ok ⟨true, [], [], { s with buf_full := false }⟩
  | some b0, _, [] => .ok ⟨true, [], [], { buf_full := true, buf := b0 }⟩
  | none, n_out, b :: input => do run s (some (← decode b)) n_out input
  | some b0, 0, b :: input => .ok ⟨false, [], b :: input, { buf_full := true, buf := b0 }⟩
  | some b0, n_out + 1, b :: input => do
    let b1 ← decode b
    (run s none n_out input).map (.emit [b0 <<< 4 ||| b1])

def process (s : HexDecoder) (n_out : ℕ) (input : List UInt8) :
    Except Thrown (Transduced HexDecoder UInt8 UInt8) :=
  s.run (if s.buf_full then some s.buf else none) n_out input

def finish (s : HexDecoder) (_ : ℕ) : Except Thrown (Bool × List UInt8 × HexDecoder) :=
  if s.buf_full then .error invalid else .ok (true, [], s)

def codec : Codec HexDecoder := ⟨⟨false, 0⟩, process, finish⟩

/-! ### What the states mean -/

/-- The bytes of a text behind a live digit. -/
def bytes : Option UInt8 → List UInt8 → Except Thrown (List UInt8)
  | none, [] => .ok []
  | some _, [] => .error invalid
  | none, b :: input => do bytes (some (← decode b)) input
  | some b0, b :: input => do
    let b1 ← decode b
    (bytes none input).map ([b0 <<< 4 ||| b1] ++ ·)

def meaning : Denotation HexDecoder UInt8 UInt8 Thrown where
  reads _ := True
  whole s input := bytes (if s.buf_full then some s.buf else none) input
  left s := if s.buf_full then .error invalid else .ok []

theorem whole_live (live : Option UInt8) (b : UInt8) (input : List UInt8) :
    meaning.whole ⟨live.isSome, live.getD b⟩ input = bytes live input := by
  cases live <;> rfl

theorem run_sound (s : HexDecoder) (input : List UInt8) : ∀ (live : Option UInt8) (n : ℕ),
    meaning.Sound n ⟨live.isSome, live.getD s.buf⟩ input (s.run live n input) := by
  induction input with
  | nil =>
    rintro (_ | b0) n
    · exact .done trivial (fun _ => rfl)
    · exact .done trivial (fun _ => rfl)
  | cons b input ih =>
    -- Both labels fail on the same bytes.
    have hfail : ∀ (live : Option UInt8) {n : ℕ} {e : Thrown}, decode b = .error e →
        meaning.Sound n ⟨live.isSome, live.getD s.buf⟩ (b :: input) (.error e) := by
      intro live n e hb
      refine .fails (fun more => ?_)
      rw [whole_live, List.cons_append]
      cases live <;> rw [bytes, hb] <;> rfl
    rintro (_ | b0) n
    · rw [run]
      rcases hb : decode b with e | v
      · exact hfail none hb
      · refine .skip (fun more => ?_) (ih (some v) n)
        rw [whole_live, whole_live, bytes, hb]
        rfl
    · rcases n with _ | n
      · exact .stuck trivial (fun _ => rfl)
      · rw [run]
        rcases hb : decode b with e | v
        · exact hfail (some b0) hb
        · refine .read [b0 <<< 4 ||| v] (fun more => ?_) (ih none n)
          rw [whole_live, whole_live, bytes, hb]
          rfl

theorem process_sound (n : ℕ) (input : List UInt8) (s : HexDecoder) :
    meaning.Sound n s input (s.process n input) := by
  obtain ⟨buf_full, buf⟩ := s
  cases buf_full with
  | false => exact run_sound ⟨false, buf⟩ input none n
  | true => exact run_sound ⟨true, buf⟩ input (some buf) n

theorem denotes : codec.Denotes meaning where
  init := trivial
  process n input s _ := process_sound n input s
  ends {s} _ := by
    obtain ⟨buf_full, buf⟩ := s
    cases buf_full <;> rfl
  finish_ok {n s r} h := by
    obtain ⟨buf_full, buf⟩ := s
    cases buf_full <;> cases h
    exact ⟨[], rfl, .done rfl⟩
  finish_error {n s e} h := by
    obtain ⟨buf_full, buf⟩ := s
    cases buf_full <;> cases h
    rfl

end HexDecoder

end Matching.Common
