import Matching.Common.Codec

/-! `base64.cpp`: the encoder and the decoder as the state machines they are. A label of `process`
    carries the variable that is live there, and `run` goes from label to label until the input or
    the room is used up. -/

namespace Matching.Common

/-- The static table `encode`. -/
def base64Encode : List UInt8 := [
  'A', 'B', 'C', 'D', 'E', 'F', 'G', 'H', 'I', 'J', 'K', 'L', 'M', 'N', 'O', 'P',
  'Q', 'R', 'S', 'T', 'U', 'V', 'W', 'X', 'Y', 'Z', 'a', 'b', 'c', 'd', 'e', 'f',
  'g', 'h', 'i', 'j', 'k', 'l', 'm', 'n', 'o', 'p', 'q', 'r', 's', 't', 'u', 'v',
  'w', 'x', 'y', 'z', '0', '1', '2', '3', '4', '5', '6', '7', '8', '9', '+', '/'].map Char.toUInt8

/-- `'='`. -/
def pad : UInt8 := Char.toUInt8 '='

structure Base64Encoder where
  state : ℕ
  buf : UInt8
  deriving DecidableEq, Repr

namespace Base64Encoder

def encode (i : ℕ) : UInt8 := base64Encode.getD i 0

inductive Label where
  | state0
  | state1 (b0 : UInt8)
  | state2 (b1 : UInt8)
  | state3 (b0 : UInt8)

/-- `state = i, buf = b` at the label of state `i`. -/
def save (s : Base64Encoder) : Label → Base64Encoder
  | .state0 => { s with state := 0 }
  | .state1 b0 => { state := 1, buf := b0 }
  | .state2 b1 => { state := 2, buf := b1 }
  | .state3 b0 => { state := 3, buf := b0 }

/-- `process` from a label on, with room for `n_out` bytes. -/
def run (s : Base64Encoder) : Label → ℕ → List UInt8 → Transduced Base64Encoder UInt8 UInt8
  | .state0, _, [] => ⟨true, [], [], s.save .state0⟩
  | .state0, 0, b :: input => ⟨false, [], b :: input, s.save .state0⟩
  | .state0, n_out + 1, b0 :: input =>
    (run s (.state1 b0) n_out input).emit [encode (b0.toNat >>> 2)]
  | .state1 b0, _, [] => ⟨true, [], [], s.save (.state1 b0)⟩
  | .state1 b0, 0, b :: input => ⟨false, [], b :: input, s.save (.state1 b0)⟩
  | .state1 b0, n_out + 1, b1 :: input =>
    (run s (.state2 b1) n_out input).emit [encode (b0.toNat <<< 4 &&& 0x3F ||| b1.toNat >>> 4)]
  | .state2 b1, _, [] => ⟨true, [], [], s.save (.state2 b1)⟩
  | .state2 b1, 0, b :: input => ⟨false, [], b :: input, s.save (.state2 b1)⟩
  | .state2 b1, n_out + 1, b0 :: input =>
    (run s (.state3 b0) n_out input).emit [encode (b1.toNat <<< 2 &&& 0x3F ||| b0.toNat >>> 6)]
  | .state3 b0, 0, input => ⟨false, [], input, s.save (.state3 b0)⟩
  | .state3 b0, n_out + 1, input => (run s .state0 n_out input).emit [encode (b0.toNat &&& 0x3F)]

def process (s : Base64Encoder) (n_out : ℕ) (input : List UInt8) :
    Except Thrown (Transduced Base64Encoder UInt8 UInt8) :=
  match s.state with
  | 0 => .ok (s.run .state0 n_out input)
  | 1 => .ok (s.run (.state1 s.buf) n_out input)
  | 2 => .ok (s.run (.state2 s.buf) n_out input)
  | 3 => .ok (s.run (.state3 s.buf) n_out input)
  | _ => .error (.logic_error "illegal state")

/-- `state5` of `finish`. -/
def finish5 (s : Base64Encoder) : ℕ → Bool × List UInt8 × Base64Encoder
  | 0 => (false, [], { s with state := 5 })
  | _ + 1 => (true, [pad], { s with state := 6 })

/-- `case 4` of `finish`. -/
def finish4 (s : Base64Encoder) : ℕ → Bool × List UInt8 × Base64Encoder
  | 0 => (false, [], { s with state := 4 })
  | n_out + 1 =>
    let (finished, out, s) := s.finish5 n_out
    (finished, pad :: out, s)

/-- A last sextet, followed by what `next` does with the room behind it. -/
def finishWith (s : Base64Encoder) (i : ℕ) (next : ℕ → Bool × List UInt8 × Base64Encoder) :
    ℕ → Bool × List UInt8 × Base64Encoder
  | 0 => (false, [], s)
  | n_out + 1 =>
    let (finished, out, s) := next n_out
    (finished, encode i :: out, s)

def finish (s : Base64Encoder) (n_out : ℕ) : Except Thrown (Bool × List UInt8 × Base64Encoder) :=
  match s.state with
  | 0 => .ok (true, [], { s with state := 6 })
  | 1 => .ok (s.finishWith (s.buf.toNat <<< 4 &&& 0x3F) s.finish4 n_out)
  | 4 => .ok (s.finish4 n_out)
  | 2 => .ok (s.finishWith (s.buf.toNat <<< 2 &&& 0x3F) s.finish5 n_out)
  | 5 => .ok (s.finish5 n_out)
  | 3 => .ok (s.finishWith (s.buf.toNat &&& 0x3F)
      (fun _ => (true, [], { s with state := 6 })) n_out)
  | 6 => .ok (true, [], s)
  | _ => .error (.logic_error "illegal state")

def codec : Codec Base64Encoder := ⟨⟨0, 0⟩, process, finish⟩

/-! The meaning of a label is the text of all input from there on. -/

/-- The sextets from a label to the end, and the padding. -/
def text : Label → List UInt8 → List UInt8
  | .state0, [] => []
  | .state0, b0 :: input => encode (b0.toNat >>> 2) :: text (.state1 b0) input
  | .state1 b0, [] => [encode (b0.toNat <<< 4 &&& 0x3F), pad, pad]
  | .state1 b0, b1 :: input =>
    encode (b0.toNat <<< 4 &&& 0x3F ||| b1.toNat >>> 4) :: text (.state2 b1) input
  | .state2 b1, [] => [encode (b1.toNat <<< 2 &&& 0x3F), pad]
  | .state2 b1, b0 :: input =>
    encode (b1.toNat <<< 2 &&& 0x3F ||| b0.toNat >>> 6) ::
      encode (b0.toNat &&& 0x3F) :: text .state0 input
  | .state3 b0, [] => [encode (b0.toNat &&& 0x3F)]
  | .state3 b0, b :: input =>
      encode (b0.toNat &&& 0x3F) :: encode (b.toNat >>> 2) :: text (.state1 b) input

theorem text_state3 (b0 : UInt8) (input : List UInt8) :
    text (.state3 b0) input = encode (b0.toNat &&& 0x3F) :: text .state0 input := by
  cases input <;> rfl

theorem text_state2 (b1 b0 : UInt8) (input : List UInt8) :
    text (.state2 b1) (b0 :: input) =
      encode (b1.toNat <<< 2 &&& 0x3F ||| b0.toNat >>> 6) :: text (.state3 b0) input := by
  rw [text_state3]
  rfl

/-- The label at which a state goes on. -/
def label (s : Base64Encoder) : Label :=
  match s.state with
  | 0 => .state0
  | 1 => .state1 s.buf
  | 2 => .state2 s.buf
  | _ => .state3 s.buf

def left (s : Base64Encoder) : Except Thrown (List UInt8) :=
  match s.state with
  | 0 => .ok []
  | 1 => .ok [encode (s.buf.toNat <<< 4 &&& 0x3F), pad, pad]
  | 4 => .ok [pad, pad]
  | 2 => .ok [encode (s.buf.toNat <<< 2 &&& 0x3F), pad]
  | 5 => .ok [pad]
  | 3 => .ok [encode (s.buf.toNat &&& 0x3F)]
  | 6 => .ok []
  | _ => .error (.logic_error "illegal state")

def meaning : Denotation Base64Encoder UInt8 UInt8 Thrown where
  reads s := s.state < 4
  whole s input := .ok (text s.label input)
  left := left

theorem label_save (s : Base64Encoder) (l : Label) : (s.save l).label = l := by cases l <;> rfl

theorem save_label (s : Base64Encoder) (h : s.state < 4) : s.save s.label = s := by
  obtain ⟨state, buf⟩ := s
  rcases state with _ | _ | _ | _ | state
  iterate 4 rfl
  exact absurd h (by simp)

theorem reads_save (s : Base64Encoder) (l : Label) : meaning.reads (s.save l) := by
  cases l <;> simp [meaning, save]

theorem whole_save (s : Base64Encoder) (l : Label) (input : List UInt8) :
    meaning.whole (s.save l) input = .ok (text l input) := by
  simp only [meaning, label_save]

/-- A byte read at a label and a sextet written. -/
theorem sound_read {s : Base64Encoder} {l l' : Label} {n : ℕ} {b c : UInt8} {input : List UInt8}
    {r : Transduced Base64Encoder UInt8 UInt8}
    (htext : ∀ more, text l (b :: more) = c :: text l' more)
    (h : meaning.Sound n (s.save l') input (.ok r)) :
    meaning.Sound (n + 1) (s.save l) (b :: input) (.ok (r.emit [c])) := by
  refine Denotation.Sound.read [c] (fun more => ?_) h
  rw [whole_save, whole_save, htext]
  rfl

/-- From any label a call writes sextets of the text, in order. -/
theorem run_sound (s : Base64Encoder) : ∀ (n : ℕ) (l : Label) (input : List UInt8),
    meaning.Sound n (s.save l) input (.ok (s.run l n input))
  | n, .state0, [] | n, .state1 _, [] | n, .state2 _, [] => by
    rw [run]
    exact .done (reads_save s _) (fun _ => rfl)
  | 0, .state0, _ :: _ | 0, .state1 _, _ :: _ | 0, .state2 _, _ :: _ | 0, .state3 _, _ =>
    .stuck (reads_save s _) (fun _ => rfl)
  | n + 1, .state0, b0 :: input => sound_read (fun _ => rfl) (run_sound s n (.state1 b0) input)
  | n + 1, .state1 _, b1 :: input => sound_read (fun _ => rfl) (run_sound s n (.state2 b1) input)
  | n + 1, .state2 b1, b0 :: input =>
    sound_read (fun more => text_state2 b1 b0 more) (run_sound s n (.state3 b0) input)
  | n + 1, .state3 b0, input => by
    refine Denotation.Sound.write [encode (b0.toNat &&& 0x3F)] (fun more => ?_)
      (run_sound s n .state0 input)
    rw [whole_save, whole_save, text_state3]
    rfl

theorem process_eq (s : Base64Encoder) (h : s.state < 4) (n : ℕ) (input : List UInt8) :
    s.process n input = .ok (s.run s.label n input) := by
  obtain ⟨state, buf⟩ := s
  rcases state with _ | _ | _ | _ | state
  iterate 4 rfl
  exact absurd h (by simp)

theorem finish5_ends (s : Base64Encoder) : ∀ n, meaning.Ends n [pad] (s.finish5 n)
  | 0 => .stuck rfl
  | _ + 1 => .write pad (.done rfl)

theorem finish4_ends (s : Base64Encoder) : ∀ n, meaning.Ends n [pad, pad] (s.finish4 n)
  | 0 => .stuck rfl
  | n + 1 => .write pad (s.finish5_ends n)

theorem finishWith_ends {s : Base64Encoder} {i : ℕ} {more : List UInt8}
    {next : ℕ → Bool × List UInt8 × Base64Encoder} (hleft : s.left = .ok (encode i :: more))
    (hnext : ∀ n, meaning.Ends n more (next n)) :
    ∀ n, meaning.Ends n (encode i :: more) (s.finishWith i next n)
  | 0 => .stuck hleft
  | n + 1 => .write (encode i) (hnext n)

theorem denotes : codec.Denotes meaning where
  init := by simp [meaning, codec]
  process n input s h := by
    have hsound := run_sound s n s.label input
    rw [save_label s h, ← process_eq s h] at hsound
    exact hsound
  ends {s} h := by
    obtain ⟨state, buf⟩ := s
    rcases state with _ | _ | _ | _ | state
    iterate 4 rfl
    exact absurd h (by simp [meaning])
  finish_ok {n s r} h := by
    obtain ⟨state, buf⟩ := s
    rcases state with _ | _ | _ | _ | _ | _ | _ | state
    all_goals
      cases h
    · exact ⟨[], rfl, .done rfl⟩
    · exact ⟨_, rfl, finishWith_ends rfl (finish4_ends _) n⟩
    · exact ⟨_, rfl, finishWith_ends rfl (finish5_ends _) n⟩
    · exact ⟨_, rfl, finishWith_ends rfl (fun _ => .done rfl) n⟩
    · exact ⟨_, rfl, finish4_ends _ n⟩
    · exact ⟨_, rfl, finish5_ends _ n⟩
    · exact ⟨_, rfl, .done rfl⟩
  finish_error {n s e} h := by
    obtain ⟨state, buf⟩ := s
    rcases state with _ | _ | _ | _ | _ | _ | _ | state
    all_goals
      cases h
    rfl

end Base64Encoder

structure Base64Decoder where
  state : ℕ
  buf : UInt8
  deriving DecidableEq, Repr

namespace Base64Decoder

/-- The table `decode` of `process`, from `'+'` on. -/
def decodeTable : List ℤ := [
  62, -1, -1, -1, 63, 52, 53, 54, 55, 56, 57, 58, 59, 60, 61, -1, -1, -1, -1, -1,
  -1, -1,  0,  1,  2,  3,  4,  5,  6,  7,  8,  9, 10, 11, 12, 13, 14, 15, 16, 17,
  18, 19, 20, 21, 22, 23, 24, 25, -1, -1, -1, -1, -1, -1, 26, 27, 28, 29, 30, 31,
  32, 33, 34, 35, 36, 37, 38, 39, 40, 41, 42, 43, 44, 45, 46, 47, 48, 49, 50, 51]

def invalid : Thrown := .failure "invalid base64"

/-- The sextet of a byte; `b -= '+'` wraps below `'+'`. -/
def decode (b : UInt8) : Except Thrown UInt8 :=
  let i := (b.toNat + 2 ^ 32 - 43) % 2 ^ 32
  if i > 122 - 43 ∨ decodeTable.getD i (-1) < 0 then .error invalid
  else .ok (UInt8.ofNat (decodeTable.getD i (-1)).toNat)

inductive Label where
  | state0
  | state1 (b0 : UInt8)
  | state2 (b1 : UInt8)
  | state3 (b0 : UInt8)
  | state4
  | state5

/-- `state = i, buf = b` at the label of state `i`. -/
def save (s : Base64Decoder) : Label → Base64Decoder
  | .state0 => { s with state := 0 }
  | .state1 b0 => { state := 1, buf := b0 }
  | .state2 b1 => { state := 2, buf := b1 }
  | .state3 b0 => { state := 3, buf := b0 }
  | .state4 => { s with state := 4 }
  | .state5 => { s with state := 5 }

/-- `process` from a label on, with room for `n_out` bytes. Casts to a byte
    drop the bits above it. -/
def run (s : Base64Decoder) :
    Label → ℕ → List UInt8 → Except Thrown (Transduced Base64Decoder UInt8 UInt8)
  | l, _, [] => .ok ⟨true, [], [], s.save l⟩
  | .state0, n_out, b :: input => do run s (.state1 (← decode b)) n_out input
  | .state1 b0, 0, b :: input => .ok ⟨false, [], b :: input, s.save (.state1 b0)⟩
  | .state1 b0, n_out + 1, b :: input => do
    let b1 ← decode b
    (run s (.state2 b1) n_out input).map (.emit [b0 <<< 2 ||| b1 >>> 4])
  | .state2 b1, 0, b :: input =>
    if b = pad then run s .state4 0 input else .ok ⟨false, [], b :: input, s.save (.state2 b1)⟩
  | .state2 b1, n_out + 1, b :: input =>
    if b = pad then run s .state4 (n_out + 1) input
    else do
      let b0 ← decode b
      (run s (.state3 b0) n_out input).map (.emit [b1 <<< 4 ||| b0 >>> 2])
  | .state3 b0, 0, b :: input =>
    if b = pad then run s .state5 0 input else .ok ⟨false, [], b :: input, s.save (.state3 b0)⟩
  | .state3 b0, n_out + 1, b :: input =>
    if b = pad then run s .state5 (n_out + 1) input
    else do
      let b1 ← decode b
      (run s .state0 n_out input).map (.emit [b0 <<< 6 ||| b1])
  | .state4, n_out, b :: input => if b ≠ pad then .error invalid else run s .state5 n_out input
  | .state5, _, _ :: _ => .error invalid

def process (s : Base64Decoder) (n_out : ℕ) (input : List UInt8) :
    Except Thrown (Transduced Base64Decoder UInt8 UInt8) :=
  match s.state with
  | 1 => s.run (.state1 s.buf) n_out input
  | 2 => s.run (.state2 s.buf) n_out input
  | 3 => s.run (.state3 s.buf) n_out input
  | 4 => s.run .state4 n_out input
  | 5 => s.run .state5 n_out input
  | _ => s.run .state0 n_out input

def finish (s : Base64Decoder) (_ : ℕ) : Except Thrown (Bool × List UInt8 × Base64Decoder) :=
  if s.state ≠ 0 ∧ s.state ≠ 5 then .error invalid else .ok (true, [], s)

def codec : Codec Base64Decoder := ⟨⟨0, 0⟩, process, finish⟩

/-- The bytes from a label on, where the text has to end behind whole groups. -/
def bytes : Label → List UInt8 → Except Thrown (List UInt8)
  | .state0, [] | .state5, [] => .ok []
  | .state1 _, [] | .state2 _, [] | .state3 _, [] | .state4, [] => .error invalid
  | .state0, b :: input => do bytes (.state1 (← decode b)) input
  | .state1 b0, b :: input => do
    let b1 ← decode b
    (bytes (.state2 b1) input).map ([b0 <<< 2 ||| b1 >>> 4] ++ ·)
  | .state2 b1, b :: input =>
    if b = pad then bytes .state4 input
    else do
      let b0 ← decode b
      (bytes (.state3 b0) input).map ([b1 <<< 4 ||| b0 >>> 2] ++ ·)
  | .state3 b0, b :: input =>
    if b = pad then bytes .state5 input
    else do
      let b1 ← decode b
      (bytes .state0 input).map ([b0 <<< 6 ||| b1] ++ ·)
  | .state4, b :: input => if b ≠ pad then .error invalid else bytes .state5 input
  | .state5, _ :: _ => .error invalid

/-- The label at which a state goes on. -/
def label (s : Base64Decoder) : Label :=
  match s.state with
  | 1 => .state1 s.buf
  | 2 => .state2 s.buf
  | 3 => .state3 s.buf
  | 4 => .state4
  | 5 => .state5
  | _ => .state0

def meaning : Denotation Base64Decoder UInt8 UInt8 Thrown where
  reads s := s.state < 6
  whole s input := bytes s.label input
  left s := if s.state ≠ 0 ∧ s.state ≠ 5 then .error invalid else .ok []

theorem label_save (s : Base64Decoder) (l : Label) : (s.save l).label = l := by cases l <;> rfl

theorem save_label (s : Base64Decoder) (h : s.state < 6) : s.save s.label = s := by
  obtain ⟨state, buf⟩ := s
  rcases state with _ | _ | _ | _ | _ | _ | state
  iterate 6 rfl
  exact absurd h (by simp)

theorem reads_save (s : Base64Decoder) (l : Label) : meaning.reads (s.save l) := by
  cases l <;> simp [meaning, save]

theorem whole_save (s : Base64Decoder) (l : Label) (input : List UInt8) :
    meaning.whole (s.save l) input = bytes l input := by
  simp only [meaning, label_save]

/-- A sextet read at a label and a byte written. -/
theorem sound_read (l' : UInt8 → Label) (c : UInt8 → UInt8) {s : Base64Decoder} {l : Label}
    {n : ℕ} {b : UInt8} {input : List UInt8}
    {r : UInt8 → Except Thrown (Transduced Base64Decoder UInt8 UInt8)}
    (hbytes : ∀ more, bytes l (b :: more) =
      (do let v ← decode b; (bytes (l' v) more).map ([c v] ++ ·)))
    (h : ∀ v, meaning.Sound n (s.save (l' v)) input (r v)) :
    meaning.Sound (n + 1) (s.save l) (b :: input)
      (do let v ← decode b; (r v).map (.emit [c v])) := by
  rcases hb : decode b with e | v
  · refine Denotation.Sound.fails (fun more => ?_)
    rw [List.cons_append, whole_save, hbytes, hb]
    rfl
  · refine Denotation.Sound.read [c v] (fun more => ?_) (h v)
    rw [whole_save, whole_save, hbytes, hb]
    rfl

/-- From any label a call writes bytes that the text means, in order. -/
theorem run_sound (s : Base64Decoder) (input : List UInt8) : ∀ (l : Label) (n : ℕ),
    meaning.Sound n (s.save l) input (s.run l n input) := by
  induction input with
  | nil =>
    intro l n
    rw [run]
    exact .done (reads_save s l) (fun _ => rfl)
  | cons b input ih =>
    -- A padding character is read and nothing written, whatever the room.
    have hskip : ∀ {l l' : Label} {n : ℕ}, (∀ more, bytes l (b :: more) = bytes l' more) →
        meaning.Sound n (s.save l) (b :: input) (s.run l' n input) := by
      intro l l' n hbytes
      refine .skip (fun more => ?_) (ih l' n)
      rw [whole_save, whole_save, hbytes]
    have hfail : ∀ {l : Label} {n : ℕ} {e : Thrown}, (∀ more, bytes l (b :: more) = .error e) →
        meaning.Sound n (s.save l) (b :: input) (.error e) := by
      intro l n e hbytes
      refine .fails (fun more => ?_)
      rw [List.cons_append, whole_save, hbytes]
    rintro (_ | b0 | b1 | b0 | _ | _) n
    · rw [run]
      rcases hb : decode b with e | v
      · exact hfail (fun more => by rw [bytes, hb]; rfl)
      · exact hskip (fun more => by rw [bytes, hb]; rfl)
    · rcases n with _ | n
      · exact .stuck (reads_save s _) (fun _ => rfl)
      · rw [run]
        exact sound_read .state2 (fun v => b0 <<< 2 ||| v >>> 4) (fun _ => by rw [bytes])
          (fun v => ih (.state2 v) n)
    · rcases n with _ | n
      · rw [run]
        split
        · next hpad => exact hskip (fun more => by rw [bytes, if_pos hpad])
        · exact .stuck (reads_save s _) (fun _ => rfl)
      · rw [run]
        split
        · next hpad => exact hskip (fun more => by rw [bytes, if_pos hpad])
        · next hpad =>
          exact sound_read .state3 (fun v => b1 <<< 4 ||| v >>> 2)
            (fun more => by rw [bytes, if_neg hpad]) (fun v => ih (.state3 v) n)
    · rcases n with _ | n
      · rw [run]
        split
        · next hpad => exact hskip (fun more => by rw [bytes, if_pos hpad])
        · exact .stuck (reads_save s _) (fun _ => rfl)
      · rw [run]
        split
        · next hpad => exact hskip (fun more => by rw [bytes, if_pos hpad])
        · next hpad =>
          exact sound_read (fun _ => .state0) (fun v => b0 <<< 6 ||| v)
            (fun more => by rw [bytes, if_neg hpad]) (fun _ => ih .state0 n)
    · rw [run]
      split
      · next hpad => exact hfail (fun more => by rw [bytes, if_pos hpad])
      · next hpad => exact hskip (fun more => by rw [bytes, if_neg hpad])
    · rw [run]
      exact hfail (fun more => by rw [bytes])

theorem process_eq (s : Base64Decoder) (h : s.state < 6) (n : ℕ) (input : List UInt8) :
    s.process n input = s.run s.label n input := by
  obtain ⟨state, buf⟩ := s
  rcases state with _ | _ | _ | _ | _ | _ | state
  iterate 6 rfl
  exact absurd h (by simp)

theorem denotes : codec.Denotes meaning where
  init := by simp [meaning, codec]
  process n input s h := by
    have hsound := run_sound s input s.label n
    rw [save_label s h, ← process_eq s h] at hsound
    exact hsound
  ends {s} h := by
    obtain ⟨state, buf⟩ := s
    rcases state with _ | _ | _ | _ | _ | _ | state
    iterate 6 rfl
    exact absurd h (by simp [meaning])
  finish_ok {n s r} h := by
    simp only [codec, finish] at h
    split at h
    · cases h
    · next hstate =>
      cases h
      have hleft : meaning.left s = .ok [] := if_neg hstate
      exact ⟨[], hleft, .done hleft⟩
  finish_error {n s e} h := by
    simp only [codec, finish] at h
    split at h
    · next hstate =>
      cases h
      exact if_pos hstate
    · cases h

end Base64Decoder

end Matching.Common
