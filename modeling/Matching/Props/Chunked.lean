import Matching.Common.Chunked
import Matching.Lib.Digits
import Matching.Lib.Words

/-! Chunked transfer gives the blocks back for just those lengths that have no zero among their
    hexadecimal digits: the sink writes the digits of a size that are not zero. -/

namespace Matching.Common

namespace ChunkedSink

/-! ### The digits of a size -/

theorem bits_ne_zero (x l o : ℕ) : x &&& bits l o ≠ 0 ↔ x / 2 ^ o % 2 ^ l ≠ 0 := by
  rw [bits, and_field]
  simp

/-- `p` is the digit of `x` at place `i`, which has only zeros above it, and its mask. -/
structure IsTop (x i : ℕ) (p : UInt8 × ℕ) : Prop where
  eq : p = (hex.getD (x / 16 ^ i) 0, x / 16 ^ i * 16 ^ i)
  lt : x / 16 ^ i < 16
  pos : x ≠ 0 → x / 16 ^ i ≠ 0

theorem nibble_top {x i : ℕ} (hlt : x / 16 ^ i < 16) (hpos : x ≠ 0 → x / 16 ^ i ≠ 0) :
    IsTop x i (nibble x (4 * i)) := by
  have hpow : 2 ^ (4 * i) = 16 ^ i := Nat.pow_mul 2 4 i
  have hand : x &&& bits 4 (4 * i) = x / 16 ^ i * 16 ^ i := by
    rw [bits, and_field, hpow]
    exact congrArg (· * 16 ^ i) (Nat.mod_eq_of_lt hlt)
  refine ⟨?_, hlt, hpos⟩
  rw [nibble, hand, Nat.shiftRight_eq_div_pow, hpow, Nat.mul_div_cancel _ (by positivity)]

theorem nibbles_top {x i : ℕ} (hlt : x / 16 ^ i < 256) (hpos : x ≠ 0 → x / 16 ^ i ≠ 0) :
    ∃ j, IsTop x j (nibbles x (4 * i)) := by
  have hpow : 2 ^ (4 * i + 4) = 16 ^ (i + 1) := Nat.pow_mul 2 4 (i + 1)
  have hdiv : x / 16 ^ (i + 1) = x / 16 ^ i / 16 := by rw [Nat.pow_succ, Nat.div_div_eq_div_mul]
  rw [nibbles]
  split
  · next h =>
    rw [bits_ne_zero, hpow, hdiv] at h
    exact ⟨i + 1, nibble_top (by omega) (fun _ => by omega)⟩
  · next h =>
    rw [bits_ne_zero, hpow, hdiv] at h
    exact ⟨i, nibble_top (by omega) hpos⟩

theorem topDigit_top {x : ℕ} (hx : x < 2 ^ 64) : ∃ i, IsTop x i (topDigit x) := by
  unfold topDigit
  simp only [bits_ne_zero]
  split_ifs with h32 h48 h56 h40 h16 h24 h8
  · exact nibbles_top (i := 14) (by omega) (by omega)
  · exact nibbles_top (i := 12) (by omega) (by omega)
  · exact nibbles_top (i := 10) (by omega) (by omega)
  · exact nibbles_top (i := 8) (by omega) (by omega)
  · exact nibbles_top (i := 6) (by omega) (by omega)
  · exact nibbles_top (i := 4) (by omega) (by omega)
  · exact nibbles_top (i := 2) (by omega) (by omega)
  · exact nibbles_top (i := 0) (by omega) (by omega)

/-- What is written for a size. -/
def text (x : ℕ) : List UInt8 :=
  if x = 0 then [hex.getD 0 0] else (nonzeroDigits 16 x).map (hex.getD · 0)

/-- What is left of a size behind its next digit. -/
def takeOff (x : ℕ) : ℕ := x ^^^ (topDigit x).2

theorem text_step {x : ℕ} (hx : x < 2 ^ 64) :
    text x = (topDigit x).1 :: (if takeOff x = 0 then [] else text (takeOff x)) ∧
      takeOff x < 2 ^ 64 ∧
      (takeOff x ≠ 0 → (text (takeOff x)).length < (text x).length) := by
  obtain ⟨i, htop⟩ := topDigit_top hx
  have hpow : 2 ^ (4 * i) = 16 ^ i := Nat.pow_mul 2 4 i
  have hrem : x % 16 ^ i < 16 ^ i := Nat.mod_lt x (by positivity)
  have hsplit : x / 16 ^ i * 16 ^ i + x % 16 ^ i = x := Nat.div_add_mod' x (16 ^ i)
  have hoff : takeOff x = x % 16 ^ i := by
    have hxor := xor_high (m := 4 * i) (x := x / 16 ^ i) (y := x % 16 ^ i) (by rwa [hpow])
    rw [hpow, hsplit] at hxor
    rw [takeOff, htop.eq, hxor]
  have hle : x % 16 ^ i ≤ x := Nat.mod_le x _
  rw [hoff, htop.eq]
  by_cases hx0 : x = 0
  · subst hx0
    refine ⟨by simp [text], by simp, by simp⟩
  · have hdigits : nonzeroDigits 16 x = x / 16 ^ i :: nonzeroDigits 16 (x % 16 ^ i) := by
      have h := nonzeroDigits_top (by decide) (Nat.pos_of_ne_zero (htop.pos hx0)) htop.lt hrem
      rwa [hsplit] at h
    have htext : text x = hex.getD (x / 16 ^ i) 0 :: (nonzeroDigits 16 (x % 16 ^ i)).map
        (hex.getD · 0) := by
      rw [text, if_neg hx0, hdigits, List.map_cons]
    refine ⟨?_, by omega, fun hne => ?_⟩
    · rw [htext]
      split
      · next h0 => rw [h0, nonzeroDigits_zero, List.map_nil]
      · next h0 => rw [text, if_neg h0]
    · rw [htext, text, if_neg hne, List.length_cons]
      omega

/-- Sixteen digits at most. -/
theorem text_length {x : ℕ} (hx : x < 2 ^ 64) : 1 ≤ (text x).length ∧ (text x).length ≤ 16 := by
  refine ⟨by rw [(text_step hx).1, List.length_cons]; omega, ?_⟩
  rw [text]
  split
  · simp
  · have hlen : (Nat.digits 16 x).length ≤ 16 :=
      (Nat.digits_length_le_iff (by decide) x).mpr (by omega)
    rw [List.length_map, nonzeroDigits]
    exact (List.length_filter_le _ _).trans (List.length_reverse.le.trans hlen)

/-! ### What is still to be written -/

/-- A block on the wire. -/
def chunk (block : List UInt8) : List UInt8 := text block.length ++ [cr, lf] ++ block ++ [cr, lf]

/-- The last chunk. -/
def last : List UInt8 := text 0 ++ [cr, lf]

/-- What is to be written before the next size. -/
def idleOwed (flush : Bool) (buf : List UInt8) : List UInt8 :=
  if buf = [] then (if flush then last else []) else chunk buf

/-- What follows a size. -/
def dataOwed (buf : List UInt8) : List UInt8 := if buf = [] then [] else buf ++ [cr, lf]

/-- What a sink has still to write of a block of which `buf` is left, or of the last chunk. -/
def owed (flush : Bool) (s : ChunkedSink) (buf : List UInt8) : List UInt8 :=
  match s.state with
  | .idle => idleOwed flush buf
  | .size => text s.write_size ++ [cr, lf] ++ dataOwed buf
  | .sizeCr => [cr, lf] ++ dataOwed buf
  | .sizeLf => lf :: dataOwed buf
  | .data => dataOwed buf
  | .dataCr => [cr, lf] ++ idleOwed flush buf
  | .dataLf => lf :: idleOwed flush buf
  | .ended => []

/-- The state fits what is left of a block. -/
structure Fits (s : ChunkedSink) (buf : List UInt8) : Prop where
  size : s.write_size < 2 ^ 64
  length : buf.length < 2 ^ 64
  data : s.state = .data → buf ≠ []
  ended : s.state = .ended → buf = []

/-- Behind a block. -/
def Between (s : ChunkedSink) : Prop := s.state = .idle ∨ s.state = .dataCr ∨ s.state = .dataLf

/-- A sink in the middle of writing `orig`, of which the first `ret` bytes are accepted. -/
structure Place (s : ChunkedSink) (orig : List UInt8) (ret : ℕ) : Prop where
  fits : Fits s (orig.drop ret)
  le : ret ≤ orig.length
  between : orig.drop ret = [] → orig ≠ [] → Between s

/-- Such a sink inside `write`. -/
structure At (orig : List UInt8) (v : Vars) : Prop where
  place : Place v.self orig v.ret
  buf : v.buf = orig.drop v.ret
  ret : v.buf ≠ [] → v.ret = 0

/-- How far a call is from its end. -/
def weight (v : Vars) : ℕ :=
  (if v.buf = [] then 0 else 30) +
  match v.self.state with
  | .ended => 0
  | .data => 1
  | .sizeLf => 2
  | .sizeCr => 3
  | .size => 3 + (text v.self.write_size).length
  | .idle => 20
  | .dataLf => 21
  | .dataCr => 22

/-- What a turn or a call writes is the beginning of what is owed; it stops before the end only if
    the sink takes less than it is offered. -/
structure Wrote (flush : Bool) (s : ChunkedSink) (buf : List UInt8) (s' : ChunkedSink)
    (buf' : List UInt8) : Prop where
  got : ∃ w, s'.sink.got = s.sink.got ++ w ∧ owed flush s buf = w ++ owed flush s' buf'
  takes : s'.sink.takes.length ≤ s.sink.takes.length
  flushes : s'.sink.flushes = s.sink.flushes

variable {flush : Bool} {orig : List UInt8} {blocks : List (List UInt8)} {v v' : Vars}
  {s s' : ChunkedSink} {r : ℕ}

theorem Wrote.trans {t : ChunkedSink} {buf buf' buf'' : List UInt8}
    (h : Wrote flush s buf s' buf') (h' : Wrote flush s' buf' t buf'') :
    Wrote flush s buf t buf'' := by
  obtain ⟨w, hgot, howed⟩ := h.got
  obtain ⟨w', hgot', howed'⟩ := h'.got
  exact ⟨⟨w ++ w', by rw [hgot', hgot, List.append_assoc],
      by rw [howed, howed', List.append_assoc]⟩,
    h'.takes.trans h.takes, h'.flushes.trans h.flushes⟩

/-- The outcome of a turn of a call that writes `orig`. -/
inductive Turned (flush : Bool) (orig : List UInt8) (v : Vars) : Bool × Vars → Prop
  | goes {v' : Vars} (wrote : Wrote flush v.self v.buf v'.self v'.buf) (place : At orig v')
      (lighter : weight v' < weight v) :
      Turned flush orig v (false, v')
  | returns {v' : Vars} (wrote : Wrote flush v.self v.buf v'.self (orig.drop v'.ret))
      (place : Place v'.self orig v'.ret)
      (stops : v'.self.sink.takes.length < v.self.sink.takes.length ∨
        owed flush v'.self (orig.drop v'.ret) = []) :
      Turned flush orig v (true, v')

theorem Place.with_sink (h : Place s orig r) (sink : Sink) : Place { s with sink } orig r where
  fits := ⟨h.fits.size, h.fits.length, h.fits.data, h.fits.ended⟩
  le := h.le
  between := h.between

/-- A byte is offered to the sink, and the call goes on behind it or returns. -/
theorem put_turned (hv : At orig v) {c : UInt8} {next : ChunkedSink → ChunkedSink}
    (hsink : ∀ s, (next s).sink = s.sink)
    (howed : ∀ sink, owed flush v.self v.buf = c :: owed flush (next { v.self with sink }) v.buf)
    (hfits : ∀ sink, Fits (next { v.self with sink }) v.buf)
    (hbetween : ∀ sink, v.buf = [] → orig ≠ [] → Between (next { v.self with sink }))
    (hlighter : ∀ sink, weight { v with self := next { v.self with sink } } < weight v) :
    Turned flush orig v (v.put c next) := by
  have hgot := v.self.sink.write_got [c]
  have hle := v.self.sink.write_fst_le [c]
  simp only [Vars.put]
  split
  · next h0 =>
    rw [h0] at hgot
    refine .returns ⟨⟨[], hgot, ?_⟩, v.self.sink.write_takes_le [c], rfl⟩
      (hv.place.with_sink _) (.inl ?_)
    · rw [← hv.buf]
      rfl
    · exact v.self.sink.write_takes_lt (by rw [h0]; exact Nat.one_pos)
  · next h0 =>
    have h1 : (v.self.sink.write [c]).1 = 1 := by
      rw [List.length_singleton] at hle
      omega
    rw [h1] at hgot
    refine .goes ⟨⟨[c], ?_, howed _⟩, ?_, ?_⟩ ⟨⟨?_, hv.place.le, ?_⟩, hv.buf, hv.ret⟩ (hlighter _)
    · rw [hsink]
      exact hgot
    · rw [hsink]
      exact v.self.sink.write_takes_le [c]
    · rw [hsink]
      rfl
    · rw [← hv.buf]
      exact hfits _
    · rw [← hv.buf]
      exact hbetween _

theorem unmask_sink (mask : ℕ) (s : ChunkedSink) : (unmask mask s).sink = s.sink := by
  rw [unmask]
  split <;> rfl

theorem owed_data (flush : Bool) {buf : List UInt8} (hs : s.state = .data) (hbuf : buf ≠ []) :
    owed flush s buf = buf ++ [cr, lf] := by
  rw [owed, hs]
  exact if_neg hbuf

/-- Only behind a block can a call that writes a block have no bytes left. -/
theorem At.inside (hv : At orig v) (hout : ¬Between v.self) {P : Prop} (hnil : v.buf = [])
    (horig : orig ≠ []) : P :=
  absurd (hv.place.between (hv.buf ▸ hnil) horig) hout

theorem At.fits (hv : At orig v) : Fits v.self v.buf := hv.buf ▸ hv.place.fits

/-- Where nothing is left to write, the turn returns. -/
theorem At.returns (hv : At orig v) (howed : owed flush v.self v.buf = []) :
    Turned flush orig v (true, v) := by
  refine .returns ⟨⟨[], (List.append_nil _).symm, ?_⟩, le_rfl, rfl⟩ hv.place (.inr ?_)
  · rw [← hv.buf]
    rfl
  · rw [← hv.buf]
    exact howed

/-- `state_idle` writes nothing itself: it fixes the size of the next block, or returns. -/
theorem idle_turned (hv : At orig v) (hflush : flush = true → orig = [])
    (hstate : v.self.state = .idle) :
    ∃ p, step flush v = .ok p ∧ Turned flush orig v p := by
  have hfits := hv.fits
  simp only [step, hstate]
  split
  · next hstop =>
    have hoff : flush = false := by simpa using hstop.2
    refine ⟨_, rfl, hv.returns ?_⟩
    rw [owed, hstate, List.length_eq_zero_iff.mp hstop.1, hoff]
    rfl
  · next hgo =>
    have hlast : v.buf = [] → flush = true := fun hnil => by simpa [hnil] using hgo
    have hlen := text_length hfits.length
    refine ⟨_, rfl, .goes ⟨⟨[], (List.append_nil _).symm, ?_⟩, le_rfl, rfl⟩
      ⟨⟨?_, hv.place.le, ?_⟩, hv.buf, hv.ret⟩ ?_⟩
    · -- the size of an empty block stands for the last chunk
      rw [owed, hstate]
      rcases hbuf : v.buf with _ | ⟨b, bs⟩
      · rw [hlast hbuf]
        rfl
      · simp [idleOwed, owed, chunk, dataOwed]
    · rw [← hv.buf]
      exact ⟨hfits.length, hfits.length, by simp, by simp⟩
    · intro hnil horig
      rw [← hv.buf] at hnil
      exact absurd (hflush (hlast hnil)) horig
    · simp only [weight, hstate]
      omega

/-- `state_size` offers the topmost digit that is left, and goes on with what is below it. -/
theorem size_turned (hv : At orig v) (hstate : v.self.state = .size) :
    ∃ p, step flush v = .ok p ∧ Turned flush orig v p := by
  have hfits := hv.fits
  have hout : ¬Between v.self := by simp [Between, hstate]
  simp only [step, hstate]
  obtain ⟨htext, hoff, hshort⟩ := text_step hfits.size
  rcases hp : topDigit v.self.write_size with ⟨c, mask⟩
  have hmask : v.self.write_size ^^^ mask = takeOff v.self.write_size := by rw [takeOff, hp]
  rw [hp] at htext
  refine ⟨_, rfl,
    put_turned hv (unmask_sink mask) (fun _ => ?_) (fun _ => ?_) (fun _ => hv.inside hout)
    (fun _ => ?_)⟩
  · rw [owed, hstate, htext]
    simp only [unmask, hmask]
    split
    · rfl
    · simp [owed, hstate]
  · simp only [unmask, hmask]
    split
    · exact ⟨by simp, hfits.length, by simp, by simp⟩
    · exact ⟨hoff, hfits.length, by simp [hstate], by simp [hstate]⟩
  · have hpos := (text_length hfits.size).1
    simp only [unmask, hmask]
    split
    · simp only [weight, hstate]
      omega
    · next hne =>
      have hlt := hshort hne
      simp only [weight, hstate]
      omega

/-- `state_data` offers the rest of the block at once, and returns when the sink takes less. -/
theorem data_turned (hv : At orig v) (hflush : flush = true → orig = [])
    (hstate : v.self.state = .data) :
    ∃ p, step flush v = .ok p ∧ Turned flush orig v p := by
  have hfits := hv.fits
  simp only [step, hstate]
  have hne := hfits.data hstate
  have hret := hv.ret hne
  have hbuf := hv.buf
  rw [hret, List.drop_zero] at hbuf
  have hgot := v.self.sink.write_got v.buf
  have howed := owed_data flush hstate hne
  split
  · next hlt =>
    have hrest : orig.drop (v.self.sink.write v.buf).1 ≠ [] := by
      rw [← hbuf, Ne, List.drop_eq_nil_iff]
      omega
    refine ⟨_, rfl, .returns
      ⟨⟨v.buf.take (v.self.sink.write v.buf).1, hgot, ?_⟩, v.self.sink.write_takes_le v.buf, rfl⟩
      ⟨⟨hfits.size, ?_, fun _ => hrest, by simp⟩, ?_, fun hnil => absurd hnil hrest⟩
      (.inl (v.self.sink.write_takes_lt hlt))⟩
    · rw [howed, owed_data flush rfl hrest, ← List.append_assoc, ← hbuf, List.take_append_drop]
    · have := hfits.length
      rw [hbuf] at this
      rw [List.length_drop]
      omega
    · rw [← hbuf]
      exact hlt.le
  · next hge =>
    have hall : (v.self.sink.write v.buf).1 = v.buf.length :=
      Nat.le_antisymm (v.self.sink.write_fst_le v.buf) (by omega)
    have hnil : orig.drop v.buf.length = [] := by rw [← hbuf, List.drop_length]
    -- a flush has no bytes of its own
    have hoff : flush = false := by
      rw [← Bool.not_eq_true]
      intro hon
      exact hne (hbuf.trans (hflush hon))
    refine ⟨_, rfl, .goes ⟨⟨v.buf, ?_, ?_⟩, v.self.sink.write_takes_le v.buf, rfl⟩
      ⟨⟨?_, ?_, fun _ _ => .inr (.inl rfl)⟩, ?_, ?_⟩ ?_⟩
    · rw [hgot, hall, List.take_length]
    · rw [howed, hoff]
      rfl
    · simp only [hall, hnil]
      exact ⟨hfits.size, by simp, by simp, by simp⟩
    · rw [← hbuf]
      exact v.self.sink.write_fst_le v.buf
    · simp only [hall, hnil]
    · simp
    · simp only [weight, hstate, hne, if_true, if_false]
      omega

/-- One turn of the loop. -/
theorem step_turned (hv : At orig v) (hflush : flush = true → orig = []) :
    ∃ p, step flush v = .ok p ∧ Turned flush orig v p := by
  have hfits := hv.fits
  cases hstate : v.self.state with
  | idle => exact idle_turned hv hflush hstate
  | size => exact size_turned hv hstate
  | data => exact data_turned hv hflush hstate
  | sizeCr =>
    have hout : ¬Between v.self := by simp [Between, hstate]
    simp only [step, hstate]
    refine ⟨_, rfl, put_turned hv (fun _ => rfl) (fun _ => ?_)
      (fun _ => ⟨hfits.size, hfits.length, by simp, by simp⟩) (fun _ => hv.inside hout)
        (fun _ => ?_)⟩
    · rw [owed, hstate]
      rfl
    · simp only [weight, hstate]
      omega
  | sizeLf =>
    -- behind the last size there is no data, and the stream is at its end
    have hout : ¬Between v.self := by simp [Between, hstate]
    simp only [step, hstate]
    refine ⟨_, rfl,
      put_turned hv (fun _ => rfl) (fun _ => ?_) (fun _ => ⟨hfits.size, hfits.length, ?_, ?_⟩)
      (fun _ => hv.inside hout) (fun _ => ?_)⟩
    · rw [owed, hstate]
      rcases hbuf : v.buf with _ | ⟨b, bs⟩ <;> rfl
    · rintro hdata hnil
      simp [hnil] at hdata
    · intro hended
      by_contra hne
      simp [hne] at hended
    · rcases hbuf : v.buf with _ | ⟨b, bs⟩ <;> simp [weight, hstate, hbuf]
  | dataCr =>
    simp only [step, hstate]
    refine ⟨_, rfl, put_turned hv (fun _ => rfl) (fun _ => ?_)
      (fun _ => ⟨hfits.size, hfits.length, by simp, by simp⟩) (fun _ _ _ => .inr (.inr rfl))
        (fun _ => ?_)⟩
    · rw [owed, hstate]
      rfl
    · simp only [weight, hstate]
      omega
  | dataLf =>
    simp only [step, hstate]
    refine ⟨_, rfl, put_turned hv (fun _ => rfl) (fun _ => ?_)
      (fun _ => ⟨hfits.size, hfits.length, by simp, by simp⟩) (fun _ _ _ => .inl rfl) (fun _ => ?_)⟩
    · rw [owed, hstate]
      rfl
    · simp only [weight, hstate]
      omega
  | ended =>
    simp only [step, hstate]
    rw [if_neg (by rw [hfits.ended hstate]; decide)]
    exact ⟨_, rfl, hv.returns (by rw [owed, hstate])⟩

/-! ### Calls -/

/-- What a call that writes `buf` does: `r` bytes are accepted. -/
structure Called (flush : Bool) (s : ChunkedSink) (buf : List UInt8) (r : ℕ) (s' : ChunkedSink) :
    Prop where
  wrote : Wrote flush s buf s' (buf.drop r)
  place : Place s' buf r
  stops : s'.sink.takes.length < s.sink.takes.length ∨ owed flush s' (buf.drop r) = []

theorem loop_called (hflush : flush = true → orig = []) :
    ∀ (turns : ℕ) {v : Vars}, At orig v → weight v < turns →
    ∃ r s', loop flush turns v = .ok (r, s') ∧ Wrote flush v.self v.buf s' (orig.drop r) ∧
      Place s' orig r ∧
      (s'.sink.takes.length < v.self.sink.takes.length ∨ owed flush s' (orig.drop r) = [])
  | turns + 1, v, hv, hturns => by
    obtain ⟨p, hp, hturned⟩ := step_turned hv hflush
    cases hturned with
    | @goes v' wrote place lighter =>
      obtain ⟨r, s', hloop, hwrote, hplace, hstops⟩ := loop_called hflush turns place (by omega)
      refine ⟨r, s', ?_, wrote.trans hwrote, hplace,
        hstops.imp_left (fun hlt => hlt.trans_le wrote.takes)⟩
      simp only [loop, hp, ok_bind, Bool.false_eq_true, if_false, hloop]
    | @returns v' wrote place stops =>
      refine ⟨v'.ret, v'.self, ?_, wrote, place, stops⟩
      simp only [loop, hp, ok_bind, if_true]
      rfl

theorem writeWith_called (flush : Bool) (hfits : Fits s orig) (hflush : flush = true → orig = []) :
    ∃ r s', s.writeWith orig flush = .ok (r, s') ∧ Called flush s orig r s' := by
  have hv : At orig ⟨s, orig, 0⟩ :=
    ⟨⟨hfits, Nat.zero_le _, fun hnil hne => absurd hnil hne⟩, rfl, fun _ => rfl⟩
  have hweight : weight ⟨s, orig, 0⟩ < 64 := by
    have hlen := (text_length hfits.size).2
    simp only [weight]
    split <;> split <;> omega
  obtain ⟨r, s', hloop, hwrote, hplace, hstops⟩ := loop_called hflush 64 hv hweight
  exact ⟨r, s', hloop, hwrote, hplace, hstops⟩

/-! ### Sending -/

/-- All that is still to be written when `blocks` are left, the first of them perhaps in part. -/
def due (s : ChunkedSink) : List (List UInt8) → List UInt8
  | [] => owed true s []
  | block :: blocks => owed false s block ++ (blocks.map chunk).flatten ++ last

/-- The state fits what is left of the blocks. -/
def FitsAll (s : ChunkedSink) : List (List UInt8) → Prop
  | [] => Fits s []
  | block :: blocks => Fits s block ∧ block ≠ [] ∧ ∀ b ∈ blocks, b ≠ [] ∧ b.length < 2 ^ 64

/-- Behind a block the next one is owed from its size on. -/
theorem owed_next (h : Between s) : ∀ blocks : List (List UInt8), (∀ b ∈ blocks, b ≠ []) →
    owed false s [] ++ (blocks.map chunk).flatten ++ last = due s blocks
  | [], _ => by
    rw [due, owed, owed]
    rcases h with h | h | h <;> rw [h] <;> rfl
  | block :: blocks, hne => by
    have hblock := hne block List.mem_cons_self
    have howed : owed false s block = owed false s [] ++ chunk block := by
      rw [owed, owed]
      rcases h with h | h | h <;> simp [h, idleOwed, hblock]
    rw [due, howed, List.map_cons, List.flatten_cons]
    simp only [List.append_assoc]

theorem FitsAll.next (hfits : Fits s []) (h : Between s) :
    ∀ blocks : List (List UInt8), (∀ b ∈ blocks, b ≠ [] ∧ b.length < 2 ^ 64) →
    FitsAll s blocks
  | [], _ => hfits
  | block :: blocks, hblocks => by
    obtain ⟨hne, hlen⟩ := hblocks block List.mem_cons_self
    refine ⟨⟨hfits.size, hlen, fun _ => hne, fun hend => ?_⟩, hne,
      fun b hb => hblocks b (List.mem_cons_of_mem _ hb)⟩
    rcases h with h | h | h <;> rw [h] at hend <;> cases hend

/-- Nothing is owed only behind a block, where no more is asked for, and at the end. -/
theorem owed_nil {buf : List UInt8} (hfits : Fits s buf) (h : owed flush s buf = []) :
    s.state = .ended ∨ buf = [] ∧ flush = false := by
  have hidle : idleOwed flush buf = [] → buf = [] ∧ flush = false := by
    rw [idleOwed]
    split
    · next hnil => cases flush <;> simp [hnil, last]
    · simp [chunk]
  rw [owed] at h
  cases hstate : s.state with
  | idle =>
    rw [hstate] at h
    exact .inr (hidle h)
  | data =>
    rw [hstate] at h
    simp [dataOwed, hfits.data hstate] at h
  | ended => exact .inl rfl
  | _ =>
    rw [hstate] at h
    simp at h

/-- A flush writes the last chunk, in as many calls as it takes, and then flushes the sink. -/
theorem flush_called (hfits : Fits s []) : ∃ flushed s', s.flush = .ok (flushed, s') ∧ Fits s' [] ∧
    (∃ w, s'.sink.got = s.sink.got ++ w ∧ owed true s [] = w ++ owed true s' []) ∧
      (flushed = true → owed true s' [] = []) ∧
    (flushed = false → s'.sink.takes.length + s'.sink.flushes.length <
      s.sink.takes.length + s.sink.flushes.length) := by
  obtain ⟨t, hfirst, hfits', hwrote, hstops⟩ : ∃ t, s.writeLast = .ok t ∧
      Fits t [] ∧ Wrote true s [] t [] ∧
        (t.state = .ended ∨ t.sink.takes.length < s.sink.takes.length) := by
    by_cases hend : s.state = .ended
    · exact ⟨s, if_neg (not_not.mpr hend), hfits,
        ⟨⟨[], (List.append_nil _).symm, rfl⟩, le_rfl, rfl⟩, .inl hend⟩
    · obtain ⟨r, t, hwrite, hcalled⟩ := writeWith_called true hfits (fun _ => rfl)
      have hfits' := hcalled.place.fits
      have hwrote := hcalled.wrote
      have hstops := hcalled.stops
      rw [List.drop_nil] at hfits' hwrote hstops
      refine ⟨t, ?_, hfits', hwrote,
        hstops.symm.imp_left (fun hnil => (owed_nil hfits' hnil).resolve_right (by simp))⟩
      rw [writeLast, if_pos hend, hwrite]
      rfl
  obtain ⟨w, hgot, howed⟩ := hwrote.got
  have htakes := hwrote.takes
  have hflushes := congrArg List.length hwrote.flushes
  by_cases hend : t.state = .ended
  · have hnil : owed true t [] = [] := by rw [owed, hend]
    refine ⟨t.sink.flush.1, { t with sink := t.sink.flush.2 }, ?_,
      ⟨hfits'.size, hfits'.length, hfits'.data, hfits'.ended⟩, ⟨w, hgot, howed⟩,
      fun _ => hnil, fun hf => ?_⟩
    · simp only [ChunkedSink.flush, hfirst, ok_bind, hend, ne_eq, not_true_eq_false, if_false]
      rfl
    · have hlt := t.sink.flush_flushes_lt hf
      have htakes' : t.sink.flush.2.takes = t.sink.takes := rfl
      simp only [htakes']
      omega
  · have hlt := hstops.resolve_left hend
    refine ⟨false, t, ?_, hfits', ⟨w, hgot, howed⟩, by simp, fun _ => by omega⟩
    simp only [ChunkedSink.flush, hfirst, ok_bind, hend, ne_eq, not_false_eq_true, if_true]
    rfl

/-- The caller's calls end, and the sink has received what was due. -/
theorem send_ok : ∀ (calls : ℕ) {s : ChunkedSink} {blocks : List (List UInt8)}, FitsAll s blocks →
    blocks.length + s.sink.takes.length + s.sink.flushes.length < calls →
    ∃ s', send calls s blocks = .ok (some s') ∧ s'.sink.got = s.sink.got ++ due s blocks
  | calls + 1, s, [], hfits, hcalls => by
    obtain ⟨flushed, s', hflush, hfits', ⟨w, hgot, howed⟩, hdone, hagain⟩ := flush_called hfits
    cases flushed with
    | true =>
      refine ⟨s', ?_, by rw [hgot, due, howed, hdone rfl, List.append_nil]⟩
      simp only [send, hflush, ok_bind, if_true]
      rfl
    | false =>
      have hlt := hagain rfl
      simp only [List.length_nil] at hcalls
      obtain ⟨t, hsend, hgot'⟩ :=
        send_ok calls (s := s') (show FitsAll s' [] from hfits')
          (by simp only [List.length_nil]; omega)
      refine ⟨t, ?_, by rw [hgot', hgot, due, due, howed, List.append_assoc]⟩
      simp only [send, hflush, ok_bind, Bool.false_eq_true, if_false]
      exact hsend
  | calls + 1, s, block :: blocks, ⟨hfits, hne, hblocks⟩, hcalls => by
    obtain ⟨r, s', hwrite, hcalled⟩ := writeWith_called false hfits (by simp)
    obtain ⟨w, hgot, howed⟩ := hcalled.wrote.got
    have hflushes := congrArg List.length hcalled.wrote.flushes
    have htakes := hcalled.wrote.takes
    rw [List.length_cons] at hcalls
    by_cases hr : r = block.length
    · have hnil : block.drop r = [] := by rw [hr, List.drop_length]
      have hbetween := hcalled.place.between hnil hne
      have hfits' := hcalled.place.fits
      rw [hnil] at hfits' howed
      obtain ⟨t, hsend, hgot'⟩ :=
        send_ok calls (FitsAll.next hfits' hbetween blocks hblocks) (by omega)
      refine ⟨t, ?_, ?_⟩
      · simp only [send, write, hwrite, ok_bind, hr, if_true]
        exact hsend
      · rw [hgot', hgot, ← owed_next hbetween blocks (fun b hb => (hblocks b hb).1), due, howed]
        simp only [List.append_assoc]
    · have hrest : block.drop r ≠ [] := by
        have := hcalled.place.le
        rw [Ne, List.drop_eq_nil_iff]
        omega
      have hstops : s'.sink.takes.length < s.sink.takes.length := by
        refine hcalled.stops.resolve_right (fun hnil => ?_)
        rcases owed_nil hcalled.place.fits hnil with hend | ⟨hnil', -⟩
        · exact hrest (hcalled.place.fits.ended hend)
        · exact hrest hnil'
      obtain ⟨t, hsend, hgot'⟩ := send_ok calls (s := s')
        (show FitsAll s' (block.drop r :: blocks) from ⟨hcalled.place.fits, hrest, hblocks⟩)
          (by rw [List.length_cons]; omega)
      refine ⟨t, ?_, ?_⟩
      · simp only [send, write, hwrite, ok_bind, hr, if_false]
        exact hsend
      · rw [hgot', hgot, due, due, howed]
        simp only [List.append_assoc]

end ChunkedSink

namespace ChunkedSource

variable {s s' : ChunkedSource} {n rem : ℕ} {state : State} {rest bytes out : List UInt8}
  {e : Thrown}

/-! ### What a stream means -/

/-- The bytes that are to be read from a stream in a state, however the reads are cut. -/
def meaning (state : State) (rem : ℕ) : List UInt8 → Except Thrown (List UInt8)
  | [] => if state = .ended then .ok [] else .error (.failure "premature End")
  | c :: rest =>
    match state with
    | .ended => .ok []
    | .data => (meaning (if rem - 1 = 0 then .dataEnd else .data) (rem - 1) rest).map ([c] ++ ·)
    | state => do
      let (state, rem) ← take state rem c
      meaning state rem rest

/-- What is still to be read. -/
def whole (s : ChunkedSource) : Except Thrown (List UInt8) :=
  meaning s.state s.chunk_rem s.source.rest

theorem meaning_ended : ∀ rest, meaning .ended rem rest = .ok []
  | [] => rfl
  | _ :: _ => rfl

theorem meaning_take (hdata : state ≠ .data) (hended : state ≠ .ended) (c : UInt8) :
    meaning state rem (c :: rest) =
      (do let (state, rem) ← take state rem c; meaning state rem rest) := by
  cases state <;> first | rfl | contradiction

theorem meaning_data : ∀ (bytes : List UInt8) (rem : ℕ), bytes ≠ [] → bytes.length ≤ rem →
    meaning .data rem (bytes ++ rest) =
      (meaning (if rem - bytes.length = 0 then .dataEnd else .data) (rem - bytes.length) rest).map
        (bytes ++ ·)
  | [c], rem, _, _ => rfl
  | c :: d :: bytes, rem, _, hle => by
    simp only [List.length_cons] at hle
    have hrec :=
      meaning_data (d :: bytes) (rem - 1) (List.cons_ne_nil d bytes)
        (by simp only [List.length_cons]; omega)
    have hlen : rem - 1 - (d :: bytes).length = rem - (c :: d :: bytes).length := by
      simp only [List.length_cons]
      omega
    rw [hlen] at hrec
    rw [List.cons_append, meaning, if_neg (by omega), hrec, Denotation.map_append_map]
    rfl

/-- Inside a chunk there are bytes left of it. -/
def Sane (s : ChunkedSource) : Prop := s.state = .data → s.chunk_rem ≠ 0

/-- What a turn does to what is still to be read. -/
inductive Stepped (s : ChunkedSource) : Except Thrown Turn → Prop
  | fails {e : Thrown} (h : s.whole = .error e) : Stepped s (.error e)
  | ends {s' : ChunkedSource} (h : s.whole = .ok []) : Stepped s (.ok (.ret none s'))
  | gives {bytes : List UInt8} {s' : ChunkedSource} (h : s.whole = s'.whole.map (bytes ++ ·))
      (sane : s'.Sane) (grants : s'.source.grants = s.source.grants.tail)
      (script : bytes = [] → s.source.grants ≠ []) :
      Stepped s (.ok (.ret (some bytes) s'))
  | goes {s' : ChunkedSource} (h : s.whole = s'.whole) (sane : s'.Sane)
      (grants : s'.source.grants = s.source.grants.tail)
      (shorter : s'.source.rest.length < s.source.rest.length) :
      Stepped s (.ok (.next s'))

/-- A source that gives nothing to who asks for something follows its script. -/
theorem read_nil {t t' : Source} {k : ℕ} (hk : 0 < k) (h : t.read k = (some [], t')) :
    t.grants ≠ [] := by
  intro hnil
  exact Source.read_ne_nil h hk (by rw [hnil]; exact List.not_mem_nil) rfl

theorem data_or_ended (rem : ℕ) :
    (if rem ≠ 0 then State.data else State.ended) = .data → rem ≠ 0 := by
  split
  · next h => exact fun _ => h
  · exact fun h => by cases h

theorem take_sane {c : UInt8} {p : State × ℕ} (hdata : state ≠ .data)
    (h : take state rem c = .ok p) : p.1 = .data → p.2 ≠ 0 := by
  cases state with
  | data => contradiction
  | size =>
    simp only [take] at h
    split at h
    · cases h
      simp
    split at h
    · cases h
      simp
    split at h
    · cases h
    · cases h
      simp
  | sizeCr =>
    simp only [take] at h
    split at h <;> cases h
    exact data_or_ended rem
  | extensionsCr =>
    simp only [take] at h
    split at h <;> cases h
    · dsimp only
      split <;> simp
    · exact data_or_ended rem
  | extensions =>
    cases h
    dsimp only
    split <;> simp
  | dataEnd | dataCr =>
    simp only [take] at h
    split at h <;> cases h
    simp
  | ended =>
    cases h
    simp

theorem takeByte_stepped (hdata : s.state ≠ .data) (hended : s.state ≠ .ended) :
    Stepped s s.takeByte := by
  rw [takeByte]
  rcases hread : s.source.read 1 with ⟨_ | bytes, source⟩
  · refine .fails ?_
    rw [whole, (Source.read_none hread).1, meaning, if_neg hended]
  · obtain ⟨hrest, hlen, hgrants⟩ := Source.read_some hread
    rcases bytes with _ | ⟨c, bytes⟩
    · refine .gives ?_ (fun h => absurd h hdata) hgrants (fun _ => read_nil (by decide) hread)
      rw [whole, hrest]
      exact Denotation.map_nil_append _
    · obtain rfl : bytes = [] := by
        rw [List.length_cons] at hlen
        exact List.length_eq_zero_iff.mp (by omega)
      have hwhole : s.whole =
          (do let (state, rem) ← take s.state s.chunk_rem c; meaning state rem source.rest) := by
        rw [whole, hrest, ← meaning_take hdata hended]
        rfl
      simp only
      rcases htake : take s.state s.chunk_rem c with e | ⟨state, rem⟩
      · rw [htake] at hwhole
        exact .fails hwhole
      · rw [htake] at hwhole
        refine .goes hwhole (take_sane hdata htake) hgrants ?_
        rw [hrest, List.length_append, List.length_singleton]
        simp

theorem step_stepped (hs : s.Sane) (hn : 1 ≤ n) : Stepped s (s.step n) := by
  cases hstate : s.state with
  | ended =>
    rw [step, hstate]
    exact .ends (by rw [whole, hstate, meaning_ended])
  | data =>
    have hrem := hs hstate
    rw [step, hstate]
    simp only
    rcases hread : s.source.read (min n s.chunk_rem) with ⟨_ | bytes, source⟩
    · refine .fails ?_
      rw [whole, (Source.read_none hread).1, hstate]
      rfl
    · obtain ⟨hrest, hlen, hgrants⟩ := Source.read_some hread
      rcases bytes with _ | ⟨b, bytes⟩
      · refine .gives ?_ (fun _ => hrem) hgrants (fun _ => read_nil (by omega) hread)
        rw [whole, hrest, hstate]
        exact Denotation.map_nil_append _
      · refine .gives ?_ ?_ hgrants (fun h => by cases h)
        · rw [whole, hrest, hstate,
            meaning_data (b :: bytes) _ (List.cons_ne_nil b bytes) (by omega)]
          rfl
        · intro hdata hzero
          simp only at hdata hzero
          rw [if_pos hzero] at hdata
          cases hdata
  | _ =>
    rw [step, hstate]
    exact takeByte_stepped (by rw [hstate]; decide) (by rw [hstate]; decide)

/-- What a call returns is the beginning of what is to be read. -/
inductive Returned (s : ChunkedSource) : Except Thrown (Option (List UInt8) × ChunkedSource) → Prop
  | fails {e : Thrown} (h : s.whole = .error e) : Returned s (.error e)
  | ends {s' : ChunkedSource} (h : s.whole = .ok []) : Returned s (.ok (none, s'))
  | gives {bytes : List UInt8} {s' : ChunkedSource} (h : s.whole = s'.whole.map (bytes ++ ·))
      (sane : s'.Sane)
      (grants : s'.source.grants.length + (if bytes = [] then 1 else 0) ≤ s.source.grants.length) :
      Returned s (.ok (some bytes, s'))

theorem loop_returned (hn : 1 ≤ n) :
    ∀ (turns : ℕ) {s : ChunkedSource}, s.Sane → s.source.rest.length < turns →
    Returned s (loop n turns s)
  | turns + 1, s, hs, hturns => by
    have hstep := step_stepped hs hn
    rw [loop]
    generalize step s n = r at hstep
    cases hstep with
    | fails h => exact .fails h
    | ends h => exact .ends h
    | @gives bytes s' h sane grants script =>
      refine .gives h sane ?_
      rw [grants, List.length_tail]
      split
      · next hnil =>
        have := List.length_pos_of_ne_nil (script hnil)
        omega
      · omega
    | @goes s' h sane grants shorter =>
      have hrec := loop_returned hn turns sane (by omega)
      simp only [ok_bind]
      generalize loop n turns s' = q at hrec
      cases hrec with
      | fails h' => exact .fails (h.trans h')
      | ends h' => exact .ends (h.trans h')
      | gives h' sane' grants' =>
        refine .gives (h.trans h') sane' (grants'.trans ?_)
        rw [grants, List.length_tail]
        omega

/-- Reads of a stream that means `text` return it, whatever their sizes, and come to its end. -/
theorem reads_ok :
    ∀ (sizes : List ℕ) {s : ChunkedSource} {text : List UInt8}, s.Sane → s.whole = .ok text →
      (∀ n ∈ sizes, 1 ≤ n) →
    ∃ ended out, reads sizes s = .ok (ended, out) ∧ out <+: text ∧ (ended = true → out = text) ∧
      (s.source.grants.length + text.length < sizes.length → ended = true)
  | [], s, text, _, _, _ => ⟨false, [], rfl, List.nil_prefix, by simp, by simp⟩
  | n :: sizes, s, text, hs, hwhole, hsizes => by
    have hread :=
      loop_returned (hsizes n List.mem_cons_self) _ hs (Nat.lt_succ_self s.source.rest.length)
    rw [reads, read]
    generalize loop n (s.source.rest.length + 1) s = r at hread
    cases hread with
    | fails h =>
      rw [h] at hwhole
      cases hwhole
    | ends h =>
      exact ⟨true, [], rfl, List.nil_prefix,
        fun _ => Except.ok.inj (h.symm.trans hwhole), fun _ => rfl⟩
    | @gives bytes s' h sane grants =>
      rw [h] at hwhole
      obtain ⟨more, hmore, rfl⟩ := Denotation.map_append_ok hwhole.symm
      obtain ⟨ended, out, hreads, hpre, hdone, hall⟩ :=
        reads_ok sizes sane hmore (fun m hm => hsizes m (List.mem_cons_of_mem n hm))
      refine ⟨ended, bytes ++ out, ?_, (List.prefix_append_right_inj bytes).mpr hpre,
        fun he => by rw [hdone he], fun hlt => hall ?_⟩
      · simp only [ok_bind, hreads]
        rfl
      · rw [List.length_append, List.length_cons] at hlt
        split at grants
        · omega
        · next hne =>
          have := List.length_pos_of_ne_nil hne
          omega

/-- Reads that come to the end have read what the stream means. -/
theorem reads_ended :
    ∀ (sizes : List ℕ) {s : ChunkedSource} {out : List UInt8}, s.Sane → (∀ n ∈ sizes, 1 ≤ n) →
    reads sizes s = .ok (true, out) → s.whole = .ok out
  | n :: sizes, s, out, hs, hsizes, h => by
    have hread :=
      loop_returned (hsizes n List.mem_cons_self) _ hs (Nat.lt_succ_self s.source.rest.length)
    rw [reads, read] at h
    generalize loop n (s.source.rest.length + 1) s = r at hread h
    cases hread with
    | fails _ => cases h
    | ends hwhole =>
      cases h
      exact hwhole
    | @gives bytes s' hwhole sane grants =>
      simp only [ok_bind, bind_ok] at h
      obtain ⟨⟨ended, out'⟩, hreads, h⟩ := h
      cases h
      rw [hwhole, reads_ended sizes sane (fun m hm => hsizes m (List.mem_cons_of_mem n hm)) hreads]
      rfl

/-! ### The stream of the sink -/

theorem take_hex :
    ∀ d < 16, ChunkedSink.hex.getD d 0 ≠ Char.toUInt8 ';' ∧ ChunkedSink.hex.getD d 0 ≠ cr ∧
    ¬((ChunkedSink.hex.getD d 0).toNat < 48 ∨ (ChunkedSink.hex.getD d 0).toNat > 102 ∨
      unhex.getD ((ChunkedSink.hex.getD d 0).toNat - 48) (-1) < 0) ∧
    (unhex.getD ((ChunkedSink.hex.getD d 0).toNat - 48) (-1)).toNat = d := by decide

/-- A digit of a size that stays in range. -/
theorem take_digit {d a : ℕ} (hd : d < 16) (ha : a * 16 + d < 2 ^ 64) :
    take .size a (ChunkedSink.hex.getD d 0) = .ok (.size, a * 16 + d) := by
  obtain ⟨hsemi, hcr, hdigit, hval⟩ := take_hex d hd
  have hor : a <<< 4 ||| d = a * 16 + d := by
    rw [← Nat.shiftLeft_add_eq_or_of_lt (by omega : d < 2 ^ 4), Nat.shiftLeft_eq]
  simp only [take, if_neg hsemi, if_neg hcr, if_neg hdigit, hval, hor, Nat.mod_eq_of_lt ha]

theorem meaning_digits (rest : List UInt8) :
    ∀ (ds : List ℕ) {a : ℕ}, (∀ d ∈ ds, d < 16) → readDigits 16 a ds < 2 ^ 64 →
    meaning .size a (ds.map (ChunkedSink.hex.getD · 0) ++ rest) =
      meaning .size (readDigits 16 a ds) rest
  | [], a, _, _ => rfl
  | d :: ds, a, hds, hlt => by
    have hle : a * 16 + d ≤ readDigits 16 a (d :: ds) := le_readDigits (by decide) (a * 16 + d) ds
    rw [List.map_cons, List.cons_append, meaning, take_digit (hds d List.mem_cons_self) (by omega)]
    · exact meaning_digits rest ds (fun e he => hds e (List.mem_cons_of_mem d he)) hlt
    · simp
    · simp

theorem meaning_size_end (rem : ℕ) (rest : List UInt8) :
    meaning .size rem (cr :: lf :: rest) = meaning (if rem ≠ 0 then .data else .ended) rem rest :=
  rfl

theorem meaning_chunk_end (rest : List UInt8) :
    meaning .dataEnd 0 (cr :: lf :: rest) = meaning .size 0 rest := rfl

theorem meaning_last : meaning .size 0 ChunkedSink.last = .ok [] := rfl

/-- The size that is read before a block. -/
def sizeRead (x : ℕ) : ℕ := readDigits 16 0 (nonzeroDigits 16 x)

/-- The reader stands before the bytes of a block with the size it has read. -/
theorem meaning_chunk (rest : List UInt8) {block : List UInt8} (hne : block ≠ [])
    (hlen : block.length < 2 ^ 64) (hpos : sizeRead block.length ≠ 0)
    (hle : sizeRead block.length ≤ block.length) :
    meaning .size 0 (ChunkedSink.chunk block ++ rest) = meaning .data (sizeRead block.length)
      (block ++ cr :: lf :: rest) := by
  have hx : block.length ≠ 0 := fun h => hne (List.length_eq_zero_iff.mp h)
  have hdigits :=
    meaning_digits (cr :: lf :: (block ++ cr :: lf :: rest))
      (nonzeroDigits 16 block.length) (a := 0)
    (fun d hd => mem_nonzeroDigits_lt (by decide) hd) (hle.trans_lt hlen)
  rw [meaning_size_end, ← sizeRead, if_pos hpos] at hdigits
  rw [← hdigits, ChunkedSink.chunk, ChunkedSink.text, if_neg hx]
  simp

/-- No zero among the hexadecimal digits. -/
def Readable (n : ℕ) : Prop := 0 ∉ Nat.digits 16 n

theorem meaning_readable {block : List UInt8} (hne : block ≠ []) (hlen : block.length < 2 ^ 64)
    (h : Readable block.length) :
    meaning .size 0 (ChunkedSink.chunk block ++ rest) = (meaning .size 0 rest).map
      (block ++ ·) := by
  have hread : sizeRead block.length = block.length := readDigits_nonzeroDigits h
  have hx : block.length ≠ 0 := fun h => hne (List.length_eq_zero_iff.mp h)
  rw [meaning_chunk _ hne hlen (by rwa [hread]) hread.le, hread, meaning_data block _ hne le_rfl,
    Nat.sub_self, if_pos rfl, meaning_chunk_end]

/-- A block of zero bytes is read in part, and then a zero byte stands where
    the chunk should end. -/
theorem meaning_unreadable {n : ℕ} (hn : n < 2 ^ 64) (h : ¬Readable n) :
    meaning .size 0 (ChunkedSink.chunk (List.replicate n 0) ++ rest) =
      .error (.failure "invalid chunk") := by
  obtain ⟨hpos, hlt⟩ := readDigits_nonzeroDigits_lt (by decide) (not_not.mp h)
  have hne : List.replicate n (0 : UInt8) ≠ [] := by
    rw [Ne, List.replicate_eq_nil_iff]
    omega
  have hmeaning := meaning_chunk rest hne (by rwa [List.length_replicate])
    (by rw [List.length_replicate]; exact hpos.ne') (by rw [List.length_replicate]; exact hlt.le)
  rw [List.length_replicate] at hmeaning
  have hsplit : List.replicate n (0 : UInt8) = List.replicate (sizeRead n) 0 ++ 0 :: List.replicate
      (n - sizeRead n - 1) 0 := by
    rw [← List.replicate_succ, List.replicate_append_replicate]
    exact congrArg (List.replicate · 0) (by simp only [sizeRead]; omega)
  have hread : List.replicate (sizeRead n) (0 : UInt8) ≠ [] := by
    rw [Ne, List.replicate_eq_nil_iff]
    exact hpos.ne'
  rw [hmeaning, hsplit, List.append_assoc, meaning_data _ _ hread (by rw [List.length_replicate]),
    List.length_replicate, Nat.sub_self, if_pos rfl]
  rfl

/-- The blocks and the last chunk. -/
def stream (blocks : List (List UInt8)) : List UInt8 :=
  (blocks.map ChunkedSink.chunk).flatten ++ ChunkedSink.last

theorem stream_cons (block : List UInt8) (blocks : List (List UInt8)) :
    stream (block :: blocks) = ChunkedSink.chunk block ++ stream blocks := by
  rw [stream, stream, List.map_cons, List.flatten_cons, List.append_assoc]

theorem stream_readable :
    ∀ blocks : List (List UInt8), (∀ b ∈ blocks, b ≠ [] ∧ b.length < 2 ^ 64 ∧ Readable b.length) →
    meaning .size 0 (stream blocks) = .ok blocks.flatten
  | [], _ => meaning_last
  | block :: blocks, h => by
    obtain ⟨hne, hlen, hread⟩ := h block List.mem_cons_self
    rw [stream_cons, meaning_readable hne hlen hread,
      stream_readable blocks (fun b hb => h b (List.mem_cons_of_mem _ hb)), List.flatten_cons]
    rfl

theorem stream_unreadable :
    ∀ ns : List ℕ, (∀ n ∈ ns, 0 < n ∧ n < 2 ^ 64) → (∃ n ∈ ns, ¬Readable n) →
    ∃ e, meaning .size 0 (stream (ns.map (List.replicate · 0))) = .error e
  | n :: ns, hns, hbad => by
    obtain ⟨hpos, hlt⟩ := hns n List.mem_cons_self
    rw [List.map_cons, stream_cons]
    by_cases hread : Readable n
    · have hne : List.replicate n (0 : UInt8) ≠ [] := by
        rw [Ne, List.replicate_eq_nil_iff]
        omega
      have hrest : ∃ m ∈ ns, ¬Readable m := by
        obtain ⟨m, hm, hbad⟩ := hbad
        exact ⟨m, (List.mem_cons.mp hm).resolve_left (fun h => hbad (h ▸ hread)), hbad⟩
      obtain ⟨e, he⟩ := stream_unreadable ns (fun m hm => hns m (List.mem_cons_of_mem n hm)) hrest
      refine ⟨e, ?_⟩
      rw [meaning_readable hne (by rwa [List.length_replicate]) (by rwa [List.length_replicate]),
        he]
      rfl
    · exact ⟨_, meaning_unreadable hlt hread⟩

end ChunkedSource

/-- Sent through a sink that takes and flushes as it likes, and read back with any sizes from a
    source that gives as it likes, the blocks come back one after the other and then the end. -/
def RoundTrips (blocks : List (List UInt8)) : Prop :=
  ∀ (takes : List ℕ) (flushes : List Bool) (grants sizes : List ℕ), (∀ n ∈ sizes, 1 ≤ n) →
    ∃ s ended out, ChunkedSink.send (blocks.length + takes.length + flushes.length + 1)
        ⟨⟨[], takes, flushes⟩, 0, .idle⟩ blocks = .ok (some s) ∧
      ChunkedSource.reads sizes ⟨⟨s.sink.got, grants⟩, 0, .size⟩ = .ok (ended, out) ∧
        out <+: blocks.flatten ∧ (ended = true → out = blocks.flatten) ∧
        (grants.length + blocks.flatten.length < sizes.length → ended = true)

/-- The sink has received the stream of the blocks. -/
theorem sent_stream {blocks : List (List UInt8)} (h : ∀ b ∈ blocks, b ≠ [] ∧ b.length < 2 ^ 64)
    (takes : List ℕ) (flushes : List Bool) :
    ∃ s, ChunkedSink.send (blocks.length + takes.length + flushes.length + 1)
      ⟨⟨[], takes, flushes⟩, 0, .idle⟩ blocks = .ok (some s) ∧
      s.sink.got = ChunkedSource.stream blocks := by
  have hbetween : ChunkedSink.Between ⟨⟨[], takes, flushes⟩, 0, .idle⟩ := .inl rfl
  have hfits := ChunkedSink.FitsAll.next ⟨by simp, by simp, by simp, by simp⟩ hbetween blocks h
  obtain ⟨s, hsend, hgot⟩ := ChunkedSink.send_ok _ hfits (Nat.lt_succ_self _)
  refine ⟨s, hsend, ?_⟩
  rw [hgot, ← ChunkedSink.owed_next hbetween blocks (fun b hb => (h b hb).1)]
  rfl

/-- Blocks of given lengths come back, whatever their bytes, exactly if no length has a zero among
    its hexadecimal digits. -/
theorem chunked_round_trip {ns : List ℕ} (hns : ∀ n ∈ ns, 0 < n ∧ n < 2 ^ 64) :
    (∀ blocks : List (List UInt8), blocks.map List.length = ns → RoundTrips blocks) ↔
      ∀ n ∈ ns, 0 ∉ Nat.digits 16 n := by
  constructor
  · intro h
    by_contra hbad
    push Not at hbad
    have hlens : (ns.map (List.replicate · (0 : UInt8))).map List.length = ns := by
      rw [List.map_map]
      exact (List.map_congr_left (fun n _ => List.length_replicate)).trans ns.map_id
    have hblocks : ∀ b ∈ ns.map (List.replicate · (0 : UInt8)), b ≠ [] ∧ b.length < 2 ^ 64 := by
      intro b hb
      obtain ⟨n, hn, rfl⟩ := List.mem_map.mp hb
      refine ⟨?_, by rw [List.length_replicate]; exact (hns n hn).2⟩
      rw [Ne, List.replicate_eq_nil_iff]
      exact (hns n hn).1.ne'
    obtain ⟨e, he⟩ :=
      ChunkedSource.stream_unreadable ns hns (hbad.imp (fun n hn => ⟨hn.1, not_not.mpr hn.2⟩))
    -- The reads would come to the end of a stream that has none.
    have hsizes :
        ∀ m ∈ List.replicate ((ns.map (List.replicate · (0 : UInt8))).flatten.length + 1) 1,
          1 ≤ m :=
      fun m hm => (List.eq_of_mem_replicate hm).ge
    obtain ⟨s, ended, out, hsend, hreads, -, -, hall⟩ := h _ hlens [] [] [] _ hsizes
    obtain ⟨s', hsend', hgot⟩ := sent_stream hblocks [] []
    obtain rfl : s = s' := Option.some.inj (Except.ok.inj (hsend.symm.trans hsend'))
    rw [hall (by simp)] at hreads
    have hwhole := ChunkedSource.reads_ended _ (fun h => by cases h) hsizes hreads
    rw [ChunkedSource.whole, hgot] at hwhole
    cases he.symm.trans hwhole
  · rintro hread blocks rfl takes flushes grants sizes hsizes
    have hblocks : ∀ b ∈ blocks, b ≠ [] ∧ b.length < 2 ^ 64 := fun b hb =>
      ⟨List.ne_nil_of_length_pos (hns _ (List.mem_map_of_mem hb)).1,
        (hns _ (List.mem_map_of_mem hb)).2⟩
    obtain ⟨s, hsend, hgot⟩ := sent_stream hblocks takes flushes
    have hwhole : ChunkedSource.whole ⟨⟨s.sink.got, grants⟩, 0, .size⟩ = .ok blocks.flatten := by
      rw [ChunkedSource.whole, hgot]
      exact ChunkedSource.stream_readable blocks
        (fun b hb => ⟨(hblocks b hb).1, (hblocks b hb).2, hread _ (List.mem_map_of_mem hb)⟩)
    obtain ⟨ended, out, hreads, hpre, hdone, hall⟩ :=
      ChunkedSource.reads_ok sizes (fun h => by cases h) hwhole hsizes
    exact ⟨s, ended, out, hsend, hreads, hpre, hdone, hall⟩

/-- Blocks of five and of thirty-one bytes come back, `1f` having no zero. -/
theorem chunked_round_trip_two :
    (∀ n ∈ [5, 31], 0 < n ∧ n < 2 ^ 64) ∧
      ∀ blocks : List (List UInt8), blocks.map List.length = [5, 31] → RoundTrips blocks := by
  have hns : ∀ n ∈ [5, 31], 0 < n ∧ n < 2 ^ 64 := by simp
  refine ⟨hns, (chunked_round_trip hns).mpr (fun n hn => ?_)⟩
  rcases List.mem_pair.mp hn with rfl | rfl <;> norm_num

/-- A block of sixteen zero bytes goes out as a chunk of one byte, and the
    reader fails behind it. -/
theorem chunked_sixteen :
    (∃ s, ChunkedSink.send 2 ⟨⟨[], [], []⟩, 0, .idle⟩ [List.replicate 16 0] = .ok (some s) ∧
      s.sink.got = [0x31, cr, lf] ++ List.replicate 16 0 ++ [cr, lf, 0x30, cr, lf] ∧
      ChunkedSource.reads [16, 16] ⟨⟨s.sink.got, []⟩, 0, .size⟩ =
        .error (.failure "invalid chunk")) ∧
    ¬RoundTrips [List.replicate 16 0] := by
  obtain ⟨s, hsend, hgot, hreads⟩ : ∃ s, ChunkedSink.send 2 ⟨⟨[], [], []⟩, 0, .idle⟩
      [List.replicate 16 0] = .ok (some s) ∧
      s.sink.got = [0x31, cr, lf] ++ List.replicate 16 0 ++ [cr, lf, 0x30, cr, lf] ∧
      ChunkedSource.reads [16, 16] ⟨⟨s.sink.got, []⟩, 0, .size⟩ =
        .error (.failure "invalid chunk") := ⟨_, rfl, rfl, rfl⟩
  refine ⟨⟨s, hsend, hgot, hreads⟩, fun h => ?_⟩
  obtain ⟨s', ended, out, hsend', hreads', -⟩ := h [] [] [] [16, 16] (by decide)
  obtain rfl : s = s' := Option.some.inj (Except.ok.inj (hsend.symm.trans hsend'))
  cases hreads.symm.trans hreads'

end Matching.Common
