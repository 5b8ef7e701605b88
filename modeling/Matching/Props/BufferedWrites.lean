import Matching.Common.Io

/-! Buffered writing loses and repeats nothing. The sink has received what was accepted,
    less what lies between get and put pointer; every step of `write` and `flush` keeps
    that, whatever the sink takes. -/

namespace Matching.Common

namespace BufferedSinkBase

variable {s : BufferedSinkBase} {bytes acc : List UInt8} {size n r b : ℕ}

/-- The unflushed region. -/
def unflushed (s : BufferedSinkBase) : List UInt8 := (s.buf.drop s.gptr).take (s.pptr - s.gptr)

/-- The cells passed are unflushed ones; the caller's bytes are passed only when the
    buffer holds nothing. -/
def Inside (size : ℕ) : Passed → Prop
  | .cells gptr pptr lo hi => gptr ≤ lo ∧ hi ≤ pptr ∧ pptr ≤ size
  | .caller gptr pptr => gptr = pptr

/-- The pointers stand in order, and the sink and the unflushed region hold what was accepted. -/
structure Holds (s : BufferedSinkBase) (size : ℕ) (acc : List UInt8) : Prop where
  eptr_eq : s.eptr = size
  gptr_le : s.gptr ≤ s.pptr
  pptr_le : s.pptr ≤ s.eptr
  accepted : s.sink.got ++ s.unflushed = acc
  inside : ∀ p ∈ s.passed, Inside size p

theorem init_holds (sink : Sink) (buf : List UInt8) :
    (init sink buf).Holds buf.length sink.got where
  eptr_eq := rfl
  gptr_le := le_rfl
  pptr_le := le_rfl
  accepted := by simp [init, unflushed]
  inside := by simp [init]

/-! ### The parts of `write` and `flush` -/

theorem put_eptr (hs : s.pptr + n ≤ s.eptr) (hn : n ≤ bytes.length) :
    (s.put bytes n).eptr = s.eptr :=
  length_memcpy hs (by omega)

theorem Holds.put (h : s.Holds size acc) (hn : n ≤ bytes.length) (hroom : s.pptr + n ≤ s.eptr) :
    (s.put bytes n).Holds size (acc ++ bytes.take n) := by
  have heptr := put_eptr hroom hn
  have hle := h.gptr_le
  refine ⟨heptr.trans h.eptr_eq, ?_, ?_, ?_, h.inside⟩
  · change s.gptr ≤ s.pptr + n
    omega
  · rwa [heptr]
  · have htake := take_memcpy hroom (show 0 + n ≤ bytes.length by omega)
    rw [← h.accepted, List.append_assoc]
    change s.sink.got ++ ((memcpy s.buf s.pptr bytes 0 n).drop s.gptr).take
      (s.pptr + n - s.gptr) = _
    rw [← List.drop_take, htake,
      List.drop_append_of_le_length
      (by rw [List.length_take]; exact le_min hle (hle.trans h.pptr_le)), List.drop_take,
      List.drop_zero]
    rfl

/-- What the sink takes of the unflushed region leaves it. -/
theorem Holds.pass (h : s.Holds size acc) (hb : s.gptr + b = s.pptr) :
    (s.pass b).Holds size acc ∧ (s.pass b).pptr = s.pptr := by
  obtain ⟨k, hk, hpass⟩ : ∃ k ≤ b, s.pass b = { s with
      sink := { s.sink with
        got := s.sink.got ++ ((s.buf.drop s.gptr).take b).take k, takes := s.sink.takes.tail }
      gptr := s.gptr + k
      passed := s.passed ++ [.cells s.gptr s.pptr s.gptr (s.gptr + b)] } :=
    ⟨_, (s.sink.write_fst_le _).trans (List.length_take_le _ _), rfl⟩
  have hpptr := h.pptr_le
  rw [hpass]
  refine ⟨⟨h.eptr_eq, by simp only; omega, h.pptr_le, ?_, ?_⟩, rfl⟩
  · obtain rfl : b = s.pptr - s.gptr := by omega
    rw [← h.accepted, unflushed, unflushed]
    simp only [List.append_assoc]
    rw [← Nat.sub_sub, ← List.drop_drop]
    generalize s.buf.drop s.gptr = xs
    rw [← List.drop_take, List.take_append_drop]
  · intro p hp
    rcases List.mem_append.mp hp with hp | hp
    · exact h.inside p hp
    · obtain rfl := List.mem_singleton.mp hp
      exact ⟨le_rfl, hb.le, hpptr.trans h.eptr_eq.le⟩

theorem Holds.nothing (h : s.Holds size acc) (hempty : s.gptr = s.pptr) :
    s.unflushed = [] ∧ s.sink.got = acc := by
  have hnone : s.unflushed = [] := by rw [unflushed, hempty, Nat.sub_self, List.take_zero]
  have hacc := h.accepted
  rw [hnone, List.append_nil] at hacc
  exact ⟨hnone, hacc⟩

/-- The caller's own bytes follow what the sink has, when the buffer is empty. -/
theorem Holds.bypass (h : s.Holds size acc) (hempty : s.gptr = s.pptr) :
    (s.bypass bytes).2.Holds size (acc ++ bytes.take (s.bypass bytes).1) := by
  obtain ⟨hnone, hgot⟩ := h.nothing hempty
  refine ⟨h.eptr_eq, h.gptr_le, h.pptr_le, ?_, ?_⟩
  · change s.sink.got ++ _ ++ s.unflushed = _
    rw [hnone, List.append_nil, hgot]
    rfl
  · intro p hp
    rcases List.mem_append.mp hp with hp | hp
    · exact h.inside p hp
    · obtain rfl := List.mem_singleton.mp hp
      exact hempty

theorem Holds.refill (h : s.Holds size acc) (hempty : s.gptr = s.pptr) :
    (s.refill bytes).2.Holds size (acc ++ bytes.take (s.refill bytes).1) := by
  rw [BufferedSinkBase.refill]
  split
  · exact h.bypass hempty
  · next hsmall =>
    have hfit : bytes.length < s.buf.length := not_le.mp hsmall
    have hlen : (memcpy s.buf 0 bytes 0 bytes.length).length = s.buf.length :=
      length_memcpy (by omega) (by omega)
    obtain ⟨-, hgot⟩ := h.nothing hempty
    refine ⟨hlen.trans h.eptr_eq, Nat.zero_le _, ?_, ?_, h.inside⟩
    · rw [eptr, hlen]
      exact hfit.le
    · have htake := take_memcpy_front (j := 0) hfit.le (Nat.zero_add bytes.length)
      simp only [unflushed, List.drop_zero, Nat.sub_zero, List.take_length] at htake ⊢
      rw [htake, hgot]

/-- Behind the copy the buffer is full to its end. -/
theorem Holds.drain (h : s.Holds size (acc ++ bytes.take r)) (hfull : s.pptr = s.eptr) :
    (s.drain r (bytes.drop r)).2.Holds size (acc ++ bytes.take (s.drain r (bytes.drop r)).1) := by
  have hmore : ∀ k, acc ++ bytes.take r ++ (bytes.drop r).take k = acc ++ bytes.take (k + r) := by
    intro k
    rw [List.append_assoc, Nat.add_comm, List.take_add]
  have hle := h.gptr_le
  simp only [BufferedSinkBase.drain]
  split
  · obtain ⟨hpass, hp⟩ := h.pass (b := s.eptr - s.gptr) (by omega)
    split
    · exact hpass
    · rw [← hmore]
      have hptr := hpass.gptr_le
      have heptr := hpass.eptr_eq.trans h.eptr_eq.symm
      exact hpass.refill (by omega)
  · rw [← hmore]
    exact h.refill (by omega)

/-- What a call of `write` accepts follows what was accepted before. -/
theorem Holds.write (h : s.Holds size acc) (bytes : List UInt8) :
    (s.write bytes).2.Holds size (acc ++ bytes.take (s.write bytes).1) := by
  have hle := h.pptr_le
  simp only [BufferedSinkBase.write]
  split
  · rw [List.take_zero, List.append_nil]
    exact h
  split
  · split
    · exact h.put le_rfl (by omega)
    · next hfill =>
      refine (h.put (by omega) (by omega)).drain ?_
      rw [put_eptr (by omega) (by omega)]
      change s.pptr + _ = _
      omega
  · next hfull =>
    have hr : s.eptr - s.pptr = 0 := by omega
    rw [hr]
    have hnone : s.Holds size (acc ++ bytes.take 0) := by rwa [List.take_zero, List.append_nil]
    exact hnone.drain (by omega)

/-- A flush that succeeds leaves nothing unflushed. -/
theorem Holds.flush (h : s.Holds size acc) :
    s.flush.2.Holds size acc ∧ (s.flush.1 = true → s.flush.2.sink.got = acc) := by
  have hle := h.gptr_le
  obtain ⟨t, ht, hflush⟩ : ∃ t : BufferedSinkBase, t.Holds size acc ∧ s.flush =
      if t.gptr = t.pptr then (t.sink.flush.1, { t with sink := t.sink.flush.2 })
      else (false, t) := by
    refine ⟨if s.pptr - s.gptr = 0 then s else s.pass (s.pptr - s.gptr), ?_, rfl⟩
    split
    · exact h
    · exact (h.pass (by omega)).1
  rw [hflush]
  split
  · next hdone =>
    exact ⟨⟨ht.eptr_eq, ht.gptr_le, ht.pptr_le, ht.accepted, ht.inside⟩,
      fun _ => (ht.nothing hdone).2⟩
  · exact ⟨ht, by simp⟩

/-! ### Runs -/

/-- A call on the buffer. -/
inductive Call where
  | write (bytes : List UInt8)
  | flush

/-- The buffer after a list of calls, and the bytes they accepted. -/
def run : BufferedSinkBase → List Call → List UInt8 × BufferedSinkBase
  | s, [] => ([], s)
  | s, .write bytes :: calls =>
    let (n, s) := s.write bytes
    let (acc, s) := run s calls
    (bytes.take n ++ acc, s)
  | s, .flush :: calls => run s.flush.2 calls

theorem Holds.run :
    ∀ {s : BufferedSinkBase} {acc : List UInt8} (calls : List Call), s.Holds size acc →
    (s.run calls).2.Holds size (acc ++ (s.run calls).1)
  | _, acc, [], h => by
    rw [BufferedSinkBase.run, List.append_nil]
    exact h
  | s, acc, .write bytes :: calls, h => by
    have hrec := Holds.run calls (h.write bytes)
    rw [List.append_assoc] at hrec
    exact hrec
  | s, acc, .flush :: calls, h => Holds.run calls h.flush.1

end BufferedSinkBase

/-- After any calls on a buffer of any size over any sink, a flush that succeeds leaves the sink
    with exactly the accepted bytes, and no call of the sink went outside the unflushed region. -/
theorem buffered_writes (buf : List UInt8) (takes : List ℕ) (flushes : List Bool)
    (calls : List BufferedSinkBase.Call) :
    (((BufferedSinkBase.init ⟨[], takes, flushes⟩ buf).run calls).2.flush.1 = true →
      ((BufferedSinkBase.init ⟨[], takes, flushes⟩ buf).run calls).2.flush.2.sink.got =
        ((BufferedSinkBase.init ⟨[], takes, flushes⟩ buf).run calls).1) ∧
      ∀ p ∈ ((BufferedSinkBase.init ⟨[], takes, flushes⟩ buf).run calls).2.flush.2.passed,
        BufferedSinkBase.Inside buf.length p := by
  have hrun := ((BufferedSinkBase.init_holds ⟨[], takes, flushes⟩ buf).run calls).flush
  exact ⟨hrun.2, hrun.1.inside⟩

/-- Four cells, and a sink that takes one byte, then none, then two: nine bytes go in, the
    last five past the buffer. -/
theorem buffered_writes_nine :
    ((BufferedSinkBase.init ⟨[], [1, 0, 2], []⟩ [0, 0, 0, 0]).run
        [.write [1, 2, 3], .write [4, 5, 6, 7, 8, 9], .write [5, 6, 7, 8, 9],
          .write [5, 6, 7, 8, 9], .write [5, 6, 7, 8, 9]]).2.flush.2.sink.got =
      [1, 2, 3, 4, 5, 6, 7, 8, 9] :=
  ((buffered_writes _ _ _ _).1 (by decide +kernel)).trans (by decide +kernel)

end Matching.Common
