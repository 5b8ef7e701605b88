import Matching.Lib.Memory
import Matching.Ring.Barrier

/-! The two forms of `ring_buffer_queue::try_block_dequeue`: one copies a block out with `memcpy`
    and releases it, the other hands out a `read_reserve` that points into the buffer and releases
    the block with it. The barriers are whatever the queue was built with. -/

namespace Matching.Ring

variable {α ρ ω : Type}

/-- What a queue uses of a barrier to take a block out. `set_reserve` may fail, and with `weak` may
    do so without a reason. -/
structure BarrierOps (ρ : Type) where
  tryReserve : ρ → ℕ
  tryWait : ρ → ℕ → ℕ × ρ
  setReserve : ρ → ℕ → ℕ → Bool → Bool × ρ
  set : ρ → ℕ → ℕ → ρ

/-- `ring_buffer_barrier_st`. -/
def BarrierSt.ops : BarrierOps BarrierSt where
  tryReserve := BarrierSt.tryReserve
  tryWait := BarrierSt.tryWait
  setReserve := fun b _ last _ => (true, b.setReserve last)
  set := fun b _ last => b.set last

/-- `ring_buffer_queue`: `buffer_`, and its two barriers. -/
structure Queue (SIZE : ℕ) (α ρ ω : Type) where
  buffer : List α
  readBarrier : ρ
  writeBarrier : ω
  full : buffer.length = sizeToPow2 SIZE

/-- `read_reserve`: pointers into `buffer_`, and what `cb_` sets. -/
structure ReadReserve where
  buff : Option ℕ
  buff2 : Option ℕ
  sizeFirst : ℕ
  size : ℕ
  cb : Option (ℕ × ℕ)

/-- The constructor. -/
def ReadReserve.empty : ReadReserve := ⟨none, none, 0, 0, none⟩

/-- The reserve for a block at `pos` that ends at `last`. -/
def ReadReserve.block (SIZE pos size last : ℕ) : ReadReserve :=
  let rest := sizeToPow2 SIZE - pos
  if rest ≥ size then
    { buff := some pos, buff2 := none, sizeFirst := size, size := size, cb := some (pos, last) }
  else
    { buff := some pos, buff2 := some 0, sizeFirst := rest, size := size, cb := some (pos, last) }

/-- `operator[]`; nothing is there where it points outside the buffer. -/
def ReadReserve.get (r : ReadReserve) (buffer : List α) (idx : ℕ) : Option α :=
  r.buff.bind fun buff => if idx < r.sizeFirst then buffer[buff + idx]?
    else buffer[buff + (idx - r.sizeFirst)]?

namespace Queue

variable {SIZE : ℕ} (R : BarrierOps ρ) (W : BarrierOps ω)

/-- The two calls of `memcpy`. -/
def copyOut (q : Queue SIZE α ρ ω) (ptr : List α) (pos size : ℕ) : List α :=
  let rest := sizeToPow2 SIZE - pos
  if rest ≥ size then memcpy ptr 0 q.buffer pos size
  else memcpy (memcpy ptr 0 q.buffer pos rest) rest q.buffer 0 (size - rest)

/-- `bool try_block_dequeue(ptr, size)`: the array, where it returns true. -/
def tryBlockDequeue {size : ℕ} (q : Queue SIZE α ρ ω) (ptr : Vector α size) (weak : Bool) :
    Option (List α) × Queue SIZE α ρ ω :=
  let base := R.tryReserve q.readBarrier
  let last := add64 base size
  let (got, w) := W.tryWait q.writeBarrier last
  if got = 0 then (none, { q with writeBarrier := w })
  else
    let (ok, r) := R.setReserve q.readBarrier base last weak
    if ok = false then (none, { q with writeBarrier := w, readBarrier := r })
    else
      let pos := mode SIZE base
      (some (q.copyOut ptr.toList pos size),
        { q with writeBarrier := w, readBarrier := R.set r pos last })

/-- `reader try_block_dequeue(size)`. -/
def tryBlockRead (q : Queue SIZE α ρ ω) (size : ℕ) (weak : Bool) : ReadReserve × Queue SIZE α ρ ω :=
  let base := R.tryReserve q.readBarrier
  let last := add64 base size
  let (got, w) := W.tryWait q.writeBarrier last
  if got = 0 then (.empty, { q with writeBarrier := w })
  else
    let (ok, r) := R.setReserve q.readBarrier base last weak
    if ok = false then (.empty, { q with writeBarrier := w, readBarrier := r })
    else
      (.block SIZE (mode SIZE base) size last, { q with writeBarrier := w, readBarrier := r })

/-- `release()`. -/
def release (q : Queue SIZE α ρ ω) (r : ReadReserve) : Queue SIZE α ρ ω :=
  match r.cb with
  | some (pos, last) => { q with readBarrier := R.set q.readBarrier pos last }
  | none => q

/-- The block is handed out. -/
def Granted (q : Queue SIZE α ρ ω) (size : ℕ) (weak : Bool) : Prop :=
  let base := R.tryReserve q.readBarrier
  let last := add64 base size
  (W.tryWait q.writeBarrier last).1 ≠ 0 ∧ (R.setReserve q.readBarrier base last weak).1 = true

/-- The reader's elements are those of the array, all of them in the buffer, and with the reader
    released the queue is the same. -/
def Agree {size : ℕ} (q : Queue SIZE α ρ ω) (ptr : Vector α size) (weak : Bool) : Prop :=
  let (array, copied) := q.tryBlockDequeue R W ptr weak
  let (reader, reserved) := q.tryBlockRead R W size weak
  (∀ items, array = some items → ∀ i < size, ∃ v, reader.get reserved.buffer i = some v ∧
    items[i]? = some v) ∧ reserved.release R reader = copied

/-- A block that passes the end of the buffer has at its beginning what it has behind the end. -/
def Repeated (q : Queue SIZE α ρ ω) (size : ℕ) : Prop :=
  let pos := mode SIZE (R.tryReserve q.readBarrier)
  ∀ j, sizeToPow2 SIZE - pos + j < size → ∃ v, q.buffer[pos + j]? = some v ∧ q.buffer[j]? = some v

variable {R W} {q : Queue SIZE α ρ ω}

/-- The reader reads the slots it computes. -/
theorem get_block (buffer : List α) (pos last : ℕ) {size i : ℕ} :
    (ReadReserve.block SIZE pos size last).get buffer i = buffer[readerSlot SIZE pos size i]? := by
  by_cases hrest : sizeToPow2 SIZE - pos ≥ size
  · simp only [ReadReserve.block, if_pos hrest, ReadReserve.get, readerSlot, Option.bind_some]
    split <;> rfl
  · simp only [ReadReserve.block, if_neg hrest, ReadReserve.get, readerSlot, Option.bind_some]
    split <;> rfl

/-- Releasing the reserve of a block. -/
theorem release_block (q : Queue SIZE α ρ ω) (pos size last : ℕ) :
    q.release R (.block SIZE pos size last) =
      { q with readBarrier := R.set q.readBarrier pos last } := by
  have hcb : (ReadReserve.block SIZE pos size last).cb = some (pos, last) := by
    simp only [ReadReserve.block]
    split <;> rfl
  rw [release, hcb]

/-- The array holds the slots of the block. -/
theorem getElem?_copyOut {ptr : List α} {pos size i : ℕ} (hptr : ptr.length = size)
    (hpos : pos < sizeToPow2 SIZE) (hi : i < size) :
    (q.copyOut ptr pos size)[i]? = q.buffer[blockSlot SIZE pos size i]? := by
  have hfull := q.full
  simp only [copyOut, blockSlot]
  split
  · rw [memcpy_all hptr, List.getElem?_take_of_lt hi, List.getElem?_drop]
  · next hwrap =>
    have hlen : (memcpy ptr 0 q.buffer pos (sizeToPow2 SIZE - pos)).length = ptr.length :=
      length_memcpy (by omega) (by omega)
    have hfirst :
        ((memcpy ptr 0 q.buffer pos (sizeToPow2 SIZE - pos)).take (sizeToPow2 SIZE - pos)) =
          q.buffer.drop pos :=
      take_memcpy_front (by omega) (by omega)
    rw [memcpy_fill (by omega), hfirst, List.drop_zero]
    have hsplit : (q.buffer.drop pos).length = sizeToPow2 SIZE - pos := by
      rw [List.length_drop, hfull]
    split
    · next hlt => rw [List.getElem?_append_left (by omega), List.getElem?_drop]
    · next hge =>
      rw [List.getElem?_append_right (by omega), hsplit, List.getElem?_take_of_lt (by omega)]

/-- A block that is handed out in both forms: the array holds the slots of the block, the reader
    those it computes, and the queue ends up the same. -/
theorem agree_granted {size : ℕ} {ptr : Vector α size} {weak : Bool}
    (hgranted : q.Granted R W size weak) :
    q.Agree R W ptr weak ↔
      let pos := mode SIZE (R.tryReserve q.readBarrier)
      ∀ i < size, ∃ v, q.buffer[readerSlot SIZE pos size i]? = some v ∧
        q.buffer[blockSlot SIZE pos size i]? = some v := by
  obtain ⟨hgot, hok⟩ := hgranted
  have hpos : mode SIZE (R.tryReserve q.readBarrier) < sizeToPow2 SIZE := by
    rw [mode_eq]
    exact Nat.mod_lt _ (sizeToPow2_pos SIZE)
  have hptr : ptr.toList.length = size := Vector.length_toList
  simp only [Agree, tryBlockDequeue, tryBlockRead, if_neg hgot, hok, Bool.true_eq_false, if_false,
    Option.some.injEq, forall_eq']
  rw [release_block, and_iff_left rfl]
  refine forall₂_congr fun i hi => ?_
  rw [get_block, getElem?_copyOut hptr hpos hi]

/-- Nothing is handed out in either form. -/
theorem agree_refused {size : ℕ} {ptr : Vector α size} {weak : Bool}
    (hrefused : ¬q.Granted R W size weak) : q.Agree R W ptr weak := by
  simp only [Agree, tryBlockDequeue, tryBlockRead]
  by_cases hgot : (W.tryWait q.writeBarrier (add64 (R.tryReserve q.readBarrier) size)).1 = 0
  · simp only [hgot, if_true, reduceCtorEq, false_implies, implies_true, true_and]
    rfl
  · have hok :
      (R.setReserve q.readBarrier (R.tryReserve q.readBarrier)
        (add64 (R.tryReserve q.readBarrier) size) weak).1 = false :=
      Bool.eq_false_of_not_eq_true fun h => hrefused ⟨hgot, h⟩
    simp only [hgot, hok, if_false, if_true, reduceCtorEq, false_implies, implies_true, true_and]
    rfl

/-- The slots of the two forms hold the same where the block does not pass the end of the buffer, or
    repeats itself behind it. -/
theorem slots_iff {size : ℕ} :
    (let pos := mode SIZE (R.tryReserve q.readBarrier)
      ∀ i < size, ∃ v, q.buffer[readerSlot SIZE pos size i]? = some v ∧
        q.buffer[blockSlot SIZE pos size i]? = some v) ↔
      q.Repeated R size := by
  have hfull := q.full
  have hpos : mode SIZE (R.tryReserve q.readBarrier) < sizeToPow2 SIZE := by
    rw [mode_eq]
    exact Nat.mod_lt _ (sizeToPow2_pos SIZE)
  simp only [Repeated]
  constructor
  · intro h j hj
    have hwrap : ¬sizeToPow2 SIZE - mode SIZE (R.tryReserve q.readBarrier) ≥ size := by omega
    have hslot := h (sizeToPow2 SIZE - mode SIZE (R.tryReserve q.readBarrier) + j) hj
    simpa [readerSlot, blockSlot, hwrap] using hslot
  · intro h i hi
    by_cases hrest : sizeToPow2 SIZE - mode SIZE (R.tryReserve q.readBarrier) ≥ size
    · have hin : mode SIZE (R.tryReserve q.readBarrier) + i < q.buffer.length := by omega
      simp only [readerSlot, blockSlot, if_pos hrest, if_pos hi]
      exact ⟨_, List.getElem?_eq_getElem hin, List.getElem?_eq_getElem hin⟩
    · by_cases hlt : i < sizeToPow2 SIZE - mode SIZE (R.tryReserve q.readBarrier)
      · have hin : mode SIZE (R.tryReserve q.readBarrier) + i < q.buffer.length := by omega
        simp only [readerSlot, blockSlot, if_neg hrest, if_pos hlt]
        exact ⟨_, List.getElem?_eq_getElem hin, List.getElem?_eq_getElem hin⟩
      · simp only [readerSlot, blockSlot, if_neg hrest, if_neg hlt]
        exact h (i - (sizeToPow2 SIZE - mode SIZE (R.tryReserve q.readBarrier))) (by omega)

end Queue

variable {SIZE size : ℕ} (R : BarrierOps ρ) (W : BarrierOps ω)

/-- The two forms agree if and only if no block is handed out, or the block does not pass the end of
    the buffer, or it has at its beginning what it has behind the end. -/
theorem reader_agrees_iff (q : Queue SIZE α ρ ω) (ptr : Vector α size) (weak : Bool) :
    q.Agree R W ptr weak ↔ (q.Granted R W size weak → q.Repeated R size) := by
  by_cases hgranted : q.Granted R W size weak
  · rw [Queue.agree_granted hgranted, Queue.slots_iff]
    exact ⟨fun h _ => h, fun h => h hgranted⟩
  · exact iff_of_true (Queue.agree_refused hgranted) fun h => absurd h hgranted

/-- Four slots; the items 6, 7 and 8 are published, and 6 is the next to be taken out. -/
def straddling : Queue 4 ℕ BarrierSt BarrierSt where
  buffer := [80, 50, 60, 70]
  readBarrier := ⟨6, 6, 6⟩
  writeBarrier := ⟨9, 6, 9⟩
  full := by decide

/-- The reader gives item 6 again where the array has item 8. -/
theorem straddling_not_agree :
    ¬straddling.Agree BarrierSt.ops BarrierSt.ops (Vector.replicate 3 0) false := by
  have harray :
      (straddling.tryBlockDequeue BarrierSt.ops BarrierSt.ops (Vector.replicate 3 0) false).1 =
        some [60, 70, 80] := by
    decide +kernel
  have hread : (straddling.tryBlockRead BarrierSt.ops BarrierSt.ops 3 false).1.get
      (straddling.tryBlockRead BarrierSt.ops BarrierSt.ops 3 false).2.buffer 2 = some 60 := by
        decide +kernel
  intro h
  obtain ⟨v, hget, hv⟩ := h.1 _ harray 2 (by decide)
  have hsame : some v = some 60 := hget.symm.trans hread
  rw [Option.some.inj hsame] at hv
  revert hv
  decide

end Matching.Ring
