import Mathlib.Data.Nat.Bitwise
import Mathlib.Algebra.Order.Ring.Nat
import Matching.Lib.Laps
import Matching.Lib.Tickets

/-! What every `rapid_ring` queue is built of: the buffer size and the masking of
    `meta_math`, the barriers `ring_buffer_barrier_st` and `ring_buffer_barrier_mt`, and the
    slots a block of `ring_buffer_base` and of a `read_reserve` is copied through. Sequence
    numbers are `uint64_t`. -/

namespace Matching.Ring

/-! ### Arithmetic -/

/-- `a + b` in `uint64_t`. -/
def add64 (a b : ℕ) : ℕ := (a + b) % 2 ^ 64

/-- `a - b` in `uint64_t`. -/
def sub64 (a b : ℕ) : ℕ := (a + 2 ^ 64 - b) % 2 ^ 64

theorem add64_eq {a b : ℕ} (h : a + b < 2 ^ 64) : add64 a b = a + b := Nat.mod_eq_of_lt h

theorem sub64_eq {a b : ℕ} (ha : a < 2 ^ 64) (hb : b ≤ a) : sub64 a b = a - b := by
  rw [sub64, show a + 2 ^ 64 - b = (a - b) + 2 ^ 64 by omega, Nat.add_mod_right,
    Nat.mod_eq_of_lt (by omega)]

/-- `pow_2_size_helper`; a size above `2 ^ 63` does not compile, so 64 instantiations are enough. -/
def pow2SizeHelper (SIZE : ℕ) : ℕ → ℕ → ℕ
  | 0, N => N
  | fuel + 1, N => if 2 ^ N ≥ SIZE then N else pow2SizeHelper SIZE fuel (N + 1)

/-- `pow_2_size`. -/
def pow2Size (SIZE : ℕ) : ℕ := pow2SizeHelper SIZE 64 0

/-- `size_to_pow_2`, which is `buffer_size`. -/
def sizeToPow2 (SIZE : ℕ) : ℕ := 2 ^ pow2Size SIZE

/-- `mode_operator::mode`. -/
def mode (SIZE x : ℕ) : ℕ := x &&& (sizeToPow2 SIZE - 1)

theorem mode_eq (SIZE x : ℕ) : mode SIZE x = x % sizeToPow2 SIZE :=
  Nat.and_two_pow_sub_one_eq_mod x (pow2Size SIZE)

theorem sizeToPow2_pos (SIZE : ℕ) : 0 < sizeToPow2 SIZE := Nat.two_pow_pos _

theorem pow2SizeHelper_le {SIZE n : ℕ} (hn : SIZE ≤ 2 ^ n) :
    ∀ (fuel N : ℕ), N ≤ n → pow2SizeHelper SIZE fuel N ≤ n
  | 0, _, h => h
  | fuel + 1, N, h => by
    unfold pow2SizeHelper
    split
    · exact h
    · next hlt =>
      refine pow2SizeHelper_le hn fuel (N + 1) ?_
      rcases h.eq_or_lt with rfl | hN
      · exact absurd hn hlt
      · exact hN

/-- A size up to `2 ^ 63` has a buffer size that `uint64_t` represents. -/
theorem sizeToPow2_lt {SIZE : ℕ} (h : SIZE ≤ 2 ^ 63) : sizeToPow2 SIZE < 2 ^ 64 :=
  Nat.pow_lt_pow_right (by omega) (Nat.lt_succ_of_le (pow2SizeHelper_le h 64 0 (by omega)))

/-! ### `ring_buffer_barrier_st` -/

/-- `ring_buffer_barrier_st`: one thread reserves, `ready` is what it has finished, and whoever
    waits for it keeps `readyCache`. -/
structure BarrierSt where
  reserved : ℕ
  readyCache : ℕ
  ready : ℕ
  deriving DecidableEq, Repr

namespace BarrierSt

/-- `reset()`. -/
def reset (SIZE : ℕ) : BarrierSt := ⟨sizeToPow2 SIZE, sizeToPow2 SIZE, sizeToPow2 SIZE⟩

/-- `reserve(size)`. -/
def reserve (b : BarrierSt) (size : ℕ) : ℕ × BarrierSt :=
  (b.reserved, { b with reserved := add64 b.reserved size })

/-- `try_reserve()`. -/
def tryReserve (b : BarrierSt) : ℕ := b.reserved

/-- `set_reserve(base, end)`. -/
def setReserve (b : BarrierSt) (last : ℕ) : BarrierSt := { b with reserved := last }

/-- One round of the loop of `wait(min)`, and the read of `try_wait(min)`. -/
def refresh (b : BarrierSt) (min : ℕ) : BarrierSt :=
  if b.readyCache < min then { b with readyCache := b.ready } else b

/-- `try_wait(min)`. -/
def tryWait (b : BarrierSt) (min : ℕ) : ℕ × BarrierSt :=
  let b := b.refresh min
  (if b.readyCache < min then 0 else b.readyCache, b)

/-- Whether a round of `wait(min)`, or `try_wait(min)` of a try operation, lets the caller go on. -/
def passes (b : BarrierSt) (tries : Bool) (min : ℕ) : Bool :=
  if tries then (b.tryWait min).1 ≠ 0 else ¬ (b.refresh min).readyCache < min

/-- `set(pos, end)`. -/
def set (b : BarrierSt) (last : ℕ) : BarrierSt := { b with ready := last }

/-- Only the cached position changes. -/
theorem refresh_eq (b : BarrierSt) (min : ℕ) :
    b.refresh min = { b with readyCache := (b.refresh min).readyCache } := by
  unfold refresh
  split <;> rfl

/-- The cached position stays between a lower bound and the position it was read from. -/
theorem refresh_between {b : BarrierSt} {lo : ℕ} (h : lo ≤ b.readyCache ∧ b.readyCache ≤ b.ready)
    (min : ℕ) :
    lo ≤ (b.refresh min).readyCache ∧ (b.refresh min).readyCache ≤ b.ready := by
  unfold refresh
  split
  · exact ⟨h.1.trans h.2, le_refl _⟩
  · exact h

/-- A position that is still too small after the read is not there yet. -/
theorem refresh_short {b : BarrierSt} {min : ℕ} (h : (b.refresh min).readyCache < min) :
    b.ready < min := by
  by_cases hc : b.readyCache < min
  · rwa [refresh, if_pos hc] at h
  · rw [refresh, if_neg hc] at h
    exact absurd h hc

/-- A caller that goes on has seen the position it waits for. -/
theorem le_of_passes {b : BarrierSt} {tries : Bool} {min : ℕ} (h : b.passes tries min = true) :
    min ≤ (b.refresh min).readyCache := by
  cases tries with
  | false => simpa [passes] using h
  | true =>
    by_contra hlt
    simp [passes, tryWait, show (b.refresh min).readyCache < min by omega] at h

/-- A caller that does not go on has seen a position that is too small. -/
theorem short_of_not_passes {b : BarrierSt} {tries : Bool} {min : ℕ} (hpos : 0 < b.readyCache)
    (hle : b.readyCache ≤ b.ready) (h : b.passes tries min = false) : b.ready < min := by
  refine refresh_short ?_
  have hcache : 0 < (b.refresh min).readyCache := (refresh_between ⟨hpos, hle⟩ min).1
  cases tries with
  | false => simpa [passes] using h
  | true =>
    by_contra hge
    simp [passes, tryWait, hge, hcache.ne'] at h

end BarrierSt

/-! ### `ring_buffer_barrier_mt` -/

/-- `ring_buffer_barrier_mt`: many threads reserve and finish blocks. `ends` and `finished`
    record which blocks were reserved and which are finished; the code has neither. -/
structure BarrierMt where
  reserved : ℕ
  flags : ℕ → ℕ
  ready : ℕ
  readyCache : ℕ
  ends : ℕ → ℕ
  finished : ℕ → Bool

namespace BarrierMt

/-- `reset()`. -/
def reset (SIZE : ℕ) : BarrierMt :=
  ⟨sizeToPow2 SIZE, fun _ => 0, sizeToPow2 SIZE, sizeToPow2 SIZE, fun _ => 0, fun _ => false⟩

/-- `reserve(size)`, and `set_reserve(base, end)` where it succeeds. -/
def reserve (b : BarrierMt) (size : ℕ) : ℕ × BarrierMt :=
  (b.reserved, { b with
    reserved := add64 b.reserved size
    ends := Function.update b.ends b.reserved (add64 b.reserved size) })

/-- `try_reserve()`. -/
def tryReserve (b : BarrierMt) : ℕ := b.reserved

/-- `set(pos, end)` for the block at `base`. -/
def set (b : BarrierMt) (base pos last : ℕ) : BarrierMt :=
  { b with
    flags := Function.update b.flags pos last, finished := Function.update b.finished base true }

/-- The blocks of the barrier. -/
def tickets (b : BarrierMt) : Tickets := ⟨b.reserved, b.flags, b.ends, b.finished⟩

theorem reserve_tickets {b : BarrierMt} {size : ℕ} (h : b.reserved + size < 2 ^ 64) :
    (b.reserve size).2.tickets = b.tickets.take size := by
  simp only [reserve, tickets, Tickets.take, add64_eq h]

theorem set_tickets {b : BarrierMt} {SIZE base last : ℕ} (h : b.ends base = last) :
    (b.set base (mode SIZE base) last).tickets = b.tickets.finish (sizeToPow2 SIZE) base := by
  simp only [set, tickets, Tickets.finish, mode_eq, h]

end BarrierMt

/-! ### Blocks -/

/-- The slot of item `k` of a block of `size` items at `pos`: the two calls of `memcpy`, split at
    the end of the buffer. -/
def blockSlot (SIZE pos size k : ℕ) : ℕ :=
  let rest := sizeToPow2 SIZE - pos
  if rest ≥ size then pos + k else if k < rest then pos + k else k - rest

/-- The slot `read_reserve::operator[]` reads for index `k`, as
    `try_block_dequeue(size)` sets the reserve up. -/
def readerSlot (SIZE pos size k : ℕ) : ℕ :=
  let rest := sizeToPow2 SIZE - pos
  let sizeFirst := if rest ≥ size then size else rest
  if k < sizeFirst then pos + k else pos + (k - sizeFirst)

variable {SIZE base size k : ℕ}

/-- Item `k` of a block lies in the slot of its sequence number. -/
theorem blockSlot_eq (hk : k < size) (hsize : size ≤ sizeToPow2 SIZE) :
    blockSlot SIZE (mode SIZE base) size k = (base + k) % sizeToPow2 SIZE := by
  simp only [blockSlot, mode_eq, slot_add (show k < sizeToPow2 SIZE by omega)]
  split
  · rw [if_pos (by omega)]
  · rfl

/-- A reader that does not pass the end of the buffer reads the slots of its block. -/
theorem readerSlot_eq (hk : k < size) (hrest : base % sizeToPow2 SIZE + size ≤ sizeToPow2 SIZE) :
    readerSlot SIZE (mode SIZE base) size k = (base + k) % sizeToPow2 SIZE := by
  have hlt := Nat.mod_lt base (sizeToPow2_pos SIZE)
  simp only [readerSlot, mode_eq, slot_add (show k < sizeToPow2 SIZE by omega)]
  rw [if_pos (show sizeToPow2 SIZE - base % sizeToPow2 SIZE ≥ size by omega), if_pos hk,
    if_pos (by omega)]

/-! ### Taking items out -/

/-- How a dequeue operation takes the items: `smart_copy` moves the one item out of its
    slot, `memcpy` copies a block, and a `read_reserve` is indexed from its first item to
    its last and then released. -/
inductive Taking where | move | copy | reader
  deriving DecidableEq, Repr

namespace Taking

/-- The slot item `k` is taken from. -/
def slot (SIZE : ℕ) : Taking → ℕ → ℕ → ℕ → ℕ
  | .move, pos, _, _ => pos
  | .copy, pos, size, k => blockSlot SIZE pos size k
  | .reader, pos, size, k => readerSlot SIZE pos size k

/-- What taking an item leaves in its slot; `moved` is what the type's move
    assignment leaves behind. -/
def leaves {α : Type} (moved : α → α) : Taking → α → α
  | .move, v => moved v
  | .copy, v | .reader, v => v

/-- The operations there are: single items are moved out, and a reader is only tried for. -/
def Offered (tries : Bool) (size : ℕ) : Taking → Prop
  | .move => size = 1
  | .copy => True
  | .reader => tries = true

instance (tries : Bool) (size : ℕ) (how : Taking) : Decidable (how.Offered tries size) := by
  cases how <;> unfold Offered <;> infer_instance

/-- The block of `size` items from `base` is no longer than the buffer, its numbers are below
    `2 ^ 64`, and a reader of it does not pass the end of the buffer. -/
def Fits (SIZE size base : ℕ) (how : Taking) : Prop :=
  size ≤ sizeToPow2 SIZE ∧ base + size < 2 ^ 64 ∧
    (how = .reader → base % sizeToPow2 SIZE + size ≤ sizeToPow2 SIZE)

instance (SIZE size base : ℕ) (how : Taking) : Decidable (how.Fits SIZE size base) := by
  unfold Fits
  infer_instance

/-- Every way of taking an item reads the slot of its sequence number. -/
theorem slot_eq {how : Taking} {tries : Bool} (hoff : how.Offered tries size)
    (hfits : how.Fits SIZE size base) (hk : k < size) :
    how.slot SIZE (mode SIZE base) size k = (base + k) % sizeToPow2 SIZE := by
  obtain ⟨hsize, -, hreader⟩ := hfits
  cases how with
  | move =>
    obtain rfl : size = 1 := hoff
    obtain rfl : k = 0 := by omega
    exact mode_eq SIZE base
  | copy => exact blockSlot_eq hk hsize
  | reader => exact readerSlot_eq hk (hreader rfl)

end Taking

end Matching.Ring
