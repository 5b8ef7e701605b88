import Matching.Lib.Memory
import Matching.Net.OrderHandler

/-! `order_handler` as it stores bytes: `buff_` has `sizeof(order)` bytes, of which `rest_` are the
    beginning of an order, and `handle` moves `ptr` and `size` over what arrived. Seen through what
    `buff_` holds up to `rest_` it is the cutting of one sequence. -/

namespace Matching

open MatchingTcpService (sizeofOrder handleWhole handle_eq handleWhole_eq)

/-- `order_handler`, without the callback. -/
structure OrderHandler where
  buff : List UInt8
  rest : ℕ
  deriving DecidableEq, Repr

namespace OrderHandler

/-- The constructor. -/
def start : OrderHandler := ⟨List.replicate sizeofOrder 0, 0⟩

/-- The loop of `handle`: the orders handed on, and `ptr` and `size` after it. -/
def whole (src : List UInt8) : ℕ → ℕ → ℕ → List (List UInt8) × ℕ × ℕ
  | 0, ptr, size => ([], ptr, size)
  | k + 1, ptr, size =>
    if size ≥ sizeofOrder then
      let (orders, ptr', size') := whole src k (ptr + sizeofOrder) (size - sizeofOrder)
      ((src.drop ptr).take sizeofOrder :: orders, ptr', size')
    else ([], ptr, size)

/-- `handle` from the loop on. -/
def finish (h : OrderHandler) (src : List UInt8) (ptr size : ℕ) :
    List (List UInt8) × OrderHandler :=
  let (orders, ptr, size) := whole src size ptr size
  (orders, if size ≠ 0 then { buff := memcpy h.buff 0 src ptr size, rest := size } else h)

/-- `handle(ptr, size)`: the calls of the callback, and the handler afterwards. -/
def handle (h : OrderHandler) (src : List UInt8) : List (List UInt8) × OrderHandler :=
  let size := src.length
  if h.rest ≠ 0 then
    let need := sizeofOrder - h.rest
    let cpSize := if need < size then need else size
    let h : OrderHandler := { buff := memcpy h.buff h.rest src 0 cpSize, rest := h.rest + cpSize }
    if h.rest ≠ sizeofOrder then ([], h)
    else
      let (orders, h') := finish { h with rest := 0 } src cpSize (size - cpSize)
      (h.buff :: orders, h')
  else finish h src 0 size

/-- One call of `handle` for every chunk. -/
def receive (h : OrderHandler) : List (List UInt8) → List (List UInt8) × OrderHandler
  | [] => ([], h)
  | chunk :: chunks =>
    let (orders, h) := h.handle chunk
    let (more, h) := h.receive chunks
    (orders ++ more, h)

/-- The bytes kept for later. -/
def kept (h : OrderHandler) : List UInt8 := h.buff.take h.rest

/-- Less than an order is kept, in a buffer that holds one. -/
structure Ok (h : OrderHandler) : Prop where
  buff : h.buff.length = sizeofOrder
  rest : h.rest < sizeofOrder

theorem ok_start : Ok start := ⟨List.length_replicate, by decide⟩

theorem Ok.length_kept {h : OrderHandler} (hok : h.Ok) : h.kept.length = h.rest := by
  rw [kept, List.length_take, hok.buff, Nat.min_eq_left hok.rest.le]

/-! ### One chunk -/

/-- The loop hands on the whole orders from `ptr` on, and stops at what follows them. -/
theorem whole_eq (src : List UInt8) : ∀ (k ptr size : ℕ), size ≤ k → ptr + size = src.length →
    whole src k ptr size =
      (blocks sizeofOrder (src.drop ptr), ptr + size / sizeofOrder * sizeofOrder,
      size % sizeofOrder)
  | 0, ptr, size, hk, hend => by
    have hlen : (src.drop ptr).length < sizeofOrder := by rw [List.length_drop, sizeofOrder]; omega
    obtain rfl : size = 0 := by omega
    simp [whole, blocks_of_lt hlen]
  | k + 1, ptr, size, hk, hend => by
    rcases Nat.lt_or_ge size sizeofOrder with hlt | hle
    · have hlen : (src.drop ptr).length < sizeofOrder := by rw [List.length_drop]; omega
      rw [whole, if_neg (by omega), blocks_of_lt hlen, Nat.div_eq_of_lt hlt, Nat.mod_eq_of_lt hlt,
        Nat.zero_mul, Nat.add_zero]
    · have hpos : 0 < sizeofOrder := by decide
      have hlen : ((src.drop ptr).take sizeofOrder).length = sizeofOrder := by
        rw [List.length_take, List.length_drop]; omega
      have hb := blocks_block hpos hlen (src.drop (ptr + sizeofOrder))
      rw [← List.drop_drop, List.take_append_drop] at hb
      have hrec := whole_eq src k (ptr + sizeofOrder) (size - sizeofOrder) (by omega) (by omega)
      have hdiv : size / sizeofOrder = (size - sizeofOrder) / sizeofOrder + 1 := by
        rw [Nat.div_eq_sub_div hpos hle]
      have hmod : size % sizeofOrder = (size - sizeofOrder) % sizeofOrder := Nat.mod_eq_sub_mod hle
      rw [whole, if_pos hle, hrec, hb, hdiv, hmod, Nat.succ_mul, List.drop_drop]
      simp only [Prod.mk.injEq, true_and, and_true]
      omega

/-- From the loop on the rest of the chunk is cut, and what is left is kept. -/
theorem finish_eq {h : OrderHandler} (hok : h.Ok) (hrest : h.rest = 0) {src : List UInt8}
    {ptr size : ℕ} (hend : ptr + size = src.length) :
    (h.finish src ptr size).1 = blocks sizeofOrder (src.drop ptr) ∧
      (h.finish src ptr size).2.kept = remainder sizeofOrder (src.drop ptr) ∧
        (h.finish src ptr size).2.Ok := by
  have hlen : (src.drop ptr).length = size := by rw [List.length_drop]; omega
  have hmod : size % sizeofOrder < sizeofOrder := Nat.mod_lt _ (by decide)
  have hsplit : size / sizeofOrder * sizeofOrder + size % sizeofOrder = size := Nat.div_add_mod' _ _
  have htail : remainder sizeofOrder (src.drop ptr) =
      src.drop (ptr + size / sizeofOrder * sizeofOrder) := by
    rw [remainder, hlen, List.drop_drop]
  rw [finish, whole_eq src size ptr size (le_refl _) hend, htail]
  refine ⟨rfl, ?_⟩
  by_cases hzero : size % sizeofOrder = 0
  · simp only [hzero, ne_eq, not_true_eq_false, if_false]
    refine ⟨?_, hok⟩
    rw [kept, hrest, List.take_zero, List.drop_eq_nil_of_le (by omega)]
  · simp only [ne_eq, hzero, not_false_eq_true, if_true]
    have hdst : 0 + size % sizeofOrder ≤ h.buff.length := by rw [hok.buff]; omega
    have hsrc : ptr + size / sizeofOrder * sizeofOrder + size % sizeofOrder ≤ src.length := by omega
    have hfront := take_memcpy_front (show size % sizeofOrder ≤ h.buff.length by omega)
      (show ptr + size / sizeofOrder * sizeofOrder + size % sizeofOrder = src.length by omega)
    exact ⟨hfront, (length_memcpy hdst hsrc).trans hok.buff, hmod⟩

/-- `handle` cuts what it keeps and what arrives as one sequence, and keeps what is left. -/
theorem handle_spec {h : OrderHandler} (hok : h.Ok) (src : List UInt8) :
    (h.handle src).1 = blocks sizeofOrder (h.kept ++ src) ∧
      (h.handle src).2.kept = remainder sizeofOrder (h.kept ++ src) ∧ (h.handle src).2.Ok := by
  have hpos : 0 < sizeofOrder := by decide
  have hrest := hok.rest
  have hkept := hok.length_kept
  rcases Nat.eq_zero_or_pos h.rest with hzero | hsome
  · have hnil : h.kept = [] := List.length_eq_zero_iff.mp (hkept.trans hzero)
    rw [handle, if_neg (not_not.mpr hzero), hnil, List.nil_append]
    exact finish_eq hok hzero (Nat.zero_add _)
  · simp only [handle, if_pos (Nat.pos_iff_ne_zero.mp hsome)]
    rcases Nat.lt_or_ge (h.rest + src.length) sizeofOrder with hshort | hfull
    · -- the pending order stays incomplete
      have hcp :
          (if sizeofOrder - h.rest < src.length then sizeofOrder - h.rest else src.length) =
            src.length :=
        if_neg (by omega)
      have hdst : h.rest + src.length ≤ h.buff.length := by rw [hok.buff]; omega
      have hlen : (h.kept ++ src).length < sizeofOrder := by rw [List.length_append, hkept]; omega
      have htake := take_memcpy hdst (show 0 + src.length ≤ src.length by omega)
      rw [List.drop_zero, List.take_length] at htake
      rw [hcp, if_pos (show h.rest + src.length ≠ sizeofOrder by omega), blocks_of_lt hlen,
        remainder_of_lt hlen]
      exact ⟨rfl, htake, (length_memcpy hdst (by omega)).trans hok.buff, hshort⟩
    · have hcp : (if sizeofOrder - h.rest < src.length then sizeofOrder - h.rest else src.length) =
        sizeofOrder - h.rest := by
        split <;> omega
      have hfill : h.rest + (sizeofOrder - h.rest) = h.buff.length := by rw [hok.buff]; omega
      have hbuff : memcpy h.buff h.rest src 0 (sizeofOrder - h.rest) =
          h.kept ++ src.take (sizeofOrder - h.rest) := by
        rw [memcpy_fill hfill, List.drop_zero, kept]
      have hlen : (h.kept ++ src.take (sizeofOrder - h.rest)).length = sizeofOrder := by
        rw [List.length_append, hkept, List.length_take]; omega
      have hdone : ¬(h.rest + (sizeofOrder - h.rest) ≠ sizeofOrder) := by omega
      have hb := blocks_block hpos hlen (src.drop (sizeofOrder - h.rest))
      have hr := remainder_block hpos hlen (src.drop (sizeofOrder - h.rest))
      rw [List.append_assoc, List.take_append_drop] at hb hr
      rw [hcp, if_neg hdone, hbuff, hb, hr]
      have hfinish :=
        finish_eq (h := ⟨h.kept ++ src.take (sizeofOrder - h.rest), 0⟩)
        ⟨hlen, hpos⟩
        rfl (show sizeofOrder - h.rest + (src.length - (sizeofOrder - h.rest)) =
        src.length by omega)
      exact ⟨congrArg _ hfinish.1, hfinish.2⟩

/-- Seen through what is kept, the handler is the one of the service. -/
theorem handle_refines {h : OrderHandler} (hok : h.Ok) (src : List UInt8) :
    ((h.handle src).1, (h.handle src).2.kept) =
      MatchingTcpService.handle sizeofOrder h.kept src := by
  obtain ⟨horders, hkept, -⟩ := handle_spec hok src
  rw [handle_eq (by decide) (by rw [hok.length_kept]; exact hok.rest), horders, hkept]

/-! ### All chunks -/

/-- However a sequence is split, what is kept and what arrives is cut as one. -/
theorem receive_spec : ∀ (chunks : List (List UInt8)) {h : OrderHandler}, h.Ok →
    (h.receive chunks).1 = blocks sizeofOrder (h.kept ++ chunks.flatten) ∧
      (h.receive chunks).2.kept = remainder sizeofOrder (h.kept ++ chunks.flatten) ∧
        (h.receive chunks).2.Ok
  | [], h, hok => by
    have hlt : h.kept.length < sizeofOrder := by rw [hok.length_kept]; exact hok.rest
    rw [List.flatten_nil, List.append_nil, blocks_of_lt hlt, remainder_of_lt hlt]
    exact ⟨rfl, rfl, hok⟩
  | chunk :: chunks, h, hok => by
    obtain ⟨horders, hkept, hok'⟩ := handle_spec hok chunk
    obtain ⟨hmore, hlast, hok''⟩ := receive_spec chunks hok'
    obtain ⟨hb, hr⟩ :=
      blocks_append (show 0 < sizeofOrder by decide) (h.kept ++ chunk) chunks.flatten
    rw [← hkept] at hb hr
    rw [List.flatten_cons, ← List.append_assoc, hb, hr]
    refine ⟨?_, hlast, hok''⟩
    simp only [receive, horders, hmore]

end OrderHandler

/-- The orders a handler hands on are the blocks of what arrived, however it was split, and it keeps
    the bytes after the last of them. -/
theorem receive_framed (chunks : List (List UInt8)) :
    (OrderHandler.start.receive chunks).1 = blocks sizeofOrder chunks.flatten ∧
      (OrderHandler.start.receive chunks).2.rest = chunks.flatten.length % sizeofOrder ∧
      (OrderHandler.start.receive chunks).2.kept =
        chunks.flatten.drop (chunks.flatten.length - chunks.flatten.length % sizeofOrder) := by
  obtain ⟨horders, hkept, hok⟩ := OrderHandler.receive_spec chunks OrderHandler.ok_start
  have hnil : OrderHandler.start.kept = [] := rfl
  rw [hnil, List.nil_append] at horders hkept
  refine ⟨horders, ?_, ?_⟩
  · rw [← hok.length_kept, hkept, length_remainder]
  · have hsplit := Nat.div_add_mod' chunks.flatten.length sizeofOrder
    rw [hkept, remainder]
    congr 1
    omega

end Matching
