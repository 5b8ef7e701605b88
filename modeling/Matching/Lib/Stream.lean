import Mathlib.Data.List.Basic
import Mathlib.Logic.Function.Basic

/-! Streams: a sequence of bytes cut into blocks of one size, and the interleavings of a family of
    sequences. -/

namespace Matching

variable {α ι : Type}

/-! ### Blocks -/

/-- The whole blocks of `n` elements. -/
def blocks (n : ℕ) (xs : List α) : List (List α) :=
  (List.range (xs.length / n)).map (fun i => (xs.drop (i * n)).take n)

/-- What follows the last whole block. -/
def remainder (n : ℕ) (xs : List α) : List α := xs.drop (xs.length / n * n)

variable {n : ℕ} {xs : List α}

theorem blocks_of_lt (h : xs.length < n) : blocks n xs = [] := by simp [blocks, Nat.div_eq_of_lt h]

theorem remainder_of_lt (h : xs.length < n) : remainder n xs = xs := by
  simp [remainder, Nat.div_eq_of_lt h]

theorem blocks_block (hn : 0 < n) (hx : xs.length = n) (ys : List α) :
    blocks n (xs ++ ys) = xs :: blocks n ys := by
  have hlen : (xs ++ ys).length / n = ys.length / n + 1 := by
    rw [List.length_append, hx, Nat.add_div_left _ hn]
  simp only [blocks, hlen, List.range_succ_eq_map, List.map_cons, List.map_map, Nat.zero_mul,
    List.drop_zero]
  refine List.cons_eq_cons.mpr ⟨List.take_left' hx, List.map_congr_left fun i _ => ?_⟩
  have hshift : (i + 1) * n = xs.length + i * n := by rw [hx, Nat.succ_mul, Nat.add_comm]
  simp only [Function.comp_apply, Nat.succ_eq_add_one, hshift, List.drop_length_add_append]

theorem remainder_block (hn : 0 < n) (hx : xs.length = n) (ys : List α) :
    remainder n (xs ++ ys) = remainder n ys := by
  have hlen : (xs ++ ys).length / n * n = xs.length + ys.length / n * n := by
    rw [List.length_append, hx, Nat.add_div_left _ hn, Nat.succ_mul, Nat.add_comm]
  rw [remainder, remainder, hlen, List.drop_length_add_append]

theorem length_remainder (n : ℕ) (xs : List α) : (remainder n xs).length = xs.length % n := by
  rw [remainder, List.length_drop, Nat.mod_eq_sub, Nat.mul_comm]

theorem length_remainder_lt (hn : 0 < n) (xs : List α) : (remainder n xs).length < n := by
  rw [length_remainder]
  exact Nat.mod_lt _ hn

theorem remainder_of_dvd (h : n ∣ xs.length) : remainder n xs = [] :=
  List.length_eq_zero_iff.mp (by rw [length_remainder, Nat.mod_eq_zero_of_dvd h])

/-- A stream can be cut as it arrives: only what follows the last whole block has to be kept. -/
theorem blocks_append (hn : 0 < n) : ∀ xs ys : List α,
    blocks n (xs ++ ys) = blocks n xs ++ blocks n (remainder n xs ++ ys) ∧
      remainder n (xs ++ ys) = remainder n (remainder n xs ++ ys)
  | xs, ys => by
    by_cases h : xs.length < n
    · rw [blocks_of_lt h, remainder_of_lt h]
      exact ⟨rfl, rfl⟩
    · have hlen : (xs.take n).length = n := by rw [List.length_take]; omega
      have hdec : (xs.drop n).length < xs.length := by rw [List.length_drop]; omega
      obtain ⟨hb, hr⟩ := blocks_append hn (xs.drop n) ys
      have hblocks := blocks_block hn hlen (xs.drop n)
      have hrem := remainder_block hn hlen (xs.drop n)
      rw [List.take_append_drop] at hblocks hrem
      have hsplit : xs ++ ys = xs.take n ++ (xs.drop n ++ ys) := by
        rw [← List.append_assoc, List.take_append_drop]
      rw [hsplit, blocks_block hn hlen, remainder_block hn hlen, hblocks, hrem, hb, hr]
      exact ⟨rfl, rfl⟩
termination_by xs => xs.length

/-- What arrived of a sequence of whole blocks is cut into those that arrived whole. -/
theorem blocks_of_prefix (hn : 0 < n) :
    ∀ (bs : List (List α)) {xs : List α}, (∀ b ∈ bs, b.length = n) →
    xs <+: bs.flatten → blocks n xs = bs.take (xs.length / n)
  | [], xs, _, h => by
    obtain rfl := List.prefix_nil.mp h
    simp [blocks]
  | b :: bs, xs, hb, h => by
    have hlen : b.length = n := hb b List.mem_cons_self
    rw [List.flatten_cons] at h
    by_cases hlt : xs.length < n
    · rw [blocks_of_lt hlt, Nat.div_eq_of_lt hlt, List.take_zero]
    · obtain ⟨ys, rfl⟩ :=
        List.prefix_of_prefix_length_le (List.prefix_append b bs.flatten) h (by omega)
      have hys : ys <+: bs.flatten := (List.prefix_append_right_inj b).mp h
      have hdiv : (b ++ ys).length / n = ys.length / n + 1 := by
        rw [List.length_append, hlen, Nat.add_div_left _ hn]
      rw [blocks_block hn hlen, hdiv, List.take_succ_cons,
        blocks_of_prefix hn bs (fun c hc => hb c (List.mem_cons_of_mem _ hc)) hys]

/-- Whole blocks in front of a stream are blocks of it. -/
theorem blocks_flatten_append (hn : 0 < n) :
    ∀ (bs : List (List α)) (ys : List α), (∀ b ∈ bs, b.length = n) →
    blocks n (bs.flatten ++ ys) = bs ++ blocks n ys
  | [], _, _ => rfl
  | b :: bs, ys, hb => by
    rw [List.flatten_cons, List.append_assoc, blocks_block hn (hb b List.mem_cons_self),
      blocks_flatten_append hn bs ys (fun c hc => hb c (List.mem_cons_of_mem _ hc)),
      List.cons_append]

/-- The blocks are the beginning of the stream up to the last of them. -/
theorem blocks_eq_iff {xs ys : List α} : blocks n xs = blocks n ys ↔
    xs.length / n = ys.length / n ∧ ∀ j < ys.length / n * n, xs[j]? = ys[j]? := by
  have hcell : ∀ (zs : List α) {i j : ℕ}, j < n →
      ((zs.drop (i * n)).take n)[j]? = zs[i * n + j]? := fun zs i j hj => by
    rw [List.getElem?_take_of_lt hj, List.getElem?_drop]
  constructor
  · intro h
    have hlen : xs.length / n = ys.length / n := by simpa [blocks] using congrArg List.length h
    refine ⟨hlen, fun j hj => ?_⟩
    rcases Nat.eq_zero_or_pos n with rfl | hn
    · simp at hj
    have hi : j / n < ys.length / n := (Nat.div_lt_iff_lt_mul hn).mpr hj
    have hblock := congrArg (fun bs => bs[j / n]?) h
    simp only [blocks, hlen, List.getElem?_map, List.getElem?_range hi, Option.map_some,
      Option.some.injEq] at hblock
    rw [← Nat.div_add_mod' j n, ← hcell xs (Nat.mod_lt j hn), hblock, hcell ys (Nat.mod_lt j hn)]
  · rintro ⟨hlen, hcells⟩
    rw [blocks, blocks, hlen]
    refine List.map_congr_left fun i hi => List.ext_getElem? fun j => ?_
    rcases Nat.lt_or_ge j n with hj | hj
    · rw [hcell xs hj, hcell ys hj]
      have hle : (i + 1) * n ≤ ys.length / n * n := Nat.mul_le_mul_right n (List.mem_range.mp hi)
      exact hcells _ (by rw [Nat.succ_mul] at hle; omega)
    · rw [List.getElem?_eq_none (by rw [List.length_take]; omega),
        List.getElem?_eq_none (by rw [List.length_take]; omega)]

/-- A stream that continues as if nothing was put in front of it repeats what was put there. -/
theorem shifted_iff {pre : List α} (hpre : pre ≠ []) (m : ℕ) (ys : List α) :
    (∀ j < m, (pre ++ ys)[j]? = ys[j]?) ↔ ∀ j < m, ys[j]? = pre[j % pre.length]? := by
  have hpos : 0 < pre.length := List.length_pos_of_ne_nil hpre
  constructor
  · intro h j
    induction j using Nat.strongRecOn with
    | _ j ih =>
      intro hj
      rw [← h j hj]
      rcases Nat.lt_or_ge j pre.length with hlt | hge
      · rw [List.getElem?_append_left hlt, Nat.mod_eq_of_lt hlt]
      · rw [List.getElem?_append_right hge, ih (j - pre.length) (by omega) (by omega),
          Nat.mod_eq_sub_mod hge]
  · intro h j hj
    rcases Nat.lt_or_ge j pre.length with hlt | hge
    · rw [List.getElem?_append_left hlt, h j hj, Nat.mod_eq_of_lt hlt]
    · rw [List.getElem?_append_right hge, h j hj, h (j - pre.length) (by omega),
        Nat.mod_eq_sub_mod hge]

/-- Something was put in front of a stream, and its blocks are the same: what was put in front is
    repeated, and completes no block. -/
theorem blocks_append_eq_iff (hn : 0 < n) {pre : List α} (hpre : pre ≠ []) (ys : List α) :
    blocks n (pre ++ ys) = blocks n ys ↔
      pre.length + ys.length % n < n ∧ ∀ j < ys.length / n * n, ys[j]? = pre[j % pre.length]? := by
  rw [blocks_eq_iff, shifted_iff hpre, List.length_append]
  refine and_congr_left fun _ => ?_
  have hsplit : pre.length + ys.length = pre.length + ys.length % n + n * (ys.length / n) := by
    have := Nat.mod_add_div ys.length n
    omega
  rw [hsplit, Nat.add_mul_div_left _ _ hn]
  constructor
  · intro h
    exact (Nat.div_eq_zero_iff_lt hn).mp (by omega)
  · intro h
    rw [Nat.div_eq_of_lt h, Nat.zero_add]

/-! ### Interleavings -/

/-- `xs` is made of the sequences `f c`, each in its own order. -/
def Interleaves [DecidableEq ι] (f : ι → List α) (xs : List α) : Prop :=
  ∃ ls : List (ι × α), ls.map Prod.snd = xs ∧ ∀ c, (ls.filter (fun l => l.1 = c)).map Prod.snd = f c

theorem interleaves_nil [DecidableEq ι] : Interleaves (fun _ : ι => ([] : List α)) [] :=
  ⟨[], rfl, fun _ => rfl⟩

/-- One of the sequences goes on. -/
theorem Interleaves.append [DecidableEq ι] {f : ι → List α} {xs : List α} (h : Interleaves f xs)
    (c : ι) (ys : List α) :
    Interleaves (Function.update f c (f c ++ ys)) (xs ++ ys) := by
  obtain ⟨ls, hls, hf⟩ := h
  refine ⟨ls ++ ys.map (fun y => (c, y)), by simp [hls, Function.comp_def], fun d => ?_⟩
  rw [List.filter_append, List.map_append, hf]
  by_cases hd : d = c
  · subst hd
    simp [List.filter_map, Function.comp_def]
  · have hne : ∀ l ∈ ys.map (fun y => (c, y)), decide (l.1 = d) = false := by
      rintro l hl
      obtain ⟨y, _, rfl⟩ := List.mem_map.mp hl
      exact decide_eq_false (Ne.symm hd)
    rw [Function.update_of_ne hd, List.filter_eq_nil_iff.mpr (fun l hl => by rw [hne l hl]; simp)]
    simp

end Matching
