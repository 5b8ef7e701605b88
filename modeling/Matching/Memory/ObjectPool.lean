import Mathlib.Data.List.Range
import Mathlib.Logic.Function.Basic
import Matching.Lib.Custody
import Matching.Lib.Machine

/-! `memory::object_pool`: a stack of pointers to the free objects of one buffer. `held` is what
    `alloc` has returned and `free` has not taken back; the code does not read it, so it is the
    callers who must free what they hold and nothing else. -/

namespace Matching.Memory

/-- The pool, with a pointer as its offset from the first object. -/
structure ObjectPool where
  stack : ℕ → ℕ
  top : ℕ

namespace ObjectPool

/-- The constructor. -/
def start (SIZE : ℕ) : ObjectPool := ⟨fun i => i, SIZE⟩

/-- `alloc()`; `none` is `nullptr`. -/
def alloc (s : ObjectPool) : Option ℕ × ObjectPool :=
  if s.top = 0 then (none, s) else (some (s.stack (s.top - 1)), { s with top := s.top - 1 })

/-- `free(ptr)`. -/
def free (SIZE : ℕ) (s : ObjectPool) (ptr : ℕ) : Bool × ObjectPool :=
  if SIZE = s.top then (false, s) else (true, ⟨Function.update s.stack s.top ptr, s.top + 1⟩)

/-- The pointers on the stack. -/
def waiting (s : ObjectPool) : List ℕ := (List.range s.top).map s.stack

end ObjectPool

/-- A call of a caller. -/
inductive Call where
  | alloc
  | free (ptr : ℕ)
  deriving DecidableEq, Repr

/-- A pool and what its callers hold. -/
structure Usage where
  pool : ObjectPool
  held : List ℕ

namespace Usage

def start (SIZE : ℕ) : Usage := ⟨.start SIZE, []⟩

/-- One call. -/
def step (SIZE : ℕ) (s : Usage) : Call → Usage
  | .alloc => ⟨s.pool.alloc.2, s.held ++ s.pool.alloc.1.toList⟩
  | .free ptr =>
    ⟨(s.pool.free SIZE ptr).2, if (s.pool.free SIZE ptr).1 then s.held.erase ptr else s.held⟩

/-- Callers free what they hold. -/
def Ok (s : Usage) : Call → Prop
  | .alloc => True
  | .free ptr => ptr ∈ s.held

instance (s : Usage) (c : Call) : Decidable (s.Ok c) := by
  unfold Ok
  split <;> infer_instance

variable {SIZE : ℕ} {s : Usage}

/-- The objects are held or on the stack, each once. -/
def Sound (SIZE : ℕ) (s : Usage) : Prop := Custody (List.range SIZE) s.held s.pool.waiting

theorem start_sound : (start SIZE).Sound SIZE := by
  refine ⟨List.nodup_range, ?_⟩
  simp only [start, ObjectPool.start, ObjectPool.waiting, List.nil_append]
  rw [List.map_id']

/-- The stack is as long as there are objects nobody holds. -/
theorem Sound.top_add (h : s.Sound SIZE) : s.held.length + s.pool.top = SIZE := by
  have hlen := h.length_add
  rwa [ObjectPool.waiting, List.length_map, List.length_range, List.length_range] at hlen

theorem alloc_sound (h : s.Sound SIZE) : (s.step SIZE .alloc).Sound SIZE := by
  simp only [step, ObjectPool.alloc]
  split
  · simp only [Option.toList_none, List.append_nil]
    exact h
  · next hne =>
    obtain ⟨n, hn⟩ := Nat.exists_eq_succ_of_ne_zero hne
    have hwait : s.pool.waiting = (List.range n).map s.pool.stack ++ [s.pool.stack n] := by
      rw [ObjectPool.waiting, hn, List.range_succ, List.map_append, List.map_singleton]
    have htop : Custody (List.range SIZE) s.held
        (s.pool.stack n :: (List.range n).map s.pool.stack) := by
      refine Custody.congr ?_ (List.perm_append_singleton _ _)
      rw [← hwait]
      exact h
    simp only [hn, Nat.succ_sub_one, Option.toList_some]
    exact htop.lend

/-- While an object is held the stack is not full, so an object that is held is taken back. -/
theorem free_ok (h : s.Sound SIZE) {ptr : ℕ} (hheld : ptr ∈ s.held) :
    (s.pool.free SIZE ptr).1 = true := by
  have htop := h.top_add
  have hpos := List.length_pos_of_mem hheld
  rw [ObjectPool.free, if_neg (by omega)]

theorem free_sound (h : s.Sound SIZE) {ptr : ℕ} (hheld : ptr ∈ s.held) :
    (s.step SIZE (.free ptr)).Sound SIZE := by
  have htop := h.top_add
  have hpos := List.length_pos_of_mem hheld
  simp only [step, free_ok h hheld, if_true]
  rw [ObjectPool.free, if_neg (by omega)]
  have hbelow : (List.range s.pool.top).map (Function.update s.pool.stack s.pool.top ptr) =
      s.pool.waiting := by
    refine List.map_congr_left fun i hi => Function.update_of_ne ?_ _ _
    exact (List.mem_range.mp hi).ne
  have hwait : ObjectPool.waiting ⟨Function.update s.pool.stack s.pool.top ptr, s.pool.top + 1⟩ =
      s.pool.waiting ++ [ptr] := by
    simp only [ObjectPool.waiting, List.range_succ, List.map_append, List.map_singleton,
      Function.update_self] at hbelow ⊢
    rw [hbelow]
  unfold Sound
  rw [hwait]
  exact h.giveBack hheld

theorem step_sound {c : Call} (hok : s.Ok c) (h : s.Sound SIZE) : (s.step SIZE c).Sound SIZE := by
  cases c with
  | alloc => exact alloc_sound h
  | free ptr => exact free_sound h hok

/-- In every run of callers that free what they hold: no object is handed out while it is held,
    `nullptr` is returned only when all are held, and no `free` is refused. -/
theorem alloc_fresh {calls : List Call} (hok : Along (step SIZE) Ok (start SIZE) calls)
    (hs : s = calls.foldl (step SIZE) (start SIZE)) :
    (s.pool.alloc.1 = none ↔ s.held.length = SIZE) ∧
      (∀ ptr, s.pool.alloc.1 = some ptr → ptr < SIZE ∧ ptr ∉ s.held) ∧
      ∀ ptr ∈ s.held, (s.pool.free SIZE ptr).1 = true := by
  have h : s.Sound SIZE := hs ▸ Along.preserves step_sound calls hok start_sound
  have htop := h.top_add
  refine ⟨?_, ?_, fun ptr => free_ok h⟩
  · rw [ObjectPool.alloc]
    split
    · exact ⟨fun _ => by omega, fun _ => rfl⟩
    · exact ⟨nofun, fun hlen => by omega⟩
  · intro ptr hptr
    rw [ObjectPool.alloc] at hptr
    split at hptr
    · cases hptr
    · next hne =>
      cases hptr
      have hmem : s.pool.stack (s.pool.top - 1) ∈ s.pool.waiting :=
        List.mem_map.mpr ⟨s.pool.top - 1, List.mem_range.mpr (by omega), rfl⟩
      obtain ⟨hobj, hnew⟩ := h.fresh hmem
      exact ⟨List.mem_range.mp hobj, hnew⟩

/-- Of two objects, both handed out, the one that was freed is handed out again,
    and then there is none. -/
theorem alloc_fresh_twoObjects :
    ∃ s, s = [Call.alloc, .alloc, .free 1].foldl (step 2) (start 2) ∧ s.held = [0] ∧
      s.pool.alloc.1 = some 1 ∧ (s.step 2 .alloc).held = [0, 1] ∧
      (s.step 2 .alloc).pool.alloc.1 = none ∧
      (s.pool.alloc.1 = none ↔ s.held.length = 2) ∧
      (∀ ptr, s.pool.alloc.1 = some ptr → ptr < 2 ∧ ptr ∉ s.held) ∧
      ∀ ptr ∈ s.held, (s.pool.free 2 ptr).1 = true :=
  ⟨_, rfl, by decide, by decide, by decide, by decide, alloc_fresh (by decide) rfl⟩

end Usage

end Matching.Memory
