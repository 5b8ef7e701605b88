import Matching.Engine.Calls
import Matching.Engine.Wire
import Matching.Lib.Machine

/-! The locks an engine takes and the books it may change. `_mutex_set` covers the engine and the
    legs of its impliers (`Wiring.Covers`) as long as every call that attaches an implier finds its
    legs' iterators valid and no call takes out a mutex that is still needed (`WireCall.Safe`): a
    call keeps the cover if and only if it is safe, so a run does if and only if all its calls are.
    Under a cover an execution changes locked engines only. -/

namespace Matching

/-- `_mutex_set` has the engine's own mutex and those of both legs of every implier. -/
def Wiring.Covers (e : ℕ) (g : Wiring) : Prop :=
  e ∈ g.mutexSet ∧ ∀ a ∈ g.all, ∀ m ∈ a.legs, m ∈ g.mutexSet

/-- Whatever engine `fok_match` or `normal_match` changes while a call of engine `e` holds its
    locks, the mutex of that engine is held. The call works in worlds `v` that have the
    configuration and the locks it started with. -/
def Wiring.Guards (e : ℕ) (g : Wiring) : Prop :=
  ∀ {miniTick : ℤ} {w u v v' : World} {s : Side} {r : Ref}, w.conf e = g.config miniTick →
    lock w e = .ok u → v.conf e = u.conf e → v.locked = u.locked → execute v e s r = .ok v' →
      ∀ l, v'.store l ≠ v.store l → v.locked l = true

/-- The call leaves every mutex in the set that is needed after it: one that goes with the implier
    that is replaced or detached is put in again, or is neither the engine's own nor that of a leg
    of another implier, and a leg of the implier that is attached has a valid iterator, or its mutex
    is in the set anyway. -/
def WireCall.Safe (e : ℕ) (g : Wiring) : WireCall → Prop
  | .set s a =>
    (∀ m ∈ g.erased s a.imp, m ∈ a.seen ∨ (m ≠ e ∧ ∀ b ∈ g.staying s a.imp, m ∉ b.legs)) ∧
      ∀ m ∈ a.legs, m ∈ a.seen ∨ (m ∈ g.mutexSet ∧ m ∉ g.erased s a.imp)
  | .unset s imp => ∀ m ∈ g.erased s imp, m ≠ e ∧ ∀ b ∈ g.staying s imp, m ∉ b.legs
  | .move _ => True

namespace Wiring

variable {g : Wiring} {e m : ℕ} {s : Side} {a b : Attached} {imp : Implier}

theorem start_covers (e : ℕ) : (start e).Covers e :=
  ⟨List.mem_singleton_self e, fun _ h => nomatch h⟩

/-- What stays attached was attached. -/
theorem mem_all_of_staying (hb : b ∈ g.staying s imp) : b ∈ g.all := by
  rcases List.mem_append.mp hb with h | h
  · exact mem_all.mpr ⟨s, List.mem_of_mem_filter h⟩
  · exact mem_all.mpr ⟨s.opp, h⟩

theorem covers_unset_iff (h : g.Covers e) :
    (g.unsetImplier s imp).Covers e ↔ (WireCall.unset s imp).Safe e g := by
  simp only [Covers, mem_unset, mem_all_unset, WireCall.Safe]
  constructor
  · rintro ⟨hown, hlegs⟩ m hm
    refine ⟨?_, fun b hb hmb => (hlegs b hb m hmb).2 hm⟩
    rintro rfl
    exact hown.2 hm
  · intro hsafe
    refine ⟨⟨h.1, fun he => (hsafe e he).1 rfl⟩,
      fun b hb m hm => ⟨h.2 b (mem_all_of_staying hb) m hm, fun he => ?_⟩⟩
    exact (hsafe m he).2 b hb hm

theorem covers_set_iff (h : g.Covers e) :
    (g.setImplier s a).Covers e ↔ (WireCall.set s a).Safe e g := by
  simp only [Covers, mem_set, mem_all_set, WireCall.Safe]
  constructor
  · rintro ⟨hown, hlegs⟩
    refine ⟨fun m hm => ?_, fun m hm => ?_⟩
    · by_cases hs : m ∈ a.seen
      · exact Or.inl hs
      · refine Or.inr ⟨?_, fun b hb hmb => ?_⟩
        · rintro rfl
          exact hown.elim (fun h => h.2 hm) hs
        · exact (hlegs b (Or.inr hb) m hmb).elim (fun h => h.2 hm) hs
    · exact (hlegs a (Or.inl rfl) m hm).symm
  · rintro ⟨hgone, hnew⟩
    refine ⟨?_, ?_⟩
    · by_cases he : e ∈ g.erased s a.imp
      · exact Or.inr ((hgone e he).resolve_right fun h => h.1 rfl)
      · exact Or.inl ⟨h.1, he⟩
    · rintro b (rfl | hb) m hm
      · exact (hnew m hm).symm
      · by_cases he : m ∈ g.erased s a.imp
        · exact Or.inr ((hgone m he).resolve_right fun h => h.2 b hb hm)
        · exact Or.inl ⟨h.2 b (mem_all_of_staying hb) m hm, he⟩

theorem covers_move_iff {valid : Side → ℕ → Bool × Bool} (h : g.Covers e) :
    (g.move valid).Covers e := by
  refine ⟨h.1, fun b hb m hm => ?_⟩
  obtain ⟨a, ha, hl⟩ := legs_move hb
  exact h.2 a ha m (hl ▸ hm)

/-- A call keeps the cover if and only if it is safe. -/
theorem covers_step_iff (h : g.Covers e) : ∀ c : WireCall, (g.step c).Covers e ↔ c.Safe e g
  | .set _ _ => covers_set_iff h
  | .unset _ _ => covers_unset_iff h
  | .move _ => iff_of_true (covers_move_iff h) trivial

/-- Under a cover an execution changes engines whose mutexes are held. -/
theorem Covers.guards (h : g.Covers e) : g.Guards e := by
  intro miniTick w u v v' s r hconf hlock hv hlocked hex l hl
  simp only [lock, bind_ok, pure_ok] at hlock
  obtain ⟨held, hheld, rfl⟩ := hlock
  have hset : ∀ m ∈ g.mutexSet, v.locked m = true := fun m hm => by
    have hin : m ∈ (w.conf e).mutexSet := by rw [hconf]; exact hm
    have hm' := (lockAll_ok _ hheld).2 m
    rw [decide_eq_true hin, Bool.true_or] at hm'
    rw [hlocked]
    exact hm'
  by_contra hfree
  have hout : ¬l ∈ g.mutexSet := fun hm => hfree (hset l hm)
  refine hl (Touches.execute (T := (· ∈ g.mutexSet)) h.1 (fun i hi => ?_) hex l hout)
  have hvconf : v.conf e = g.config miniTick := hv.trans hconf
  rw [hvconf] at hi
  obtain ⟨a, ha, rfl⟩ := imp_of_config hi
  exact ⟨h.2 a ha _ List.mem_cons_self, h.2 a ha _ (List.mem_cons_of_mem _ List.mem_cons_self)⟩

end Wiring

/-- In a run of calls from a new engine, the set covers the engine and the legs of
    its impliers after every call, and with that all an execution may change, if and
    only if every call is safe. -/
theorem lock_coverage_iff (e : ℕ) (cs : List WireCall) :
    Along Wiring.step (fun g c => (g.step c).Covers e ∧ (g.step c).Guards e) (Wiring.start e) cs ↔
      Along Wiring.step (fun g c => c.Safe e g) (Wiring.start e) cs := by
  refine Along.congr (I := Wiring.Covers e) (fun _ _ _ h => h.1) (fun g c h => ?_) cs
    (Wiring.start_covers e)
  rw [← Wiring.covers_step_iff h c]
  exact ⟨And.left, fun hc => ⟨hc, hc.guards⟩⟩

/-- An implier over the ask books of engines 1 and 2 that is attached while both are empty. -/
def emptyLegs : Attached where
  imp := { priority := 1, leg1 := (1, .buy), leg2 := (2, .buy), matchdPrice := fun a b _ => a + b }
  valid1 := false
  valid2 := false

/-- The set stays as it was, without the mutexes of the legs. -/
theorem emptyLegs_uncovered : ((Wiring.start 0).step (.set .buy emptyLegs)).mutexSet = [0] ∧
    emptyLegs ∈ ((Wiring.start 0).step (.set .buy emptyLegs)).all ∧
    ¬Along Wiring.step (fun g c => (g.step c).Covers 0 ∧ (g.step c).Guards 0) (Wiring.start 0)
      [.set .buy emptyLegs] := by
  have hin : emptyLegs ∈ ((Wiring.start 0).step (.set .buy emptyLegs)).all := List.mem_cons_self
  refine ⟨rfl, hin, ?_⟩
  rintro ⟨⟨⟨-, hlegs⟩, -⟩, -⟩
  exact absurd (hlegs emptyLegs hin 1 List.mem_cons_self) (by decide)

end Matching
