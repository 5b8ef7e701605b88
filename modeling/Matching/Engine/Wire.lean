import Matching.Engine.Frame

/-! Attaching impliers: `set_bid_implier`, `unset_bid_implier`, `set_ask_implier` and
    `unset_ask_implier`. They keep the impliers of the two matchers by priority, and `_mutex_set` up
    to date step by step: the mutex of a leg is put in or taken out when the implier's own iterator
    over that leg is valid at that moment. An engine's mutex goes by the number of the engine. -/

namespace Matching

/-- An implier in a matcher, and whether its two iterators are at an order (`operator bool`). -/
structure Attached where
  imp : Implier
  valid1 : Bool
  valid2 : Bool

namespace Attached

/-- The engines of the legs. -/
def legs (a : Attached) : List ℕ := [a.imp.leg1.1, a.imp.leg2.1]

/-- The engines of the legs whose iterators are valid. -/
def seen (a : Attached) : List ℕ :=
  (if a.valid1 then [a.imp.leg1.1] else []) ++ (if a.valid2 then [a.imp.leg2.1] else [])

end Attached

/-- `_impliers` of the two matchers of an engine, in descending priority, and `_mutex_set`. -/
structure Wiring where
  bid : List Attached
  ask : List Attached
  mutexSet : List ℕ

namespace Wiring

/-- The constructor puts the engine's own mutex in the set. -/
def start (e : ℕ) : Wiring := ⟨[], [], [e]⟩

/-- The impliers of the matcher that serves takers of side `s`:
    `_bid_book_matcher` serves sellers. -/
def attached (g : Wiring) : Side → List Attached
  | .buy => g.ask
  | .sell => g.bid

def setAttached (g : Wiring) (s : Side) (as : List Attached) : Wiring :=
  match s with
  | .buy => { g with ask := as }
  | .sell => { g with bid := as }

/-- `_impliers.emplace` of a priority that is free. -/
def place (a : Attached) : List Attached → List Attached
  | [] => [a]
  | b :: bs => if b.imp.priority < a.imp.priority then a :: b :: bs else b :: place a bs

/-- `matcher::unset_implier(imp)`: what goes is the implier of that priority, whichever it is. -/
def unsetImplier (g : Wiring) (s : Side) (imp : Implier) : Wiring :=
  match (g.attached s).find? (fun a => a.imp.priority = imp.priority) with
  | none => g
  | some a =>
    let ms := g.mutexSet
    let ms := if a.valid1 then ms.filter (· ≠ a.imp.leg1.1) else ms
    let ms := if a.valid2 then ms.filter (· ≠ a.imp.leg2.1) else ms
    { g.setAttached s ((g.attached s).filter (fun a => a.imp.priority ≠ imp.priority)) with
      mutexSet := ms }

/-- `matcher::set_implier(imp)`. -/
def setImplier (g : Wiring) (s : Side) (a : Attached) : Wiring :=
  let g := g.unsetImplier s a.imp
  let ms := g.mutexSet
  let ms := if a.valid1 then Ladder.addId a.imp.leg1.1 ms else ms
  let ms := if a.valid2 then Ladder.addId a.imp.leg2.1 ms else ms
  { g.setAttached s (place a (g.attached s)) with mutexSet := ms }

/-- The books have changed since the last call, and with them the iterators of the impliers. -/
def move (g : Wiring) (valid : Side → ℕ → Bool × Bool) : Wiring :=
  let on := fun s (a : Attached) =>
    { a with valid1 := (valid s a.imp.priority).1, valid2 := (valid s a.imp.priority).2 }
  { g with bid := g.bid.map (on .sell), ask := g.ask.map (on .buy) }

/-- What `handle` works with, for an engine with this wiring. -/
def config (g : Wiring) (miniTick : ℤ) : Config where
  bidImpliers := g.bid.map Attached.imp
  askImpliers := g.ask.map Attached.imp
  miniTick := miniTick
  mutexSet := g.mutexSet

end Wiring

/-- A call of one of the four functions, or what happens to the iterators between two calls. -/
inductive WireCall where
  | set (s : Side) (a : Attached)
  | unset (s : Side) (imp : Implier)
  | move (valid : Side → ℕ → Bool × Bool)

def Wiring.step (g : Wiring) : WireCall → Wiring
  | .set s a => g.setImplier s a
  | .unset s imp => g.unsetImplier s imp
  | .move valid => g.move valid

/-! ### What a call does to the set and to the impliers -/

namespace Wiring

variable {g : Wiring} {e m : ℕ} {s t : Side} {imp : Implier} {a b : Attached}

/-- The mutexes that go with the implier of this priority. -/
def erased (g : Wiring) (s : Side) (imp : Implier) : List ℕ :=
  match (g.attached s).find? (fun a => a.imp.priority = imp.priority) with
  | none => []
  | some a => a.seen

/-- The impliers that stay when that one goes. -/
def staying (g : Wiring) (s : Side) (imp : Implier) : List Attached :=
  (g.attached s).filter (fun a => a.imp.priority ≠ imp.priority) ++ g.attached s.opp

/-- The impliers of both matchers. -/
def all (g : Wiring) : List Attached := g.attached .buy ++ g.attached .sell

@[simp] theorem attached_setAttached (as : List Attached) : (g.setAttached s as).attached t =
    if t = s then as else g.attached t := by
  cases s <;> cases t <;> rfl

theorem attached_unset (g : Wiring) (s : Side) (imp : Implier) (t : Side) :
    (g.unsetImplier s imp).attached t =
    if t = s then (g.attached s).filter (fun a => a.imp.priority ≠ imp.priority)
    else g.attached t := by
  unfold unsetImplier
  split
  · rename_i hnone
    split_ifs with ht
    · subst ht
      refine (List.filter_eq_self.mpr fun a ha => ?_).symm
      simpa using List.find?_eq_none.mp hnone a ha
    · rfl
  · exact attached_setAttached _

theorem mem_unset : m ∈ (g.unsetImplier s imp).mutexSet ↔ m ∈ g.mutexSet ∧ m ∉ g.erased s imp := by
  unfold unsetImplier erased
  split
  · simp
  · rename_i a _
    cases h1 : a.valid1 <;> cases h2 : a.valid2 <;> simp [Attached.seen, h1, h2]
    exact fun _ => and_comm

theorem mem_set :
    m ∈ (g.setImplier s a).mutexSet ↔ (m ∈ g.mutexSet ∧ m ∉ g.erased s a.imp) ∨ m ∈ a.seen := by
  rw [← mem_unset]
  cases h1 : a.valid1 <;> cases h2 : a.valid2 <;>
    simp [setImplier, Attached.seen, h1, h2, Ladder.mem_addId] <;> tauto

theorem mem_place : ∀ {bs : List Attached}, b ∈ place a bs ↔ b = a ∨ b ∈ bs
  | [] => by simp [place]
  | c :: bs => by
    rw [place]
    split_ifs
    · exact List.mem_cons
    · rw [List.mem_cons, mem_place, List.mem_cons]
      tauto

theorem mem_all : a ∈ g.all ↔ ∃ s, a ∈ g.attached s := by
  rw [all, List.mem_append]
  constructor
  · rintro (h | h)
    · exact ⟨_, h⟩
    · exact ⟨_, h⟩
  · rintro ⟨s, h⟩
    cases s
    · exact Or.inl h
    · exact Or.inr h

theorem mem_all_unset : b ∈ (g.unsetImplier s imp).all ↔ b ∈ g.staying s imp := by
  simp only [mem_all, attached_unset, staying, List.mem_append]
  constructor
  · rintro ⟨t, h⟩
    split_ifs at h with ht
    · exact Or.inl h
    · exact Or.inr (Side.eq_opp_of_ne ht ▸ h)
  · rintro (h | h)
    · exact ⟨s, by rw [if_pos rfl]; exact h⟩
    · exact ⟨s.opp, by rw [if_neg (Side.opp_ne s)]; exact h⟩

theorem mem_all_set : b ∈ (g.setImplier s a).all ↔ b = a ∨ b ∈ g.staying s a.imp := by
  rw [← mem_all_unset, mem_all, mem_all]
  have hat : ∀ t, b ∈ (g.setImplier s a).attached t ↔ (t = s ∧ b = a) ∨
      b ∈ (g.unsetImplier s a.imp).attached t := by
    intro t
    have hset : (g.setImplier s a).attached t =
        if t = s then place a ((g.unsetImplier s a.imp).attached s)
        else (g.unsetImplier s a.imp).attached t := attached_setAttached _
    rw [hset]
    split_ifs with ht
    · subst ht
      simp [mem_place]
    · simp [ht]
  simp only [hat, exists_or, exists_eq_left]

/-- Moved iterators leave the legs of the impliers as they are. -/
theorem legs_move {valid : Side → ℕ → Bool × Bool} (hb : b ∈ (g.move valid).all) :
    ∃ a ∈ g.all, b.legs = a.legs := by
  rcases List.mem_append.mp hb with h | h
  · obtain ⟨a, ha, rfl⟩ := List.mem_map.mp h
    exact ⟨a, List.mem_append_left _ ha, rfl⟩
  · obtain ⟨a, ha, rfl⟩ := List.mem_map.mp h
    exact ⟨a, List.mem_append_right _ ha, rfl⟩

/-- The configuration has the impliers that are attached. -/
theorem imp_of_config {miniTick : ℤ} {i : Implier} (hi : i ∈ (g.config miniTick).impliers s) :
    ∃ a ∈ g.all, a.imp = i := by
  have himp : (g.config miniTick).impliers s = (g.attached s).map Attached.imp := by cases s <;> rfl
  rw [himp] at hi
  obtain ⟨a, ha, rfl⟩ := List.mem_map.mp hi
  exact ⟨a, mem_all.mpr ⟨s, ha⟩, rfl⟩

end Wiring
end Matching
