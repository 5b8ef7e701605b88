import Mathlib.Algebra.Order.BigOperators.Group.List
import Mathlib.Algebra.Order.Group.Nat
import Matching.Engine.Firm
import Matching.Md.Mirror

/-! The view a store gives of its resting orders (`Store.shown`) and the depth of its price levels
    (`Store.depth`): a book that follows the view has the depth of the store as its levels
    (`Follows.mirrored`). The condition is that every order rests in the book its own fields name
    (`Store.Sided`), which orders of one leg do, and that none rests at `STOP_PRICE`. -/

namespace Matching

open Md (Half BasicBook Follows)

/-- The half of the market data that shows the book takers of this side trade against. -/
def Side.half : Side → Half
  | .buy => .ask
  | .sell => .bid

theorem Side.half_inj {s t : Side} (h : s.half = t.half) : s = t := by
  cases s <;> cases t <;> simp_all [half]

namespace Store

/-- What a listener should know of the order `id`: nothing unless it rests. -/
def shown (g : Store) (id : ℕ) : Option Shown :=
  if id ∈ (g.book .buy).ids ∨ id ∈ (g.book .sell).ids then (g.odrMap.find? id).bind Order.shown
  else none

/-- The quantity that rests at a price. -/
def depth (g : Store) (t : Side) (p : ℤ) : ℕ :=
  ((((g.book t).level? p).getD []).map fun id =>
    ((g.odrMap.find? id).map Order.remainQuantity).getD 0).sum

/-- Every resting order belongs to the half of its book. -/
def Sided (g : Store) : Prop :=
  ∀ {t id o}, id ∈ (g.book t).ids → g.odrMap.find? id = some o → o.bookHalf = some t.half

variable {g g' : Store} {t : Side} {id : ℕ} {o : Order}

theorem shown_of_mem (h : id ∈ (g.book t).ids) :
    g.shown id = (g.odrMap.find? id).bind Order.shown := by
  rw [shown, if_pos]
  cases t
  · exact Or.inl h
  · exact Or.inr h

theorem shown_of_notMem (h : ∀ t, id ∉ (g.book t).ids) : g.shown id = none := by
  rw [shown, if_neg]
  rintro (hm | hm)
  · exact h _ hm
  · exact h _ hm

theorem shown_congr (hbook : ∀ t, id ∈ (g'.book t).ids ↔ id ∈ (g.book t).ids)
    (hfind : (∃ t, id ∈ (g.book t).ids) → g'.odrMap.find? id = g.odrMap.find? id) :
    g'.shown id = g.shown id := by
  by_cases hm : ∃ t, id ∈ (g.book t).ids
  · obtain ⟨t, ht⟩ := hm
    rw [shown_of_mem ((hbook t).mpr ht), shown_of_mem ht, hfind ⟨t, ht⟩]
  · rw [shown_of_notMem fun t ht => hm ⟨t, (hbook t).mp ht⟩, shown_of_notMem fun t ht => hm ⟨t, ht⟩]

theorem shown_eq_some {z : Shown} (h : g.shown id = some z) :
    ∃ t o, id ∈ (g.book t).ids ∧ g.odrMap.find? id = some o ∧ o.shown = some z := by
  by_cases hm : ∃ t, id ∈ (g.book t).ids
  · obtain ⟨t, ht⟩ := hm
    rw [shown_of_mem ht, Option.bind_eq_some_iff] at h
    obtain ⟨o, ho, hz⟩ := h
    exact ⟨t, o, ht, ho, hz⟩
  · rw [shown_of_notMem fun t ht => hm ⟨t, ht⟩] at h
    cases h

end Store

theorem Order.Active.calc {o : Order} (h : o.Active) : o.calcRemainQuantity = o.remainQuantity := by
  unfold Order.calcRemainQuantity
  rcases h with h | h <;> simp [h]

theorem Order.calc_of_not_active {o : Order} (h : ¬o.Active) : o.calcRemainQuantity = 0 := by
  unfold Order.calcRemainQuantity
  exact if_pos (not_or.mp h)

/-- An order of one leg belongs to the half of the book it rests in. -/
theorem Order.RestsOn.bookHalf {o : Order} {t : Side} (h : o.RestsOn t)
    (hne : o.side ≠ .buySellStop) :
    o.bookHalf = some t.half := by
  rcases h with h | h | h
  · cases t <;> simp [Order.bookHalf, h, Side.plain, Side.opp, Side.half]
  · cases t <;> simp [Order.bookHalf, h, Side.stop, Side.opp, Side.half]
  · exact absurd h hne

namespace Md

variable {g : Store} {b : BasicBook} {v : ℕ → Option Shown} {hs : List Held} {t : Side} {p : ℤ}
  {id : ℕ} {o : Order}

/-- An order that rests at a price is shown there. -/
theorem shown_of_at (hok : BooksOk g) (hfirm : Firm g hs) (hside : g.Sided) (hp : p ≠ stopPrice)
    (hat : (g.book t).At p id) :
    ∃ o, g.odrMap.find? id = some o ∧ g.shown id = some ⟨t.half, p, o.remainQuantity⟩ := by
  obtain ⟨o, ho, hact⟩ := hfirm.rests hat.mem_ids
  have hr := hok.restsAt hat ho
  refine ⟨o, ho, ?_⟩
  rw [Store.shown_of_mem hat.mem_ids, ho, Option.bind_some, Order.shown_eq_some]
  have hrem := hr.remain
  exact ⟨by rw [hr.price]; exact hp, by rw [hact.calc]; omega, hside hat.mem_ids ho, hr.price.symm,
    hact.calc.symm⟩

/-- An order that is shown on a half at a price rests there. -/
theorem at_of_shown {z : Shown} (hok : BooksOk g) (hside : g.Sided) (hz : g.shown id = some z)
    (ht : z.half = t.half) :
    (g.book t).At z.price id := by
  obtain ⟨u, o, hm, ho, hzo⟩ := Store.shown_eq_some hz
  obtain ⟨_, _, hh, hp, _⟩ := Order.shown_eq_some.mp hzo
  have hu : u = t := Side.half_inj ((Option.some.inj ((hside hm ho).symm.trans hh)).trans ht)
  subst hu
  obtain ⟨q, hat⟩ := Ladder.mem_ids.mp hm
  rw [hp, (hok.restsAt hat ho).price]
  exact hat

/-- A book that follows what the store shows on one side has the depth of the store there. -/
theorem Follows.recorded_depth (hf : Follows b v) (hok : BooksOk g) (hfirm : Firm g hs)
    (hside : g.Sided) (t : Side) (hp : p ≠ stopPrice)
    (hv : ∀ id z, z.half = t.half → (v id = some z ↔ g.shown id = some z)) :
    b.recorded t.half p = g.depth t p := by
  have hmem : ∀ id, id ∈ ((g.book t).level? p).getD [] ↔ (g.book t).At p id := by
    intro id
    rw [← Ladder.has_iff (hok.wf t), Ladder.has, List.contains_iff_mem]
  have hnd : (((g.book t).level? p).getD []).Nodup := by
    rcases hl : (g.book t).level? p with _ | is
    · exact List.nodup_nil
    · exact ((hok.wf t).asc _ (Ladder.mem_of_level? hl)).imp fun h => ne_of_lt h
  rw [hf.recorded_eq t.half p hnd fun id z hz hh hzp => ?_, Store.depth]
  · refine congrArg List.sum (List.map_congr_left fun id hid => ?_)
    obtain ⟨o, ho, hz⟩ := shown_of_at hok hfirm hside hp ((hmem id).mp hid)
    rw [(hv id _ rfl).mpr hz, ho]
    simp [Shown.on]
  · have hat := at_of_shown hok hside ((hv id z hh).mp hz) hh
    rw [hzp] at hat
    exact (hmem id).mpr hat

/-- What a view has of an order of one book does not count for the depth of the other. -/
theorem Follows.recorded_opp {x : Option Shown} {u : Side}
    (hf : Follows b (Function.update g.shown id x)) (hok : BooksOk g) (hfirm : Firm g hs)
    (hside : g.Sided) (hp : p ≠ stopPrice) (hid : id ∈ (g.book u).ids)
    (hx : ∀ y, x = some y → y.half = u.half) :
    b.recorded u.opp.half p = g.depth u.opp p := by
  have hne : u.half ≠ u.opp.half := fun he => Side.opp_ne u (Side.half_inj he).symm
  refine hf.recorded_depth hok hfirm hside u.opp hp fun j z hz => ?_
  rw [Function.update_apply]
  split_ifs with hj
  · subst hj
    refine ⟨fun he => absurd ((hx z he).symm.trans hz) hne, fun he => ?_⟩
    obtain ⟨t, o, hm, ho, hzo⟩ := Store.shown_eq_some he
    have ht : t = u.opp :=
      Side.half_inj
        ((Option.some.inj ((hside hm ho).symm.trans (Order.shown_eq_some.mp hzo).2.2.1)).trans hz)
    exact absurd (ht ▸ hm) (hok.apart hid)
  · exact Iff.rfl

/-- The levels of the book are those of the store, with the quantities that rest there. -/
structure Mirrors (b : BasicBook) (g : Store) : Prop where
  level : ∀ t p, (b.half t.half).find? p ≠ none ↔ ∃ id, (g.book t).At p id
  quantity : ∀ t p x, (b.half t.half).find? p = some x → x.quantity = g.depth t p

theorem depth_pos (hok : BooksOk g) (hfirm : Firm g hs) :
    0 < g.depth t p ↔ ∃ id, (g.book t).At p id := by
  constructor
  · intro h
    rcases hl : (g.book t).level? p with _ | is
    · rw [Store.depth, hl] at h
      exact absurd h (lt_irrefl 0)
    · have hmem := Ladder.mem_of_level? hl
      obtain ⟨id, hid⟩ := List.exists_mem_of_ne_nil _ ((hok.wf t).full _ hmem)
      exact ⟨id, _, hmem, rfl, hid⟩
  · rintro ⟨id, hat⟩
    obtain ⟨o, ho, _⟩ := hfirm.rests hat.mem_ids
    obtain ⟨is, hl, hid⟩ := Ladder.level?_of_at (hok.wf t) hat
    rw [Store.depth, hl]
    have hterm : o.remainQuantity ∈ is.map fun id =>
        ((g.odrMap.find? id).map Order.remainQuantity).getD 0 :=
      List.mem_map.mpr ⟨id, hid, by rw [ho]; rfl⟩
    exact (hok.restsAt hat ho).remain.trans_le
      (List.single_le_sum (fun _ _ => Nat.zero_le _) _ hterm)

/-- A book that follows a store in which nothing rests at `STOP_PRICE` mirrors it. -/
theorem Follows.mirrors (hf : Follows b g.shown) (hok : BooksOk g) (hfirm : Firm g hs)
    (hside : g.Sided) (hstop : ∀ t id, ¬(g.book t).At stopPrice id) : Mirrors b g := by
  have hrec : ∀ t p, b.recorded t.half p = g.depth t p := by
    intro t p
    by_cases hp : p = stopPrice
    · subst hp
      have hzero : g.depth t stopPrice = 0 := by
        by_contra hne
        obtain ⟨id, hat⟩ := (depth_pos hok hfirm).mp (Nat.pos_of_ne_zero hne)
        exact hstop t id hat
      rw [hzero, hf.recorded_eq t.half stopPrice List.nodup_nil fun id z hz _ hp => ?_]
      · rfl
      · obtain ⟨_, _, _, _, hzo⟩ := Store.shown_eq_some hz
        obtain ⟨hne, _, _, hzp, _⟩ := Order.shown_eq_some.mp hzo
        exact absurd (hzp.symm.trans hp) hne
    · exact hf.recorded_depth hok hfirm hside t hp fun _ _ _ => Iff.rfl
  have hfind : ∀ t p, (b.half t.half).find? p = levelAt t.half p (g.depth t p) := fun t p => by
    rw [hf.sums.shows t.half p, ← hrec]
    rfl
  refine ⟨fun t p => ?_, fun t p x hx => ?_⟩
  · rw [hfind, levelAt, ← depth_pos hok hfirm]
    split_ifs with h0
    · simp [h0]
    · simp [Nat.pos_of_ne_zero h0]
  · rw [hfind, levelAt] at hx
    split_ifs at hx
    rw [← Option.some.inj hx]

end Md
end Matching
