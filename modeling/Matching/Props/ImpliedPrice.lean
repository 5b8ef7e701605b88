import Matching.Engine.Exec
import Matching.Md.Pass

/-! The price of an implied order, in the engine and in the market data. `matcher::top` and
    `handle_implied` combine the first orders of the two legs with the same implier and then keep
    the result off the best price of the taker's own side. The engine moves a price that is strictly
    beyond that best price, the market data also one that is equal to it, and only the engine knows
    `MARKET_PRICE`. -/

namespace Matching

open Md

/-- Sellers trade with implied bids, buyers with implied asks. -/
def Side.impliedHalf : Side → Half
  | .sell => .bid
  | .buy => .ask

/-- The price `matcher::top` finds for a taker of side `s` of engine `e`, if there is one. -/
def World.topPrice? (w : World) (e : ℕ) (s : Side) : Except Fault (Option ℤ) := do
  let m ← Matcher.reset w e s
  let t ← m.top w
  return if t.price = marketPrice then none else some t.price

/-- The price of the first level `handle_implied` makes, if it makes one. -/
def Md.firstImplied (h : Half) (leg1 leg2 : List (ℤ × ℕ)) (outright : BasicBook)
    (ip : ℤ → ℤ → ℤ → ℤ) (miniTick : ℤ) : Option ℤ :=
  (impliedWalk h ip (outright.best? h.opp) miniTick (leg1.length + leg2.length) leg1 leg2).head?.map
    Prod.fst

/-- The same best prices on both sides: in the engine an empty opposite book, one implier
    `i` and the legs' first orders `m1` and `m2`, in the market data the levels of the legs
    and the outright book. -/
structure SameBest (w : World) (e : ℕ) (s : Side) (i : Implier) (m1 m2 : Order)
    (leg1 leg2 : List (ℤ × ℕ)) (outright : BasicBook) : Prop where
  opposite : (w.store e).book s = []
  implier : (w.conf e).impliers s = [i]
  front1 : Front w i.leg1.1 i.leg1.2 m1
  front2 : Front w i.leg2.1 i.leg2.2 m2
  level1 : leg1.head?.map Prod.fst = some m1.price
  level2 : leg2.head?.map Prod.fst = some m2.price
  own : outright.best? s.impliedHalf.opp =
    if w.ownPrice e s = marketPrice then none else some (w.ownPrice e s)

variable {w : World} {e : ℕ} {s : Side} {i : Implier} {m1 m2 : Order} {leg1 leg2 : List (ℤ × ℕ)}
variable {outright : BasicBook} {own tick price : ℤ}

/-! ### The two clamps -/

theorem toI64_ne {x y : ℤ} (h : 0 < x - y ∧ x - y < 2 ^ 63 ∨ 0 < y - x ∧ y - x < 2 ^ 63) :
    toI64 x ≠ y := by
  intro hxy
  have hmod : y % (2 ^ 64 : ℕ) = x % (2 ^ 64 : ℕ) := by
    rw [← hxy]
    exact Int.bmod_emod
  omega

/-- One tick off the best price is another price. -/
theorem beyondOwn_ne (s : Side) (own : ℤ) (h0 : 0 < tick) (h1 : tick < 2 ^ 63) :
    Matcher.beyondOwn s own tick ≠ own := by
  cases s
  · exact toI64_ne (Or.inl (by omega))
  · exact toI64_ne (Or.inr (by omega))

/-- The engine's implied price: the combined price, unless it is strictly
    beyond the own side's best. -/
def engineClamp (s : Side) (own tick price : ℤ) : ℤ :=
  if own ≠ marketPrice ∧ s.cmp price own then Matcher.beyondOwn s own tick else price

/-- The market data's implied price in the engine's terms. -/
theorem clamp_own (s : Side) (own tick price : ℤ) :
    clamp s.impliedHalf (if own = marketPrice then none else some own) tick price =
      if own ≠ marketPrice ∧ (s.cmp price own ∨ price = own) then Matcher.beyondOwn s own tick
      else price := by
  by_cases hown : own = marketPrice
  · cases s <;> simp [clamp, Side.impliedHalf, hown]
  · rw [if_neg hown]
    cases s
    · simp only [clamp, Side.impliedHalf, Side.cmp, Matcher.beyondOwn, decide_eq_true_eq]
      exact if_congr (by omega) rfl rfl
    · simp only [clamp, Side.impliedHalf, Side.cmp, Matcher.beyondOwn, decide_eq_true_eq]
      exact if_congr (by omega) rfl rfl

/-- The clamps differ on the own side's best price and nowhere else. -/
theorem engineClamp_eq_iff (h0 : 0 < tick) (h1 : tick < 2 ^ 63) (hprice : price ≠ marketPrice) :
    engineClamp s own tick price =
      clamp s.impliedHalf (if own = marketPrice then none else some own) tick price ↔
      price ≠ own := by
  rw [clamp_own, engineClamp]
  by_cases heq : price = own
  · subst heq
    have hirr : s.cmp price price = false := StrictLt.irrefl price
    simp only [hirr, Bool.false_eq_true, and_false, if_false, or_true, and_true, ne_eq, hprice,
      not_false_eq_true, if_true, not_true_eq_false, iff_false]
    exact fun h => beyondOwn_ne s price h0 h1 h.symm
  · simp only [heq, or_false, ne_eq, not_false_eq_true]

/-! ### The two prices -/

theorem SameBest.topPrice?_eq (h : SameBest w e s i m1 m2 leg1 leg2 outright) (hok : w.Ok)
    (hlive : w.Live) (hprice : i.matchdPrice m1.price m2.price (w.conf e).miniTick = price) :
    w.topPrice? e s =
      .ok (if price = marketPrice ∨
          engineClamp s (w.ownPrice e s) (w.conf e).miniTick price = marketPrice then none
        else some (engineClamp s (w.ownPrice e s) (w.conf e).miniTick price)) := by
  have hf : Fronts w e s := Fronts.of_live hok hlive
  have hoffer : w.offer e s =
      if price = marketPrice then ⟨none, marketPrice, 0⟩
      else ⟨some 0, engineClamp s (w.ownPrice e s) (w.conf e).miniTick price,
        min m1.remainQuantity m2.remainQuantity⟩ := by
    have hloc : (w.front e s).cur = none := by simp [World.front, World.cursor, h.opposite]
    simp only [World.offer, World.matcher, Matcher.pureTop, h.implier, List.map_cons, List.map_nil,
      Matcher.pureLoop, Matcher.pureStep, hloc, h.front1.front, h.front2.front, hprice,
      Option.map_none, Option.getD_none,
      Iter.topMatchingQuantity, true_or, if_true, engineClamp, min_def_lt]
  simp only [World.topPrice?, Matcher.reset_eq hf.src, World.top_matcher hok hf, ok_bind, hoffer,
    pure, Except.pure]
  by_cases hm : price = marketPrice
  · simp [hm]
  · simp [hm]

theorem SameBest.firstImplied_eq (h : SameBest w e s i m1 m2 leg1 leg2 outright) :
    firstImplied s.impliedHalf leg1 leg2 outright i.matchdPrice tick =
      some (clamp s.impliedHalf
        (if w.ownPrice e s = marketPrice then none else some (w.ownPrice e s)) tick
        (i.matchdPrice m1.price m2.price tick)) := by
  rw [firstImplied, h.own]
  obtain ⟨h1, h2⟩ := And.intro h.level1 h.level2
  rcases leg1 with _ | ⟨⟨p1, q1⟩, leg1⟩
  · cases h1
  rcases leg2 with _ | ⟨⟨p2, q2⟩, leg2⟩
  · cases h2
  obtain rfl : p1 = m1.price := Option.some.inj h1
  obtain rfl : p2 = m2.price := Option.some.inj h2
  simp only [List.length_cons,
    show leg1.length + 1 + (leg2.length + 1) = (leg1.length + leg2.length + 1) + 1 by omega,
    impliedWalk, List.head?_cons, Option.map_some]

/-- With the same best prices the engine executes the implied order at the price of the first
    implied level exactly when the implier's price is no `MARKET_PRICE`, not the own side's best
    price, and, where it is beyond that, the own side's best price moved by a tick is no
    `MARKET_PRICE`. -/
theorem implied_price_agrees_iff (hok : w.Ok) (hlive : w.Live) (h0 : 0 < (w.conf e).miniTick)
    (h1 : (w.conf e).miniTick < 2 ^ 63) (h : SameBest w e s i m1 m2 leg1 leg2 outright)
    (hprice : i.matchdPrice m1.price m2.price (w.conf e).miniTick = price) :
    w.topPrice? e s =
      .ok (firstImplied s.impliedHalf leg1 leg2 outright i.matchdPrice (w.conf e).miniTick) ↔
      price ≠ marketPrice ∧ price ≠ w.ownPrice e s ∧
        (w.ownPrice e s ≠ marketPrice → s.cmp price (w.ownPrice e s) →
          Matcher.beyondOwn s (w.ownPrice e s) (w.conf e).miniTick ≠ marketPrice) := by
  rw [h.topPrice?_eq hok hlive hprice, h.firstImplied_eq, hprice, Except.ok.injEq]
  set own := w.ownPrice e s
  set tick := (w.conf e).miniTick
  by_cases hm : price = marketPrice
  · simp [hm]
  have hne : engineClamp s own tick price = marketPrice ↔
      own ≠ marketPrice ∧ s.cmp price own ∧ Matcher.beyondOwn s own tick = marketPrice := by
    unfold engineClamp
    split_ifs with hc
    · exact ⟨fun h => ⟨hc.1, hc.2, h⟩, fun h => h.2.2⟩
    · exact ⟨fun h => absurd h hm, fun h => absurd ⟨h.1, h.2.1⟩ hc⟩
  by_cases hc : engineClamp s own tick price = marketPrice
  · obtain ⟨hown, hcmp, h3⟩ := hne.mp hc
    exact iff_of_false (by simp [hc]) (fun h => h.2.2 hown hcmp h3)
  · simp only [hm, hc, or_self, if_false, Option.some.injEq, ne_eq, not_false_eq_true, true_and]
    rw [engineClamp_eq_iff h0 h1 hm]
    exact ⟨fun h => ⟨h, fun hown hcmp h3 => hc (hne.mpr ⟨hown, hcmp, h3⟩)⟩, And.left⟩

/-! ### Two legs at 50 -/

/-- Asks at the sum of the asks of engines 1 and 2. -/
def sumImplier : Implier := ⟨1, (1, .buy), (2, .buy), fun a b _ => a + b⟩

/-- Engine 0 implies them. -/
def sumLegs : World :=
  { World.start 1 1000 with
    engines := fun l =>
      { (World.start 1 1000).engines l with askImpliers := if l = 0 then [sumImplier] else [] } }

/-- A sell order at 50 in each leg. -/
def twoAsks : World :=
  (sumLegs.rest 1 .sell .arg (.resting 7 .sell 50 1)).rest 2 .sell .arg (.resting 8 .sell 50 1)

theorem sumLegs_ok : sumLegs.Ok ∧ sumLegs.Live := by
  refine ⟨fun _ => BooksOk.empty _ _ _, fun l s p id h => ?_⟩
  cases s <;> simp [sumLegs, World.start, World.store, Store.book] at h

theorem twoAsks_ok : twoAsks.Ok ∧ twoAsks.Live := by
  have h1 : sumLegs.Free 1 .arg (.resting 7 .sell 50 1) :=
    ⟨fun _ h => (by cases h), fun _ => ⟨rfl, fun t => by cases t <;> exact List.not_mem_nil⟩⟩
  have h2 : (sumLegs.rest 1 .sell .arg (.resting 7 .sell 50 1)).Free 2 .arg
      (.resting 8 .sell 50 1) :=
    ⟨fun _ h => (by cases h), fun _ => ⟨rfl, fun t => by cases t <;> exact List.not_mem_nil⟩⟩
  exact ⟨World.ok_rest h2 (OffBook.arg _ _)
      (World.ok_rest h1 (OffBook.arg _ _) sumLegs_ok.1 (by decide) (by decide)) (by decide)
      (by decide), World.live_rest h2 (World.live_rest h1 sumLegs_ok.2)⟩

theorem twoAsks_sameBest :
    SameBest twoAsks 0 .buy sumImplier (.resting 7 .sell 50 1) (.resting 8 .sell 50 1) [(50, 1)]
      [(50, 1)] .empty :=
  ⟨rfl, rfl, ⟨⟨[], [], rfl⟩, rfl, by decide, by decide⟩, ⟨⟨[], [], rfl⟩, rfl, by decide, by decide⟩,
    rfl, rfl, rfl⟩

theorem implied_price_agrees_iff_twoAsks :
    twoAsks.topPrice? 0 .buy =
      .ok (firstImplied .ask [(50, 1)] [(50, 1)] .empty sumImplier.matchdPrice 1) ↔
      (100 : ℤ) ≠ marketPrice ∧ 100 ≠ twoAsks.ownPrice 0 .buy ∧
        (twoAsks.ownPrice 0 .buy ≠ marketPrice →
        Side.cmp .buy 100 (twoAsks.ownPrice 0 .buy) →
          Matcher.beyondOwn .buy (twoAsks.ownPrice 0 .buy) 1 ≠ marketPrice) :=
  implied_price_agrees_iff twoAsks_ok.1 twoAsks_ok.2 (by decide) (by decide) twoAsks_sameBest rfl

/-- The same with a buy order at 100 in engine 0. -/
def touchedAsks : World := twoAsks.rest 0 .buy .arg (.resting 9 .buy 100 1)

/-- The outright book with that buy order. -/
def touchedBook : BasicBook := (BasicBook.empty.handleOdr (.resting 9 .buy 100 1)).1

theorem touchedAsks_ok : touchedAsks.Ok ∧ touchedAsks.Live := by
  have h : twoAsks.Free 0 .arg (.resting 9 .buy 100 1) :=
    ⟨fun _ h => (by cases h), fun _ => ⟨rfl, fun t => by cases t <;> exact List.not_mem_nil⟩⟩
  exact ⟨World.ok_rest h (OffBook.arg _ _) twoAsks_ok.1 (by decide) (by decide),
    World.live_rest h twoAsks_ok.2⟩

/-- Where the legs' sum is the best bid, the engine executes at it and the market data
    publishes one tick above. -/
theorem touchedAsks_disagrees :
    touchedAsks.Ok ∧ touchedAsks.Live ∧ (touchedAsks.conf 0).miniTick = 1 ∧
      SameBest touchedAsks 0 .buy sumImplier (.resting 7 .sell 50 1) (.resting 8 .sell 50 1)
        [(50, 1)] [(50, 1)] touchedBook ∧
      touchedAsks.topPrice? 0 .buy = .ok (some 100) ∧
      firstImplied .ask [(50, 1)] [(50, 1)] touchedBook sumImplier.matchdPrice 1 = some 101 := by
  refine ⟨touchedAsks_ok.1, touchedAsks_ok.2, by decide,
    ⟨rfl, rfl, ⟨⟨[], [], rfl⟩, rfl, by decide, by decide⟩,
      ⟨⟨[], [], rfl⟩, rfl, by decide, by decide⟩, rfl, rfl, by decide⟩,
    by decide +kernel, by decide +kernel⟩

end Matching
