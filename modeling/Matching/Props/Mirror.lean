import Matching.Md.Listen

/-! The market data book of an engine without impliers is the engine's own book, over whole runs of
    orders of one leg: the same prices, and at every price the quantity that rests there. It breaks
    where an order comes to rest that the reports do not tell: a taker that has traded and is given
    a price as it rests, a level of 2^64 and more, an order that rests at `STOP_PRICE`. And it
    breaks where a request that is turned away is reported under the id of an order that rests. -/

namespace Matching

open Md (Half BasicBook BookItem Follows Mirrors)

/-- The execution leaves an order as it was reported, or none. -/
structure Exec.Mirrored (x : Exec) : Prop where
  heard : x.Heard
  priced : x.fate ≠ .rested stopPrice

instance (x : Exec) : Decidable x.Mirrored :=
  decidable_of_iff (x.Heard ∧ x.fate ≠ .rested stopPrice) ⟨fun h => ⟨h.1, h.2⟩, fun h => ⟨h.1, h.2⟩⟩

/-- A request that is turned away names no order that a listener knows. -/
def Order.Unnamed (q : Order) (g : Store) : Prop :=
  q.BadAmend ∨ q.Stray → q.price ≠ stopPrice → g.shown q.orderId = none

instance (q : Order) (g : Store) : Decidable (q.Unnamed g) :=
  inferInstanceAs (Decidable (_ → _ → _))

variable {w0 w w' : World} {e : ℕ} {q : Order}

/-- Between two calls the book follows the store, in which nothing rests at `STOP_PRICE`. -/
structure World.Mirrored (w0 w : World) (e : ℕ) : Prop where
  leads : w0.Leads w e
  listens : w.Listens e
  unstopped : (w.store e).Unstopped

theorem handle_mirrored (ht : q.IsTrade) (hside : q.side ≠ .buySellStop)
    (hq : q.Unnamed (w.store e)) (hm : w0.Mirrored w e) (h : handle w e q = .ok w')
    (hgood : ∀ z ∈ w'.execs, z.Mirrored) : w0.Mirrored w' e := by
  have hl := hm.listens
  obtain ⟨hleads, hl'⟩ := handle_leads
    ⟨⟨fun _ => hm.unstopped.finds (hl.ordered e) And.right _, hq⟩, ht, hside⟩ hl h
    fun z hz => (hgood z (List.mem_of_mem_drop hz)).heard
  have hallowed : q.Allowed Terms.Plain w.nextId := fun i hi => ⟨hl.positive.trans_le hi, hside⟩
  exact ⟨hm.leads.trans hleads, hl', hm.unstopped.enters
    (handle_enters ht hallowed hl.ordered hl.alone h fun z _ => Exec.oneLeg) fun z hz =>
      (hgood z hz).priced⟩

theorem World.Fresh.mirrored (h : w0.Fresh) (hn : 0 < w0.nextId)
    (hi : ∀ t, (w0.conf e).impliers t = []) : w0.Mirrored w0 e :=
  ⟨World.Leads.refl w0 e, h.listens hn hi, h.unstopped e⟩

/-- After every run of trading requests for orders of one leg, on an engine without
    impliers, whose executions and requests are such, the book that was fed every report has
    the levels of the engine's books with the quantities that rest there, and it has never
    reduced a level below what it held. -/
theorem book_mirrors (w0 : World) (e : ℕ) (h0 : w0.Fresh) (hn : 0 < w0.nextId)
    (hi : ∀ t, (w0.conf e).impliers t = []) (qs : List Order)
    (hqs : ∀ q ∈ qs, q.IsTrade ∧ q.side ≠ .buySellStop)
    (hreq : RunsAlong World.call (fun w x => x.2.Unnamed (w.store e)) w0 (qs.map (Prod.mk e)))
    (w : World) (h : run w0 (qs.map (Prod.mk e)) = .ok w) (hex : ∀ z ∈ w.execs, z.Mirrored) :
    Mirrors (BasicBook.empty.feed (w.heardBy e)) (w.store e) ∧
      (BasicBook.empty.feed (w.heardBy e)).Backed := by
  have hplain : RunsAlong World.call (fun _ x => x.1 = e ∧ x.2.side ≠ .buySellStop) w0
      (qs.map (Prod.mk e)) :=
    RunsAlong.of_forall _ fun x hx _ => by
      obtain ⟨q, hq, rfl⟩ := List.mem_map.mp hx
      exact ⟨rfl, (hqs q hq).2⟩
  have htrade : ∀ x ∈ qs.map (Prod.mk e), x.2.IsTrade := fun x hx => by
    obtain ⟨q, hq, rfl⟩ := List.mem_map.mp hx
    exact (hqs q hq).1
  have hend : w0.Mirrored w e := by
    refine run_along (I := fun v => w0.Mirrored v e)
      (fun {v v' l q} ht hok hv hgood hI => ?_) _ htrade (hplain.and _ hreq) h hex
      (h0.mirrored hn hi)
    obtain ⟨⟨rfl, hside⟩, hun⟩ := hok
    exact handle_mirrored ht hside hun hI hv hgood
  obtain ⟨os, hos, hf⟩ := hend.leads
  have hheard : w.heardBy e = os := by
    rw [hos, World.heardBy, h0.reports]
    rfl
  have hstart : Follows BasicBook.empty (w0.store e).shown :=
    Follows.empty.congr fun id => (h0.shown e id).symm
  have hfol := hf _ hstart
  have hok := hend.listens.ordered e
  rw [hheard]
  exact ⟨hfol.mirrors hok.books (hend.listens.firm e) hok.sided hend.unstopped, hfol.sums.backed⟩

/-- Two orders to sell, one of which is taken, and one to buy. -/
def threeLimits : List Order :=
  [{ Order.default with side := .sell, price := 101, quantity := 4 },
    { Order.default with side := .sell, price := 100, quantity := 5 },
    { Order.default with price := 100, quantity := 8 }]

theorem book_mirrors_threeLimits :
    ∃ w, run (World.start 1 1000) (threeLimits.map (Prod.mk 0)) = .ok w ∧
      Mirrors (BasicBook.empty.feed (w.heardBy 0)) (w.store 0) ∧
      (BasicBook.empty.feed (w.heardBy 0)).Backed :=
  ⟨_, rfl, book_mirrors (World.start 1 1000) 0 (World.start_fresh 1 1000) (by decide)
    (fun t => by cases t <;> rfl) threeLimits (by decide) (by decide) _ rfl (by decide)⟩

/-- An order to sell, one to buy, and a market order to buy that takes the first and
    rests beside the second. -/
def marketRest : List Order :=
  [{ Order.default with side := .sell, price := 100, quantity := 5 },
    { Order.default with price := 99, quantity := 1 },
    { Order.default with type := .market, price := marketPrice, quantity := 8 }]

/-- The rest of the market order is at 99 in the engine, where the market
    data has one of the four. -/
theorem marketRest_unmirrored : ∃ w, run (World.start 1 1000) (marketRest.map (Prod.mk 0)) = .ok w ∧
    (w.store 0).depth .sell 99 = 4 ∧
    ((BasicBook.empty.feed (w.heardBy 0)).bid.find? 99).map BookItem.quantity = some 1 ∧
    ¬Mirrors (BasicBook.empty.feed (w.heardBy 0)) (w.store 0) := by
  refine ⟨_, rfl, rfl, rfl, fun h => ?_⟩
  have hq := h.quantity .sell 99 _ rfl
  exact absurd hq (by decide)

end Matching
