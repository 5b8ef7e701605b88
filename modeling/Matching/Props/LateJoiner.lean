import Matching.Md.Snapshot
import Matching.Props.Mirror

/-! A client that connects late. The recovery gives it the orders as they are, a client from the
    start has them as they were reported; if the reports before the connection can be followed, both
    have the same levels and the same quantities on record, and so they do after every later report.
    It breaks where a report gave another price than the one the order came to rest at. -/

namespace Matching

open Md (Half BasicBook Follows Twin)

variable {w0 w1 w2 : World} {e : ℕ} {os : List Order}

/-- A request whose reports can be followed leads the book of a client that was fed all reports. -/
theorem run_leads (qs : List Order) (hqs : ∀ q ∈ qs, q.IsTrade ∧ q.side ≠ .buySellStop)
    (hl : w0.Listens e)
    (hreq : RunsAlong World.call (fun w x => x.2.Plain (w.store e)) w0 (qs.map (Prod.mk e)))
    (h : run w0 (qs.map (Prod.mk e)) = .ok w1) (hex : ∀ z ∈ w1.execs, z.Heard) :
    w0.Leads w1 e ∧ w1.Listens e := by
  have hplain : RunsAlong World.call (fun _ x => x.1 = e ∧ x.2.side ≠ .buySellStop) w0
      (qs.map (Prod.mk e)) :=
    RunsAlong.of_forall _ fun x hx _ => by
      obtain ⟨q, hq, rfl⟩ := List.mem_map.mp hx
      exact ⟨rfl, (hqs q hq).2⟩
  have htrade : ∀ x ∈ qs.map (Prod.mk e), x.2.IsTrade := fun x hx => by
    obtain ⟨q, hq, rfl⟩ := List.mem_map.mp hx
    exact (hqs q hq).1
  refine run_along (I := fun v => w0.Leads v e ∧ v.Listens e)
    (fun {v v' l q} ht hok hv hgood hI => ?_) _ htrade (hplain.and _ hreq) h hex
    ⟨World.Leads.refl w0 e, hl⟩
  obtain ⟨⟨rfl, hside⟩, hq⟩ := hok
  obtain ⟨hleads, hl'⟩ :=
    handle_leads ⟨hq, ht, hside⟩ hI.2 hv fun z hz => hgood z (List.mem_of_mem_drop hz)
  exact ⟨hI.1.trans hleads, hl'⟩

/-- For every run of trading requests for orders of one leg, on an engine without impliers, whose
    executions and requests before the connection are such, whatever is requested after it: the
    recovery and the later reports give the levels that all reports give. -/
theorem late_joiner_agrees (w0 : World) (e : ℕ) (h0 : w0.Fresh) (hn : 0 < w0.nextId)
    (hi : ∀ t, (w0.conf e).impliers t = []) (qs : List Order)
    (hqs : ∀ q ∈ qs, q.IsTrade ∧ q.side ≠ .buySellStop)
    (hreq : RunsAlong World.call (fun w x => x.2.Plain (w.store e)) w0 (qs.map (Prod.mk e)))
    (w1 : World) (h1 : run w0 (qs.map (Prod.mk e)) = .ok w1) (hex : ∀ z ∈ w1.execs, z.Heard)
    (os : List Order) (hos : (w1.store e).Recovery os) (later : List Order)
    (hlater : ∀ q ∈ later, q.IsTrade) (w2 : World) (h2 : run w1 (later.map (Prod.mk e)) = .ok w2) :
    ∃ ds, w2.heardBy e = w1.heardBy e ++ ds ∧
      ∀ h, (((BasicBook.empty.feed os).feed ds).half h) =
        (BasicBook.empty.feed (w2.heardBy e)).half h := by
  obtain ⟨⟨rs, hrs, hleads⟩, hl⟩ := run_leads qs hqs (h0.listens hn hi) hreq h1 hex
  obtain ⟨ds, hds⟩ := run_heard later hlater hl.idle h2
  have hheard : w1.heardBy e = rs := by
    rw [hrs, World.heardBy, h0.reports]
    rfl
  have hearly : Follows (BasicBook.empty.feed rs) (w1.store e).shown :=
    hleads _ (Follows.empty.congr fun id => (h0.shown e id).symm)
  have hlate : Follows (BasicBook.empty.feed os) (w1.store e).shown :=
    hl.recovers Follows.empty (fun _ _ hz => by cases hz)
      ⟨fun _ _ hx => (by cases hx), hearly.room (BasicBook.narrow_empty.feed rs)⟩ hos
  refine ⟨ds, hds, fun h => ?_⟩
  rw [hds, hheard, BasicBook.feed_append]
  exact ((hlate.twin hearly).feed ds).half h

/-- An order to sell, one to buy that takes it and rests with what is left, and a
    stop to buy that waits. -/
def restAndStop : List Order :=
  [{ Order.default with side := .sell, price := 100, quantity := 5 },
    { Order.default with price := 100, quantity := 8 },
    { Order.default with
      side := .buyStop, quantity := 2, buyStopTriggerPrice := 105, buyStopLimitPrice := 106 }]

/-- An order to sell that wakes it. -/
def lateSeller : Order := { Order.default with side := .sell, price := 106, quantity := 1 }

/-- A client that connects between the two. -/
theorem late_joiner_agrees_restAndStop :
    ∃ w1 w2, run (World.start 1 1000) (restAndStop.map (Prod.mk 0)) = .ok w1 ∧
      run w1 ([lateSeller].map (Prod.mk 0)) = .ok w2 ∧ ∃ ds, w2.heardBy 0 = w1.heardBy 0 ++ ds ∧
      ∀ h, (((BasicBook.empty.feed ((w1.store 0).odrMap.entries.map Prod.snd)).feed ds).half h) =
        (BasicBook.empty.feed (w2.heardBy 0)).half h := by
  have hnew : ∀ x ∈ restAndStop.map (Prod.mk 0), x.2.orderAction = .new ∧ ¬x.2.Stray := by decide
  have hreq : RunsAlong World.call (fun w x => x.2.Plain (w.store 0)) (World.start 1 1000)
      (restAndStop.map (Prod.mk 0)) :=
    RunsAlong.of_forall _ fun x hx w => by
      obtain ⟨ha, hs⟩ := hnew x hx
      refine ⟨fun hne => absurd ha hne, fun hbad => ?_⟩
      rcases hbad with hb | hb
      · exact absurd (ha.symm.trans hb.1) (by decide)
      · exact absurd hb hs
  have hcalls : (run (World.start 1 1000) (restAndStop.map (Prod.mk 0))).bind
      (fun w1 => (run w1 ([lateSeller].map (Prod.mk 0))).map fun _ =>
        decide (∀ z ∈ w1.execs, z.Heard)) = .ok true := by decide +kernel
  obtain ⟨w1, h1, hcall⟩ := bind_ok.mp hcalls
  obtain ⟨w2, h2, hex⟩ := map_ok.mp hcall
  exact ⟨w1, w2, h1, h2,
    late_joiner_agrees (World.start 1 1000) 0 (World.start_fresh 1 1000) (by decide)
      (fun t => by cases t <;> rfl) restAndStop (by decide) hreq w1 h1 (of_decide_eq_true hex) _
      (List.Perm.refl _) [lateSeller] (by decide) w2 h2⟩

/-- The market order that comes to rest at 99 was last reported with three left at another
    price: a client that connects then has four at 99, one from the start has one, and so it
    is after the next request. -/
theorem late_joiner_differs :
    ∃ w1 w2 os, run (World.start 1 1000) (marketRest.map (Prod.mk 0)) = .ok w1 ∧
      (w1.store 0).Recovery os ∧
      run w1 ([lateSeller].map (Prod.mk 0)) = .ok w2 ∧ ∀ ds, w2.heardBy 0 = w1.heardBy 0 ++ ds →
      ((BasicBook.empty.feed os).feed ds).bid ≠ (BasicBook.empty.feed (w2.heardBy 0)).bid := by
  have hcalls : (run (World.start 1 1000) (marketRest.map (Prod.mk 0))).bind
      (fun w1 => (run w1 ([lateSeller].map (Prod.mk 0))).map fun w2 =>
        (((BasicBook.empty.feed ((w1.store 0).odrMap.entries.map Prod.snd)).feed
            ((w2.heardBy 0).drop (w1.heardBy 0).length)).bid.qty 99,
          (BasicBook.empty.feed (w2.heardBy 0)).bid.qty 99)) = .ok (4, 1) := by decide +kernel
  obtain ⟨w1, h1, hcall⟩ := bind_ok.mp hcalls
  obtain ⟨w2, h2, hval⟩ := map_ok.mp hcall
  obtain ⟨hlate, hearly⟩ := Prod.mk.inj hval
  refine ⟨w1, w2, _, h1, List.Perm.refl _, h2, fun ds hds heq => ?_⟩
  rw [hds, List.drop_left, heq, hearly] at hlate
  cases hlate

end Matching
