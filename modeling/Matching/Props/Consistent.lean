import Matching.Engine.Placed
import Matching.Engine.Progress

/-! The order map and the four books of an engine without impliers say the same: every order is in
    exactly the books its fields name, every entry points to an order, and no level is empty.
    Whatever was requested, this is so after every call of a run in which each taker lands well. A
    stop that is filled or cancelled when it is activated does not: it stays in the map, in no book,
    and its cancellation looks for a level that is not there. -/

namespace Matching

variable {w w' w0 : World} {e : ℕ} {q : Order}

/-- Every order of the map is in exactly the books its fields name, every entry of a book points to
    an order, no level is empty, and `handle_cancel` finds the levels it looks for. -/
structure Store.Consistent (g : Store) : Prop where
  waiting : ∀ {id o}, g.odrMap.find? id = some o → o.price = stopPrice → o.stopSides ≠ [] →
    (∀ s p, (g.stops s).At p id ↔ s ∈ o.stopSides ∧ p = o.stopTrigger s) ∧
      ∀ t p, ¬(g.book t).At p id
  resting : ∀ {id o}, g.odrMap.find? id = some o → ¬(o.price = stopPrice ∧ o.stopSides ≠ []) →
    (∃ t, ∀ u p, (g.book u).At p id ↔ u = t ∧ p = o.price) ∧ ∀ s p, ¬(g.stops s).At p id
  entries : ∀ {id t p}, (g.book t).At p id ∨ (g.stops t).At p id →
    ∃ o, g.odrMap.find? id = some o ∧ o.orderId = id ∧ 0 < o.remainQuantity
  levels : ∀ t, (∀ l ∈ g.book t, l.2 ≠ []) ∧ ∀ l ∈ g.stops t, l.2 ≠ []
  reached : ∀ {id o}, g.odrMap.find? id = some o → g.Reaches o

/-- Every order of an engine without impliers has its place, between two small steps. -/
structure Housed (e : ℕ) (x : World × List Held) : Prop where
  lone : Lone (fun _ _ => True) e x
  firm : x.1.FirmAt e x.2
  placed : Placed (x.1.store e) x.2

namespace Housed

variable {x y : World × List Held}

theorem step (h : Housed e x) (hs : Step e q x y) (hgood : ∀ z ∈ y.1.execs, z.Lands) :
    Housed e y := by
  have hone : ∀ z ∈ y.1.execs, True → z.OneLeg := fun z hz _ => (hgood z hz).oneLeg
  exact ⟨hs.lone trivial hone h.lone, hs.firm trivial hone h.lone.sound h.firm,
    hs.placed trivial hgood h.lone h.placed⟩

theorem opening (h : Housed e (w, [])) (ho : Opening e q w y) : Housed e y :=
  ⟨ho.lone h.lone, ho.firm h.lone.sound h.firm fun _ _ _ _ hf hat => h.placed.found hat hf,
    ho.placed h.lone.sound.stores.self (ho.lone h.lone).sound h.placed⟩

theorem congr (h : Housed e (w, [])) (hst : ∀ l, w'.store l = w.store l)
    (hc : ∀ l, w'.conf l = w.conf l) (hn : w'.nextId = w.nextId) :
    Housed e (w', []) :=
  ⟨h.lone.congr hst hc hn, h.firm.congr hst, (hst e).symm ▸ h.placed⟩

theorem handle (h : Housed e (w, [])) (ht : q.IsTrade) (hh : handle w e q = .ok w')
    (hgood : ∀ z ∈ w'.execs, z.Lands) :
    Housed e (w', []) :=
  handle_induct (I := Housed e) ht (fun hst hc hn hv => hv.congr hst hc hn)
    (fun ho hv => hv.opening ho) (fun hs hg hx => hx.step hs hg) hh hgood h

theorem start (h0 : w0.Fresh) (hi : ∀ t, (w0.conf e).impliers t = []) : Housed e (w0, []) := by
  refine ⟨(h0.ordered _).lone hi, fun l => ?_, ?_⟩
  · show Firm (w0.store l) _
    rw [h0.store, ite_self]
    exact Firm.empty
  · show Placed (w0.store e) []
    rw [h0.store]
    exact Placed.empty

/-- Between two calls an order rests in one price book, or it waits on all its sides. -/
theorem where_is {id : ℕ} {o : Order} (h : Housed e (w, []))
    (ho : (w.store e).odrMap.find? id = some o) :
    (∃ t, o.lookup = .inl t ∧ ∀ u p, ((w.store e).book u).At p id ↔ u = t ∧ p = o.price) ∧
      (∀ s, id ∉ ((w.store e).stops s).ids) ∨
      (o.price = stopPrice ∧ o.stopSides ≠ [] ∧ o.lookup = .inr o.stopSides ∧
        ∀ s p, ((w.store e).stops s).At p id ↔ s ∈ o.stopSides ∧ p = o.stopTrigger s) ∧
          ∀ t, id ∉ ((w.store e).book t).ids := by
  have hok : StoreOk (fun _ _ => True) (w.store e) w.nextId [] := h.lone.sound.stores.self
  have hplaced : Placed (w.store e) [] := h.placed
  have hact := (hplaced.active ho).resolve_right (by simp)
  rcases h.firm.self.placed ho hact with ⟨t, hm⟩ | hwait | hm
  · obtain ⟨p, hat⟩ := Ladder.mem_ids.mp hm
    have hprice : o.price = p := (hok.books.restsAt hat ho).price
    refine Or.inl
      ⟨⟨t, hplaced.found hat ho, fun u c => ⟨fun hat' => ⟨by_contra fun hne => ?_, ?_⟩, ?_⟩⟩,
      fun s hs => hok.off hs t hm⟩
    · rw [Side.eq_opp_of_ne hne] at hat'
      exact hok.books.apart hm hat'.mem_ids
    · exact (hok.books.restsAt hat' ho).price.symm
    · rintro ⟨rfl, rfl⟩
      exact hprice ▸ hat
  · have hall : ∀ s ∈ o.stopSides, id ∈ ((w.store e).stops s).ids :=
      fun s hs => (hplaced.sides ho hwait hs).resolve_right (by simp)
    obtain ⟨s, hm | hm⟩ := hwait
    · obtain ⟨p, hat⟩ := Ladder.mem_ids.mp hm
      obtain ⟨o', ho', hw⟩ := hok.waits hat
      obtain rfl := Option.some.inj (ho'.symm.trans ho)
      refine Or.inr
        ⟨⟨hw.price, List.ne_nil_of_mem hw.side, hw.lookup, fun u c => ⟨fun hat' => ?_, ?_⟩⟩,
        fun t => hok.off hm t⟩
      · obtain ⟨o2, ho2, hw2⟩ := hok.waits hat'
        obtain rfl := Option.some.inj (ho2.symm.trans ho)
        exact ⟨hw2.side, hw2.trigger.symm⟩
      · rintro ⟨hu, rfl⟩
        obtain ⟨c, hat'⟩ := Ladder.mem_ids.mp (hall u hu)
        obtain ⟨o2, ho2, hw2⟩ := hok.waits hat'
        obtain rfl := Option.some.inj (ho2.symm.trans ho)
        rw [hw2.trigger]
        exact hat'
    · cases hm
  · cases hm

theorem consistent (h : Housed e (w, [])) : (w.store e).Consistent := by
  have hok : StoreOk (fun _ _ => True) (w.store e) w.nextId [] := h.lone.sound.stores.self
  refine ⟨fun {id o} ho hp hne => ?_, fun {id o} ho hno => ?_, fun {id t p} hat => ?_,
    fun t => ⟨(hok.books.wf t).full, (hok.stopsWf t).full⟩, fun {id o} ho => ?_⟩
  · rcases h.where_is ho with ⟨⟨t, hl, _⟩, _⟩ | ⟨⟨_, _, _, hstops⟩, hoff⟩
    · have hwaits : o.lookup = .inr o.stopSides := by
        revert hne
        unfold Order.stopSides Order.lookup
        cases o.side <;> simp [hp]
      rw [hl] at hwaits
      cases hwaits
    · exact ⟨hstops, fun t p hat => hoff t hat.mem_ids⟩
  · rcases h.where_is ho with ⟨⟨t, _, hbook⟩, hoff⟩ | ⟨⟨hp, hne, _⟩, _⟩
    · exact ⟨⟨t, hbook⟩, fun s p hat => hoff s hat.mem_ids⟩
    · exact absurd ⟨hp, hne⟩ hno
  · rcases hat with hat | hat
    · obtain ⟨o, ho, _⟩ := h.firm.self.rests hat.mem_ids
      exact ⟨o, ho, (hok.key ho).1, (hok.books.restsAt hat ho).remain⟩
    · obtain ⟨o, ho, hw⟩ := hok.waits hat
      exact ⟨o, ho, (hok.key ho).1, hw.whole ▸ hw.pos⟩
  · rcases h.where_is ho with ⟨⟨t, hl, hbook⟩, _⟩ | ⟨⟨_, _, hl, hstops⟩, _⟩
    · obtain ⟨is, his, _⟩ := Ladder.level?_of_at (hok.books.wf t) ((hbook t o.price).mpr ⟨rfl, rfl⟩)
      simp only [Store.Reaches, hl, his]
      exact Option.some_ne_none is
    · simp only [Store.Reaches, hl]
      intro s hs
      obtain ⟨is, his, _⟩ := Ladder.level?_of_at (hok.stopsWf s) ((hstops s _).mpr ⟨hs, rfl⟩)
      rw [his]
      exact Option.some_ne_none is

end Housed

/-- After every call of a run in which each taker lands well, the map and the books say the same. -/
theorem run_consistent (h0 : w0.Fresh) (hi : ∀ t, (w0.conf e).impliers t = []) (qs : List Order)
    (hqs : ∀ q ∈ qs, q.IsTrade) (h : run w0 (qs.map (Prod.mk e)) = .ok w)
    (hland : ∀ z ∈ w.execs, z.Lands) : (w.store e).Consistent := by
  have hself : RunsAlong World.call (fun _ x => x.1 = e) w0 (qs.map (Prod.mk e)) :=
    RunsAlong.of_forall _ fun x hx _ => by
      obtain ⟨q, _, rfl⟩ := List.mem_map.mp hx
      rfl
  have htrade : ∀ x ∈ qs.map (Prod.mk e), x.2.IsTrade := fun x hx => by
    obtain ⟨q, hq, rfl⟩ := List.mem_map.mp hx
    exact hqs q hq
  have hend : Housed e (w, []) := run_along (I := fun v => Housed e (v, []))
    (fun {v v' l q} ht hl hv hgood hI => by
      obtain rfl : l = e := hl
      exact hI.handle ht hv hgood)
    _ htrade hself h hland (Housed.start h0 hi)
  exact hend.consistent

/-- Two orders to sell and a stop to buy for at most 106, which the cancellation of
    the first one activates. -/
def activated (p : ℤ) : List Order :=
  [{ Order.default with side := .sell, price := 100, quantity := 5 },
    { Order.default with side := .sell, price := p, quantity := 5 },
    { Order.default with
      side := .buyStop, quantity := 3, buyStopTriggerPrice := 105, buyStopLimitPrice := 106 },
    { Order.default with orderAction := .cancel, orderId := 1000 }]

/-- The second one asks for 110, so that the stop comes to rest. -/
theorem run_consistent_activated :
    ∃ w, run (World.start 1 1000) ((activated 110).map (Prod.mk 0)) = .ok w ∧
      (w.store 0).bidBook = [(106, [1002])] ∧ (w.store 0).Consistent := by
  have hcall : (run (World.start 1 1000) ((activated 110).map (Prod.mk 0))).map (fun w =>
      ((w.store 0).bidBook, decide (∀ z ∈ w.execs, z.Lands))) = .ok ([(106, [1002])], true) := by
        decide +kernel
  obtain ⟨w, hrun, hval⟩ := map_ok.mp hcall
  obtain ⟨hbid, hland⟩ := Prod.mk.inj hval
  exact ⟨w, hrun, hbid,
    run_consistent (World.start_fresh 1 1000) (fun t => by cases t <;> rfl) (activated 110)
    (by decide) hrun (of_decide_eq_true hland)⟩

/-- It asks for 106, so that the stop is filled: it is still in the map, and in no book. -/
theorem activated_inconsistent :
    ∃ w, run (World.start 1 1000) ((activated 106).map (Prod.mk 0)) = .ok w ∧
      ¬(w.store 0).Consistent := by
  have hcall : (run (World.start 1 1000) ((activated 106).map (Prod.mk 0))).map (fun w =>
      (((w.store 0).odrMap.find? 1002).map (fun o => (o.price, o.remainQuantity)),
        (w.store 0).bidBook, (w.store 0).askBook)) =
      .ok (some (106, 0), [], [(106, [1001])]) := by decide +kernel
  obtain ⟨w, hrun, hval⟩ := map_ok.mp hcall
  simp only [Prod.mk.injEq, Option.map_eq_some_iff] at hval
  obtain ⟨⟨o, ho, hprice, _⟩, hbid, hask⟩ := hval
  refine ⟨w, hrun, fun h => ?_⟩
  have hno : ¬(o.price = stopPrice ∧ o.stopSides ≠ []) := fun hc => by
    rw [hprice] at hc
    exact absurd hc.1 (by decide)
  obtain ⟨⟨t, hbook⟩, _⟩ := h.resting ho hno
  have hat : ((w.store 0).book t).At o.price 1002 := (hbook t _).mpr ⟨rfl, rfl⟩
  cases t with
  | buy => exact absurd hat (by simp [Store.book, hask])
  | sell => exact absurd hat (by simp [Store.book, hbid])

end Matching
