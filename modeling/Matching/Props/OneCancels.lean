import Matching.Engine.Played

/-! One cancels the other: an order is executed once at most, as a taker of one side, and who meets
    it in a book afterwards trades on the other; once it was executed, cancelled or replaced no stop
    book names it; and what it is reported filled for is no more than its quantity. So it is in
    every run in which no combined stop that waits is activated. One that is leaves its id in the
    other stop book, from where its other leg is activated too. -/

namespace Matching

variable {w w' w0 : World} {e k : ℕ} {q : Order}

/-- The orders the taker trades with. -/
def Exec.makers (z : Exec) : List ℕ :=
  (z.before.toStore.plan z.side 0 z.taker).map fun t => t.maker.orderId

/-- Order `k` of engine `e` acts on one side only, and once. -/
structure World.OneCancels (w : World) (e k : ℕ) : Prop where
  once : (w.execs.filter fun z => z.engine = e ∧ z.taker.orderId = k).length ≤ 1
  oneSide : ∃ s, ∀ z ∈ w.execs, z.engine = e → (z.taker.orderId = k → z.side = s) ∧
    (k ∈ z.makers → z.side = s.opp)
  apart : ∀ z ∈ w.execs, z.engine = e → z.taker.orderId = k → k ∉ z.makers
  unlisted : (∃ z ∈ w.execs, z.engine = e ∧ z.taker.orderId = k) ∨
    (∃ o ∈ w.heardBy e, o.orderId = k ∧ o.SaysGone) → ∀ s, k ∉ ((w.store e).stops s).ids
  /-- An amendment in place afterwards changes the quantity to what is left at most. -/
  filled : ∀ z ∈ w.execs, z.engine = e → z.taker.orderId = k → told e k w.reports ≤ z.taker.quantity
  unfilled : (∀ z ∈ w.execs, z.engine = e → z.taker.orderId ≠ k) → told e k w.reports = 0

theorem Exec.mem_makers {z : Exec} (h : k ∈ z.makers) :
    ∃ m ∈ z.before.toStore.queue z.side, m.orderId = k := by
  obtain ⟨t, ht, rfl⟩ := List.mem_map.mp h
  rw [Store.plan_eq] at ht
  exact ⟨t.maker, (Store.takes_sublist _ _ _).subset (Matching.mem_makers ht), rfl⟩

theorem World.mem_heardBy {o : Order} (h : o ∈ w.heardBy e) : (e, o) ∈ w.reports := by
  obtain ⟨x, hx, rfl⟩ := List.mem_map.mp h
  obtain ⟨hx, he⟩ := List.mem_filter.mp hx
  have he' : x.1 = e := by simpa using he
  rwa [← he']

namespace World.Played

variable {hs : List Held}

/-- Executions of one order are one execution. -/
theorem unique (h : w.Played e hs) {y z : Exec} (hy : y ∈ w.execs) (hz : z ∈ w.execs)
    (hye : y.engine = e) (hze : z.engine = e) (heq : y.taker.orderId = z.taker.orderId) : y = z :=
  List.inj_on_of_nodup_map h.once (List.mem_filter.mpr ⟨hy, by simpa using hye⟩)
    (List.mem_filter.mpr ⟨hz, by simpa using hze⟩) heq

theorem oneCancels (h : w.Played e []) (k : ℕ) : w.OneCancels e k := by
  have hmet : ∀ z ∈ w.execs, z.engine = e → k ∈ z.makers →
      k ≠ z.taker.orderId ∧ w.PlayedOn e k z.side.opp := fun z hz hze hk => by
    obtain ⟨m, hm, rfl⟩ := Exec.mem_makers hk
    exact h.met z hz hze m hm
  refine ⟨?_, ?_, fun z hz hze he hk => (hmet z hz hze hk).1 he.symm, fun hgone s hm => ?_,
    fun z hz hze he => ?_, fun hun => ?_⟩
  · have hcount := List.nodup_iff_count_le_one.mp h.once k
    rw [List.count, List.countP_map, List.countP_filter, List.countP_eq_length_filter] at hcount
    refine le_of_eq_of_le (congrArg List.length (List.filter_congr fun z _ => ?_)) hcount
    rw [Function.comp_apply, beq_eq_decide, Bool.decide_and, Bool.and_comm]
  · by_cases hplayed : ∃ z ∈ w.execs, z.engine = e ∧ z.taker.orderId = k
    · obtain ⟨y, hy, hye, hyk⟩ := hplayed
      refine ⟨y.side, fun z hz hze => ⟨fun he => ?_, fun hk => ?_⟩⟩
      · rw [h.unique hz hy hze hye (he.trans hyk.symm)]
      · obtain ⟨x, hx, hxe, hxk, hside⟩ := (hmet z hz hze hk).2
        rw [← h.unique hx hy hxe hye (hxk.trans hyk.symm), hside, Side.opp_opp]
    · refine ⟨.buy, fun z hz hze => ⟨fun he => absurd ⟨z, hz, hze, he⟩ hplayed, fun hk => ?_⟩⟩
      obtain ⟨x, hx, hxe, hxk, _⟩ := (hmet z hz hze hk).2
      exact absurd ⟨x, hx, hxe, hxk⟩ hplayed
  · obtain ⟨hun, hquiet⟩ := h.waiting ⟨s, Or.inl hm⟩
    rcases hgone with ⟨z, hz, hze, he⟩ | ⟨o, ho, hid, hg⟩
    · exact hun z hz hze he
    · exact hquiet o (Or.inl (World.mem_heardBy ho)) hid hg
  · have hle := h.filled z hz hze
    rw [he] at hle
    exact ((Nat.le_add_right _ _).trans (Nat.le_add_right _ _)).trans hle
  · exact (Nat.add_eq_zero_iff.mp (h.unfilled k hun)).1

theorem start (h0 : w0.Fresh) : w0.Played e [] := by
  have hnone : ∀ z ∈ w0.execs, False := fun z hz => by
    rw [h0.execs] at hz
    cases hz
  have hsaid : ∀ o, ¬w0.Said e o := fun o ho => by
    rcases ho with ho | ho
    · rw [h0.reports] at ho
      cases ho
    · rw [h0.cbRecords] at ho
      cases ho
  refine ⟨fun z hz => (hnone z hz).elim, by rw [h0.execs]; exact List.nodup_nil, fun {t k} hm => ?_,
    fun {k} hw => ?_, fun o ho => absurd ho (hsaid o), fun z hz => (hnone z hz).elim,
    fun z hz => (hnone z hz).elim, fun k _ => ?_⟩
  · rw [h0.store] at hm
    cases t <;> cases hm
  · obtain ⟨t, hm | hm⟩ := hw
    · rw [h0.store] at hm
      cases t <;> cases hm
    · cases hm
  · rw [World.filledFor, h0.reports, h0.cbRecords]
    rfl

end World.Played

/-! ### Calls and runs -/

/-- Between the calls to an engine without impliers. -/
structure World.Recorded (w : World) (e : ℕ) : Prop where
  lone : Lone (fun _ _ => True) e (w, [])
  idle : w.Idle
  played : w.Played e []

theorem World.Recorded.handle (hw : w.Recorded e) (ht : q.IsTrade) (h : handle w e q = .ok w')
    (hone : ∀ z ∈ w'.execs, z.OneLeg) :
    w'.Recorded e := by
  have hidle' := handle_idle hw.idle h
  have hlone' : Lone (fun _ _ => True) e (w', []) :=
    handle_induct (I := Lone (fun _ _ => True) e) (g := Exec.OneLeg) ht
      (fun hst hc hn hv => hv.congr hst hc hn) (fun ho hv => ho.lone hv)
        (fun hs hg hx => hs.lone trivial (fun z hz _ => hg z hz) hx) h hone hw.lone
  refine ⟨hlone', hidle', ?_⟩
  obtain ⟨held, _, ⟨_, rfl⟩ | ⟨_, v, hv, rfl⟩⟩ := handle_cases h
  · set o : Order := { q with orderState := .rejectAuctionSupportBuySellOnly }
    have hlock : Emits w ({ w with locked := held }.setArg o) [] :=
      Emits.silent (fun _ => rfl) rfl fun _ => rfl
    have hem := hlock.trans (Emits.callback ({ w with locked := held }.setArg o) e o)
    have hemit : ({ w with locked := held }.setArg o).callback e o =
        ({ w with locked := held }.setArg o).emit e o :=
      if_neg (by simpa using hw.idle.isAuction e)
    rw [hemit] at hem
    refine hw.played.say (fun _ => rfl) rfl le_rfl hem fun x hx => ?_
    obtain rfl := List.mem_singleton.mp hx
    exact Order.silent_of_reject rfl
  · obtain ⟨u, hs, hop, hsteps⟩ := dispatch_steps (World.arg_enter w e q held) ht hv
    have hent : Lone (fun _ _ => True) e (w.enter e q held, []) :=
      hw.lone.congr (fun l => World.store_enter ..) (fun l => World.conf_enter ..)
        (World.nextId_enter ..)
    have hpent : (w.enter e q held).Played e [] := by
      refine hw.played.congr (fun l => World.store_enter ..) (World.execs_enter ..)
        (World.nextId_enter ..).ge ⟨fun k => ?_, fun o ho hg => ?_⟩
      · rw [World.filledFor, World.filledFor, World.reports_enter, World.cbRecords_enter]
      · rw [World.Said, World.reports_enter, World.cbRecords_enter] at ho
        exact Or.inl ⟨o, ho, hg, rfl⟩
    have hlone := hop.lone hent
    have hone' : ∀ z ∈ v.execs, z.OneLeg :=
      fun z hz => hone z (by rwa [World.execs_unlock, World.execs_flush])
    obtain ⟨_, hplayed⟩ := hsteps.induct
      (I := fun x => Lone (fun _ _ => True) e x ∧ x.1.Played e x.2)
      (fun hstep hg hx => ⟨hstep.lone trivial (fun z hz _ => hg z hz) hx.1,
        hstep.played trivial (fun z hz _ => hg z hz) hx.1 hx.2⟩)
      hone' ⟨hlone, hop.played hent.sound hlone.sound hpent⟩
    refine hplayed.congr (fun l => by rw [World.store_unlock, World.store_flush])
      (by rw [World.execs_unlock, World.execs_flush]) ?_ (v.hushed_flush e)
    rw [World.nextId_unlock, World.nextId_flush]

/-- After every call of a run in which no combined stop that waits is activated, every order has
    acted on one side only. -/
theorem run_oneCancels (h0 : w0.Fresh) (hi : ∀ t, (w0.conf e).impliers t = []) (qs : List Order)
    (hqs : ∀ q ∈ qs, q.IsTrade) (h : run w0 (qs.map (Prod.mk e)) = .ok w)
    (hone : ∀ z ∈ w.execs, z.OneLeg) (k : ℕ) : w.OneCancels e k := by
  have hself : RunsAlong World.call (fun _ x => x.1 = e) w0 (qs.map (Prod.mk e)) :=
    RunsAlong.of_forall _ fun x hx _ => by
      obtain ⟨q, _, rfl⟩ := List.mem_map.mp hx
      rfl
  have htrade : ∀ x ∈ qs.map (Prod.mk e), x.2.IsTrade := fun x hx => by
    obtain ⟨q, hq, rfl⟩ := List.mem_map.mp hx
    exact hqs q hq
  have hend : w.Recorded e := run_along (I := fun v => v.Recorded e)
    (fun {v v' l q} ht hl hv hgood hI => by
      obtain rfl : l = e := hl
      exact hI.handle ht hv hgood)
    _ htrade hself h hone ⟨(h0.ordered _).lone hi, h0.idle, World.Played.start h0⟩
  exact hend.played.oneCancels k

/-- A stop to buy from 105 on or to sell from 95 down. -/
def eitherWay : Order :=
  { Order.default with
    side := .buySellStop, quantity := 3, buyStopTriggerPrice := 105, buyStopLimitPrice := 106,
    sellStopTriggerPrice := 95, sellStopLimitPrice := 94 }

def sellTwoAt105 : Order := { Order.default with side := .sell, price := 105, quantity := 2 }

/-- When it comes after the seller, its buy leg is executed at once. -/
theorem run_oneCancels_atOnce :
    ∃ w, run (World.start 1 1000) ([sellTwoAt105, eitherWay].map (Prod.mk 0)) = .ok w ∧
      told 0 1001 w.reports = 2 ∧ w.OneCancels 0 1001 := by
  have hcall : (run (World.start 1 1000) ([sellTwoAt105, eitherWay].map (Prod.mk 0))).map (fun w =>
      (told 0 1001 w.reports, decide (∀ z ∈ w.execs, z.OneLeg))) = .ok (2, true) := by
        decide +kernel
  obtain ⟨w, hrun, hval⟩ := map_ok.mp hcall
  obtain ⟨htold, hone⟩ := Prod.mk.inj hval
  exact ⟨w, hrun, htold,
    run_oneCancels (World.start_fresh 1 1000) (fun t => by cases t <;> rfl)
    [sellTwoAt105, eitherWay] (by decide) hrun (of_decide_eq_true hone) 1001⟩

/-- A buyer at 100 lets it wait until the seller activates its buy leg; its sell
    leg still waits then. -/
theorem waiting_leg_stays : ∃ w,
    run (World.start 1 1000)
      ([{ Order.default with price := 100, quantity := 5 }, eitherWay, sellTwoAt105].map
        (Prod.mk 0)) = .ok w ∧
      ((w.store 0).stops .sell).ids = [1001] ∧ ¬w.OneCancels 0 1001 := by
  have hcall : (run (World.start 1 1000)
      ([{ Order.default with price := 100, quantity := 5 }, eitherWay, sellTwoAt105].map
        (Prod.mk 0))).map (fun w =>
        (((w.store 0).stops .sell).ids, w.execs.map fun z => (z.engine, z.taker.orderId))) =
      .ok ([1001], [(0, 1000), (0, 1002), (0, 1001)]) := by decide +kernel
  obtain ⟨w, hrun, hval⟩ := map_ok.mp hcall
  obtain ⟨hstops, hexecs⟩ := Prod.mk.inj hval
  refine ⟨w, hrun, hstops, fun h => ?_⟩
  have hin : ((0 : ℕ), 1001) ∈ w.execs.map fun z => (z.engine, z.taker.orderId) := by
    rw [hexecs]
    decide
  obtain ⟨z, hz, he⟩ := List.mem_map.mp hin
  obtain ⟨hze, hzk⟩ := Prod.mk.inj he
  refine h.unlisted (Or.inl ⟨z, hz, hze, hzk⟩) .sell ?_
  rw [hstops]
  exact List.mem_singleton_self _

end Matching
