import Matching.Md.Depth
import Matching.Engine.Steps

/-! The two legs of a `BUY_SELL_STOP`. `handle_new` decides whether it executes one at once with the
    test of the single stops, written a third time; and once it rests, `handle_cancel` and the
    market data each infer from its prices which of the two books it is in. -/

namespace Matching

/-- The same request with another side. -/
def World.withSide (w : World) (side : OrderSide) : World := w.setArg { w.arg with side := side }

/-- The world in which `handle_new` executes or registers a stop that it accepts: the order has its
    id, its remaining quantity and the price of a stop that waits. -/
def World.prepared (w : World) : World :=
  let w := if w.arg.orderAction = .new then w.setArg { w.arg with orderId := 0 } else w
  initNewOrder (w.setArg { w.arg with price := stopPrice })

/-- `handle_new` executes the leg of side `s` at once, at that leg's limit price. -/
def ExecutesLeg (w : World) (e : ℕ) (s : Side) : Prop := handleNew w e = executeLeg w.prepared e s

/-- `handle_new` registers the order to wait in the stop books of these sides. -/
def WaitsIn (w : World) (e : ℕ) (ss : List Side) : Prop :=
  handleNew w e = .ok ((w.prepared.registerStops e ss).callback e w.prepared.arg)

/-- Of three requests that differ only in their side, the combined stop and the two single ones, all
    wait, or the combined stop executes a leg that the single stop of that side executes too. -/
def LegsAgree (w : World) (e : ℕ) : Prop :=
  (WaitsIn w e [.buy, .sell] ∧ ∀ s : Side, WaitsIn (w.withSide s.stop) e [s]) ∨
    ∃ s : Side, ExecutesLeg w e s ∧ ExecutesLeg (w.withSide s.stop) e s

namespace Order

/-- What `handle_new` checks of a stop order, both legs. -/
structure ValidStop (o : Order) : Prop where
  quantity : o.quantity ≠ 0
  display : o.displayQuantity ≤ o.quantity
  legs : ∀ s, stopReject o s = none

/-- `best` is not the sentinel of an empty book, and the trigger of the leg of side
    `s` is reached there. -/
def Triggered (o : Order) (s : Side) (best : ℤ) : Prop :=
  best ≠ marketPrice ∧ s.reached best (o.stopTrigger s) = true

instance (o : Order) (s : Side) (best : ℤ) : Decidable (o.Triggered s best) :=
  inferInstanceAs (Decidable (_ ∧ _))

end Order

variable {w w' : World} {e : ℕ} {s : Side} {o : Order} {best : Side → ℤ}

/-! ### What each request does -/

theorem Matcher.resetLegs_setArg (w : World) (o : Order) : ∀ imps : List Implier,
    resetLegs (w.setArg o) imps = resetLegs w imps
  | [] => rfl
  | imp :: imps => by
    rw [resetLegs, resetLegs, resetLegs_setArg w o imps]
    rfl

theorem Matcher.topPriceLoop_setArg (w : World) (o : Order) (s : Side) (tick : ℤ) :
    ∀ (Ls : List ImpliedLegs) (p : ℤ),
    topPriceLoop (w.setArg o) s tick Ls p = topPriceLoop w s tick Ls p
  | [], _ => rfl
  | L :: Ls, p => by
    simp only [topPriceLoop, topPriceLoop_setArg w o s tick Ls]
    rfl

/-- The best prices do not depend on the request. -/
theorem bestPrice_setArg (w : World) (o : Order) (e : ℕ) (s : Side) :
    bestPrice (w.setArg o) e s = bestPrice w e s := by
  simp only [bestPrice, Matcher.reset, Matcher.topPrice, Matcher.resetLegs_setArg,
    Matcher.topPriceLoop_setArg]
  rfl

theorem stopTrigger_initNewOrder (w : World) (s : Side) :
    (initNewOrder w).arg.stopTrigger s = w.arg.stopTrigger s := by
  simp only [initNewOrder]
  split <;> cases s <;> rfl

/-- `handle_new` goes on with the request under some id. -/
theorem handleNew_eq (w : World) (e : ℕ) : ∃ id, let v := w.setArg { w.arg with orderId := id }
    handleNew w e = newChecked v e ∧
      w.prepared = initNewOrder (v.setArg { v.arg with price := stopPrice }) := by
  by_cases ha : w.arg.orderAction = .new
  · exact ⟨0, by rw [handleNew, if_pos ha], by rw [World.prepared, if_pos ha]⟩
  · exact ⟨w.arg.orderId, by rw [handleNew, if_neg ha]; rfl, by rw [World.prepared, if_neg ha]; rfl⟩

theorem newChecked_valid (hv : w.arg.ValidStop) : newChecked w e = match w.arg.side with
    | .buy => newPlain w e .buy
    | .sell => newPlain w e .sell
    | .buyStop => newStop w e .buy
    | .sellStop => newStop w e .sell
    | .buySellStop => newBuySellStop w e
    | .other _ => .ok (rejectArg w e .rejectUnknowOrderAction) := by
  rw [newChecked, if_neg hv.quantity, if_neg (by have := hv.display; omega)]
  rfl

theorem Order.ValidStop.waiting (hv : o.ValidStop) (s : Side) :
    stopReject { o with price := stopPrice } s = none :=
  (stopReject_congr (by cases s <;> rfl) (by cases s <;> rfl)).trans (hv.legs s)

/-- A single stop that is accepted is executed when its leg is triggered, and waits otherwise. -/
theorem newStop_valid (hbest : bestPrice w e s = .ok (best s)) (hv : w.arg.ValidStop) :
    newStop w e s = (let v := initNewOrder (w.setArg { w.arg with price := stopPrice })
      if w.arg.Triggered s (best s) then executeLeg v e s
      else .ok ((v.registerStops e [s]).callback e v.arg)) := by
  simp only [newStop, bestPrice_setArg, hbest, ok_bind, World.arg_setArg, hv.waiting,
    stopTrigger_initNewOrder]
  cases s <;> rfl

/-- A combined stop that is accepted: the test of the buy leg, then a weaker one of the sell leg. -/
theorem newBuySellStop_valid (hbest : ∀ s, bestPrice w e s = .ok (best s)) (hv : w.arg.ValidStop) :
    newBuySellStop w e = (let v := initNewOrder (w.setArg { w.arg with price := stopPrice })
      if w.arg.Triggered .buy (best .buy) then executeLeg v e .buy
      else if best .sell = marketPrice ∨
          Side.sell.reached (best .sell) (w.arg.stopTrigger .sell) then
        executeLeg v e .sell
      else .ok ((v.registerStops e [.buy, .sell]).callback e v.arg)) := by
  have htr := stopTrigger_initNewOrder (w.setArg { w.arg with price := stopPrice })
  have hbuy := htr .buy
  have hsell := htr .sell
  simp only [Order.stopTrigger] at hbuy hsell
  simp only [newBuySellStop, bestPrice_setArg, hbest, ok_bind, World.arg_setArg,
    hv.waiting, hbuy, hsell]
  rfl

theorem Order.ValidStop.congr {o' : Order} (hv : o.ValidStop) (hq : o'.quantity = o.quantity)
    (hd : o'.displayQuantity = o.displayQuantity) (hl : ∀ s, o'.stopLimit s = o.stopLimit s)
    (ht : ∀ s, o'.stopTrigger s = o.stopTrigger s) : o'.ValidStop :=
  ⟨hq ▸ hv.quantity, by rw [hd, hq]; exact hv.display,
    fun s => (stopReject_congr (hl s) (ht s)).trans (hv.legs s)⟩

theorem newStop_cases (hbest : bestPrice w e s = .ok (best s)) (hv : w.arg.ValidStop)
    (hs : w.arg.side = s.stop) :
    (w.arg.Triggered s (best s) → ExecutesLeg w e s) ∧
      (¬w.arg.Triggered s (best s) → WaitsIn w e [s]) := by
  obtain ⟨id, hnew, hprep⟩ := handleNew_eq w e
  have hv' : (w.setArg { w.arg with orderId := id }).arg.ValidStop :=
    hv.congr rfl rfl (fun t => by cases t <;> rfl) (fun t => by cases t <;> rfl)
  have hside : (w.setArg { w.arg with orderId := id }).arg.side = s.stop := hs
  have hdispatch : newChecked (w.setArg { w.arg with orderId := id }) e =
      newStop (w.setArg { w.arg with orderId := id }) e s := by
    rw [newChecked_valid hv', hside]
    cases s <;> rfl
  have htr : (w.setArg { w.arg with orderId := id }).arg.Triggered s (best s) ↔
      w.arg.Triggered s (best s) := by
    cases s <;> exact Iff.rfl
  rw [hdispatch, newStop_valid ((bestPrice_setArg ..).trans hbest) hv'] at hnew
  simp only [htr, ← hprep] at hnew
  exact ⟨fun h => by rw [ExecutesLeg, hnew, if_pos h], fun h => by rw [WaitsIn, hnew, if_neg h]⟩

theorem newBuySellStop_cases (hbest : ∀ s, bestPrice w e s = .ok (best s)) (hv : w.arg.ValidStop)
    (hs : w.arg.side = .buySellStop) :
    (w.arg.Triggered .buy (best .buy) → ExecutesLeg w e .buy) ∧
    (¬w.arg.Triggered .buy (best .buy) → best .sell = marketPrice ∨
      w.arg.Triggered .sell (best .sell) →
      ExecutesLeg w e .sell) ∧
    (¬w.arg.Triggered .buy (best .buy) →
      ¬(best .sell = marketPrice ∨ w.arg.Triggered .sell (best .sell)) →
      WaitsIn w e [.buy, .sell]) := by
  obtain ⟨id, hnew, hprep⟩ := handleNew_eq w e
  have hv' : (w.setArg { w.arg with orderId := id }).arg.ValidStop :=
    hv.congr rfl rfl (fun t => by cases t <;> rfl) (fun t => by cases t <;> rfl)
  have hside : (w.setArg { w.arg with orderId := id }).arg.side = .buySellStop := hs
  have hdispatch : newChecked (w.setArg { w.arg with orderId := id }) e =
      newBuySellStop (w.setArg { w.arg with orderId := id }) e := by
    rw [newChecked_valid hv', hside]
  have hbuy : (w.setArg { w.arg with orderId := id }).arg.Triggered .buy (best .buy) ↔
      w.arg.Triggered .buy (best .buy) := Iff.rfl
  have hsell : (best .sell = marketPrice ∨ Side.sell.reached (best .sell)
      ((w.setArg { w.arg with orderId := id }).arg.stopTrigger .sell) = true) ↔
      (best .sell = marketPrice ∨ w.arg.Triggered .sell (best .sell)) := by
    by_cases hm : best .sell = marketPrice
    · simp only [hm, true_or]
    · simp only [hm, false_or, Order.Triggered, ne_eq, not_false_eq_true, true_and]
      rfl
  rw [hdispatch, newBuySellStop_valid (fun s => (bestPrice_setArg ..).trans (hbest s)) hv'] at hnew
  simp only [hbuy, hsell, ← hprep] at hnew
  refine ⟨fun h => ?_, fun h h' => ?_, fun h h' => ?_⟩
  · rw [ExecutesLeg, hnew, if_pos h]
  · rw [ExecutesLeg, hnew, if_neg h, if_pos h']
  · rw [WaitsIn, hnew, if_neg h, if_neg h']

/-! ### An order is not both executed and registered -/

theorem execs_executeArg (h : executeArg w e s = .ok w') : w'.execs ≠ w.execs := by
  simp only [executeArg, bind_ok] at h
  obtain ⟨v, hv, h⟩ := h
  obtain ⟨o, _, hk⟩ := Keeps.execute hv
  have hlog : v.execs = w.execs ++ [⟨e, s, .arg, o, w.engines e⟩] := hk.execs
  have hgrow : v.execs <+: w'.execs := by
    split at h
    · obtain ⟨u, hu, h⟩ := bind_ok.mp h
      have h1 : Steps e w.arg (v, []) (u, []) := triggerStop_steps hu
      have h2 : Steps e w.arg (u, []) (w', []) := triggerStop_steps h
      exact Steps.history (h1.trans h2)
    · obtain rfl := pure_ok.mp h
      exact List.prefix_rfl
  intro heq
  have hlen := hgrow.length_le
  rw [heq, hlog, List.length_append, List.length_singleton] at hlen
  omega

theorem ExecutesLeg.not_waits {ss : List Side} (h : ExecutesLeg w e s) : ¬WaitsIn w e ss := by
  intro hw
  rw [ExecutesLeg, hw] at h
  refine execs_executeArg h.symm ?_
  rw [World.execs_callback, World.execs_registerStops]
  rfl

/-! ### The claim about the two legs -/

/-- The single stop of the side of a leg is executed when that leg is triggered. -/
theorem singleStop_cases (hbest : ∀ s, bestPrice w e s = .ok (best s)) (hv : w.arg.ValidStop)
    (s : Side) :
    (w.arg.Triggered s (best s) → ExecutesLeg (w.withSide s.stop) e s) ∧
    (¬w.arg.Triggered s (best s) → WaitsIn (w.withSide s.stop) e [s]) := by
  have hv' : (w.withSide s.stop).arg.ValidStop :=
    hv.congr rfl rfl (fun t => by cases t <;> rfl) (fun t => by cases t <;> rfl)
  have htr : (w.withSide s.stop).arg.Triggered s (best s) ↔ w.arg.Triggered s (best s) := by
    cases s <;> exact Iff.rfl
  have hbest' : bestPrice (w.withSide s.stop) e s = .ok (best s) :=
    (bestPrice_setArg ..).trans (hbest s)
  have hcases := newStop_cases hbest' hv' rfl
  rw [htr] at hcases
  exact hcases

/-- The three agree unless the buy leg is not triggered and no buyer is in the book: then the
    combined stop executes its sell leg, which the single stop does not. -/
theorem legs_agree_iff (hbest : ∀ s, bestPrice w e s = .ok (best s)) (hv : w.arg.ValidStop)
    (hs : w.arg.side = .buySellStop) :
    LegsAgree w e ↔ (w.arg.Triggered .buy (best .buy) ∨ best .sell ≠ marketPrice) := by
  have hsingle := singleStop_cases hbest hv
  obtain ⟨hbuy, hsell, hwait⟩ := newBuySellStop_cases hbest hv hs
  by_cases htb : w.arg.Triggered .buy (best .buy)
  · exact ⟨fun _ => Or.inl htb, fun _ => Or.inr ⟨.buy, hbuy htb, (hsingle .buy).1 htb⟩⟩
  by_cases hm : best .sell = marketPrice
  · -- the sell leg is executed although the single stop of that side waits
    have hts : ¬w.arg.Triggered .sell (best .sell) := fun h => h.1 hm
    have hex := hsell htb (Or.inl hm)
    refine ⟨?_, fun h => absurd (h.resolve_left htb) (by simpa using hm)⟩
    rintro (⟨hw, -⟩ | ⟨s, -, hs'⟩)
    · exact absurd hw hex.not_waits
    · have hts' : ¬w.arg.Triggered s (best s) := by cases s <;> assumption
      exact absurd ((hsingle s).2 hts') hs'.not_waits
  refine ⟨fun _ => Or.inr hm, fun _ => ?_⟩
  by_cases hts : w.arg.Triggered .sell (best .sell)
  · exact Or.inr ⟨.sell, hsell htb (Or.inr hts), (hsingle .sell).1 hts⟩
  · refine Or.inl ⟨hwait htb (fun h => h.elim hm hts), fun s => (hsingle s).2 ?_⟩
    cases s <;> assumption

/-- A combined stop with triggers on both sides of 100. -/
def bothSides : Order :=
  { Order.default with
    side := .buySellStop, quantity := 1, buyStopTriggerPrice := 105, buyStopLimitPrice := 106,
    sellStopTriggerPrice := 95, sellStopLimitPrice := 94 }

theorem bothSides_valid : bothSides.ValidStop := ⟨by decide, by decide, fun s => by cases s <;> rfl⟩

/-- An engine without orders that is asked for a combined stop. -/
def World.asked : World := (World.start 1 1000).setArg bothSides

theorem World.bestPrice_asked (s : Side) : bestPrice World.asked 0 s = .ok marketPrice := by
  cases s <;> rfl

theorem legs_agree_iff_asked : LegsAgree World.asked 0 ↔
    (bothSides.Triggered .buy marketPrice ∨ marketPrice ≠ marketPrice) :=
  legs_agree_iff World.bestPrice_asked bothSides_valid rfl

/-- In empty books the combined stop is executed, and both single stops wait. -/
theorem asked_legs_differ :
    ExecutesLeg World.asked 0 .sell ∧ (∀ s : Side, WaitsIn (World.asked.withSide s.stop) 0 [s]) ∧
    ¬LegsAgree World.asked 0 := by
  have hnone : ∀ s, ¬World.asked.arg.Triggered s marketPrice := fun s h => h.1 rfl
  have hex : ExecutesLeg World.asked 0 .sell :=
    (newBuySellStop_cases World.bestPrice_asked bothSides_valid rfl).2.1 (hnone .buy)
      (Or.inl rfl)
  have hwait : ∀ s : Side, WaitsIn (World.asked.withSide s.stop) 0 [s] := fun s =>
    (singleStop_cases World.bestPrice_asked bothSides_valid s).2 (hnone s)
  refine ⟨hex, hwait, ?_⟩
  rintro (⟨hw, -⟩ | ⟨s, -, hs⟩)
  · exact hex.not_waits hw
  · exact hs.not_waits (hwait s)

/-! ### The book an activated leg rests in -/

/-- `handle_cancel` takes the order `o` it finds out of the book takers of
    side `t` trade against. -/
def CancelsFrom (o : Order) (t : Side) : Prop := ∀ (w : World) (e : ℕ) (st : OrderStatus),
  w.order? e w.arg.orderId = some o → cancelState w.arg.orderAction = some st →
    handleCancel w e = (do
      let v ← unrest (w.ackCancel e w.arg.orderId o st) e t { o with orderState := st }
      return (v.eraseOrder e w.arg.orderId, true))

/-- `handle_odr` books the reports of `o` on the half `h`. -/
def BookedOn (o : Order) (h : Md.Half) : Prop := o.price ≠ stopPrice ∧ o.bookHalf = some h

/-- `o` is in the book takers of side `t` trade against, under the price `p`. -/
def World.Rests (w : World) (e : ℕ) (t : Side) (p : ℤ) (o : Order) : Prop :=
  ∃ id, ((w.store e).book t).At p id ∧ w.order? e id = some o

/-- Where an order is looked for does not depend on its state. -/
theorem unlist_state (w : World) (e : ℕ) (o : Order) (st : OrderStatus) :
    unlist w e { o with orderState := st } =
    match o.lookup with
    | .inl t => unrest w e t { o with orderState := st }
    | .inr ss => ss.foldlM (fun w s => unstop w e s { o with orderState := st }) w :=
        unlist_eq w e _

/-- A world whose only book is that of side `t`, with `o` and another order at the price of `o`. -/
def World.holding (o : Order) (t : Side) : World :=
  ((World.start 1 1).setArg
    { Order.default with orderAction := .cancel, orderId := o.orderId }).upd 0 fun g =>
      (g.setBook t [(o.price, [o.orderId, o.orderId + 1])]).withMap (g.odrMap.insert o.orderId o)

namespace World

variable (o : Order) (st : OrderStatus) (t : Side)

theorem find_holding : (World.holding o t).order? 0 (World.holding o t).arg.orderId = some o := by
  simp [World.holding, Store.withMap]

theorem book_holding (u : Side) :
    (((World.holding o t).ackCancel 0 o.orderId o st).store 0).book u =
    if u = t then [(o.price, [o.orderId, o.orderId + 1])] else [] := by
  cases u <;> cases t <;> simp [World.ackCancel, World.holding] <;> rfl

theorem stops_holding (u : Side) :
    (((World.holding o t).ackCancel 0 o.orderId o st).store 0).stops u = [] := by
  cases u <;> cases t <;> simp [World.ackCancel, World.holding] <;> rfl

end World

theorem Order.lookup_ne_nil (o : Order) : o.lookup ≠ .inr [] := by
  unfold Order.lookup
  cases o.side <;> simp only [ne_eq, reduceCtorEq, not_false_eq_true] <;> split_ifs <;> simp

/-- From a world that holds the order in the book `t` only, it can only be
    taken out of that book. -/
theorem CancelsFrom.lookup {t : Side} (h : CancelsFrom o t) : o.lookup = .inl t := by
  have hfind := World.find_holding o t
  have hrun := (handleCancel_unlist hfind rfl).symm.trans (h _ 0 .canceledByUser hfind rfl)
  have hbook := World.book_holding o .canceledByUser t
  have hstops := World.stops_holding o .canceledByUser t
  have harg : (World.holding o t).arg.orderId = o.orderId := rfl
  rw [harg] at hrun
  generalize (World.holding o t).ackCancel 0 o.orderId o .canceledByUser = v at hrun hbook hstops
  have hok : unrest v 0 t { o with orderState := .canceledByUser } =
      .ok (v.setBook 0 t (Ladder.pop [(o.price, [o.orderId, o.orderId + 1])])) := by
    have hb : v.book 0 t = [(o.price, [o.orderId, o.orderId + 1])] := (hbook t).trans (if_pos rfl)
    simp [unrest, -World.book, hb, eraseFound, Ladder.level?, orUb, pure, Except.pure]
  rw [hok, unlist_state] at hrun
  obtain ⟨v', hv', -⟩ := bind_ok.mp hrun
  rcases hl : o.lookup with u | ss
  · simp only [hl] at hv'
    have hlev : (v.book 0 u).level? o.price ≠ none := (unrest_ok hv').1
    rw [World.book, hbook] at hlev
    split_ifs at hlev with hu
    · rw [hu]
    · exact absurd rfl hlev
  · simp only [hl] at hv'
    have hlev := (unstops_ok ss (Order.lookup_nodup hl) hv').1
    cases ss with
    | nil => exact absurd hl o.lookup_ne_nil
    | cons s ss => exact absurd (by rw [hstops]; rfl) (hlev s List.mem_cons_self)

theorem cancelsFrom_iff {t : Side} : CancelsFrom o t ↔ o.lookup = .inl t := by
  refine ⟨CancelsFrom.lookup, fun h w e st ho hst => ?_⟩
  rw [handleCancel_unlist ho hst, unlist_state, h]

/-- Where a combined stop that rests is looked for. -/
theorem lookup_combined {t : Side} (hs : o.side = .buySellStop) : o.lookup = .inl t ↔
    o.price ≠ stopPrice ∧ (t = .sell ↔ o.price = o.buyStopLimitPrice) := by
  unfold Order.lookup
  rw [hs]
  cases t <;> simp only <;> split_ifs <;> simp_all

/-- The half a combined stop is booked on. -/
theorem bookHalf_combined {t : Side} (hs : o.side = .buySellStop) : o.bookHalf = some t.half ↔
    match t with
    | .sell => o.buyStopTriggerPrice ≤ o.price
    | .buy => o.price < o.buyStopTriggerPrice ∧ o.price ≤ o.sellStopTriggerPrice := by
  unfold Order.bookHalf
  cases t <;> simp only [hs, Side.half] <;> split_ifs <;> simp_all; omega

theorem buyTrigger_le (hv : stopReject o .buy = none) :
    o.buyStopTriggerPrice ≤ o.buyStopLimitPrice := by
  unfold stopReject at hv
  split at hv
  · cases hv
  · split at hv
    · cases hv
    · rename_i hcmp
      exact not_lt.mp (fun hlt => hcmp (decide_eq_true hlt))

/-- A combined stop that rests at the price `p` of the book `t` is taken out of that level and
    booked on its side if and only if this is its own price and, as a buyer, its buy limit, or, as a
    seller, below its buy trigger and not above its sell trigger. -/
theorem restingLeg_agrees_iff (hs : o.side = .buySellStop) (hv : ∀ s, stopReject o s = none)
    {t : Side} {p : ℤ} :
    w.Rests e t p o →
      ((CancelsFrom o t ∧ o.price = p ∧ BookedOn o t.half) ↔
        o.price = p ∧ p ≠ stopPrice ∧
        match t with
        | .sell => p = o.buyStopLimitPrice
        | .buy => p < o.buyStopTriggerPrice ∧ p ≤ o.sellStopTriggerPrice) := by
  intro _
  have hle := buyTrigger_le (hv .buy)
  rw [cancelsFrom_iff, lookup_combined hs, BookedOn, bookHalf_combined hs]
  cases t with
  | buy =>
    simp only [reduceCtorEq, false_iff]
    constructor
    · rintro ⟨⟨h1, -⟩, rfl, -, h3⟩
      exact ⟨rfl, h1, h3⟩
    · rintro ⟨rfl, h1, h2, h3⟩
      exact ⟨⟨h1, by omega⟩, rfl, h1, h2, h3⟩
  | sell =>
    simp only [true_iff]
    constructor
    · rintro ⟨⟨h1, h2⟩, rfl, -⟩
      exact ⟨rfl, h1, h2⟩
    · rintro ⟨rfl, h1, h2⟩
      exact ⟨⟨h1, h2⟩, rfl, h1, by omega⟩

/-- The rest of a combined stop with limits of its own, in the ask book. -/
def ownLimits : Order :=
  { Order.default with
    side := .buySellStop, quantity := 3, remainQuantity := 3, orderId := 1001, price := 103,
    buyStopTriggerPrice := 105, buyStopLimitPrice := 106, sellStopTriggerPrice := 104,
    sellStopLimitPrice := 103 }

theorem restingLeg_agrees_iff_ownLimits :
    (CancelsFrom ownLimits .buy ∧ ownLimits.price = 103 ∧ BookedOn ownLimits Side.buy.half) ↔
      ownLimits.price = 103 ∧ (103 : ℤ) ≠ stopPrice ∧ (103 : ℤ) < 105 ∧ (103 : ℤ) ≤ 104 :=
  restingLeg_agrees_iff (w := (World.start 1 1000).rest 0 .sell .arg ownLimits) (e := 0)
    (t := .buy) rfl (fun s => by cases s <;> rfl)
    ⟨1001, ⟨(103, [1001]), List.mem_singleton_self _, rfl, List.mem_singleton_self _⟩, rfl⟩

/-- A combined stop whose sell leg has the limit of its buy leg and is
    triggered by a buyer at 100. -/
def sameLimits : Order :=
  { Order.default with
    side := .buySellStop, quantity := 3, buyStopTriggerPrice := 105, buyStopLimitPrice := 106,
    sellStopTriggerPrice := 110, sellStopLimitPrice := 106 }

def buyerAt100 : Order := { Order.default with side := .buy, price := 100, quantity := 5 }

def sameLimitsRun : List (ℕ × Order) := [(0, buyerAt100), (0, sameLimits)]

/-- What rests of `sameLimits` once it is activated. -/
def sameLimitsResting : Order :=
  { sameLimits with price := 106, orderId := 1001, remainQuantity := 3 }

def cancelSameLimits : Order := { Order.default with orderAction := .cancel, orderId := 1001 }

/-- The activated sell leg rests in the ask book, `handle_cancel` looks for it in the bid book,
    which has no level at its price, and the market data book it as a buyer. -/
theorem sameLimits_disagree : ∃ w, run (World.start 1 1000) sameLimitsRun = .ok w ∧
    (w.store 0).book .buy = [(106, [1001])] ∧ w.order? 0 1001 = some sameLimitsResting ∧
    handle w 0 cancelSameLimits = .error .ub ∧
    ¬(CancelsFrom sameLimitsResting .buy ∧ sameLimitsResting.price = 106 ∧
      BookedOn sameLimitsResting Side.buy.half) := by
  refine ⟨_, rfl, rfl, rfl, rfl, fun h => ?_⟩
  exact absurd h.2.2.2 (by decide)

end Matching
