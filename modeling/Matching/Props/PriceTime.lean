import Matching.Engine.Reference

/-! Price-time priority of `normal_match` in an engine without impliers: which orders are
    filled, in which order and by how much, what the books look like afterwards, and what
    becomes of the residual. -/

namespace Matching

/-- The limit under which a residual rests: its own, or the best price of its own side for a taker
    without one. -/
def Store.restPrice (g : Store) (s : Side) (o : Order) : ℤ :=
  if o.price ≠ marketPrice then o.price else g.ownBest s

/-- `w'` is what the reference leaves of `w` for the taker `o`: trades with the eligible orders of
    the queue in turn, then the disposition of what is left. -/
structure PriceTime (w : World) (e : ℕ) (s : Side) (r : Ref) (o : Order) (T : List Trade)
    (w' : World) : Prop where
  /-- The queue is the opposite book, -/
  queue_ids : ((w.store e).queue s).map Order.orderId = ((w.store e).book s).ids
  /-- by best price and then by age. -/
  queue_sorted : ((w.store e).queue s).Pairwise
    (fun a b => s.cmp a.price b.price = true ∨ (a.price = b.price ∧ a.orderId < b.orderId))
  /-- No maker is touched before the one in front of it is exhausted. -/
  in_turn : ∀ t ∈ T.dropLast, t.makerAfter.remainQuantity = 0
  /-- Filled makers leave the opposite book; nothing else happens to it. -/
  opposite : (w'.store e).book s = ((w.store e).book s).without (filledMakers T)
  /-- A maker keeps what its trade left of it, all other orders are untouched. -/
  orders : ∀ id, id ≠ o.orderId → r ≠ .entry id → (w'.store e).odrMap.find? id =
    match T.find? (fun t => t.maker.orderId = id) with
    | none => (w.store e).odrMap.find? id
    | some t => if t.makerAfter.remainQuantity = 0 then none else some t.makerAfter
  stops : ∀ t, (w'.store e).stops t = (w.store e).stops t
  elsewhere : ∀ l, l ≠ e → w'.store l = w.store l
  remain : (afterTrades o T).remainQuantity = (w.store e).leftover s o
  filled : (w.store e).leftover s o = 0 →
    w'.readRef e r = .ok (afterTrades o T) ∧ (w'.store e).book s.opp = (w.store e).book s.opp ∧
    Emits w w' (tradeReports e T)
  cancelled : (w.store e).leftover s o ≠ 0 → o.timeCondition = .ioc ∨ o.timeCondition = .auction →
    ∃ o', o' = { afterTrades o T with
        orderState :=
          if o.timeCondition = .ioc then
            (if T = [] then .canceledAllByIoc else .canceledPartialByIoc)
          else (if T = [] then .canceledAllByAuction else .canceledPartialByAuction) } ∧
      w'.readRef e r = .ok o' ∧ (w'.store e).book s.opp = (w.store e).book s.opp ∧
      Emits w w' (tradeReports e T ++ [(e, o')])
  rested : (w.store e).leftover s o ≠ 0 → o.timeCondition = .gtc ∨ o.timeCondition = .expiry →
    (w.store e).restPrice s o ≠ marketPrice →
    ∃ o', o' = { afterTrades o T with price := (w.store e).restPrice s o } ∧
      w'.readRef e r = .ok o' ∧ (w'.store e).book s.opp =
        ((w.store e).book s.opp).insert s.opp.cmp ((w.store e).restPrice s o) o.orderId ∧
      (w'.store e).odrMap.find? o.orderId = some o' ∧
      Emits w w' (tradeReports e T ++ if T = [] then [(e, o')] else [])
  unmatched : (w.store e).leftover s o ≠ 0 → o.timeCondition = .gtc ∨ o.timeCondition = .expiry →
    (w.store e).restPrice s o = marketPrice →
    ∃ o', o' = { afterTrades o T with
        price := marketPrice, orderState := .canceledByMarketOrderNothingMatch } ∧
          w'.readRef e r = .ok o' ∧
      (w'.store e).book s.opp = (w.store e).book s.opp ∧ Emits w w' (tradeReports e T ++ [(e, o')])

variable {w w' w1 : World} {e : ℕ} {s : Side} {r : Ref} {o : Order} {T : List Trade}

/-- The end of a taker that rests or dies: what it leaves alone. -/
structure Settles (w1 w' : World) (e : ℕ) (s : Side) (r : Ref) (id : ℕ) : Prop where
  opposite : (w'.store e).book s = (w1.store e).book s
  orders : ∀ j, j ≠ id → r ≠ .entry j → (w'.store e).odrMap.find? j = (w1.store e).odrMap.find? j
  stops : ∀ t, (w'.store e).stops t = (w1.store e).stops t
  elsewhere : ∀ l, l ≠ e → w'.store l = w1.store l

theorem Ends.settles {f : Fate} {o1 : Order} (h : Ends w1 e s r o1 f w')
    (hid : ∀ j, r = .entry j → o1.orderId = j)
    (hfree : r = .arg → (w1.store e).odrMap.find? o1.orderId = none) :
    Settles w1 w' e s r o1.orderId := by
  cases h with
  | filled => exact ⟨rfl, fun _ _ _ => rfl, fun _ => rfl, fun _ _ => rfl⟩
  | killed =>
    refine ⟨by simp, fun j _ hr => ?_, fun t => by simp, fun l hl => World.store_kill_ne hl⟩
    rw [World.find_kill, if_neg (fun hc => hr hc.2)]
  | rested _ p =>
    have hfind := World.find_rest w1 e s r { o1 with price := p } e hid hfree
    refine ⟨?_, fun j hj _ => ?_, fun t => by simp, fun l hl => World.store_rest_ne hl⟩
    · rw [World.book_rest, if_neg (fun hc => Side.ne_opp s hc.2)]
    · rw [hfind, if_neg (fun hc => hj hc.2)]

theorem Store.restFate_eq (g : Store) (s : Side) (o : Order) : g.restFate s o.price =
    if g.restPrice s o = marketPrice then .killed marketPrice .canceledByMarketOrderNothingMatch
    else .rested (g.restPrice s o) := by
  by_cases hp : o.price = marketPrice
  · simp only [Store.restFate, Store.restPrice, hp, ne_eq, not_true_eq_false, if_false]
  · simp only [Store.restFate, Store.restPrice, hp, ne_eq, not_false_eq_true, if_true, if_false]

theorem mayRest_of (h : o.timeCondition = .gtc ∨ o.timeCondition = .expiry) : o.MayRest := by
  rcases h with h | h <;> simp [Order.MayRest, h]

/-- The residual of `IOC` and `AUCTION` is reported with its state and rests nowhere. -/
theorem Store.residualFate_of_dies (g : Store) {left : ℕ} (hwhole : T = [] ↔ o.quantity = left)
    (hc : o.timeCondition = .ioc ∨ o.timeCondition = .auction) :
    g.residualFate s o left = .killed o.price
      (if o.timeCondition = .ioc then
        (if T = [] then .canceledAllByIoc else .canceledPartialByIoc)
      else (if T = [] then .canceledAllByAuction else .canceledPartialByAuction)) := by
  rcases hc with h | h
  · simp only [Store.residualFate, h, if_true]
    exact congrArg _ (if_congr hwhole.symm rfl rfl)
  · simp only [Store.residualFate, h, reduceCtorEq, if_false]
    exact congrArg _ (if_congr hwhole.symm rfl rfl)

/-- A request's order is not in the map while it trades. -/
theorem Traded.find_taker (htr : Traded w e s .arg o T w1) (hok : BooksOk (w.store e))
    (hfree : w.Free e .arg o) (hT : ∀ t ∈ T, t.maker ∈ (w.store e).queue s) :
    (w1.store e).odrMap.find? o.orderId = none := by
  have hnone : T.find? (fun t => t.maker.orderId = o.orderId) = none := by
    rw [List.find?_eq_none]
    intro t ht
    obtain ⟨id, hid, hfind⟩ := Store.mem_queue.mp (hT t ht)
    obtain ⟨p, hat⟩ := Ladder.mem_ids.mp hid
    have hne : t.maker.orderId ≠ o.orderId := fun he => by
      rw [(hok.restsAt hat hfind).orderId] at he
      exact (hfree.arg rfl).2 s (he ▸ hid)
    simpa using hne
  rw [htr.find o.orderId (by simp), hnone]
  exact (hfree.arg rfl).1

/-- Without impliers `normal_match` is the reference: price-time priority and the disposition of the
    residual, from every state whose books are in order. -/
theorem normalMatch_price_time (w : World) (e : ℕ) (s : Side) (r : Ref) (tick : ℤ) (o : Order)
    (hok : ∀ l, BooksOk (w.store l)) (hlive : ∀ l, (w.store l).Live)
    (hi : ∀ t, (w.conf e).impliers t = []) (hoff : OffBook w e r) (hfree : w.Free e r o)
    (ho : w.readRef e r = .ok o) (hq : o.remainQuantity = o.quantity) (hpos : 0 < o.quantity)
    (htc : o.timeCondition = .gtc ∨ o.timeCondition = .ioc ∨ o.timeCondition = .auction ∨
      o.timeCondition = .expiry) :
    ∃ w', normalMatch w e s r tick = .ok w' ∧
      PriceTime w e s r o (trades w.nextId o ((w.store e).eligible s o)) w' := by
  have h0 : o.remainQuantity ≠ 0 := by omega
  have hlegs : LegsApart w e s := ⟨by simp [Config.legs, hi s], by simp [Config.legs, hi s]⟩
  have hm : ¬o.MakerOnly := by rcases htc with h | h | h | h <;> simp [Order.MakerOnly, h]
  have hfok : o.timeCondition ≠ .fok := by rcases htc with h | h | h | h <;> simp [h]
  obtain ⟨recs, w1, o1, w', hnm, hw, hwalk, ho1, hout, _⟩ | ⟨_, hl⟩ :=
    normalMatch_cases ⟨hok, hoff, hlegs⟩ ho h0 hfok tick
  swap
  · exact absurd hlive hl
  refine ⟨w', hnm, ?_⟩
  obtain ⟨rfl, htr, hends⟩ := hout.traded hw hi ho hwalk ho1 hm (fun h => absurd h hfok)
  set T := trades w.nextId o ((w.store e).eligible s o) with hT
  set left := (w.store e).leftover s o with hleft
  have hfill : Filled o (afterTrades o T) := filled_afterTrades ..
  have hwhole : T = [] ↔ o.quantity = left := by rw [← hq]; exact trades_eq_nil_iff (hok e) h0
  have hnew : r = .arg → (w1.store e).odrMap.find? o.orderId = none := by
    rintro rfl
    exact htr.find_taker (hok e) hfree fun t ht =>
      (List.takeWhile_sublist _).subset (mem_makers ht)
  have hset :=
    hends.settles (fun j hr => hfill.orderId.trans (hfree.entry j hr))
      (fun hr => hfill.orderId ▸ hnew hr)
  rw [hfill.orderId] at hset
  have hown := htr.bookOther e s.opp (fun he => Side.opp_ne s (congrArg Prod.snd he))
  have hrem : (afterTrades o T).remainQuantity = left := Store.remain_afterTrades_eligible ..
  refine
    { queue_ids := Store.queue_ids (hok e) (hlive e) s
      queue_sorted := Store.queue_sorted (hok e) s
      in_turn := trades_in_turn _ _ _
      opposite := hset.opposite.trans htr.book
      orders := fun id hne hr => (hset.orders id hne hr).trans (htr.find id hr)
      stops := fun t => (hset.stops t).trans (htr.stops e t)
      elsewhere := fun l hl => ?_
      remain := hrem
      filled := fun hz => ?_
      cancelled := fun hz hc => ?_
      rested := fun hz hc hp => ?_
      unmatched := fun hz hc hp => ?_ }
  · rw [hset.elsewhere l hl]
    refine Store.ext_containers (OrdMap.ext_find fun id => htr.findOther l id hl) (fun t => ?_)
      (fun t => htr.stops l t)
    exact htr.bookOther l t (fun he => hl (congrArg Prod.fst he))
  · rw [if_pos hz] at hends
    cases hends
    exact ⟨htr.taker, hown, htr.emits⟩
  · rw [if_neg hz, Store.residualFate_of_dies _ hwhole hc, ← hfill.price] at hends
    cases hends
    exact ⟨_, rfl, World.readRef_kill .., (World.book_kill ..).trans hown,
      htr.emits.trans (Emits.kill ..)⟩
  · rw [if_neg hz, Store.residualFate_of_mayRest (mayRest_of hc), Store.restFate_eq,
      if_neg hp] at hends
    have hids : ∀ j, r = .entry j → (afterTrades o T).orderId = j :=
      fun j hr => hfill.orderId.trans (hfree.entry j hr)
    have hfind :=
      World.find_rest w1 e s r { afterTrades o T with price := (w.store e).restPrice s o } e hids
      (fun hr => hfill.orderId ▸ hnew hr) o.orderId
    cases hends
    refine ⟨_, rfl, World.readRef_rest .., ?_, ?_, ?_⟩
    · rw [World.book_rest, if_pos ⟨rfl, rfl⟩, hown]
      simp only [hfill.orderId]
    · rw [hfind, if_pos ⟨rfl, hfill.orderId.symm⟩]
    · have hem :=
        htr.emits.trans
          (Emits.rest w1 e s r { afterTrades o T with price := (w.store e).restPrice s o })
      have hsplit : (afterTrades o T).remainQuantity = (afterTrades o T).quantity ↔ T = [] := by
        rw [hrem, hfill.quantity, hwhole, eq_comm]
      simpa only [hsplit] using hem
  · rw [if_neg hz, Store.residualFate_of_mayRest (mayRest_of hc), Store.restFate_eq,
      if_pos hp] at hends
    cases hends
    exact ⟨_, rfl, World.readRef_kill .., (World.book_kill ..).trans hown,
      htr.emits.trans (Emits.kill ..)⟩

/-- Three sell orders, two of them at the better price. -/
def threeSellers : List (ℕ × Side × Order) :=
  [(0, .sell, { Order.default with
      side := .sell, price := 101, quantity := 4, remainQuantity := 4, orderId := 5 }),
    (0, .sell, { Order.default with
      side := .sell, price := 100, quantity := 2, remainQuantity := 2, orderId := 6 }),
    (0, .sell, { Order.default with
      side := .sell, price := 100, quantity := 3, remainQuantity := 3, orderId := 7 })]

def threeAsks : World := (World.start 1 1000).rests threeSellers

/-- A buyer of more than they offer. -/
def largeBuy : Order :=
  { Order.default with price := 101, quantity := 12, remainQuantity := 12, orderId := 8 }

/-- The order at 100 that came first is filled first, then the other, then the one at
    101; the residual rests. -/
theorem normalMatch_price_time_threeAsks :
    ∃ w', normalMatch (threeAsks.setArg largeBuy) 0 .buy .arg (-1) = .ok w' ∧
    PriceTime (threeAsks.setArg largeBuy) 0 .buy .arg largeBuy
      (trades 1000 largeBuy ((threeAsks.store 0).eligible .buy largeBuy)) w' ∧
    (trades 1000 largeBuy ((threeAsks.store 0).eligible .buy largeBuy)).map
      (fun t => (t.maker.orderId, t.quantity)) =
      [(6, 2), (7, 3), (5, 4)] ∧ (w'.store 0).book .sell = [(101, [8])] := by
  obtain ⟨hok, hlive, hconf⟩ :=
    World.rests_ok threeSellers (by decide +kernel) (World.start_ok 1 1000)
      (World.start_live 1 1000)
  obtain ⟨w', hrun, href⟩ :=
    normalMatch_price_time (threeAsks.setArg largeBuy) 0 .buy .arg (-1) largeBuy hok hlive
    (fun t => by rw [World.conf_setArg, threeAsks, hconf]; cases t <;> rfl) (OffBook.arg _ _)
    ⟨fun _ h => (by cases h), fun _ => ⟨by decide +kernel, fun t => by cases t <;> decide +kernel⟩⟩
      rfl rfl (by decide) (Or.inl rfl)
  refine ⟨w', hrun, href, by decide +kernel, ?_⟩
  have hbook : (normalMatch (threeAsks.setArg largeBuy) 0 .buy .arg (-1)).map
      (fun w => (w.store 0).book .sell) = .ok [(101, [8])] := by
    decide +kernel
  rw [hrun] at hbook
  exact Except.ok.inj hbook

end Matching
