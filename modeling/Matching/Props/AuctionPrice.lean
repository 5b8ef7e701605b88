import Matching.Engine.Auction
import Matching.Engine.Reference
import Matching.Engine.Sound

/-! Auction uniform price, for an engine without impliers. The fills of an auction that is filled
    come best price first, so the record the price is looked up in is that of the worst maker: all
    fills are delivered once, in order, at a price that no maker's limit is beyond. It breaks where
    an order rests at another price than its own, which is what becomes of a `BUY_SELL_STOP` both of
    whose legs were activated. -/

namespace Matching

/-- The world `normal_match` runs in for the auction order `q`. -/
def World.auctioned (w : World) (e : ℕ) (s : Side) (q : Order) (held : ℕ → Bool) : World :=
  ((w.enter e q held).bumpId.setArg (q.opened w.nextId)).logExec e s .arg (q.opened w.nextId)

/-- A buyer's price `c` is at least the limit `p` of a maker, a seller's at most. -/
def Side.Covers (s : Side) (c p : ℤ) : Prop :=
  match s with
  | .buy => p ≤ c
  | .sell => c ≤ p

/-- Between `w` and `w'` the auction `q` made the trades `T`, and they were reported
    at the one price `c`. -/
structure UniformPrice (w w' : World) (e : ℕ) (s : Side) (q : Order) (T : List Trade) (c : ℤ) :
    Prop where
  /-- The records of the call are the maker and taker reports of the trades `normal_match` made. -/
  records : ∃ held v, lockAll (w.conf e).mutexSet w.locked = .ok held ∧
    normalMatch (w.auctioned e s q held) e s .arg (s.tick (w.conf e).miniTick) = .ok v ∧
    (v.engines e).cbRecords = (tradeReports e T).map Prod.snd ∧ w' = unlock (flushAuction v e) e
  /-- Each is delivered once and in this order, changed in `last_match_price` only. -/
  delivered : w'.reports = w.reports ++ (tradeReports e T).map
    (fun x => (x.1, { x.2 with lastMatchPrice := c }))
  /-- The price is the last maker's limit or 0, whichever is larger (for a seller: smaller), -/
  price : ∃ t, T.getLast? = some t ∧ c = s.settle t.maker.price
  /-- and no worse for any maker than its own limit. -/
  bound : ∀ t ∈ T, s.Covers c t.maker.price

variable {w w' : World} {e : ℕ} {s : Side} {q o : Order}

/-! ### Trades in the order of the queue -/

/-- The makers of trades with eligible orders come best price first. -/
theorem Store.makers_sorted {g : Store} (hok : BooksOk g) (s : Side) (n : ℕ) (o : Order) :
    ((trades n o (g.eligible s o)).map Trade.maker).Pairwise
      (fun a b => s.cmp a.price b.price = true ∨ (a.price = b.price ∧ a.orderId < b.orderId)) :=
  (Store.queue_sorted hok s).sublist ((makers_sublist ..).trans (List.takeWhile_sublist _))

/-- The price of an auction that is filled is settled by its worst maker. -/
theorem settle_bound {T : List Trade} {t : Trade} (hsort : ((T ++ [t]).map Trade.maker).Pairwise
    (fun a b => s.cmp a.price b.price = true ∨ (a.price = b.price ∧ a.orderId < b.orderId))) :
    ∀ u ∈ T ++ [t], s.Covers (s.settle t.maker.price) u.maker.price := by
  intro u hu
  have hworse : u.maker.price = t.maker.price ∨ s.cmp u.maker.price t.maker.price = true := by
    rcases List.mem_append.mp hu with hu | hu
    · rw [List.map_append, List.pairwise_append] at hsort
      rcases hsort.2.2 u.maker (List.mem_map_of_mem hu) t.maker (by simp) with hlt | ⟨heq, _⟩
      · exact Or.inr hlt
      · exact Or.inl heq
    · rw [List.mem_singleton.mp hu]
      exact Or.inl rfl
  cases s <;>
    simp only [Side.cmp, decide_eq_true_eq, Side.settle, Side.Covers] at hworse ⊢ <;> omega

/-! ### A filled auction -/

/-- An auction order that is filled does nothing but trade. -/
theorem executeArg_filled {x : World} (hs : Setup x e s .arg)
    (hi : ∀ t, (x.conf e).impliers t = []) (h0 : x.arg.remainQuantity ≠ 0)
    (htc : x.arg.timeCondition = .auction) {v : World} (h : executeArg x e s = .ok v)
    (hfill : v.arg.orderState = .filled) :
    ∃ T t, T ++ [t] = trades x.nextId x.arg ((x.store e).eligible s x.arg) ∧
      normalMatch (x.logExec e s .arg x.arg) e s .arg (s.tick (x.conf e).miniTick) = .ok v ∧
      Emits x v (tradeReports e (T ++ [t])) ∧ v.arg.remainQuantity = 0 ∧
        v.arg.side = x.arg.side := by
  have hread : x.readRef e .arg = .ok x.arg := rfl
  have hm : ¬x.arg.MakerOnly := by simp [Order.MakerOnly, htc]
  obtain ⟨y, hy, h⟩ := bind_ok.mp h
  have harg : v.arg = y.arg := by
    split at h
    · obtain ⟨u, hu, h⟩ := bind_ok.mp h
      exact (triggerLoop_arg _ h).trans (triggerLoop_arg _ hu)
    · rw [← pure_ok.mp h]
  rw [harg] at hfill
  obtain ⟨y', hy', w1, _, htr, hends⟩ : ∃ y', execute x e s .arg = .ok y' ∧
      Executed (x.logExec e s .arg x.arg) e s .arg x.arg y' := by
    rcases execute_reference hs hi hread h0 with hex | ⟨hub, _⟩
    · exact hex
    · rw [hub] at hy
      cases hy
  obtain rfl := Except.ok.inj (hy.symm.trans hy')
  have hleft := Store.remain_afterTrades_eligible (s := s) (x.store e) x.nextId x.arg
  have hplan : (x.store e).plan s x.nextId x.arg =
      trades x.nextId x.arg ((x.store e).eligible s x.arg) :=
    Store.plan_of_takes hm fun hf => by rw [htc] at hf; cases hf
  rw [World.store_logExec, World.nextId_logExec, hplan] at htr hends
  set T := trades x.nextId x.arg ((x.store e).eligible s x.arg) with hT
  have hfilled : Filled x.arg (afterTrades x.arg T) := filled_afterTrades ..
  rw [Store.fate_of_takes hm] at hends
  split at hends
  swap
  · -- what is left is cancelled, so the order does not end as filled
    simp only [Store.residualFate, htc] at hends
    cases hends
    have hstate : ∀ {o : Order} {p : ℤ} {st : OrderStatus},
        (w1.kill e .arg { o with price := p, orderState := st }).arg.orderState = st :=
      fun {o p st} => by
        have hkill := World.readRef_kill w1 e .arg { o with price := p, orderState := st }
        exact congrArg Order.orderState (Except.ok.inj hkill)
    rw [hstate] at hfill
    split_ifs at hfill
  rename_i hzero
  cases hends
  have hyarg : y.arg = afterTrades x.arg T := Except.ok.inj htr.taker
  have hrem : y.arg.remainQuantity = 0 := by rw [hyarg, hleft, hzero]
  have hvy : v = y := by
    rw [if_neg (by omega)] at h
    exact (pure_ok.mp h).symm
  subst hvy
  have hne : T ≠ [] := fun hnil => h0 (by
    rw [hyarg, hnil, afterTrades_nil] at hrem
    exact hrem)
  obtain ⟨T', t, hlast⟩ := (List.eq_nil_or_concat T).resolve_left hne
  rw [List.concat_eq_append] at hlast
  refine ⟨T', t, hlast.symm, ?_, ?_, hrem, by rw [hyarg, hfilled.side]⟩
  · have hnf : x.arg.timeCondition ≠ .fok := by simp [htc]
    simpa only [execute, hread, ok_bind, if_neg hnf, World.conf_logExec] using hy
  · rw [← hlast]
    exact (Emits.logExec x e s .arg x.arg).trans htr.emits

/-- One call. -/
theorem handle_auction_filled (hidle : w.Idle) (hok : w.Ok) (hi : ∀ t, (w.conf e).impliers t = [])
    (ha : q.orderAction = .new) (hside : q.side = s.plain) (htc : q.timeCondition = .auction)
    (h : handle w e q = .ok w') (hfill : w'.arg.orderState = .filled) :
    ∃ T c, UniformPrice w w' e s q T c := by
  have hfair : ¬q.Stray := fun hs => hs.2 (by rw [hside]; cases s <;> simp [Side.plain])
  obtain ⟨held, hheld, ⟨hs, _⟩ | ⟨_, v, hv, rfl⟩⟩ := handle_cases h
  · exact absurd hs hfair
  rw [World.arg_unlock, World.arg_flush] at hfill
  have hrej : ∀ {x : World} {st : OrderStatus}, st.isReject = true →
      (rejectArg x e st).arg.orderState ≠ .filled := by
    intro x st hst hc
    rw [rejectArg, World.arg_callback] at hc
    have hc' : st = .filled := hc
    rw [hc'] at hst
    cases hst
  rw [dispatch_plain (World.arg_enter w e q held) ha hside, World.nextId_enter] at hv
  split at hv
  · rw [← Except.ok.inj hv] at hfill
    exact absurd hfill (hrej rfl)
  rename_i hq0
  split at hv
  · rw [← Except.ok.inj hv] at hfill
    exact absurd hfill (hrej rfl)
  split at hv
  · rw [← Except.ok.inj hv] at hfill
    exact absurd hfill (hrej rfl)
  set x := (w.enter e q held).bumpId.setArg (q.opened w.nextId) with hx
  have hconf : x.conf e = w.conf e := World.conf_enter ..
  have hstore : ∀ l, x.store l = w.store l := fun l => World.store_enter ..
  have hxi : ∀ t, (x.conf e).impliers t = [] := fun t => by rw [hconf]; exact hi t
  have hlegs : LegsApart x e s := ⟨by simp [Config.legs, hxi s], by simp [Config.legs, hxi s]⟩
  have hset : Setup x e s .arg := ⟨fun l => by rw [hstore]; exact hok l, OffBook.arg _ _, hlegs⟩
  obtain ⟨T, t, hT, hnm, hem, hrem, hvside⟩ := executeArg_filled hset hxi hq0 htc hv hfill
  have henter : Emits (w.enter e q held) v (tradeReports e (T ++ [t])) :=
    ((Emits.bumpId _).trans (Emits.setArg _ _)).trans hem
  obtain ⟨hcb, hrep⟩ := reports_auction hidle (fun _ => tradeReports_fst) htc henter
  have hlast : ¬t.takerAfter.orderState.EndsAuction := (engineMatch_isFill ..).not_endsAuction
  have hprice : t.takerAfter.lastMatchPrice = t.maker.price := rfl
  refine ⟨T ++ [t], s.settle t.maker.price, ⟨held, v, hheld, by rw [← hconf]; exact hnm, hcb, rfl⟩,
    ?_, ⟨t, by simp, rfl⟩, ?_⟩
  · rw [hrep, tradeReports_concat, auctionRecords_last hlast (hvside.trans hside) hrem,
      ← tradeReports_concat, hprice, List.map_map, List.map_map]
    refine congrArg _ (List.map_congr_left fun y hy => ?_)
    rw [← tradeReports_fst hy]
    rfl
  · refine settle_bound ?_
    rw [hT]
    exact Store.makers_sorted (hset.ok e) s _ _

/-- In every state reached by a run of trading requests that never activates a waiting
    `BUY_SELL_STOP`, for every engine without impliers and every auction order that is filled. -/
theorem run_auction_filled {w0 : World} {rs : List (ℕ × Order)} (h0 : w0.Fresh)
    (hrs : ∀ x ∈ rs, x.2.IsTrade) (hap : ∀ x ∈ rs, ∀ t, LegsApart w0 x.1 t)
    (hrun : run w0 rs = .ok w) (hone : ∀ z ∈ w.execs, z.OneLeg)
    (hi : ∀ t, (w0.conf e).impliers t = []) (ha : q.orderAction = .new) (hside : q.side = s.plain)
    (htc : q.timeCondition = .auction) (h : handle w e q = .ok w')
    (hfill : w'.arg.orderState = .filled) :
    ∃ T c, UniformPrice w w' e s q T c := by
  have hord : w.Ordered fun _ _ => True :=
    run_sound rs (fun x hx => ⟨hrs x hx, fun _ _ => trivial⟩) hap
      (h0.ordered _) hrun fun z hz _ => hone z hz
  have hconf : w.conf e = w0.conf e :=
    run_induct (I := fun v => v.conf e = w0.conf e)
      (fun hv hI => (handle_conf hv e).trans hI) rs hrun rfl
  exact handle_auction_filled (run_idle h0.idle hrun) (fun l => (hord l).books)
    (fun t => by rw [hconf]; exact hi t) ha hside htc h hfill

/-- Two orders to sell. -/
def twoSellers : List (ℕ × Order) :=
  [(0, { Order.default with side := .sell, price := 101, quantity := 4 }),
    (0, { Order.default with side := .sell, price := 100, quantity := 5 })]

/-- An auction that buys 10 at up to 300. -/
def buyAuction : Order :=
  { Order.default with price := 300, quantity := 10, timeCondition := .auction }

theorem run_auction_filled_twoSellers : ∃ w w', run (World.start 1 1000) twoSellers = .ok w ∧
    handle w 0 { buyAuction with quantity := 8 } = .ok w' ∧
      ∃ T c, UniformPrice w w' 0 .buy { buyAuction with quantity := 8 } T c := by
  have hcalls : (run (World.start 1 1000) twoSellers).bind
      (fun w => (handle w 0 { buyAuction with quantity := 8 }).map fun w' =>
        (w.execs.map (fun z => z.ref), w'.arg.orderState)) = .ok ([.arg, .arg], .filled) := by
    decide +kernel
  obtain ⟨w, hrun, hcall⟩ := bind_ok.mp hcalls
  obtain ⟨w', hw', hval⟩ := map_ok.mp hcall
  obtain ⟨hrefs, hfill⟩ := Prod.mk.inj hval
  refine ⟨w, w', hrun, hw',
    run_auction_filled (World.start_fresh 1 1000) (by decide) (fun x hx t => ?_) hrun
    (fun z hz hr => ?_) (fun t => by cases t <;> rfl) rfl rfl rfl hw' hfill⟩
  · have hnil : ((World.start 1 1000).conf x.1).legs t = [] := by cases t <;> rfl
    exact ⟨by rw [hnil]; exact List.nodup_nil, by rw [hnil]; simp⟩
  · have hmem : z.ref ∈ w.execs.map (fun z => z.ref) := List.mem_map_of_mem hz
    rw [hrefs] at hmem
    exact absurd (by simpa using hmem) hr

/-- A `MAKER_ONLY` order with two legs: the cancellation of the best bid activates its leg to sell,
    which rests at 100, and the order to sell at 101 its leg to buy at 200, which is cancelled and
    yet stays in the book at 100. -/
def bothLegs : List (ℕ × Order) :=
  [(0, { Order.default with price := 101, quantity := 5 }),
    (0, { Order.default with price := 99, quantity := 5 }),
    (0, { Order.default with
      side := .buySellStop, quantity := 5, timeCondition := .makerOnly,
      buyStopTriggerPrice := 50, buyStopLimitPrice := 200,
      sellStopTriggerPrice := 100, sellStopLimitPrice := 100 }),
    (0, { Order.default with orderAction := .cancel, orderId := 1000 }),
    (0, { Order.default with side := .sell, price := 101, quantity := 5 })]

/-- Nothing waits any more, and the auction is filled at 101, less than the 200 its
    first maker asks for. -/
theorem bothLegs_undersold :
    ∃ w w', run (World.start 1 1000) bothLegs = .ok w ∧ (∀ t, (w.store 0).stops t = []) ∧
      handle w 0 buyAuction = .ok w' ∧ w'.arg.orderState = .filled ∧
      ∀ T c, ¬UniformPrice w w' 0 .buy buyAuction T c := by
  have hcalls : (run (World.start 1 1000) bothLegs).bind
      (fun w => (handle w 0 buyAuction).map fun w' =>
        decide (((w.store 0).stops .buy = [] ∧ (w.store 0).stops .sell = [] ∧
            w'.arg.orderState = .filled) ∧
          (w'.reports.drop w.reports.length).head?.map
            (fun x => (x.2.matchedType, x.2.price, x.2.lastMatchPrice)) =
              some (.maker, 200, 101))) = .ok true := by decide +kernel
  obtain ⟨w, hrun, hcall⟩ := bind_ok.mp hcalls
  obtain ⟨w', hw', hval⟩ := map_ok.mp hcall
  obtain ⟨⟨hbuy, hsell, hfill⟩, hhead⟩ := of_decide_eq_true hval
  simp only [Option.map_eq_some_iff, Prod.mk.injEq] at hhead
  obtain ⟨y, hy, htype, hprice, hlast⟩ := hhead
  refine ⟨w, w', hrun, fun t => by cases t <;> assumption, hw', hfill, fun T c h => ?_⟩
  rw [h.delivered, List.drop_left] at hy
  obtain ⟨x, hx, rfl⟩ := List.mem_map.mp (List.mem_of_mem_head? hy)
  obtain ⟨t, ht, hxt⟩ := List.mem_flatMap.mp hx
  have hc : c = 101 := hlast
  rcases List.mem_cons.mp hxt with rfl | hxt
  · have hmaker : t.maker.price = 200 := hprice
    have hbound : t.maker.price ≤ c := h.bound t ht
    omega
  · obtain rfl := List.mem_singleton.mp hxt
    have htaker : MatchedType.taker = .maker := htype
    cases htaker

end Matching
