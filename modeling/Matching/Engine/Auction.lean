import Matching.Engine.Reports

/-! Auctions. The reports of a call with time condition `AUCTION` are recorded and delivered at its
    end with one price, which is looked up in the last of them that is no cancellation of an auction
    (`auctionRecords`). A `NEW` order to buy or to sell is turned away for its quantities or its
    price, or it is executed (`dispatch_plain`). -/

namespace Matching

/-- The price a filled auction is settled at when its last trade was at `p`: buyers pay and sellers
    get no negative price. -/
def Side.settle (s : Side) (p : ℤ) : ℤ :=
  match s with
  | .buy => max p 0
  | .sell => min p 0

/-- The states of the residual of an auction. -/
def OrderStatus.EndsAuction (st : OrderStatus) : Prop :=
  st = .canceledAllByAuction ∨ st = .canceledPartialByAuction

instance (st : OrderStatus) : Decidable st.EndsAuction := inferInstanceAs (Decidable (_ ∨ _))

theorem OrderStatus.IsFill.not_endsAuction {st : OrderStatus} (h : st.IsFill) :
    ¬st.EndsAuction := by
  rintro (rfl | rfl) <;> rcases h with h | h <;> cases h

/-- What the flush makes of the price `p` for the order `o` of side `s`: the stop limit price while
    something of it is left. -/
def Order.flushed (o : Order) (s : Side) (p : ℤ) : ℤ :=
  if o.remainQuantity ≠ 0 then o.stopLimit s else s.settle p

variable {w w' v : World} {e : ℕ} {s : Side} {q o : Order} {recs : List Order}

/-! ### The records -/

theorem auctionRecords_ends (h : ∀ r ∈ recs, r.orderState.EndsAuction) :
    auctionRecords recs o = recs := by
  have hnone : recs.reverse.find?
      (fun r => r.orderState ≠ .canceledAllByAuction ∧ r.orderState ≠ .canceledPartialByAuction) =
      none := by
    rw [List.find?_eq_none]
    intro r hr
    rcases h r (List.mem_reverse.mp hr) with hst | hst <;> simp [hst]
  rw [auctionRecords, hnone]

/-- The price is looked up in the last record that is none of a residual. -/
theorem auctionRecords_found {r : Order} (hs : o.side = s.plain) (hr : recs.reverse.find? (fun r =>
    r.orderState ≠ .canceledAllByAuction ∧ r.orderState ≠ .canceledPartialByAuction) = some r) :
    auctionRecords recs o = recs.map (Order.priced (some (o.flushed s r.lastMatchPrice))) := by
  have hbuy : (if r.lastMatchPrice < 0 then 0 else r.lastMatchPrice) = max r.lastMatchPrice 0 := by
    split_ifs <;> omega
  have hsell : (if r.lastMatchPrice > 0 then 0 else r.lastMatchPrice) = min r.lastMatchPrice 0 := by
    split_ifs <;> omega
  rw [auctionRecords, hr]
  cases s
  · simp only [hs, Side.plain, hbuy]
    rfl
  · simp only [hs, Side.plain, hsell]
    rfl

theorem auctionRecords_concat {r : Order} (hr : ¬r.orderState.EndsAuction) (hs : o.side = s.plain) :
    auctionRecords (recs ++ [r]) o =
      (recs ++ [r]).map (Order.priced (some (o.flushed s r.lastMatchPrice))) := by
  have hst : r.orderState ≠ .canceledAllByAuction ∧
    r.orderState ≠ .canceledPartialByAuction := not_or.mp hr
  refine auctionRecords_found hs ?_
  rw [List.reverse_append, List.reverse_singleton, List.singleton_append,
    List.find?_cons_of_pos (by simpa using hst)]

/-- Where the last record is none of the residual and the order is filled, the price is
    that of the last record. -/
theorem auctionRecords_last {r : Order} (hr : ¬r.orderState.EndsAuction) (hs : o.side = s.plain)
    (h0 : o.remainQuantity = 0) :
    auctionRecords (recs ++ [r]) o =
      (recs ++ [r]).map (Order.priced (some (s.settle r.lastMatchPrice))) := by
  rw [auctionRecords_concat hr hs, Order.flushed, if_neg (not_not.mpr h0)]

/-- Where something of the order is left, the price is its stop limit price. -/
theorem auctionRecords_left {r : Order} (hmem : r ∈ recs) (hr : ¬r.orderState.EndsAuction)
    (hs : o.side = s.plain) (h0 : o.remainQuantity ≠ 0) :
    auctionRecords recs o = recs.map (Order.priced (some (o.stopLimit s))) := by
  have hst : r.orderState ≠ .canceledAllByAuction ∧
    r.orderState ≠ .canceledPartialByAuction := not_or.mp hr
  obtain ⟨x, hx⟩ : ∃ x, recs.reverse.find? (fun r =>
      r.orderState ≠ .canceledAllByAuction ∧ r.orderState ≠ .canceledPartialByAuction) =
        some x := by
    refine Option.ne_none_iff_exists'.mp fun hnone => ?_
    have hnot := List.find?_eq_none.mp hnone r (List.mem_reverse.mpr hmem)
    exact hnot (by simpa using hst)
  rw [auctionRecords_found hs hx, Order.flushed, if_pos h0]

/-- What a call delivers that recorded `rs` for its own engine only. -/
theorem reports_auction {rs : List (ℕ × Order)} (hidle : w.Idle) (hrs : ∀ x ∈ rs, x.1 = e)
    {held : ℕ → Bool} (htc : q.timeCondition = .auction) (hem : Emits (w.enter e q held) v rs) :
    (v.engines e).cbRecords = rs.map Prod.snd ∧
      (unlock (flushAuction v e) e).reports =
        w.reports ++ (auctionRecords (rs.map Prod.snd) v.arg).map (fun r => (e, r)) := by
  have hon : ((w.enter e q held).engines e).isAuction = true := by
    rw [World.isAuction_enter, if_pos ⟨rfl, htc⟩]
  have hself : rs.filter (fun x => x.1 = e) = rs :=
    List.filter_eq_self.mpr fun x hx => by simp [hrs x hx]
  have hnone : rs.filter (fun x => !((w.enter e q held).engines x.1).isAuction) = [] := by
    rw [List.filter_eq_nil_iff]
    intro x hx
    rw [hrs x hx, hon]
    simp
  have hcb : (v.engines e).cbRecords = rs.map Prod.snd := by
    rw [hem.cbRecords, World.cbRecords_enter, hidle.cbRecords, List.nil_append, if_pos hon, hself]
  refine ⟨hcb, ?_⟩
  rw [World.reports_unlock, World.reports_flush, hem.auction, if_pos hon, hcb, hem.reports, hnone,
    List.append_nil, World.reports_enter]

/-! ### New orders -/

/-- A request for a new order to buy or to sell. -/
theorem dispatch_plain (harg : w.arg = q) (ha : q.orderAction = .new) (hside : q.side = s.plain) :
    dispatch w e =
    if q.quantity = 0 then .ok (rejectArg (w.setArg { q with orderId := 0 }) e .rejectQuantityZero)
    else if q.displayQuantity > q.quantity then
      .ok (rejectArg (w.setArg { q with orderId := 0 }) e .rejectDisplayQuantityLargerThanQuantity)
    else if q.type ≠ .market ∧ q.price = marketPrice then
      .ok (rejectArg (w.bumpId.setArg (q.opened w.nextId)) e .rejectLimiteOrderWithMarketPrice)
    else executeArg (w.bumpId.setArg (q.opened w.nextId)) e s := by
  subst harg
  set v := w.setArg { w.arg with orderId := 0 } with hv
  have hinit : initNewOrder v = w.bumpId.setArg (w.arg.opened w.nextId) := initNewOrder_eq rfl
  have hplain : newPlain v e s = if w.arg.type ≠ .market ∧ w.arg.price = marketPrice then
      .ok (rejectArg (w.bumpId.setArg (w.arg.opened w.nextId)) e .rejectLimiteOrderWithMarketPrice)
      else executeArg (w.bumpId.setArg (w.arg.opened w.nextId)) e s := by
    simp only [newPlain, hinit, World.arg_setArg]
    rfl
  have hvside : v.arg.side = s.plain := hside
  have hnew : dispatch w e = newChecked v e := by
    simp only [dispatch, ha]
    rw [handleNew, if_pos ha]
  rw [hnew, newChecked, hvside, ← hplain]
  refine if_congr Iff.rfl rfl (if_congr Iff.rfl rfl ?_)
  cases s <;> rfl

end Matching
