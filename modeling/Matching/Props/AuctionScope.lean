import Matching.Engine.Asleep
import Matching.Engine.Sound
import Matching.Props.AmendPriority

/-! What an auction reprices. The flush at the end of an auction's call gives one price to every
    record of the call and does not ask whose trade it is of. Where the waiting stops sleep through
    the call, the records that are not of its own trades are those of a request that is turned away,
    of the order a cancellation or an amend found, and of a residual without a trade; they keep
    their price where it is the one the flush gives (`Order.Kept`), and only there. -/

namespace Matching

/-- `k` is the id of an execution step of the new order `o`, which its own records say. -/
def StepOf (recs : List Order) (o : Order) (k : ℕ) : Prop :=
  o.orderAction = .new ∧
    ∃ r ∈ recs, r.orderId = o.orderId ∧ r.matchedType = .taker ∧ r.orderState.IsFill ∧
      r.matchedId = k

instance (recs : List Order) (o : Order) (k : ℕ) : Decidable (StepOf recs o k) :=
  inferInstanceAs (Decidable (_ ∧ ∃ r ∈ recs, _))

/-- The record `r` is of a trade against the order `o`, or of what such trades left of it. -/
def OwnRecord (recs : List Order) (o r : Order) : Prop :=
  StepOf recs o r.matchedId ∧ (r.orderState.IsFill ∨ r.orderState.EndsAuction)

instance (recs : List Order) (o r : Order) : Decidable (OwnRecord recs o r) :=
  inferInstanceAs (Decidable (_ ∧ _))

/-- The records `recs` are delivered as `ds`, changed in their price if they are of the
    trades of the order `o`. -/
def Spared (recs : List Order) (o : Order) (ds : List Order) : Prop :=
  recs.length = ds.length ∧
    ∀ x ∈ recs.zip ds, x.2 = { x.1 with lastMatchPrice := x.2.lastMatchPrice } ∧
    (¬OwnRecord recs o x.1 → x.2.lastMatchPrice = x.1.lastMatchPrice)

instance (recs : List Order) (o : Order) (ds : List Order) : Decidable (Spared recs o ds) :=
  inferInstanceAs (Decidable (_ ∧ _))

/-- The records of the call, with the prices they have without the auction, and the
    request's order at its end. -/
inductive Records (w : World) (e : ℕ) (q : Order) : List Order → Order → Prop
  | stray (h : q.Stray) : Records w e q [{ q with orderState := .rejectAuctionSupportBuySellOnly }]
      { q with orderState := .rejectAuctionSupportBuySellOnly }
  | auction {held : ℕ → Bool} {v : World} (h : ¬q.Stray)
      (hlock : lockAll (w.conf e).mutexSet w.locked = .ok held)
      (hv : dispatch (w.enter e q held) e = .ok v) : Records w e q (v.engines e).cbRecords v.arg

/-- What the callback of engine `e` gets in the call from `w` to `w'` is repriced where it is of the
    auction's own trades only. -/
def Spares (w : World) (e : ℕ) (q : Order) (w' : World) : Prop :=
  ∃ recs o ds, Records w e q recs o ∧ w'.heardBy e = w.heardBy e ++ ds ∧ Spared recs o ds

namespace Order

/-- The request is turned away before anything is done for it. -/
def TurnedDown (q : Order) (g : Store) : Prop :=
  match q.orderAction with
  | .new => q.quantity = 0 ∨ q.displayQuantity > q.quantity ∨
      (q.type ≠ .market ∧ q.price = marketPrice)
  | .cancel => g.odrMap.find? q.orderId = none
  | .amend => q.quantity = 0 ∨ q.displayQuantity > q.quantity ∨ g.odrMap.find? q.orderId = none
  | _ => False

instance (q : Order) (g : Store) : Decidable (q.TurnedDown g) := by
  unfold TurnedDown
  split <;> infer_instance

/-- A limit order without a limit, which a replacement is turned away for once its order is gone. -/
def Unpriced (q : Order) : Prop := q.type ≠ .market ∧ q.price = marketPrice

instance (q : Order) : Decidable q.Unpriced := inferInstanceAs (Decidable (_ ∧ _))

end Order

/-- The order of the list with which the quantity `n` is filled. -/
def fillsAt : ℕ → List Order → Option Order
  | _, [] => none
  | n, m :: ms => if n ≤ m.remainQuantity then some m else fillsAt (n - m.remainQuantity) ms

/-- The price the flush gives where the auction order `o` was executed: that of the order it is
    filled with, or its stop limit price if the eligible orders do not fill it. -/
def Store.settled (g : Store) (s : Side) (o : Order) : ℤ :=
  if g.leftover s o = 0 then
    s.settle (((fillsAt o.remainQuantity (g.eligible s o)).map Order.price).getD 0)
  else o.stopLimit s

namespace Order

/-- No waiting stop comes due in the call of the request, an auction of side `s`. -/
def Lulls (q : Order) (w : World) (e : ℕ) (s : Side) : Prop :=
  q.TurnedDown (w.store e) ∨ match q.orderAction with
  | .new => w.Sleeps e ((w.store e).SleepsThroughTaker s (q.opened w.nextId))
  | .cancel =>
    ∀ o ∈ (w.store e).odrMap.find? q.orderId, w.Sleeps e ((w.store e).SleepsThroughCancel o)
  | .amend => ∀ o ∈ (w.store e).odrMap.find? q.orderId, canAmend q o = true ∨
      (w.Ok ∧ (w.store e).SleepsThroughCancel o ∧
        (q.Unpriced ∨ ((w.store e).withdrawn q.orderId o).SleepsThroughTaker s (q.opened w.nextId)))
  | _ => True

/-- What the call of the request, an auction of side `s`, reports apart from its own trades has the
    price the flush gives: the request that is turned away, the order that is cancelled or amended,
    a residual without a trade. -/
def Kept (q : Order) (w : World) (e : ℕ) (s : Side) : Prop :=
  if q.TurnedDown (w.store e) then s.settle q.lastMatchPrice = q.lastMatchPrice
  else match q.orderAction with
  | .cancel =>
    ∀ o ∈ (w.store e).odrMap.find? q.orderId, q.flushed s o.lastMatchPrice = o.lastMatchPrice
  | .amend => ∀ o ∈ (w.store e).odrMap.find? q.orderId,
      if canAmend q o then o.orderState.EndsAuction ∨
        q.flushed s o.lastMatchPrice = o.lastMatchPrice
      else if q.Unpriced then s.settle q.lastMatchPrice = q.lastMatchPrice ∧
        o.lastMatchPrice = q.lastMatchPrice
      else
        let g := (w.store e).withdrawn q.orderId o
        let p := g.settled s (q.opened w.nextId)
        o.lastMatchPrice = p ∧ (g.eligible s (q.opened w.nextId) = [] → q.lastMatchPrice = p)
  | _ => True

end Order

variable {w w' w1 v : World} {e n : ℕ} {s : Side} {q o : Order} {rs rs' : List (ℕ × Order)}

/-! ### Own trades -/

/-- Every report is of an execution step of the order `id` of engine `e`. -/
def OwnReports (e id : ℕ) (rs : List (ℕ × Order)) : Prop :=
  ∀ y ∈ rs, (y.2.orderState.IsFill ∨ y.2.orderState.EndsAuction) ∧ ∃ z ∈ rs, z.1 = e ∧
    z.2.orderId = id ∧ z.2.matchedType = .taker ∧ z.2.orderState.IsFill ∧
    z.2.matchedId = y.2.matchedId

theorem OwnReports.append {id : ℕ} (h : OwnReports e id rs) (h' : OwnReports e id rs') :
    OwnReports e id (rs ++ rs') := by
  intro y hy
  rcases List.mem_append.mp hy with hy | hy
  · obtain ⟨hst, z, hz, hown⟩ := h y hy
    exact ⟨hst, z, List.mem_append_left _ hz, hown⟩
  · obtain ⟨hst, z, hz, hown⟩ := h' y hy
    exact ⟨hst, z, List.mem_append_right _ hz, hown⟩

/-- Between `w` and `w'` the request's order trades, and nothing else is reported. -/
structure Trading (e : ℕ) (w w' : World) (rs : List (ℕ × Order)) : Prop where
  emits : Emits w w' rs
  own : OwnReports e w.arg.orderId rs
  orderId : w'.arg.orderId = w.arg.orderId
  orderAction : w'.arg.orderAction = w.arg.orderAction
  timeCondition : w'.arg.timeCondition = w.arg.timeCondition
  last : (rs = [] ∧ w'.arg = w.arg) ∨
    ((e, w'.arg) ∈ rs ∧ w'.arg.matchedType = .taker ∧ w'.arg.orderState.IsFill)

namespace Trading

theorem refl (e : ℕ) (w : World) : Trading e w w [] :=
  ⟨Emits.refl w, fun _ h => (nomatch h), rfl, rfl, rfl, Or.inl ⟨rfl, rfl⟩⟩

theorem trans (h : Trading e w v rs) (h' : Trading e v w' rs') : Trading e w w' (rs ++ rs') := by
  refine ⟨h.emits.trans h'.emits, h.own.append (h.orderId ▸ h'.own), h'.orderId.trans h.orderId,
    h'.orderAction.trans h.orderAction, h'.timeCondition.trans h.timeCondition, ?_⟩
  rcases h'.last with ⟨hnil, harg⟩ | ⟨hmem, hrest⟩
  · rw [hnil, List.append_nil, harg]
    exact h.last
  · exact Or.inr ⟨List.mem_append_right _ hmem, hrest⟩

/-- One step. -/
theorem step {rec : MatchedRecord} {x : Iter × Option Iter}
    (h : executeStep w e .arg rec = .ok (w', x)) : ∃ rs, Trading e w w' rs := by
  obtain ⟨y, ms, o, t, hem, hall, ⟨a, b, ht⟩, hread, harg⟩ := executeStep_reports h
  obtain rfl := harg rfl
  have hw' : w'.arg = t := Except.ok.inj hread
  have hmem : (e, t) ∈ y :: (ms ++ [(e, t)]) := by simp
  have hfill := (hall _ hmem).2
  refine ⟨_, hem, fun z hz => ⟨Or.inl (hall z hz).2, (e, t), hmem, rfl, by rw [ht]; rfl,
      by rw [ht]; rfl, hfill, ?_⟩,
    by rw [hw', ht]; rfl, by rw [hw', ht]; rfl, by rw [hw', ht]; rfl,
    Or.inr ⟨by rw [hw']; exact hmem, by rw [hw', ht]; rfl, by rw [hw']; exact hfill⟩⟩
  rw [(hall _ hmem).1, (hall _ hz).1]

/-- The loop of `normal_match`, whatever its iterators are. -/
theorem loop {tick : ℤ} :
    ∀ (n : ℕ) {w : World} {m : Matcher} {b : Bool}, w.arg.timeCondition = .auction →
    normalLoop e s .arg tick n w m = .ok (w', b) → b = false ∧ ∃ rs, Trading e w w' rs
  | 0, _, _, _, _, h => by cases h
  | n + 1, w, m, b, htc, h => by
    have hread : w.readRef e .arg = .ok w.arg := rfl
    have hdone : (pure (w, false) : Except Fault (World × Bool)) = .ok (w', b) →
        b = false ∧ ∃ rs, Trading e w w' rs := fun hp => by
      obtain ⟨rfl, rfl⟩ := Prod.mk.inj (pure_ok.mp hp)
      exact ⟨rfl, [], refl e w⟩
    rw [normalLoop, hread, ok_bind] at h
    split at h
    · exact hdone h
    simp only [htc, reduceCtorEq, if_false] at h
    obtain ⟨t, _, h⟩ := bind_ok.mp h
    split at h
    · exact hdone h
    split at h
    · exact hdone h
    split at h
    · obtain ⟨⟨w1, it, _⟩, hstep, h⟩ := bind_ok.mp h
      obtain ⟨rs, hrs⟩ := step hstep
      obtain ⟨hb, rs', hrs'⟩ := loop n (hrs.timeCondition.trans htc) h
      exact ⟨hb, _, hrs.trans hrs'⟩
    · split at h
      · cases h
      · obtain ⟨⟨w1, it1, it2⟩, hstep, h⟩ := bind_ok.mp h
        obtain ⟨rs, hrs⟩ := step hstep
        obtain ⟨hb, rs', hrs'⟩ := loop n (hrs.timeCondition.trans htc) h
        exact ⟨hb, _, hrs.trans hrs'⟩

end Trading

/-- What an auction order leaves in the records: its own trades, and the report of a
    residual that carries the id of the last of them; or, if there are none, the report of
    its cancellation alone. -/
def AuctionReports (e id : ℕ) (rs : List (ℕ × Order)) : Prop :=
  OwnReports e id rs ∨ ∃ o, rs = [(e, o)] ∧ o.orderState = .canceledAllByAuction

theorem normalMatch_own {tick : ℤ} (htc : w.arg.timeCondition = .auction)
    (hwhole : w.arg.remainQuantity = w.arg.quantity) (h : normalMatch w e s .arg tick = .ok w') :
    ∃ rs, Emits w w' rs ∧ w'.arg.orderId = w.arg.orderId ∧
      w'.arg.orderAction = w.arg.orderAction ∧ AuctionReports e w.arg.orderId rs := by
  have hread : ∀ v : World, v.readRef e .arg = .ok v.arg := fun _ => rfl
  simp only [normalMatch, hread, ok_bind, bind_ok] at h
  obtain ⟨m, _, ⟨w1, b⟩, hloop, h⟩ := h
  obtain ⟨rfl, rs, hrs⟩ := Trading.loop _ htc hloop
  simp only [Bool.false_eq_true, if_false, residual, hread, ok_bind, hrs.timeCondition.trans htc,
    reduceCtorEq, if_true] at h
  split at h
  · obtain rfl := pure_ok.mp h
    exact ⟨rs, hrs.emits, hrs.orderId, hrs.orderAction, Or.inl hrs.own⟩
  simp only [killTaker, hread, ok_bind, pure_ok] at h
  generalize hst : (if w1.arg.quantity = w1.arg.remainQuantity then OrderStatus.canceledAllByAuction
    else .canceledPartialByAuction) = st at h
  have hends : st.EndsAuction := by
    rw [← hst]
    split_ifs
    · exact Or.inl rfl
    · exact Or.inr rfl
  subst h
  set o : Order := { w1.arg with orderState := st } with ho
  have hem : Emits w1 ((w1.writeRef e .arg o).callback e o) [(e, o)] :=
    (Emits.writeRef w1 e .arg _).trans (Emits.callback ..)
  have harg : ((w1.writeRef e .arg o).callback e o).arg = o := World.arg_callback ..
  refine ⟨_,
    hrs.emits.trans hem, by rw [harg]; exact hrs.orderId, by rw [harg]; exact hrs.orderAction, ?_⟩
  rcases hrs.last with ⟨rfl, hsame⟩ | ⟨hmem, htype, hfill⟩
  · refine Or.inr ⟨_, rfl, ?_⟩
    rw [hsame, hwhole] at hst
    simpa [ho] using hst.symm
  · refine Or.inl fun y hy => ?_
    rcases List.mem_append.mp hy with hy | hy
    · obtain ⟨hfin, z, hz, hown⟩ := hrs.own y hy
      exact ⟨hfin, z, List.mem_append_left _ hz, hown⟩
    · obtain rfl := List.mem_singleton.mp hy
      exact ⟨Or.inr hends, _, List.mem_append_left _ hmem, rfl, hrs.orderId, htype, hfill, rfl⟩

/-! ### The flush -/

theorem spared_priced {recs : List Order} {c : Option ℤ} :
    Spared recs o (recs.map (Order.priced c)) ↔
    ∀ r ∈ recs, ¬OwnRecord recs o r → (r.priced c).lastMatchPrice = r.lastMatchPrice := by
  have hzip : recs.zip (recs.map (Order.priced c)) = recs.map fun r => (r, r.priced c) :=
    List.map_prod_left_eq_zip.symm
  rw [Spared, hzip, List.length_map]
  refine ⟨fun h r hr => (h.2 _ (List.mem_map_of_mem hr)).2, fun h => ⟨rfl, fun x hx => ?_⟩⟩
  obtain ⟨r, hr, rfl⟩ := List.mem_map.mp hx
  refine ⟨?_, h r hr⟩
  cases c <;> rfl

/-- A record that is not of the auction's own trades keeps its price where the
    flush gives the same one. -/
theorem spared_single {r : Order} (hside : o.side = s.plain) (hno : ¬OwnRecord [r] o r) :
    Spared [r] o (auctionRecords [r] o) ↔ r.orderState.EndsAuction ∨
      o.flushed s r.lastMatchPrice = r.lastMatchPrice := by
  by_cases hr : r.orderState.EndsAuction
  · rw [auctionRecords_ends fun x hx => by rwa [List.mem_singleton.mp hx]]
    refine iff_of_true ?_ (Or.inl hr)
    have hself : Spared [r] o ([r].map (Order.priced none)) := spared_priced.mpr fun x _ _ => rfl
    exact hself
  · have hrecs : auctionRecords ([] ++ [r]) o = _ := auctionRecords_concat hr hside
    rw [List.nil_append] at hrecs
    rw [hrecs, spared_priced]
    constructor
    · exact fun h => Or.inr (h r (List.mem_singleton_self r) hno)
    · intro h x hx _
      rw [List.mem_singleton.mp hx]
      exact h.resolve_left hr

section Flush

variable {held : ℕ → Bool} (hidle : w.Idle) (htc : q.timeCondition = .auction) (hs : ¬q.Stray)
  (hlock : lockAll (w.conf e).mutexSet w.locked = .ok held)
    (hv : dispatch (w.enter e q held) e = .ok v)
include hidle htc hs hlock hv

/-- What is said of a call is said of the flush of its records. -/
theorem spares_iff {recs : List Order} (hem : Emits (w.enter e q held) v rs)
    (hrecs : (rs.filter fun x => x.1 = e).map Prod.snd = recs) :
    Spares w e q (unlock (flushAuction v e) e) ↔ Spared recs v.arg (auctionRecords recs v.arg) := by
  have hon : ((w.enter e q held).engines e).isAuction = true := by
    rw [World.isAuction_enter, if_pos ⟨rfl, htc⟩]
  obtain ⟨hcb, hheard⟩ :=
    heardBy_auction hon ((w.cbRecords_enter e e q held).trans (hidle.cbRecords e)) hem
  have hbefore : (w.enter e q held).heardBy e = w.heardBy e := by
    rw [World.heardBy, World.reports_enter, World.heardBy]
  rw [hrecs] at hcb hheard
  rw [hbefore] at hheard
  constructor
  · rintro ⟨recs', o, ds, hof, hds, hspared⟩
    obtain rfl := List.append_cancel_left (hheard.symm.trans hds)
    cases hof with
    | stray h => exact absurd h hs
    | auction _ hlock' hv' =>
      obtain rfl := Except.ok.inj (hlock.symm.trans hlock')
      obtain rfl := Except.ok.inj (hv.symm.trans hv')
      rwa [hcb] at hspared
  · exact fun h => ⟨_, _, _, Records.auction hs hlock hv, hheard, hcb.symm ▸ h⟩

/-- A call with one record, which is not of its own trades. -/
theorem spares_single {r : Order} (hside : v.arg.side = s.plain)
    (hem : Emits (w.enter e q held) v [(e, r)]) (hno : ¬OwnRecord [r] v.arg r) :
    Spares w e q (unlock (flushAuction v e) e) ↔
      r.orderState.EndsAuction ∨ v.arg.flushed s r.lastMatchPrice = r.lastMatchPrice := by
  have hrecs : ([(e, r)].filter fun x => x.1 = e).map Prod.snd = [r] := by simp
  rw [spares_iff hidle htc hs hlock hv hem hrecs, spared_single hside hno]

end Flush

/-! ### Requests that are turned away -/

/-- The report of a request that is turned away: the request as it was, with a
    reason and nothing left. -/
structure Rejected (q o : Order) : Prop where
  remain : o.remainQuantity = 0
  side : o.side = q.side
  price : o.lastMatchPrice = q.lastMatchPrice
  state : o.orderState.isReject = true

theorem Rejected.reject {x : World} {st : OrderStatus} (hst : st.isReject = true)
    (hem : Emits w x []) (hside : x.arg.side = q.side)
    (hprice : x.arg.lastMatchPrice = q.lastMatchPrice) :
    Emits w (rejectArg x e st) [(e, (rejectArg x e st).arg)] ∧
      Rejected q (rejectArg x e st).arg := by
  have harg : (rejectArg x e st).arg = { x.arg with orderState := st, remainQuantity := 0 } :=
    World.arg_callback ..
  rw [harg]
  exact ⟨hem.trans ((Emits.setArg x _).trans (Emits.callback ..)), rfl, hside, hprice, hst⟩

theorem dispatch_turnedDown (harg : w.arg = q) (hside : q.side = s.plain)
    (h : q.TurnedDown (w.store e)) (hv : dispatch w e = .ok v) :
    Emits w v [(e, v.arg)] ∧ Rejected q v.arg := by
  have hself : ∀ {x : World} {st : OrderStatus}, st.isReject = true → Emits w x [] →
      x.arg.side = q.side → x.arg.lastMatchPrice = q.lastMatchPrice → rejectArg x e st = v →
      Emits w v [(e, v.arg)] ∧ Rejected q v.arg := by
    rintro x st hst hem hs hp rfl
    exact Rejected.reject hst hem hs hp
  unfold Order.TurnedDown at h
  split at h
  · rename_i ha
    rw [dispatch_plain harg ha hside] at hv
    have hset : Emits w (w.setArg { q with orderId := 0 }) [] := Emits.setArg w _
    split at hv
    · exact hself rfl hset rfl rfl (Except.ok.inj hv)
    rename_i h0
    split at hv
    · exact hself rfl hset rfl rfl (Except.ok.inj hv)
    rename_i hd
    have hp := (h.resolve_left h0).resolve_left hd
    rw [if_pos hp] at hv
    have hopen : Emits w (w.bumpId.setArg (q.opened w.nextId)) [] :=
      (Emits.bumpId w).trans (Emits.setArg _ _)
    exact hself rfl hopen rfl rfl (Except.ok.inj hv)
  · rename_i ha
    subst harg
    have hnone : w.order? e w.arg.orderId = none := h
    simp only [dispatch, ha, handleCancel, hnone, World.arg_setArg] at hv
    obtain rfl := pure_ok.mp hv
    refine ⟨?_, ?_⟩
    · rw [World.arg_callback]
      exact ((Emits.setArg w _).trans (Emits.setArg _ _)).trans (Emits.callback ..)
    · rw [World.arg_callback]
      exact ⟨rfl, rfl, rfl, rfl⟩
  · rename_i ha
    subst harg
    simp only [dispatch, ha, handleAmend] at hv
    split at hv
    · exact hself rfl (Emits.refl w) rfl rfl (pure_ok.mp hv)
    rename_i h0
    split at hv
    · exact hself rfl (Emits.refl w) rfl rfl (pure_ok.mp hv)
    rename_i hd
    have hnone : w.order? e w.arg.orderId = none := (h.resolve_left h0).resolve_left hd
    rw [hnone] at hv
    exact hself rfl (Emits.refl w) rfl rfl (pure_ok.mp hv)
  · exact h.elim

/-- A request that is turned away. -/
theorem spares_turnedDown {held : ℕ → Bool} (hidle : w.Idle) (htc : q.timeCondition = .auction)
    (hs : ¬q.Stray) (hside : q.side = s.plain)
    (hlock : lockAll (w.conf e).mutexSet w.locked = .ok held)
    (hv : dispatch (w.enter e q held) e = .ok v) (hdown : q.TurnedDown (w.store e)) :
    Spares w e q (unlock (flushAuction v e) e) ↔ s.settle q.lastMatchPrice = q.lastMatchPrice := by
  have hstore : (w.enter e q held).store e = w.store e := World.store_enter ..
  obtain ⟨hem, hrej⟩ := dispatch_turnedDown (World.arg_enter ..) hside (hstore.symm ▸ hdown) hv
  have hneither : ¬(v.arg.orderState.IsFill ∨ v.arg.orderState.EndsAuction) := by
    have hst := hrej.state
    rintro ((hc | hc) | hc | hc) <;> rw [hc] at hst <;> cases hst
  rw [spares_single hidle htc hs hlock hv (hrej.side.trans hside) hem fun hown => hneither hown.2,
    hrej.price, Order.flushed, hrej.remain, if_neg (not_not.mpr rfl)]
  exact or_iff_right fun hends => hneither (Or.inr hends)

/-! ### Records of a replacement -/

/-- All trades of a taker are under its id. -/
theorem orderId_taker :
    ∀ (n : ℕ) (o : Order) (ms : List Order), ∀ t ∈ trades n o ms, t.taker.orderId = o.orderId
  | _, _, [], _, ht => nomatch ht
  | n, o, m :: ms, t, ht => by
    rw [trades] at ht
    split_ifs at ht
    · cases ht
    rcases List.mem_cons.mp ht with rfl | ht
    · rfl
    · have hrest := orderId_taker (n + 1) _ ms t ht
      exact hrest

/-- The last trade of a taker that is filled is with the order it is filled with. -/
theorem last_trade : ∀ (n : ℕ) (o : Order) (ms : List Order), o.remainQuantity ≠ 0 →
    o.remainQuantity ≤ (ms.map Order.remainQuantity).sum →
    ∃ t, (trades n o ms).getLast? = some t ∧ fillsAt o.remainQuantity ms = some t.maker
  | _, _, [], h0, h => absurd (Nat.le_zero.mp h) h0
  | n, o, m :: ms, h0, h => by
    rw [trades_cons n m ms h0]
    set t : Trade := ⟨m, o, min m.remainQuantity o.remainQuantity, n⟩ with ht
    have hrest : t.takerAfter.remainQuantity =
        o.remainQuantity - min m.remainQuantity o.remainQuantity := by
      rw [Trade.takerAfter, engineMatch_remainQuantity, subU64_of_le (min_le_right _ _)]
    by_cases hle : o.remainQuantity ≤ m.remainQuantity
    · rw [trades_of_filled _ (by omega)]
      exact ⟨t, rfl, if_pos hle⟩
    · rw [List.map_cons, List.sum_cons] at h
      have hmin : min m.remainQuantity o.remainQuantity = m.remainQuantity := min_eq_left (by omega)
      rw [hmin] at hrest
      obtain ⟨u, hu, hfill⟩ := last_trade (n + 1) t.takerAfter ms (by omega) (by omega)
      refine ⟨u, ?_, ?_⟩
      · rw [List.getLast?_cons, hu]
        rfl
      · rw [fillsAt, if_neg hle, ← hrest]
        exact hfill

/-- The flush of the records of a replacement: the order that was there, the trades of the new one,
    and what ends it. -/
theorem spared_replaced {c : Order} {T : List Trade} {tail : List Order} {p : ℤ}
    (hc : c.orderState = .canceledByAmend) (hnew : o.orderAction = .new)
    (hT : ∀ t ∈ T, t.taker.orderId = o.orderId) :
    Spared (c :: ((tradeReports e T).map Prod.snd ++ tail)) o
      ((c :: ((tradeReports e T).map Prod.snd ++ tail)).map (Order.priced (some p))) ↔
    p = c.lastMatchPrice ∧
      ∀ r ∈ tail, ¬OwnRecord (c :: ((tradeReports e T).map Prod.snd ++ tail)) o r →
        p = r.lastMatchPrice := by
  set recs := c :: ((tradeReports e T).map Prod.snd ++ tail) with hrecs
  have hself : ¬OwnRecord recs o c := fun hown => by
    have hfin := hown.2
    rw [hc] at hfin
    exact absurd hfin (by decide)
  have hown : ∀ r ∈ (tradeReports e T).map Prod.snd, OwnRecord recs o r := by
    intro r hr
    obtain ⟨x, hx, rfl⟩ := List.mem_map.mp hr
    obtain ⟨t, ht, hx⟩ := List.mem_flatMap.mp hx
    have hstep : StepOf recs o t.matchedId := by
      refine ⟨hnew, t.takerAfter, ?_, hT t ht, rfl, engineMatch_isFill .., rfl⟩
      rw [hrecs]
      refine List.mem_cons_of_mem _
        (List.mem_append_left _ (List.mem_map.mpr ⟨(e, t.takerAfter), ?_, rfl⟩))
      exact List.mem_flatMap.mpr ⟨t, ht, by simp⟩
    rcases List.mem_cons.mp hx with rfl | hx
    · exact ⟨hstep, Or.inl (engineMatch_isFill ..)⟩
    · rw [List.mem_singleton.mp hx]
      exact ⟨hstep, Or.inl (engineMatch_isFill ..)⟩
  rw [spared_priced]
  constructor
  · exact fun h =>
      ⟨h c List.mem_cons_self hself,
        fun r hr => h r (List.mem_cons_of_mem _ (List.mem_append_right _ hr))⟩
  · rintro ⟨hcp, htail⟩ r hr hno
    rcases List.mem_cons.mp hr with rfl | hr
    · exact hcp
    · rcases List.mem_append.mp hr with hr | hr
      · exact absurd (hown r hr) hno
      · exact htail r hr hno

/-- What is left of a replacement is of its own trades if there are any. -/
theorem ownRecord_residual {c : Order} {T : List Trade} (hauc : Auctioned w e s v)
    (h0 : w.arg.remainQuantity ≠ 0) (hc : c.orderState = .canceledByAmend)
    (hT : T = trades w.nextId w.arg ((w.store e).eligible s w.arg))
    (hleft : (w.store e).leftover s w.arg ≠ 0) (hvact : v.arg.orderAction = .new)
    (htakers : ∀ t ∈ T, t.taker.orderId = v.arg.orderId) :
    OwnRecord (c :: ((tradeReports e T).map Prod.snd ++ [v.arg])) v.arg v.arg ↔
      (w.store e).eligible s w.arg ≠ [] := by
  obtain ⟨hends, hafter⟩ := hauc.ends hleft
  rw [← hT] at hafter
  rcases hel : (w.store e).eligible s w.arg with _ | ⟨m, ms⟩
  · refine iff_of_false (fun hown => ?_) (fun hne => hne rfl)
    obtain ⟨r, hr, -, -, hfill, -⟩ := hown.1.2
    rw [hT, hel] at hr
    rcases List.mem_cons.mp hr with rfl | hr
    · rw [hc] at hfill
      exact absurd hfill (by decide)
    · rw [List.mem_singleton.mp hr] at hfill
      exact hfill.not_endsAuction hends
  · -- the residual is what the last trade left, and has its step
    refine iff_of_true ⟨⟨hvact, ?_⟩, Or.inr hends⟩ (List.cons_ne_nil m ms)
    have hne : T ≠ [] := by
      rw [hT, hel, trades_cons _ _ _ h0]
      exact List.cons_ne_nil _ _
    obtain ⟨T', t, hlast⟩ := (List.eq_nil_or_concat T).resolve_left hne
    rw [List.concat_eq_append] at hlast
    have hmid : v.arg.matchedId = t.takerAfter.matchedId := by
      rw [hafter, hlast, afterTrades, List.getLast?_concat]
      rfl
    have hmem : (e, t.takerAfter) ∈ tradeReports e T :=
      List.mem_flatMap.mpr ⟨t, by rw [hlast]; simp, by simp⟩
    exact ⟨t.takerAfter,
      List.mem_cons_of_mem _ (List.mem_append_left _ (List.mem_map_of_mem hmem)),
      htakers t (by rw [hlast]; simp), rfl, engineMatch_isFill .., hmid.symm⟩

/-- The flush after the execution of a replacement. -/
theorem spared_auctioned {c : Order} (hauc : Auctioned w e s v) (h0 : w.arg.remainQuantity ≠ 0)
    (hact : w.arg.orderAction = .new) (hside : w.arg.side = s.plain)
    (hc : c.orderState = .canceledByAmend) {recs : List Order}
    (hrecs :
      recs = c ::
        ((tradeReports e (trades w.nextId w.arg ((w.store e).eligible s w.arg))).map Prod.snd ++
        if (w.store e).leftover s w.arg = 0 then [] else [v.arg])) :
    Spared recs v.arg (auctionRecords recs v.arg) ↔ c.lastMatchPrice = (w.store e).settled s w.arg ∧
      ((w.store e).eligible s w.arg = [] → w.arg.lastMatchPrice = (w.store e).settled s w.arg) := by
  obtain ⟨o1, hfilled, hrem, harg⟩ := hauc.kept
  have hvact : v.arg.orderAction = .new := by
    rw [harg, ← hact, hfilled.eq]
  have hvid : v.arg.orderId = w.arg.orderId := by
    rw [harg, ← hfilled.orderId]
  have hvside : v.arg.side = s.plain := by
    rw [harg, ← hside, ← hfilled.side]
  have hvrem : v.arg.remainQuantity = (w.store e).leftover s w.arg := by
    rw [harg, ← hrem]
  have hvlimit : v.arg.stopLimit s = w.arg.stopLimit s := by
    rw [harg, ← hfilled.stopLimit s]
    cases s <;> rfl
  have htakers : ∀ t ∈ trades w.nextId w.arg ((w.store e).eligible s w.arg),
      t.taker.orderId = v.arg.orderId :=
    fun t ht => (orderId_taker _ _ _ t ht).trans hvid.symm
  by_cases hleft : (w.store e).leftover s w.arg = 0
  · rw [if_pos hleft] at hrecs
    obtain ⟨t, hlast, hfill⟩ := last_trade w.nextId w.arg ((w.store e).eligible s w.arg) h0 (by
      rw [Store.leftover] at hleft
      omega)
    obtain ⟨T, hT⟩ := List.getLast?_eq_some_iff.mp hlast
    have hprice : (w.store e).settled s w.arg = s.settle t.maker.price := by
      rw [Store.settled, if_pos hleft, hfill]
      rfl
    have hflush : auctionRecords recs v.arg =
        recs.map (Order.priced (some (s.settle t.maker.price))) := by
      have hend : recs =
          (c :: ((tradeReports e T).map Prod.snd ++ [t.makerAfter])) ++ [t.takerAfter] := by
        rw [hrecs, hT, tradeReports_concat, List.append_nil]
        rfl
      have hlast : ¬t.takerAfter.orderState.EndsAuction := (engineMatch_isFill ..).not_endsAuction
      rw [hend, auctionRecords_last hlast hvside (by rw [hvrem, hleft])]
      rfl
    rw [hflush, hprice, hrecs, spared_replaced hc hvact htakers]
    constructor
    · exact fun h => ⟨h.1.symm, fun hnil => absurd hleft (by rw [Store.leftover, hnil]; exact h0)⟩
    · exact fun h => ⟨h.1.symm, fun r hr => by cases hr⟩
  · rw [if_neg hleft] at hrecs
    have hprice : (w.store e).settled s w.arg = v.arg.stopLimit s := by
      rw [Store.settled, if_neg hleft, hvlimit]
    have hcend : ¬c.orderState.EndsAuction := by
      rw [hc]
      decide
    rw [auctionRecords_left (r := c) (by rw [hrecs]; exact List.mem_cons_self) hcend hvside
      (by rw [hvrem]; exact hleft), hprice, hrecs, spared_replaced hc hvact htakers]
    set T := trades w.nextId w.arg ((w.store e).eligible s w.arg) with hT
    have hown := ownRecord_residual hauc h0 hc hT hleft hvact htakers
    have hnone : (w.store e).eligible s w.arg = [] →
        v.arg.lastMatchPrice = w.arg.lastMatchPrice := fun hel => by
      rw [(hauc.ends hleft).2, hel]
      rfl
    constructor
    · rintro ⟨hcp, htail⟩
      refine ⟨hcp.symm, fun hel => ?_⟩
      rw [← hnone hel]
      exact (htail v.arg (List.mem_singleton_self _) fun h => hown.mp h hel).symm
    · rintro ⟨hcp, htail⟩
      refine ⟨hcp.symm, fun r hr hno => ?_⟩
      obtain rfl := List.mem_singleton.mp hr
      have hel := not_not.mp (mt hown.mpr hno)
      rw [hnone hel]
      exact (htail hel).symm

/-! ### Orders that are executed, cancelled or amended -/

theorem World.Sleeps.congr {P : Prop} (h : w.Sleeps e P) (hst : ∀ l, w'.store l = w.store l) :
    w'.Sleeps e P := by
  rcases h with hnil | ⟨hok, hP⟩
  · exact Or.inl fun t => by rw [hst]; exact hnil t
  · exact Or.inr ⟨fun l => by rw [hst]; exact hok l, hP⟩

/-- A new order that is not turned away is executed. -/
theorem dispatch_executed (harg : w.arg = q) (ha : q.orderAction = .new)
    (hside : q.side = s.plain) (hup : ¬q.TurnedDown (w.store e)) :
    dispatch w e = executeArg (w.bumpId.setArg (q.opened w.nextId)) e s := by
  rw [Order.TurnedDown, ha] at hup
  obtain ⟨hq0, hrest⟩ := not_or.mp hup
  obtain ⟨hd, hprice⟩ := not_or.mp hrest
  rw [dispatch_plain harg ha hside, if_neg hq0, if_neg hd, if_neg hprice]

/-- An amend that takes the order out goes on as a request for a new one. -/
theorem handleAmend_replaced (hq : w.arg = q) (ha : q.orderAction = .amend) (hq0 : q.quantity ≠ 0)
    (hd : ¬q.displayQuantity > q.quantity) (hf : (w.store e).odrMap.find? q.orderId = some o)
    (hc : canAmend q o ≠ true) (hi : ∀ t, (w.conf e).impliers t = [])
    (hsleep : w.Sleeps e ((w.store e).SleepsThroughCancel o)) (h : handleAmend w e = .ok v) :
    ∃ u, TakenOut w e q.orderId o { o with
      orderAction := .amend, orderState := .canceledByAmend } u ∧
      dispatch
        (u.setArg { q with clientOrderId := o.clientOrderId, orderId := 0, orderAction := .new })
        e = .ok v := by
  subst hq
  simp only [handleAmend, if_neg hq0, if_neg hd, World.order?, hf] at h
  split at h
  · exact absurd ‹_› hc
  obtain ⟨⟨u, b⟩, hu, hnew⟩ := bind_ok.mp h
  have hst : cancelState w.arg.orderAction = some .canceledByAmend := by rw [ha]; rfl
  obtain ⟨rfl, hwith⟩ := handleCancel_asleep w.arg.orderAction rfl hi hst hf hsleep hu
  rw [ha] at hwith
  refine ⟨u, hwith, ?_⟩
  rw [← hnew]
  simp only [hwith.arg, if_true]
  rfl

section Call

variable {held : ℕ → Bool} (hidle : w.Idle) (htc : q.timeCondition = .auction)
  (hside : q.side = s.plain) (hs : ¬q.Stray)
  (hi : ∀ t, (w.conf e).impliers t = []) (hlock : lockAll (w.conf e).mutexSet w.locked = .ok held)
  (hv : dispatch (w.enter e q held) e = .ok v)
include hidle htc hside hs hi hlock hv

/-- A new order reports its own trades, or that it was cancelled without any. -/
theorem spares_new (hup : ¬q.TurnedDown (w.store e)) (ha : q.orderAction = .new)
    (hlull : q.Lulls w e s) : Spares w e q (unlock (flushAuction v e) e) := by
  have hq0 : q.quantity ≠ 0 := fun h0 => hup (by rw [Order.TurnedDown, ha]; exact Or.inl h0)
  have hdispatch :=
    dispatch_executed (World.arg_enter w e q held) ha hside (by rw [World.store_enter]; exact hup)
  rw [World.nextId_enter, hv] at hdispatch
  set x := (w.enter e q held).bumpId.setArg (q.opened w.nextId) with hx
  have hstore : ∀ l, x.store l = w.store l := fun l => World.store_enter ..
  have hlull' : x.Sleeps e ((x.store e).SleepsThroughTaker s x.arg) := by
    have hlull := hlull.resolve_left hup
    rw [ha] at hlull
    rw [hstore]
    exact World.Sleeps.congr hlull hstore
  have hxi : ∀ t, (x.conf e).impliers t = [] := fun t => by
    rw [← hi t]
    exact congrArg (Config.impliers · t) (World.conf_enter ..)
  have hex := executeArg_asleep hxi htc hq0 hlull' hdispatch.symm
  have hnf : x.arg.timeCondition ≠ .fok := by
    rw [show x.arg.timeCondition = .auction from htc]
    decide
  simp only [execute, show x.readRef e .arg = .ok x.arg from rfl, ok_bind, if_neg hnf] at hex
  obtain ⟨rs, hem, hid, hact, hown⟩ := normalMatch_own (w := x.logExec e s .arg x.arg) htc rfl hex
  have hall : Emits (w.enter e q held) v ([] ++ rs) :=
    ((Emits.bumpId _).trans (Emits.setArg _ _)).trans ((Emits.logExec ..).trans hem)
  refine (spares_iff hidle htc hs hlock hv hall rfl).mpr ?_
  rw [List.nil_append]
  rcases hown with hown | ⟨o, rfl, hst⟩
  · obtain ⟨c, hc⟩ := auctionRecords_eq ((rs.filter fun x => x.1 = e).map Prod.snd) v.arg
    rw [hc]
    refine spared_priced.mpr fun r hr hno => absurd ?_ hno
    obtain ⟨y, hy, rfl⟩ := List.mem_map.mp hr
    obtain ⟨hfin, z, hz, hze, hzid, hrest⟩ := hown y (List.mem_of_mem_filter hy)
    exact ⟨⟨hact.trans ha, z.2, List.mem_map_of_mem (List.mem_filter.mpr ⟨hz, by simpa using hze⟩),
      hzid.trans hid.symm, hrest⟩, hfin⟩
  · have hfilter : [(e, o)].filter (fun x => x.1 = e) = [(e, o)] :=
      List.filter_cons_of_pos (by simp)
    have hends : ∀ r ∈ [o], r.orderState.EndsAuction := fun r hr => by
      rw [List.mem_singleton.mp hr]
      exact Or.inl hst
    rw [hfilter]
    change Spared [o] _ (auctionRecords [o] v.arg)
    rw [auctionRecords_ends hends]
    exact (spared_priced (c := none)).mpr fun r _ _ => rfl

/-- A cancellation reports the order it found. -/
theorem spares_cancel (hup : ¬q.TurnedDown (w.store e)) (ha : q.orderAction = .cancel)
    (hf : (w.store e).odrMap.find? q.orderId = some o) (hlull : q.Lulls w e s) :
    Spares w e q (unlock (flushAuction v e) e) ↔
      q.flushed s o.lastMatchPrice = o.lastMatchPrice := by
  set x := w.enter e q held with hx
  have hxarg : x.arg = q := World.arg_enter ..
  have hstore : ∀ l, x.store l = w.store l := fun l => World.store_enter ..
  have hxf : (x.store e).odrMap.find? q.orderId = some o := by
    rw [hstore]
    exact hf
  have hxi : ∀ t, (x.conf e).impliers t = [] := fun t => by
    rw [← hi t]
    exact congrArg (Config.impliers · t) (World.conf_enter ..)
  have hsleep : x.Sleeps e ((x.store e).SleepsThroughCancel o) := by
    have hlull := hlull.resolve_left hup
    rw [ha] at hlull
    rw [hstore]
    exact World.Sleeps.congr (hlull o hf) hstore
  have hdispatch := hv
  simp only [dispatch, hxarg, ha, bind_ok, pure_ok] at hdispatch
  obtain ⟨⟨u, b⟩, hu, rfl⟩ := hdispatch
  have hst : cancelState q.orderAction = some .canceledByUser := by rw [ha]; rfl
  rw [← World.putOrder_self hxf] at hu
  obtain ⟨-, hwith⟩ := handleCancel_asleep o.orderAction hxarg hxi hst hxf hsleep hu
  have harg : u.arg = q := hwith.arg.trans hxarg
  have hneither :
    ¬(OrderStatus.canceledByUser.IsFill ∨ OrderStatus.canceledByUser.EndsAuction) := by decide
  rw [spares_single (s := s) hidle htc hs hlock hv
    (by rw [harg]; exact hside) hwith.emits fun hown => hneither hown.2]
  refine (or_iff_right fun hends => hneither (Or.inr hends)).trans ?_
  rw [harg]

omit hi in
/-- An amend in place reports the order it found. -/
theorem spares_amended (hup : ¬q.TurnedDown (w.store e)) (ha : q.orderAction = .amend)
    (hf : (w.store e).odrMap.find? q.orderId = some o) (hc : canAmend q o = true) :
    Spares w e q (unlock (flushAuction v e) e) ↔
      o.orderState.EndsAuction ∨ q.flushed s o.lastMatchPrice = o.lastMatchPrice := by
  rw [Order.TurnedDown, ha] at hup
  obtain ⟨hq0, hrest⟩ := not_or.mp hup
  obtain ⟨hd, -⟩ := not_or.mp hrest
  set x := w.enter e q held with hx
  have hxarg : x.arg = q := World.arg_enter ..
  have hxf : (x.store e).odrMap.find? q.orderId = some o := by
    rw [World.store_enter]
    exact hf
  have hdispatch := hv
  simp only [dispatch, hxarg, ha,
    handleAmend_amends hxarg ha (Nat.pos_of_ne_zero hq0) (not_lt.mp hd) hxf hc] at hdispatch
  obtain rfl := Except.ok.inj hdispatch
  have hem : Emits x ((x.putOrder e q.orderId (o.amendedBy q)).callback e (o.amendedBy q))
      [(e, o.amendedBy q)] :=
    (Emits.writeRef x e (.entry q.orderId) _).trans (Emits.callback ..)
  have harg : ((x.putOrder e q.orderId (o.amendedBy q)).callback e (o.amendedBy q)).arg = q :=
    (World.arg_callback ..).trans hxarg
  rw [spares_single (s := s) hidle htc hs hlock hv (by rw [harg]; exact hside) hem fun hown => ?_,
    harg]
  · rfl
  · rw [harg] at hown
    have hact := hown.1.1
    rw [ha] at hact
    cases hact

section Replaced

variable {u : World}
  (hwith : TakenOut (w.enter e q held) e q.orderId o
    { o with orderAction := .amend, orderState := .canceledByAmend } u)
  (hnew : dispatch
    (u.setArg { q with clientOrderId := o.clientOrderId, orderId := 0, orderAction := .new }) e =
      .ok v)
include hwith hnew

omit hi in
/-- The replacement is turned away, and its report is the last one. -/
theorem spares_unpriced (hprice : q.Unpriced) : Spares w e q (unlock (flushAuction v e) e) ↔
    s.settle q.lastMatchPrice = q.lastMatchPrice ∧ o.lastMatchPrice = q.lastMatchPrice := by
  set c : Order := { o with orderAction := .amend, orderState := .canceledByAmend } with hcdef
  set q' : Order :=
    { q with clientOrderId := o.clientOrderId, orderId := 0, orderAction := .new } with hq'
  have hcown : ∀ {recs : List Order} {r : Order}, ¬OwnRecord recs r c := fun hown => by
    have hneither :
      ¬(OrderStatus.canceledByAmend.IsFill ∨ OrderStatus.canceledByAmend.EndsAuction) := by decide
    exact hneither hown.2
  have hdown : q'.TurnedDown ((u.setArg q').store e) := Or.inr (Or.inr hprice)
  obtain ⟨hem, hrej⟩ := dispatch_turnedDown rfl hside hdown hnew
  have hneither : ¬(v.arg.orderState.IsFill ∨ v.arg.orderState.EndsAuction) := by
    have hst := hrej.state
    rintro ((hc | hc) | hc | hc) <;> rw [hc] at hst <;> cases hst
  have hall : Emits (w.enter e q held) v ([(e, c)] ++ ([] ++ [(e, v.arg)])) :=
    hwith.emits.trans ((Emits.setArg _ _).trans hem)
  have hrecs : (([(e, c)] ++ ([] ++ [(e, v.arg)])).filter fun y : ℕ × Order => y.1 = e).map
    Prod.snd = [c] ++ [v.arg] := by simp
  rw [spares_iff hidle htc hs hlock hv hall hrecs,
    auctionRecords_concat (fun hends => hneither (Or.inr hends)) (hrej.side.trans hside),
    Order.flushed, hrej.remain, if_neg (not_not.mpr rfl), hrej.price, spared_priced]
  constructor
  · intro h
    have hlast : s.settle q.lastMatchPrice = v.arg.lastMatchPrice :=
      h v.arg (by simp) fun hown => hneither hown.2
    have hfirst : s.settle q.lastMatchPrice = o.lastMatchPrice := h c (by simp) hcown
    rw [hrej.price] at hlast
    exact ⟨hlast, hfirst.symm.trans hlast⟩
  · rintro ⟨hq, ho⟩ r hr _
    rcases List.mem_cons.mp hr with rfl | hr
    · exact hq.trans ho.symm
    · rw [List.mem_singleton.mp hr]
      exact hq.trans hrej.price.symm

/-- The replacement is executed. -/
theorem spares_executed {g : Store} (hg : g = (w.store e).withdrawn q.orderId o) (hok : w.Ok)
    (hq0 : q.quantity ≠ 0) (hd : ¬q.displayQuantity > q.quantity) (hprice : ¬q.Unpriced)
    (hexec : g.SleepsThroughTaker s (q.opened w.nextId)) :
    Spares w e q (unlock (flushAuction v e) e) ↔
      o.lastMatchPrice = g.settled s (q.opened w.nextId) ∧
        (g.eligible s (q.opened w.nextId) = [] →
          q.lastMatchPrice = g.settled s (q.opened w.nextId)) := by
  set x := w.enter e q held with hx
  set c : Order := { o with orderAction := .amend, orderState := .canceledByAmend } with hcdef
  set q' : Order :=
    { q with clientOrderId := o.clientOrderId, orderId := 0, orderAction := .new } with hq'
  have hstore : ∀ l, x.store l = w.store l := fun l => World.store_enter ..
  have hxok : x.Ok := fun l => by rw [hstore]; exact hok l
  have hup' : ¬q'.TurnedDown ((u.setArg q').store e) :=
    fun hdown => hdown.elim hq0 fun hdown => hdown.elim hd hprice
  have hdispatch := dispatch_executed (w := u.setArg q') (q := q') rfl rfl hside hup'
  rw [hnew] at hdispatch
  set y := (u.setArg q').bumpId.setArg (q'.opened (u.setArg q').nextId) with hy
  have hyg : y.store e = g := hwith.self.trans (by rw [hstore, hg])
  have hyok : y.Ok := hwith.ok hxok
  have hyi : ∀ t, (y.conf e).impliers t = [] := fun t => by
    rw [← hi t]
    exact congrArg (Config.impliers · t) ((hwith.conf e).trans (World.conf_enter ..))
  have hsleep : (y.store e).SleepsThroughTaker s y.arg := by
    rw [hyg]
    exact hexec
  have hex := executeArg_asleep hyi htc hq0 (Or.inr ⟨hyok, hsleep⟩) hdispatch.symm
  have hauc := execute_auctioned hyok hyi htc hq0 hex
  have hall :=
    hwith.emits.trans
      (((Emits.setArg u q').trans ((Emits.bumpId _).trans (Emits.setArg _ _))).trans hauc.emits)
  rw [spares_iff hidle htc hs hlock hv hall rfl,
    spared_auctioned hauc hq0 rfl hside (c := c) rfl ?_, hyg]
  · rfl
  · have hself : ∀ T : List Trade,
        (tradeReports e T).filter (fun y => y.1 = e) = tradeReports e T :=
      fun T => List.filter_eq_self.mpr fun y hy => by simp [tradeReports_fst hy]
    simp only [List.append_assoc, List.filter_append, hself, List.map_append]
    split_ifs <;> simp

end Replaced

/-- The amend that takes the order out and makes a new one. -/
theorem spares_replaced (hup : ¬q.TurnedDown (w.store e)) (ha : q.orderAction = .amend)
    (hf : (w.store e).odrMap.find? q.orderId = some o) (hc : canAmend q o ≠ true)
    (hlull : q.Lulls w e s) :
    Spares w e q (unlock (flushAuction v e) e) ↔ q.Kept w e s := by
  set g := (w.store e).withdrawn q.orderId o with hg
  have hkept : q.Kept w e s ↔
      if q.Unpriced then s.settle q.lastMatchPrice = q.lastMatchPrice ∧
        o.lastMatchPrice = q.lastMatchPrice
      else o.lastMatchPrice = g.settled s (q.opened w.nextId) ∧
        (g.eligible s (q.opened w.nextId) = [] →
          q.lastMatchPrice = g.settled s (q.opened w.nextId)) := by
    simp only [Order.Kept, if_neg hup, ha, hf, Option.mem_def, Option.some.injEq, forall_eq',
      if_neg hc, hg]
  have hlull := hlull.resolve_left hup
  rw [ha] at hlull
  rw [Order.TurnedDown, ha] at hup
  obtain ⟨hq0, hrest⟩ := not_or.mp hup
  obtain ⟨hd, -⟩ := not_or.mp hrest
  obtain ⟨hok, hcancel, hexec⟩ := (hlull o hf).resolve_left hc
  set x := w.enter e q held with hx
  have hxarg : x.arg = q := World.arg_enter ..
  have hstore : ∀ l, x.store l = w.store l := fun l => World.store_enter ..
  have hxok : x.Ok := fun l => by rw [hstore]; exact hok l
  have hxi : ∀ t, (x.conf e).impliers t = [] := fun t => by
    rw [← hi t]
    exact congrArg (Config.impliers · t) (World.conf_enter ..)
  have hamend : handleAmend x e = .ok v := by
    have hdispatch := hv
    simp only [dispatch, hxarg, ha] at hdispatch
    exact hdispatch
  obtain ⟨u, hwith, hnew⟩ := handleAmend_replaced hxarg ha hq0 hd (by rw [hstore]; exact hf) hc hxi
    (Or.inr ⟨hxok, by rw [hstore]; exact hcancel⟩) hamend
  rw [hkept]
  by_cases hprice : q.Unpriced
  · rw [if_pos hprice]
    exact spares_unpriced hidle htc hside hs hlock hv hwith hnew hprice
  · rw [if_neg hprice]
    exact spares_executed hidle htc hside hs hi hlock hv hwith hnew hg hok hq0 hd hprice
      (hexec.resolve_left hprice)

end Call

/-- One call. -/
theorem handle_spares_iff (hidle : w.Idle) (hi : ∀ t, (w.conf e).impliers t = []) (ht : q.IsTrade)
    (htc : q.timeCondition = .auction) (h : handle w e q = .ok w')
    (hlull : ∀ s : Side, q.side = s.plain → q.Lulls w e s) :
    Spares w e q w' ↔ ∀ s : Side, q.side = s.plain → q.Kept w e s := by
  obtain ⟨held, hlock, ⟨hs, rfl⟩ | ⟨hs, v, hv, rfl⟩⟩ := handle_cases h
  · refine iff_of_true
      ⟨_, _, _, Records.stray hs, ?_, (spared_priced (c := none)).mpr fun r _ _ => rfl⟩
      fun s hside => ?_
    · simp [World.heardBy, World.emit, World.setArg, Order.priced]
    · exact absurd (by rw [hside]; cases s <;> simp [Side.plain]) hs.2
  obtain ⟨s, hside⟩ : ∃ s : Side, q.side = s.plain := by
    rcases not_not.mp fun hb => hs ⟨htc, hb⟩ with hb | hb
    · exact ⟨.buy, hb⟩
    · exact ⟨.sell, hb⟩
  have honly : (∀ t : Side, q.side = t.plain → q.Kept w e t) ↔ q.Kept w e s := by
    refine ⟨fun hall => hall s hside, fun hk t ht => ?_⟩
    obtain rfl : t = s := by
      rw [hside] at ht
      cases s <;> cases t <;> simp [Side.plain] at ht ⊢
    exact hk
  rw [honly]
  have hlull := hlull s hside
  by_cases hup : q.TurnedDown (w.store e)
  · rw [spares_turnedDown hidle htc hs hside hlock hv hup, Order.Kept, if_pos hup]
  rw [Order.Kept, if_neg hup]
  have hfound : q.orderAction ≠ .new → ∃ o, (w.store e).odrMap.find? q.orderId = some o := by
    intro hne
    refine Option.ne_none_iff_exists'.mp fun hnone => hup ?_
    rcases ht with ha | ha | ha
    · exact absurd ha hne
    · rw [Order.TurnedDown, ha]
      exact hnone
    · rw [Order.TurnedDown, ha]
      exact Or.inr (Or.inr hnone)
  rcases ht with ha | ha | ha
  · rw [ha]
    exact iff_of_true (spares_new hidle htc hside hs hi hlock hv hup ha hlull) trivial
  · obtain ⟨o, hf⟩ := hfound (by simp [ha])
    rw [spares_cancel hidle htc hside hs hi hlock hv hup ha hf hlull, ha]
    simp only [hf, Option.mem_def, Option.some.injEq, forall_eq']
  · obtain ⟨o, hf⟩ := hfound (by simp [ha])
    by_cases hc : canAmend q o = true
    · rw [spares_amended hidle htc hside hs hlock hv hup ha hf hc, ha]
      simp only [hf, Option.mem_def, Option.some.injEq, forall_eq', if_pos hc]
    · rw [spares_replaced hidle htc hside hs hi hlock hv hup ha hf hc hlull, Order.Kept, if_neg hup]

/-- Offers of 5 at 100 and at 110, and a stop to buy that waits for an offer of 105 or more. -/
def stopAbove : List (ℕ × Order) :=
  [(0, { Order.default with side := .sell, price := 100, quantity := 5 }),
    (0, { Order.default with side := .sell, price := 110, quantity := 5 }),
    (0, { Order.default with
      side := .buyStop, quantity := 2, buyStopTriggerPrice := 105, buyStopLimitPrice := 120 })]

/-- An auction that buys `n` at 100. -/
def buyAt100 (n : ℕ) : Order :=
  { Order.default with price := 100, quantity := n, timeCondition := .auction }

/-- An auction request that cancels the offer at 110. -/
def cancel110 (left : ℕ) : Order :=
  { Order.default with
    orderAction := .cancel, orderId := 1001, remainQuantity := left, timeCondition := .auction }

end Matching
