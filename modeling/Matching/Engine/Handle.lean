import Matching.Engine.Matcher

/-! Stop activation and the request handlers: `trigger_buy_stop` / `trigger_sell_stop`,
    `handle_new`, `handle_cancel`, `handle_amend` and `engine::handle` with its locks and the
    auction flush. The handlers come in buy/sell pairs in the source; each pair is one definition
    with the side as a parameter. -/

namespace Matching

namespace Order

def stopTrigger (o : Order) : Side → ℤ
  | .buy => o.buyStopTriggerPrice
  | .sell => o.sellStopTriggerPrice

def stopLimit (o : Order) : Side → ℤ
  | .buy => o.buyStopLimitPrice
  | .sell => o.sellStopLimitPrice

end Order

/-- A stop of side `s` fires at the best opposite price `best`: `trigger <= best_ask` for buys,
    `trigger >= best_bid` for sells. -/
def Side.reached (s : Side) (best trigger : ℤ) : Bool :=
  match s with
  | .buy => trigger ≤ best
  | .sell => best ≤ trigger

/-- The `mini_tick` a matcher of side `s` is called with: `mini_tick * -1` for buyers. -/
def Side.tick (s : Side) (miniTick : ℤ) : ℤ :=
  match s with
  | .buy => toI64 (miniTick * -1)
  | .sell => miniTick

/-- `fok_match` for FOK takers, `normal_match` for all others. -/
def execute (w : World) (e : ℕ) (s : Side) (r : Ref) : Except Fault World := do
  let o ← w.readRef e r
  let w := w.logExec e s r o
  if o.timeCondition = .fok then fokMatch w e s r
  else normalMatch w e s r (s.tick (w.conf e).miniTick)

/-! ### Stops -/

/-- One pass over the stop book of side `s`: the levels reached at `best` leave it, their orders are
    listed level by level. -/
def collectStops (w : World) (e : ℕ) (s : Side) (best : ℤ) : World × List ℕ :=
  let hit : ℤ × List ℕ → Bool := fun l => best ≠ marketPrice && s.reached best l.1
  (w.setStops e s ((w.stops e s).filter (fun l => !hit l)), Ladder.ids ((w.stops e s).filter hit))

/-- Activate one stop: it becomes a taker at its stop limit price. -/
def activateStop (w : World) (e : ℕ) (s : Side) (id : ℕ) : Except Fault World := do
  let o ← w.deref e id
  execute (w.putOrder e id { o with price := o.stopLimit s }) e s (.entry id)

def activateStops (e : ℕ) (s : Side) : World → List ℕ → Except Fault World
  | w, [] => .ok w
  | w, id :: ids => do activateStops e s (← activateStop w e s id) ids

def triggerLoop (e : ℕ) (s : Side) : ℕ → World → Except Fault World
  | 0, _ => .error .diverge
  | n + 1, w => do
    let best ← bestPrice w e s
    let (w, ids) := collectStops w e s best
    let w ← activateStops e s w ids
    if ids = [] then return w else triggerLoop e s n w

/-- `trigger_buy_stop()` (side `buy`) and `trigger_sell_stop()` (side `sell`). Every round but the
    last removes a level, so one more round than there are levels is enough. -/
def triggerStop (w : World) (e : ℕ) (s : Side) : Except Fault World :=
  triggerLoop e s ((w.stops e s).length + 1) w

/-! ### `handle_new` -/

/-- Set the state of the caller's order, clear its remaining quantity and report it. -/
def rejectArg (w : World) (e : ℕ) (st : OrderStatus) : World :=
  let o := { w.arg with orderState := st, remainQuantity := 0 }
  (w.setArg o).callback e o

/-- `init_new_order(o)`. -/
def initNewOrder (w : World) : World :=
  let o := { w.arg with remainQuantity := w.arg.quantity, orderState := .opened }
  if o.orderId = 0 then w.bumpId.setArg { o with orderId := w.nextId } else w.setArg o

/-- Execute the caller's order and, while something of it is left, run the stop triggers. -/
def executeArg (w : World) (e : ℕ) (s : Side) : Except Fault World := do
  let w ← execute w e s .arg
  if 0 < w.arg.remainQuantity then triggerStop (← triggerStop w e .sell) e .buy else return w

/-- `handle_new`, sides `BUY` and `SELL`. -/
def newPlain (w : World) (e : ℕ) (s : Side) : Except Fault World :=
  let w := initNewOrder w
  if w.arg.type ≠ .market ∧ w.arg.price = marketPrice then
    return rejectArg w e .rejectLimiteOrderWithMarketPrice
  else executeArg w e s

/-- Store the caller's order in `_odr_map` and its id in the stop book of side `s`. -/
def registerStop (w : World) (e : ℕ) (s : Side) : World :=
  let o := w.arg
  w.upd e (fun g =>
    { g.setStops s ((g.stops s).insert s.cmp (o.stopTrigger s) o.orderId) with
      odrMap := g.odrMap.emplace o.orderId o })

def rejectTrigger : Side → OrderStatus
  | .buy => .rejectBuyStopTriggerLargeThanStopLimit
  | .sell => .rejectSellStopTriggerLessThanStopLimit

/-- The price checks of the stop leg of side `s`: the reason to reject it, if any. -/
def stopReject (o : Order) (s : Side) : Option OrderStatus :=
  if o.stopLimit s = marketPrice then some .rejectLimiteOrderWithMarketPrice
  else if s.cmp (o.stopLimit s) (o.stopTrigger s) then some (rejectTrigger s)
  else none

/-- The leg of side `s` becomes the taker's price and is executed. -/
def executeLeg (w : World) (e : ℕ) (s : Side) : Except Fault World :=
  executeArg (w.setArg { w.arg with price := w.arg.stopLimit s }) e s

/-- `handle_new`, sides `BUY_STOP` and `SELL_STOP`. -/
def newStop (w : World) (e : ℕ) (s : Side) : Except Fault World := do
  let w := w.setArg { w.arg with price := stopPrice }
  let best ← bestPrice w e s
  match stopReject w.arg s with
  | some st => return rejectArg w e st
  | none =>
    let w := initNewOrder w
    if best ≠ marketPrice ∧ s.reached best (w.arg.stopTrigger s) then executeLeg w e s
    else
      let w := registerStop w e s
      return w.callback e w.arg

/-- `handle_new`, side `BUY_SELL_STOP`. -/
def newBuySellStop (w : World) (e : ℕ) : Except Fault World := do
  let w := w.setArg { w.arg with price := stopPrice }
  let bestA ← bestPrice w e .buy
  let bestB ← bestPrice w e .sell
  match stopReject w.arg .buy with
  | some st => return rejectArg w e st
  | none =>
    match stopReject w.arg .sell with
    | some st => return rejectArg w e st
    | none =>
      let w := initNewOrder w
      if bestA ≠ marketPrice ∧ Side.reached .buy bestA w.arg.buyStopTriggerPrice then
        executeLeg w e .buy
      else if bestB = marketPrice ∨ Side.reached .sell bestB w.arg.sellStopTriggerPrice then
        executeLeg w e .sell
      else
        let w := registerStop (registerStop w e .sell) e .buy
        return w.callback e w.arg

/-- `handle_new` once the id of a `NEW` request is cleared: the checks and the
    dispatch on the side. -/
def newChecked (w : World) (e : ℕ) : Except Fault World :=
  if w.arg.quantity = 0 then return rejectArg w e .rejectQuantityZero
  else if w.arg.displayQuantity > w.arg.quantity then
    return rejectArg w e .rejectDisplayQuantityLargerThanQuantity
  else
    match w.arg.side with
    | .buy => newPlain w e .buy
    | .sell => newPlain w e .sell
    | .buyStop => newStop w e .buy
    | .sellStop => newStop w e .sell
    | .buySellStop => newBuySellStop w e
    | .other _ => return rejectArg w e .rejectUnknowOrderAction

/-- `handle_new(o)`. -/
def handleNew (w : World) (e : ℕ) : Except Fault World :=
  newChecked (if w.arg.orderAction = .new then w.setArg { w.arg with orderId := 0 } else w) e

/-! ### `handle_cancel` -/

/-- `erase_from_normal_book`, `erase_buy_stop` and `erase_sell_stop`: the level that `find(p)`
    returns is dereferenced unchecked. -/
def eraseFound (b : Book) (p : ℤ) (id : ℕ) : Except Fault Book := do
  let _ ← orUb (b.level? p)
  return b.eraseAt p id

/-- Take the resting order `o` out of the book takers of side `t` trade against; when it was the
    only order of the best level, run the stop trigger of that side. -/
def unrest (w : World) (e : ℕ) (t : Side) (o : Order) : Except Fault World := do
  let trigger : Bool := match w.book e t with
    | (p, ids) :: _ => ids.length = 1 ∧ o.price = p
    | [] => false
  let b ← eraseFound (w.book e t) o.price o.orderId
  let w := w.setBook e t b
  if trigger then triggerStop w e t else return w

/-- Take the waiting order `o` out of the stop book of side `s`. -/
def unstop (w : World) (e : ℕ) (s : Side) (o : Order) : Except Fault World := do
  let b ← eraseFound (w.stops e s) (o.stopTrigger s) o.orderId
  return w.setStops e s b

/-- The erasures of `handle_cancel`, by the side of the order found. -/
def unlist (w : World) (e : ℕ) (o : Order) : Except Fault World :=
  match o.side with
  | .buy => unrest w e .sell o
  | .sell => unrest w e .buy o
  | .buyStop => if o.price = stopPrice then unstop w e .buy o else unrest w e .sell o
  | .sellStop => if o.price = stopPrice then unstop w e .sell o else unrest w e .buy o
  | _ =>
    if o.price = stopPrice then do unstop (← unstop w e .buy o) e .sell o
    else if o.price = o.buyStopLimitPrice then unrest w e .sell o
    else unrest w e .buy o

/-- The final state `handle_cancel` reports for the order it found, by the action of the request. -/
def cancelState (a : OrderAction) : Option OrderStatus :=
  match a with
  | .cancel => some .canceledByUser
  | .amend => some .canceledByAmend
  | _ => none

/-- `handle_cancel(o)`; the flag is its result. -/
def handleCancel (w : World) (e : ℕ) : Except Fault (World × Bool) :=
  let id := w.arg.orderId
  match w.order? e id with
  | none =>
    let w := w.setArg { w.arg with remainQuantity := 0 }
    match w.arg.orderAction with
    | .cancel =>
      let o := { w.arg with orderState := .rejectCancelOrderIdNotFound }
      return ((w.setArg o).callback e o, false)
    | .amend =>
      return (w.setArg { w.arg with orderState := .rejectAmendOrderIdNotFound }, false)
    | _ => return (w, false)
  | some ori => do
    let (ori, w) := match cancelState w.arg.orderAction with
      | some st =>
        let ori := { ori with orderState := st }
        (ori, (w.putOrder e id ori).callback e ori)
      | none => (ori, w)
    let w ← unlist w e ori
    return (w.eraseOrder e id, true)

/-! ### `handle_amend` -/

/-- The live order after an amend in place. -/
def amendInPlace (ori o : Order) : Order :=
  { ori with
    quantity := o.quantity
    displayQuantity := o.displayQuantity
    remainQuantity := o.quantity
    requestId := o.requestId }

/-- `handle_amend(o)`. -/
def handleAmend (w : World) (e : ℕ) : Except Fault World :=
  if w.arg.quantity = 0 then return rejectArg w e .rejectQuantityZero
  else if w.arg.displayQuantity > w.arg.quantity then
    return rejectArg w e .rejectDisplayQuantityLargerThanQuantity
  else
    match w.order? e w.arg.orderId with
    | none => return rejectArg w e .rejectAmendOrderIdNotFound
    | some ori => do
      let id := w.arg.orderId
      let ori := { ori with orderAction := w.arg.orderAction }
      let w := w.putOrder e id ori
      if canAmend w.arg ori then
        let ori := amendInPlace ori w.arg
        return (w.putOrder e id ori).callback e ori
      else
        let (w, found) ← handleCancel w e
        if found then
          handleNew
            (w.setArg { w.arg with
              clientOrderId := ori.clientOrderId, orderId := 0, orderAction := .new }) e
        else return w

/-! ### `handle` -/

def lockAll : List ℕ → (ℕ → Bool) → Except Fault (ℕ → Bool)
  | [], held => .ok held
  | m :: ms, held => if held m then .error .deadlock else lockAll ms (Function.update held m true)

/-- `lock()`: take every mutex of `_mutex_set`; one that is held already is never released. -/
def lock (w : World) (e : ℕ) : Except Fault World := do
  return { w with locked := ← lockAll (w.conf e).mutexSet w.locked }

/-- `unlock()`. -/
def unlock (w : World) (e : ℕ) : World :=
  { w with locked := fun m => if m ∈ (w.conf e).mutexSet then false else w.locked m }

/-- The copy of a live order a `DUMP` emits. -/
def dumpOrder (o : Order) : Order :=
  match o.orderAction with
  | .new => { o with orderAction := .insertNew }
  | .amend => { o with orderAction := .insertAmend }
  | _ => o

/-- The `DUMP` branch of `handle`. -/
def handleDump (w : World) (e : ℕ) : World :=
  let w := (w.store e).odrMap.entries.foldl (fun w x => w.emit e (dumpOrder x.2)) w
  w.emit e { Order.default with orderAction := .dumpEnd }

/-- `_odr_map.emplace(o.order_id, o)` and the id into the book of side `t` at the order's price. -/
def insertResting (w : World) (e : ℕ) (t : Side) : World :=
  let o := w.arg
  w.upd e (fun g =>
    { g.setBook t ((g.book t).insert t.cmp o.price o.orderId) with
      odrMap := g.odrMap.emplace o.orderId o })

/-- The insert branch of `handle` (every action that is none of the others). A waiting `SELL_STOP`
    goes to `_bid_stop_book` under its buy trigger, as in the source. -/
def handleInsert (w : World) (e : ℕ) : World :=
  let action := match w.arg.orderAction with
    | .insertNew => .new
    | .insertAmend => .amend
    | a => a
  let w := w.setArg { w.arg with orderAction := action }
  let o := w.arg
  let w := match o.side with
    | .buy => insertResting w e .sell
    | .sell => insertResting w e .buy
    | .buyStop =>
      if o.price = o.buyStopLimitPrice then insertResting w e .sell
      else registerStop (w.setArg { o with price := stopPrice }) e .buy
    | .sellStop =>
      if o.price = o.sellStopLimitPrice then insertResting w e .buy
      else registerStop (w.setArg { o with price := stopPrice }) e .buy
    | .buySellStop => registerStop (registerStop w e .sell) e .buy
    | .other _ => w
  w.emit e w.arg

/-- The records of an auction with the one price they are delivered at. -/
def auctionRecords (recs : List Order) (o : Order) : List Order :=
  match recs.reverse.find? (fun r =>
      r.orderState ≠ .canceledAllByAuction ∧ r.orderState ≠ .canceledPartialByAuction) with
  | none => recs
  | some last =>
    let price := last.lastMatchPrice
    let price := match o.side with
      | .buy => if o.remainQuantity ≠ 0 then o.buyStopLimitPrice else if price < 0 then 0 else price
      | .sell =>
        if o.remainQuantity ≠ 0 then o.sellStopLimitPrice else if price > 0 then 0 else price
      | _ => price
    recs.map (fun r => { r with lastMatchPrice := price })

/-- The end of `handle` when it ran an auction: the recorded reports are repriced and delivered. -/
def flushAuction (w : World) (e : ℕ) : World :=
  if (w.engines e).isAuction then
    let recs := auctionRecords (w.engines e).cbRecords w.arg
    let w := recs.foldl (fun w r => w.emit e r) w
    w.modify e (fun g => { g with isAuction := false, cbRecords := [] })
  else w

/-- The dispatch of `handle` on the action of the request. -/
def dispatch (w : World) (e : ℕ) : Except Fault World :=
  match w.arg.orderAction with
  | .new => handleNew w e
  | .cancel => do return (← handleCancel w e).1
  | .amend => handleAmend w e
  | .dump => .ok (handleDump w e)
  | _ => .ok (handleInsert w e)

/-- `engine::handle(o)`. An auction request that is neither `BUY` nor `SELL`
    returns with its locks held. -/
def handle (w : World) (e : ℕ) (o : Order) : Except Fault World := do
  let w ← lock (w.setArg o) e
  if o.timeCondition = .auction then
    if o.side = .buy ∨ o.side = .sell then
      let w := w.modify e (fun g => { g with isAuction := true })
      return unlock (flushAuction (← dispatch w e) e) e
    else
      let o := { o with orderState := .rejectAuctionSupportBuySellOnly }
      return (w.setArg o).emit e o
  else return unlock (flushAuction (← dispatch w e) e) e

/-- A run of the system: requests, each for one of the engines, handled one after the other. -/
def run : World → List (ℕ × Order) → Except Fault World := runs (fun w x => handle w x.1 x.2)

/-- A world before the first request: every engine is empty and idle, whatever
    impliers are attached. -/
structure World.Fresh (w : World) : Prop where
  store : ∀ l, w.store l = ⟨.empty, [], [], [], []⟩
  cbRecords : ∀ l, (w.engines l).cbRecords = []
  isAuction : ∀ l, (w.engines l).isAuction = false
  mutexSet : ∀ l, (w.conf l).mutexSet.Nodup
  locked : ∀ l, w.locked l = false
  reports : w.reports = []
  execs : w.execs = []

/-- A fresh process whose engines have no impliers and the given tick. -/
def World.start (miniTick : ℤ) (firstId : ℕ) : World where
  engines := fun l =>
    { odrMap := .empty, bidBook := [], askBook := [], bidStopBook := [], askStopBook := [],
      bidImpliers := [], askImpliers := [], miniTick := miniTick, mutexSet := [l], cbRecords := [],
      isAuction := false }
  nextId := firstId
  locked := fun _ => false
  arg := Order.default
  reports := []
  execs := []

theorem World.start_fresh (miniTick : ℤ) (firstId : ℕ) : (World.start miniTick firstId).Fresh where
  store _ := rfl
  cbRecords _ := rfl
  isAuction _ := rfl
  mutexSet l := List.nodup_singleton l
  locked _ := rfl
  reports := rfl
  execs := rfl

end Matching
