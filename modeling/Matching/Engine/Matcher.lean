import Matching.Engine.Iter

/-! `engine::matcher`: choosing the best source of liquidity (`top`), walking with shadow quantities
    (`match`), executing against the books (`normal_match`) and all-or-nothing execution
    (`fok_match`). The loops carry fuel; `normalMatch` and `fokMatch` start with one unit more than
    the quantity to fill, and running out means that the source loops for ever. -/

namespace Matching

/-- One attached implier with the iterators over its legs. -/
structure ImpliedLegs where
  imp : Implier
  leg1 : Iter
  leg2 : Iter

/-- The iterators of a matcher: `_local` and those of the attached impliers, best priority first. -/
structure Matcher where
  engine : ℕ
  side : Side
  loc : Iter
  impliers : List ImpliedLegs

/-- What `top` selects: an implier by its place in `_impliers` or the local book (`none`), the price
    (`marketPrice` when there is nothing) and the matchable quantity. -/
structure Top where
  src : Option ℕ
  price : ℤ
  quantity : ℕ
  deriving DecidableEq, Repr

/-- `struct matched_record` with a price; `leg2` is a null iterator for a local match. -/
structure MatchedRecord where
  matchedPrice : ℤ
  matchedQuantity : ℕ
  leg1 : Iter
  leg2 : Option Iter
  deriving DecidableEq, Repr

namespace Matcher

def resetLegs (w : World) : List Implier → Except Fault (List ImpliedLegs)
  | [] => .ok []
  | imp :: imps => do
    let leg1 ← Iter.reset w imp.leg1.1 imp.leg1.2
    let leg2 ← Iter.reset w imp.leg2.1 imp.leg2.2
    return ⟨imp, leg1, leg2⟩ :: (← resetLegs w imps)

/-- `reset()`. -/
def reset (w : World) (e : ℕ) (s : Side) : Except Fault Matcher := do
  let loc ← Iter.reset w e s
  return ⟨e, s, loc, ← resetLegs w ((w.conf e).impliers s)⟩

/-- The own side price moved one tick beyond, for a taker of side `s`. -/
def beyondOwn (s : Side) (own tick : ℤ) : ℤ :=
  match s with
  | .sell => toI64 (own - tick)
  | .buy => toI64 (own + tick)

/-- The loop body of `top` for the implier at place `i`. -/
def topStep (w : World) (s : Side) (tick own : ℤ) (i : ℕ) (L : ImpliedLegs) (t : Top) :
    Except Fault Top := do
  if L.leg1.valid && L.leg2.valid then
    let price := L.imp.matchdPrice (← L.leg1.order w).price (← L.leg2.order w).price tick
    if price = marketPrice then return t
    else
      let price := if own ≠ marketPrice ∧ s.cmp price own then beyondOwn s own tick else price
      if t.price = marketPrice ∨ s.cmp price t.price then
        let q1 := L.leg1.topMatchingQuantity
        let q2 := L.leg2.topMatchingQuantity
        return ⟨some i, price, if q1 < q2 then q1 else q2⟩
      else return t
  else return t

def topLoop (w : World) (s : Side) (tick own : ℤ) : ℕ → List ImpliedLegs → Top → Except Fault Top
  | _, [], t => .ok t
  | i, L :: Ls, t => do topLoop w s tick own (i + 1) Ls (← topStep w s tick own i L t)

/-- `top(cmp, top_price, top_quantity)`. -/
def top (w : World) (m : Matcher) : Except Fault Top := do
  let price ← m.loc.topPrice w
  let own ← Iter.topPriceOwnSide w m.engine m.side
  topLoop w m.side (w.conf m.engine).miniTick own 0 m.impliers
    ⟨none, price, m.loc.topMatchingQuantity⟩

def topPriceLoop (w : World) (s : Side) (tick : ℤ) : List ImpliedLegs → ℤ → Except Fault ℤ
  | [], price => .ok price
  | L :: Ls, price => do
    if L.leg1.valid && L.leg2.valid then
      let matched := L.imp.matchdPrice (← L.leg1.order w).price (← L.leg2.order w).price tick
      if matched ≠ marketPrice ∧ (price = marketPrice ∨ s.cmp matched price) then
        topPriceLoop w s tick Ls matched
      else topPriceLoop w s tick Ls price
    else topPriceLoop w s tick Ls price

/-- `top_price(cmp)`. -/
def topPrice (w : World) (m : Matcher) : Except Fault ℤ := do
  topPriceLoop w m.side (w.conf m.engine).miniTick m.impliers (← m.loc.topPrice w)

/-- Step a leg whose shadow quantity is used up. -/
def stepLeg (w : World) (it : Iter) : Except Fault Iter :=
  if it.topMatchingQuantity = 0 then it.next w else .ok it

/-- `match(cmp, limited_price, quantity)`: the next step of the shadow walk and
    the iterators after it. -/
def matchOne (w : World) (m : Matcher) (limitedPrice : ℤ) (quantity : ℕ) :
    Except Fault (Option MatchedRecord × Matcher) := do
  let t ← m.top w
  if t.price = marketPrice then return (none, m)
  else if limitedPrice ≠ marketPrice ∧ m.side.cmp limitedPrice t.price then return (none, m)
  else
    let q := if t.quantity > quantity then quantity else t.quantity
    match t.src with
    | none =>
      let loc ← if q = m.loc.topMatchingQuantity then m.loc.next w else .ok m.loc
      return (some ⟨t.price, q, m.loc, none⟩, { m with loc := loc })
    | some i =>
      match m.impliers[i]? with
      | none => .error .ub
      | some L =>
        let leg1 ← stepLeg w (L.leg1.reduceMatching q)
        let leg2 ← stepLeg w (L.leg2.reduceMatching q)
        return (some ⟨t.price, q, L.leg1, some L.leg2⟩,
          { m with impliers := m.impliers.set i { L with leg1 := leg1, leg2 := leg2 } })

end Matcher

/-- `best_ask()` (side `buy`: the best price a buyer meets) and `best_bid()` (side `sell`). -/
def bestPrice (w : World) (e : ℕ) (s : Side) : Except Fault ℤ := do
  (← Matcher.reset w e s).topPrice w

/-- One execution step at `price`: the maker reports of one local order or of the two legs of an
    implier, then the taker report. Also gives the iterators after the step. -/
def executeStep (w : World) (e : ℕ) (r : Ref) (rec : MatchedRecord) :
    Except Fault (World × Iter × Option Iter) := do
  let matchedId := w.nextId
  let w := w.bumpId
  let orderId := (← w.readRef e r).orderId
  match rec.leg2 with
  | none =>
    let id1 := (← rec.leg1.order w).orderId
    let (w, leg1) ← rec.leg1.makerMatch w matchedId rec.matchedQuantity orderId 0
    let w ← takerMatch w e r matchedId rec.matchedPrice rec.matchedQuantity id1 0
    return (w, leg1, none)
  | some leg2 =>
    let id1 := (← rec.leg1.order w).orderId
    let id2 := (← leg2.order w).orderId
    let (w, leg1) ← rec.leg1.makerMatch w matchedId rec.matchedQuantity orderId id2
    let (w, leg2) ← leg2.makerMatch w matchedId rec.matchedQuantity orderId id1
    let w ← takerMatch w e r matchedId rec.matchedPrice rec.matchedQuantity id1 id2
    return (w, leg1, some leg2)

/-- Give the taker a final state and report it. -/
def killTaker (w : World) (e : ℕ) (r : Ref) (st : OrderStatus) : Except Fault World := do
  let o ← w.readRef e r
  let o := { o with orderState := st }
  return (w.writeRef e r o).callback e o

/-- The `while` loop of `normal_match`. The flag tells the early `return` of `MAKER_ONLY`. -/
def normalLoop (e : ℕ) (s : Side) (r : Ref) (miniTick : ℤ) :
    ℕ → World → Matcher → Except Fault (World × Bool)
  | 0, _, _ => .error .diverge
  | n + 1, w, m => do
    let o ← w.readRef e r
    if o.remainQuantity = 0 then return (w, false)
    else
      let t ← m.top w
      if t.price = marketPrice then return (w, false)
      else if o.price ≠ marketPrice ∧ s.cmp o.price t.price then return (w, false)
      else if o.timeCondition = .makerOnly then
        return (← killTaker w e r .canceledByMakerOnly, true)
      else if o.timeCondition = .makerOnlyReprice then
        return (w.writeRef e r { o with price := toI64 (t.price + miniTick) }, false)
      else
        let q := if t.quantity < o.remainQuantity then t.quantity else o.remainQuantity
        match t.src with
        | none =>
          let (w, loc, _) ← executeStep w e r ⟨t.price, q, m.loc, none⟩
          normalLoop e s r miniTick n w { m with loc := loc }
        | some i =>
          match m.impliers[i]? with
          | none => .error .ub
          | some L =>
            let (w, leg1, leg2) ← executeStep w e r ⟨t.price, q, L.leg1, some L.leg2⟩
            normalLoop e s r miniTick n w
              { m with
                impliers := m.impliers.set i { L with leg1 := leg1, leg2 := leg2.getD L.leg2 } }

/-- `self[o.price][o.order_id] = &emplace(o.order_id, o)`, and the report of an
    order that rests whole. -/
def restTaker (w : World) (e : ℕ) (s : Side) (r : Ref) : Except Fault World := do
  let o ← w.readRef e r
  let w := w.upd e (fun g =>
    { g.setBook s.opp ((g.book s.opp).insert s.opp.cmp o.price o.orderId) with
      odrMap := g.odrMap.emplace o.orderId o })
  if o.remainQuantity = o.quantity then return w.callback e o else return w

/-- What `normal_match` does with the residual after its loop. -/
def residual (w : World) (e : ℕ) (s : Side) (r : Ref) : Except Fault World := do
  let o ← w.readRef e r
  if o.remainQuantity = 0 then return w
  else if o.timeCondition = .ioc then
    killTaker w e r
      (if o.quantity = o.remainQuantity then .canceledAllByIoc else .canceledPartialByIoc)
  else if o.timeCondition = .auction then
    killTaker w e r
      (if o.quantity = o.remainQuantity then .canceledAllByAuction else .canceledPartialByAuction)
  else if o.price = marketPrice then
    let price ← bestPrice w e s.opp
    let w := w.writeRef e r { o with price := price }
    if price = marketPrice then killTaker w e r .canceledByMarketOrderNothingMatch
    else restTaker w e s r
  else restTaker w e s r

/-- `normal_match(cmp, o, self, mini_tick)` of the matcher that serves takers of side `s`. -/
def normalMatch (w : World) (e : ℕ) (s : Side) (r : Ref) (miniTick : ℤ) : Except Fault World := do
  let m ← Matcher.reset w e s
  let o ← w.readRef e r
  let (w, returned) ← normalLoop e s r miniTick (o.remainQuantity + 1) w m
  if returned then return w else residual w e s r

/-- The counting loop of `fok_match`: the recorded steps and the quantity left. -/
def fokLoop (w : World) (limitedPrice : ℤ) : ℕ → Matcher → ℕ → Except Fault (List MatchedRecord × ℕ)
  | 0, _, _ => .error .diverge
  | n + 1, m, remain => do
    if remain = 0 then return ([], 0)
    else
      match ← m.matchOne w limitedPrice remain with
      | (none, _) => return ([], remain)
      | (some rec, m) =>
        let (recs, left) ← fokLoop w limitedPrice n m (subU64 remain rec.matchedQuantity)
        return (rec :: recs, left)

/-- The executing loop of `fok_match`. -/
def fokExecute (e : ℕ) (r : Ref) : World → List MatchedRecord → Except Fault World
  | w, [] => .ok w
  | w, rec :: recs => do
    let (w, _) ← executeStep w e r rec
    fokExecute e r w recs

/-- `fok_match(cmp, o)`. -/
def fokMatch (w : World) (e : ℕ) (s : Side) (r : Ref) : Except Fault World := do
  let m ← Matcher.reset w e s
  let o ← w.readRef e r
  let (recs, left) ← fokLoop w o.price (o.remainQuantity + 1) m o.remainQuantity
  if left ≠ 0 then killTaker w e r .canceledByFok else fokExecute e r w recs

end Matching
