import Matching.Engine.State

/-! `engine::iterator`: a position in the nested maps of one book plus the cached remaining quantity
    of the order there. The cursor exists only while the iterator is not at `end()`: the code reads
    neither position nor cached quantity of an ended iterator. A position whose level or id is no
    longer in the book is a dangling iterator, and reading through it is undefined behaviour. -/

namespace Matching

/-- `_it1`, `_it2` and `_remain_quantity` of a valid iterator. -/
structure Cursor where
  price : ℤ
  id : ℕ
  remain : ℕ
  deriving DecidableEq, Repr

structure Iter where
  engine : ℕ
  side : Side
  cur : Option Cursor
  deriving DecidableEq, Repr

namespace Iter

def valid (it : Iter) : Bool := it.cur.isSome

/-- Put an iterator on a position and cache the remaining quantity found there. -/
def load (w : World) (l : ℕ) (s : Side) : Option (ℤ × ℕ) → Except Fault Iter
  | none => .ok ⟨l, s, none⟩
  | some (p, id) => do
    let o ← w.deref l id
    return ⟨l, s, some ⟨p, id, o.remainQuantity⟩⟩

/-- `reset()`: back to the first order of the first level. -/
def reset (w : World) (l : ℕ) (s : Side) : Except Fault Iter := do
  load w l s (← orUb (w.book l s).first)

/-- `operator->`. -/
def order (w : World) (it : Iter) : Except Fault Order :=
  match it.cur with
  | none => .error .ub
  | some c =>
    if (w.book it.engine it.side).has c.price c.id then w.deref it.engine c.id else .error .ub

/-- `next()`. -/
def next (w : World) (it : Iter) : Except Fault Iter :=
  match it.cur with
  | none => .error .ub
  | some c => do load w it.engine it.side (← orUb ((w.book it.engine it.side).succ c.price c.id))

/-- `erase()`: drop the order from the book and from `_odr_map`, and step to its successor. -/
def erase (w : World) (it : Iter) : Except Fault (World × Iter) :=
  match it.cur with
  | none => .ok (w, it)
  | some c => do
    let o ← it.order w
    let it' ← it.next w
    let w := w.setBook it.engine it.side ((w.book it.engine it.side).eraseAt c.price c.id)
    return (w.eraseOrder it.engine o.orderId, it')

/-- `top_matching_quantity()`. -/
def topMatchingQuantity (it : Iter) : ℕ := (it.cur.map Cursor.remain).getD 0

/-- `reduce_matching(quantity)`. -/
def reduceMatching (it : Iter) (q : ℕ) : Iter :=
  { it with cur := it.cur.map (fun c => { c with remain := subU64 c.remain q }) }

/-- `top_price()`. -/
def topPrice (w : World) (it : Iter) : Except Fault ℤ := do
  if it.valid then return (← it.order w).price else return marketPrice

/-- `top_price_own_side()` of the matcher of side `s`: the best price of the taker's own book. -/
def topPriceOwnSide (w : World) (l : ℕ) (s : Side) : Except Fault ℤ :=
  match w.book l s.opp with
  | (_, id :: _) :: _ => do return (← w.deref l id).price
  | _ => .ok marketPrice

/-- `maker_match`: fill the order the iterator is on and report it; a filled
    order leaves book and map. -/
def makerMatch (w : World) (it : Iter) (matchedId lastMatchQuantity lastMatchedOrderId
    lastMatchedOrderId2 : ℕ) : Except Fault (World × Iter) :=
  match it.cur with
  | none => .error .ub
  | some c => do
    let o ← it.order w
    let o := engineMakerMatch o matchedId lastMatchQuantity lastMatchedOrderId lastMatchedOrderId2
    let w := (w.putOrder it.engine c.id o).callback it.engine o
    if o.remainQuantity = 0 then it.erase w
    else return (w, { it with cur := some { c with remain := o.remainQuantity } })

end Iter

/-- `taker_match`: fill the taker and report it to its engine. -/
def takerMatch (w : World) (e : ℕ) (r : Ref) (matchedId : ℕ) (lastMatchPrice : ℤ)
    (lastMatchQuantity lastMatchedOrderId lastMatchedOrderId2 : ℕ) : Except Fault World := do
  let o ← w.readRef e r
  let o := engineMatch o .taker matchedId lastMatchPrice lastMatchQuantity lastMatchedOrderId
    lastMatchedOrderId2
  return (w.writeRef e r o).callback e o

end Matching
