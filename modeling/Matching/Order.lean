import Mathlib.Algebra.Group.Int.Defs
import Mathlib.Algebra.GroupWithZero.Nat
import Mathlib.Data.Int.Notation
import Mathlib.Data.Nat.Notation

/-! The `matching::order` record, its enumerations and sentinels, and the pure functions on it.
    Enumerations are one byte on the wire, so those the engine branches on keep a constructor for
    the codes it has no name for. Quantities and ids are 64-bit unsigned values, prices 64-bit
    signed ones; `subU64` and `toI64` say where arithmetic wraps. The report timestamp is left out:
    it is written by `callback` and read by nothing. -/

namespace Matching

/-- `MARKET_PRICE`, the largest `long long`: no limit, or no liquidity. -/
def marketPrice : ℤ := 2 ^ 63 - 1

/-- `STOP_PRICE`, the smallest `long long`: the price of a stop that still waits. -/
def stopPrice : ℤ := -2 ^ 63

/-- Signed 64-bit arithmetic wraps to two's complement. -/
def toI64 (x : ℤ) : ℤ := Int.bmod x (2 ^ 64)

/-- Unsigned 64-bit addition. -/
def addU64 (a b : ℕ) : ℕ := (a + b) % 2 ^ 64

/-- Unsigned 64-bit subtraction. -/
def subU64 (a b : ℕ) : ℕ := if b ≤ a then a - b else a + 2 ^ 64 - b

inductive OrderSide where | buy | sell | buyStop | sellStop | buySellStop | other (code : ℕ)
  deriving DecidableEq, Repr

inductive OrderType where | limit | market | other (code : ℕ)
  deriving DecidableEq, Repr

inductive OrderAction where
  | new | amend | cancel | dump | dumpEnd | insertNew | insertAmend | other (code : ℕ)
  deriving DecidableEq, Repr

inductive TimeCondition where
  | gtc | ioc | fok | makerOnly | makerOnlyReprice | auction | expiry | other (code : ℕ)
  deriving DecidableEq, Repr

inductive OrderStatus where
  | opened | partialFill | filled
  | canceledByUser | canceledByMarketOrderNotFullMatched | canceledByMarketOrderNothingMatch
  | canceledAllByIoc | canceledPartialByIoc | canceledByFok | canceledByMakerOnly
  | rejectCancelOrderIdNotFound | rejectAmendOrderIdNotFound
  | rejectDisplayQuantityLargerThanQuantity | rejectBuyStopTriggerLargeThanStopLimit
  | rejectSellStopTriggerLessThanStopLimit | rejectUnknowOrderAction | rejectQuantityZero
  | rejectLimiteOrderWithMarketPrice
  | canceledAllByAuction | canceledPartialByAuction | rejectAuctionSupportBuySellOnly
  | canceledByAmend
  deriving DecidableEq, Repr

/-- The states of a request that is turned away. -/
def OrderStatus.isReject : OrderStatus → Bool
  | .rejectCancelOrderIdNotFound | .rejectAmendOrderIdNotFound
  | .rejectDisplayQuantityLargerThanQuantity
  | .rejectBuyStopTriggerLargeThanStopLimit | .rejectSellStopTriggerLessThanStopLimit
  | .rejectUnknowOrderAction | .rejectQuantityZero | .rejectLimiteOrderWithMarketPrice
  | .rejectAuctionSupportBuySellOnly => true
  | _ => false

inductive MatchedType where | maker | taker
  deriving DecidableEq, Repr

/-- `struct order`. -/
structure Order where
  accountId : ℕ
  marketId : ℕ
  price : ℤ
  quantity : ℕ
  displayQuantity : ℕ
  remainQuantity : ℕ
  lastMatchPrice : ℤ
  lastMatchQuantity : ℕ
  orderId : ℕ
  clientOrderId : ℕ
  lastMatchedOrderId : ℕ
  lastMatchedOrderId2 : ℕ
  matchedId : ℕ
  buyStopTriggerPrice : ℤ
  buyStopLimitPrice : ℤ
  sellStopTriggerPrice : ℤ
  sellStopLimitPrice : ℤ
  side : OrderSide
  type : OrderType
  timeCondition : TimeCondition
  filler : ℕ
  orderAction : OrderAction
  orderState : OrderStatus
  matchedType : MatchedType
  requestId : ℕ
  deriving DecidableEq, Repr

/-- The default constructor. -/
def Order.default : Order where
  accountId := 0
  marketId := 0
  price := marketPrice
  quantity := 0
  displayQuantity := 0
  remainQuantity := 0
  lastMatchPrice := 0
  lastMatchQuantity := 0
  orderId := 0
  clientOrderId := 0
  lastMatchedOrderId := 0
  lastMatchedOrderId2 := 2
  matchedId := 0
  buyStopTriggerPrice := 0
  buyStopLimitPrice := marketPrice
  sellStopTriggerPrice := 0
  sellStopLimitPrice := marketPrice
  side := .buy
  type := .limit
  timeCondition := .gtc
  filler := 0
  orderAction := .new
  orderState := .opened
  matchedType := .maker
  requestId := 0

/-- `order::update_display`. -/
def Order.updateDisplay (o : Order) : Order :=
  { o with
    displayQuantity := if o.displayQuantity < o.remainQuantity then o.displayQuantity
      else o.remainQuantity }

/-- `order::can_amend(o1, o2)`: may the request `o1` be applied to the live order `o2` in place? The
    four flag bytes are `side`, `type`, `time_condition` and `filler`. -/
def canAmend (o1 o2 : Order) : Bool :=
  if ¬(o1.side = o2.side ∧ o1.type = o2.type ∧ o1.timeCondition = o2.timeCondition ∧
      o1.filler = o2.filler) then
    false
  else if (match o1.side with
    | .buy | .sell => o1.price ≠ o2.price
    | .buyStop =>
      o1.buyStopLimitPrice ≠ o2.buyStopLimitPrice ∨ o1.buyStopTriggerPrice ≠ o2.buyStopTriggerPrice
    | .sellStop =>
      o1.sellStopLimitPrice ≠ o2.sellStopLimitPrice ∨
        o1.sellStopTriggerPrice ≠ o2.sellStopTriggerPrice
    | _ =>
      o1.buyStopLimitPrice ≠ o2.buyStopLimitPrice ∨
        o1.buyStopTriggerPrice ≠ o2.buyStopTriggerPrice ∨
        o1.sellStopLimitPrice ≠ o2.sellStopLimitPrice ∨
        o1.sellStopTriggerPrice ≠ o2.sellStopTriggerPrice : Bool) then false
  else ¬(o1.quantity > o2.remainQuantity)

/-- `engine::match`: one fill of `o`. -/
def engineMatch (o : Order) (matchType : MatchedType) (matchedId : ℕ) (lastMatchPrice : ℤ)
    (lastMatchQuantity : ℕ) (lastMatchedOrderId lastMatchedOrderId2 : ℕ) : Order :=
  let remain := subU64 o.remainQuantity lastMatchQuantity
  Order.updateDisplay
    { o with
      matchedType := matchType
      matchedId := matchedId
      lastMatchPrice := lastMatchPrice
      lastMatchQuantity := lastMatchQuantity
      lastMatchedOrderId := lastMatchedOrderId
      lastMatchedOrderId2 := lastMatchedOrderId2
      remainQuantity := remain
      orderState := if remain = 0 then .filled else .partialFill }

/-- `engine::maker_match`: the maker trades at its own price. -/
def engineMakerMatch (o : Order) (matchedId : ℕ) (lastMatchQuantity : ℕ)
    (lastMatchedOrderId lastMatchedOrderId2 : ℕ) : Order :=
  engineMatch o .maker matchedId o.price lastMatchQuantity lastMatchedOrderId lastMatchedOrderId2

end Matching
