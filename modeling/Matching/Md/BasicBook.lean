import Mathlib.Data.Int.Order.Basic
import Mathlib.Data.Nat.Basic
import Matching.Lib.Ranked
import Matching.Order

/-! `md::basic_book`: price levels rebuilt from a stream of order reports. The bid and the ask
    functions are written twice in the source and once here, with the half as a parameter.
    Quantities are unsigned 64-bit numbers that wrap; a reduction looks its level up and writes
    through the result unchecked, and when there is no such level the behaviour is undefined (here
    the book stays as it is).

    `added` and `reduced` are history variables: what a level held and what was added to it or taken
    from it, with `none` for a level that was not there. No function reads them. -/

namespace Matching.Md

/-- `book_item::book_side`. -/
inductive BookSide where | none | bid | ask | other (code : ℕ)
  deriving DecidableEq, Repr

/-- `md::book_item`. -/
structure BookItem where
  price : ℤ
  quantity : ℕ
  side : BookSide
  marketId : ℕ
  deriving DecidableEq, Repr

def BookItem.default : BookItem := ⟨0, 0, .none, 0⟩

/-- The bid half of a book, or the ask half. -/
inductive Half where | bid | ask
  deriving DecidableEq, Repr

namespace Half

def opp : Half → Half
  | .bid => .ask
  | .ask => .bid

def side : Half → BookSide
  | .bid => .bid
  | .ask => .ask

/-- Bids are better the higher they are, asks the lower. -/
def better : Half → ℤ → ℤ → Bool
  | .bid, a, b => b < a
  | .ask, a, b => a < b

instance (h : Half) : StrictLt h.better where
  irrefl a := by cases h <;> simp [better]
  trans {a b c} h1 h2 := by cases h <;> simp only [better, decide_eq_true_eq] at * <;> omega
  tri {a b} hne hf := by
    cases h <;> simp only [better, decide_eq_true_eq, decide_eq_false_iff_not] at * <;> omega

/-- What stands for the price of an empty half: a limit of `long long`. -/
def worst : Half → ℤ
  | .bid => -2 ^ 63
  | .ask => 2 ^ 63 - 1

/-- A map from its best end. -/
def scan {β : Type} : Half → OrdMap ℤ β → List (ℤ × β)
  | .bid, m => m.entries.reverse
  | .ask, m => m.entries

theorem scan_ranked {β : Type} (h : Half) (m : OrdMap ℤ β) : Ranked h.better (h.scan m) := by
  cases h with
  | bid =>
    refine List.pairwise_reverse.mpr (m.sorted.imp fun hab => ?_)
    simpa [better] using hab
  | ask => exact m.sorted.imp fun hab => by simpa [better] using hab

theorem mem_scan {β : Type} {h : Half} {m : OrdMap ℤ β} {k : ℤ} {v : β} :
    (k, v) ∈ h.scan m ↔ m.find? k = some v := by
  cases h with
  | bid => rw [scan, List.mem_reverse, OrdMap.mem_entries]
  | ask => rw [scan, OrdMap.mem_entries]

theorem assoc_scan {β : Type} (h : Half) (m : OrdMap ℤ β) (k : ℤ) :
    OrdMap.assoc k (h.scan m) = m.find? k := by
  refine Option.ext fun v => ?_
  rw [Ranked.mem_iff (scan_ranked h m), mem_scan]

theorem opp_ne (h : Half) : h.opp ≠ h := by cases h <;> simp [opp]

theorem eq_or_opp (h h' : Half) : h' = h ∨ h' = h.opp := by cases h <;> cases h' <;> simp [opp]

end Half

/-- The levels of one half by price. -/
abbrev BookMap := OrdMap ℤ BookItem

structure BasicBook where
  orders : OrdMap ℕ Order
  bid : BookMap
  ask : BookMap
  added : List (ℕ × ℕ)
  reduced : List (Option ℕ × ℕ)

end Matching.Md

namespace Matching.Order

open Md (Half)

/-- The half `handle_odr` books an order on: that of its side, and for a `BUY_SELL_STOP` order the
    one its price has reached the trigger of. -/
def bookHalf (o : Order) : Option Half :=
  if o.side = .buy ∨ o.side = .buyStop ∨
      (o.side = .buySellStop ∧ o.price ≥ o.buyStopTriggerPrice) then some .bid
  else if o.side = .sell ∨ o.side = .sellStop ∨
      (o.side = .buySellStop ∧ o.price ≤ o.sellStopTriggerPrice) then some .ask
  else none

/-- `calc_remain_quantity`: only open and partially filled orders have any. -/
def calcRemainQuantity (o : Order) : ℕ :=
  if o.orderState ≠ .opened ∧ o.orderState ≠ .partialFill then 0 else o.remainQuantity

/-- The report of an order that rests whole. -/
def resting (id : ℕ) (side : OrderSide) (price : ℤ) (quantity : ℕ) : Order :=
  { Order.default with
    orderId := id, side := side, price := price, quantity := quantity, remainQuantity := quantity }

end Matching.Order

namespace Matching.Md.BasicBook

def empty : BasicBook := ⟨.empty, .empty, .empty, [], []⟩

def half (b : BasicBook) : Half → BookMap
  | .bid => b.bid
  | .ask => b.ask

def setHalf (b : BasicBook) (h : Half) (m : BookMap) : BasicBook :=
  match h with
  | .bid => { b with bid := m }
  | .ask => { b with ask := m }

/-- `add_bid_quantity` and `add_ask_quantity`. -/
def addQuantity (b : BasicBook) (h : Half) (price : ℤ) (quantity : ℕ) : BasicBook × BookItem :=
  let item := ((b.half h).find? price).getD .default
  let new := { item with price := price, side := h.side, quantity := addU64 item.quantity quantity }
  ({ b.setHalf h ((b.half h).insert price new) with
    added := b.added ++ [(item.quantity, quantity)] }, new)

/-- `reduce_bid_quantity` and `reduce_ask_quantity`. -/
def reduceQuantity (b : BasicBook) (h : Half) (price : ℤ) (quantity : ℕ) : BasicBook × BookItem :=
  match (b.half h).find? price with
  | none => ({ b with reduced := b.reduced ++ [(none, quantity)] }, .default)
  | some item =>
    let new :=
      { item with price := price, side := h.side, quantity := subU64 item.quantity quantity }
    let m := if new.quantity = 0 then (b.half h).erase price else (b.half h).insert price new
    ({ b.setHalf h m with reduced := b.reduced ++ [(some item.quantity, quantity)] }, new)

/-- The level of a known order follows its remaining quantity. -/
def moveQuantity (b : BasicBook) (h : Half) (price : ℤ) (old new : ℕ) : BasicBook × BookItem :=
  if old < new then b.addQuantity h price (new - old)
  else if old > new then b.reduceQuantity h price (old - new)
  else (b, .default)

/-- `handle_odr(odr)`. -/
def handleOdr (b : BasicBook) (o : Order) : BasicBook × BookItem :=
  if o.price = stopPrice then (b, .default)
  else
    match o.bookHalf with
    | none => (b, .default)
    | some h =>
      match b.orders.find? o.orderId with
      | none =>
        if o.calcRemainQuantity ≠ 0 then
          ({ b with orders := b.orders.insert o.orderId o }).addQuantity h o.price
            o.calcRemainQuantity
        else (b, .default)
      | some old =>
        let (b, item) := b.moveQuantity h o.price old.remainQuantity o.calcRemainQuantity
        ({ b with
          orders := if o.calcRemainQuantity = 0 then b.orders.erase o.orderId
            else b.orders.insert o.orderId { old with remainQuantity := o.calcRemainQuantity } },
          item)

/-- `best_bid_price()` and `best_ask_price()`. -/
def bestPrice (b : BasicBook) (h : Half) : ℤ :=
  match h.scan (b.half h) with
  | x :: _ => x.1
  | [] => h.worst

end Matching.Md.BasicBook
