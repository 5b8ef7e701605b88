import Mathlib.Data.List.Sort
import Matching.Md.BasicBook

/-! `md::md_implied_book` and `md::md_book`: levels implied from the two legs of a spread, published
    into the book of the outright orders. `handle_implied` walks the two leg halves, moves an
    implied price that would cross the outright book one tick off its best price, and publishes the
    differences against the implied levels it left there before. What follows a change (`handle_a`,
    `handle_b`, `handle_outright`) is spelled out type by type in the source; here each table is the
    list of the types it covers.

    `seenBid` and `seenAsk` are history variables: the best price of the opposite outright half when
    the implied bids or asks were last computed. No function reads them. -/

namespace Matching.Md

/-! ### `handle_implied` -/

/-- The bid price `best` of the outright book, or its ask price, when there is one: an implied price
    of the other half that is at it or beyond it is put one tick off. -/
def clamp (h : Half) (best : Option ℤ) (miniTick : ℤ) (price : ℤ) : ℤ :=
  match h, best with
  | .bid, some ask => if price ≥ ask then toI64 (ask - miniTick) else price
  | .ask, some bid => if price ≤ bid then toI64 (bid + miniTick) else price
  | _, none => price

/-- The loop over the legs' levels (price and quantity): every round uses up at least one of the
    two, so as many rounds as there are levels are enough. -/
def impliedWalk (h : Half) (ip : ℤ → ℤ → ℤ → ℤ) (best : Option ℤ) (miniTick : ℤ) :
    ℕ → List (ℤ × ℕ) → List (ℤ × ℕ) → List (ℤ × ℕ)
  | n + 1, (p1, q1) :: leg1, (p2, q2) :: leg2 =>
    let q := if q1 < q2 then q1 else q2
    (clamp h best miniTick (ip p1 p2 miniTick), q) ::
      impliedWalk h ip best miniTick n (if q1 - q = 0 then leg1 else (p1, q1 - q) :: leg1)
        (if q2 - q = 0 then leg2 else (p2, q2 - q) :: leg2)
  | _, _, _ => []

/-- The levels of one half as `handle_implied` walks them. -/
def BasicBook.levels (b : BasicBook) (h : Half) : List (ℤ × ℕ) :=
  (h.scan (b.half h)).map (fun x => (x.2.price, x.2.quantity))

/-- The best price of one half, if it has a level. -/
def BasicBook.best? (b : BasicBook) (h : Half) : Option ℤ := (h.scan (b.half h)).head?.map Prod.fst

/-- `new_implied_book`: a later level of the walk replaces an earlier one at the same price. -/
def newImplied (h : Half) (walk : List (ℤ × ℕ)) : BookMap :=
  walk.foldl (fun m x => m.insert x.1 ⟨x.1, x.2, h.side, 0⟩) .empty

/-- What the second loop carries: the outright book, `new_implied_book` and the published items. -/
structure Publishing where
  outright : BasicBook
  fresh : BookMap
  items : List BookItem

namespace Publishing

/-- `rt.push_back(node)`, unless the node has no side. -/
def push (rt : List BookItem) (node : BookItem) : List BookItem :=
  if node.side = .none then rt else rt ++ [node]

/-- The second loop, for one level of the implied book as it was. -/
def replace (h : Half) (s : Publishing) (x : ℤ × BookItem) : Publishing :=
  match s.fresh.find? x.1 with
  | none =>
    let (out, node) := s.outright.reduceQuantity h x.2.price x.2.quantity
    { s with outright := out, items := push s.items node }
  | some item =>
    let (out, node) := s.outright.moveQuantity h x.2.price x.2.quantity item.quantity
    { outright := out, fresh := s.fresh.erase x.1, items := push s.items node }

/-- The last loop, for one level that is new. -/
def insert (h : Half) (s : Publishing) (x : ℤ × BookItem) : Publishing :=
  let (out, node) := s.outright.addQuantity h x.2.price x.2.quantity
  { s with outright := out, items := push s.items node }

end Publishing

/-- `handle_implied(leg1, leg2, implied_book, outright_book, side, ip, mini_tick)`: the outright
    book, the implied book and the published items, best price first. -/
def handleImplied (h : Half) (leg1 leg2 : List (ℤ × ℕ)) (implied : BookMap) (outright : BasicBook)
    (ip : ℤ → ℤ → ℤ → ℤ) (miniTick : ℤ) : BasicBook × BookMap × List BookItem :=
  let fresh := newImplied h
    (impliedWalk h ip (outright.best? h.opp) miniTick (leg1.length + leg2.length) leg1 leg2)
  let s := (h.scan implied).foldl (Publishing.replace h) ⟨outright, fresh, []⟩
  let s := (h.scan s.fresh).foldl (Publishing.insert h) s
  (s.outright, fresh, s.items.mergeSort (fun x y => !h.better y.price x.price))

/-! ### `md_implied_book` -/

/-- `implier_type`. -/
inductive ImplierType where
  | aBidBBid | aBidBAsk | aAskBBid | aAskBAsk | aNoneBNone | other (code : ℕ)
  deriving DecidableEq, Repr

/-- The halves of the two legs. -/
def ImplierType.legs : ImplierType → Option (Half × Half)
  | .aBidBBid => some (.bid, .bid)
  | .aBidBAsk => some (.bid, .ask)
  | .aAskBBid => some (.ask, .bid)
  | .aAskBAsk => some (.ask, .ask)
  | _ => none

/-- `md_implied_book`; `matchd_price` of the two impliers, when they are set. -/
structure ImpliedBook where
  impliedBid : BookMap
  impliedAsk : BookMap
  a : BasicBook
  b : BasicBook
  bidImplieType : ImplierType
  askImplieType : ImplierType
  bidImplier : Option (ℤ → ℤ → ℤ → ℤ)
  askImplier : Option (ℤ → ℤ → ℤ → ℤ)
  seenBid : Option ℤ
  seenAsk : Option ℤ

namespace ImpliedBook

def implied (g : ImpliedBook) : Half → BookMap
  | .bid => g.impliedBid
  | .ask => g.impliedAsk

/-- `implied_book = new_implied_book_relace`. -/
def setImplied (g : ImpliedBook) (h : Half) (m : BookMap) (seen : Option ℤ) : ImpliedBook :=
  match h with
  | .bid => { g with impliedBid := m, seenBid := seen }
  | .ask => { g with impliedAsk := m, seenAsk := seen }

def seen (g : ImpliedBook) : Half → Option ℤ
  | .bid => g.seenBid
  | .ask => g.seenAsk

def implieType (g : ImpliedBook) : Half → ImplierType
  | .bid => g.bidImplieType
  | .ask => g.askImplieType

def implier (g : ImpliedBook) : Half → Option (ℤ → ℤ → ℤ → ℤ)
  | .bid => g.bidImplier
  | .ask => g.askImplier

end ImpliedBook

/-- `md_book`, with what was passed to its callback so far. -/
structure MdBook where
  miniTick : ℤ
  outright : BasicBook
  impliedBooks : List ImpliedBook
  published : List BookItem

namespace MdBook

/-- What the functions of one `md_implied_book` work on: the book itself and the parts of the
    `md_book` it refers to. -/
structure Part where
  book : ImpliedBook
  outright : BasicBook
  published : List BookItem

/-- Run `handle_implied` for one half of the implied book, when its type is one of `types`
    and its implier is set. -/
def Part.refresh (miniTick : ℤ) (h : Half) (types : List ImplierType) (s : Part) : Part :=
  if s.book.implieType h ∈ types then
    match (s.book.implieType h).legs, s.book.implier h with
    | some (h1, h2), some ip =>
      let (out, implied, items) := handleImplied h (s.book.a.levels h1) (s.book.b.levels h2)
        (s.book.implied h) s.outright ip miniTick
      ⟨s.book.setImplied h implied (s.outright.best? h.opp), out, s.published ++ items⟩
    | _, _ => s
  else s

/-- `md_implied_book::handle_implied_bid()`. -/
def Part.handleImpliedBid (miniTick : ℤ) : Part → Part :=
  Part.refresh miniTick .bid [.aBidBBid, .aAskBBid, .aBidBAsk, .aAskBAsk]

/-- `md_implied_book::handle_implied_ask()`: two of the types are listed twice,
    the other two are not. -/
def Part.handleImpliedAsk (miniTick : ℤ) : Part → Part :=
  Part.refresh miniTick .ask [.aBidBAsk, .aAskBAsk, .aBidBAsk, .aAskBAsk]

/-- The types that read the half of leg `a` that changed. -/
def typesOfA : BookSide → List ImplierType
  | .bid => [.aBidBBid, .aBidBAsk]
  | .ask => [.aAskBBid, .aAskBAsk]
  | _ => []

/-- The types that read the half of leg `b` that changed. -/
def typesOfB : BookSide → List ImplierType
  | .bid => [.aBidBBid, .aAskBBid]
  | .ask => [.aBidBAsk, .aAskBAsk]
  | _ => []

/-- `md_implied_book::handle_a(odr)`. -/
def Part.handleA (miniTick : ℤ) (o : Order) (s : Part) : Part :=
  let (a, item) := s.book.a.handleOdr o
  let s := { s with book := { s.book with a := a } }
  (s.refresh miniTick .bid (typesOfA item.side)).refresh miniTick .ask (typesOfA item.side)

/-- `md_implied_book::handle_b(odr)`. -/
def Part.handleB (miniTick : ℤ) (o : Order) (s : Part) : Part :=
  let (b, item) := s.book.b.handleOdr o
  let s := { s with book := { s.book with b := b } }
  (s.refresh miniTick .bid (typesOfB item.side)).refresh miniTick .ask (typesOfB item.side)

/-- Let `f` work on the implied book at place `i`. -/
def onBook (m : MdBook) (i : ℕ) (f : Part → Part) : MdBook :=
  match m.impliedBooks[i]? with
  | none => m
  | some g =>
    let s := f ⟨g, m.outright, m.published⟩
    { m with
      outright := s.outright,
      impliedBooks := m.impliedBooks.set i s.book, published := s.published }

/-- `for (auto& implied_book : implied_books)`. -/
def onBooks (f : Part → Part) (m : MdBook) : MdBook :=
  (List.range m.impliedBooks.length).foldl (fun m i => m.onBook i f) m

/-- `handle_outright(odr)`. -/
def handleOutright (m : MdBook) (o : Order) : MdBook :=
  let old : ℤ := if o.side = .buy then m.outright.bestPrice .bid
    else if o.side = .sell then m.outright.bestPrice .ask
    else 0
  let (out, item) := m.outright.handleOdr o
  let m := { m with outright := out }
  if item.side = .none then m
  else
    let m := { m with published := m.published ++ [item] }
    if o.side = .buy ∧ m.outright.bestPrice .bid < old then
      m.onBooks (Part.handleImpliedAsk m.miniTick)
    else if o.side = .sell ∧ m.outright.bestPrice .ask > old then
      m.onBooks (Part.handleImpliedBid m.miniTick)
    else m

/-- `handle_a(odr, idx)`. -/
def handleA (m : MdBook) (o : Order) (i : ℕ) : MdBook := m.onBook i (Part.handleA m.miniTick o)

/-- `handle_b(odr, idx)`. -/
def handleB (m : MdBook) (o : Order) (i : ℕ) : MdBook := m.onBook i (Part.handleB m.miniTick o)

end MdBook

/-- The calls of an `md_book`. -/
inductive Call where
  | outright (o : Order)
  | a (o : Order) (i : ℕ)
  | b (o : Order) (i : ℕ)

def MdBook.step (m : MdBook) : Call → MdBook
  | .outright o => m.handleOutright o
  | .a o i => m.handleA o i
  | .b o i => m.handleB o i

/-- An implied book as `add_implited_book` attaches it. -/
def ImpliedBook.attach (bt at' : ImplierType) (bi ai : Option (ℤ → ℤ → ℤ → ℤ)) : ImpliedBook :=
  ⟨.empty, .empty, .empty, .empty, bt, at', bi, ai, none, none⟩

/-- A book nothing was handled by yet. -/
def MdBook.start (miniTick : ℤ) (books : List ImpliedBook) : MdBook := ⟨miniTick, .empty, books, []⟩

/-- The states of a book: implied books are attached, then calls are made that satisfy `ok`. -/
inductive MdBook.Reach (miniTick : ℤ) (ok : MdBook → Call → Prop) : MdBook → Prop
  | start (books : List ImpliedBook) (h : ∀ g ∈ books, ∃ bt at' bi ai, g = .attach bt at' bi ai) :
      Reach miniTick ok (.start miniTick books)
  | call {m : MdBook} (c : Call) (h : Reach miniTick ok m) (hok : ok m c) :
      Reach miniTick ok (m.step c)

end Matching.Md
