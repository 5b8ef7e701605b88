import Mathlib.Data.Int.Order.Basic
import Mathlib.Data.Nat.Basic
import Mathlib.Logic.Function.Basic
import Matching.Lib.OrdMap
import Matching.Lib.Ladder
import Matching.Lib.Fault
import Matching.Order

/-! The engines of one process. Pointers into `_odr_map` are the ids of its nodes (map nodes do not
    move), so a book level is the ascending list of the ids it points to, and a pointer to an erased
    node is an id the map no longer has. A taker is either the object the caller passed to `handle`
    by reference or, for an activated stop, its own map entry (`Ref`); reads and writes go through
    the reference, so aliasing is kept.

    `execs` is a history variable: every execution (`fok_match`/`normal_match` call) together with
    the taker and its engine as they were when it started. No function reads it. -/

namespace Matching

/-- The side of the taker a matcher serves, `order_side::BUY` or `order_side::SELL`. -/
inductive Side where | buy | sell
  deriving DecidableEq, Repr

namespace Side

def opp : Side → Side
  | .buy => .sell
  | .sell => .buy

/-- `key_comp()` of the book a taker of this side trades against (and of its stop book): `std::less`
    for buyers, `std::greater` for sellers. -/
def cmp : Side → ℤ → ℤ → Bool
  | .buy, a, b => a < b
  | .sell, a, b => b < a

instance (s : Side) : StrictLt s.cmp where
  irrefl a := by cases s <;> simp [cmp]
  trans {a b c} h1 h2 := by cases s <;> simp only [cmp, decide_eq_true_eq] at * <;> omega
  tri {a b} hne h := by
    cases s <;> simp only [cmp, decide_eq_true_eq, decide_eq_false_iff_not] at * <;> omega

end Side

abbrev Book := Ladder ℤ ℕ

/-- An implier attached to a matcher: its priority, its two legs (engine and side) and the virtual
    `matchd_price(leg1_price, leg2_price, mini_tick)` of its class. -/
structure Implier where
  priority : ℕ
  leg1 : ℕ × Side
  leg2 : ℕ × Side
  matchdPrice : ℤ → ℤ → ℤ → ℤ

/-- The five containers of an engine. -/
structure Store where
  odrMap : OrdMap ℕ Order
  bidBook : Book
  askBook : Book
  bidStopBook : Book
  askStopBook : Book

/-- What is fixed once an engine is set up. The matchers hold their impliers
    in descending priority. -/
structure Config where
  bidImpliers : List Implier
  askImpliers : List Implier
  miniTick : ℤ
  mutexSet : List ℕ

/-- `class engine`. -/
structure Engine extends Store, Config where
  cbRecords : List Order
  isAuction : Bool

namespace Store

/-- The book a taker of side `s` trades against. -/
def book (g : Store) : Side → Book
  | .buy => g.askBook
  | .sell => g.bidBook

def setBook (g : Store) (s : Side) (b : Book) : Store :=
  match s with
  | .buy => { g with askBook := b }
  | .sell => { g with bidBook := b }

/-- The stop orders that become takers of side `s`. -/
def stops (g : Store) : Side → Book
  | .buy => g.bidStopBook
  | .sell => g.askStopBook

def setStops (g : Store) (s : Side) (b : Book) : Store :=
  match s with
  | .buy => { g with bidStopBook := b }
  | .sell => { g with askStopBook := b }

end Store

/-- The impliers of the matcher that serves takers of side `s`
    (`_ask_book_matcher` serves buyers). -/
def Config.impliers (c : Config) : Side → List Implier
  | .buy => c.askImpliers
  | .sell => c.bidImpliers

/-- Where the taker of an execution lives. -/
inductive Ref where
  | arg
  | entry (id : ℕ)
  deriving DecidableEq, Repr

/-- One execution, as it started. -/
structure Exec where
  engine : ℕ
  side : Side
  ref : Ref
  taker : Order
  before : Engine

/-- All engines of the process, the id counter behind `get_id` (the node bits of `_node_id` are
    constant and above it), the locks, the order object of the running `handle` call, the reports
    passed to the callbacks so far and the history of executions. -/
structure World where
  engines : ℕ → Engine
  nextId : ℕ
  locked : ℕ → Bool
  arg : Order
  reports : List (ℕ × Order)
  execs : List Exec

namespace World

def store (w : World) (l : ℕ) : Store := (w.engines l).toStore

def conf (w : World) (l : ℕ) : Config := (w.engines l).toConfig

def book (w : World) (l : ℕ) (s : Side) : Book := (w.store l).book s

def stops (w : World) (l : ℕ) (s : Side) : Book := (w.store l).stops s

/-- The order a pointer to the map node `id` of engine `l` refers to, when
    the node is still there. -/
def order? (w : World) (l : ℕ) (id : ℕ) : Option Order := (w.store l).odrMap.find? id

def modify (w : World) (l : ℕ) (f : Engine → Engine) : World :=
  { w with engines := Function.update w.engines l (f (w.engines l)) }

/-- Change the containers of engine `l`. -/
def upd (w : World) (l : ℕ) (f : Store → Store) : World :=
  w.modify l (fun g => { g with toStore := f g.toStore })

def setArg (w : World) (o : Order) : World := { w with arg := o }

/-- Dereference an `order*`. -/
def deref (w : World) (l : ℕ) (id : ℕ) : Except Fault Order := orUb (w.order? l id)

/-- Write through an `order*`. -/
def putOrder (w : World) (l : ℕ) (id : ℕ) (o : Order) : World :=
  w.upd l (fun g => { g with odrMap := g.odrMap.insert id o })

/-- `_odr_map.erase(id)`. -/
def eraseOrder (w : World) (l : ℕ) (id : ℕ) : World :=
  w.upd l (fun g => { g with odrMap := g.odrMap.erase id })

def setBook (w : World) (l : ℕ) (s : Side) (b : Book) : World := w.upd l (fun g => g.setBook s b)

def setStops (w : World) (l : ℕ) (s : Side) (b : Book) : World := w.upd l (fun g => g.setStops s b)

def readRef (w : World) (l : ℕ) : Ref → Except Fault Order
  | .arg => .ok w.arg
  | .entry id => w.deref l id

def writeRef (w : World) (l : ℕ) (r : Ref) (o : Order) : World :=
  match r with
  | .arg => w.setArg o
  | .entry id => w.putOrder l id o

/-- `_callback(o)`. -/
def emit (w : World) (l : ℕ) (o : Order) : World := { w with reports := w.reports ++ [(l, o)] }

/-- `engine::callback(o)`: during an auction the report is recorded first. -/
def callback (w : World) (l : ℕ) (o : Order) : World :=
  if (w.engines l).isAuction then w.modify l (fun g => { g with cbRecords := g.cbRecords ++ [o] })
  else w.emit l o

/-- The effect of `get_id()`; the id it returns is `nextId` before. -/
def bumpId (w : World) : World := { w with nextId := w.nextId + 1 }

def logExec (w : World) (l : ℕ) (s : Side) (r : Ref) (o : Order) : World :=
  { w with execs := w.execs ++ [⟨l, s, r, o, w.engines l⟩] }

end World
end Matching
