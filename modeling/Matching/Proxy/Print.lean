import Matching.Proxy.OrderBook

/-! `OrderBook::print_bids_asks`: the two last-valid books, line by line from the highest
    price, an ask and a bid of one price in one line. On the way it looks for the best
    prices once more, and the process exits when they cross. A book that takes more than
    half of the buffer is given up on before that. -/

namespace Matching.Proxy

open Md

/-- The buffer so far and the best prices so far. -/
structure Print where
  str : String
  topBidPrice : ℤ
  topAskPrice : ℤ

inductive Printed where
  | printed (str : String)
  | tooBig
  | exited
  deriving DecidableEq, Repr

/-- `%6s`. -/
def width6 (s : String) : String := String.ofList (List.replicate (6 - s.length) ' ') ++ s

/-- `%6lld`; a quantity is passed unsigned. -/
def lld (x : ℤ) : String := width6 (toString (if x < 2 ^ 63 then x else x - 2 ^ 64))

def level (x : BookItem) : String := lld x.price ++ " " ++ lld x.quantity

namespace Print

def start : Print := ⟨"", Half.bid.worst, Half.ask.worst⟩

/-- `pos > N - 1`, where `N` is what is left of the 4096 characters. -/
def full (w : Print) : Bool := decide ((w.str.length : ℤ) > 4096 - w.str.length - 1)

def line (w : Print) (s : String) : Print := { w with str := w.str ++ s ++ "\n" }

def seeAsk (w : Print) (x : BookItem) : Print :=
  if w.topAskPrice > x.price ∧ x.quantity > 0 then { w with topAskPrice := x.price } else w

def seeBid (w : Print) (x : BookItem) : Print :=
  if w.topBidPrice < x.price ∧ x.quantity > 0 then { w with topBidPrice := x.price } else w

/-- The first loop, over the asks; `none` when the buffer is full, else what is left of the bids. -/
def asks : Print → List (ℤ × BookItem) → List (ℤ × BookItem) → Option (Print × List (ℤ × BookItem))
  | w, [], bs => some (w, bs)
  | w, a :: as, [] =>
    let w := (w.line (width6 "" ++ " " ++ width6 "" ++ " " ++ level a.2)).seeAsk a.2
    if w.full then none else asks w as []
  | w, a :: as, b :: bs =>
    if a.2.price = b.2.price then
      let w := ((w.line (level b.2 ++ " " ++ level a.2)).seeAsk a.2).seeBid b.2
      if w.full then none else asks w as bs
    else
      let w := (w.line (width6 "" ++ " " ++ width6 "" ++ " " ++ level a.2)).seeAsk a.2
      if w.full then none else asks w as (b :: bs)

/-- The second loop, over the bids that are left. -/
def bids : Print → List (ℤ × BookItem) → Option Print
  | w, [] => some w
  | w, b :: bs =>
    let w := (w.line (level b.2)).seeBid b.2
    if w.full then none else bids w bs

end Print

/-- `print_bids_asks(bids, asks)`; both maps are walked from the back. -/
def printBidsAsks (bids asks : BookMap) : Printed :=
  match Print.start.asks asks.entries.reverse bids.entries.reverse with
  | none => .tooBig
  | some (w, bs) =>
    match w.bids bs with
    | none => .tooBig
    | some w => if w.topBidPrice ≥ w.topAskPrice then .exited else .printed w.str

/-! ### The best prices it finds -/

/-- Each of the two prices is that of a level of the book that is not empty,
    or still the sentinel. -/
structure Print.Found (w : Print) (Bid Ask : ℤ → Prop) : Prop where
  bid : w.topBidPrice = Half.bid.worst ∨ Bid w.topBidPrice
  ask : w.topAskPrice = Half.ask.worst ∨ Ask w.topAskPrice

namespace Print.Found

variable {w w' : Print} {Bid Ask : ℤ → Prop} {x : BookItem}

theorem line (hw : w.Found Bid Ask) (s : String) : (w.line s).Found Bid Ask := ⟨hw.bid, hw.ask⟩

theorem seeAsk (hw : w.Found Bid Ask) (hx : 0 < x.quantity → Ask x.price) :
    (w.seeAsk x).Found Bid Ask := by
  unfold Print.seeAsk
  split_ifs with hc
  · exact ⟨hw.bid, Or.inr (hx hc.2)⟩
  · exact hw

theorem seeBid (hw : w.Found Bid Ask) (hx : 0 < x.quantity → Bid x.price) :
    (w.seeBid x).Found Bid Ask := by
  unfold Print.seeBid
  split_ifs with hc
  · exact ⟨Or.inr (hx hc.2), hw.ask⟩
  · exact hw

theorem asks (as bs rest : List (ℤ × BookItem)) (hw : w.Found Bid Ask)
    (ha : ∀ x ∈ as, 0 < x.2.quantity → Ask x.2.price)
    (hb : ∀ x ∈ bs, 0 < x.2.quantity → Bid x.2.price) (hrun : w.asks as bs = some (w', rest)) :
    w'.Found Bid Ask ∧ ∀ x ∈ rest, 0 < x.2.quantity → Bid x.2.price := by
  induction as generalizing w bs with
  | nil =>
    simp only [Print.asks, Option.some.injEq, Prod.mk.injEq] at hrun
    obtain ⟨rfl, rfl⟩ := hrun
    exact ⟨hw, hb⟩
  | cons a as ih =>
    obtain ⟨ha1, has⟩ := List.forall_mem_cons.mp ha
    rcases bs with _ | ⟨b, bs⟩
    · simp only [Print.asks] at hrun
      split_ifs at hrun
      exact ih [] ((hw.line _).seeAsk ha1) has hb hrun
    · obtain ⟨hb1, hbs⟩ := List.forall_mem_cons.mp hb
      simp only [Print.asks] at hrun
      split_ifs at hrun
      · exact ih bs (((hw.line _).seeAsk ha1).seeBid hb1) has hbs hrun
      · exact ih (b :: bs) ((hw.line _).seeAsk ha1) has hb hrun

theorem bids (bs : List (ℤ × BookItem)) (hw : w.Found Bid Ask)
    (hb : ∀ x ∈ bs, 0 < x.2.quantity → Bid x.2.price) (hrun : w.bids bs = some w') :
    w'.Found Bid Ask := by
  induction bs generalizing w with
  | nil =>
    obtain rfl := Option.some.inj hrun
    exact hw
  | cons b bs ih =>
    obtain ⟨hb1, hbs⟩ := List.forall_mem_cons.mp hb
    simp only [Print.bids] at hrun
    split_ifs at hrun
    exact ih ((hw.line _).seeBid hb1) hbs hrun

end Print.Found

/-- Books that do not cross, at prices between the sentinels, do not make the process exit. -/
theorem printBidsAsks_stays {bids asks : BookMap} {Bid Ask : ℤ → Prop}
    (hb : ∀ x ∈ bids.entries, 0 < x.2.quantity → Bid x.2.price)
    (ha : ∀ x ∈ asks.entries, 0 < x.2.quantity → Ask x.2.price)
    (hbid : ∀ p, Bid p → p < Half.ask.worst) (hask : ∀ p, Ask p → Half.bid.worst < p)
    (hlt : ∀ p q, Bid p → Ask q → p < q) : printBidsAsks bids asks ≠ .exited := by
  intro hrun
  rcases h1 : Print.start.asks asks.entries.reverse bids.entries.reverse with _ | ⟨w1, rest⟩
  · simp only [printBidsAsks, h1, reduceCtorEq] at hrun
  · have hstart : Print.start.Found Bid Ask := ⟨Or.inl rfl, Or.inl rfl⟩
    obtain ⟨hw1, hrest⟩ :=
      hstart.asks _ _ _ (fun x hx => ha x (List.mem_reverse.mp hx))
        (fun x hx => hb x (List.mem_reverse.mp hx)) h1
    rcases h2 : w1.bids rest with _ | w2
    · simp only [printBidsAsks, h1, h2, reduceCtorEq] at hrun
    · obtain ⟨hw2b, hw2a⟩ := hw1.bids rest hrest h2
      have hcross : w2.topBidPrice < w2.topAskPrice := by
        rcases hw2b with hb0 | hb1
        · rcases hw2a with ha0 | ha1
          · rw [hb0, ha0]
            decide
          · rw [hb0]
            exact hask _ ha1
        · rcases hw2a with ha0 | ha1
          · rw [ha0]
            exact hbid _ hb1
          · exact hlt _ _ hb1 ha1
      simp only [printBidsAsks, h1, h2, ge_iff_le, if_neg (not_le.mpr hcross), reduceCtorEq] at hrun

end Matching.Proxy
