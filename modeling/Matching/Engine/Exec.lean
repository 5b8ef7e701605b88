import Matching.Engine.Shadow
import Matching.Lib.Machine

/-! One execution as a whole: a walk, then an outcome. `execute_cases` is the only place
    where the two matching functions and their endings are taken apart; everything proved
    about executions starts from it. -/

namespace Matching

namespace World

/-! ### Endings in closed form -/

/-- The best price a taker of side `s` meets, impliers included (`best_ask()` / `best_bid()`). -/
def best (w : World) (e : ℕ) (s : Side) : ℤ :=
  (w.matcher e s).impliers.foldl (fun price L =>
    match L.leg1.cur, L.leg2.cur with
    | some c1, some c2 =>
      let matched := L.imp.matchdPrice c1.price c2.price (w.conf e).miniTick
      if matched ≠ marketPrice ∧ (price = marketPrice ∨ s.cmp matched price) then matched else price
    | _, _ => price) (((w.matcher e s).loc.cur.map Cursor.price).getD marketPrice)

/-- The taker ends as `o` without resting, and `o` is reported. -/
def kill (w : World) (e : ℕ) (r : Ref) (o : Order) : World := (w.writeRef e r o).callback e o

/-- The taker comes to rest as `o` in its own book. -/
def rest (w : World) (e : ℕ) (s : Side) (r : Ref) (o : Order) : World :=
  let w := (w.writeRef e r o).upd e (fun g =>
    (g.setBook s.opp ((g.book s.opp).insert s.opp.cmp o.price o.orderId)).withMap
      (g.odrMap.emplace o.orderId o))
  if o.remainQuantity = o.quantity then w.callback e o else w

end World

/-- Why a taker `o` left over in `w` ends with state `st`. For `FOK` the walk is the one counted
    beforehand. -/
inductive Kills (w : World) (e : ℕ) (s : Side) (r : Ref) (o : Order) : OrderStatus → Prop
  | ioc (h : o.timeCondition = .ioc) (hn : w.nextRec e s o = none) :
      Kills w e s r o
        (if o.quantity = o.remainQuantity then .canceledAllByIoc else .canceledPartialByIoc)
  | auction (h : o.timeCondition = .auction) (hn : w.nextRec e s o = none) :
      Kills w e s r o
        (if o.quantity = o.remainQuantity then .canceledAllByAuction else .canceledPartialByAuction)
  | makerOnly (h : o.timeCondition = .makerOnly) (hn : w.nextRec e s o ≠ none) :
      Kills w e s r o .canceledByMakerOnly
  | fok (h : o.timeCondition = .fok) {recs : List MatchedRecord} {w1 : World} {o1 : Order}
      (hwalk : Walk e s r w recs w1) (ho1 : w1.readRef e r = .ok o1) (hn : w1.nextRec e s o1 = none)
      (hrem : o1.remainQuantity ≠ 0) : Kills w e s r o .canceledByFok

/-- A time condition under which a residual rests. -/
def Order.MayRest (o : Order) : Prop :=
  o.timeCondition ≠ .ioc ∧ o.timeCondition ≠ .auction ∧ o.timeCondition ≠ .fok

/-- At which price a taker `o` left over in `w` comes to rest; `tick` is the one the
    matcher was called with. -/
inductive RestsAt (w : World) (e : ℕ) (s : Side) (o : Order) (tick : ℤ) : ℤ → Prop
  | limit (h : o.MayRest) (hn : w.nextRec e s o = none) (hp : o.price ≠ marketPrice) :
      RestsAt w e s o tick o.price
  | market (h : o.MayRest) (hn : w.nextRec e s o = none) (hp : o.price = marketPrice)
      (hb : w.best e s.opp ≠ marketPrice) : RestsAt w e s o tick (w.best e s.opp)
  | reprice (h : o.timeCondition = .makerOnlyReprice) (hn : w.nextRec e s o ≠ none)
      (hp : toI64 ((w.offer e s).price + tick) ≠ marketPrice) :
      RestsAt w e s o tick (toI64 ((w.offer e s).price + tick))
  | repriceMarket (h : o.timeCondition = .makerOnlyReprice) (hn : w.nextRec e s o ≠ none)
      (hp : toI64 ((w.offer e s).price + tick) = marketPrice) (hb : w.best e s.opp ≠ marketPrice) :
      RestsAt w e s o tick (w.best e s.opp)

/-- A taker that never takes. -/
def Order.MakerOnly (o : Order) : Prop :=
  o.timeCondition = .makerOnly ∨ o.timeCondition = .makerOnlyReprice

theorem Order.MakerOnly.not_fok {o : Order} (h : o.MakerOnly) : o.timeCondition ≠ .fok := by
  rcases h with h | h <;> simp [h]

/-- How an execution ends that left its taker as `o` in `w`. -/
inductive Outcome (w : World) (e : ℕ) (s : Side) (r : Ref) (o : Order) (tick : ℤ) : World → Prop
  | filled (h : o.remainQuantity = 0) : Outcome w e s r o tick w
  | killed {st : OrderStatus} (h : o.remainQuantity ≠ 0) (hk : Kills w e s r o st) :
      Outcome w e s r o tick (w.kill e r { o with orderState := st })
  | nothing (h : o.remainQuantity ≠ 0) (hb : w.best e s.opp = marketPrice)
      (hp : (o.MayRest ∧ o.price = marketPrice ∧ w.nextRec e s o = none) ∨
        (o.timeCondition = .makerOnlyReprice ∧ w.nextRec e s o ≠ none ∧
          toI64 ((w.offer e s).price + tick) = marketPrice)) :
      Outcome w e s r o tick
        (w.kill e r
          { o with price := marketPrice, orderState := .canceledByMarketOrderNothingMatch })
  | rested {p : ℤ} (h : o.remainQuantity ≠ 0) (hp : RestsAt w e s o tick p) :
      Outcome w e s r o tick (w.rest e s r { o with price := p })

variable {w w' : World} {l e : ℕ} {s : Side} {r : Ref} {o : Order}

/-! ### Writing through a reference -/

namespace World

theorem writeRef_writeRef (a b : Order) : (w.writeRef e r a).writeRef e r b = w.writeRef e r b := by
  cases r with
  | arg => rfl
  | entry id => exact putOrder_putOrder w e id a b

theorem writeRef_self (h : w.readRef e r = .ok o) : w.writeRef e r o = w := by
  cases r with
  | arg =>
    obtain rfl := Except.ok.inj h
    rfl
  | entry id =>
    exact putOrder_self (by simpa [readRef, deref] using h)

end World

/-! ### What the endings leave alone -/

namespace World

section Kill

variable (w : World) (e : ℕ) (r : Ref) (o : Order) (l : ℕ) (t : Side)

@[simp] theorem book_kill : ((w.kill e r o).store l).book t = (w.store l).book t := by simp [kill]
@[simp] theorem stops_kill : ((w.kill e r o).store l).stops t = (w.store l).stops t := by
  simp [kill]
theorem find_kill (id : ℕ) : ((w.kill e r o).store l).odrMap.find? id =
    if l = e ∧ r = .entry id then some o else (w.store l).odrMap.find? id := by
  simp [kill, find_writeRef]
@[simp] theorem conf_kill : (w.kill e r o).conf l = w.conf l := by simp [kill]
@[simp] theorem nextId_kill : (w.kill e r o).nextId = w.nextId := by simp [kill]
@[simp] theorem execs_kill : (w.kill e r o).execs = w.execs := by simp [kill]
@[simp] theorem isAuction_kill : ((w.kill e r o).engines l).isAuction = (w.engines l).isAuction :=
  by simp [kill]
@[simp] theorem readRef_kill : (w.kill e r o).readRef e r = .ok o := by
  simp only [kill, readRef_callback, readRef_writeRef]

end Kill

section Rest

variable (w : World) (e : ℕ) (s : Side) (r : Ref) (o : Order) (l : ℕ) (t : Side)

theorem book_rest : ((w.rest e s r o).store l).book t =
    if l = e ∧ t = s.opp then ((w.store e).book s.opp).insert s.opp.cmp o.price o.orderId
    else (w.store l).book t := by
  simp only [rest]
  by_cases hl : l = e
  · subst hl
    split_ifs <;> simp_all
  · split_ifs <;> simp_all

@[simp] theorem stops_rest : ((w.rest e s r o).store l).stops t = (w.store l).stops t := by
  simp only [rest]
  by_cases hl : l = e
  · subst hl
    split_ifs <;> simp
  · split_ifs <;> simp [hl]

/-- A taker whose id is free, or is the taker's own entry, is in the map afterwards. -/
theorem find_rest (hid : ∀ id, r = .entry id → o.orderId = id)
    (hfree : r = .arg → (w.store e).odrMap.find? o.orderId = none) (id : ℕ) :
    ((w.rest e s r o).store l).odrMap.find? id =
      if l = e ∧ id = o.orderId then some o else (w.store l).odrMap.find? id := by
  have hown : ((w.writeRef e r o).store e).odrMap.find? o.orderId = none ∨
      ((w.writeRef e r o).store e).odrMap.find? o.orderId = some o := by
    rw [find_writeRef]
    cases r with
    | arg => exact Or.inl (by simpa using hfree rfl)
    | entry id => exact Or.inr (by simp [hid id rfl])
  have hother : ∀ j, j ≠ o.orderId →
      ((w.writeRef e r o).store e).odrMap.find? j = (w.store e).odrMap.find? j := by
    intro j hj
    rw [find_writeRef, if_neg]
    rintro ⟨_, rfl⟩
    exact hj (hid j rfl).symm
  have hmap : ∀ j, (((w.writeRef e r o).store e).odrMap.emplace o.orderId o).find? j =
      if j = o.orderId then some o else (w.store e).odrMap.find? j := by
    intro j
    rw [OrdMap.find?_emplace]
    split_ifs with hj
    · rcases hown with h | h <;> rw [h] <;> rfl
    · exact hother j hj
  simp only [rest]
  by_cases hl : l = e
  · subst hl
    split_ifs <;> simp_all
  · split_ifs <;> simp_all [find_writeRef]

@[simp] theorem conf_rest : (w.rest e s r o).conf l = w.conf l := by
  simp only [rest]; split_ifs <;> simp
@[simp] theorem nextId_rest : (w.rest e s r o).nextId = w.nextId := by
  simp only [rest]; split_ifs <;> simp
@[simp] theorem execs_rest : (w.rest e s r o).execs = w.execs := by
  simp only [rest]; split_ifs <;> simp
@[simp] theorem isAuction_rest :
    ((w.rest e s r o).engines l).isAuction = (w.engines l).isAuction := by
  simp only [rest]; split_ifs <;> simp

@[simp] theorem readRef_rest : (w.rest e s r o).readRef e r = .ok o := by
  have hread : (w.writeRef e r o).readRef e r = .ok o := readRef_writeRef ..
  cases r with
  | arg => simp only [rest]; split_ifs <;> simp [readRef, writeRef]
  | entry id =>
    have hf : ((w.writeRef e (.entry id) o).store e).odrMap.find? id = some o := by
      simp [find_writeRef]
    have hown : id = o.orderId →
        (((w.writeRef e (.entry id) o).store e).odrMap.find? o.orderId).getD o = o := by
      rintro rfl
      rw [hf, Option.getD_some]
    simp only [rest]
    split_ifs <;> simpa [readRef, deref, OrdMap.find?_emplace, hf] using hown

end Rest

/-- Updates of engine `e` leave the stores of all others alone. -/
theorem store_kill_ne {w : World} {l e : ℕ} {r : Ref} {o : Order} (hl : l ≠ e) :
    (w.kill e r o).store l = w.store l := by
  refine Store.ext_containers (OrdMap.ext_find fun id => ?_) (fun t => by simp) (fun t => by simp)
  rw [find_kill, if_neg (fun hc => hl hc.1)]

theorem store_rest_ne {w : World} {l e : ℕ} {s : Side} {r : Ref} {o : Order} (hl : l ≠ e) :
    (w.rest e s r o).store l = w.store l := by
  have hmap : ((w.rest e s r o).store l).odrMap = (w.store l).odrMap := by
    refine OrdMap.ext_find fun id => ?_
    simp only [rest]
    split_ifs <;> simp [hl, find_writeRef]
  refine Store.ext_containers hmap (fun t => ?_) (fun t => by simp)
  rw [book_rest, if_neg (fun hc => hl hc.1)]

/-! ### The endings keep the books in order -/

section Endings

theorem ok_kill (h : w.Ok) (hoff : OffBook w e r) : (w.kill e r o).Ok := fun l => by
  have hb := booksOk_writeRef (o := o) (h l) hoff
  simpa [kill] using hb

/-- The id under which the taker `o` is about to rest is its own entry or free. -/
structure Free (w : World) (e : ℕ) (r : Ref) (o : Order) : Prop where
  entry : ∀ id, r = .entry id → o.orderId = id
  arg : r = .arg → (w.store e).odrMap.find? o.orderId = none ∧
    ∀ t, o.orderId ∉ ((w.store e).book t).ids

theorem Free.notMem (h : w.Free e r o) (hoff : OffBook w e r) (t : Side) :
    o.orderId ∉ ((w.store e).book t).ids := by
  cases r with
  | arg => exact (h.arg rfl).2 t
  | entry id =>
    rw [h.entry id rfl]
    exact hoff id rfl t

variable (hfree : w.Free e r o) (hoff : OffBook w e r)
include hfree hoff

theorem ok_rest (h : w.Ok) (hrem : 0 < o.remainQuantity) (hp : o.price ≠ marketPrice) :
    (w.rest e s r o).Ok := by
  have hfind := find_rest w e s r o
  intro l
  by_cases hl : l = e
  · subst hl
    refine (h l).rest (s := s.opp) (hfree.notMem hoff) ⟨rfl, rfl, hrem, hp⟩
      (fun t => ?_) (fun j => ?_)
    · rw [book_rest]; simp
    · rw [hfind l hfree.entry (fun hr => (hfree.arg hr).1)]; simp
  · refine (h l).congr (fun t => ?_) (fun t j _ => ?_)
    · rw [book_rest, if_neg (fun hc => hl hc.1)]
    · rw [hfind l hfree.entry (fun hr => (hfree.arg hr).1), if_neg (fun hc => hl hc.1)]

omit hoff in
theorem live_rest (h : w.Live) : (w.rest e s r o).Live := by
  have hfind := find_rest w e s r o
  intro l
  by_cases hl : l = e
  · subst hl
    refine (h l).rest (s := s.opp) (o := o) (fun t => ?_) (fun j => ?_)
    · rw [book_rest]; simp
    · rw [hfind l hfree.entry (fun hr => (hfree.arg hr).1)]; simp
  · refine (h l).congr (fun t => ?_) (fun t j _ => ?_)
    · rw [book_rest, if_neg (fun hc => hl hc.1)]
    · rw [hfind l hfree.entry (fun hr => (hfree.arg hr).1), if_neg (fun hc => hl hc.1)]

end Endings

end World

theorem Emits.kill (w : World) (e : ℕ) (r : Ref) (o : Order) : Emits w (w.kill e r o) [(e, o)] := by
  simpa [World.kill] using (Emits.writeRef w e r o).trans (Emits.callback (w.writeRef e r o) e o)

theorem Emits.rest (w : World) (e : ℕ) (s : Side) (r : Ref) (o : Order) :
    Emits w (w.rest e s r o) (if o.remainQuantity = o.quantity then [(e, o)] else []) := by
  have h := (Emits.writeRef w e r o).trans (Emits.upd (w.writeRef e r o) e (fun g =>
    (g.setBook s.opp ((g.book s.opp).insert s.opp.cmp o.price o.orderId)).withMap
      (g.odrMap.emplace o.orderId o)))
  simp only [World.rest]
  split_ifs
  · simpa using h.trans (Emits.callback _ e o)
  · simpa using h

/-! ### `best_ask` and `best_bid` -/

theorem Matcher.topPriceLoop_eq (hok : w.Ok) (tick : ℤ) : ∀ (Ls : List ImpliedLegs) (price : ℤ),
    (∀ L ∈ Ls, L.leg1.InBook w ∧ L.leg2.InBook w) →
    topPriceLoop w s tick Ls price = .ok (Ls.foldl (fun price L =>
      match L.leg1.cur, L.leg2.cur with
      | some c1, some c2 =>
        let matched := L.imp.matchdPrice c1.price c2.price tick
        if matched ≠ marketPrice ∧ (price = marketPrice ∨ s.cmp matched price) then matched
        else price
      | _, _ => price) price)
  | [], _, _ => rfl
  | L :: Ls, price, h => by
    obtain ⟨h1, h2⟩ := h L (List.mem_cons_self ..)
    have ih :=
      fun q => topPriceLoop_eq hok tick Ls q (fun L' hL' => h L' (List.mem_cons_of_mem _ hL'))
    rw [List.foldl_cons, topPriceLoop]
    rcases hc1 : L.leg1.cur with _ | c1
    · simp [Iter.valid, hc1, ih]
    rcases hc2 : L.leg2.cur with _ | c2
    · simp [Iter.valid, hc1, hc2, ih]
    obtain ⟨o1, ho1, hr1⟩ := h1.order hok hc1
    obtain ⟨o2, ho2, hr2⟩ := h2.order hok hc2
    simp only [Iter.valid, hc1, hc2, Option.isSome_some, Bool.and_self, if_true, ho1, ho2, ok_bind,
      hr1, hr2, ih]
    split_ifs <;> rfl

/-- The best price is read off the fronts, unless one of them dangles. -/
theorem bestPrice_cases (hok : w.Ok) (e : ℕ) (s : Side) :
    bestPrice w e s = .ok (w.best e s) ∨ (bestPrice w e s = .error .ub ∧ ¬w.Live) := by
  rcases Matcher.reset_cases hok e s with hsrc | ⟨hub, hl⟩
  · left
    have hin := World.matcher_inBook hsrc
    simp only [bestPrice, Matcher.reset_eq hsrc, ok_bind, Matcher.topPrice,
      Iter.topPrice_eq hok hin.loc, Matcher.topPriceLoop_eq hok _ _ _ hin.legs]
    rfl
  · exact Or.inr ⟨by rw [bestPrice, hub]; rfl, hl⟩

/-- What is structurally needed of an execution: books in order, the taker outside them, no source
    of liquidity used twice. -/
structure Setup (w : World) (e : ℕ) (s : Side) (r : Ref) : Prop where
  ok : w.Ok
  off : OffBook w e r
  legs : LegsApart w e s

theorem Setup.ready (h : Setup w e s r) (hf : Fronts w e s) : Ready w e s r :=
  ⟨h.ok, h.off, h.legs, hf⟩

/-- An execution either can start, or the first thing it reads is a dangling entry. -/
theorem Setup.start_cases (h : Setup w e s r) :
    Ready w e s r ∨ (¬w.Live ∧ (Matcher.reset w e s = .error .ub ∨
      (Matcher.reset w e s = .ok (w.matcher e s) ∧ (w.matcher e s).top w = .error .ub))) := by
  rcases Matcher.reset_cases h.ok e s with hsrc | ⟨hub, hl⟩
  · by_cases hown : Resolves w e s.opp
    · exact Or.inl (h.ready ⟨hown, hsrc⟩)
    · refine Or.inr ⟨fun hl => hown (Resolves.of_live (h.ok e) (hl e)),
        Or.inr ⟨Matcher.reset_eq hsrc, ?_⟩⟩
      have hloc := Iter.topPrice_eq h.ok (World.matcher_inBook hsrc).loc
      have hub : Iter.topPriceOwnSide w (w.matcher e s).engine (w.matcher e s).side = .error .ub :=
        Iter.topPriceOwnSide_ub (h.ok e) hown
      simp only [Matcher.top, hloc, hub, ok_bind]
      rfl
  · exact Or.inr ⟨hl, Or.inl hub⟩

/-! ### The endings of the two matching functions -/

theorem killTaker_eq {st : OrderStatus} (ho : w.readRef e r = .ok o) :
    killTaker w e r st = .ok (w.kill e r { o with orderState := st }) := by
  simp only [killTaker, ho, ok_bind, World.kill, pure, Except.pure]

theorem restTaker_eq (ho : w.readRef e r = .ok o) : restTaker w e s r = .ok (w.rest e s r o) := by
  simp only [restTaker, ho, ok_bind, World.rest, World.writeRef_self ho, pure, Except.pure]
  split_ifs <;> rfl

theorem World.rest_writeRef (a b : Order) : (w.writeRef e r a).rest e s r b = w.rest e s r b := by
  simp only [World.rest, World.writeRef_writeRef]

/-- What happens to the residual of a taker that is neither `IOC` nor `AUCTION`,
    once its limit is set. -/
theorem residual_rest (o' : Order) (s : Side) (hok : w.Ok) (hoff : OffBook w e r)
    (h0 : o'.remainQuantity ≠ 0) (h1 : o'.timeCondition ≠ .ioc) (h2 : o'.timeCondition ≠ .auction) :
    residual (w.writeRef e r o') e s r = .ok
      (if o'.price ≠ marketPrice then w.rest e s r o'
      else if w.best e s.opp = marketPrice then
        w.kill e r
          { o' with price := marketPrice, orderState := .canceledByMarketOrderNothingMatch }
      else w.rest e s r { o' with price := w.best e s.opp }) ∨
    (residual (w.writeRef e r o') e s r = .error .ub ∧ ¬w.Live) := by
  have hread : (w.writeRef e r o').readRef e r = .ok o' := World.readRef_writeRef ..
  have hok' : (w.writeRef e r o').Ok := fun l => World.booksOk_writeRef (hok l) hoff
  by_cases hp : o'.price = marketPrice
  · have hbest : (w.writeRef e r o').best e s.opp = w.best e s.opp := by
      simp only [World.best, World.matcher_writeRef hoff, World.conf_writeRef]
    rcases bestPrice_cases hok' e s.opp with hb | ⟨hb, hl⟩
    · left
      rw [hbest] at hb
      simp only [residual, hread, ok_bind, h0, h1, h2, hp, hb, if_false, if_true, ne_eq,
        not_true_eq_false, World.writeRef_writeRef]
      by_cases hm : w.best e s.opp = marketPrice
      · simp only [hm, if_true]
        rw [killTaker_eq (World.readRef_writeRef ..), World.kill, World.writeRef_writeRef]
        rfl
      · simp only [hm, if_false]
        rw [restTaker_eq (World.readRef_writeRef ..), World.rest_writeRef]
    · refine Or.inr ⟨?_, fun hlive => hl (World.live_writeRef hlive hoff)⟩
      simp only [residual, hread, ok_bind, h0, h1, h2, hp, hb, if_false, if_true]
      rfl
  · left
    simp only [residual, hread, ok_bind, h0, h1, h2, hp, if_false, ne_eq,
      not_false_eq_true, if_true]
    rw [restTaker_eq hread, World.rest_writeRef]

theorem World.best_noTake {tick : ℤ} (h0 : o.remainQuantity ≠ 0) (hr : o.MayRest)
    (hn : w.nextRec e s o = none) :
    Outcome w e s r o tick
      (if o.price ≠ marketPrice then w.rest e s r o
      else if w.best e s.opp = marketPrice then
        w.kill e r { o with price := marketPrice, orderState := .canceledByMarketOrderNothingMatch }
      else w.rest e s r { o with price := w.best e s.opp }) := by
  split_ifs with hp hb
  · exact Outcome.rested (p := o.price) h0 (RestsAt.limit hr hn hp)
  · exact Outcome.nothing h0 hb (Or.inl ⟨hr, not_not.mp hp, hn⟩)
  · exact Outcome.rested h0 (RestsAt.market hr hn (not_not.mp hp) hb)

/-- The residual of a taker for which there is no next step. -/
theorem residual_outcome (tick : ℤ) (hw : Ready w e s r) (ho : w.readRef e r = .ok o)
    (h3 : o.timeCondition ≠ .fok) (hn : w.nextRec e s o = none) :
    (∃ w', residual w e s r = .ok w' ∧ Outcome w e s r o tick w') ∨
      (residual w e s r = .error .ub ∧ ¬w.Live) := by
  by_cases h0 : o.remainQuantity = 0
  · exact Or.inl ⟨w, by simp [residual, ho, h0, pure, Except.pure], Outcome.filled h0⟩
  by_cases h1 : o.timeCondition = .ioc
  · refine Or.inl ⟨_, ?_, Outcome.killed h0 (Kills.ioc h1 hn)⟩
    simp only [residual, ho, ok_bind, h0, h1, if_false, if_true, killTaker_eq ho]
  by_cases h2 : o.timeCondition = .auction
  · refine Or.inl ⟨_, ?_, Outcome.killed h0 (Kills.auction h2 hn)⟩
    simp only [residual, ho, ok_bind, h0, h2, if_false, if_true, killTaker_eq ho, reduceCtorEq]
  have hres := residual_rest o s hw.ok hw.off h0 h1 h2
  rw [World.writeRef_self ho] at hres
  rcases hres with hres | hub
  · exact Or.inl ⟨_, hres, World.best_noTake h0 ⟨h1, h2, h3⟩ hn⟩
  · exact Or.inr hub

/-- A maker-only taker that could take: it ends at once, at its own price or at a new one. -/
theorem normalLoop_maker (tick : ℤ) (n : ℕ) (hw : Ready w e s r) (ho : w.readRef e r = .ok o)
    (hn : w.nextRec e s o ≠ none) :
    (o.timeCondition = .makerOnly → normalLoop e s r tick (n + 1) w (w.matcher e s) =
      .ok (w.kill e r { o with orderState := .canceledByMakerOnly }, true)) ∧
    (o.timeCondition = .makerOnlyReprice → normalLoop e s r tick (n + 1) w (w.matcher e s) =
      .ok (w.writeRef e r { o with price := toI64 ((w.offer e s).price + tick) }, false)) := by
  rw [ne_eq, World.nextRec_eq_none hw.fronts] at hn
  simp only [not_or] at hn
  obtain ⟨h0, hp, hlim⟩ := hn
  constructor
  · intro hm
    simp only [normalLoop, ho, ok_bind, World.top_matcher hw.ok hw.fronts, h0, hp, hlim, hm,
      if_false, if_true, killTaker_eq ho, pure, Except.pure]
  · intro hm
    simp only [normalLoop, ho, ok_bind, World.top_matcher hw.ok hw.fronts, h0, hp, hlim, hm,
      if_false, if_true, pure, Except.pure, reduceCtorEq]

theorem Walk.live {recs : List MatchedRecord} (h : Walk e s r w recs w') (hw : Ready w e s r)
    (hl : w.Live) :
    w'.Live := h.induct (P := World.Live) (fun hv _ hf hl => hf.live hv hl) hw hl

theorem normalMatch_start (hw : Ready w e s r) (ho : w.readRef e r = .ok o) (tick : ℤ) :
    normalMatch w e s r tick = (do
      let (w, returned) ← normalLoop e s r tick (o.remainQuantity + 1) w (w.matcher e s)
      if returned then return w else residual w e s r) := by
  simp only [normalMatch, Matcher.reset_eq hw.fronts.src, ho, ok_bind]

/-- `normal_match` is a walk and an outcome, or it runs into a dangling entry. -/
theorem normalMatch_cases (hs : Setup w e s r) (ho : w.readRef e r = .ok o)
    (h0 : o.remainQuantity ≠ 0) (h3 : o.timeCondition ≠ .fok) (tick : ℤ) :
    (∃ recs w1 o1 w', normalMatch w e s r tick = .ok w' ∧ Ready w e s r ∧ Walk e s r w recs w1 ∧
      w1.readRef e r = .ok o1 ∧ Outcome w1 e s r o1 tick w' ∧ (o.MakerOnly → recs = [])) ∨
    (normalMatch w e s r tick = .error .ub ∧ ¬w.Live) := by
  rcases hs.start_cases with hw | ⟨hl, hub | ⟨hreset, hub⟩⟩
  · rw [normalMatch_start hw ho]
    by_cases hmaker : o.MakerOnly
    · rcases hrec : w.nextRec e s o with _ | rec
      · -- nothing to take: the maker-only order rests
        rw [normalLoop_none tick _ hw ho hrec]
        rcases residual_outcome tick hw ho h3 hrec with ⟨w', hres, hout⟩ | hub
        · exact Or.inl ⟨[], w, o, w', hres, hw, Walk.nil w, ho, hout, fun _ => rfl⟩
        · exact Or.inr hub
      · have hsome : w.nextRec e s o ≠ none := by rw [hrec]; exact Option.some_ne_none rec
        obtain ⟨hkill, hprice⟩ := normalLoop_maker tick o.remainQuantity hw ho hsome
        rcases hmaker with hm | hm
        · rw [hkill hm]
          exact Or.inl ⟨[], w, o, _, rfl, hw, Walk.nil w, ho,
            Outcome.killed h0 (Kills.makerOnly hm hsome), fun _ => rfl⟩
        · rw [hprice hm]
          have hres := residual_rest { o with price := toI64 ((w.offer e s).price + tick) }
            s hw.ok hw.off h0 (by simp [hm]) (by simp [hm])
          simp only at hres
          rcases hres with hres | hub
          · refine Or.inl ⟨[], w, o, _, hres, hw, Walk.nil w, ho, ?_, fun _ => rfl⟩
            split_ifs with h1 h2
            · exact Outcome.rested h0 (RestsAt.reprice hm hsome h1)
            · exact Outcome.nothing h0 h2 (Or.inr ⟨hm, hsome, not_not.mp h1⟩)
            · exact Outcome.rested h0 (RestsAt.repriceMarket hm hsome (not_not.mp h1) h2)
          · exact Or.inr hub
    · obtain ⟨h1, h2⟩ := not_or.mp hmaker
      rcases normalLoop_walk tick (o.remainQuantity + 1) hw ho (Nat.lt_succ_self _) h1 h2 with
        ⟨recs, w1, o1, hloop, hwalk, ho1, hnone⟩ | ⟨hub, hl⟩
      · obtain ⟨o1', ho1', hf⟩ := hwalk.taker hw ho
        obtain rfl := Except.ok.inj (ho1'.symm.trans ho1)
        have htc : o1'.timeCondition ≠ .fok := by rw [hf.timeCondition]; exact h3
        rw [hloop]
        rcases residual_outcome tick (hwalk.ready hw) ho1 htc hnone with
          ⟨w', hres, hout⟩ | ⟨hub, hl⟩
        · exact Or.inl ⟨recs, w1, o1', w', hres, hw, hwalk, ho1, hout, fun h => absurd h hmaker⟩
        · exact Or.inr ⟨hub, fun hlive => hl (hwalk.live hw hlive)⟩
      · exact Or.inr ⟨by rw [hub]; rfl, hl⟩
  · exact Or.inr ⟨by rw [normalMatch, hub]; rfl, hl⟩
  · refine Or.inr ⟨?_, hl⟩
    simp only [normalMatch, hreset, ho, ok_bind, normalLoop, h0, if_false, hub]
    rfl

/-- An accepted `fok_match` walks until its taker is filled; any other only kills it. -/
theorem fokMatch_cases (hs : Setup w e s r) (ho : w.readRef e r = .ok o)
    (h0 : o.remainQuantity ≠ 0) :
    (∃ recs w1 o1, Ready w e s r ∧ Walk e s r w recs w1 ∧ w1.readRef e r = .ok o1 ∧
      w1.nextRec e s o1 = none ∧
      fokMatch w e s r = .ok
        (if o1.remainQuantity = 0 then w1 else w.kill e r
          { o with orderState := .canceledByFok })) ∨
    (fokMatch w e s r = .error .ub ∧ ¬w.Live) := by
  rcases hs.start_cases with hw | ⟨hl, hub | ⟨hreset, hub⟩⟩
  · have hstart : fokMatch w e s r = (do
        let found ← fokLoop w o.price (o.remainQuantity + 1) (w.matcher e s) o.remainQuantity
        if found.2 ≠ 0 then killTaker w e r .canceledByFok else fokExecute e r w found.1) := by
      simp only [fokMatch, Matcher.reset_eq hw.fronts.src, ho, ok_bind]
    rw [hstart]
    rcases fokLoop_walk (o.remainQuantity + 1) hw.ok hw.fronts (Shadow.refl w e s) hw ho
        (Nat.lt_succ_self _) with
      ⟨recs, w1, o1, hloop, hwalk, ho1, hnone⟩ | ⟨hub, hl⟩
    · refine Or.inl ⟨recs, w1, o1, hw, hwalk, ho1, hnone, ?_⟩
      rw [hloop]
      by_cases hz : o1.remainQuantity = 0
      · simp only [ok_bind, hz, ne_eq, not_true_eq_false, if_false, if_true, fokExecute_walk hwalk]
      · simp only [ok_bind, hz, ne_eq, not_false_eq_true, if_false, if_true, killTaker_eq ho]
    · exact Or.inr ⟨by rw [hub]; rfl, hl⟩
  · exact Or.inr ⟨by rw [fokMatch, hub]; rfl, hl⟩
  · refine Or.inr ⟨?_, hl⟩
    simp only [fokMatch, hreset, ho, ok_bind, fokLoop, h0, if_false, Matcher.matchOne, hub]
    rfl

/-- An execution is a walk and an outcome, or it runs into a dangling entry. -/
theorem execute_cases (hs : Setup w e s r) (ho : w.readRef e r = .ok o)
    (h0 : o.remainQuantity ≠ 0) :
    (∃ recs w1 o1 w', execute w e s r = .ok w' ∧ Ready (w.logExec e s r o) e s r ∧
      Walk e s r (w.logExec e s r o) recs w1 ∧ w1.readRef e r = .ok o1 ∧
      Outcome w1 e s r o1 (s.tick (w.conf e).miniTick) w' ∧
      (o.MakerOnly ∨ (o.timeCondition = .fok ∧ o1.remainQuantity ≠ 0) → recs = [])) ∨
    (execute w e s r = .error .ub ∧ ¬w.Live) := by
  have hs0 : Setup (w.logExec e s r o) e s r := ⟨hs.ok, hs.off, ⟨hs.legs.nodup, hs.legs.outside⟩⟩
  have ho0 : (w.logExec e s r o).readRef e r = .ok o := by cases r <;> exact ho
  by_cases htc : o.timeCondition = .fok
  · have hex : execute w e s r = fokMatch (w.logExec e s r o) e s r := by
      simp only [execute, ho, ok_bind, htc, if_true]
    rw [hex]
    rcases fokMatch_cases hs0 ho0 h0 with ⟨recs, w1, o1, hw, hwalk, ho1, hnone, hfok⟩ | hub
    · rw [hfok]
      by_cases hz : o1.remainQuantity = 0
      · rw [if_pos hz]
        refine Or.inl ⟨recs, w1, o1, w1, rfl, hw, hwalk, ho1, Outcome.filled hz, ?_⟩
        rintro (h | h)
        · exact absurd htc h.not_fok
        · exact absurd hz h.2
      · rw [if_neg hz]
        exact Or.inl ⟨[], _, o, _, rfl, hw, Walk.nil _, ho0,
          Outcome.killed h0 (Kills.fok htc hwalk ho1 hnone hz), fun _ => rfl⟩
    · exact Or.inr hub
  · have hex : execute w e s r = normalMatch (w.logExec e s r o) e s r
      (s.tick (w.conf e).miniTick) := by
      simp only [execute, ho, ok_bind, htc, if_false]
      rfl
    rw [hex]
    rcases normalMatch_cases hs0 ho0 h0 htc (s.tick (w.conf e).miniTick) with
      ⟨recs, w1, o1, w', hnm, hw, hwalk, ho1, hout, hstill⟩ | hub
    · refine Or.inl ⟨recs, w1, o1, w', hnm, hw, hwalk, ho1, hout, ?_⟩
      rintro (h | h)
      · exact hstill h
      · exact absurd h.1 htc
    · exact Or.inr hub

/-- A taker that takes ends where there is no next step. -/
theorem Outcome.stuck {tick : ℤ} (h : Outcome w e s r o tick w') (hf : Fronts w e s)
    (hm : ¬o.MakerOnly) (hfok : o.timeCondition = .fok → o.remainQuantity = 0) :
    w.nextRec e s o = none := by
  cases h with
  | filled h0 => exact (World.nextRec_eq_none hf).mpr (Or.inl h0)
  | killed h0 hk =>
    cases hk with
    | ioc _ hn => exact hn
    | auction _ hn => exact hn
    | makerOnly h => exact absurd (Or.inl h) hm
    | fok h => exact absurd (hfok h) h0
  | nothing _ _ hp =>
    rcases hp with ⟨_, _, hn⟩ | ⟨htc, _⟩
    · exact hn
    · exact absurd (Or.inr htc) hm
  | rested _ hp =>
    cases hp with
    | limit _ hn => exact hn
    | market _ hn => exact hn
    | reprice htc => exact absurd (Or.inr htc) hm
    | repriceMarket htc => exact absurd (Or.inr htc) hm

/-- What an execution leaves of its taker. -/
theorem Outcome.taker {w' : World} {tick : ℤ} (h : Outcome w e s r o tick w')
    (ho : w.readRef e r = .ok o) :
    ∃ o', w'.readRef e r = .ok o' ∧ o'.remainQuantity = o.remainQuantity := by
  cases h with
  | filled => exact ⟨o, ho, rfl⟩
  | killed => exact ⟨_, World.readRef_kill .., rfl⟩
  | nothing => exact ⟨_, World.readRef_kill .., rfl⟩
  | rested => exact ⟨_, World.readRef_rest .., rfl⟩

/-! ### A small state -/

theorem OffBook.arg (w : World) (e : ℕ) : OffBook w e .arg := fun _ h => nomatch h

theorem World.start_ok (miniTick : ℤ) (firstId : ℕ) : (World.start miniTick firstId).Ok :=
  fun _ => BooksOk.empty _ _ _

theorem World.start_live (miniTick : ℤ) (firstId : ℕ) : (World.start miniTick firstId).Live := by
  intro l s p id h
  cases s <;> simp [World.start, World.store, Store.book] at h

/-- Orders come to rest one after another, each as a taker of engine `x.1` and side `x.2.1`. -/
def World.rests (w : World) (xs : List (ℕ × Side × Order)) : World :=
  xs.foldl (fun w x => w.rest x.1 x.2.1 .arg x.2.2) w

/-- The order is new to the engine, and may rest. -/
def World.Newcomer (w : World) (x : ℕ × Side × Order) : Prop :=
  (w.store x.1).odrMap.find? x.2.2.orderId = none ∧
    (∀ t ∈ [Side.buy, .sell], x.2.2.orderId ∉ ((w.store x.1).book t).ids) ∧
      0 < x.2.2.remainQuantity ∧ x.2.2.price ≠ marketPrice

instance (w : World) (x : ℕ × Side × Order) : Decidable (w.Newcomer x) :=
  inferInstanceAs (Decidable (_ ∧ _))

theorem World.rests_ok : ∀ (xs : List (ℕ × Side × Order)) {w : World},
    Along (fun w x => w.rest x.1 x.2.1 .arg x.2.2) World.Newcomer w xs → w.Ok → w.Live →
      (w.rests xs).Ok ∧ (w.rests xs).Live ∧ ∀ l, (w.rests xs).conf l = w.conf l
  | [], _, _, hok, hlive => ⟨hok, hlive, fun _ => rfl⟩
  | x :: xs, w, h, hok, hlive => by
    obtain ⟨⟨hnone, hids, hrem, hprice⟩, h⟩ := h
    have hfree : w.Free x.1 .arg x.2.2 :=
      ⟨fun _ hr => (by cases hr), fun _ => ⟨hnone, fun t => hids t (by cases t <;> decide)⟩⟩
    obtain ⟨hok, hlive, hconf⟩ :=
      World.rests_ok xs h (World.ok_rest hfree (OffBook.arg _ _) hok hrem hprice)
      (World.live_rest hfree hlive)
    exact ⟨hok, hlive, fun l => (hconf l).trans (World.conf_rest ..)⟩

/-- One sell order rests in engine 0. -/
def World.oneAsk : World := (World.start 1 1000).rest 0 .sell .arg
  { Order.default with
    side := .sell, price := 100, quantity := 5, remainQuantity := 5, orderId := 7 }

theorem World.oneAsk_free : (World.start 1 1000).Free 0 .arg
    { Order.default with
      side := .sell, price := 100, quantity := 5, remainQuantity := 5, orderId := 7 } :=
  ⟨fun _ h => (nomatch h), fun _ => ⟨rfl, fun t => by cases t <;> exact List.not_mem_nil⟩⟩

theorem World.oneAsk_ok : World.oneAsk.Ok :=
  World.ok_rest World.oneAsk_free (OffBook.arg _ _) (World.start_ok 1 1000) (by decide) (by decide)

theorem World.oneAsk_live : World.oneAsk.Live :=
  World.live_rest World.oneAsk_free (World.start_live 1 1000)

end Matching
