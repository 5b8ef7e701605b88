import Matching.Engine.Calls
import Matching.Engine.Reference

/-! Post-only takers in an engine without impliers. Where the limit does not reach the best opposite
    price the order rests there; where it does, `MAKER_ONLY` is cancelled and `MAKER_ONLY_REPRICE`
    rests one tick short of that price (`Store.postPrice`). The opposite book is not touched and
    nothing is filled. -/

namespace Matching

/-- One tick from the price `p`, away from the book a taker of side `s` trades against. -/
def Side.short (s : Side) (p tick : ℤ) : ℤ :=
  match s with
  | .buy => p - tick
  | .sell => p + tick

namespace Store

/-- The best price a taker of side `s` meets. -/
def oppBest (g : Store) (s : Side) : ℤ := g.ownBest s.opp

/-- The limit of `o` reaches the best opposite price. -/
def Reached (g : Store) (s : Side) (o : Order) : Prop :=
  g.oppBest s ≠ marketPrice ∧ Accepts s o (g.oppBest s)

instance (g : Store) (s : Side) (o : Order) : Decidable (g.Reached s o) :=
  inferInstanceAs (Decidable (_ ∧ _))

/-- Where a post-only taker rests, if it does. An order without a limit that meets an empty book
    goes to the best price of its own side. -/
def postPrice (g : Store) (tick : ℤ) (s : Side) (o : Order) : Option ℤ :=
  if g.Reached s o then
    (if o.timeCondition = .makerOnly then none else some (s.short (g.oppBest s) tick))
  else if o.price ≠ marketPrice then some o.price
  else if g.ownBest s = marketPrice then none
  else some (g.ownBest s)

/-- The state it is cancelled with otherwise. -/
def postState (g : Store) (s : Side) (o : Order) : OrderStatus :=
  if g.Reached s o then .canceledByMakerOnly else .canceledByMarketOrderNothingMatch

end Store

variable {w w' : World} {g : Store} {e id : ℕ} {s : Side} {r : Ref} {o : Order} {tick p : ℤ}

/-! ### The best opposite price -/

/-- The best opposite price is that of the first order of the queue. -/
theorem Store.oppBest_queue (hok : BooksOk g) (hl : g.Live) (s : Side) :
    g.oppBest s = (((g.queue s).head?).map Order.price).getD marketPrice := by
  have hwf := hok.wf s
  rw [oppBest, ownBest, Side.opp_opp, queue]
  rcases hb : g.book s with _ | ⟨⟨p, _ | ⟨i, is⟩⟩, b⟩
  · rfl
  · rw [hb] at hwf
    exact absurd rfl (hwf.full _ List.mem_cons_self)
  · have hat := BooksOk.at_front hb
    obtain ⟨m, hm⟩ := Option.ne_none_iff_exists'.mp (hl s p i hat)
    rw [Ladder.ids_cons, List.cons_append, List.filterMap_cons_some hm]
    exact (hok.restsAt hat hm).price.symm

/-- Every price of the opposite book is the best one or behind it. -/
theorem Store.oppBest_le (hok : BooksOk g) (hat : (g.book s).At p id) :
    p = g.oppBest s ∨ s.cmp (g.oppBest s) p = true := by
  have hwf := hok.wf s
  rw [oppBest, ownBest, Side.opp_opp]
  rcases hb : g.book s with _ | ⟨⟨p', _ | ⟨i, is⟩⟩, b⟩
  · rw [hb] at hat
    simp at hat
  · rw [hb] at hwf
    exact absurd rfl (hwf.full _ List.mem_cons_self)
  · rw [hb] at hat hwf
    rcases (Ladder.at_cons ..).mp hat with ⟨rfl, _⟩ | hat
    · exact Or.inl rfl
    · exact Or.inr (hwf.lt_of_at hat)

theorem Store.oppBest_ne (hok : BooksOk g) (hl : g.Live) (hat : (g.book s).At p id) :
    g.oppBest s ≠ marketPrice := by
  rcases hb : g.book s with _ | ⟨⟨p', _ | ⟨i, is⟩⟩, b⟩
  · rw [hb] at hat
    simp at hat
  · have hwf := hok.wf s
    rw [hb] at hwf
    exact absurd rfl (hwf.full _ List.mem_cons_self)
  · have hfront := BooksOk.at_front hb
    obtain ⟨m, hm⟩ := Option.ne_none_iff_exists'.mp (hl s p' i hfront)
    rw [oppBest, ownBest, Side.opp_opp, hb]
    exact (hok.restsAt hfront hm).limit

/-- An order is eligible exactly when the limit reaches the best opposite price, and the
    first one has that price. -/
theorem Store.eligible_cases (hok : BooksOk g) (hl : g.Live) (s : Side) (o : Order) :
    (g.eligible s o = [] ∧ ¬g.Reached s o) ∨ ∃ m ms, g.eligible s o = m :: ms ∧ g.Reached s o ∧
      m.price = g.oppBest s := by
  have hbest := oppBest_queue hok hl s
  rcases hq : g.queue s with _ | ⟨m, ms⟩
  · rw [hq] at hbest
    exact Or.inl ⟨by rw [eligible, hq]; rfl, fun hr => hr.1 hbest⟩
  · rw [hq] at hbest
    have hprice : g.oppBest s = m.price := hbest
    by_cases hacc : Accepts s o m.price
    · obtain ⟨i, hi, hfind⟩ := mem_queue.mp (hq ▸ List.mem_cons_self : m ∈ g.queue s)
      obtain ⟨q, hat⟩ := Ladder.mem_ids.mp hi
      exact Or.inr ⟨m, _, by rw [eligible, hq, List.takeWhile_cons_of_pos (by simpa using hacc)],
        ⟨oppBest_ne hok hl hat, hprice ▸ hacc⟩, hprice.symm⟩
    · exact Or.inl ⟨by rw [eligible, hq, List.takeWhile_cons_of_neg (by simpa using hacc)],
        fun hr => hacc (hprice ▸ hr.2)⟩

/-! ### The price it rests at -/

/-- With the tick the matcher is called with, no sum wraps on the way to a price that is one. -/
theorem Side.short_eq (hs : -2 ^ 63 ≤ s.short p tick) (hs' : s.short p tick < 2 ^ 63) :
    toI64 (p + s.tick tick) = s.short p tick := by
  have hi64 : ∀ x : ℤ, -2 ^ 63 ≤ x → x < 2 ^ 63 → toI64 x = x :=
    fun x hlo hhi => Int.bmod_eq_of_le (by omega) (by omega)
  cases s with
  | buy =>
    have hsub : p + tick * -1 = p - tick := by omega
    rw [Side.tick, toI64, toI64, Int.add_bmod_bmod, hsub]
    exact hi64 _ hs hs'
  | sell => exact hi64 _ hs hs'

theorem Side.cmp_short (s : Side) (ht : 0 < tick) (p : ℤ) : s.cmp (s.short p tick) p = true := by
  cases s with
  | buy => exact decide_eq_true (show p - tick < p by omega)
  | sell => exact decide_eq_true (show p < p + tick by omega)

/-- The end of a post-only taker. -/
theorem Store.fate_post (hok : BooksOk g) (hl : g.Live) (hm : o.MakerOnly)
    (hprice : g.Reached s o → o.timeCondition = .makerOnlyReprice →
      toI64 (g.oppBest s + s.tick tick) = s.short (g.oppBest s) tick ∧
      s.short (g.oppBest s) tick ≠ marketPrice) :
    (∀ p, g.postPrice tick s o = some p → p ≠ marketPrice ∧ g.fate tick s o = .rested p) ∧
      (g.postPrice tick s o = none → ∃ p, g.fate tick s o = .killed p (g.postState s o)) := by
  rcases eligible_cases hok hl s o with ⟨hnil, hreach⟩ | ⟨m, ms, hcons, hreach, hbest⟩
  · have hfate : g.fate tick s o = g.restFate s o.price := by
      rcases hm with hm | hm <;> simp only [fate, hm, hnil, if_true]
    rw [hfate, restFate, postPrice, if_neg hreach, postState, if_neg hreach]
    split_ifs with hp hown
    · exact ⟨fun p hp' => Option.some.inj hp' ▸ ⟨hp, rfl⟩, fun h => by cases h⟩
    · exact ⟨fun p h => (by cases h), fun _ => ⟨_, rfl⟩⟩
    · exact ⟨fun p hp' => Option.some.inj hp' ▸ ⟨hown, rfl⟩, fun h => by cases h⟩
  · rw [postPrice, if_pos hreach, postState, if_pos hreach]
    rcases hm with hm | hm
    · rw [if_pos hm]
      refine ⟨fun p h => (by cases h), fun _ => ⟨o.price, ?_⟩⟩
      simp only [fate, hm, hcons, if_neg (List.cons_ne_nil m ms)]
    · have hne : o.timeCondition ≠ .makerOnly := by simp [hm]
      obtain ⟨hshort, hmarket⟩ := hprice hreach hm
      rw [if_neg hne]
      refine ⟨fun p hp => Option.some.inj hp ▸ ⟨hmarket, ?_⟩, fun h => by cases h⟩
      simp only [fate, hm, hcons, hbest, hshort, restFate, if_pos hmarket]

/-- The price is short of every price of the opposite book. -/
theorem Store.postPrice_short (hok : BooksOk g) (hl : g.Live) (ht : 0 < tick)
    (hp : g.postPrice tick s o = some p) {q : ℤ} (hat : (g.book s).At q id) : s.cmp p q = true := by
  have hne := oppBest_ne hok hl hat
  have hbehind : s.cmp p (g.oppBest s) = true → s.cmp p q = true := by
    intro hlt
    rcases oppBest_le hok hat with rfl | hle
    · exact hlt
    · exact StrictLt.trans hlt hle
  unfold postPrice at hp
  split_ifs at hp with hreach hm hprice hown
  · obtain rfl := Option.some.inj hp
    exact hbehind (s.cmp_short ht _)
  · obtain rfl := Option.some.inj hp
    refine hbehind ?_
    rcases hc : s.cmp o.price (g.oppBest s) with _ | _
    · exact absurd ⟨hne, Or.inr hc⟩ hreach
    · rfl
  · exact absurd ⟨hne, Or.inl (not_not.mp hprice)⟩ hreach

/-! ### `normal_match` -/

/-- What `normal_match` does with a post-only taker: the opposite book and all other orders stay as
    they are; the taker comes to rest at its price, short of every opposite price, or is cancelled
    and in no book. The one report is that of the resting or the cancelled order. -/
structure PostOnly (w : World) (e : ℕ) (s : Side) (r : Ref) (o : Order) (w' : World) : Prop where
  opposite : (w'.store e).book s = (w.store e).book s
  orders : ∀ id, id ≠ o.orderId → (w'.store e).odrMap.find? id = (w.store e).odrMap.find? id
  stops : ∀ t, (w'.store e).stops t = (w.store e).stops t
  elsewhere : ∀ l, l ≠ e → w'.store l = w.store l
  nextId : w'.nextId = w.nextId
  rests : ∀ p, (w.store e).postPrice (w.conf e).miniTick s o = some p →
    (w'.store e).book s.opp = ((w.store e).book s.opp).insert s.opp.cmp p o.orderId ∧
    (w'.store e).odrMap.find? o.orderId = some { o with price := p } ∧
    (∀ q id, ((w'.store e).book s).At q id → s.cmp p q = true) ∧
      Emits w w' [(e, { o with price := p })]
  cancelled : (w.store e).postPrice (w.conf e).miniTick s o = none →
    (w'.store e).book s.opp = (w.store e).book s.opp ∧
      (∀ t, o.orderId ∉ ((w'.store e).book t).ids) ∧
    ∃ p, Emits w w' [(e, { o with price := p, orderState := (w.store e).postState s o })]

/-- From every state whose books are in order, when the price one tick short is
    a price and has room. -/
theorem normalMatch_postOnly (hok : w.Ok) (hlive : w.Live) (hi : ∀ t, (w.conf e).impliers t = [])
    (ht : 0 < (w.conf e).miniTick) (hoff : OffBook w e r) (hfree : w.Free e r o)
    (ho : w.readRef e r = .ok o) (hwhole : o.remainQuantity = o.quantity) (hpos : 0 < o.quantity)
    (hm : o.MakerOnly)
    (hroom : (w.store e).Reached s o → o.timeCondition = .makerOnlyReprice →
      -2 ^ 63 ≤ s.short ((w.store e).oppBest s) (w.conf e).miniTick ∧
      s.short ((w.store e).oppBest s) (w.conf e).miniTick < marketPrice) :
    ∃ w', normalMatch w e s r (s.tick (w.conf e).miniTick) = .ok w' ∧ PostOnly w e s r o w' := by
  have h0 : o.remainQuantity ≠ 0 := by omega
  have hlegs : LegsApart w e s := ⟨by simp [Config.legs, hi s], by simp [Config.legs, hi s]⟩
  obtain ⟨recs, w1, o1, w', hnm, hw, hwalk, ho1, hout, hstill⟩ | ⟨_, hl⟩ :=
    normalMatch_cases ⟨hok, hoff, hlegs⟩ ho h0 hm.not_fok (s.tick (w.conf e).miniTick)
  swap
  · exact absurd hlive hl
  obtain rfl := hstill hm
  obtain rfl := hwalk.eq_of_nil
  obtain rfl := Except.ok.inj (ho.symm.trans ho1)
  have hends := hout.ends_maker hw hi hm h0
  have hprice : (w1.store e).Reached s o → o.timeCondition = .makerOnlyReprice →
      toI64 ((w1.store e).oppBest s + s.tick (w1.conf e).miniTick) =
        s.short ((w1.store e).oppBest s) (w1.conf e).miniTick ∧
        s.short ((w1.store e).oppBest s) (w1.conf e).miniTick ≠ marketPrice := by
    intro hreach hrep
    obtain ⟨hlo, hhi⟩ := hroom hreach hrep
    have hlt : s.short ((w1.store e).oppBest s) (w1.conf e).miniTick < 2 ^ 63 :=
      hhi.trans (by decide)
    exact ⟨Side.short_eq hlo hlt, hhi.ne⟩
  obtain ⟨hrest, hkill⟩ := Store.fate_post (hok e) (hlive e) hm hprice
  refine ⟨w', hnm, ?_⟩
  rcases hp : (w1.store e).postPrice (w1.conf e).miniTick s o with _ | p
  · obtain ⟨p, hfate⟩ := hkill hp
    rw [hfate] at hends
    cases hends
    refine ⟨by simp, fun id hid => ?_, fun t => by simp,
      fun l hl => World.store_kill_ne hl, by simp, fun p' hsome => ?_,
      fun _ => ⟨by simp, fun t => ?_, p, Emits.kill ..⟩⟩
    · rw [World.find_kill, if_neg fun hc => hid (hfree.entry id hc.2).symm]
    · rw [hp] at hsome
      cases hsome
    · rw [World.book_kill]
      exact hfree.notMem hoff t
  · obtain ⟨hpm, hfate⟩ := hrest p hp
    rw [hfate] at hends
    cases hends
    have hfind :=
      World.find_rest w1 e s r { o with price := p } e hfree.entry fun hr => (hfree.arg hr).1
    have hopp : ((w1.rest e s r { o with price := p }).store e).book s = (w1.store e).book s := by
      rw [World.book_rest, if_neg fun hc => Side.ne_opp s hc.2]
    refine ⟨hopp, fun id hid => by rw [hfind, if_neg fun hc => hid hc.2], fun t => by simp,
      fun l hl => World.store_rest_ne hl, by simp, fun p' hsome => ?_, fun hnone => ?_⟩
    swap
    · rw [hp] at hnone
      cases hnone
    obtain rfl := Option.some.inj (hp.symm.trans hsome)
    refine ⟨by rw [World.book_rest, if_pos ⟨rfl, rfl⟩], by rw [hfind, if_pos ⟨rfl, rfl⟩],
      fun q id hat => ?_, ?_⟩
    · rw [hopp] at hat
      exact Store.postPrice_short (hok e) (hlive e) ht hp hat
    · have hemit := Emits.rest w1 e s r { o with price := p }
      rwa [if_pos hwhole] at hemit

/-- A buyer that would take the resting sell order of 100 goes one tick back. -/
def World.postBuy : Order :=
  { Order.default with
    price := 105, quantity := 3, remainQuantity := 3, orderId := 8,
    timeCondition := .makerOnlyReprice }

theorem normalMatch_postOnly_oneAsk :
    (World.oneAsk.store 0).postPrice 1 .buy World.postBuy = some 99 ∧
    ∃ w', normalMatch (World.oneAsk.setArg World.postBuy) 0 .buy .arg (Side.tick .buy 1) = .ok w' ∧
      PostOnly (World.oneAsk.setArg World.postBuy) 0 .buy .arg World.postBuy w' := by
  have hconf : (World.oneAsk.setArg World.postBuy).conf 0 = (World.start 1 1000).conf 0 := by
    rw [World.conf_setArg, World.oneAsk, World.conf_rest]
  have htick : ((World.oneAsk.setArg World.postBuy).conf 0).miniTick = 1 := by rw [hconf]; rfl
  refine ⟨by decide +kernel, ?_⟩
  have h :=
    normalMatch_postOnly (w := World.oneAsk.setArg World.postBuy) (e := 0) (s := .buy) (r := .arg)
      (o := World.postBuy)
    World.oneAsk_ok World.oneAsk_live (fun t => by rw [hconf]; cases t <;> rfl)
      (by rw [htick]; decide) (OffBook.arg _ _)
    ⟨fun _ h => (by cases h), fun _ => ⟨by decide, fun t => by cases t <;> decide⟩⟩
      rfl rfl (by decide) (Or.inr rfl)
    (fun _ _ => by rw [htick]; decide +kernel)
  rwa [htick] at h

/-- Three runs: an order without a limit on empty books is cancelled; with a tick of 5 a limit of 98
    rests although 95 is one tick short of the ask at 100; and where one tick short of the ask is
    below every price, the sum wraps and the bid rests above the ask. -/
theorem postOnly_elsewhere :
    (run (World.start 1 1000)
      [(0, { Order.default with
        quantity := 5, type := .market, timeCondition := .makerOnlyReprice })]).map
      (fun w => ((w.store 0).bidBook, w.reports.map fun x => x.2.orderState)) =
        .ok ([], [.canceledByMarketOrderNothingMatch]) ∧
    (run (World.start 5 1000)
      [(0, { Order.default with side := .sell, price := 100, quantity := 5 }),
        (0, { Order.default with
          price := 98, quantity := 5, timeCondition := .makerOnlyReprice })]).map
      (fun w => ((w.store 0).bidBook, (w.store 0).askBook)) =
        .ok ([(98, [1001])], [(100, [1000])]) ∧
    (run (World.start 5 1000)
      [(0, { Order.default with side := .sell, price := -2 ^ 63, quantity := 5 }),
        (0, { Order.default with
          price := 98, quantity := 5, timeCondition := .makerOnlyReprice })]).map
      (fun w => ((w.store 0).bidBook, (w.store 0).askBook)) =
        .ok ([(2 ^ 63 - 5, [1001])], [(-2 ^ 63, [1000])]) := by
  refine ⟨?_, ?_, ?_⟩ <;> decide +kernel

end Matching
