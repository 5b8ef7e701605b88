import Matching.Engine.Every
import Matching.Engine.Reports

/-! An amend and time priority. What can be changed in place stays where it is in its queue and is
    the only thing that changes; otherwise the order leaves every book, and its replacement, if it
    comes to rest, does so behind every other order at its price. Auction requests for stop sides
    are turned away before that. -/

namespace Matching

variable {w w' : World} {e : ℕ} {q o x : Order}

/-! ### What an amend is to do -/

/-- The request keeps what `can_amend` compares, and asks for no more than is left. -/
def Order.InPlace (q x : Order) : Prop :=
  (q.side = x.side ∧ q.type = x.type ∧ q.timeCondition = x.timeCondition ∧ q.filler = x.filler) ∧
  (match q.side with
    | .buy | .sell => q.price = x.price
    | .buyStop =>
      q.buyStopLimitPrice = x.buyStopLimitPrice ∧ q.buyStopTriggerPrice = x.buyStopTriggerPrice
    | .sellStop =>
      q.sellStopLimitPrice = x.sellStopLimitPrice ∧ q.sellStopTriggerPrice = x.sellStopTriggerPrice
    | _ =>
      (q.buyStopLimitPrice = x.buyStopLimitPrice ∧
        q.buyStopTriggerPrice = x.buyStopTriggerPrice) ∧
      q.sellStopLimitPrice = x.sellStopLimitPrice ∧
      q.sellStopTriggerPrice = x.sellStopTriggerPrice) ∧
  q.quantity ≤ x.remainQuantity

/-- The live order `x` after the amend. -/
def Order.amendedBy (x q : Order) : Order :=
  { x with
    quantity := q.quantity, displayQuantity := q.displayQuantity,
    remainQuantity := q.quantity, requestId := q.requestId,
    orderAction := .amend }

/-- The order, found as `x`, is changed in its place: it is no larger than before, it is reported
    once, and everything else is as it was. -/
structure Amended (w w' : World) (e : ℕ) (q x : Order) : Prop where
  order : w'.order? e q.orderId = some (x.amendedBy q)
  smaller : q.quantity ≤ x.remainQuantity ∧ q.quantity ≤ x.quantity
  others : ∀ id, id ≠ q.orderId → w'.order? e id = w.order? e id
  books : ∀ s, w'.book e s = w.book e s ∧ w'.stops e s = w.stops e s
  engines : ∀ l, l ≠ e → w'.store l = w.store l
  report : ∃ c, w'.reports = w.reports ++ [(e, (x.amendedBy q).priced c)]

/-- The id is somewhere in the containers. -/
def Store.Present (g : Store) (id : ℕ) : Prop :=
  g.odrMap.find? id ≠ none ∨ ∃ s, id ∈ (g.book s).ids ∨ id ∈ (g.stops s).ids

/-- The order is nowhere any more. An order under an id drawn during the call that rests afterwards
    is the replacement: it has the terms of the request, its id is greater than every other id there
    was or is, and it stands last at its price. -/
structure Replaced (w w' : World) (e : ℕ) (q : Order) : Prop where
  gone : ¬(w'.store e).Present q.orderId
  last : ∀ s p n, w.nextId ≤ n → (w'.book e s).At p n →
    (∃ o, w'.order? e n = some o ∧ o.terms = q.terms) ∧
    (∀ j, (w.store e).Present j ∨ (w'.store e).Present j → j ≠ n → j < n) ∧
    ∃ ids, (w'.book e s).level? p = some (ids ++ [n])

/-! ### In place -/

theorem canAmend_iff : canAmend q x = true ↔ q.InPlace x := by
  unfold canAmend Order.InPlace
  split
  · next h => exact iff_of_false Bool.false_ne_true fun hp => h hp.1
  · next h =>
    simp only [not_not] at h
    cases hside : q.side <;> simp only [hside] at h ⊢ <;> simp [← h, and_assoc]

instance (q x : Order) : Decidable (q.InPlace x) := decidable_of_iff _ canAmend_iff

/-- An amend of a live order in place. -/
theorem handleAmend_amends (hq : w.arg = q) (ha : q.orderAction = .amend) (hpos : 0 < q.quantity)
    (hd : q.displayQuantity ≤ q.quantity) (hf : (w.store e).odrMap.find? q.orderId = some x)
    (hc : canAmend q x = true) :
    handleAmend w e =
      .ok ((w.putOrder e q.orderId (x.amendedBy q)).callback e (x.amendedBy q)) := by
  subst hq
  have hc' : canAmend w.arg { x with orderAction := w.arg.orderAction } = true := hc
  have hsame : amendInPlace { x with orderAction := w.arg.orderAction } w.arg =
      x.amendedBy w.arg := by
    simp only [amendInPlace, Order.amendedBy, ha]
  simp only [handleAmend, if_neg hpos.ne', if_neg (not_lt.mpr hd), World.order?, hf]
  split
  · rw [World.putOrder_putOrder]
    exact congrArg Except.ok (congrArg (fun o => (w.putOrder e w.arg.orderId o).callback e o) hsame)
  · exact absurd hc' ‹_›

theorem handle_amended (hidle : w.Idle) (ha : q.orderAction = .amend) (hpos : 0 < q.quantity)
    (hd : q.displayQuantity ≤ q.quantity) (hx : w.order? e q.orderId = some x)
    (hle : x.remainQuantity ≤ x.quantity) (hin : q.InPlace x) (hns : ¬q.Stray)
    (h : handle w e q = .ok w') : Amended w w' e q x := by
  obtain ⟨held, -, ⟨hstray, -⟩ | ⟨-, v, hv, rfl⟩⟩ := handle_cases h
  · exact absurd hstray hns
  have hact : (w.enter e q held).arg.orderAction = .amend := by rw [World.arg_enter]; exact ha
  have hf : ((w.enter e q held).store e).odrMap.find? q.orderId = some x := by
    rw [World.store_enter]; exact hx
  simp only [dispatch, hact,
    handleAmend_amends (World.arg_enter ..) ha hpos hd hf (canAmend_iff.mpr hin),
    Except.ok.injEq] at hv
  subst hv
  have hquant := hin.2.2
  refine ⟨?_, ⟨hquant, hquant.trans hle⟩, fun id hid => ?_, fun s => ⟨?_, ?_⟩, fun l hl => ?_, ?_⟩
  · simp [World.order?]
  · simp [World.order?, hid]
  · simp [World.book]
  · simp [World.stops]
  · rw [World.store_unlock, World.store_flush, World.store_callback, World.putOrder_eq,
      World.store_upd_ne hl, World.store_enter]
  · obtain ⟨c, hc⟩ :=
      reports_leave (w := w.enter e q held) (by rw [World.cbRecords_enter]; exact hidle.cbRecords e)
      ((Emits.upd _ e _).trans (Emits.callback _ e _))
    exact ⟨c, by rw [World.putOrder_eq, hc, World.reports_enter]⟩

/-! ### Replaced -/

/-- Orders of one leg, in an auction for plain sides only. -/
def Terms.Single (_ : ℕ) (t : Terms) : Prop :=
  t.side ≠ .buySellStop ∧ (t.timeCondition = .auction → t.side = .buy ∨ t.side = .sell)

theorem Exec.oneLeg_of_single {z : Exec} (h : Terms.Single z.taker.orderId z.taker.terms) :
    z.OneLeg := fun _ => h.1

theorem Order.allowed_single (hside : q.side ≠ .buySellStop) (hns : ¬q.Stray) (n : ℕ) :
    q.Allowed Terms.Single n :=
  fun _ _ => ⟨hside, fun hauc => by_contra fun hp => hns ⟨hauc, hp⟩⟩

/-- `R` holds of the ids and terms of the orders of engine `e`. -/
def OfOrders (e : ℕ) (R : ℕ → Terms → Prop) (l id : ℕ) (o : Order) : Prop := l = e → R id o.terms

theorem lasting_ofOrders (e : ℕ) (R : ℕ → Terms → Prop) : Lasting (OfOrders e R) :=
  ⟨fun _ _ h => h, fun _ h => h, fun _ _ h => h, fun _ _ h => h⟩

/-- The orders there were before the amend of order `id`, without it. -/
def Before (n₀ id : ℕ) (j : ℕ) (_ : Terms) : Prop := j < n₀ ∧ j ≠ id

/-- These, and the replacement `n`. -/
def After (n₀ id n : ℕ) (q : Order) (j : ℕ) (t : Terms) : Prop :=
  Before n₀ id j t ∨ (j = n ∧ t = q.terms)

theorem Settled.mono {T : ℕ → Terms → Prop} {P Q : ℕ → ℕ → Order → Prop} {x : World × List Held}
    (h : Settled T P e x)
    (hpq : ∀ l id o, (x.1.store l).odrMap.find? id = some o → P l id o → Q l id o) :
    Settled T Q e x :=
  ⟨h.sound, h.firm, h.every.mono hpq⟩

/-- Steps that make no order. -/
theorem Steps.settled_mute {P : ℕ → ℕ → Order → Prop} {x y : World × List Held} (hP : Lasting P)
    (h : Steps e q.mute x y) (hT : q.Allowed Terms.Single x.1.nextId)
    (hx : Settled Terms.Single P e x) :
    Settled Terms.Single P e y ∧ x.1.nextId ≤ y.1.nextId :=
  h.settled hP (fun _ _ _ ho => absurd ho.pos (Nat.lt_irrefl 0)) hT
    (fun _ _ => Exec.oneLeg_of_single) hx

/-- At most one order is made, under an id drawn since. -/
theorem Once.settled {n₀ id : ℕ} {x y : World × List Held} (h : Once e q x y)
    (hT : ∀ n, q.Allowed Terms.Single n) (hle : n₀ ≤ x.1.nextId)
    (hx : Settled Terms.Single (OfOrders e (Before n₀ id)) e x) :
    ∃ n, n₀ ≤ n ∧ Settled Terms.Single (OfOrders e (After n₀ id n q)) e y := by
  have hweak : ∀ n {z : World × List Held}, Settled Terms.Single (OfOrders e (Before n₀ id)) e z →
      Settled Terms.Single (OfOrders e (After n₀ id n q)) e z :=
        fun n z hz => hz.mono fun _ _ _ _ hp hl => .inl (hp hl)
  rcases h with h | ⟨u, v, hu, hstep, hv⟩
  · exact ⟨n₀, le_rfl, hweak n₀ (Steps.settled_mute (lasting_ofOrders ..) h (hT _) hx).1⟩
  · obtain ⟨hxu, hmore⟩ := Steps.settled_mute (lasting_ofOrders ..) hu (hT _) hx
    refine ⟨u.1.nextId, hle.trans hmore, ?_⟩
    have hxv :=
      hstep.settled (lasting_ofOrders ..) (fun o ho _ => .inr ⟨ho.orderId, ho.terms⟩)
        (hT _ _ le_rfl)
      (fun _ _ => Exec.oneLeg_of_single) (hweak u.1.nextId hxu)
    exact (Steps.settled_mute (lasting_ofOrders ..) hv (hT _) hxv).1

theorem handleAmend_settled {P : ℕ → ℕ → Order → Prop} (hq : w.arg = q)
    (ha : q.orderAction = .amend) (hpos : 0 < q.quantity) (hd : q.displayQuantity ≤ q.quantity)
    (hside : q.side ≠ .buySellStop) (hns : ¬q.Stray) (hx : w.order? e q.orderId = some x)
    (hc : canAmend q x = false) (hfind : (w.store e).Finds q.orderId) (hap : w.Apart)
    (hw : w.Settled Terms.Single P) (h : handleAmend w e = .ok w') :
    ∃ n, w.nextId ≤ n ∧ w'.Settled Terms.Single (OfOrders e (After w.nextId q.orderId n q)) := by
  obtain ⟨v, u, hopen, hsteps, hgone, honce⟩ := handleAmend_replaces hq ha hpos.ne' hd hx hc h
  have hT : ∀ n, q.Allowed Terms.Single n := Order.allowed_single hside hns
  have hold : w.Every (OfOrders e fun j _ => j < w.nextId) :=
    fun l j o ho _ => ((hw.ordered l).key ho).2.1
  have hstart : Settled Terms.Single (OfOrders e fun j _ => j < w.nextId) e (w, []) :=
    (World.Settled.mk hw.ordered hw.firm hold).start hap e
  have hv := hopen.settled (lasting_ofOrders ..) (fun _ => hfind) hstart
  obtain ⟨hu, hle⟩ := Steps.settled_mute (lasting_ofOrders ..) hsteps (hT _) hv
  have hwithout : Settled Terms.Single (OfOrders e (Before w.nextId q.orderId)) e (u, []) :=
    hu.mono fun l j o ho hp hl => ⟨hp hl, by
      rintro rfl
      rw [hl, hgone] at ho
      cases ho⟩
  obtain ⟨n, hn, hend⟩ := honce.settled hT (hopen.nextId.symm.le.trans hle) hwithout
  exact ⟨n, hn, hend.done⟩

/-- Whatever is in a container is in the map. -/
theorem World.Settled.present {T : ℕ → Terms → Prop} {P : ℕ → ℕ → Order → Prop}
    (h : w.Settled T P) {l j : ℕ} (hj : (w.store l).Present j) :
    ∃ o, (w.store l).odrMap.find? j = some o := by
  rcases hj with hf | ⟨s, hm | hm⟩
  · exact Option.ne_none_iff_exists'.mp hf
  · obtain ⟨o, ho, _⟩ := (h.firm l).rests hm
    exact ⟨o, ho⟩
  · obtain ⟨t, hat⟩ := Ladder.mem_ids.mp hm
    obtain ⟨o, ho, _⟩ := (h.ordered l).waits hat
    exact ⟨o, ho⟩

/-- The containers after the amend. -/
theorem World.Settled.replaced {n : ℕ}
    (h : w'.Settled Terms.Single (OfOrders e (After w.nextId q.orderId n q))) (hn : w.nextId ≤ n)
    (hold : ∀ j, (w.store e).Present j → j < w.nextId) (hid : q.orderId < w.nextId) :
    Replaced w w' e q := by
  have hafter : ∀ j, (w'.store e).Present j → (j < w.nextId ∧ j ≠ q.orderId) ∨
      j = n := fun j hj => by
    obtain ⟨o, ho⟩ := h.present hj
    exact (h.every e j o ho rfl).imp id And.left
  have hless : ∀ j, (w.store e).Present j ∨ (w'.store e).Present j → j ≠ n → j < n := by
    rintro j (hj | hj) hne
    · exact (hold j hj).trans_le hn
    · rcases hafter j hj with ⟨hlt, _⟩ | heq
      · exact hlt.trans_le hn
      · exact absurd heq hne
  refine ⟨fun hp => ?_, fun s p n' hn' hat => ?_⟩
  · rcases hafter _ hp with ⟨_, hne⟩ | heq
    · exact hne rfl
    · omega
  · have hp : (w'.store e).Present n' := .inr ⟨s, .inl hat.mem_ids⟩
    obtain rfl : n' = n := by
      rcases hafter n' hp with ⟨hlt, _⟩ | heq
      · omega
      · exact heq
    obtain ⟨o, ho⟩ := h.present hp
    refine ⟨⟨o, ho, ?_⟩, hless, Ladder.level?_last ((h.ordered e).books.wf s) hat fun j hj => ?_⟩
    · rcases h.every e n' o ho rfl with ⟨hlt, _⟩ | ⟨_, hterms⟩
      · omega
      · exact hterms
    · by_cases heq : j = n'
      · exact heq.le
      · exact (hless j (.inr (.inr ⟨s, .inl hj.mem_ids⟩)) heq).le

theorem handle_replaced {P : ℕ → ℕ → Order → Prop} (ha : q.orderAction = .amend)
    (hpos : 0 < q.quantity) (hd : q.displayQuantity ≤ q.quantity) (hside : q.side ≠ .buySellStop)
    (hns : ¬q.Stray) (hx : w.order? e q.orderId = some x) (hin : ¬q.InPlace x)
    (hfind : (w.store e).Finds q.orderId) (hap : w.Apart) (hw : w.Settled Terms.Single P)
    (h : handle w e q = .ok w') : Replaced w w' e q := by
  obtain ⟨held, -, ⟨hstray, -⟩ | ⟨-, v, hv, rfl⟩⟩ := handle_cases h
  · exact absurd hstray hns
  have hact : (w.enter e q held).arg.orderAction = .amend := by rw [World.arg_enter]; exact ha
  have hent : (w.enter e q held).Settled Terms.Single P :=
    hw.congr (fun l => World.store_enter ..) (World.nextId_enter ..)
  have hf : (w.enter e q held).order? e q.orderId = some x := by
    rw [World.order?, World.store_enter]; exact hx
  have hc : canAmend q x = false := Bool.eq_false_iff.mpr fun hc => hin (canAmend_iff.mp hc)
  simp only [dispatch, hact] at hv
  obtain ⟨n, hn, hend⟩ :=
    handleAmend_settled (World.arg_enter ..) ha hpos hd hside hns hf hc (by rwa [World.store_enter])
    (hap.congr fun l => World.conf_enter ..) hent hv
  rw [World.nextId_enter] at hn hend
  refine World.Settled.replaced
    (hend.congr (fun l => by rw [World.store_unlock, World.store_flush])
    (by rw [World.nextId_unlock, World.nextId_flush])) hn (fun j hj => ?_)
    ((hw.ordered e).key hx).2.1
  obtain ⟨o, ho⟩ := hw.present hj
  exact ((hw.ordered e).key ho).2.1

/-! ### Reachable worlds -/

/-- What is left of an order is no more than its quantity. -/
def Order.Within (_ _ : ℕ) (o : Order) : Prop := o.remainQuantity ≤ o.quantity

theorem lasting_within : Lasting Order.Within where
  fill _ hq h := (Filled.engineMatch _ hq).le.trans h
  price _ h := h
  mark _ _ h := h
  amend _ _ _ := le_rfl

/-- The requests of engines that take in no orders of others. -/
def Order.IsLocal (q : Order) : Prop := q.IsTrade ∨ q.orderAction = .dump

/-- A cancel or amend finds the order it names, if it rests, in its book. -/
def Order.Finds (q : Order) (g : Store) : Prop :=
  q.orderAction = .cancel ∨ q.orderAction = .amend → g.Finds q.orderId

/-- Between the calls of a run. -/
structure World.Tidy (w : World) : Prop where
  settled : w.Settled Terms.Single Order.Within
  alone : ∀ l s, (w.conf l).impliers s = []
  idle : w.Idle

theorem World.Tidy.apart (h : w.Tidy) : w.Apart := fun l s => by
  have hlegs : (w.conf l).legs s = [] := by
    rw [Config.legs, h.alone l s]
    rfl
  exact ⟨by rw [hlegs]; exact List.nodup_nil, by rw [hlegs]; exact fun x hx => nomatch hx⟩

theorem World.Fresh.tidy (h : w.Fresh) (hi : ∀ l s, (w.conf l).impliers s = []) : w.Tidy :=
  ⟨h.settled _ _, hi, h.idle⟩

theorem handle_tidy (hq : q.IsLocal) (hside : q.side ≠ .buySellStop) (hfind : q.Finds (w.store e))
    (hw : w.Tidy) (h : handle w e q = .ok w') : w'.Tidy := by
  refine ⟨?_, fun l s => by rw [handle_conf h]; exact hw.alone l s, handle_idle hw.idle h⟩
  by_cases hs : q.Stray
  · obtain ⟨hen, hn, -, -⟩ := handle_stray hs h
    exact hw.settled.congr (fun l => by rw [World.store, hen]; rfl) hn
  · rcases hq with ht | hdump
    · have hfinds : q.orderAction ≠ .new → (w.store e).Finds q.orderId :=
        fun hne => hfind (ht.resolve_left hne)
      exact handle_settled lasting_within ht (Order.allowed_single hside hs _)
        (fun n _ o ho => ho.whole.1.le) hfinds hw.apart hw.settled h fun _ _ =>
          Exec.oneLeg_of_single
    · obtain ⟨held, -, ⟨hstray, -⟩ | ⟨-, v, hv, rfl⟩⟩ := handle_cases h
      · exact absurd hstray hs
      · have hact : (w.enter e q held).arg.orderAction = .dump := by
          rw [World.arg_enter]; exact hdump
        simp only [dispatch, hact, Except.ok.injEq] at hv
        subst hv
        obtain ⟨hstore, hn⟩ := handleDump_same (w.enter e q held) e
        refine hw.settled.congr (fun l => ?_) ?_
        · rw [World.store_unlock, World.store_flush, hstore, World.store_enter]
        · rw [World.nextId_unlock, World.nextId_flush, hn, World.nextId_enter]

/-- In every world reached without impliers, two-leg stops and foreign orders, an amend of a live
    order in place changes that order and nothing else, and every other amend of one replaces it by
    an order that comes to rest behind all others, unless it is an auction request for a stop side,
    which changes nothing. -/
theorem amend_keeps_priority {w0 : World} {rs : List (ℕ × Order)} (h0 : w0.Fresh)
    (hi : ∀ l s, (w0.conf l).impliers s = [])
    (hrs : ∀ y ∈ rs, y.2.IsLocal ∧ y.2.side ≠ .buySellStop)
    (hfinds : RunsAlong World.call (fun w y => y.2.Finds (w.store y.1)) w0 rs)
    (hrun : run w0 rs = .ok w) (ha : q.orderAction = .amend) (hpos : 0 < q.quantity)
    (hd : q.displayQuantity ≤ q.quantity) (hx : w.order? e q.orderId = some x)
    (h : handle w e q = .ok w') :
    (q.InPlace x → Amended w w' e q x) ∧
      (¬q.InPlace x → ¬q.Stray → q.side ≠ .buySellStop → q.Finds (w.store e) → Replaced w w' e q) ∧
      (q.Stray → w'.engines = w.engines) := by
  have hlocal : RunsAlong World.call (fun _ y => y.2.IsLocal ∧ y.2.side ≠ .buySellStop) w0 rs :=
    RunsAlong.of_forall rs fun y hy _ => hrs y hy
  have hw : w.Tidy :=
    RunsAlong.preserves (fun {v y v'} hok hv hI => handle_tidy hok.1.1 hok.1.2 hok.2 hI hv) rs
    (hlocal.and rs hfinds) hrun (h0.tidy hi)
  refine ⟨fun hin => ?_, fun hin hns hside hfind => ?_, fun hs => (handle_stray hs h).1⟩
  · -- a live order has the side and the time condition of a request that was not turned away
    have hns : ¬q.Stray := fun hs => by
      obtain ⟨⟨hsame, -, htime, -⟩, -⟩ := hin
      have hterms := ((hw.settled.ordered e).key hx).2.2
      have hplain := hterms.2 (htime.symm.trans hs.1)
      exact hs.2 (by rw [hsame]; exact hplain)
    exact handle_amended hw.idle ha hpos hd hx (hw.settled.every e _ x hx) hin hns h
  · exact handle_replaced ha hpos hd hside hns hx hin (hfind (.inr ha)) hw.apart hw.settled h

/-- Two buyers at one price. -/
def queuedBuyers : List (ℕ × Order) :=
  [(0, { Order.default with price := 100, quantity := 5 }),
    (0, { Order.default with price := 100, quantity := 7 })]

/-- An amend of the first of them, to `n`. -/
def resize (n : ℕ) : Order :=
  { Order.default with price := 100, quantity := n, orderAction := .amend, orderId := 1000 }

/-- Less keeps the first place, more loses it. -/
theorem amend_keeps_priority_queuedBuyers :
    ∃ w w' w'' x, run (World.start 1 1000) queuedBuyers = .ok w ∧
      handle w 0 (resize 3) = .ok w' ∧ Amended w w' 0 (resize 3) x ∧
        (w'.store 0).bidBook = [(100, [1000, 1001])] ∧
      handle w 0 (resize 9) = .ok w'' ∧ Replaced w w'' 0 (resize 9) ∧
        (w''.store 0).bidBook = [(100, [1001, 1002])] := by
  have hi : ∀ l s, ((World.start 1 1000).conf l).impliers s = [] := fun l s => by cases s <;> rfl
  have hrs : ∀ y ∈ queuedBuyers, y.2.IsLocal ∧ y.2.side ≠ .buySellStop := fun y hy => by
    rcases List.mem_cons.mp hy with rfl | hy
    · exact ⟨.inl (.inl rfl), by decide⟩
    · obtain rfl := List.mem_singleton.mp hy
      exact ⟨.inl (.inl rfl), by decide⟩
  have hfinds : RunsAlong World.call (fun w y => y.2.Finds (w.store y.1))
      (World.start 1 1000) queuedBuyers :=
    RunsAlong.of_forall queuedBuyers fun y hy _ hact => by
      have hnew : y.2.orderAction = .new := by
        rcases List.mem_cons.mp hy with rfl | hy
        · rfl
        · obtain rfl := List.mem_singleton.mp hy
          rfl
      rw [hnew] at hact
      exact absurd hact (by decide)
  have h0 := World.start_fresh 1 1000
  refine ⟨_, _, _, _, rfl, rfl,
    (amend_keeps_priority h0 hi hrs hfinds rfl rfl (by decide) (by decide) rfl rfl).1 (by decide),
    rfl, rfl, ?_, rfl⟩
  refine (amend_keeps_priority h0 hi hrs hfinds rfl rfl (by decide) (by decide) rfl rfl).2.1
    (by decide) (by decide) (by decide) ?_
  intro _ o t p ho hat
  have hside : some .buy = some o.side := congrArg (Option.map Order.side) ho
  cases t with
  | buy =>
    obtain ⟨l, hl, -⟩ := hat
    cases hl
  | sell => simp [Order.lookup, ← Option.some.inj hside]

/-- Turned into a stop for an auction, the order stays where it is. -/
theorem strayAmend_stays : ∃ w w', run (World.start 1 1000) queuedBuyers = .ok w ∧
    handle w 0 { resize 9 with timeCondition := .auction, side := .buyStop } = .ok w' ∧
    (w'.store 0).bidBook = [(100, [1000, 1001])] ∧
    ¬Replaced w w' 0 { resize 9 with timeCondition := .auction, side := .buyStop } :=
  ⟨_, _, rfl, rfl, rfl, fun h => h.gone (.inr ⟨.sell, .inl (by decide)⟩)⟩

end Matching
