import Matching.Engine.Acts

/-! A request as a sequence of small steps. A request first deals with the live order it names, if
    any (`Opening`: amended in place, or taken out of its book); what follows is a sequence of
    `Step`s, which list everything that can happen to a world while engine `e` works on the request
    `q`, with the ids the engine has in its hands: stops collected from a stop book and not yet
    activated, and the order under cancellation. `dispatch_steps` says that a request that is
    handled to its end is an opening and steps; invariants are proved of these. -/

namespace Matching

namespace Side

def plain : Side → OrderSide
  | .buy => .buy
  | .sell => .sell

def stop : Side → OrderSide
  | .buy => .buyStop
  | .sell => .sellStop

end Side

/-- An id in hand: collected from the stop book of a side, or taken out for cancellation. -/
structure Held where
  side : Option Side
  id : ℕ
  deriving DecidableEq

namespace Order

/-- `o` is an order made from the request `q` under the id `n`. -/
structure From (o q : Order) (n : ℕ) : Prop where
  eq : o = { q with
    orderId := n, remainQuantity := q.quantity, orderState := .opened, price := o.price,
    clientOrderId := o.clientOrderId, orderAction := o.orderAction }
  pos : 0 < q.quantity
  priced : ∀ s : Side, q.side = s.plain → o.price = q.price

/-- `o` becomes a taker of side `s` at once: a plain order, or a stop that is triggered. -/
def Takes (o : Order) (s : Side) : Prop :=
  (o.side = s.plain ∧ (o.type ≠ .market → o.price ≠ marketPrice)) ∨
  ((o.side = s.stop ∨ o.side = .buySellStop) ∧ o.price = o.stopLimit s ∧
    o.stopLimit s ≠ marketPrice)

/-- The stop books a waiting order is registered in. -/
def stopSides (o : Order) : List Side :=
  match o.side with
  | .buyStop => [.buy]
  | .sellStop => [.sell]
  | .buySellStop => [.buy, .sell]
  | _ => []

/-- Where `handle_cancel` looks for an order: in a price book, or in stop books. -/
def lookup (o : Order) : Side ⊕ List Side :=
  match o.side with
  | .buy => .inl .sell
  | .sell => .inl .buy
  | .buyStop => if o.price = stopPrice then .inr [.buy] else .inl .sell
  | .sellStop => if o.price = stopPrice then .inr [.sell] else .inl .buy
  | _ =>
    if o.price = stopPrice then .inr [.buy, .sell]
    else if o.price = o.buyStopLimitPrice then .inl .sell else .inl .buy

end Order

/-- The request is an amend that is turned away before its order is looked up. -/
def Order.BadAmend (q : Order) : Prop :=
  q.orderAction = .amend ∧ (q.quantity = 0 ∨ q.displayQuantity > q.quantity)

instance (q : Order) : Decidable q.BadAmend := inferInstanceAs (Decidable (_ ∧ _))

namespace World

/-- The report that order `id` of engine `e`, found as `o`, is taken out. -/
def ackCancel (w : World) (e id : ℕ) (o : Order) (st : OrderStatus) : World :=
  (w.putOrder e id { o with orderState := st }).callback e { o with orderState := st }

/-- Take `o` out of the stop books of the given sides. -/
def dropStops (w : World) (e : ℕ) (o : Order) (ss : List Side) : World :=
  ss.foldl (fun w s => w.setStops e s ((w.stops e s).eraseAt (o.stopTrigger s) o.orderId)) w

/-- Enter the caller's order into the stop books of the given sides. -/
def registerStops (w : World) (e : ℕ) (ss : List Side) : World :=
  ss.foldr (fun s w => registerStop w e s) w

theorem execs_registerStops (w : World) (e : ℕ) :
    ∀ ss : List Side, (w.registerStops e ss).execs = w.execs
  | [] => rfl
  | _ :: ss => execs_registerStops w e ss

theorem arg_registerStops (w : World) (e : ℕ) : ∀ ss : List Side, (w.registerStops e ss).arg = w.arg
  | [] => rfl
  | _ :: ss => arg_registerStops w e ss

end World

/-- What a request does to the order it names, before anything else: nothing, or it is an amend that
    is turned away, or the order is amended in place, or it is reported and taken out of the price
    book or the stop books `handle_cancel` looks in. An amend marks the order first. -/
inductive Opening (e : ℕ) (q : Order) (w : World) : World × List Held → Prop
  | same : Opening e q w (w, [])
  | refused {o : Order} (hbad : q.BadAmend) (hr : o.remainQuantity = 0)
      (hst : o.orderState.isReject = true) (hid : o.orderId = q.orderId) (hp : o.price = q.price) :
      Opening e q w ((w.setArg o).callback e o, [])
  | amended {o : Order} {a : OrderAction} (hf : (w.store e).odrMap.find? q.orderId = some o)
      (hc : canAmend q { o with orderAction := a } = true) (hpos : 0 < q.quantity) :
      Opening e q w
        ((w.putOrder e q.orderId (amendInPlace { o with orderAction := a } q)).callback e
        (amendInPlace { o with orderAction := a } q), [])
  | unbooked {o : Order} {a : OrderAction} {st : OrderStatus} {t : Side} {is : List ℕ}
      (hf : (w.store e).odrMap.find? q.orderId = some o) (hst : cancelState q.orderAction = some st)
      (hl : o.lookup = .inl t) (hlev : ((w.store e).book t).level? o.price = some is) :
      Opening e q w ((w.ackCancel e q.orderId { o with orderAction := a } st).setBook e t
        (((w.store e).book t).eraseAt o.price o.orderId), [⟨none, q.orderId⟩])
  | unstopped {o : Order} {a : OrderAction} {st : OrderStatus} {ss : List Side}
      (hf : (w.store e).odrMap.find? q.orderId = some o) (hst : cancelState q.orderAction = some st)
      (hl : o.lookup = .inr ss)
      (hlev : ∀ s ∈ ss, ((w.store e).stops s).level? (o.stopTrigger s) ≠ none) :
      Opening e q w ((w.ackCancel e q.orderId { o with orderAction := a } st).dropStops e o ss,
        [⟨none, q.orderId⟩])

/-- One small step of engine `e` working on the request `q`. -/
inductive Step (e : ℕ) (q : Order) : World × List Held → World × List Held → Prop
  | arg {w : World} {hs : List Held} (o : Order) : Step e q (w, hs) (w.setArg o, hs)
  | bump {w : World} {hs : List Held} : Step e q (w, hs) (w.bumpId, hs)
  | reject {w : World} {hs : List Held} {o : Order} (hr : o.remainQuantity = 0)
      (hst : o.orderState.isReject = true) (hid : o.orderId = 0 ∨ o.orderId = w.nextId ∨
        (o.orderId = q.orderId ∧ (w.store e).odrMap.find? q.orderId = none)) :
      Step e q (w, hs) ((w.setArg o).callback e o, hs)
  | taker {w w' : World} {hs : List Held} {o : Order} {s : Side} (ho : o.From q w.nextId)
      (ht : o.Takes s) (hex : execute (w.bumpId.setArg o) e s .arg = .ok w') :
      Step e q (w, hs) (w', hs)
  | fire {w w' : World} {hs : List Held} {o : Order} {s : Side} {id : ℕ}
      (ho : (w.store e).odrMap.find? id = some o)
      (hex : execute (w.putOrder e id { o with price := o.stopLimit s }) e s (.entry id) = .ok w') :
      Step e q (w, ⟨some s, id⟩ :: hs) (w', hs)
  | collect {w : World} {hs : List Held} (s : Side) (hit : ℤ × List ℕ → Bool) :
      Step e q (w, hs) (w.setStops e s ((w.stops e s).filter (fun l => !hit l)),
        (Ladder.ids ((w.stops e s).filter hit)).map (fun id => ⟨some s, id⟩) ++ hs)
  | register {w : World} {hs : List Held} {o : Order} (ho : o.From q w.nextId)
      (hp : o.price = stopPrice) (hne : o.stopSides ≠ [])
      (hl : ∀ s ∈ o.stopSides, o.stopLimit s ≠ marketPrice) :
      Step e q (w, hs) (((w.bumpId.setArg o).registerStops e o.stopSides).callback e o, hs)
  | drop {w : World} {hs : List Held} {id : ℕ} :
      Step e q (w, ⟨none, id⟩ :: hs) (w.eraseOrder e id, hs)

/-- Any number of small steps. -/
def Steps (e : ℕ) (q : Order) : World × List Held → World × List Held → Prop :=
  Relation.ReflTransGen (Step e q)

/-- The request without a quantity: no order is made from it. -/
def Order.mute (q : Order) : Order := { q with quantity := 0 }

/-- Steps among which one order at most is made from the request. -/
def Once (e : ℕ) (q : Order) (x y : World × List Held) : Prop :=
  Steps e q.mute x y ∨ ∃ u v, Steps e q.mute x u ∧ Step e q u v ∧ Steps e q.mute v y

variable {w w' : World} {e : ℕ} {q : Order} {s : Side} {hs : List Held}

/-- A step that makes no order of the request. -/
theorem Step.of_mute {x y : World × List Held} (h : Step e q.mute x y) : Step e q x y := by
  have hpos : ¬0 < q.mute.quantity := Nat.lt_irrefl 0
  cases h with
  | arg o => exact .arg o
  | bump => exact .bump
  | reject hr hst hid => exact .reject hr hst hid
  | taker ho => exact absurd ho.pos hpos
  | fire ho hex => exact .fire ho hex
  | collect s hit => exact .collect s hit
  | register ho => exact absurd ho.pos hpos
  | drop => exact .drop

theorem Steps.of_mute {x y : World × List Held} (h : Steps e q.mute x y) : Steps e q x y := by
  induction h with
  | refl => exact Relation.ReflTransGen.refl
  | tail _ hstep ih => exact ih.tail hstep.of_mute

theorem Once.steps {x y : World × List Held} (h : Once e q x y) : Steps e q x y := by
  rcases h with h | ⟨u, v, hu, hstep, hv⟩
  · exact h.of_mute
  · exact (hu.of_mute.tail hstep).trans hv.of_mute

theorem Once.head {x y z : World × List Held} (h : Steps e q.mute x y) (h' : Once e q y z) :
    Once e q x z := by
  rcases h' with h' | ⟨u, v, hu, hstep, hv⟩
  · exact .inl (h.trans h')
  · exact .inr ⟨u, v, h.trans hu, hstep, hv⟩

theorem Once.step {x y z : World × List Held} (h : Step e q x y) (h' : Steps e q.mute y z) :
    Once e q x z :=
  .inr ⟨x, y, Relation.ReflTransGen.refl, h, h'⟩

/-! ### Stops -/

theorem activateStops_steps : ∀ (ids : List ℕ) {w w' : World}, activateStops e s w ids = .ok w' →
    Steps e q (w, ids.map (fun id => ⟨some s, id⟩) ++ hs) (w', hs)
  | [], w, w', h => by
    obtain rfl := Except.ok.inj h
    exact Relation.ReflTransGen.refl
  | id :: ids, w, w', h => by
    simp only [activateStops, activateStop, bind_ok] at h
    obtain ⟨v, ⟨o, ho, hex⟩, hrest⟩ := h
    refine Relation.ReflTransGen.head (Step.fire ?_ hex) (activateStops_steps ids hrest)
    simpa [World.deref] using ho

theorem triggerLoop_steps :
    ∀ (n : ℕ) {w w' : World}, triggerLoop e s n w = .ok w' → Steps e q (w, hs) (w', hs)
  | 0, _, _, h => by cases h
  | n + 1, w, w', h => by
    simp only [triggerLoop, bind_ok] at h
    obtain ⟨best, _, v, hv, h⟩ := h
    have hfirst : Steps e q (w, hs) (v, hs) :=
      Relation.ReflTransGen.head (Step.collect s _) (activateStops_steps _ hv)
    by_cases hnil : (collectStops w e s best).2 = []
    · rw [if_pos hnil] at h
      obtain rfl := pure_ok.mp h
      exact hfirst
    · rw [if_neg hnil] at h
      exact hfirst.trans (triggerLoop_steps n h)

theorem triggerStop_steps (h : triggerStop w e s = .ok w') : Steps e q (w, hs) (w', hs) :=
  triggerLoop_steps _ h

/-! ### `handle_new` -/

/-- The order object `handle_new` is called with: the request, renamed when it replaces an order. -/
structure Order.Renew (a q : Order) : Prop where
  eq : a =
    { q with clientOrderId := a.clientOrderId, orderId := a.orderId, orderAction := a.orderAction }

theorem World.callback_bumpId (w : World) (l : ℕ) (o : Order) :
    w.bumpId.callback l o = (w.callback l o).bumpId := by
  cases ha : (w.engines l).isAuction <;> simp [World.callback, ha] <;> rfl

/-- Executing the caller's order and, for a residual, the stop triggers. -/
theorem executeArg_once {o : Order} (ho : o.From q w.nextId) (ht : o.Takes s)
    (h : executeArg (w.bumpId.setArg o) e s = .ok w') : Once e q (w, hs) (w', hs) := by
  simp only [executeArg, bind_ok] at h
  obtain ⟨v, hv, h⟩ := h
  have hfirst : Step e q (w, hs) (v, hs) := Step.taker ho ht hv
  split at h
  · obtain ⟨u, hu, h⟩ := bind_ok.mp h
    exact Once.step hfirst ((triggerStop_steps hu).trans (triggerStop_steps h))
  · obtain rfl := pure_ok.mp h
    exact Once.step hfirst Relation.ReflTransGen.refl

/-- The order `init_new_order` makes of the request. -/
def Order.opened (q : Order) (id : ℕ) : Order :=
  { q with orderId := id, remainQuantity := q.quantity, orderState := .opened }

theorem initNewOrder_eq (h : w.arg.orderId = 0) : initNewOrder w =
    w.bumpId.setArg { w.arg with
      remainQuantity := w.arg.quantity, orderState := .opened, orderId := w.nextId } := by
  simp only [initNewOrder, h, if_true]

theorem reject_steps {st : OrderStatus} (hst : st.isReject = true)
    (hid : w.arg.orderId = 0 ∨
      (w.arg.orderId = q.orderId ∧ (w.store e).odrMap.find? q.orderId = none)) :
    Steps e q (w, hs) (rejectArg w e st, hs) :=
  Relation.ReflTransGen.single (Step.reject rfl hst (hid.imp id Or.inr))

theorem newPlain_once (h0 : w.arg.orderId = 0) (hq : w.arg.Renew q) (hpos : 0 < q.quantity)
    (hside : q.side = s.plain) (h : newPlain w e s = .ok w') : Once e q (w, hs) (w', hs) := by
  set o : Order :=
    { w.arg with
      remainQuantity := w.arg.quantity, orderState := .opened, orderId := w.nextId } with ho
  have hinit : initNewOrder w = w.bumpId.setArg o := initNewOrder_eq h0
  have hfrom : o.From q w.nextId := ⟨by rw [ho, hq.eq], hpos, fun _ _ => by rw [ho, hq.eq]⟩
  simp only [newPlain, hinit, World.arg_setArg] at h
  split at h
  · obtain rfl := pure_ok.mp h
    set o' : Order :=
      { o with orderState := .rejectLimiteOrderWithMarketPrice, remainQuantity := 0 }
    have hrej : rejectArg (w.bumpId.setArg o) e .rejectLimiteOrderWithMarketPrice =
        ((w.setArg o').callback e o').bumpId := (w.setArg o').callback_bumpId e o'
    rw [hrej]
    exact Or.inl (Relation.ReflTransGen.head (Step.reject rfl rfl (Or.inr (Or.inl rfl)))
      (Relation.ReflTransGen.single Step.bump))
  · rename_i hmk
    refine executeArg_once hfrom (Or.inl ⟨?_, fun hty hp => hmk ⟨hty, hp⟩⟩) h
    rw [hfrom.eq]; exact hside

/-- A stop that is triggered at once. -/
theorem executeLeg_once {o : Order} (ho : o.From q w.nextId)
    (hside : o.side = s.stop ∨ o.side = .buySellStop) (hl : o.stopLimit s ≠ marketPrice)
    (h : executeLeg (w.bumpId.setArg o) e s = .ok w') :
    Once e q (w, hs) (w', hs) := by
  have hlim : ({ o with price := o.stopLimit s } : Order).stopLimit s = o.stopLimit s := by
    cases s <;> rfl
  have hqs : q.side = o.side := by rw [ho.eq]
  have hfrom : ({ o with price := o.stopLimit s } : Order).From q w.nextId :=
    ⟨by rw [ho.eq], ho.pos, fun t ht => absurd (hqs ▸ ht)
      (by rcases hside with h | h <;> rw [h] <;> cases s <;> cases t <;> decide)⟩
  exact executeArg_once hfrom (Or.inr ⟨hside, hlim.symm, by rw [hlim]; exact hl⟩) h

theorem stopReject_congr {o o' : Order} (hl : o.stopLimit s = o'.stopLimit s)
    (ht : o.stopTrigger s = o'.stopTrigger s) :
    stopReject o s = stopReject o' s := by
  rw [stopReject, stopReject, hl, ht]

theorem stopReject_none {o : Order} (h : stopReject o s = none) : o.stopLimit s ≠ marketPrice := by
  unfold stopReject at h
  split at h
  · cases h
  · assumption

theorem stopReject_some {o : Order} {st : OrderStatus} (h : stopReject o s = some st) :
    st.isReject = true := by
  unfold stopReject at h
  split at h
  · obtain rfl := Option.some.inj h; rfl
  · split at h
    · obtain rfl := Option.some.inj h; cases s <;> rfl
    · cases h

theorem newStop_once (h0 : w.arg.orderId = 0) (hq : w.arg.Renew q) (hpos : 0 < q.quantity)
    (hside : q.side = s.stop) (h : newStop w e s = .ok w') : Once e q (w, hs) (w', hs) := by
  simp only [newStop, bind_ok] at h
  obtain ⟨best, _, h⟩ := h
  set v := w.setArg { w.arg with price := stopPrice } with hv
  have hstart : Steps e q.mute (w, hs) (v, hs) := Relation.ReflTransGen.single (Step.arg _)
  have hv0 : v.arg.orderId = 0 := h0
  rcases hrej : stopReject v.arg s with _ | st
  · simp only [hrej] at h
    set o : Order :=
      { v.arg with
        remainQuantity := v.arg.quantity, orderState := .opened, orderId := v.nextId } with ho
    have hinit : initNewOrder v = v.bumpId.setArg o := initNewOrder_eq hv0
    have hfrom : o.From q v.nextId := ⟨by rw [ho, hv, World.arg_setArg, hq.eq], hpos,
      fun t ht => absurd (hside.symm.trans ht) (by cases s <;> cases t <;> decide)⟩
    have hos : o.side = s.stop := by rw [hfrom.eq]; exact hside
    have hlim : o.stopLimit s ≠ marketPrice := by
      have := stopReject_none hrej
      cases s <;> exact this
    rw [hinit] at h
    split at h
    · exact Once.head hstart (executeLeg_once hfrom (Or.inl hos) hlim h)
    · obtain rfl := pure_ok.mp h
      have hsides : o.stopSides = [s] := by unfold Order.stopSides; rw [hos]; cases s <;> rfl
      refine Once.head hstart (Once.step ?_ Relation.ReflTransGen.refl)
      have hreg : Step e q (v, hs)
          (((v.bumpId.setArg o).registerStops e o.stopSides).callback e o, hs) :=
        Step.register hfrom rfl (by rw [hsides]; simp)
        (by rw [hsides]; simpa using hlim)
      rw [hsides] at hreg
      exact hreg
  · simp only [hrej] at h
    obtain rfl := pure_ok.mp h
    exact Or.inl (hstart.trans (reject_steps (stopReject_some hrej) (Or.inl h0)))

theorem newBuySellStop_once (h0 : w.arg.orderId = 0) (hq : w.arg.Renew q) (hpos : 0 < q.quantity)
    (hside : q.side = .buySellStop) (h : newBuySellStop w e = .ok w') :
    Once e q (w, hs) (w', hs) := by
  simp only [newBuySellStop, bind_ok] at h
  obtain ⟨bestA, _, bestB, _, h⟩ := h
  set v := w.setArg { w.arg with price := stopPrice } with hv
  have hstart : Steps e q.mute (w, hs) (v, hs) := Relation.ReflTransGen.single (Step.arg _)
  have hv0 : v.arg.orderId = 0 := h0
  rcases hrej : stopReject v.arg .buy with _ | st
  swap
  · simp only [hrej] at h
    obtain rfl := pure_ok.mp h
    exact Or.inl (hstart.trans (reject_steps (stopReject_some hrej) (Or.inl h0)))
  rcases hrej' : stopReject v.arg .sell with _ | st
  swap
  · simp only [hrej, hrej'] at h
    obtain rfl := pure_ok.mp h
    exact Or.inl (hstart.trans (reject_steps (stopReject_some hrej') (Or.inl h0)))
  simp only [hrej, hrej'] at h
  set o : Order :=
    { v.arg with
      remainQuantity := v.arg.quantity, orderState := .opened, orderId := v.nextId } with ho
  have hinit : initNewOrder v = v.bumpId.setArg o := initNewOrder_eq hv0
  have hfrom : o.From q v.nextId := ⟨by rw [ho, hv, World.arg_setArg, hq.eq], hpos,
    fun t ht => absurd (hside.symm.trans ht) (by cases t <;> decide)⟩
  have hos : o.side = .buySellStop := by rw [hfrom.eq]; exact hside
  have hlim : ∀ s, o.stopLimit s ≠ marketPrice := fun s => by
    cases s
    · exact stopReject_none hrej
    · exact stopReject_none hrej'
  rw [hinit] at h
  split at h
  · exact Once.head hstart (executeLeg_once hfrom (Or.inr hos) (hlim .buy) h)
  · split at h
    · exact Once.head hstart (executeLeg_once hfrom (Or.inr hos) (hlim .sell) h)
    · obtain rfl := pure_ok.mp h
      have hsides : o.stopSides = [.buy, .sell] := by unfold Order.stopSides; rw [hos]
      refine Once.head hstart (Once.step ?_ Relation.ReflTransGen.refl)
      have hreg : Step e q (v, hs)
          (((v.bumpId.setArg o).registerStops e o.stopSides).callback e o, hs) :=
        Step.register hfrom rfl (by rw [hsides]; simp) (fun s _ => hlim s)
      rw [hsides] at hreg
      exact hreg

theorem newChecked_once (h0 : w.arg.orderId = 0) (hq : w.arg.Renew q)
    (h : newChecked w e = .ok w') :
    Once e q (w, hs) (w', hs) := by
  have hquant : w.arg.quantity = q.quantity := by rw [hq.eq]
  have hside : w.arg.side = q.side := by rw [hq.eq]
  unfold newChecked at h
  split at h
  · obtain rfl := pure_ok.mp h
    exact Or.inl (reject_steps rfl (Or.inl h0))
  have hpos : 0 < q.quantity := by omega
  split at h
  · obtain rfl := pure_ok.mp h
    exact Or.inl (reject_steps rfl (Or.inl h0))
  rw [hside] at h
  split at h
  · exact newPlain_once h0 hq hpos ‹_› h
  · exact newPlain_once h0 hq hpos ‹_› h
  · exact newStop_once h0 hq hpos ‹_› h
  · exact newStop_once h0 hq hpos ‹_› h
  · exact newBuySellStop_once h0 hq hpos ‹_› h
  · obtain rfl := pure_ok.mp h
    exact Or.inl (reject_steps rfl (Or.inl h0))

theorem handleNew_once (hq : w.arg.Renew q) (hnew : w.arg.orderAction = .new)
    (h : handleNew w e = .ok w') :
    Once e q (w, hs) (w', hs) := by
  rw [handleNew, if_pos hnew] at h
  have hv : (w.setArg { w.arg with orderId := 0 }).arg.Renew q := ⟨by rw [World.arg_setArg, hq.eq]⟩
  exact Once.head (Relation.ReflTransGen.single (Step.arg _)) (newChecked_once rfl hv h)

/-! ### `handle_cancel` and `handle_amend` -/

theorem unlist_eq (w : World) (e : ℕ) (o : Order) : unlist w e o =
    match o.lookup with
    | .inl t => unrest w e t o
    | .inr ss => ss.foldlM (fun w s => unstop w e s o) w := by
  have hboth : (do unstop (← unstop w e .buy o) e .sell o) =
      [Side.buy, .sell].foldlM (fun w s => unstop w e s o) w := by
    simp [List.foldlM_cons]
  cases hside : o.side <;> simp only [unlist, Order.lookup, hside]
  · split_ifs <;> simp
  · split_ifs <;> simp
  · split_ifs <;> first | exact hboth | rfl
  · split_ifs <;> first | exact hboth | rfl

theorem activateStops_arg :
    ∀ (ids : List ℕ) {w w' : World}, activateStops e s w ids = .ok w' → w'.arg = w.arg
  | [], w, w', h => by
    obtain rfl := Except.ok.inj h
    rfl
  | id :: ids, w, w', h => by
    simp only [activateStops, activateStop, bind_ok] at h
    obtain ⟨v, ⟨o, _, hex⟩, hrest⟩ := h
    obtain ⟨_, _, hk⟩ := Keeps.execute hex
    exact (activateStops_arg ids hrest).trans (hk.arg (by simp))

theorem triggerLoop_arg : ∀ (n : ℕ) {w w' : World}, triggerLoop e s n w = .ok w' → w'.arg = w.arg
  | 0, _, _, h => by cases h
  | n + 1, w, w', h => by
    simp only [triggerLoop, bind_ok] at h
    obtain ⟨best, _, v, hv, h⟩ := h
    have hfirst : v.arg = (collectStops w e s best).1.arg := activateStops_arg _ hv
    by_cases hnil : (collectStops w e s best).2 = []
    · rw [if_pos hnil] at h
      obtain rfl := pure_ok.mp h
      exact hfirst
    · rw [if_neg hnil] at h
      exact (triggerLoop_arg n h).trans hfirst

theorem eraseFound_ok {b b' : Book} {p : ℤ} {id : ℕ} (h : eraseFound b p id = .ok b') :
    b.level? p ≠ none ∧ b' = b.eraseAt p id := by
  simp only [eraseFound, bind_ok, orUb_ok, pure_ok] at h
  obtain ⟨is, his, rfl⟩ := h
  exact ⟨by rw [his]; exact Option.some_ne_none is, rfl⟩

/-- The erasure from a price book, with or without the stop trigger. -/
theorem unrest_ok {t : Side} {o : Order} (h : unrest w e t o = .ok w') :
    (w.book e t).level? o.price ≠ none ∧
    (w' = w.setBook e t ((w.book e t).eraseAt o.price o.orderId) ∨
      triggerStop (w.setBook e t ((w.book e t).eraseAt o.price o.orderId)) e t = .ok w') := by
  simp only [unrest, bind_ok] at h
  obtain ⟨b, hb, h⟩ := h
  obtain ⟨hlev, rfl⟩ := eraseFound_ok hb
  refine ⟨hlev, ?_⟩
  split_ifs at h
  · exact Or.inr h
  · exact Or.inl (pure_ok.mp h).symm

@[simp] theorem World.arg_dropStops {o : Order} :
    ∀ (ss : List Side) (w : World), (w.dropStops e o ss).arg = w.arg
  | [], _ => rfl
  | s :: ss, w => by
    have ih :=
      World.arg_dropStops (o := o) ss
        (w.setStops e s ((w.stops e s).eraseAt (o.stopTrigger s) o.orderId))
    exact ih

/-- The erasures from stop books. -/
theorem unstops_ok {o : Order} : ∀ (ss : List Side) {w w' : World}, ss.Nodup →
    ss.foldlM (fun w s => unstop w e s o) w = .ok w' →
    (∀ s ∈ ss, ((w.store e).stops s).level? (o.stopTrigger s) ≠ none) ∧ w' = w.dropStops e o ss
  | [], w, w', _, h => by
    obtain rfl := Except.ok.inj h
    exact ⟨by simp, rfl⟩
  | s :: ss, w, w', hnd, h => by
    obtain ⟨hs, hnd⟩ := List.nodup_cons.mp hnd
    simp only [List.foldlM_cons, bind_ok, unstop, pure_ok] at h
    obtain ⟨v, ⟨b, hb, rfl⟩, h⟩ := h
    obtain ⟨hlev, rfl⟩ := eraseFound_ok hb
    obtain ⟨hrest, rfl⟩ := unstops_ok ss hnd h
    refine ⟨fun t ht => ?_, rfl⟩
    rcases List.mem_cons.mp ht with rfl | ht
    · exact hlev
    · have hne : t ≠ s := fun he => hs (he ▸ ht)
      have hlev' := hrest t ht
      simpa [hne] using hlev'

theorem handleCancel_unlist {o : Order} {st : OrderStatus} (ho : w.order? e w.arg.orderId = some o)
    (hst : cancelState w.arg.orderAction = some st) : handleCancel w e = (do
      let v ← unlist (w.ackCancel e w.arg.orderId o st) e { o with orderState := st }
      return (v.eraseOrder e w.arg.orderId, true)) := by
  simp only [handleCancel, ho, hst]
  rfl

/-- `handle_cancel` of an order that is not there. -/
theorem handleCancel_missing {b : Bool} {st : OrderStatus} (hq : w.arg = q)
    (hst : cancelState q.orderAction = some st) (hf : (w.store e).odrMap.find? q.orderId = none)
    (h : handleCancel w e = .ok (w', b)) :
    Steps e q (w, hs) (w', hs) ∧ b = false := by
  subst hq
  have hcase : w.arg.orderAction = .cancel ∨ w.arg.orderAction = .amend := by
    revert hst
    cases w.arg.orderAction <;> simp [cancelState]
  simp only [handleCancel, World.order?, hf] at h
  rcases hcase with ha | ha
  · simp only [World.arg_setArg, ha, pure_ok, Prod.mk.injEq] at h
    obtain ⟨rfl, rfl⟩ := h
    exact ⟨Relation.ReflTransGen.single (Step.reject rfl rfl (Or.inr (Or.inr ⟨rfl, hf⟩))), rfl⟩
  · simp only [World.arg_setArg, ha, pure_ok, Prod.mk.injEq] at h
    obtain ⟨rfl, rfl⟩ := h
    exact ⟨Relation.ReflTransGen.single (Step.arg _), rfl⟩

theorem Order.lookup_nodup {o : Order} {ss : List Side} (h : o.lookup = .inr ss) : ss.Nodup := by
  revert h
  unfold Order.lookup
  cases o.side <;> simp only [reduceCtorEq, false_implies] <;> split_ifs <;> rintro ⟨⟩ <;> decide

/-- `handle_cancel` of an order that is there and was marked by the request; it makes no order,
    leaves the caller's object alone, and the order is gone. -/
theorem handleCancel_found {b : Bool} {st : OrderStatus} {o : Order} (a : OrderAction)
    (hq : w.arg = q) (hst : cancelState q.orderAction = some st)
    (hf : (w.store e).odrMap.find? q.orderId = some o)
    (h : handleCancel (w.putOrder e q.orderId { o with orderAction := a }) e = .ok (w', b)) :
    (∃ v, Opening e q w (v, [⟨none, q.orderId⟩]) ∧
      Steps e q.mute (v, [⟨none, q.orderId⟩]) (w', [])) ∧ w'.arg = q ∧
      (w'.store e).odrMap.find? q.orderId = none := by
  subst hq
  set o' : Order := { o with orderAction := a } with ho'
  have hf' : ((w.putOrder e w.arg.orderId o').store e).odrMap.find?
      (w.putOrder e w.arg.orderId o').arg.orderId = some o' := by simp
  have hst' : cancelState (w.putOrder e w.arg.orderId o').arg.orderAction = some st := hst
  simp only [handleCancel, World.order?, hf', hst', bind_ok, pure_ok, Prod.mk.injEq] at h
  obtain ⟨v, hv, rfl, -⟩ := h
  have hlook : ({ o' with orderState := st } : Order).lookup = o.lookup := rfl
  have hack :
      (((w.putOrder e w.arg.orderId o').putOrder e (w.putOrder e w.arg.orderId o').arg.orderId
      { o' with orderState := st }).callback e { o' with orderState := st }) =
      w.ackCancel e w.arg.orderId o' st := by
    have harg : (w.putOrder e w.arg.orderId o').arg = w.arg := rfl
    rw [harg, World.putOrder_putOrder]
    rfl
  rw [unlist_eq, hlook, hack] at hv
  have hdrop : Step e w.arg.mute (v, [⟨none, w.arg.orderId⟩]) (v.eraseOrder e w.arg.orderId, []) :=
    Step.drop
  have hgone : ((v.eraseOrder e w.arg.orderId).store e).odrMap.find? w.arg.orderId = none := by simp
  have hbook : ∀ t, ((w.ackCancel e w.arg.orderId o' st).store e).book t = (w.store e).book t := by
    intro t; simp [World.ackCancel]
  have hstops : ∀ t, ((w.ackCancel e w.arg.orderId o' st).store e).stops t =
      (w.store e).stops t := by
    intro t; simp [World.ackCancel]
  have harg : (w.ackCancel e w.arg.orderId o' st).arg = w.arg := by simp [World.ackCancel]
  rcases hl : o.lookup with t | ss
  · simp only [hl] at hv
    obtain ⟨hlev, hv⟩ := unrest_ok hv
    rw [World.book, hbook] at hlev
    obtain ⟨is, his⟩ := Option.ne_none_iff_exists'.mp hlev
    have hopen := Opening.unbooked (a := a) hf hst hl his
    rw [World.book, hbook] at hv
    rcases hv with rfl | hv
    · exact ⟨⟨_, hopen, Relation.ReflTransGen.single hdrop⟩, harg, hgone⟩
    · exact ⟨⟨_, hopen, (triggerStop_steps hv).tail hdrop⟩,
        (triggerLoop_arg _ hv).trans harg, hgone⟩
  · simp only [hl] at hv
    obtain ⟨hlev, rfl⟩ := unstops_ok ss (Order.lookup_nodup hl) hv
    simp only [hstops] at hlev
    have hopen := Opening.unstopped (a := a) hf hst hl hlev
    exact ⟨⟨_, hopen, Relation.ReflTransGen.single hdrop⟩,
      (World.arg_dropStops ss _).trans harg, hgone⟩

/-- An amend of a live order that cannot be changed in place: the order is taken out, and then at
    most one is made. -/
theorem handleAmend_replaces {o : Order} (hq : w.arg = q) (ha : q.orderAction = .amend)
    (hq0 : q.quantity ≠ 0) (hd : q.displayQuantity ≤ q.quantity)
    (hf : (w.store e).odrMap.find? q.orderId = some o) (hc : canAmend q o = false)
    (h : handleAmend w e = .ok w') : ∃ v u, Opening e q w (v, [⟨none, q.orderId⟩]) ∧
      Steps e q.mute (v, [⟨none, q.orderId⟩]) (u, []) ∧ (u.store e).odrMap.find? q.orderId = none ∧
      Once e q (u, []) (w', []) := by
  subst hq
  have hc' : ¬canAmend w.arg { o with orderAction := w.arg.orderAction } = true := by
    rw [show canAmend w.arg { o with orderAction := w.arg.orderAction } = canAmend w.arg o from rfl,
      hc]
    exact Bool.false_ne_true
  simp only [handleAmend, if_neg hq0, if_neg (not_lt.mpr hd), World.order?, hf] at h
  split at h
  · exact absurd ‹_› hc'
  obtain ⟨⟨v, b⟩, hv, h⟩ := bind_ok.mp h
  have hst : cancelState w.arg.orderAction = some .canceledByAmend := by rw [ha]; rfl
  obtain ⟨⟨u, hopen, hsteps⟩, harg, hgone⟩ := handleCancel_found _ rfl hst hf hv
  refine ⟨u, v, hopen, hsteps, hgone, ?_⟩
  simp only at h
  split at h
  · refine Once.head (Relation.ReflTransGen.single (Step.arg _)) (handleNew_once ?_ rfl h)
    exact ⟨by rw [World.arg_setArg, harg]⟩
  · obtain rfl := pure_ok.mp h
    exact .inl Relation.ReflTransGen.refl

theorem handleAmend_steps (hq : w.arg = q) (ha : q.orderAction = .amend)
    (h : handleAmend w e = .ok w') :
    ∃ v hs, Opening e q w (v, hs) ∧ Steps e q (v, hs) (w', []) := by
  subst hq
  have hrefused : ∀ {st : OrderStatus}, st.isReject = true →
      (w.arg.quantity = 0 ∨ w.arg.displayQuantity > w.arg.quantity) →
      Opening e w.arg w (rejectArg w e st, []) := fun {st} hst hb =>
    Opening.refused (o := { w.arg with orderState := st, remainQuantity := 0 })
      ⟨ha, hb⟩ rfl hst rfl rfl
  have hfull := h
  unfold handleAmend at h
  split at h
  · obtain rfl := pure_ok.mp h
    exact ⟨_, [], hrefused rfl (Or.inl ‹_›), Relation.ReflTransGen.refl⟩
  rename_i hq0
  split at h
  · obtain rfl := pure_ok.mp h
    exact ⟨_, [], hrefused rfl (Or.inr ‹_›), Relation.ReflTransGen.refl⟩
  rename_i hd
  rcases hf : (w.store e).odrMap.find? w.arg.orderId with _ | o
  · simp only [World.order?, hf] at h
    obtain rfl := pure_ok.mp h
    exact ⟨_, [], Opening.same, reject_steps rfl (Or.inr ⟨rfl, hf⟩)⟩
  simp only [World.order?, hf] at h
  split at h
  · obtain rfl := pure_ok.mp h
    rw [World.putOrder_putOrder]
    exact ⟨_, [], Opening.amended hf ‹_› (Nat.pos_of_ne_zero hq0), Relation.ReflTransGen.refl⟩
  · rename_i hc
    obtain ⟨v, u, hopen, hsteps, -, honce⟩ :=
      handleAmend_replaces rfl ha hq0 (not_lt.mp hd) hf (Bool.eq_false_iff.mpr hc) hfull
    exact ⟨v, _, hopen, hsteps.of_mute.trans honce.steps⟩

/-! ### Whole requests -/

/-- The requests the runs of a matching engine consist of. -/
def Order.IsTrade (q : Order) : Prop :=
  q.orderAction = .new ∨ q.orderAction = .cancel ∨ q.orderAction = .amend

instance (q : Order) : Decidable q.IsTrade := inferInstanceAs (Decidable (_ ∨ _))

/-- A request that is handled to its end is an opening and a sequence of small steps that
    ends with empty hands. -/
theorem dispatch_steps (hq : w.arg = q) (ht : q.IsTrade) (h : dispatch w e = .ok w') :
    ∃ v hs, Opening e q w (v, hs) ∧ Steps e q (v, hs) (w', []) := by
  subst hq
  rcases ht with ha | ha | ha
  · simp only [dispatch, ha] at h
    exact ⟨w, [], Opening.same, (handleNew_once ⟨rfl⟩ ha h).steps⟩
  · simp only [dispatch, ha, bind_ok, pure_ok] at h
    obtain ⟨⟨v, b⟩, hv, rfl⟩ := h
    have hst : cancelState w.arg.orderAction = some .canceledByUser := by rw [ha]; rfl
    rcases hf : (w.store e).odrMap.find? w.arg.orderId with _ | o
    · exact ⟨w, [], Opening.same, (handleCancel_missing rfl hst hf hv).1⟩
    · have hself : w.putOrder e w.arg.orderId { o with orderAction := o.orderAction } = w :=
        World.putOrder_self hf
      rw [← hself] at hv
      obtain ⟨⟨u, hopen, hsteps⟩, _⟩ := handleCancel_found o.orderAction rfl hst hf hv
      exact ⟨u, _, hopen, hsteps.of_mute⟩
  · simp only [dispatch, ha] at h
    exact handleAmend_steps rfl ha h

/-! ### Invariants of steps -/

/-- The history only grows. -/
theorem Step.history {x y : World × List Held} (h : Step e q x y) : x.1.execs <+: y.1.execs := by
  cases h with
  | arg o => exact List.prefix_rfl
  | bump => exact List.prefix_rfl
  | reject => rw [World.execs_callback]; exact List.prefix_rfl
  | taker ho ht hex =>
    obtain ⟨o, _, hk⟩ := Keeps.execute hex
    rw [hk.execs]
    exact List.prefix_append _ _
  | fire ho hex =>
    obtain ⟨o, _, hk⟩ := Keeps.execute hex
    rw [hk.execs]
    exact List.prefix_append _ _
  | collect => exact List.prefix_rfl
  | register =>
    rw [World.execs_callback, World.execs_registerStops]
    exact List.prefix_rfl
  | drop => exact List.prefix_rfl

theorem Steps.history {x y : World × List Held} (h : Steps e q x y) : x.1.execs <+: y.1.execs := by
  induction h with
  | refl => exact List.prefix_rfl
  | tail _ hstep ih => exact ih.trans hstep.history

theorem Step.execs {x y : World × List Held} (h : Step e q x y) : ∀ z ∈ x.1.execs, z ∈ y.1.execs :=
  h.history.subset

theorem Steps.execs {x y : World × List Held} (h : Steps e q x y) :
    ∀ z ∈ x.1.execs, z ∈ y.1.execs := h.history.subset

/-- What every step with acceptable executions preserves, steps preserve. -/
theorem Steps.induct {I : World × List Held → Prop} {good : Exec → Prop}
    (hstep : ∀ {x y}, Step e q x y → (∀ z ∈ y.1.execs, good z) → I x → I y)
    {x y : World × List Held} (h : Steps e q x y) (hgood : ∀ z ∈ y.1.execs, good z) (hx : I x) :
    I y := by
  induction h with
  | refl => exact hx
  | tail _ hs ih => exact hstep hs hgood (ih (fun z hz => hgood z (hs.execs z hz)))

/-- What every step with acceptable new executions preserves, steps preserve whose executions after
    the first `n` are so. -/
theorem Steps.induct_new {I : World × List Held → Prop} {good : Exec → Prop} {n : ℕ}
    (hstep : ∀ {x y}, Step e q x y → (∀ z ∈ y.1.execs.drop x.1.execs.length, good z) → I x → I y)
    {x y : World × List Held} (h : Steps e q x y) (hn : n ≤ x.1.execs.length)
    (hgood : ∀ z ∈ y.1.execs.drop n, good z) (hx : I x) : I y := by
  induction h with
  | refl => exact hx
  | @tail u v hxu hs ih =>
    have hle : n ≤ u.1.execs.length := hn.trans (Steps.history hxu).length_le
    obtain ⟨zs, hzs⟩ := hs.history
    refine hstep hs (fun z hz => hgood z (List.mem_of_mem_drop (i := u.1.execs.length - n) ?_))
      (ih fun z hz => hgood z ?_)
    · rw [List.drop_drop, Nat.add_sub_cancel' hle]
      exact hz
    · rw [← hzs, List.drop_append_of_le_length hle]
      exact List.mem_append_left _ hz

end Matching
