import Matching.Engine.Every
import Matching.Engine.Sorted

/-! Requests that return. Where the stores are in order and firm and no order has two legs
    (`Steady`, which steps keep), nothing the engine reads is missing: an execution returns, a stop
    trigger returns with as many rounds as there are levels and one more, for each round but the
    last takes a level out and executions add none, and so do the handlers, if the order that a
    cancellation names is where it is looked for. -/

namespace Matching

/-- The stores are in order and firm between two small steps, and no order has two legs. -/
structure Steady (e : ℕ) (x : World × List Held) : Prop where
  sound : Sound Terms.OneLegged e x
  firm : x.1.FirmAt e x.2

/-- The order, if there is one, sits in the books `handle_cancel` looks in. -/
def Store.Reaches (g : Store) (o : Order) : Prop :=
  match o.lookup with
  | .inl t => (g.book t).level? o.price ≠ none
  | .inr ss => ∀ s ∈ ss, (g.stops s).level? (o.stopTrigger s) ≠ none

variable {w w' v : World} {n e : ℕ} {s : Side} {r : Ref} {hs : List Held} {o q : Order}
  {x y : World × List Held}

namespace Steady

theorem ok (h : Steady e x) : x.1.Ok := h.sound.stores.ok

theorem live (h : Steady e x) : x.1.Live := fun l => (h.firm l).live

theorem step (h : Steady e x) (hq : q.side ≠ .buySellStop) (hs : Step e q x y) : Steady e y := by
  have hone : ∀ z ∈ y.1.execs, Terms.OneLegged z.taker.orderId z.taker.terms → z.OneLeg :=
    fun _ _ => Exec.oneLeg_of_oneLegged
  exact ⟨hs.sound hq hone h.sound, hs.firm hq hone h.sound h.firm⟩

theorem steps (h : Steady e x) (hq : q.side ≠ .buySellStop) (hs : Steps e q x y) : Steady e y := by
  induction hs with
  | refl => exact h
  | tail _ hstep ih => exact ih.step hq hstep

theorem opening (h : Steady e (w, []))
    (hfind : q.orderAction ≠ .new → (w.store e).Finds q.orderId) (ho : Opening e q w y) :
    Steady e y := ⟨ho.sound h.sound, ho.firm h.sound h.firm hfind⟩

theorem congr (h : Steady e (w, hs)) (hst : ∀ l, v.store l = w.store l) (hc : v.conf e = w.conf e)
    (hn : v.nextId = w.nextId) :
    Steady e (v, hs) := by
  refine ⟨⟨?_, fun s => (h.sound.legs s).congr hc⟩, h.firm.congr hst⟩
  have hstores : w.SoundAt Terms.OneLegged w.nextId e hs := h.sound.stores
  show v.SoundAt Terms.OneLegged v.nextId e hs
  rw [hn]
  exact hstores.congr hst

end Steady

/-! ### Executions and stops -/

theorem execute_returns (hok : w.Ok) (hlive : w.Live) (hoff : OffBook w e r)
    (hlegs : LegsApart w e s) (ho : w.readRef e r = .ok o) (h0 : o.remainQuantity ≠ 0) :
    ∃ w', execute w e s r = .ok w' := by
  rcases execute_cases ⟨hok, hoff, hlegs⟩ ho h0 with ⟨_, _, _, w', hex, _⟩ | ⟨_, hl⟩
  · exact ⟨w', hex⟩
  · exact absurd hlive hl

theorem bestPrice_returns (h : Steady e (w, hs)) (s : Side) : ∃ p, bestPrice w e s = .ok p := by
  rcases bestPrice_cases h.ok e s with hp | ⟨_, hl⟩
  · exact ⟨_, hp⟩
  · exact absurd h.live hl

/-- The stops collected from a book are activated one after the other; the stop
    books stay as they are. -/
theorem activateStops_returns (hq : q.side ≠ .buySellStop) : ∀ (ids : List ℕ) {w : World},
    Steady e (w, ids.map (fun id => ⟨some s, id⟩) ++ hs) → ∃ w', activateStops e s w ids = .ok w'
  | [], w, _ => ⟨w, rfl⟩
  | id :: ids, w, h => by
    have hstores : w.SoundAt Terms.OneLegged w.nextId e
      (⟨some s, id⟩ :: (ids.map (fun id => ⟨some s, id⟩) ++ hs)) := h.sound.stores
    obtain ⟨⟨o, t, ho, _⟩, _, _⟩ := hstores.self.held List.mem_cons_self
    have hfires := h.sound.fires_of_side ho (hstores.self.key ho).2.2
    set tk : Order := { o with price := o.stopLimit s }
    have hlive : (w.putOrder e id tk).Live :=
      World.live_writeRef (r := .entry id) h.live fun j hj => by cases hj; exact hfires.off
    obtain ⟨v, hv⟩ := execute_returns hfires.stores.ok hlive hfires.offBook
      ((h.sound.legs s).congr (World.conf_writeRef w e e (.entry id) tk)) hfires.read hfires.remain
    obtain ⟨w', hw'⟩ := activateStops_returns hq ids (h.step hq (Step.fire ho hv))
    refine ⟨w', ?_⟩
    have hderef : w.deref e id = .ok o := by simp [World.deref, ho]
    simp only [activateStops, activateStop, hderef, ok_bind]
    rw [hv, ok_bind, hw']

theorem activateStops_stops :
    ∀ (ids : List ℕ) {w w' : World}, activateStops e s w ids = .ok w' → ∀ t,
    (w'.store e).stops t = (w.store e).stops t
  | [], w, w', h, t => by
    obtain rfl := Except.ok.inj h
    rfl
  | id :: ids, w, w', h, t => by
    simp only [activateStops, activateStop, bind_ok] at h
    obtain ⟨v, ⟨o, _, hex⟩, hrest⟩ := h
    rw [activateStops_stops ids hrest t, execute_stops hex e t]
    exact World.stops_writeRef w e e (.entry id) _ t

/-- A round that collects something leaves fewer levels. -/
theorem collectStops_length {best : ℤ} (h : (collectStops w e s best).2 ≠ []) :
    (((collectStops w e s best).1.store e).stops s).length < ((w.store e).stops s).length := by
  simp only [collectStops] at h ⊢
  rw [World.setStops_eq, World.store_upd, if_pos rfl, Store.stops_setStops, if_pos rfl]
  refine List.length_filter_lt_length_iff_exists.mpr ?_
  obtain ⟨id, hid⟩ := List.exists_mem_of_ne_nil _ h
  obtain ⟨p, l, hl, _⟩ := Ladder.mem_ids.mp hid
  obtain ⟨hmem, hhit⟩ := List.mem_filter.mp hl
  exact ⟨l, hmem, by simpa using hhit⟩

theorem triggerLoop_returns (hq : q.side ≠ .buySellStop) :
    ∀ (n : ℕ) {w : World}, ((w.store e).stops s).length < n →
    Steady e (w, hs) → ∃ w', triggerLoop e s n w = .ok w'
  | 0, _, hlt, _ => absurd hlt (Nat.not_lt_zero _)
  | n + 1, w, hlt, h => by
    obtain ⟨best, hbest⟩ := bestPrice_returns h s
    have hcol : Steady e
        ((collectStops w e s best).1,
        (collectStops w e s best).2.map (fun id => ⟨some s, id⟩) ++ hs) :=
      h.step hq (Step.collect s _)
    obtain ⟨v, hv⟩ := activateStops_returns hq _ hcol
    rw [triggerLoop, hbest, ok_bind]
    simp only [hv, ok_bind]
    by_cases hnil : (collectStops w e s best).2 = []
    · exact ⟨v, by rw [if_pos hnil]; rfl⟩
    · rw [if_neg hnil]
      have hless := collectStops_length hnil
      have hsame := activateStops_stops _ hv s
      exact triggerLoop_returns hq n (by rw [hsame]; omega)
        (hcol.steps hq (activateStops_steps _ hv))

theorem triggerStop_returns (hq : q.side ≠ .buySellStop) (s : Side) (h : Steady e (w, hs)) :
    ∃ w', triggerStop w e s = .ok w' :=
  triggerLoop_returns hq _ (Nat.lt_succ_self _) h

/-! ### `handle_new` -/

theorem executeArg_returns (hq : q.side ≠ .buySellStop) (h : Steady e (w, hs))
    (ho : o.From q w.nextId) (ht : o.Takes s) :
    ∃ w', executeArg (w.bumpId.setArg o) e s = .ok w' := by
  have hpos := ho.whole
  obtain ⟨v, hv⟩ :=
    execute_returns (w := w.bumpId.setArg o) h.ok h.live (OffBook.arg _ _)
      ((h.sound.legs s).congr rfl)
    (show (w.bumpId.setArg o).readRef e .arg = .ok o from rfl) (by omega)
  have hsteady : Steady e (v, hs) := h.step hq (Step.taker ho ht hv)
  rw [executeArg, hv, ok_bind]
  split
  · obtain ⟨u, hu⟩ := triggerStop_returns hq .sell hsteady
    rw [hu, ok_bind]
    exact triggerStop_returns hq .buy (hsteady.steps hq (triggerStop_steps hu))
  · exact ⟨v, rfl⟩

theorem newPlain_returns (hq : q.side ≠ .buySellStop) (h : Steady e (w, hs))
    (h0 : w.arg.orderId = 0) (hren : w.arg.Renew q) (hpos : 0 < q.quantity)
    (hside : q.side = s.plain) : ∃ w', newPlain w e s = .ok w' := by
  set o : Order :=
    { w.arg with
      remainQuantity := w.arg.quantity, orderState := .opened, orderId := w.nextId } with ho
  have hinit : initNewOrder w = w.bumpId.setArg o := initNewOrder_eq h0
  have hfrom : o.From q w.nextId := ⟨by rw [ho, hren.eq], hpos, fun _ _ => by rw [ho, hren.eq]⟩
  simp only [newPlain, hinit, World.arg_setArg]
  split
  · exact ⟨_, rfl⟩
  · rename_i hmk
    exact executeArg_returns hq h hfrom
      (Or.inl ⟨by rw [hfrom.eq]; exact hside, fun hty hp => hmk ⟨hty, hp⟩⟩)

theorem newStop_returns (hq : q.side ≠ .buySellStop) (h : Steady e (w, hs))
    (h0 : w.arg.orderId = 0) (hren : w.arg.Renew q) (hpos : 0 < q.quantity)
    (hside : q.side = s.stop) : ∃ w', newStop w e s = .ok w' := by
  set v := w.setArg { w.arg with price := stopPrice } with hv
  have hsteady : Steady e (v, hs) := h.step hq (Step.arg _)
  obtain ⟨best, hbest⟩ := bestPrice_returns hsteady s
  set o : Order :=
    { v.arg with
      remainQuantity := v.arg.quantity, orderState := .opened, orderId := v.nextId } with ho
  have hinit : initNewOrder v = v.bumpId.setArg o := initNewOrder_eq h0
  rw [newStop, ← hv, hbest, ok_bind]
  rcases hrej : stopReject v.arg s with _ | st
  swap
  · exact ⟨_, rfl⟩
  have hos : o.side = s.stop := by
    have heq : o.side = q.side := by
      show w.arg.side = q.side
      rw [hren.eq]
    rw [heq, hside]
  have hlim : o.stopLimit s ≠ marketPrice := by
    have hsame : o.stopLimit s = v.arg.stopLimit s := by cases s <;> rfl
    rw [hsame]
    exact stopReject_none hrej
  have hfrom : ∀ p, ({ o with price := p } : Order).From q v.nextId := fun p =>
    ⟨by show _ = _; rw [ho, hv]; simp only [World.arg_setArg]; rw [hren.eq], hpos, fun t ht => by
      rw [hside] at ht
      cases s <;> cases t <;> cases ht⟩
  simp only [hinit]
  split
  · have hlim' : ({ o with price := o.stopLimit s } : Order).stopLimit s = o.stopLimit s := by
      cases s <;> rfl
    exact executeArg_returns hq hsteady (hfrom (o.stopLimit s))
      (Or.inr ⟨Or.inl hos, hlim'.symm, fun hz => hlim (hlim'.symm.trans hz)⟩)
  · exact ⟨_, rfl⟩

theorem handleNew_returns (hq : q.side ≠ .buySellStop) (h : Steady e (w, hs))
    (hren : w.arg.Renew q) (hnew : w.arg.orderAction = .new) :
    ∃ w', handleNew w e = .ok w' := by
  rw [handleNew, if_pos hnew]
  set v := w.setArg { w.arg with orderId := 0 } with hv
  have hsteady : Steady e (v, hs) := h.step hq (Step.arg _)
  have hren' : v.arg.Renew q := ⟨by rw [hv, World.arg_setArg, hren.eq]⟩
  have hquant : v.arg.quantity = q.quantity := by rw [hren'.eq]
  have hside : v.arg.side = q.side := by rw [hren'.eq]
  rw [newChecked, hquant, hside]
  split
  · exact ⟨_, rfl⟩
  rename_i h0
  split
  · exact ⟨_, rfl⟩
  have hpos : 0 < q.quantity := by omega
  split
  · exact newPlain_returns hq hsteady rfl hren' hpos ‹_›
  · exact newPlain_returns hq hsteady rfl hren' hpos ‹_›
  · exact newStop_returns hq hsteady rfl hren' hpos ‹_›
  · exact newStop_returns hq hsteady rfl hren' hpos ‹_›
  · exact absurd ‹_› hq
  · exact ⟨_, rfl⟩

/-! ### `handle_cancel` and `handle_amend` -/

theorem unstops_returns {o : Order} : ∀ (ss : List Side) {w : World}, ss.Nodup →
    (∀ s ∈ ss, ((w.store e).stops s).level? (o.stopTrigger s) ≠ none) →
      ∃ w', ss.foldlM (fun w s => unstop w e s o) w = .ok w'
  | [], w, _, _ => ⟨w, rfl⟩
  | s :: ss, w, hnd, hlev => by
    obtain ⟨hs, hnd⟩ := List.nodup_cons.mp hnd
    obtain ⟨is, his⟩ := Option.ne_none_iff_exists'.mp (hlev s List.mem_cons_self)
    have hfirst : unstop w e s o =
        .ok (w.setStops e s (((w.store e).stops s).eraseAt (o.stopTrigger s) o.orderId)) := by
      simp only [unstop, eraseFound, World.stops, his, orUb, ok_bind]
      rfl
    rw [List.foldlM_cons, hfirst, ok_bind]
    refine unstops_returns ss hnd fun t ht => ?_
    have hne : t ≠ s := fun he => hs (he ▸ ht)
    rw [World.setStops_eq, World.store_upd, if_pos rfl, Store.stops_setStops, if_neg hne]
    exact hlev t (List.mem_cons_of_mem _ ht)

/-- The cancellation of an order that sits where it is looked for, marked by the request or not. -/
theorem handleCancel_returns (a : OrderAction) {st : OrderStatus} (hq : q.side ≠ .buySellStop)
    (h : Steady e (w, [])) (harg : w.arg = q) (hst : cancelState q.orderAction = some st)
    (hf : (w.store e).odrMap.find? q.orderId = some o) (hfinds : (w.store e).Finds q.orderId)
    (hreach : (w.store e).Reaches o) :
    ∃ v, handleCancel (w.putOrder e q.orderId { o with orderAction := a }) e = .ok (v, true) := by
  set o' : Order := { o with orderAction := a } with ho'
  set x := w.putOrder e q.orderId o' with hx
  have hxarg : x.arg = q := harg
  have hfx : x.order? e x.arg.orderId = some o' := by
    rw [World.order?, hxarg, hx, World.putOrder_eq, World.store_upd, if_pos rfl,
      Store.odrMap_withMap, OrdMap.find?_insert, if_pos rfl]
  have hack : x.ackCancel e x.arg.orderId o' st = w.ackCancel e q.orderId o' st := by
    rw [hxarg, World.ackCancel, World.ackCancel, hx, World.putOrder_putOrder]
  rw [handleCancel_unlist hfx (by rw [hxarg]; exact hst), hack, unlist_eq]
  have hlook : ({ o' with orderState := st } : Order).lookup = o.lookup := rfl
  rw [hlook]
  unfold Store.Reaches at hreach
  rcases hl : o.lookup with t | ss
  · simp only [hl] at hreach ⊢
    obtain ⟨is, his⟩ := Option.ne_none_iff_exists'.mp hreach
    have hopen := h.opening (fun _ => hfinds) (Opening.unbooked (a := a) hf hst hl his)
    have hfound : eraseFound ((w.ackCancel e q.orderId o' st).book e t) o.price o.orderId =
        .ok (((w.store e).book t).eraseAt o.price o.orderId) := by
      rw [World.book, World.book_ackCancel, eraseFound, his]
      rfl
    obtain ⟨u, hu⟩ : ∃ u, unrest (w.ackCancel e q.orderId o' st) e t
        { o' with orderState := st } = .ok u := by
      have hfound' : eraseFound ((w.ackCancel e q.orderId o' st).book e t)
          ({ o' with orderState := st } : Order).price
          ({ o' with orderState := st } : Order).orderId =
          .ok (((w.store e).book t).eraseAt o.price o.orderId) := hfound
      obtain ⟨u, hu⟩ := triggerStop_returns hq t hopen
      simp only [unrest, hfound', ok_bind]
      split_ifs
      · exact ⟨u, hu⟩
      · exact ⟨_, rfl⟩
    exact ⟨_, by rw [hu]; rfl⟩
  · simp only [hl] at hreach ⊢
    obtain ⟨u, hu⟩ :=
      unstops_returns (e := e) (o := { o' with orderState := st })
        ss (w := w.ackCancel e q.orderId o' st)
      (Order.lookup_nodup hl) fun s hs => by rw [World.stops_ackCancel]; exact hreach s hs
    exact ⟨_, by rw [hu]; rfl⟩

theorem handleAmend_returns (hq : q.side ≠ .buySellStop) (h : Steady e (w, [])) (harg : w.arg = q)
    (ha : q.orderAction = .amend) (hfinds : (w.store e).Finds q.orderId)
    (hreach : ∀ o, (w.store e).odrMap.find? q.orderId = some o → (w.store e).Reaches o) :
    ∃ w', handleAmend w e = .ok w' := by
  subst harg
  rw [handleAmend]
  split
  · exact ⟨_, rfl⟩
  split
  · exact ⟨_, rfl⟩
  rcases hf : w.order? e w.arg.orderId with _ | o
  · exact ⟨_, rfl⟩
  simp only
  split
  · exact ⟨_, rfl⟩
  have hst : cancelState w.arg.orderAction = some .canceledByAmend := by rw [ha]; rfl
  obtain ⟨v, hv⟩ := handleCancel_returns w.arg.orderAction hq h rfl hst hf hfinds (hreach o hf)
  obtain ⟨⟨u, hopen, hsteps⟩, hvarg, _⟩ := handleCancel_found _ rfl hst hf hv
  have hsteady : Steady e (v, []) := (h.opening (fun _ => hfinds) hopen).steps hq hsteps.of_mute
  rw [hv, ok_bind]
  simp only [if_true]
  refine handleNew_returns hq (hsteady.step hq (Step.arg _)) ⟨?_⟩ rfl
  rw [World.arg_setArg, hvarg]

/-! ### Requests -/

theorem dispatch_returns (hq : q.side ≠ .buySellStop) (ht : q.IsTrade) (h : Steady e (w, []))
    (harg : w.arg = q) (hfinds : q.orderAction ≠ .new → (w.store e).Finds q.orderId)
    (hreach : q.orderAction ≠ .new → ∀ o, (w.store e).odrMap.find? q.orderId = some o →
      (w.store e).Reaches o) :
    ∃ w', dispatch w e = .ok w' := by
  subst harg
  rcases ht with ha | ha | ha
  · simp only [dispatch, ha]
    exact handleNew_returns hq h ⟨rfl⟩ ha
  · have hne : w.arg.orderAction ≠ .new := by simp [ha]
    have hst : cancelState w.arg.orderAction = some .canceledByUser := by rw [ha]; rfl
    obtain ⟨v, b, hv⟩ : ∃ v b, handleCancel w e = .ok (v, b) := by
      rcases hf : (w.store e).odrMap.find? w.arg.orderId with _ | o
      · have hnone : w.order? e w.arg.orderId = none := hf
        rw [handleCancel, hnone]
        simp only
        split <;> exact ⟨_, _, rfl⟩
      · obtain ⟨v, hv⟩ :=
          handleCancel_returns o.orderAction hq h rfl hst hf (hfinds hne) (hreach hne o hf)
        rw [World.putOrder_self hf] at hv
        exact ⟨v, true, hv⟩
    simp only [dispatch, ha, hv, ok_bind]
    exact ⟨v, rfl⟩
  · have hne : w.arg.orderAction ≠ .new := by simp [ha]
    simp only [dispatch, ha]
    exact handleAmend_returns hq h rfl ha (hfinds hne) (hreach hne)

theorem handle_steady (ht : q.IsTrade) (hq : q.side ≠ .buySellStop) (hx : Steady e (w, []))
    (hfinds : (w.store e).Finds q.orderId) (h : handle w e q = .ok w') : Steady e (w', []) := by
  obtain ⟨held, _, ⟨_, rfl⟩ | ⟨_, v, hv, rfl⟩⟩ := handle_cases h
  · exact hx.congr (fun _ => rfl) rfl rfl
  · obtain ⟨u, hs, hopen, hsteps⟩ := dispatch_steps (World.arg_enter w e q held) ht hv
    have hent : Steady e (w.enter e q held, []) :=
      hx.congr (fun l => World.store_enter ..) (World.conf_enter ..) (World.nextId_enter ..)
    have hend :=
      (hent.opening (fun _ => by rw [World.store_enter]; exact hfinds) hopen).steps hq hsteps
    exact hend.congr (fun l => by rw [World.store_unlock, World.store_flush])
      (by rw [World.conf_unlock, World.conf_flush])
      (by rw [World.nextId_unlock, World.nextId_flush])

end Matching
