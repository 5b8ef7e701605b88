import Matching.Engine.Every

/-! What the live orders still say of the requests they were made from. Matching, triggers and the
    handlers of the three trading requests leave in the map only orders marked `NEW` or `AMEND`, of
    a side the engine knows, and no stop of an auction. A `DUMP` relies on it: it renames these two
    marks and delivers any other order as it is. -/

namespace Matching

/-- The order is marked `NEW` or `AMEND`, its side is one `handle_new` knows, and it is
    no stop of an auction. -/
structure Order.Sent (o : Order) : Prop where
  action : o.orderAction = .new ∨ o.orderAction = .amend
  side : ∀ c, o.side ≠ .other c
  stray : ¬o.Stray

/-- So are all live orders. -/
def World.AllSent (w : World) : Prop := w.Every fun _ _ o => o.Sent

/-- So are all live orders and the taker. -/
def World.TakerSent (w : World) (r : Ref) : Prop := w.AllSent ∧ (r = .arg → w.arg.Sent)

variable {T : ℕ → Prop} {w w' : World} {e id : ℕ} {s : Side} {r : Ref} {o o' q : Order}

theorem Order.Sent.congr (h : o.Sent) (ha : o'.orderAction = o.orderAction) (hs : o'.side = o.side)
    (ht : o'.timeCondition = o.timeCondition) : o'.Sent := by
  refine ⟨ha ▸ h.action, hs ▸ h.side, fun hstray => h.stray ?_⟩
  rw [Order.Stray, hs, ht] at hstray
  exact hstray

namespace World.AllSent

theorem congr (h : w.AllSent) (hst : ∀ l, w'.store l = w.store l) : w'.AllSent :=
  World.Every.congr h hst

theorem putOrder (h : w.AllSent) (ho : o.Sent) : (w.putOrder e id o).AllSent :=
  World.Every.writeRef (r := .entry id) h fun _ _ => ho

/-- The map of one engine loses orders, or gets a sent one. -/
theorem upd (h : w.AllSent) {f : Store → Store}
    (hf : ∀ g j o', (f g).odrMap.find? j = some o' → g.odrMap.find? j = some o' ∨ o'.Sent) :
    (w.upd e f).AllSent := by
  refine World.Every.of_find h fun l j o' ho' => ?_
  rw [World.store_upd] at ho'
  split_ifs at ho' with hl
  · subst hl
    exact hf _ j o' ho'
  · exact .inl ho'

theorem setBook (h : w.AllSent) (b : Book) : (w.setBook e s b).AllSent := by
  rw [World.setBook_eq]
  exact h.upd fun g j o' ho' => .inl (by rwa [Store.odrMap_setBook] at ho')

theorem setStops (h : w.AllSent) (b : Book) : (w.setStops e s b).AllSent := by
  rw [World.setStops_eq]
  exact h.upd fun g j o' ho' => .inl (by rwa [Store.odrMap_setStops] at ho')

theorem eraseOrder (h : w.AllSent) : (w.eraseOrder e id).AllSent := by
  rw [World.eraseOrder_eq]
  refine h.upd fun g j o' ho' => .inl ?_
  rw [Store.odrMap_withMap, OrdMap.find?_erase] at ho'
  split_ifs at ho'
  exact ho'

theorem callback (h : w.AllSent) : (w.callback e o).AllSent :=
  h.congr fun _ => World.store_callback ..

end World.AllSent

/-! ### Executions and triggers -/

namespace World.TakerSent

theorem read (h : w.TakerSent r) (ho : w.readRef e r = .ok o) : o.Sent := by
  cases r with
  | arg =>
    obtain rfl := Except.ok.inj ho
    exact h.2 rfl
  | entry id => exact h.1 e id o (by simpa [World.readRef, World.deref] using ho)

theorem write (h : w.TakerSent r) (ho : o.Sent) : (w.writeRef e r o).TakerSent r := by
  refine ⟨World.Every.writeRef h.1 fun _ _ => ho, fun hr => ?_⟩
  subst hr
  exact ho

theorem callback (h : w.TakerSent r) : (w.callback e o).TakerSent r :=
  ⟨h.1.callback, fun hr => (World.arg_callback ..).symm ▸ h.2 hr⟩

theorem act (h : w.TakerSent r) (hact : Act T e r w w') : w'.TakerSent r := by
  cases hact with
  | bump => exact h
  | @fill l id m hT hm mid q a b =>
    have hm' : m.Sent := h.1 l id m (by simpa [World.deref] using hm)
    have hput : (w.putOrder l id (engineMakerMatch m mid q a b)).TakerSent r :=
      ⟨h.1.putOrder (hm'.congr rfl rfl rfl), h.2⟩
    exact hput.callback
  | unbook => exact ⟨h.1.setBook _, h.2⟩
  | erase => exact ⟨h.1.eraseOrder, h.2⟩
  | take ho =>
    refine (h.write ?_).callback
    exact (h.read ho).congr rfl rfl rfl
  | kill ho =>
    refine (h.write ?_).callback
    exact (h.read ho).congr rfl rfl rfl
  | price ho =>
    refine h.write ?_
    exact (h.read ho).congr rfl rfl rfl
  | @rest o ho s =>
    refine ⟨h.1.upd fun g j o' ho' => ?_, h.2⟩
    have hmap : (g.setBook s.opp ((g.book s.opp).insert s.opp.cmp o.price o.orderId)).odrMap =
      g.odrMap := Store.odrMap_setBook ..
    rcases OrdMap.of_find?_emplace ho' with hold | ⟨_, rfl⟩
    · exact .inl (hmap ▸ hold)
    · exact .inr (h.read ho)
  | report ho => exact h.callback

theorem execute (h : w.TakerSent r) (hex : execute w e s r = .ok w') : w'.TakerSent r := by
  obtain ⟨o, _, hacts⟩ :=
    Acts.execute (T := fun _ => True) trivial (fun _ _ => ⟨trivial, trivial⟩) hex
  have hlog : (w.logExec e s r o).TakerSent r := h
  clear h hex
  induction hacts with
  | refl => exact hlog
  | tail _ hact ih => exact ih.act hact

end World.TakerSent

theorem activateStops_sent :
    ∀ (ids : List ℕ) {w w' : World}, activateStops e s w ids = .ok w' → w.AllSent → w'.AllSent
  | [], w, w', h, hw => by
    obtain rfl := Except.ok.inj h
    exact hw
  | id :: ids, w, w', h, hw => by
    simp only [activateStops, activateStop, bind_ok] at h
    obtain ⟨v, ⟨o, ho, hex⟩, hrest⟩ := h
    have ho' : o.Sent := hw e id o (by simpa [World.deref] using ho)
    have hput : (w.putOrder e id { o with price := o.stopLimit s }).TakerSent (.entry id) :=
      ⟨hw.putOrder (ho'.congr rfl rfl rfl), fun hr => (by cases hr)⟩
    exact activateStops_sent ids hrest (hput.execute hex).1

theorem triggerLoop_sent :
    ∀ (n : ℕ) {w w' : World}, triggerLoop e s n w = .ok w' → w.AllSent → w'.AllSent
  | 0, _, _, h, _ => by cases h
  | n + 1, w, w', h, hw => by
    simp only [triggerLoop, bind_ok] at h
    obtain ⟨best, _, v, hv, h⟩ := h
    have hfirst : v.AllSent := activateStops_sent _ hv (hw.setStops _)
    split at h
    · obtain rfl := pure_ok.mp h
      exact hfirst
    · exact triggerLoop_sent n h hfirst

theorem triggerStop_sent (h : triggerStop w e s = .ok w') (hw : w.AllSent) : w'.AllSent :=
  triggerLoop_sent _ h hw

/-! ### Requests -/

theorem executeArg_sent (h : executeArg w e s = .ok w') (hw : w.AllSent) (harg : w.arg.Sent) :
    w'.AllSent := by
  simp only [executeArg, bind_ok] at h
  obtain ⟨v, hv, h⟩ := h
  have hfirst : v.AllSent := (World.TakerSent.execute (r := .arg) ⟨hw, fun _ => harg⟩ hv).1
  split at h
  · obtain ⟨u, hu, h⟩ := bind_ok.mp h
    exact triggerStop_sent h (triggerStop_sent hu hfirst)
  · obtain rfl := pure_ok.mp h
    exact hfirst

theorem rejectArg_sent (st : OrderStatus) (hw : w.AllSent) : (rejectArg w e st).AllSent :=
  World.AllSent.callback (w := w.setArg _) hw

/-- `init_new_order` leaves the maps and what the request says. -/
theorem initNewOrder_sent (hw : w.AllSent) (harg : w.arg.Sent) :
    (initNewOrder w).AllSent ∧ (initNewOrder w).arg.Sent := by
  simp only [initNewOrder]
  split
  · exact ⟨hw, harg.congr rfl rfl rfl⟩
  · exact ⟨hw, harg.congr rfl rfl rfl⟩

theorem registerStop_sent (hw : w.AllSent) (harg : w.arg.Sent) : (registerStop w e s).AllSent := by
  unfold registerStop
  refine World.AllSent.upd hw fun g j o' ho' => ?_
  rcases OrdMap.of_find?_emplace ho' with hold | ⟨_, rfl⟩
  · exact .inl hold
  · exact .inr harg

theorem newPlain_sent (h : newPlain w e s = .ok w') (hw : w.AllSent) (harg : w.arg.Sent) :
    w'.AllSent := by
  obtain ⟨hinit, hinitArg⟩ := initNewOrder_sent hw harg
  simp only [newPlain] at h
  split at h
  · obtain rfl := pure_ok.mp h
    exact rejectArg_sent _ hinit
  · exact executeArg_sent h hinit hinitArg

theorem executeLeg_sent (h : executeLeg w e s = .ok w') (hw : w.AllSent) (harg : w.arg.Sent) :
    w'.AllSent :=
  executeArg_sent (w := w.setArg _) h hw (harg.congr rfl rfl rfl)

theorem newStop_sent (h : newStop w e s = .ok w') (hw : w.AllSent) (harg : w.arg.Sent) :
    w'.AllSent := by
  simp only [newStop, bind_ok] at h
  obtain ⟨best, _, h⟩ := h
  have hset : (w.setArg { w.arg with price := stopPrice }).AllSent := hw
  split at h
  · obtain rfl := pure_ok.mp h
    exact rejectArg_sent _ hset
  · obtain ⟨hinit, hinitArg⟩ := initNewOrder_sent hset (harg.congr rfl rfl rfl)
    split at h
    · exact executeLeg_sent h hinit hinitArg
    · obtain rfl := pure_ok.mp h
      exact (registerStop_sent hinit hinitArg).callback

theorem newBuySellStop_sent (h : newBuySellStop w e = .ok w') (hw : w.AllSent) (harg : w.arg.Sent) :
    w'.AllSent := by
  simp only [newBuySellStop, bind_ok] at h
  obtain ⟨bestA, _, bestB, _, h⟩ := h
  have hset : (w.setArg { w.arg with price := stopPrice }).AllSent := hw
  split at h
  · obtain rfl := pure_ok.mp h
    exact rejectArg_sent _ hset
  split at h
  · obtain rfl := pure_ok.mp h
    exact rejectArg_sent _ hset
  obtain ⟨hinit, hinitArg⟩ := initNewOrder_sent hset (harg.congr rfl rfl rfl)
  split at h
  · exact executeLeg_sent h hinit hinitArg
  split at h
  · exact executeLeg_sent h hinit hinitArg
  · obtain rfl := pure_ok.mp h
    exact (registerStop_sent (registerStop_sent hinit hinitArg) hinitArg).callback

theorem handleNew_sent (h : handleNew w e = .ok w') (hw : w.AllSent)
    (hnew : w.arg.orderAction = .new) (hs : ¬w.arg.Stray) :
    w'.AllSent := by
  rw [handleNew, if_pos hnew] at h
  have hset : (w.setArg { w.arg with orderId := 0 }).AllSent := hw
  have hsent : (∀ c, w.arg.side ≠ .other c) → (w.setArg { w.arg with orderId := 0 }).arg.Sent :=
    fun hc => Order.Sent.congr (o := w.arg) ⟨.inl hnew, hc, hs⟩ rfl rfl rfl
  simp only [newChecked] at h
  split at h
  · obtain rfl := pure_ok.mp h
    exact rejectArg_sent _ hset
  split at h
  · obtain rfl := pure_ok.mp h
    exact rejectArg_sent _ hset
  have hknown : ∀ {x : OrderSide}, w.arg.side = x → (∀ c, x ≠ .other c) →
      (w.setArg { w.arg with orderId := 0 }).arg.Sent :=
    fun hx hc => hsent fun c => hx ▸ hc c
  split at h
  · exact newPlain_sent h hset (hknown ‹_› fun c => by simp)
  · exact newPlain_sent h hset (hknown ‹_› fun c => by simp)
  · exact newStop_sent h hset (hknown ‹_› fun c => by simp)
  · exact newStop_sent h hset (hknown ‹_› fun c => by simp)
  · exact newBuySellStop_sent h hset (hknown ‹_› fun c => by simp)
  · obtain rfl := pure_ok.mp h
    exact rejectArg_sent _ hset

theorem unlist_sent (h : unlist w e o = .ok w') (hw : w.AllSent) : w'.AllSent := by
  rw [unlist_eq] at h
  split at h
  · obtain ⟨_, rfl | htrig⟩ := unrest_ok h
    · exact hw.setBook _
    · exact triggerStop_sent htrig (hw.setBook _)
  · rename_i ss hl
    obtain ⟨_, rfl⟩ := unstops_ok ss (Order.lookup_nodup hl) h
    clear * - hw
    induction ss generalizing w with
    | nil => exact hw
    | cons s ss ih => exact ih (hw.setStops _)

theorem handleCancel_sent {b : Bool} (h : handleCancel w e = .ok (w', b)) (hw : w.AllSent) :
    w'.AllSent := by
  simp only [handleCancel] at h
  split at h
  · have hset : (w.setArg { w.arg with remainQuantity := 0 }).AllSent := hw
    split at h
    · obtain ⟨rfl, -⟩ := Prod.mk.inj (pure_ok.mp h)
      exact World.AllSent.callback (w := w.setArg _) hw
    · obtain ⟨rfl, -⟩ := Prod.mk.inj (pure_ok.mp h)
      exact hw
    · obtain ⟨rfl, -⟩ := Prod.mk.inj (pure_ok.mp h)
      exact hset
  · rename_i ori hori
    simp only [bind_ok, pure_ok, Prod.mk.injEq] at h
    obtain ⟨v, hv, rfl, -⟩ := h
    have hsent : ori.Sent := hw e _ ori hori
    refine World.AllSent.eraseOrder (unlist_sent hv ?_)
    split
    · refine (hw.putOrder ?_).callback
      exact hsent.congr rfl rfl rfl
    · exact hw

theorem handleAmend_sent (h : handleAmend w e = .ok w') (hw : w.AllSent)
    (ha : w.arg.orderAction = .amend) (hs : ¬w.arg.Stray) :
    w'.AllSent := by
  simp only [handleAmend] at h
  split at h
  · obtain rfl := pure_ok.mp h
    exact rejectArg_sent _ hw
  split at h
  · obtain rfl := pure_ok.mp h
    exact rejectArg_sent _ hw
  split at h
  · obtain rfl := pure_ok.mp h
    exact rejectArg_sent _ hw
  rename_i ori hori
  have hsent : ori.Sent := hw e _ ori hori
  have hmarked : ({ ori with orderAction := w.arg.orderAction } : Order).Sent :=
    ⟨.inr ha, hsent.side, hsent.stray⟩
  have hput : (w.putOrder e w.arg.orderId { ori with orderAction := w.arg.orderAction }).AllSent :=
    hw.putOrder hmarked
  split at h
  · obtain rfl := pure_ok.mp h
    refine (hput.putOrder ?_).callback
    exact hmarked.congr rfl rfl rfl
  · obtain ⟨⟨v, b⟩, hv, h⟩ := bind_ok.mp h
    have hv' : v.AllSent := handleCancel_sent hv hput
    simp only at h
    split at h
    · have hstate : cancelState w.arg.orderAction = some .canceledByAmend := by rw [ha]; rfl
      obtain ⟨_, harg, _⟩ := handleCancel_found w.arg.orderAction rfl hstate hori hv
      refine handleNew_sent (w := v.setArg _) h hv' rfl fun hstray => hs ?_
      rw [← harg]
      exact hstray
    · obtain rfl := pure_ok.mp h
      exact hv'

/-- A trading request leaves sent orders only. -/
theorem handle_sent (ht : q.IsTrade) (h : handle w e q = .ok w') (hw : w.AllSent) : w'.AllSent := by
  obtain ⟨held, _, ⟨_, rfl⟩ | ⟨hs, v, hv, rfl⟩⟩ := handle_cases h
  · exact hw
  · have hent : (w.enter e q held).AllSent := hw.congr fun l => World.store_enter ..
    have harg : (w.enter e q held).arg = q := World.arg_enter ..
    refine World.AllSent.congr (w := v) ?_ fun l => by rw [World.store_unlock, World.store_flush]
    rcases ht with ha | ha | ha
    · simp only [dispatch, harg, ha] at hv
      exact handleNew_sent hv hent (harg.symm ▸ ha) (harg.symm ▸ hs)
    · simp only [dispatch, harg, ha, bind_ok, pure_ok] at hv
      obtain ⟨⟨u, b⟩, hu, rfl⟩ := hv
      exact handleCancel_sent hu hent
    · simp only [dispatch, harg, ha] at hv
      exact handleAmend_sent hv hent (harg.symm ▸ ha) (harg.symm ▸ hs)

theorem World.Fresh.allSent (h : w.Fresh) : w.AllSent := fun l id o ho => by
  rw [h.store] at ho
  cases ho

end Matching
