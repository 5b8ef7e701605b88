import Matching.Engine.Reports

/-! An AMEND that is turned away changes nothing, unless it names an order it cannot change in place
    and carries prices or a side `handle_new` does not accept: then the order is cancelled before
    its replacement is looked at. -/

namespace Matching

variable {w w' : World} {e : ℕ} {q o : Order}

/-! ### No live order is in a REJECT state -/

/-- The request puts an order in as it is. -/
def Order.Restores (q : Order) : Prop := ¬q.IsTrade ∧ q.orderAction ≠ .dump

theorem World.Sane.report (h : w.Sane) (o : Order) : ((w.setArg o).callback e o).Sane :=
  World.Sane.callback (w := w.setArg o) h e o

theorem World.Sane.ackCancel {id : ℕ} {st : OrderStatus} (h : w.Sane) (hst : st.isReject = false) :
    (w.ackCancel e id o st).Sane :=
  World.Sane.callback (h.putOrder (o := { o with orderState := st }) hst) e _

theorem cancelState_accepted {a : OrderAction} {st : OrderStatus} (h : cancelState a = some st) :
    st.isReject = false := by
  revert h
  cases a <;> rintro ⟨⟩ <;> rfl

theorem World.Sane.dropStops (o : Order) :
    ∀ (ss : List Side) {w : World}, w.Sane → (w.dropStops e o ss).Sane
  | [], _, h => h
  | s :: ss, _, h => World.Sane.dropStops o ss (Plain.collect h s _).sane

theorem Opening.sane {y : World × List Held} (h : Opening e q w y) (hw : w.Sane) : y.1.Sane := by
  cases h with
  | same => exact hw
  | refused => exact hw.report _
  | @amended o a hf _ _ =>
    have ho : (amendInPlace { o with orderAction := a } q).Accepted := hw e _ o hf
    exact World.Sane.callback (hw.putOrder ho) e _
  | unbooked hf hst => exact (Plain.setBook (hw.ackCancel (cancelState_accepted hst)) _ _).sane
  | unstopped hf hst => exact World.Sane.dropStops _ _ (hw.ackCancel (cancelState_accepted hst))

theorem Order.From.accepted {n : ℕ} (h : o.From q n) : o.Accepted := by
  rw [Order.Accepted, h.eq]; rfl

theorem Step.sane {x y : World × List Held} (h : Step e q x y) (hx : x.1.Sane) : y.1.Sane := by
  cases h with
  | arg => exact hx
  | bump => exact hx
  | reject => exact World.Sane.report hx _
  | @taker w _ _ o s ho _ hex =>
    have hw : (w.bumpId.setArg o).Sane := hx
    exact (Plain.execute hw (fun _ => ho.accepted) hex).sane
  | @fire w _ _ o s id ho hex =>
    have hacc : Order.Accepted { o with price := o.stopLimit s } := hx e id o ho
    have hw : (w.putOrder e id { o with price := o.stopLimit s }).Sane :=
      World.Sane.putOrder hx hacc
    exact (Plain.execute hw (fun hr => by cases hr) hex).sane
  | collect s hit => exact (Plain.collect hx s _).sane
  | @register w _ o ho =>
    have hw : (w.bumpId.setArg o).Sane := hx
    exact World.Sane.callback (Plain.register hw ho.accepted _).sane e _
  | drop => exact World.Sane.eraseOrder hx

/-! ### What an amend does -/

/-- The amend, if it names an order that it cannot change in place, is not turned
    away by `handle_new`. -/
def AmendChecked (w : World) (e : ℕ) (q : Order) : Prop :=
  ∀ o, w.order? e q.orderId = some o → ¬q.BadAmend → ¬q.Stray → canAmend q o = false → ¬q.TurnedAway

/-- When the last report of the call turns the request away, the call has changed no container of
    any engine, cancelled no order and executed none, and so activated no stop. -/
def AmendAtomic (w w' : World) (e : ℕ) : Prop := ∀ os, w'.heardBy e = w.heardBy e ++ os →
  (∃ o, os.getLast? = some o ∧ o.orderState.isReject = true) →
    (∀ l, w'.store l = w.store l) ∧ (∀ o ∈ os, o.orderState ≠ .canceledByAmend) ∧ w'.execs = w.execs

/-- The order is withdrawn for its replacement: reported as cancelled and taken out of its book. -/
structure Withdrawn (w : World) (e : ℕ) (v : World) : Prop where
  sane : v.Sane
  emits : ∃ rs, Emits w v rs ∧ (∀ x ∈ rs, x.2.Accepted) ∧ ∃ c : Order, (e, c) ∈ rs ∧
    c.orderState = .canceledByAmend

/-- `handle_cancel` of a live order for an amend. -/
theorem handleCancel_withdraws {v : World} {b : Bool} (hw : w.Sane)
    (ha : w.arg.orderAction = .amend) (ho : w.order? e w.arg.orderId = some o)
    (h : handleCancel w e = .ok (v, b)) : Withdrawn w e v ∧ b = true := by
  have hst : cancelState w.arg.orderAction = some .canceledByAmend := by rw [ha]; rfl
  rw [handleCancel_unlist ho hst] at h
  simp only [bind_ok, pure_ok, Prod.mk.injEq] at h
  obtain ⟨u, hu, rfl, rfl⟩ := h
  have hack : (w.ackCancel e w.arg.orderId o .canceledByAmend).Sane := hw.ackCancel rfl
  have hrep : Emits w (w.ackCancel e w.arg.orderId o .canceledByAmend)
      [(e, { o with orderState := .canceledByAmend })] :=
    (Emits.upd w e _).trans (Emits.callback _ e _)
  have hlist := Plain.unlist hack hu
  obtain ⟨rs, hem, hrs⟩ := hlist.emits
  refine ⟨⟨hlist.sane.eraseOrder, _, (hrep.trans hem).trans (Emits.upd u e _), fun x hx => ?_,
    { o with orderState := .canceledByAmend }, ?_, rfl⟩, rfl⟩
  · rw [List.append_nil] at hx
    rcases List.mem_cons.mp hx with rfl | hx
    · rfl
    · exact hrs x hx
  · exact List.mem_append_left _ (List.mem_append_left _ (List.mem_singleton_self _))

theorem handleAmend_ends (hw : w.Sane) (ha : w.arg.orderAction = .amend)
    (h : handleAmend w e = .ok w') :
    (∃ st, w' = rejectArg w e st ∧ st.isReject = true ∧
      (w.arg.BadAmend ∨ w.order? e w.arg.orderId = none)) ∨
    (∃ o : Order, w.order? e w.arg.orderId = some o ∧ canAmend w.arg o = true ∧ Plain w w') ∨
    (∃ o v, w.order? e w.arg.orderId = some o ∧ ¬w.arg.BadAmend ∧ canAmend w.arg o = false ∧
      Withdrawn w e v ∧ newChecked v e = .ok w' ∧ v.arg =
        { w.arg with clientOrderId := o.clientOrderId, orderId := 0, orderAction := .new }) := by
  unfold handleAmend at h
  split at h
  · rename_i hq
    obtain rfl := pure_ok.mp h
    exact Or.inl ⟨_, rfl, rfl, Or.inl ⟨ha, Or.inl hq⟩⟩
  rename_i hq
  split at h
  · rename_i hd
    obtain rfl := pure_ok.mp h
    exact Or.inl ⟨_, rfl, rfl, Or.inl ⟨ha, Or.inr hd⟩⟩
  rename_i hd
  rcases hf : w.order? e w.arg.orderId with _ | o
  · simp only [hf] at h
    obtain rfl := pure_ok.mp h
    exact Or.inl ⟨_, rfl, rfl, Or.inr rfl⟩
  right
  have hacc : Order.Accepted { o with orderAction := w.arg.orderAction } := hw e _ o hf
  simp only [hf] at h
  set v := w.putOrder e w.arg.orderId { o with orderAction := w.arg.orderAction } with hv
  have hvs : v.Sane := hw.putOrder hacc
  have hput : Emits w v [] := Emits.upd w e _
  split at h
  · rename_i hc
    obtain rfl := pure_ok.mp h
    have hnew : (amendInPlace { o with orderAction := w.arg.orderAction } w.arg).Accepted := hacc
    exact Or.inl ⟨o, rfl, hc,
      (Plain.silent (hvs.putOrder hnew) (hput.trans (Emits.upd v e _))).report hnew e⟩
  · rename_i hc
    obtain ⟨⟨u, b⟩, hu, h⟩ := bind_ok.mp h
    have ho : v.order? e v.arg.orderId = some { o with orderAction := w.arg.orderAction } := by
      simp [hv]
    obtain ⟨hwith, rfl⟩ := handleCancel_withdraws hvs ha ho hu
    have hfound : (w.store e).odrMap.find? w.arg.orderId = some o := hf
    have harg : u.arg = w.arg := (handleCancel_found _ rfl (by rw [ha]; rfl) hfound hu).2.1
    simp only [if_true] at h
    obtain ⟨rs, hem, hrs⟩ := hwith.emits
    refine Or.inr ⟨o,
      (u.setArg { u.arg with clientOrderId := o.clientOrderId, orderId := 0, orderAction := .new }),
      rfl, fun hb => hb.2.elim hq hd, Bool.eq_false_iff.mpr hc, ⟨hwith.sane, rs, ?_, hrs⟩,
      h, by rw [World.arg_setArg, harg]⟩
    simpa using (hput.trans hem).trans (Emits.setArg u _)

/-! ### Whole calls -/

theorem World.Sane.enter (h : w.Sane) (held : ℕ → Bool) : (w.enter e q held).Sane :=
  h.of_find fun _ _ _ ho => Or.inl (by simpa using ho)

/-- What the callback of the engine gets of a call. -/
theorem heardBy_handle {v : World} {held : ℕ → Bool} {rs : List (ℕ × Order)} (hidle : w.Idle)
    (hem : Emits (w.enter e q held) v rs) :
    ∃ c, (unlock (flushAuction v e) e).heardBy e = w.heardBy e ++ heard e c rs := by
  obtain ⟨c, hc⟩ := heardBy_leave ((w.cbRecords_enter e e q held).trans (hidle.cbRecords e)) hem
  have hstart : (w.enter e q held).heardBy e = w.heardBy e := by
    rw [World.heardBy, World.reports_enter, World.heardBy]
  exact ⟨c, by rw [hc, hstart]⟩

theorem mem_heard {c : Option ℤ} {rs : List (ℕ × Order)} :
    o ∈ heard e c rs ↔ ∃ x, (e, x) ∈ rs ∧ x.priced c = o := by
  simp only [heard, List.mem_map, List.mem_filter, decide_eq_true_eq]
  constructor
  · rintro ⟨⟨l, x⟩, ⟨hx, rfl⟩, rfl⟩
    exact ⟨x, hx, rfl⟩
  · rintro ⟨x, hx, rfl⟩
    exact ⟨(e, x), ⟨hx, rfl⟩, rfl⟩

/-- A call whose reports turn nothing away. -/
theorem atomic_of_accepted {c : Option ℤ} {rs : List (ℕ × Order)}
    (hheard : w'.heardBy e = w.heardBy e ++ heard e c rs) (hrs : ∀ x ∈ rs, x.2.Accepted) :
    AmendAtomic w w' e := by
  rintro os hos ⟨o, ho, hrej⟩
  obtain rfl := List.append_cancel_left (hos.symm.trans hheard)
  obtain ⟨x, hx, rfl⟩ := mem_heard.mp (List.mem_of_getLast? ho)
  rw [Order.orderState_priced, hrs _ hx] at hrej
  cases hrej

/-- A call that only turns the request away. -/
theorem atomic_of_refused (hheard : w'.heardBy e = w.heardBy e ++ [o])
    (ho : o.orderState.isReject = true) (hstore : ∀ l, w'.store l = w.store l)
    (hexecs : w'.execs = w.execs) : AmendAtomic w w' e := by
  intro os hos _
  obtain rfl := List.append_cancel_left (hos.symm.trans hheard)
  refine ⟨hstore, fun x hx => ?_, hexecs⟩
  obtain rfl := List.mem_singleton.mp hx
  intro hc
  rw [hc] at ho
  cases ho

/-- A call that withdraws the order and then turns its replacement away. -/
theorem not_atomic {c : Option ℤ} {rs : List (ℕ × Order)} {x y : Order}
    (hheard : w'.heardBy e = w.heardBy e ++ heard e c (rs ++ [(e, y)])) (hx : (e, x) ∈ rs)
    (hc : x.orderState = .canceledByAmend) (hy : y.orderState.isReject = true) :
    ¬AmendAtomic w w' e := by
  intro h
  have hlast : (heard e c (rs ++ [(e, y)])).getLast? = some (y.priced c) := by
    rw [heard_append, heard_self, List.getLast?_append]
    rfl
  obtain ⟨-, hno, -⟩ := h _ hheard ⟨_, hlast, hy⟩
  exact hno (x.priced c) (mem_heard.mpr ⟨x, List.mem_append_left _ hx, rfl⟩) hc

theorem handle_amend_atomic_iff (hidle : w.Idle) (hw : w.Sane) (ha : q.orderAction = .amend)
    (h : handle w e q = .ok w') :
    AmendAtomic w w' e ↔ AmendChecked w e q := by
  obtain ⟨held, -, ⟨hstray, rfl⟩ | ⟨hns, v, hv, rfl⟩⟩ := handle_cases h
  · refine iff_of_true
      (atomic_of_refused (o := { q with orderState := .rejectAuctionSupportBuySellOnly })
      ?_ rfl (fun _ => rfl) rfl) fun _ _ _ hns => absurd hstray hns
    simp [World.heardBy, World.emit, World.setArg]
  have hen := hw.enter (e := e) (q := q) held
  have harg : (w.enter e q held).arg = q := World.arg_enter ..
  have hact : (w.enter e q held).arg.orderAction = .amend := by rw [harg]; exact ha
  have horder : (w.enter e q held).order? e q.orderId = w.order? e q.orderId := by simp
  simp only [dispatch, hact] at hv
  have hends := handleAmend_ends hen hact hv
  rw [harg, horder] at hends
  obtain ⟨st, rfl, hst, hwhy⟩ | ⟨o, ho, hc, hplain⟩ | ⟨o, u, ho, hbad, hc, hwith, hnew, huarg⟩ :=
    hends
  · have hem : Emits (w.enter e q held) (rejectArg (w.enter e q held) e st) _ :=
      (Emits.setArg _ _).trans (Emits.callback _ e _)
    obtain ⟨c, hheard⟩ := heardBy_handle hidle hem
    rw [List.nil_append, heard_self] at hheard
    refine iff_of_true (atomic_of_refused hheard hst (fun l => ?_) ?_) fun o ho hbad => ?_
    · simp [rejectArg]
    · simp [rejectArg]
    · exact hwhy.elim (fun hb => absurd hb hbad) fun hn => by rw [hn] at ho; cases ho
  · obtain ⟨rs, hem, hrs⟩ := hplain.emits
    obtain ⟨c, hheard⟩ := heardBy_handle hidle hem
    refine iff_of_true (atomic_of_accepted hheard hrs) fun o' ho' _ _ hc' => ?_
    rw [ho] at ho'
    obtain rfl := Option.some.inj ho'
    rw [hc] at hc'
    cases hc'
  · obtain ⟨rs, hem, hrs, x, hx, hxc⟩ := hwith.emits
    have hq : u.arg.quantity = q.quantity := by rw [huarg]
    have hd : u.arg.displayQuantity = q.displayQuantity := by rw [huarg]
    have hpos : q.quantity ≠ 0 := fun h0 => hbad ⟨ha, Or.inl h0⟩
    have hle : q.displayQuantity ≤ q.quantity := not_lt.mp fun hlt => hbad ⟨ha, Or.inr hlt⟩
    have hturn : u.arg.TurnedAway ↔ q.TurnedAway := by rw [huarg]; exact Iff.rfl
    obtain ⟨hrej, hacc⟩ := newChecked_ends (hq ▸ hpos) (by rw [hq, hd]; exact hle) hnew
    rw [hturn] at hrej hacc
    have hchecked : AmendChecked w e q ↔ ¬q.TurnedAway := by
      refine ⟨fun hk => hk o ho hbad hns hc, fun hk _ _ _ _ _ => hk⟩
    rw [hchecked]
    by_cases ht : q.TurnedAway
    · obtain ⟨u', st, rfl, hst, hem'⟩ := hrej ht
      have hlast : Emits u (rejectArg u' e st) _ :=
        (hem'.trans (Emits.setArg _ _)).trans (Emits.callback _ e _)
      obtain ⟨c, hheard⟩ := heardBy_handle hidle (hem.trans hlast)
      exact iff_of_false (not_atomic hheard hx hxc hst) (not_not.mpr ht)
    · obtain ⟨rs', hem', hrs'⟩ := (hacc ht hwith.sane).emits
      obtain ⟨c, hheard⟩ := heardBy_handle hidle (hem.trans hem')
      exact iff_of_true
        (atomic_of_accepted hheard fun x hx => (List.mem_append.mp hx).elim (hrs x) (hrs' x)) ht

/-! ### Reachable worlds -/

theorem Plain.insertResting {s : Side} (hw : w.Sane) (harg : w.arg.Accepted) :
    Plain w (insertResting w e s) := by
  unfold Matching.insertResting
  exact Plain.silent (hw.emplace harg fun g => by cases s <;> rfl) (Emits.upd w e _)

theorem handleDump_sane (hw : w.Sane) : (handleDump w e).Sane := by
  have hfold : ∀ (xs : List (ℕ × Order)) {v : World}, v.Sane →
      (xs.foldl (fun v x => v.emit e (dumpOrder x.2)) v).Sane := by
    intro xs
    induction xs with
    | nil => exact fun h => h
    | cons x xs ih => exact fun {v} h => ih (v := v.emit e (dumpOrder x.2)) h
  exact hfold _ hw

theorem handleInsert_sane (hw : w.Sane) (harg : w.arg.Accepted) : (handleInsert w e).Sane := by
  simp only [handleInsert]
  generalize hv : w.setArg _ = v
  have hvs : v.Sane := by subst hv; exact hw
  have hva : v.arg.Accepted := by subst hv; exact harg
  have hreg : ∀ s, (registerStop (v.setArg { v.arg with price := stopPrice }) e s).Sane := fun s =>
    (Plain.registerStop (w := v.setArg { v.arg with price := stopPrice }) hvs hva).sane
  suffices hin : ∀ u : World, u.Sane → ∀ o, (u.emit e o).Sane by
    refine hin _ ?_ _
    split
    · exact (Plain.insertResting hvs hva).sane
    · exact (Plain.insertResting hvs hva).sane
    · split
      · exact (Plain.insertResting hvs hva).sane
      · exact hreg .buy
    · split
      · exact (Plain.insertResting hvs hva).sane
      · exact hreg .buy
    · exact (Plain.register hvs hva [.buy, .sell]).sane
    · exact hvs
  exact fun u hu _ => hu

theorem dispatch_sane (hw : w.Sane) (hq : w.arg.Restores → w.arg.Accepted)
    (h : dispatch w e = .ok w') : w'.Sane := by
  by_cases ht : w.arg.IsTrade
  · obtain ⟨v, hs, hopen, hsteps⟩ := dispatch_steps rfl ht h
    suffices hall : ∀ {y : World × List Held}, Steps e w.arg (v, hs) y → y.1.Sane from hall hsteps
    intro y hy
    induction hy with
    | refl => exact hopen.sane hw
    | tail _ hstep ih => exact hstep.sane ih
  · have hrestores : w.arg.orderAction ≠ .dump → w.arg.Accepted := fun hd => hq ⟨ht, hd⟩
    simp only [Order.IsTrade, not_or] at ht
    obtain ⟨h1, h2, h3⟩ := ht
    cases ha : w.arg.orderAction <;> simp only [dispatch, ha, Except.ok.injEq] at h
    case new => exact absurd ha h1
    case cancel => exact absurd ha h2
    case amend => exact absurd ha h3
    case dump => exact h ▸ handleDump_sane hw
    all_goals exact h ▸ handleInsert_sane hw (hrestores (by rw [ha]; simp))

theorem handle_sane (hw : w.Sane) (hq : q.Restores → q.Accepted) (h : handle w e q = .ok w') :
    w'.Sane := by
  obtain ⟨held, -, ⟨-, rfl⟩ | ⟨-, v, hv, rfl⟩⟩ := handle_cases h
  · exact hw
  · have hvs : v.Sane := dispatch_sane (hw.enter held) (by rw [World.arg_enter]; exact hq) hv
    exact hvs.of_find fun _ _ _ ho => Or.inl (by simpa using ho)

theorem World.Fresh.sane (h : w.Fresh) : w.Sane := by
  intro l id o ho
  rw [h.store] at ho
  cases ho

/-- A buyer that rests. -/
def amendBuyer : Order := { Order.default with side := .buy, price := 100, quantity := 5 }

/-- An amend of its price, to `p`. -/
def amendTo (p : ℤ) : Order :=
  { amendBuyer with orderAction := .amend, orderId := 1000, price := p }

/-- The report that takes the buyer off the book. -/
def buyerCanceled : Order :=
  { amendBuyer with
    orderId := 1000, remainQuantity := 5, orderAction := .amend, orderState := .canceledByAmend }

/-- The report that turns its replacement away. -/
def replacementRejected : Order :=
  { amendBuyer with
    orderId := 1001, price := marketPrice, orderState := .rejectLimiteOrderWithMarketPrice }

end Matching
