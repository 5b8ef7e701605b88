import Matching.Engine.Calls

/-! What one request reports: the reports passed to `callback` while it is handled, as the callback
    of its engine gets them in the end (`heardBy_leave`). Where no live order is in a REJECT state
    (`World.Sane`), matching and stop activation report none (`Plain`), so such a report tells that
    a request was turned away. -/

namespace Matching

namespace Order

/-- The report of `o` as it is delivered after an auction with the price `c`. -/
def priced (c : Option ℤ) (o : Order) : Order :=
  { o with lastMatchPrice := c.getD o.lastMatchPrice }

variable {o : Order} {c : Option ℤ}

@[simp] theorem orderId_priced : (o.priced c).orderId = o.orderId := rfl
@[simp] theorem orderState_priced : (o.priced c).orderState = o.orderState := rfl

end Order

variable {w w' : World} {e : ℕ} {s : Side} {r : Ref}

/-! ### What the callback gets -/

/-- The reports of engine `e` among `rs`, as they are delivered. -/
def heard (e : ℕ) (c : Option ℤ) (rs : List (ℕ × Order)) : List Order :=
  (rs.filter fun x => x.1 = e).map fun x => x.2.priced c

theorem heard_append (e : ℕ) (c : Option ℤ) (rs rs' : List (ℕ × Order)) :
    heard e c (rs ++ rs') = heard e c rs ++ heard e c rs' := by simp [heard]

@[simp] theorem heard_nil (e : ℕ) (c : Option ℤ) : heard e c [] = [] := rfl

@[simp] theorem heard_self (e : ℕ) (c : Option ℤ) (o : Order) : heard e c [(e, o)] = [o.priced c] :=
  by simp [heard]

/-- What the callback of engine `e` was called with. -/
def World.heardBy (w : World) (e : ℕ) : List Order :=
  (w.reports.filter fun x => x.1 = e).map Prod.snd

theorem auctionRecords_eq (recs : List Order) (o : Order) :
    ∃ c, auctionRecords recs o = recs.map (Order.priced c) := by
  unfold auctionRecords
  split
  · exact ⟨none, (List.map_id recs).symm⟩
  · exact ⟨some _, rfl⟩

/-- What is delivered of the reports of an auction. -/
theorem heardBy_auction {v : World} {rs : List (ℕ × Order)} (ha : (w.engines e).isAuction = true)
    (hcb : (w.engines e).cbRecords = []) (hem : Emits w v rs) :
    (v.engines e).cbRecords = (rs.filter fun x => x.1 = e).map Prod.snd ∧
      (unlock (flushAuction v e) e).heardBy e = w.heardBy e ++ auctionRecords
        ((rs.filter fun x => x.1 = e).map Prod.snd) v.arg := by
  have hrecs : (v.engines e).cbRecords = (rs.filter fun x => x.1 = e).map Prod.snd := by
    rw [hem.cbRecords, hcb, List.nil_append, if_pos ha]
  have hnil : (rs.filter fun x => !(w.engines x.1).isAuction).filter (fun x => x.1 = e) = [] := by
    rw [List.filter_filter, List.filter_eq_nil_iff]
    rintro ⟨l, o⟩ _ hx
    simp only [Bool.and_eq_true, decide_eq_true_eq, Bool.not_eq_true'] at hx
    obtain ⟨rfl, hx⟩ := hx
    rw [ha] at hx
    cases hx
  refine ⟨hrecs, ?_⟩
  rw [World.heardBy, World.reports_unlock, World.reports_flush, hem.reports, hem.auction,
    if_pos ha, hrecs]
  simp only [List.filter_append, hnil, List.append_nil, List.map_append, World.heardBy]
  refine congrArg _ ?_
  rw [List.filter_eq_self.mpr (by simp), List.map_map]
  exact List.map_id _

/-- What is delivered of the reports of one request: all of them, an auction's with one price. -/
theorem heardBy_leave {v : World} {rs : List (ℕ × Order)} (hcb : (w.engines e).cbRecords = [])
    (hem : Emits w v rs) :
    ∃ c, (unlock (flushAuction v e) e).heardBy e = w.heardBy e ++ heard e c rs := by
  by_cases ha : (w.engines e).isAuction
  · obtain ⟨c, hc⟩ := auctionRecords_eq ((rs.filter fun x => x.1 = e).map Prod.snd) v.arg
    refine ⟨c, ?_⟩
    rw [(heardBy_auction ha hcb hem).2, hc, List.map_map]
    rfl
  · have hsame : (rs.filter fun x => !(w.engines x.1).isAuction).filter (fun x => x.1 = e) =
      rs.filter fun x => x.1 = e := by
      rw [List.filter_filter]
      refine List.filter_congr fun x _ => ?_
      by_cases hx : x.1 = e
      · simp [hx, ha]
      · simp [hx]
    refine ⟨none, ?_⟩
    rw [World.heardBy, World.reports_unlock, World.reports_flush, hem.reports, hem.auction]
    simp only [ha, Bool.false_eq_true, if_false, List.append_nil, List.filter_append, hsame,
      List.map_append, World.heardBy, heard]
    rfl

/-- The one report of a call, as it is delivered. -/
theorem reports_leave {v : World} {o : Order} (hcb : (w.engines e).cbRecords = [])
    (hem : Emits w v [(e, o)]) :
    ∃ p, (unlock (flushAuction v e) e).reports = w.reports ++ [(e, o.priced p)] := by
  rw [World.reports_unlock, World.reports_flush, hem.reports, hem.auction, hem.cbRecords, hcb,
    List.nil_append]
  by_cases ha : (w.engines e).isAuction
  · obtain ⟨p, hp⟩ := auctionRecords_eq [o] v.arg
    exact ⟨p, by simp [ha, hp]⟩
  · exact ⟨none, by simp [ha, Order.priced]⟩

/-! ### What a step reports -/

/-- The state of a fill report. -/
def OrderStatus.IsFill (st : OrderStatus) : Prop := st = .filled ∨ st = .partialFill

instance (st : OrderStatus) : Decidable st.IsFill := inferInstanceAs (Decidable (_ ∨ _))

theorem engineMatch_isFill (o : Order) (t : MatchedType) (mid : ℕ) (p : ℤ) (k a b : ℕ) :
    (engineMatch o t mid p k a b).orderState.IsFill := by
  simp only [engineMatch, Order.updateDisplay, OrderStatus.IsFill]
  split <;> simp

theorem Act.emits {T : ℕ → Prop} (h : Act T e r w w') : ∃ rs, Emits w w' rs := by
  cases h with
  | bump => exact ⟨_, Emits.bumpId w⟩
  | fill => exact ⟨_, (Emits.upd w _ _).trans (Emits.callback ..)⟩
  | unbook => exact ⟨_, Emits.upd w _ _⟩
  | erase => exact ⟨_, Emits.upd w _ _⟩
  | take => exact ⟨_, (Emits.writeRef w e r _).trans (Emits.callback ..)⟩
  | kill => exact ⟨_, (Emits.writeRef w e r _).trans (Emits.callback ..)⟩
  | price => exact ⟨_, Emits.writeRef w e r _⟩
  | rest => exact ⟨_, Emits.upd w e _⟩
  | report => exact ⟨_, Emits.callback w e _⟩

theorem Acts.emits {T : ℕ → Prop} (h : Acts T e r w w') : ∃ rs, Emits w w' rs := by
  induction h with
  | refl => exact ⟨[], Emits.refl w⟩
  | tail _ hact ih =>
    obtain ⟨rs, hrs⟩ := ih
    obtain ⟨rs', hrs'⟩ := hact.emits
    exact ⟨rs ++ rs', hrs.trans hrs'⟩

theorem execute_emits (h : execute w e s r = .ok w') : ∃ rs, Emits w w' rs := by
  obtain ⟨o, _, hacts⟩ :=
    Acts.execute (T := fun _ => True) trivial (fun _ _ => ⟨trivial, trivial⟩) h
  obtain ⟨rs, hrs⟩ := hacts.emits
  exact ⟨[] ++ rs, (Emits.logExec w e s r o).trans hrs⟩

theorem Iter.erase_emits {it it' : Iter} (h : it.erase w = .ok (w', it')) :
    Emits w w' [] ∧ w'.arg = w.arg := by
  rcases hc : it.cur with _ | c
  · simp only [Iter.erase, hc, Except.ok.injEq, Prod.mk.injEq] at h
    obtain ⟨rfl, -⟩ := h
    exact ⟨Emits.refl w, rfl⟩
  · simp only [Iter.erase, hc, bind_ok, pure_ok, Prod.mk.injEq] at h
    obtain ⟨o, _, it2, _, rfl, rfl⟩ := h
    exact ⟨(Emits.upd w _ _).trans (Emits.upd _ _ _), rfl⟩

/-- A maker's fill is one report; the request's order is left alone. -/
theorem makerMatch_report {it it' : Iter} {mid k a b : ℕ}
    (h : it.makerMatch w mid k a b = .ok (w', it')) :
    ∃ o, Emits w w' [(it.engine, engineMakerMatch o mid k a b)] ∧ w'.arg = w.arg := by
  rcases hc : it.cur with _ | c
  · simp only [Iter.makerMatch, hc, reduceCtorEq] at h
  simp only [Iter.makerMatch, hc, bind_ok] at h
  obtain ⟨o, _, h⟩ := h
  have hem : Emits w
      ((w.putOrder it.engine c.id (engineMakerMatch o mid k a b)).callback it.engine
      (engineMakerMatch o mid k a b)) [(it.engine, engineMakerMatch o mid k a b)] :=
      (Emits.upd w _ _).trans (Emits.callback ..)
  split at h
  · obtain ⟨herase, harg⟩ := Iter.erase_emits h
    exact ⟨o, hem.trans herase, harg.trans (World.arg_callback ..)⟩
  · obtain ⟨rfl, -⟩ := Prod.mk.inj (pure_ok.mp h)
    exact ⟨o, hem, World.arg_callback ..⟩

/-- The taker's fill is one report, of the order as it then is. -/
theorem takerMatch_report {mid k a b : ℕ} {p : ℤ} (h : takerMatch w e r mid p k a b = .ok w') :
    ∃ o, w.readRef e r = .ok o ∧ Emits w w' [(e, engineMatch o .taker mid p k a b)] ∧
      w'.readRef e r = .ok (engineMatch o .taker mid p k a b) := by
  simp only [takerMatch, bind_ok, pure_ok] at h
  obtain ⟨o, ho, rfl⟩ := h
  refine ⟨o, ho, (Emits.writeRef w e r _).trans (Emits.callback ..), ?_⟩
  rw [World.readRef_callback, World.readRef_writeRef]

/-- An execution step reports its makers and, last, its taker, all of them under one new id. -/
theorem executeStep_reports {rec : MatchedRecord} {x : Iter × Option Iter}
    (h : executeStep w e r rec = .ok (w', x)) :
    ∃ y ms o t, Emits w w' (y :: (ms ++ [(e, t)])) ∧
      (∀ z ∈ y :: (ms ++ [(e, t)]), z.2.matchedId = w.nextId ∧ z.2.orderState.IsFill) ∧
      (∃ a b, t = engineMatch o .taker w.nextId rec.matchedPrice rec.matchedQuantity a b) ∧
        w'.readRef e r = .ok t ∧
      (r = .arg → o = w.arg) := by
  have hread : ∀ {v : World} {o : Order}, v.arg = w.arg → v.readRef e r = .ok o → r = .arg →
      o = w.arg := by
    rintro v o hv ho rfl
    exact (Except.ok.inj ho).symm.trans hv
  simp only [executeStep, bind_ok] at h
  obtain ⟨o, _, h⟩ := h
  split at h
  · simp only [bind_ok, pure_ok, Prod.mk.injEq] at h
    obtain ⟨_, _, ⟨w1, it1⟩, h1, w2, h2, rfl, rfl⟩ := h
    obtain ⟨m, hm, harg⟩ := makerMatch_report h1
    obtain ⟨o', ho', ht, hrd⟩ := takerMatch_report h2
    refine ⟨_, [], o', _, ((Emits.bumpId w).trans hm).trans ht, ?_, ⟨_, _, rfl⟩, hrd,
      hread harg ho'⟩
    intro z hz
    rcases List.mem_cons.mp hz with rfl | hz
    · exact ⟨rfl, engineMatch_isFill ..⟩
    · obtain rfl := List.mem_singleton.mp hz
      exact ⟨rfl, engineMatch_isFill ..⟩
  · simp only [bind_ok, pure_ok, Prod.mk.injEq] at h
    obtain ⟨_, _, _, _, ⟨w1, it1⟩, h1, ⟨w2, it2⟩, h2, w3, h3, rfl, rfl⟩ := h
    obtain ⟨m, hm, harg⟩ := makerMatch_report h1
    obtain ⟨m', hm', harg'⟩ := makerMatch_report h2
    obtain ⟨o', ho', ht, hrd⟩ := takerMatch_report h3
    refine ⟨_, [_], o', _, (((Emits.bumpId w).trans hm).trans hm').trans ht, ?_, ⟨_, _, rfl⟩, hrd,
      hread (harg'.trans harg) ho'⟩
    intro z hz
    rcases List.mem_cons.mp hz with rfl | hz
    · exact ⟨rfl, engineMatch_isFill ..⟩
    rcases List.mem_cons.mp hz with rfl | hz
    · exact ⟨rfl, engineMatch_isFill ..⟩
    · obtain rfl := List.mem_singleton.mp hz
      exact ⟨rfl, engineMatch_isFill ..⟩

/-! ### Reports that turn nothing away -/

/-- The order is in none of the states a request is turned away with. -/
def Order.Accepted (o : Order) : Prop := o.orderState.isReject = false

/-- No live order is in such a state. -/
def World.Sane (w : World) : Prop := ∀ l id o, (w.store l).odrMap.find? id = some o → o.Accepted

/-- No live order of `w'` is in such a state, and none was reported since `w`. -/
structure Plain (w w' : World) : Prop where
  sane : w'.Sane
  emits : ∃ rs, Emits w w' rs ∧ ∀ x ∈ rs, x.2.Accepted

theorem engineMatch_accepted (o : Order) (t : MatchedType) (m : ℕ) (p : ℤ) (q a b : ℕ) :
    (engineMatch o t m p q a b).Accepted := by
  simp only [Order.Accepted, engineMatch, Order.updateDisplay]
  split <;> rfl

namespace World.Sane

variable {l id : ℕ} {o : Order}

theorem of_find (h : w.Sane)
    (hf : ∀ l id o, (w'.store l).odrMap.find? id = some o →
      (w.store l).odrMap.find? id = some o ∨ o.Accepted) : w'.Sane :=
  fun l id o ho => (hf l id o ho).elim (h l id o) fun ha => ha

theorem putOrder (h : w.Sane) (ho : o.Accepted) : (w.putOrder l id o).Sane := by
  refine h.of_find fun l' id' o' ho' => ?_
  rw [World.putOrder_eq, World.store_upd] at ho'
  split_ifs at ho' with hl
  · rw [Store.odrMap_withMap, OrdMap.find?_insert] at ho'
    split_ifs at ho'
    · exact Or.inr (Option.some.inj ho' ▸ ho)
    · exact Or.inl (hl ▸ ho')
  · exact Or.inl ho'

theorem eraseOrder (h : w.Sane) : (w.eraseOrder l id).Sane := by
  refine h.of_find fun l' id' o' ho' => ?_
  rw [World.eraseOrder_eq, World.store_upd] at ho'
  split_ifs at ho' with hl
  · rw [Store.odrMap_withMap, OrdMap.find?_erase] at ho'
    split_ifs at ho'
    exact Or.inl (hl ▸ ho')
  · exact Or.inl ho'

/-- The containers of an engine with an order added, whatever becomes of its books. -/
theorem emplace (h : w.Sane) (ho : o.Accepted) {f : Store → Store}
    (hf : ∀ g, (f g).odrMap = g.odrMap.emplace o.orderId o) : (w.upd l f).Sane := by
  refine h.of_find fun l' id' o' ho' => ?_
  rw [World.store_upd] at ho'
  split_ifs at ho' with hl
  · rw [hf, OrdMap.find?_emplace] at ho'
    split_ifs at ho' with hid
    · rcases hfind : (w.store l).odrMap.find? o.orderId with _ | m
      · rw [hfind] at ho'
        exact Or.inr (Option.some.inj ho' ▸ ho)
      · rw [hfind] at ho'
        exact Or.inl (by rw [hl, hid, hfind]; exact ho')
    · exact Or.inl (hl ▸ ho')
  · exact Or.inl ho'

theorem callback (h : w.Sane) (l : ℕ) (o : Order) : (w.callback l o).Sane :=
  h.of_find fun _ _ _ ho => Or.inl (by simpa using ho)

theorem writeRef (h : w.Sane) (ho : o.Accepted) : (w.writeRef l r o).Sane := by
  cases r with
  | arg => exact h
  | entry id => exact h.putOrder ho

theorem readRef (h : w.Sane) (harg : r = .arg → w.arg.Accepted) (ho : w.readRef e r = .ok o) :
    o.Accepted := by
  cases r with
  | arg =>
    obtain rfl := Except.ok.inj ho
    exact harg rfl
  | entry id => exact h e id o (by simpa [World.readRef, World.deref] using ho)

end World.Sane

namespace Plain

variable {w'' : World} {T : ℕ → Prop} {o : Order}

theorem silent (h : w'.Sane) (he : Emits w w' []) : Plain w w' :=
  ⟨h, [], he, fun _ hx => nomatch hx⟩

theorem refl (h : w.Sane) : Plain w w := silent h (Emits.refl w)

theorem trans (h : Plain w w') (h' : Plain w' w'') : Plain w w'' := by
  obtain ⟨rs, he, hrs⟩ := h.emits
  obtain ⟨rs', he', hrs'⟩ := h'.emits
  exact ⟨h'.sane, rs ++ rs', he.trans he',
    fun x hx => (List.mem_append.mp hx).elim (hrs x) (hrs' x)⟩

/-- One more report. -/
theorem report (h : Plain w w') (ho : o.Accepted) (l : ℕ) : Plain w (w'.callback l o) :=
  h.trans ⟨h.sane.callback l o, _, Emits.callback w' l o, fun _ hx => List.mem_singleton.mp hx ▸ ho⟩

theorem upd (h : w.Sane) {l : ℕ} {f : Store → Store} (hf : ∀ g, (f g).odrMap = g.odrMap) :
    Plain w (w.upd l f) := by
  refine silent (h.of_find fun l' id o ho => Or.inl ?_) (Emits.upd w l f)
  rw [World.store_upd] at ho
  split_ifs at ho with hl
  · rw [hf] at ho
    exact hl ▸ ho
  · exact ho

theorem write (h : w.Sane) (ho : o.Accepted) : Plain w (w.writeRef e r o) :=
  silent (h.writeRef ho) (Emits.writeRef w e r o)

/-- The taker is written and reported. -/
theorem write_report (h : w.Sane) (ho : o.Accepted) : Plain w ((w.writeRef e r o).callback e o) ∧
    (r = .arg → ((w.writeRef e r o).callback e o).arg.Accepted) := by
  refine ⟨(write h ho).report ho e, ?_⟩
  rintro rfl
  rw [World.arg_callback]
  exact ho

theorem act (h : w.Sane) (harg : r = .arg → w.arg.Accepted) (hact : Act T e r w w') :
    Plain w w' ∧ (r = .arg → w'.arg.Accepted) := by
  cases hact with
  | bump => exact ⟨silent h (Emits.bumpId w), harg⟩
  | @fill l id m hl hm mid q a b =>
    have hm' := engineMatch_accepted m .maker mid m.price q a b
    refine ⟨(silent (h.putOrder hm') (Emits.upd w l _)).report hm' l, fun hr => ?_⟩
    rw [World.arg_callback]
    exact harg hr
  | unbook hl t p id => exact ⟨upd h fun g => by cases t <;> rfl, harg⟩
  | erase => exact ⟨silent h.eraseOrder (Emits.upd w _ _), harg⟩
  | take => exact write_report h (engineMatch_accepted ..)
  | kill ho hst => exact write_report h hst
  | @price o ho p =>
    have hacc : o.Accepted := h.readRef harg ho
    have ho' : Order.Accepted { o with price := p } := hacc
    refine ⟨write h ho', ?_⟩
    rintro rfl
    exact ho'
  | rest ho t => exact ⟨silent (h.emplace (h.readRef harg ho) fun g => rfl) (Emits.upd w e _), harg⟩
  | report ho =>
    refine ⟨(refl h).report (h.readRef harg ho) e, fun hr => ?_⟩
    rw [World.arg_callback]
    exact harg hr

/-- An execution of a taker that is not turned away reports plainly. -/
theorem execute (h : w.Sane) (harg : r = .arg → w.arg.Accepted) (hex : execute w e s r = .ok w') :
    Plain w w' := by
  obtain ⟨o, _, hacts⟩ :=
    Acts.execute (T := fun _ => True) trivial (fun _ _ => ⟨trivial, trivial⟩) hex
  have hlog : Plain w (w.logExec e s r o) := silent h (Emits.logExec w e s r o)
  suffices hrun : Plain w w' ∧ (r = .arg → w'.arg.Accepted) from hrun.1
  clear hex
  induction hacts with
  | refl => exact ⟨hlog, harg⟩
  | tail _ hact ih =>
    obtain ⟨hp, ha⟩ := act ih.1.sane ih.2 hact
    exact ⟨ih.1.trans hp, ha⟩

/-! ### Stops -/

theorem collect (h : w.Sane) (s : Side) (b : Book) : Plain w (w.setStops e s b) :=
  upd h fun g => by cases s <;> rfl

theorem setBook (h : w.Sane) (s : Side) (b : Book) : Plain w (w.setBook e s b) :=
  upd h fun g => by cases s <;> rfl

theorem activateStops :
    ∀ (ids : List ℕ) {w : World}, w.Sane → activateStops e s w ids = .ok w' → Plain w w'
  | [], w, h, hrun => by
    obtain rfl := Except.ok.inj hrun
    exact refl h
  | id :: ids, w, h, hrun => by
    simp only [Matching.activateStops, activateStop, bind_ok] at hrun
    obtain ⟨v, ⟨o, ho, hex⟩, hrest⟩ := hrun
    have hacc : o.Accepted := h e id o (by simpa [World.deref] using ho)
    have hput : Plain w (w.putOrder e id { o with price := o.stopLimit s }) :=
      silent (h.putOrder hacc) (Emits.upd w e _)
    have hfirst := hput.trans (execute (r := .entry id) hput.sane (fun hr => by cases hr) hex)
    exact hfirst.trans (activateStops ids hfirst.sane hrest)

theorem triggerLoop : ∀ (n : ℕ) {w : World}, w.Sane → triggerLoop e s n w = .ok w' → Plain w w'
  | 0, _, _, hrun => by cases hrun
  | n + 1, w, h, hrun => by
    simp only [Matching.triggerLoop, bind_ok] at hrun
    obtain ⟨best, _, v, hv, hrun⟩ := hrun
    have hcol : Plain w (collectStops w e s best).1 := collect h s _
    have hfirst := hcol.trans (activateStops _ hcol.sane hv)
    split at hrun
    · obtain rfl := pure_ok.mp hrun
      exact hfirst
    · exact hfirst.trans (triggerLoop n hfirst.sane hrun)

theorem triggerStop (h : w.Sane) (hrun : triggerStop w e s = .ok w') : Plain w w' :=
  triggerLoop _ h hrun

theorem executeArg (h : w.Sane) (harg : w.arg.Accepted) (hrun : executeArg w e s = .ok w') :
    Plain w w' := by
  simp only [Matching.executeArg, bind_ok] at hrun
  obtain ⟨v, hv, hrun⟩ := hrun
  have hfirst := execute h (fun _ => harg) hv
  split at hrun
  · obtain ⟨u, hu, hrun⟩ := bind_ok.mp hrun
    have hsecond := hfirst.trans (triggerStop hfirst.sane hu)
    exact hsecond.trans (triggerStop hsecond.sane hrun)
  · obtain rfl := pure_ok.mp hrun
    exact hfirst

/-! ### Cancellation and new orders -/

theorem unrest {o : Order} (h : w.Sane) (hrun : unrest w e s o = .ok w') : Plain w w' := by
  have hset : Plain w (w.setBook e s ((w.book e s).eraseAt o.price o.orderId)) := setBook h s _
  rcases (unrest_ok hrun).2 with rfl | htrig
  · exact hset
  · exact hset.trans (triggerStop hset.sane htrig)

theorem unstops {o : Order} : ∀ (ss : List Side) {w : World}, w.Sane →
    ss.foldlM (fun w s => unstop w e s o) w = .ok w' → Plain w w'
  | [], w, h, hrun => by
    obtain rfl := Except.ok.inj hrun
    exact refl h
  | s :: ss, w, h, hrun => by
    simp only [List.foldlM_cons, bind_ok, unstop, pure_ok] at hrun
    obtain ⟨v, ⟨b, _, rfl⟩, hrun⟩ := hrun
    have hset := collect (e := e) h s b
    exact hset.trans (unstops ss hset.sane hrun)

theorem unlist {o : Order} (h : w.Sane) (hrun : unlist w e o = .ok w') : Plain w w' := by
  rw [unlist_eq] at hrun
  split at hrun
  · exact unrest h hrun
  · exact unstops _ h hrun

end Plain

/-- `handle_new` turns the order away for its prices or its side. -/
def Order.TurnedAway (o : Order) : Prop :=
  match o.side with
  | .buy | .sell => o.type ≠ .market ∧ o.price = marketPrice
  | .buyStop => stopReject o .buy ≠ none
  | .sellStop => stopReject o .sell ≠ none
  | .buySellStop => stopReject o .buy ≠ none ∨ stopReject o .sell ≠ none
  | .other _ => True

/-- The request is turned away: after nothing but silent changes the last thing that
    happens is its report. -/
def TurnsAway (w : World) (e : ℕ) (w' : World) : Prop :=
  ∃ v st, w' = rejectArg v e st ∧ st.isReject = true ∧ Emits w v []

theorem Emits.initNewOrder (w : World) : Emits w (initNewOrder w) [] := by
  unfold Matching.initNewOrder
  simp only
  split
  · exact (Emits.bumpId w).trans (Emits.setArg _ _)
  · exact Emits.setArg w _

theorem initNewOrder_accepted (w : World) : (initNewOrder w).arg.Accepted := by
  simp only [initNewOrder]
  split <;> rfl

theorem World.Sane.initNewOrder (h : w.Sane) : (initNewOrder w).Sane := by
  simp only [Matching.initNewOrder]
  split <;> exact h

/-- A new order that is not turned away is reported plainly. -/
theorem newPlain_ends (h : newPlain w e s = .ok w') :
    (w.arg.type ≠ .market ∧ w.arg.price = marketPrice → TurnsAway w e w') ∧
    (¬(w.arg.type ≠ .market ∧ w.arg.price = marketPrice) → w.Sane → Plain w w') := by
  have htype : (initNewOrder w).arg.type = w.arg.type := by simp only [initNewOrder]; split <;> rfl
  have hprice : (initNewOrder w).arg.price = w.arg.price := by
    simp only [initNewOrder]; split <;> rfl
  simp only [newPlain, htype, hprice] at h
  split at h
  · rename_i hc
    obtain rfl := pure_ok.mp h
    exact ⟨fun _ => ⟨_, _, rfl, rfl, Emits.initNewOrder w⟩, fun hn => absurd hc hn⟩
  · rename_i hc
    refine ⟨fun hn => absurd hn hc, fun _ hw => ?_⟩
    have hinit : Plain w (initNewOrder w) := Plain.silent hw.initNewOrder (Emits.initNewOrder w)
    exact hinit.trans (Plain.executeArg hinit.sane (initNewOrder_accepted w) h)

theorem Plain.registerStop (h : w.Sane) (harg : w.arg.Accepted) : Plain w (registerStop w e s) := by
  unfold Matching.registerStop
  exact Plain.silent (h.emplace harg fun g => by cases s <;> rfl) (Emits.upd w e _)

/-- An order that waits. -/
theorem Plain.register (h : w.Sane) (harg : w.arg.Accepted) :
    ∀ ss : List Side, Plain w (w.registerStops e ss)
  | [] => Plain.refl h
  | s :: ss => by
    have hrest := Plain.register h harg ss
    have harg' : (w.registerStops e ss).arg.Accepted := by rw [World.arg_registerStops]; exact harg
    exact hrest.trans (Plain.registerStop hrest.sane harg')

theorem Plain.leg (h : w.Sane) (harg : w.arg.Accepted) (hrun : executeLeg w e s = .ok w') :
    Plain w w' := by
  set v := w.setArg { w.arg with price := w.arg.stopLimit s }
  have hset : Plain w v := Plain.silent h (Emits.setArg w _)
  have harg' : v.arg.Accepted := harg
  exact hset.trans (Plain.executeArg hset.sane harg' hrun)

theorem stopReject_price (o : Order) (p : ℤ) (s : Side) :
    stopReject { o with price := p } s = stopReject o s :=
  stopReject_congr (by cases s <;> rfl) (by cases s <;> rfl)

theorem newStop_ends (h : newStop w e s = .ok w') :
    (stopReject w.arg s ≠ none → TurnsAway w e w') ∧
      (stopReject w.arg s = none → w.Sane → Plain w w') := by
  simp only [newStop, bind_ok, World.arg_setArg, stopReject_price] at h
  obtain ⟨best, _, h⟩ := h
  rcases hrej : stopReject w.arg s with _ | st
  · refine ⟨fun hn => absurd rfl hn, fun _ hw => ?_⟩
    simp only [hrej] at h
    set v := w.setArg { w.arg with price := stopPrice }
    have hinit : Plain w (initNewOrder v) :=
      Plain.silent (World.Sane.initNewOrder (w := v) hw)
        ((Emits.setArg w _).trans (Emits.initNewOrder v))
    have harg := initNewOrder_accepted v
    split at h
    · exact hinit.trans (Plain.leg hinit.sane harg h)
    · obtain rfl := pure_ok.mp h
      exact hinit.trans ((Plain.registerStop hinit.sane harg).report harg e)
  · simp only [hrej] at h
    obtain rfl := pure_ok.mp h
    exact ⟨fun _ => ⟨_, st, rfl, stopReject_some hrej, Emits.setArg w _⟩, fun hn => nomatch hn⟩

theorem newBuySellStop_ends (h : newBuySellStop w e = .ok w') :
    (stopReject w.arg .buy ≠ none ∨ stopReject w.arg .sell ≠ none → TurnsAway w e w') ∧
    (¬(stopReject w.arg .buy ≠ none ∨ stopReject w.arg .sell ≠ none) → w.Sane → Plain w w') := by
  simp only [newBuySellStop, bind_ok, World.arg_setArg, stopReject_price] at h
  obtain ⟨bestA, _, bestB, _, h⟩ := h
  rcases hbuy : stopReject w.arg .buy with _ | st
  swap
  · simp only [hbuy] at h
    obtain rfl := pure_ok.mp h
    exact ⟨fun _ => ⟨_, st, rfl, stopReject_some hbuy, Emits.setArg w _⟩,
      fun hn => absurd (Or.inl (by simp)) hn⟩
  rcases hsell : stopReject w.arg .sell with _ | st
  swap
  · simp only [hbuy, hsell] at h
    obtain rfl := pure_ok.mp h
    exact ⟨fun _ => ⟨_, st, rfl, stopReject_some hsell, Emits.setArg w _⟩,
      fun hn => absurd (Or.inr (by simp)) hn⟩
  refine ⟨fun hn => by simp at hn, fun _ hw => ?_⟩
  simp only [hbuy, hsell] at h
  set v := w.setArg { w.arg with price := stopPrice }
  have hinit : Plain w (initNewOrder v) :=
    Plain.silent (World.Sane.initNewOrder (w := v) hw)
      ((Emits.setArg w _).trans (Emits.initNewOrder v))
  have harg := initNewOrder_accepted v
  split at h
  · exact hinit.trans (Plain.leg hinit.sane harg h)
  · split at h
    · exact hinit.trans (Plain.leg hinit.sane harg h)
    · obtain rfl := pure_ok.mp h
      exact hinit.trans ((Plain.register hinit.sane harg [.buy, .sell]).report harg e)

/-- An order with a quantity is turned away for its prices and its side, or
    it is reported plainly. -/
theorem newChecked_ends (hq : w.arg.quantity ≠ 0) (hd : w.arg.displayQuantity ≤ w.arg.quantity)
    (h : newChecked w e = .ok w') :
    (w.arg.TurnedAway → TurnsAway w e w') ∧ (¬w.arg.TurnedAway → w.Sane → Plain w w') := by
  rw [newChecked, if_neg hq, if_neg (by omega)] at h
  unfold Order.TurnedAway
  cases hside : w.arg.side <;> simp only [hside] at h ⊢
  · exact newPlain_ends h
  · exact newPlain_ends h
  · exact (newStop_ends h).imp id fun hp hn => hp (not_not.mp hn)
  · exact (newStop_ends h).imp id fun hp hn => hp (not_not.mp hn)
  · exact newBuySellStop_ends h
  · obtain rfl := pure_ok.mp h
    exact ⟨fun _ => ⟨_, _, rfl, rfl, Emits.refl w⟩, fun hn => absurd trivial hn⟩

end Matching
