import Matching.Engine.Entries
import Matching.Md.Trades

/-! A book that is fed the reports of one engine without impliers, over whole runs. Between any two
    worlds of a run the reports tell the listener what changed (`Tells`): small steps do, given that
    its executions can be followed, and the opening of a request does, given that it finds the order
    it names and that a request that is turned away names none (`Order.Plain`). So after every call
    the book follows the store (`run_follows`). -/

namespace Matching

open Md (Half BasicBook Follows)

/-- What was reported for engine `e` from `w` to `w'` takes a book that follows the
    one store to the other. -/
def Tells (e : ℕ) (w w' : World) : Prop :=
  ∃ rs, Emits w w' rs ∧ ∀ c b, Follows b (w.store e).shown →
    Follows (b.feed (heard e c rs)) (w'.store e).shown

variable {T : ℕ → Terms → Prop} {w w' w'' : World} {e l k id : ℕ} {s : Side} {r : Ref}
  {hs : List Held} {o m q : Order}

namespace Tells

theorem refl (e : ℕ) (w : World) : Tells e w w := ⟨[], Emits.refl w, fun _ _ hf => hf⟩

theorem trans (h : Tells e w w') (h' : Tells e w' w'') : Tells e w w'' := by
  obtain ⟨rs, hem, hf⟩ := h
  obtain ⟨rs', hem', hf'⟩ := h'
  refine ⟨rs ++ rs', hem.trans hem', fun c b hb => ?_⟩
  rw [heard_append, BasicBook.feed_append]
  exact hf' c _ (hf c b hb)

/-- Nothing is reported, and nothing changes for a listener. -/
theorem silent (h : Emits w w' []) (hs : ∀ id, (w'.store e).shown id = (w.store e).shown id) :
    Tells e w w' :=
  ⟨[], h, fun _ _ hf => hf.congr fun id => (hs id).symm⟩

/-- The report of an order that is shown as `m`: no more is left of it. -/
theorem report (h : Emits w w' [(e, o)]) (hm : (w.store e).shown o.orderId = m.shown)
    (hp : o.price = m.price) (hh : o.bookHalf = m.bookHalf)
    (hle : o.calcRemainQuantity ≤ m.calcRemainQuantity)
    (hs : ∀ id, (w'.store e).shown id = Function.update (w.store e).shown o.orderId o.shown id) :
    Tells e w w' := by
  refine ⟨_, h, fun c b hf => ?_⟩
  rw [heard_self]
  refine Follows.congr ?_ fun id => (hs id).symm
  exact hf.follow (o := o.priced c) (m := m) hm hp hh hle

/-- A report that is not for a listener. -/
theorem unheard (h : Emits w w' [(e, o)]) (ho : o.shown = none)
    (hu : o.price = stopPrice ∨ (w.store e).shown o.orderId = none)
    (hs : ∀ id, (w'.store e).shown id = (w.store e).shown id) : Tells e w w' := by
  refine ⟨_, h, fun c b hf => ?_⟩
  rw [heard_self]
  refine Follows.congr (v := (w.store e).shown) ?_ fun id => (hs id).symm
  rcases hu with hp | hnone
  · have hskip := BasicBook.handleOdr_skip b (o := o.priced c) (Or.inl hp)
    rw [BasicBook.feed_cons, BasicBook.feed_nil, hskip]
    exact hf
  · have hadd :=
      hf.add (o := o.priced c) hnone fun z hz => by rw [Order.shown_priced, ho] at hz; cases hz
    refine hadd.congr fun id => ?_
    rw [Order.shown_priced, ho, Order.orderId_priced, Function.update_apply]
    split_ifs with hid
    · rw [hid, hnone]
    · rfl

end Tells

/-! ### Small steps -/

/-- Orders of one leg under ids from 1 on. -/
def Terms.Plain (i : ℕ) (t : Terms) : Prop := 0 < i ∧ t.side ≠ .buySellStop

/-- A listener can follow the execution. -/
def Exec.Heard (x : Exec) : Prop := x.before.toStore.Heard x.before.miniTick x.side x.taker

instance (x : Exec) : Decidable x.Heard := inferInstanceAs (Decidable (Store.Heard ..))

theorem StoreOk.sided {g : Store} {n : ℕ} (h : StoreOk Terms.Plain g n hs) : g.Sided := fun hm ho =>
  (h.placed hm ho).bookHalf (h.key ho).2.2.2

theorem Exec.oneLeg {z : Exec} (h : Terms.Plain z.taker.orderId z.taker.terms) : z.OneLeg :=
  fun _ => h.2

/-- An id no order has, or the id of no order, is not shown. -/
theorem Firm.shown_none {g : Store} (hf : Firm g hs) (h : g.odrMap.find? id = none) :
    g.shown id = none :=
  Store.shown_of_notMem fun t hm => by
    obtain ⟨o, ho, _⟩ := hf.rests hm
    rw [h] at ho
    cases ho

/-- Between two small steps of an engine without impliers a book can follow. -/
structure Hears (e : ℕ) (x : World × List Held) : Prop extends Lone Terms.Plain e x where
  firm : x.1.FirmAt e x.2
  positive : 0 < x.1.nextId

/-- An execution tells what it changes. -/
theorem execute_tells (hsnd : w.SoundAt Terms.Plain k e (r.hand ++ hs))
    (hfirm : w.FirmAt e (r.hand ++ hs)) (hoff : OffBook w e r) (hlegs : LegsApart w e s)
    (hi : ∀ t, (w.conf e).impliers t = []) (ho : w.readRef e r = .ok o)
    (hpos : o.remainQuantity ≠ 0) (hwhole : o.remainQuantity = o.quantity) (hact : o.Active)
    (htk : TakerOk Terms.Plain k (r.hand ++ hs) s r o) (hex : execute w e s r = .ok w')
    (hgood : ∀ z ∈ w'.execs.drop w.execs.length, z.Heard) : Tells e w w' := by
  have hz : Exec.Heard ⟨e, s, r, o, w.engines e⟩ :=
    hgood _ (by rw [execute_logged hex ho, List.drop_left]; exact List.mem_singleton_self _)
  rcases execute_reference ⟨hsnd.ok, hoff, hlegs⟩ hi ho hpos with ⟨v, hv, hexd⟩ | ⟨hub, _⟩
  · obtain rfl := Except.ok.inj (hv.symm.trans hex)
    have hh : Hearing Terms.Plain (w.logExec e s r o) e s r o k hs :=
      ⟨hsnd.self, hfirm.self, ⟨(hsnd.free htk).entry, (hsnd.free htk).arg⟩, hoff, hpos, hwhole,
        hact, hsnd.self.sided, htk.rests, htk.terms.2, hz⟩
    exact (Tells.silent (Emits.logExec w e s r o) fun _ => rfl).trans (hexd.follows hh)
  · rw [hub] at hex
    cases hex

theorem Step.tells {x y : World × List Held} (h : Step e q x y) (hq : q.side ≠ .buySellStop)
    (hgood : ∀ z ∈ y.1.execs.drop x.1.execs.length, z.Heard) (hx : Hears e x) :
    Tells e x.1 y.1 := by
  have hsnd := hx.sound.stores
  have hfirm := hx.firm
  cases h with
  | arg o => exact Tells.silent (Emits.setArg _ o) fun _ => rfl
  | bump => exact Tells.silent (Emits.bumpId _) fun _ => rfl
  | @reject w hs o hr hst hid =>
    have hzero : o.shown = none :=
      Order.shown_eq_none.mpr (Or.inr (Or.inl (Nat.le_zero.mp (o.calc_le.trans hr.le))))
    have hnone : (w.store e).shown o.orderId = none := by
      refine hfirm.self.shown_none ?_
      rcases hid with h0 | hn | ⟨hq, hf⟩
      · rcases ho : (w.store e).odrMap.find? o.orderId with _ | o'
        · rfl
        · have hpos := (hsnd.self.key ho).2.2.1
          omega
      · exact (hsnd.self.unused hn.ge).1
      · rw [hq, hf]
    have hem : Emits w ((w.setArg o).callback e o) [(e, o)] :=
      (Emits.setArg w o).trans (Emits.callback _ e o)
    exact Tells.unheard hem hzero (Or.inr hnone) fun id => by rw [World.store_callback]; rfl
  | @taker w w' hs o s ho ht hex =>
    have hpos := ho.whole
    have hlegs : LegsApart (w.bumpId.setArg o) e s := (hx.sound.legs s).congr rfl
    have htk : TakerOk Terms.Plain w.nextId (Ref.arg.hand ++ hs) s .arg o :=
      ho.takerOk ht ⟨hx.positive, hq⟩
    refine (Tells.silent ((Emits.bumpId w).trans (Emits.setArg w.bumpId o)) fun _ => rfl).trans ?_
    have hhand : Ref.arg.hand ++ hs = hs := rfl
    exact execute_tells (o := o) (hhand ▸ hsnd) (hhand ▸ hfirm)
      (OffBook.arg _ _) hlegs hx.alone rfl (by omega) hpos.1 (Or.inl ho.opened) htk hex hgood
  | @fire w w' hs o s id ho hex =>
    have hfi := hx.sound.fires ho hex fun z _ => Exec.oneLeg
    obtain ⟨t, hw⟩ := hfi.waits
    have hoff : OffBook w e (.entry id) := fun j hj => by cases hj; exact hfi.off
    have hfw : w.FirmAt e (⟨none, id⟩ :: hs) := hfirm.put (hfirm.self.take hfi.off) fun _ _ => rfl
    have hput : Tells e w (w.putOrder e id { o with price := o.stopLimit s }) := by
      refine Tells.silent (Emits.writeRef w e (.entry id) _) fun j =>
        Store.shown_congr (fun t => ?_) fun ⟨t, hm⟩ => ?_
      · exact Iff.of_eq (congrArg _ (congrArg _ (World.book_writeRef w e e (.entry id) _ t)))
      · refine (World.find_writeRef w e e (.entry id) _ j).trans (if_neg ?_)
        rintro ⟨_, he⟩
        cases he
        exact hfi.off t hm
    refine hput.trans ?_
    exact execute_tells (r := .entry id) hfi.stores (hfw.writeRef hoff) hfi.offBook
      ((hx.sound.legs s).congr (World.conf_writeRef w e e (.entry id) _))
      (fun t => by
        rw [← hx.alone t];
          exact congrArg (Config.impliers · t) (World.conf_writeRef w e e (.entry id) _))
      hfi.read hfi.remain hw.whole (Or.inl hw.opened) hfi.taker hex hgood
  | @collect w hs s hit =>
    have hem : Emits w (w.setStops e s ((w.stops e s).filter fun l => !hit l)) [] := Emits.upd ..
    refine Tells.silent hem fun id => ?_
    rw [World.setStops_eq, World.store_upd, if_pos rfl]
    exact Store.shown_congr (fun t => by rw [Store.book_setStops]) fun _ => by
      rw [Store.odrMap_setStops]
  | @register w hs o ho hp hne hl =>
    obtain ⟨hnone, hnew, _⟩ := hsnd.self.unused (show w.nextId ≤ o.orderId from ho.orderId.ge)
    have hreg := World.registered (w := w.bumpId.setArg o) e hnone rfl o.stopSides o.stopSides_nodup
    have hem :=
      (((Emits.bumpId w).trans (Emits.setArg w.bumpId o)).trans
        (Emits.registerStops (w.bumpId.setArg o) e o.stopSides)).trans
      (Emits.callback _ e o)
    refine Tells.unheard hem (Order.shown_eq_none.mpr (Or.inl hp)) (Or.inl hp) fun id => ?_
    rw [World.store_callback]
    refine Store.shown_congr (fun t => by rw [hreg.book]; rfl) fun ⟨t, hm⟩ => ?_
    rw [hreg.find, if_neg]
    · rfl
    · rintro ⟨rfl, _⟩
      exact hnew t hm
  | @drop w hs id =>
    have hem : Emits w (w.eraseOrder e id) [] := Emits.upd ..
    refine Tells.silent hem fun j => ?_
    rw [World.eraseOrder_eq, World.store_upd, if_pos rfl]
    refine Store.shown_congr (fun t => by rw [Store.book_withMap]) fun ⟨t, hm⟩ => ?_
    rw [Store.odrMap_withMap, OrdMap.find?_erase, if_neg]
    rintro rfl
    exact hfirm.self.gone List.mem_cons_self t hm

/-! ### Openings -/

/-- The request finds the order it names, and if it is turned away unread
    its id is shown to nobody. -/
structure Order.Plain (q : Order) (g : Store) : Prop where
  finds : q.orderAction ≠ .new → g.Finds q.orderId
  refused : q.BadAmend ∨ q.Stray → q.price ≠ stopPrice → g.shown q.orderId = none

/-- An order that is in no book waits or is dead. -/
theorem Hears.unbooked (hx : Hears e (w, [])) (ho : (w.store e).odrMap.find? id = some o)
    (hm : ∀ t, id ∉ ((w.store e).book t).ids) : o.price = stopPrice ∨ ¬o.Active := by
  by_cases hact : o.Active
  · rcases hx.firm.self.placed ho hact with ⟨t, ht⟩ | ⟨s, hw | hw⟩ | hh
    · exact absurd ht (hm t)
    · obtain ⟨t, hat⟩ := Ladder.mem_ids.mp hw
      obtain ⟨o', ho', hwt⟩ := hx.sound.stores.self.waits hat
      obtain rfl := Option.some.inj (ho'.symm.trans ho)
      exact Or.inl hwt.price
    · cases hw
    · cases hh
  · exact Or.inr hact

/-- The report of an order under its own id that leaves no more of it. -/
theorem Hears.tells {o' : Order} (hx : Hears e (w, []))
    (ho : (w.store e).odrMap.find? id = some o) (hem : Emits w w' [(e, o')])
    (hid : o'.orderId = id) (hp : o'.price = o.price) (hh : o'.bookHalf = o.bookHalf)
    (hact : o'.Active → o.Active) (hle : o'.Active → o'.remainQuantity ≤ o.remainQuantity)
    (hother : ∀ j, j ≠ id → (w'.store e).shown j = (w.store e).shown j)
    (hin : (∃ t, id ∈ ((w.store e).book t).ids) → (w'.store e).shown id = o'.shown)
    (hout : (∀ t, id ∉ ((w.store e).book t).ids) → (w'.store e).shown id = none) :
    Tells e w w' := by
  have hcalc : o'.calcRemainQuantity ≤ o.calcRemainQuantity := by
    by_cases ha : o'.Active
    · rw [ha.calc, (hact ha).calc]
      exact hle ha
    · rw [Order.calc_of_not_active ha]
      exact Nat.zero_le _
  by_cases hm : ∃ t, id ∈ ((w.store e).book t).ids
  · obtain ⟨t, ht⟩ := hm
    have hself : (w.store e).shown id = o.shown := by rw [Store.shown_of_mem ht, ho]; rfl
    refine Tells.report hem (by rw [hid]; exact hself) hp hh hcalc fun j => ?_
    rw [Function.update_apply, hid]
    split_ifs with hj
    · rw [hj, hin ⟨t, ht⟩]
    · exact hother j hj
  · have hoff : ∀ t, id ∉ ((w.store e).book t).ids := fun t ht => hm ⟨t, ht⟩
    have hnone := Store.shown_of_notMem hoff
    have hzero : o'.shown = none := by
      rcases hx.unbooked ho hoff with hstop | hdead
      · exact Order.shown_eq_none.mpr (Or.inl (hp.trans hstop))
      · refine Order.shown_eq_none.mpr (Or.inr (Or.inl ?_))
        exact Order.calc_of_not_active fun ha => hdead (hact ha)
    refine Tells.unheard hem hzero (Or.inr (by rw [hid]; exact hnone)) fun j => ?_
    by_cases hj : j = id
    · rw [hj, hout hoff, hnone]
    · exact hother j hj

theorem cancelState_dead {a : OrderAction} {st : OrderStatus} (h : cancelState a = some st) :
    st ≠ .opened ∧ st ≠ .partialFill := by
  cases a <;> simp_all [cancelState]
  all_goals (subst h; simp)

theorem Opening.tells {y : World × List Held} (h : Opening e q w y) (hx : Hears e (w, []))
    (hq : q.Plain (w.store e)) :
    Tells e w y.1 := by
  have hsnd : w.SoundAt Terms.Plain w.nextId e [] := hx.sound.stores
  have hfirm := h.firm hx.sound hx.firm hq.finds
  have hgone : ∀ {j}, ⟨none, j⟩ ∈ y.2 → (y.1.store e).shown j = none := fun hm =>
    Store.shown_of_notMem (hfirm.self.gone hm)
  cases h with
  | same => exact Tells.refl e w
  | @refused o hbad hr hst hid hp =>
    have hem : Emits w ((w.setArg o).callback e o) [(e, o)] :=
      (Emits.setArg w o).trans (Emits.callback _ e o)
    refine Tells.unheard hem ?_ ?_ fun id => by rw [World.store_callback]; rfl
    · exact Order.shown_eq_none.mpr (Or.inr (Or.inl (Nat.le_zero.mp (o.calc_le.trans hr.le))))
    · rw [hid, hp]
      by_cases hstop : q.price = stopPrice
      · exact Or.inl hstop
      · exact Or.inr (hq.refused (Or.inl hbad) hstop)
  | @amended o a hf hc hpos =>
    set o' := amendInPlace { o with orderAction := a } q with ho'
    have hem : Emits w ((w.putOrder e q.orderId o').callback e o') [(e, o')] :=
      (Emits.writeRef w e (.entry q.orderId) o').trans (Emits.callback _ e o')
    have hbook : ∀ t, (((w.putOrder e q.orderId o').callback e o').store e).book t =
        (w.store e).book t := fun t => by
      rw [World.store_callback]
      exact World.book_writeRef w e e (.entry q.orderId) o' t
    have hfind : ∀ j, (((w.putOrder e q.orderId o').callback e o').store e).odrMap.find? j =
        if j = q.orderId then some o' else (w.store e).odrMap.find? j := fun j => by
      rw [World.store_callback]
      refine (World.find_writeRef w e e (.entry q.orderId) o' j).trans (if_congr ?_ rfl rfl)
      simp [eq_comm]
    refine hx.tells hf hem (hsnd.self.key hf).1 rfl rfl id (fun _ => canAmend_le hc)
      (fun j hj => ?_) (fun ⟨t, ht⟩ => ?_) fun hoff => ?_
    · exact Store.shown_congr (fun t => by rw [hbook]) fun _ => by rw [hfind, if_neg hj]
    · rw [Store.shown_of_mem (t := t) (by rw [hbook]; exact ht), hfind, if_pos rfl]
      rfl
    · exact Store.shown_of_notMem fun t => by rw [hbook]; exact hoff t
  | @unbooked o a st t is hf hst hl hlev =>
    set v := w.ackCancel e q.orderId { o with orderAction := a } st with hv
    obtain ⟨hst1, hst2⟩ := cancelState_dead hst
    have hdead : ¬({ o with orderAction := a, orderState := st } : Order).Active :=
      fun ha => ha.elim hst1 hst2
    have hnone := Order.shown_eq_none.mpr (Or.inr (Or.inl (Order.calc_of_not_active hdead)))
    have hset : Emits v (v.setBook e t (((w.store e).book t).eraseAt o.price o.orderId)) [] :=
      Emits.upd ..
    refine hx.tells hf ((Emits.ackCancel w e q.orderId _ st).trans hset)
      (hsnd.self.key hf).1 rfl rfl (fun ha => absurd ha hdead) (fun ha => absurd ha hdead)
      (fun j hj => Store.shown_congr (fun u => ?_) fun _ => ?_) (fun _ => ?_) fun _ => ?_
    · rw [World.setBook_eq, World.store_upd, if_pos rfl, Store.book_setBook, World.book_ackCancel]
      split_ifs with hu
      · subst hu
        simp only [Ladder.mem_ids, Ladder.at_eraseAt (hsnd.self.books.wf u), (hsnd.self.key hf).1]
        exact exists_congr fun p => and_iff_left fun hc => hj hc.2
      · rfl
    · rw [World.setBook_eq, World.store_upd, if_pos rfl, Store.odrMap_setBook,
        World.find_ackCancel, if_neg hj]
    · rw [hnone]
      exact hgone List.mem_cons_self
    · exact hgone List.mem_cons_self
  | @unstopped o a st ss hf hst hl hlev =>
    obtain ⟨hst1, hst2⟩ := cancelState_dead hst
    have hdead : ¬({ o with orderAction := a, orderState := st } : Order).Active :=
      fun ha => ha.elim hst1 hst2
    have hnone := Order.shown_eq_none.mpr (Or.inr (Or.inl (Order.calc_of_not_active hdead)))
    have hdrop :=
      World.dropped e o ss (w.ackCancel e q.orderId { o with orderAction := a } st)
        (Order.lookup_nodup hl)
    refine hx.tells hf ((Emits.ackCancel w e q.orderId _ st).trans (Emits.dropStops o e ss _))
      (hsnd.self.key hf).1 rfl rfl (fun ha => absurd ha hdead) (fun ha => absurd ha hdead)
      (fun j hj => Store.shown_congr (fun u => ?_) fun _ => ?_) (fun _ => ?_)
      fun _ => ?_
    · rw [hdrop.book, World.book_ackCancel]
    · rw [hdrop.find, World.find_ackCancel, if_neg hj]
    · rw [hnone]
      exact hgone List.mem_cons_self
    · exact hgone List.mem_cons_self

/-! ### Calls -/

theorem Step.hears {x y : World × List Held} (h : Step e q x y) (hq : q.side ≠ .buySellStop)
    (hx : Hears e x) : Hears e y := by
  have hT : Terms.Plain x.1.nextId q.terms := ⟨hx.positive, hq⟩
  exact ⟨h.lone hT (fun z _ => Exec.oneLeg) hx.toLone,
    h.firm hT (fun z _ => Exec.oneLeg) hx.sound hx.firm, hx.positive.trans_le h.nextId⟩

theorem Opening.hears {y : World × List Held} (h : Opening e q w y) (hx : Hears e (w, []))
    (hfind : q.orderAction ≠ .new → (w.store e).Finds q.orderId) : Hears e y :=
  ⟨h.lone hx.toLone, h.firm hx.sound hx.firm hfind, by rw [h.nextId]; exact hx.positive⟩

theorem dispatch_hears (hw : w.arg = q) (ht : q.IsTrade) (hside : q.side ≠ .buySellStop)
    (hfind : q.orderAction ≠ .new → (w.store e).Finds q.orderId) (hx : Hears e (w, []))
    (h : dispatch w e = .ok w') : Hears e (w', []) := by
  obtain ⟨v, hs, hopen, hsteps⟩ := dispatch_steps hw ht h
  have hall : ∀ z ∈ w'.execs, (fun _ : Exec => True) z := fun _ _ => trivial
  exact hsteps.induct (I := Hears e) (fun hstep _ hz => hstep.hears hside hz) hall
    (hopen.hears hx hfind)

/-- A request that is handled to its end tells what it changes. -/
theorem dispatch_tells (hw : w.arg = q) (ht : q.IsTrade) (hside : q.side ≠ .buySellStop)
    (hq : q.Plain (w.store e)) (hx : Hears e (w, [])) (h : dispatch w e = .ok w')
    (hgood : ∀ z ∈ w'.execs.drop w.execs.length, z.Heard) :
    Tells e w w' ∧ Hears e (w', []) := by
  obtain ⟨v, hs, hopen, hsteps⟩ := dispatch_steps hw ht h
  exact hsteps.induct_new (I := fun z => Tells e w z.1 ∧ Hears e z)
    (fun hstep hgood hz => ⟨hz.1.trans (hstep.tells hside hgood hz.2), hstep.hears hside hz.2⟩)
      (by rw [hopen.execs]) hgood
    ⟨hopen.tells hx hq, hopen.hears hx hq.finds⟩

/-- Between two calls of engine `e` a book can follow. -/
structure World.Listens (w : World) (e : ℕ) : Prop where
  ordered : w.Ordered Terms.Plain
  firm : ∀ l, Firm (w.store l) []
  idle : w.Idle
  positive : 0 < w.nextId
  alone : ∀ t, (w.conf e).impliers t = []

theorem World.Fresh.shown (h : w.Fresh) (e id : ℕ) : (w.store e).shown id = none := by
  refine Store.shown_of_notMem fun t hm => ?_
  rw [h.store] at hm
  cases t <;> cases hm

theorem World.Fresh.listens (h : w.Fresh) (hn : 0 < w.nextId)
    (hi : ∀ t, (w.conf e).impliers t = []) : w.Listens e :=
  ⟨h.ordered _, fun l => by rw [h.store]; exact Firm.empty, h.idle, hn, hi⟩

/-- The new reports take a book that follows the one store to the other. -/
def World.Leads (w w' : World) (e : ℕ) : Prop :=
  ∃ os, w'.heardBy e = w.heardBy e ++ os ∧ ∀ b, Follows b (w.store e).shown →
    Follows (b.feed os) (w'.store e).shown

theorem World.Leads.refl (w : World) (e : ℕ) : w.Leads w e :=
  ⟨[], (List.append_nil _).symm, fun _ hf => hf⟩

theorem World.Leads.trans (h : w.Leads w' e) (h' : w'.Leads w'' e) : w.Leads w'' e := by
  obtain ⟨os, hos, hf⟩ := h
  obtain ⟨os', hos', hf'⟩ := h'
  refine ⟨os ++ os', by rw [hos', hos, List.append_assoc], fun b hb => ?_⟩
  rw [BasicBook.feed_append]
  exact hf' _ (hf b hb)

/-- A request whose reports can be followed into the engine's store. -/
structure Order.Followed (q : Order) (g : Store) : Prop extends q.Plain g where
  trade : q.IsTrade
  side : q.side ≠ .buySellStop

/-- Outside an auction every report is delivered at once. -/
theorem Tells.leads (h : Tells e w w') (hidle : w.Idle) : w.Leads w' e := by
  obtain ⟨rs, hem, hf⟩ := h
  refine ⟨heard e none rs, ?_, hf none⟩
  have hall : rs.filter (fun x => !(w.engines x.1).isAuction) = rs :=
      List.filter_eq_self.mpr fun x _ => by
    rw [hidle.isAuction]
    rfl
  rw [World.heardBy, hem.reports, hall, List.filter_append, List.map_append]
  rfl

theorem World.Listens.hears (hl : w.Listens e) : Hears e (w, []) :=
  ⟨hl.ordered.lone hl.alone, fun l => by rw [ite_self]; exact hl.firm l, hl.positive⟩

theorem World.Listens.enter (hl : w.Listens e) (held : ℕ → Bool) :
    Hears e (w.enter e q held, []) := by
  refine ⟨hl.ordered.enter.lone fun t => by rw [World.conf_enter]; exact hl.alone t,
    fun l => ?_, ?_⟩
  · rw [ite_self, World.store_enter]
    exact hl.firm l
  · rw [World.nextId_enter]
    exact hl.positive

/-- A call leaves an engine that can be followed as it found it. -/
theorem handle_listens (ht : q.IsTrade) (hside : q.side ≠ .buySellStop)
    (hfind : q.orderAction ≠ .new → (w.store e).Finds q.orderId) (hl : w.Listens e)
    (h : handle w e q = .ok w') : w'.Listens e := by
  obtain ⟨held, _, ⟨hstray, rfl⟩ | ⟨hns, v, hv, rfl⟩⟩ := handle_cases h
  · exact ⟨hl.ordered, hl.firm, ⟨hl.idle.isAuction, hl.idle.cbRecords⟩, hl.positive, hl.alone⟩
  · have hx := dispatch_hears (World.arg_enter ..) ht hside (by rw [World.store_enter]; exact hfind)
      (hl.enter held) hv
    refine ⟨hx.sound.stores.ordered.leave, fun l => ?_, (handle_leaves hl.idle hns h).1,
      ?_, fun t => ?_⟩
    · rw [World.store_unlock, World.store_flush]
      have hfirm := hx.firm l
      rwa [show (if l = e then ([] : List Held) else []) = [] from ite_self []] at hfirm
    · rw [World.nextId_unlock, World.nextId_flush]
      exact hx.positive
    · rw [World.conf_unlock, World.conf_flush]
      exact hx.alone t

/-- A call leads a book that follows. -/
theorem handle_leads (hq : q.Followed (w.store e)) (hl : w.Listens e) (h : handle w e q = .ok w')
    (hgood : ∀ z ∈ w'.execs.drop w.execs.length, z.Heard) : w.Leads w' e ∧ w'.Listens e := by
  refine ⟨?_, handle_listens hq.trade hq.side hq.finds hl h⟩
  obtain ⟨held, hheld, ⟨hstray, rfl⟩ | ⟨hns, v, hv, rfl⟩⟩ := handle_cases h
  · set o : Order := { q with orderState := .rejectAuctionSupportBuySellOnly } with ho
    have hem : Emits w (({ w with locked := held }.setArg o).emit e o) [(e, o)] := by
      refine ⟨fun _ => rfl, ?_, fun l => ?_⟩
      · simp [World.emit, World.setArg, hl.idle.isAuction]
      · simp [World.emit, World.setArg, hl.idle.isAuction]
    have htell : Tells e w (({ w with locked := held }.setArg o).emit e o) := by
      refine Tells.unheard hem (Order.shown_eq_none.mpr (Or.inr (Or.inl rfl))) ?_ fun _ => rfl
      by_cases hstop : q.price = stopPrice
      · exact Or.inl hstop
      · exact Or.inr (hq.refused (Or.inr hstray) hstop)
    exact htell.leads hl.idle
  · have hent : (w.enter e q held).store e = w.store e := w.store_enter e e q held
    obtain ⟨⟨rs, hem, hf⟩, _⟩ :=
      dispatch_tells (World.arg_enter ..) hq.trade hq.side (by rw [hent]; exact hq.toPlain)
        (hl.enter held) hv
      (by simpa using hgood)
    obtain ⟨c, hc⟩ := heardBy_leave ((w.cbRecords_enter e e q held).trans (hl.idle.cbRecords e)) hem
    refine ⟨heard e c rs, ?_, fun b hb => ?_⟩
    · rw [hc, World.heardBy, World.reports_enter, World.heardBy]
    · rw [World.store_unlock, World.store_flush]
      refine hf c b ?_
      rw [hent]
      exact hb

end Matching
