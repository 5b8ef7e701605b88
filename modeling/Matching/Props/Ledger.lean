import Matching.Engine.Ledger
import Matching.Props.ImpliedPrice

/-! The execution ledger of a run over engines with whatever impliers whose legs are apart. Outside
    auctions the reports of every call split into execution steps and reports of something else;
    every matched id belongs to one step of the run, and every order's quantity is what is left of
    it and what it was reported filled for. One small step keeps the books, and so does a call; the
    run follows by induction. -/

namespace Matching

/-- The calls of a run, each with the items its reports split into. -/
inductive Ledger : World → List (ℕ × Order) → List (List Item) → World → Prop
  | nil (w : World) : Ledger w [] [] w
  | call {w v w' : World} {e : ℕ} {q : Order} {rs : List (ℕ × Order)} {items : List Item}
      {calls : List (List Item)} (h : handle w e q = .ok v) (ht : Trail e w items v)
      (hrest : Ledger v rs calls w') :
      Ledger w ((e, q) :: rs) (items :: calls) w'

variable {v v' w w' w0 : World} {l e id : ℕ} {s : Side} {r : Ref} {hs : List Held} {m o q : Order}
  {items past : List Item}

/-! ### What a trail reports -/

theorem Trail.reports (h : Trail e w items v) :
    v.reports = w.reports ++ items.flatMap Item.reports := by
  induction h with
  | nil => exact (List.append_nil _).symm
  | fill _ ht ih =>
    rw [ht.emitted, ih, List.flatMap_append, List.append_assoc, List.flatMap_singleton]; rfl
  | amend _ ha ih =>
    rw [ha.emitted, ih, List.flatMap_append, List.append_assoc, List.flatMap_singleton]; rfl
  | word _ _ hr _ ih =>
    rw [hr, ih, List.flatMap_append, List.append_assoc, List.flatMap_singleton]; rfl
  | quiet _ _ hr ih => exact hr.trans ih

/-- The reports of fills are those of the execution steps. -/
theorem Trail.saysFilled (h : Trail e w items v) :
    ∀ i ∈ items, ∀ x ∈ i.reports, x.2.SaysFilled ↔ ∃ ms t, i = .fill ms t := by
  induction h with
  | nil => exact fun i hi => nomatch hi
  | @fill items v v' r ms t _ ht ih =>
    intro i hi x hx
    rcases List.mem_append.mp hi with hi | hi
    · exact ih i hi x hx
    · obtain rfl := List.mem_singleton.mp hi
      exact ⟨fun _ => ⟨ms, t, rfl⟩, fun _ => ht.told x hx⟩
  | @amend items v v' y _ ha ih =>
    intro i hi x hx
    rcases List.mem_append.mp hi with hi | hi
    · exact ih i hi x hx
    · obtain rfl := List.mem_singleton.mp hi
      obtain rfl := List.mem_singleton.mp hx
      exact ⟨fun hs => absurd ha.whole hs.2.ne', fun ⟨_, _, he⟩ => nomatch he⟩
  | @word items v v' y _ _ _ hy ih =>
    intro i hi x hx
    rcases List.mem_append.mp hi with hi | hi
    · exact ih i hi x hx
    · obtain rfl := List.mem_singleton.mp hi
      obtain rfl := List.mem_singleton.mp hx
      exact ⟨fun hs => absurd hs hy, fun ⟨_, _, he⟩ => nomatch he⟩
  | quiet _ _ _ ih => exact ih

/-! ### Small steps -/

/-- A report that turns a request away says no fill. -/
theorem Order.not_saysFilled_of_reject (h : o.orderState.isReject = true) : ¬o.SaysFilled := by
  rintro ⟨hs | hs, -⟩ <;> rw [hs] at h <;> cases h

/-- A new order is opened, with nothing taken from it. -/
theorem Order.From.balanced {n : ℕ} (ho : o.From q n) (hacc : Accounts items v)
    (hn : n = v.nextId) : o.Balanced e items := by
  rw [Order.Balanced, hacc.fresh e o.orderId (by rw [ho.orderId, hn]), ho.whole.1, Nat.add_zero]

theorem Step.kept {x y : World × List Held} (h : Step e q x y) (hq : q.side ≠ .buySellStop)
    (hx : Sound Terms.OneLegged e x) (hk : ∃ items, Kept past items e w x.1) :
    ∃ items, Kept past items e w y.1 := by
  obtain ⟨items, hk⟩ := hk
  have hsnd := hx.stores
  cases h with
  | arg o => exact ⟨_, hk.congr (fun _ => rfl) (Emits.setArg _ o) le_rfl⟩
  | bump => exact ⟨_, hk.congr (fun _ => rfl) (Emits.bumpId _) (Nat.le_succ _)⟩
  | @reject v hs o hr hst =>
    have hk' : Kept past items e w (v.setArg o) := hk.congr (fun _ => rfl) (Emits.setArg v o) le_rfl
    exact ⟨_, hk'.say (Order.not_saysFilled_of_reject hst)⟩
  | @taker v v' hs o s ho ht hex =>
    have hpos := ho.whole
    have hread : (v.bumpId.setArg o).readRef e .arg = .ok o := rfl
    have hk' : Kept past items e w (v.bumpId.setArg o) :=
      hk.congr (fun _ => rfl) ((Emits.bumpId v).trans (Emits.setArg _ o)) (Nat.le_succ _)
    have hstart : Taken past Terms.OneLegged v.nextId e hs s .arg w (v.bumpId.setArg o) :=
      ⟨hsnd.congr fun _ => rfl, Nat.le_succ _, fun _ => Nat.lt_succ_self _, items, o, hk', hread,
        ho.takerOk ht hq, ho.balanced hk.accounts rfl, fun _ => ho.opened⟩
    exact execute_kept hstart (OffBook.arg _ _) ((hx.legs s).congr rfl) hread (by omega) hex
  | @fire v v' hs o s id ho hex =>
    have hf := hx.fires ho hex fun _ _ => Exec.oneLeg_of_oneLegged
    obtain ⟨t, hwait⟩ := hf.waits
    have hread : v.readRef e (.entry id) = .ok o := by simp [World.readRef, World.deref, ho]
    have hk' : Kept past items e w (v.putOrder e id { o with price := o.stopLimit s }) :=
      hk.write hread rfl rfl rfl
    have hstart : Taken past Terms.OneLegged v.nextId e (⟨none, id⟩ :: hs) s (.entry id) w
        (v.putOrder e id { o with price := o.stopLimit s }) :=
      ⟨hf.stores, le_rfl, fun hr => (by cases hr), items, _, hk', hf.read, hf.taker,
        (hk.accounts.orders e id o ho).2, fun _ => hwait.opened⟩
    exact execute_kept hstart hf.offBook
      ((hx.legs s).congr (World.conf_writeRef v e e (.entry id) _)) hf.read hf.remain hex
  | @collect v hs s hit =>
    have hem : Emits v (v.setStops e s ((v.stops e s).filter fun l => !hit l)) [] := Emits.upd ..
    refine ⟨_, hk.steady (fun l id => ?_) hem le_rfl⟩
    by_cases hl : l = e
    · rw [World.order?, World.order?, hl, World.setStops_eq, World.store_upd, if_pos rfl,
        Store.odrMap_setStops]
    · rw [World.order?, World.order?, World.store_setStops_ne hl]
  | @register v hs o ho hp hne hl =>
    have hnone : ((v.bumpId.setArg o).store e).odrMap.find? o.orderId = none :=
      (hsnd.self.unused ho.orderId.ge).1
    have hreg := World.registered e hnone rfl o.stopSides o.stopSides_nodup
    have hk' : Kept past items e w (v.bumpId.setArg o) :=
      hk.congr (fun _ => rfl) ((Emits.bumpId v).trans (Emits.setArg _ o)) (Nat.le_succ _)
    refine ⟨_,
      (hk'.silent (fun l id x hx => ?_)
      (Emits.registerStops _ e o.stopSides) hreg.nextId.ge fun l id _ _ => ?_).say ?_⟩
    · by_cases hle : l = e
      · subst hle
        rw [World.order?, hreg.find] at hx
        split_ifs at hx with hc
        · obtain rfl := Option.some.inj hx
          exact .inr ⟨hc.1 ▸ hnone, hreg.arg.symm, hc.1.symm⟩
        · exact .inl ⟨x, hx, rfl, rfl, rfl⟩
      · rw [World.order?, hreg.other l hle] at hx
        exact .inl ⟨x, hx, rfl, rfl, rfl⟩
    · rw [hreg.arg]
      exact ho.balanced hk.accounts rfl
    · rintro ⟨hs | hs, -⟩ <;> rw [ho.opened] at hs <;> cases hs
  | @drop v hs id =>
    have hem : Emits v (v.eraseOrder e id) [] := Emits.upd ..
    refine ⟨_, hk.touch (fun l j x hx => ⟨x, ?_, rfl, rfl, rfl⟩) hem le_rfl⟩
    by_cases hl : l = e
    · rw [World.order?, hl, World.eraseOrder_eq, World.store_upd, if_pos rfl, Store.odrMap_withMap,
        OrdMap.find?_erase] at hx
      split_ifs at hx
      exact hl ▸ hx
    · rwa [World.order?, World.store_eraseOrder_ne hl] at hx

/-! ### Openings -/

theorem Opening.kept {y : World × List Held} (h : Opening e q v y)
    (hx : Sound Terms.OneLegged e (v, [])) (hk : Kept past items e w v) :
    ∃ items, Kept past items e w y.1 := by
  have hsnd := hx.stores
  have hread : ∀ {o : Order}, (v.store e).odrMap.find? q.orderId = some o →
      v.readRef e (.entry q.orderId) = .ok o := fun ho => by
    simp [World.readRef, World.deref, ho]
  have hdead : ∀ {o : Order} {st : OrderStatus}, cancelState q.orderAction = some st →
      ¬({ o with orderState := st } : Order).SaysFilled := by
    intro o st hst hs
    unfold cancelState at hst
    split at hst <;> cases hst <;> rcases hs.1 with hs | hs <;> cases hs
  cases h with
  | same => exact ⟨_, hk⟩
  | @refused o hbad hr hst =>
    have hk' : Kept past items e w (v.setArg o) := hk.congr (fun _ => rfl) (Emits.setArg v o) le_rfl
    exact ⟨_, hk'.say (Order.not_saysFilled_of_reject hst)⟩
  | @amended o a hf hc hpos =>
    set o' := amendInPlace { o with orderAction := a } q with ho'
    set u := (v.putOrder e q.orderId o').callback e o' with hu
    have hid : o'.orderId = q.orderId := (hsnd.self.key hf).1
    have hem : Emits v u [(e, o')] :=
      (Emits.writeRef v e (.entry q.orderId) o').trans (Emits.callback _ e o')
    have hfind : ∀ l j, u.order? l j = if e = l ∧ q.orderId = j then some o'
        else v.order? l j := fun l j => by
      rw [World.order?, hu, World.store_callback]
      refine (World.find_writeRef v e l (.entry q.orderId) o' j).trans (if_congr ?_ rfl rfl)
      simp [eq_comm]
    have hn : u.nextId = v.nextId := World.nextId_callback ..
    refine ⟨_,
      hk.amend (x := (e, o'))
      ⟨hem.delivered hk.delivers, ⟨o, hid ▸ hf, canAmend_le hc⟩, rfl, ?_,
      fun l j hne => ?_⟩ hem hn.ge⟩
    · show u.order? e o'.orderId = some o'
      rw [hfind, if_pos ⟨rfl, hid.symm⟩]
    · rw [hfind, if_neg fun hc => hne ⟨hc.1, hid.trans hc.2⟩]
  | @unbooked o a st t is hf hst hl hlev =>
    set u := v.ackCancel e q.orderId { o with orderAction := a } st
    have hk' : Kept past
        (items ++ [.word (e, { o with orderAction := a, orderState := st })]) e w u :=
      hk.kill (hread hf) rfl rfl rfl (hdead hst)
    have hem : Emits u (u.setBook e t (((v.store e).book t).eraseAt o.price o.orderId)) [] :=
      Emits.upd ..
    refine ⟨_, hk'.steady (fun l j => ?_) hem le_rfl⟩
    by_cases hl : l = e
    · rw [World.order?, World.order?, hl, World.setBook_eq, World.store_upd, if_pos rfl,
        Store.odrMap_setBook]
    · rw [World.order?, World.order?, World.store_setBook_ne hl]
  | @unstopped o a st ss hf hst hl hlev =>
    set u := v.ackCancel e q.orderId { o with orderAction := a } st
    have hk' : Kept past
        (items ++ [.word (e, { o with orderAction := a, orderState := st })]) e w u :=
      hk.kill (hread hf) rfl rfl rfl (hdead hst)
    have hdrop := World.dropped e o ss u (Order.lookup_nodup hl)
    refine ⟨_, hk'.steady (fun l j => ?_) (Emits.dropStops o e ss u) hdrop.nextId.ge⟩
    by_cases hle : l = e
    · rw [World.order?, World.order?, hle, hdrop.find]
    · rw [World.order?, World.order?, hdrop.other l hle]

/-! ### Calls and runs -/

/-- Between the calls of a run that made the reports `past`. -/
structure World.Balanced (w : World) (past : List Item) : Prop where
  ordered : w.Ordered Terms.OneLegged
  idle : w.Idle
  accounts : Accounts past w

theorem World.Fresh.balanced (h : w.Fresh) : w.Balanced [] :=
  ⟨h.ordered _, h.idle, .empty fun l id => by rw [World.order?, h.store]; rfl⟩

/-- What a call with the request reports is a trail that keeps the books. -/
theorem handle_kept (ht : q.IsTrade) (hq : q.side ≠ .buySellStop)
    (hau : q.timeCondition ≠ .auction) (hap : ∀ s, LegsApart w e s) (hw : w.Balanced past)
    (h : handle w e q = .ok w') : ∃ items, Trail e w items w' ∧ w'.Balanced (past ++ items) := by
  have hidle' := handle_idle hw.idle h
  obtain ⟨held, _, ⟨hstray, _⟩ | ⟨_, v, hv, rfl⟩⟩ := handle_cases h
  · exact absurd hstray.1 hau
  have hent : Emits w (w.enter e q held) [] :=
    Emits.silent (fun l => by rw [World.isAuction_enter, if_neg fun hc => hau hc.2])
    (World.reports_enter ..) fun l => World.cbRecords_enter ..
  have hk : Kept past [] e w w :=
    ⟨.nil, by rw [List.append_nil]; exact hw.accounts, hw.idle.isAuction⟩
  obtain ⟨x, hs, hop, hsteps⟩ := dispatch_steps (World.arg_enter w e q held) ht hv
  have hstart : Sound Terms.OneLegged e (w.enter e q held, []) :=
    ⟨hw.ordered.enter.soundAt e, fun s => (hap s).congr (World.conf_enter ..)⟩
  have hx :=
    hop.kept hstart (hk.congr (fun l => World.store_enter ..) hent (World.nextId_enter ..).ge)
  have hgood : ∀ z ∈ v.execs, (fun _ : Exec => True) z := fun _ _ => trivial
  obtain ⟨hsnd, items, hdone⟩ := hsteps.induct
    (I := fun z => Sound Terms.OneLegged e z ∧ ∃ items, Kept past items e w z.1)
    (fun hstep _ hz => ⟨hstep.sound hq (fun _ _ => Exec.oneLeg_of_oneLegged) hz.1,
      hstep.kept hq hz.1 hz.2⟩) hgood ⟨hop.sound hstart, hx⟩
  have hleave : Emits v (unlock (flushAuction v e) e) [] := by
    refine Emits.silent (fun l => ?_) ?_ fun l => ?_
    · rw [World.engines_unlock, World.isAuction_flush, hdone.delivers, ite_self]
    · rw [World.reports_unlock, World.reports_flush, hdone.delivers]
      simp
    · rw [World.engines_unlock, World.cbRecords_flush, hdone.delivers]
      simp
  have hend := hdone.congr (fun l => by rw [World.store_unlock, World.store_flush]) hleave
    (by rw [World.nextId_unlock, World.nextId_flush])
  exact ⟨items, hend.trail, hsnd.stores.ordered.leave, hidle', hend.accounts⟩

theorem run_kept : ∀ (rs : List (ℕ × Order)) {w : World} {past : List Item},
    (∀ x ∈ rs, x.2.IsTrade ∧ x.2.side ≠ .buySellStop ∧ x.2.timeCondition ≠ .auction) →
      (∀ x ∈ rs, ∀ s, LegsApart w x.1 s) →
    w.Balanced past → run w rs = .ok w' →
    ∃ calls, Ledger w rs calls w' ∧ w'.Balanced (past ++ calls.flatten)
  | [], w, past, _, _, hw, h => by
    obtain rfl := Except.ok.inj h
    exact ⟨[], .nil w, by simpa using hw⟩
  | (l, q) :: rs, w, past, hrs, hap, hw, h => by
    obtain ⟨v, hv, h⟩ := bind_ok.mp h
    obtain ⟨ht, hq, hau⟩ := hrs (l, q) List.mem_cons_self
    obtain ⟨items, htrail, hbal⟩ := handle_kept ht hq hau (hap (l, q) List.mem_cons_self) hw hv
    obtain ⟨calls, hledger, hdone⟩ := run_kept rs (fun x hx => hrs x (List.mem_cons_of_mem _ hx))
      (fun x hx s => (hap x (List.mem_cons_of_mem _ hx) s).congr (handle_conf hv x.1)) hbal h
    refine ⟨items :: calls, .call hv htrail hledger, ?_⟩
    rwa [List.flatten_cons, ← List.append_assoc]

theorem Ledger.reports {rs : List (ℕ × Order)} {calls : List (List Item)}
    (h : Ledger w rs calls w') :
    w'.reports = w.reports ++ calls.flatten.flatMap Item.reports := by
  induction h with
  | nil => exact (List.append_nil _).symm
  | call _ ht _ ih => rw [ih, ht.reports, List.flatten_cons, List.flatMap_append, List.append_assoc]

theorem Ledger.saysFilled {rs : List (ℕ × Order)} {calls : List (List Item)}
    (h : Ledger w rs calls w') :
    ∀ i ∈ calls.flatten, ∀ x ∈ i.reports, x.2.SaysFilled ↔ ∃ ms t, i = .fill ms t := by
  induction h with
  | nil => exact fun i hi => nomatch hi
  | call _ ht _ ih =>
    intro i hi
    rw [List.flatten_cons] at hi
    exact (List.mem_append.mp hi).elim (ht.saysFilled i) (ih i)

/-- The execution ledger: the calls of a run split into trails, whose execution steps make the
    reports of fills and no others, and the accounts of all orders balance. -/
theorem run_ledger {rs : List (ℕ × Order)} (h0 : w0.Fresh)
    (hap : ∀ x ∈ rs, ∀ s, LegsApart w0 x.1 s)
    (hrs : ∀ x ∈ rs, x.2.IsTrade ∧ x.2.side ≠ .buySellStop ∧ x.2.timeCondition ≠ .auction)
    (hrun : run w0 rs = .ok w) :
    ∃ calls, Ledger w0 rs calls w ∧ w.reports = w0.reports ++ calls.flatten.flatMap Item.reports ∧
      Accounts calls.flatten w ∧
      ∀ i ∈ calls.flatten, ∀ x ∈ i.reports, x.2.SaysFilled ↔ ∃ ms t, i = .fill ms t := by
  obtain ⟨calls, hledger, hbal⟩ := run_kept rs hrs hap h0.balanced hrun
  exact ⟨calls, hledger, hledger.reports, hbal.accounts, hledger.saysFilled⟩

/-- A seller in each leg, and a buyer of their sum. -/
def sumBuyer : List (ℕ × Order) :=
  [(1, { Order.default with side := .sell, price := 50, quantity := 5 }),
    (2, { Order.default with side := .sell, price := 50, quantity := 3 }),
    (0, { Order.default with price := 100, quantity := 2 })]

theorem sumLegs_legsApart (l : ℕ) (s : Side) : LegsApart sumLegs l s := by
  have hlegs : (sumLegs.conf l).legs s =
      if s = .buy ∧ l = 0 then [(1, .buy), (2, .buy)] else [] := by
    cases s <;> by_cases hl : l = 0 <;>
      simp [sumLegs, sumImplier, World.start, World.conf, Config.legs, Config.impliers, hl]
  constructor
  · rw [hlegs]
    split_ifs <;> decide
  · rw [hlegs]
    intro x hx
    split_ifs at hx with hc
    · rw [hc.2]
      exact (by decide : ∀ x ∈ [((1 : ℕ), Side.buy), (2, .buy)], x.1 ≠ 0) x hx
    · cases hx

theorem run_ledger_sumBuyer : ∃ w, run sumLegs sumBuyer = .ok w ∧
    w.reports.map
      (fun x => (x.1, x.2.orderId, x.2.matchedId, x.2.lastMatchQuantity, x.2.remainQuantity)) =
      [(1, 1000, 0, 0, 5), (2, 1001, 0, 0, 3), (1, 1000, 1003, 2, 3), (2, 1001, 1003, 2, 1),
        (0, 1002, 1003, 2, 0)] ∧
    ∃ calls, Ledger sumLegs sumBuyer calls w ∧
      w.reports = [] ++ calls.flatten.flatMap Item.reports ∧ Accounts calls.flatten w ∧
      ∀ i ∈ calls.flatten, ∀ x ∈ i.reports, x.2.SaysFilled ↔ ∃ ms t, i = .fill ms t := by
  have h0 : sumLegs.Fresh := by
    have hstart := World.start_fresh 1 1000
    exact ⟨fun l => hstart.store l, fun l => hstart.cbRecords l, fun l => hstart.isAuction l,
      fun l => hstart.mutexSet l, fun l => hstart.locked l, rfl, rfl⟩
  have hrs : ∀ x ∈ sumBuyer, x.2.IsTrade ∧ x.2.side ≠ .buySellStop ∧
    x.2.timeCondition ≠ .auction := by decide
  have hreports : (run sumLegs sumBuyer).map (fun w => w.reports.map
      fun x => (x.1, x.2.orderId, x.2.matchedId, x.2.lastMatchQuantity, x.2.remainQuantity)) =
      .ok [(1, 1000, 0, 0, 5), (2, 1001, 0, 0, 3), (1, 1000, 1003, 2, 3), (2, 1001, 1003, 2, 1),
        (0, 1002, 1003, 2, 0)] := by
    decide +kernel
  rcases hrun : run sumLegs sumBuyer with f | w
  · rw [hrun] at hreports
    cases hreports
  · rw [hrun] at hreports
    exact ⟨w, rfl, Except.ok.inj hreports,
      run_ledger h0 (fun x _ => sumLegs_legsApart x.1) hrs hrun⟩

end Matching
