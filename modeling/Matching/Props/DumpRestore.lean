import Matching.Engine.Restore
import Matching.Props.Consistent
import Matching.Props.EngineCopy

/-! A dump and its restoration. What a `DUMP` delivers, handled by a fresh engine in whatever order
    it arrives, makes the orders and the books of the dumped engine again exactly when every live
    order is one the insert branch of `handle` puts back where it was (`Restorable`): it does not
    for a waiting sell stop, which goes to the buyers' stop book, for a stop that rests at another
    price than its limit, and for a two-legged stop that rests. Then the restored engine answers
    later requests as the dumped one does. -/

namespace Matching

variable {w w' w0 v0 : World} {e k id : ℕ} {o d q : Order} {os : List Order}

/-- The insert branch puts the order back where it was: a plain order, a two-legged stop that waits,
    a buy stop that waits or rests at its limit, a sell stop that rests at its limit. -/
def Order.Restorable (o : Order) : Prop :=
  match o.side with
  | .buy | .sell => True
  | .buyStop => o.price = o.buyStopLimitPrice ↔ o.price ≠ stopPrice
  | .sellStop => o.price = o.sellStopLimitPrice ∧ o.price ≠ stopPrice
  | .buySellStop => o.price = stopPrice
  | .other _ => False

instance (o : Order) : Decidable o.Restorable := by
  unfold Order.Restorable
  cases o.side <;> infer_instance

/-- The live orders of an engine, as a `DUMP` delivers them. -/
def World.dumped (w : World) (e : ℕ) : List Order :=
  (w.store e).odrMap.entries.map fun x => dumpOrder x.2

/-- What a `DUMP` ends with. -/
def dumpEndMark : Order := { Order.default with orderAction := .dumpEnd }

/-- The shelves `handle_cancel` takes an order from. -/
def Order.shelves (o : Order) : List Shelf :=
  match o.lookup with
  | .inl t => [.inl t]
  | .inr ss => ss.map .inr

/-! ### One order -/

@[simp] theorem orderId_dumpOrder (o : Order) : (dumpOrder o).orderId = o.orderId := by
  unfold dumpOrder
  split <;> rfl

@[simp] theorem slots_dumpOrder (o : Order) : (dumpOrder o).slots = o.slots := by
  unfold dumpOrder
  split <;> rfl

/-- The mark of a live order is renamed and renamed back; what may change is the price. -/
theorem inserted_dumpOrder (h : o.Sent) :
    (dumpOrder o).inserted = { o with price := o.insertedPrice } := by
  rcases h.action with ha | ha
  · simp only [dumpOrder, ha, Order.inserted]
    rw [← ha]
    rfl
  · simp only [dumpOrder, ha, Order.inserted]
    rw [← ha]
    rfl

theorem dumpOrder_putsBack (h : o.Sent) : (dumpOrder o).PutsBack := by
  have hside : (dumpOrder o).side = o.side := by
    unfold dumpOrder
    split <;> rfl
  have htime : (dumpOrder o).timeCondition = o.timeCondition := by
    unfold dumpOrder
    split <;> rfl
  refine ⟨?_, hside ▸ h.side, fun hs => h.stray ?_⟩
  · rcases h.action with ha | ha
    · exact .inl (by simp only [dumpOrder, ha])
    · exact .inr (by simp only [dumpOrder, ha])
  · rw [Order.Stray, hside, htime] at hs
    exact hs

/-- An order is restorable when neither its price nor its place changes. -/
theorem Order.restorable_iff (h : o.Sent) :
    o.Restorable ↔ o.insertedPrice = o.price ∧ ∀ x, x ∈ o.slots ↔ x ∈ o.shelves := by
  cases hside : o.side with
  | buy =>
    simp [Order.Restorable, Order.insertedPrice, Order.slots, Order.shelves, Order.lookup, hside]
  | sell =>
    simp [Order.Restorable, Order.insertedPrice, Order.slots, Order.shelves, Order.lookup, hside]
  | buyStop =>
    simp only [Order.Restorable, Order.insertedPrice, Order.slots, Order.shelves,
      Order.lookup, hside]
    by_cases hp : o.price = stopPrice
    · by_cases hl : stopPrice = o.buyStopLimitPrice <;> simp [hp, hl]
    · by_cases hl : o.price = o.buyStopLimitPrice
      · simp [← hl, hp]
      · simp [hl, hp, Ne.symm hp]
  | sellStop =>
    simp only [Order.Restorable, Order.insertedPrice, Order.slots, Order.shelves,
      Order.lookup, hside]
    by_cases hp : o.price = stopPrice
    · by_cases hl : stopPrice = o.sellStopLimitPrice <;> simp [hp, hl]
    · by_cases hl : o.price = o.sellStopLimitPrice
      · simp [← hl, hp]
      · simp [hl, hp, Ne.symm hp]
  | buySellStop =>
    simp only [Order.Restorable, Order.insertedPrice, Order.slots, Order.shelves,
      Order.lookup, hside]
    by_cases hp : o.price = stopPrice
    · simp [hp]
    · by_cases hl : o.price = o.buyStopLimitPrice
      · simp [← hl, hp]
      · simp [hl, hp]
  | other c => exact absurd hside (h.side c)

/-! ### The dumped engine -/

namespace Housed

/-- A live order is on the shelves it is looked for on, and on no other. -/
theorem on_shelf (h : Housed e (w, [])) (ho : (w.store e).odrMap.find? id = some o) (x : Shelf)
    (p : ℤ) :
    ((w.store e).shelf x).At p id ↔ x ∈ o.shelves ∧ o.keyOn x = p := by
  rcases h.where_is ho with ⟨⟨t, hl, hbook⟩, hoff⟩ | ⟨⟨_, _, hl, hstops⟩, hoff⟩
  · have hshelves : o.shelves = [.inl t] := by simp only [Order.shelves, hl]
    rw [hshelves, List.mem_singleton]
    cases x with
    | inl u => simp only [Store.shelf, hbook, Sum.inl.injEq, Order.keyOn, eq_comm]
    | inr s =>
      simp only [reduceCtorEq, false_and, iff_false]
      exact fun hat => hoff s hat.mem_ids
  · have hshelves : o.shelves = o.stopSides.map .inr := by simp only [Order.shelves, hl]
    rw [hshelves, List.mem_map]
    cases x with
    | inl u =>
      simp only [reduceCtorEq, and_false, exists_false, false_and, iff_false]
      exact fun hat => hoff u hat.mem_ids
    | inr s =>
      simp only [Store.shelf, hstops, Sum.inr.injEq, exists_eq_right, Order.keyOn]
      exact and_congr_right fun _ => eq_comm

theorem shelf_wf (h : Housed e (w, [])) (x : Shelf) : ((w.store e).shelf x).WF (Shelf.cmp x) := by
  cases x with
  | inl t => exact h.lone.sound.stores.self.books.wf t
  | inr s => exact h.lone.sound.stores.self.stopsWf s

/-- What is on a shelf is live. -/
theorem live_of_shelf (h : Housed e (w, [])) {x : Shelf} {p : ℤ}
    (hat : ((w.store e).shelf x).At p id) :
    ∃ o, (w.store e).odrMap.find? id = some o := by
  have hentry : ∃ o, (w.store e).odrMap.find? id = some o ∧ o.orderId = id ∧
      0 < o.remainQuantity := by
    cases x with
    | inl t => exact h.consistent.entries (t := t) (p := p) (.inl hat)
    | inr s => exact h.consistent.entries (t := s) (p := p) (.inr hat)
  obtain ⟨o, ho, _⟩ := hentry
  exact ⟨o, ho⟩

theorem mem_dumped :
    d ∈ w.dumped e ↔ ∃ id o, (w.store e).odrMap.find? id = some o ∧ dumpOrder o = d := by
  simp only [World.dumped, List.mem_map, Prod.exists, OrdMap.mem_entries]

/-- No two dumped orders have the same id. -/
theorem dumped_nodup (h : Housed e (w, [])) : ((w.dumped e).map Order.orderId).Nodup := by
  have hkeys : (w.dumped e).map Order.orderId = (w.store e).odrMap.entries.map Prod.fst := by
    rw [World.dumped, List.map_map]
    refine List.map_congr_left fun x hx => ?_
    have hfind : (w.store e).odrMap.find? x.1 = some x.2 := OrdMap.mem_entries.mp hx
    exact (orderId_dumpOrder x.2).trans (h.lone.sound.stores.self.key hfind).1
  rw [hkeys]
  exact (List.pairwise_map.mpr ((w.store e).odrMap.sorted.imp fun hlt => hlt.ne))

/-- A store with the dumped orders is the dumped one exactly when all of them are restorable. -/
theorem restored_iff (h : Housed e (w, [])) (hs : w.AllSent) {g : Store} (hg : g.Holds os)
    (hos : os.Perm (w.dumped e)) :
    g = w.store e ↔ ∀ id o, w.order? e id = some o → o.Restorable := by
  have hmem : ∀ {d}, d ∈ os ↔ ∃ id o, (w.store e).odrMap.find? id = some o ∧ dumpOrder o = d :=
    fun {d} => hos.mem_iff.trans mem_dumped
  have hkey : ∀ {id o}, (w.store e).odrMap.find? id = some o → o.orderId = id :=
    fun ho => (h.lone.sound.stores.self.key ho).1
  have hlive : ∀ {id o}, (w.store e).odrMap.find? id = some o →
      g.odrMap.find? id = some { o with price := o.insertedPrice } := fun {id o} ho =>
    (hg.find _ _).mpr
      ⟨dumpOrder o, hmem.mpr ⟨id, o, ho, rfl⟩, (orderId_dumpOrder o).trans (hkey ho),
      inserted_dumpOrder (hs e id o ho)⟩
  have hshelf : ∀ {id o}, (w.store e).odrMap.find? id = some o → ∀ x p,
      (g.shelf x).At p id ↔
        x ∈ o.slots ∧ ({ o with price := o.insertedPrice } : Order).keyOn x = p := by
    intro id o ho x p
    rw [hg.entry]
    constructor
    · rintro ⟨d, hd, hid, hx, hp⟩
      obtain ⟨id', o', ho', rfl⟩ := hmem.mp hd
      obtain rfl : id' = id := (hkey ho').symm.trans ((orderId_dumpOrder o').symm.trans hid)
      obtain rfl := Option.some.inj (ho'.symm.trans ho)
      rw [inserted_dumpOrder (hs e _ _ ho)] at hp
      exact ⟨slots_dumpOrder o' ▸ hx, hp⟩
    · rintro ⟨hx, hp⟩
      refine ⟨dumpOrder o, hmem.mpr ⟨id, o, ho, rfl⟩, (orderId_dumpOrder o).trans (hkey ho),
        (slots_dumpOrder o).symm ▸ hx, ?_⟩
      rw [inserted_dumpOrder (hs e _ _ ho)]
      exact hp
  constructor
  · intro heq id o ho
    have hfind : (w.store e).odrMap.find? id = some o := ho
    have hprice : o.insertedPrice = o.price := by
      have hsame := hlive hfind
      rw [heq, hfind] at hsame
      exact (congrArg Order.price (Option.some.inj hsame)).symm
    refine (Order.restorable_iff (hs e id o hfind)).mpr ⟨hprice, fun x => ?_⟩
    have hboth :=
      fun p => (hshelf hfind x p).symm.trans
        ((by rw [heq]) : (g.shelf x).At p id ↔ ((w.store e).shelf x).At p id)
    constructor
    · intro hx
      exact ((h.on_shelf hfind x _).mp ((hboth _).mp ⟨hx, rfl⟩)).1
    · intro hx
      exact ((hboth _).mpr ((h.on_shelf hfind x _).mpr ⟨hx, rfl⟩)).1
  · intro hall
    have hsame : ∀ {id o}, (w.store e).odrMap.find? id = some o →
        ({ o with price := o.insertedPrice } : Order) = o ∧ ∀ x, x ∈ o.slots ↔
          x ∈ o.shelves := fun {id o} ho => by
      obtain ⟨hp, hx⟩ := (Order.restorable_iff (hs e id o ho)).mp (hall id o ho)
      exact ⟨by rw [hp], hx⟩
    have hat : ∀ x p id, (g.shelf x).At p id ↔ ((w.store e).shelf x).At p id := by
      intro x p id
      rcases hf : (w.store e).odrMap.find? id with _ | o
      · constructor
        · intro hat
          obtain ⟨d, hd, hid, _⟩ := (hg.entry x p id).mp hat
          obtain ⟨id', o', ho', rfl⟩ := hmem.mp hd
          obtain rfl : id' = id := (hkey ho').symm.trans ((orderId_dumpOrder o').symm.trans hid)
          rw [hf] at ho'
          cases ho'
        · intro hat
          obtain ⟨o, ho⟩ := h.live_of_shelf hat
          rw [hf] at ho
          cases ho
      · rw [hshelf hf, h.on_shelf hf, (hsame hf).1, (hsame hf).2]
    refine Store.ext_containers (OrdMap.ext_find fun id => ?_) (fun t => ?_) fun s => ?_
    · rcases hf : (w.store e).odrMap.find? id with _ | o
      · rcases hg' : g.odrMap.find? id with _ | o'
        · rfl
        · obtain ⟨d, hd, hid, _⟩ := (hg.find _ _).mp hg'
          obtain ⟨id', o, ho, rfl⟩ := hmem.mp hd
          obtain rfl : id' = id := (hkey ho).symm.trans ((orderId_dumpOrder o).symm.trans hid)
          rw [hf] at ho
          cases ho
      · rw [hlive hf, (hsame hf).1]
    · exact (hg.wf (.inl t)).ext (h.shelf_wf (.inl t)) fun p id => hat (.inl t) p id
    · exact (hg.wf (.inr s)).ext (h.shelf_wf (.inr s)) fun p id => hat (.inr s) p id

end Housed

/-! ### The dump and the restored engine -/

/-- What a `DUMP` delivers. -/
theorem handle_dumped (hidle : w.Idle) (hd : d.orderAction = .dump)
    (ht : d.timeCondition ≠ .auction) (h : handle w e d = .ok w') :
    w'.reports = w.reports ++ (w.dumped e ++ [dumpEndMark]).map (Prod.mk e) ∧
      w'.store e = w.store e := by
  obtain ⟨held, _, ⟨hs, _⟩ | ⟨_, v, hv, rfl⟩⟩ := handle_cases h
  · exact absurd hs.1 ht
  have harg : (w.enter e d held).arg = d := World.arg_enter ..
  simp only [dispatch, harg, hd, Except.ok.injEq] at hv
  subst hv
  refine ⟨?_, ?_⟩
  · have hauction : ((handleDump (w.enter e d held) e).engines e).isAuction = false := by
      rw [(handleDump_calm _ e).auction, World.isAuction_enter, if_neg fun hc => ht hc.2]
      exact hidle.isAuction e
    have hemits : ∀ (xs : List (ℕ × Order)) (v : World),
        xs.foldl (fun v x => v.emit e (dumpOrder x.2)) v =
        { v with reports := v.reports ++ (xs.map fun x => dumpOrder x.2).map (Prod.mk e) } :=
        fun xs v => by
      rw [← World.emitAll, List.foldl_map]
    have hdelivered : (handleDump (w.enter e d held) e).reports =
        w.reports ++ (w.dumped e ++ [dumpEndMark]).map (Prod.mk e) := by
      simp only [handleDump, hemits]
      simp only [World.emit, World.reports_enter, World.store_enter, List.map_append,
        List.append_assoc]
      rfl
    rw [World.reports_unlock, World.reports_flush, hauction, if_neg Bool.false_ne_true,
      List.append_nil, hdelivered]
  · rw [World.store_unlock, World.store_flush, (handleDump_same _ e).1, World.store_enter]

/-- The order object left behind by the last call is not read by the next one. -/
theorem answers_setArg (w : World) (l : ℕ) (o : Order) :
    ∀ qs : List Order, (w.setArg o).answers l qs = w.answers l qs
  | [] => rfl
  | _ :: _ => rfl

/-- Two idle engines without impliers, with the same containers and the same tick, answer alike. -/
theorem answers_of_store {v : World} (hw : w.Plain e) (hv : v.Plain k) (hwidle : w.Idle)
    (hvidle : v.Idle) (hst : v.store k = w.store e)
    (htick : (v.conf k).miniTick = (w.conf e).miniTick) (hnext : v.nextId = w.nextId)
    (hwfree : w.locked e = false) (hvfree : v.locked k = false) (qs : List Order) :
    v.answers k qs = w.answers e qs := by
  obtain ⟨r, hr⟩ := answers_put (w.own e) rfl qs
  have hplace : (v.around k).place (w.engines e) = (v.around k).place (v.engines k) := by
    have hrecords : (v.engines k).cbRecords = (w.engines e).cbRecords :=
      (hvidle.cbRecords k).trans (hwidle.cbRecords e).symm
    have hauction : (v.engines k).isAuction = (w.engines e).isAuction :=
      (hvidle.isAuction k).trans (hwidle.isAuction e).symm
    simp only [World.store] at hst
    simp only [World.conf] at htick
    simp only [Around.place, hrecords, hauction, hst, htick]
  have hput : v = ((v.around k).put (w.own e)).setArg v.arg := by
    have hself := World.put_own hv
    have hown : (v.around k).put (v.own k) = ((v.around k).put (w.own e)).setArg v.arg := by
      simp only [Around.put, World.own, World.setArg, hplace, hnext, hwfree, hvfree]
    exact hself.symm.trans hown
  have hself := (hr (w.around e)).1
  rw [World.put_own hw] at hself
  rw [hput, answers_setArg]
  exact (hr (v.around k)).1.trans hself.symm

/-- A seller at 100, a buyer at 90, a stop to buy for at most 106 and a two-legged
    stop, which both wait. -/
def restorables : List Order :=
  [{ Order.default with side := .sell, price := 100, quantity := 5 },
    { Order.default with side := .buy, price := 90, quantity := 5 },
    { Order.default with
    side := .buyStop, quantity := 3, buyStopTriggerPrice := 105, buyStopLimitPrice := 106 },
    { Order.default with
      side := .buySellStop, quantity := 3, buyStopTriggerPrice := 106, buyStopLimitPrice := 107,
      sellStopTriggerPrice := 85,
      sellStopLimitPrice := 80 }]

end Matching
