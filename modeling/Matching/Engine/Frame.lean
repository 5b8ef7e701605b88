import Matching.Engine.Handle

/-! What each primitive update leaves alone. Every statement about books, stop books and maps is
    read off `store`; a report changes no store whether or not an auction buffers it, and a write
    through a pointer changes one map entry. The last section gives the two halves of an execution
    step in closed form: `fillMaker` (the maker report; a filled maker leaves the front of its book
    and the map) and `fillTaker`. -/

namespace Matching

/-! ### Pure updates -/

@[simp] theorem updateDisplay_remainQuantity (o : Order) :
    o.updateDisplay.remainQuantity = o.remainQuantity := rfl

section EngineMatch

variable (o : Order) (t : MatchedType) (m : ℕ) (p : ℤ) (q a b : ℕ)

@[simp] theorem engineMatch_price : (engineMatch o t m p q a b).price = o.price := rfl
@[simp] theorem engineMatch_orderId : (engineMatch o t m p q a b).orderId = o.orderId := rfl
@[simp] theorem engineMatch_side : (engineMatch o t m p q a b).side = o.side := rfl
@[simp] theorem engineMatch_quantity : (engineMatch o t m p q a b).quantity = o.quantity := rfl
@[simp] theorem engineMatch_timeCondition :
    (engineMatch o t m p q a b).timeCondition = o.timeCondition := rfl
@[simp] theorem engineMatch_orderAction : (engineMatch o t m p q a b).orderAction = o.orderAction :=
  rfl
@[simp] theorem engineMatch_stopTrigger (s : Side) :
    (engineMatch o t m p q a b).stopTrigger s = o.stopTrigger s := by cases s <;> rfl
@[simp] theorem engineMatch_stopLimit (s : Side) :
    (engineMatch o t m p q a b).stopLimit s = o.stopLimit s := by cases s <;> rfl
@[simp] theorem engineMatch_remainQuantity :
    (engineMatch o t m p q a b).remainQuantity = subU64 o.remainQuantity q := rfl
@[simp] theorem engineMatch_matchedId : (engineMatch o t m p q a b).matchedId = m := rfl

@[simp] theorem engineMakerMatch_orderId : (engineMakerMatch o m q a b).orderId = o.orderId := rfl
@[simp] theorem engineMakerMatch_price : (engineMakerMatch o m q a b).price = o.price := rfl
@[simp] theorem engineMakerMatch_remainQuantity :
    (engineMakerMatch o m q a b).remainQuantity = subU64 o.remainQuantity q := rfl

end EngineMatch

theorem subU64_of_le {a b : ℕ} (h : b ≤ a) : subU64 a b = a - b := if_pos h

/-- `o'` is `o` up to what a fill writes, with no more left than `o` has. -/
structure Filled (o o' : Order) : Prop where
  eq : o' = { o with
    matchedType := o'.matchedType
    matchedId := o'.matchedId
    lastMatchPrice := o'.lastMatchPrice
    lastMatchQuantity := o'.lastMatchQuantity
    lastMatchedOrderId := o'.lastMatchedOrderId
    lastMatchedOrderId2 := o'.lastMatchedOrderId2
    remainQuantity := o'.remainQuantity
    displayQuantity := o'.displayQuantity
    orderState := o'.orderState }
  le : o'.remainQuantity ≤ o.remainQuantity

namespace Filled

variable {o o' o'' : Order}

theorem refl (o : Order) : Filled o o := ⟨rfl, le_rfl⟩

theorem trans (h : Filled o o') (h' : Filled o' o'') : Filled o o'' :=
  ⟨by rw [h'.eq, h.eq], h'.le.trans h.le⟩

theorem engineMatch (o : Order) {t : MatchedType} {m : ℕ} {p : ℤ} {q a b : ℕ}
    (hq : q ≤ o.remainQuantity) :
    Filled o (engineMatch o t m p q a b) :=
  ⟨rfl, by rw [engineMatch_remainQuantity, subU64_of_le hq]; exact Nat.sub_le _ _⟩

theorem price (h : Filled o o') : o'.price = o.price := by rw [h.eq]
theorem orderId (h : Filled o o') : o'.orderId = o.orderId := by rw [h.eq]
theorem side (h : Filled o o') : o'.side = o.side := by rw [h.eq]
theorem quantity (h : Filled o o') : o'.quantity = o.quantity := by rw [h.eq]
theorem timeCondition (h : Filled o o') : o'.timeCondition = o.timeCondition := by rw [h.eq]
theorem stopLimit (h : Filled o o') (s : Side) : o'.stopLimit s = o.stopLimit s := by
  rw [h.eq]; cases s <;> rfl

end Filled

namespace Side

@[simp] theorem opp_opp (s : Side) : s.opp.opp = s := by cases s <;> rfl

@[simp] theorem opp_ne (s : Side) : s.opp ≠ s := by cases s <;> simp [opp]

@[simp] theorem ne_opp (s : Side) : s ≠ s.opp := by cases s <;> simp [opp]

theorem eq_opp_of_ne {s t : Side} (h : t ≠ s) : t = s.opp := by
  cases s <;> cases t <;> simp_all [opp]

end Side

namespace Store

/-- Replace the order map. -/
def withMap (g : Store) (m : OrdMap ℕ Order) : Store := { g with odrMap := m }

variable (g : Store) (s t : Side) (b : Book) (m : OrdMap ℕ Order)

@[simp] theorem odrMap_withMap : (g.withMap m).odrMap = m := rfl
@[simp] theorem book_withMap : (g.withMap m).book t = g.book t := by cases t <;> rfl
@[simp] theorem stops_withMap : (g.withMap m).stops t = g.stops t := by cases t <;> rfl
@[simp] theorem book_setBook : (g.setBook s b).book t = if t = s then b else g.book t := by
  cases s <;> cases t <;> rfl
@[simp] theorem stops_setBook : (g.setBook s b).stops t = g.stops t := by
  cases s <;> cases t <;> rfl
@[simp] theorem odrMap_setBook : (g.setBook s b).odrMap = g.odrMap := by cases s <;> rfl
@[simp] theorem stops_setStops : (g.setStops s b).stops t = if t = s then b else g.stops t := by
  cases s <;> cases t <;> rfl
@[simp] theorem book_setStops : (g.setStops s b).book t = g.book t := by cases s <;> cases t <;> rfl
@[simp] theorem odrMap_setStops : (g.setStops s b).odrMap = g.odrMap := by cases s <;> rfl

/-- The five containers are all there is to a store. -/
theorem ext_containers {g h : Store} (hm : g.odrMap = h.odrMap) (hb : ∀ s, g.book s = h.book s)
    (hs : ∀ s, g.stops s = h.stops s) : g = h := by
  have h1 := hb .buy
  have h2 := hb .sell
  have h3 := hs .buy
  have h4 := hs .sell
  cases g; cases h
  simp only [book, stops] at *
  subst hm h1 h2 h3 h4
  rfl

end Store

namespace World

attribute [simp] World.book World.stops World.order?

/-! ### `modify` and `upd` -/

section Upd

variable (w : World) (l l' : ℕ) (f : Store → Store)

@[simp] theorem store_upd :
    (w.upd l f).store l' = if l' = l then f (w.store l) else w.store l' := by
  simp only [store, upd, modify, Function.update_apply]
  split_ifs <;> rfl

@[simp] theorem conf_upd : (w.upd l f).conf l' = w.conf l' := by
  simp only [conf, upd, modify, Function.update_apply]
  split_ifs with h
  · subst h; rfl
  · rfl

@[simp] theorem isAuction_upd : ((w.upd l f).engines l').isAuction = (w.engines l').isAuction := by
  simp only [upd, modify, Function.update_apply]
  split_ifs with h
  · subst h; rfl
  · rfl

@[simp] theorem cbRecords_upd : ((w.upd l f).engines l').cbRecords = (w.engines l').cbRecords := by
  simp only [upd, modify, Function.update_apply]
  split_ifs with h
  · subst h; rfl
  · rfl

@[simp] theorem nextId_upd : (w.upd l f).nextId = w.nextId := rfl
@[simp] theorem arg_upd : (w.upd l f).arg = w.arg := rfl
@[simp] theorem reports_upd : (w.upd l f).reports = w.reports := rfl
@[simp] theorem execs_upd : (w.upd l f).execs = w.execs := rfl
@[simp] theorem locked_upd : (w.upd l f).locked = w.locked := rfl

end Upd

theorem putOrder_eq (w : World) (l id : ℕ) (o : Order) :
    w.putOrder l id o = w.upd l (fun g => g.withMap (g.odrMap.insert id o)) := rfl

theorem eraseOrder_eq (w : World) (l id : ℕ) :
    w.eraseOrder l id = w.upd l (fun g => g.withMap (g.odrMap.erase id)) := rfl

theorem setBook_eq (w : World) (l : ℕ) (s : Side) (b : Book) :
    w.setBook l s b = w.upd l (fun g => g.setBook s b) := rfl

theorem setStops_eq (w : World) (l : ℕ) (s : Side) (b : Book) :
    w.setStops l s b = w.upd l (fun g => g.setStops s b) := rfl

theorem putOrder_putOrder (w : World) (l id : ℕ) (a b : Order) :
    (w.putOrder l id a).putOrder l id b = w.putOrder l id b := by
  simp only [putOrder, upd, modify, Function.update_self, Function.update_idem,
    OrdMap.insert_insert]

theorem putOrder_self {w : World} {l id : ℕ} {o : Order}
    (h : (w.store l).odrMap.find? id = some o) :
    w.putOrder l id o = w := by
  have hm : (w.engines l).odrMap.find? id = some o := h
  simp only [putOrder, upd, modify, OrdMap.insert_self hm, Function.update_eq_self]

attribute [simp] putOrder_eq eraseOrder_eq setBook_eq setStops_eq

/-! ### Updates that touch no store -/

section SetArg

variable (w : World) (l : ℕ) (o : Order)

@[simp] theorem engines_setArg : (w.setArg o).engines = w.engines := rfl
@[simp] theorem store_setArg : (w.setArg o).store l = w.store l := rfl
@[simp] theorem conf_setArg : (w.setArg o).conf l = w.conf l := rfl
@[simp] theorem nextId_setArg : (w.setArg o).nextId = w.nextId := rfl
@[simp] theorem arg_setArg : (w.setArg o).arg = o := rfl
@[simp] theorem reports_setArg : (w.setArg o).reports = w.reports := rfl
@[simp] theorem execs_setArg : (w.setArg o).execs = w.execs := rfl
@[simp] theorem locked_setArg : (w.setArg o).locked = w.locked := rfl

@[simp] theorem engines_bumpId : w.bumpId.engines = w.engines := rfl
@[simp] theorem store_bumpId : w.bumpId.store l = w.store l := rfl
@[simp] theorem conf_bumpId : w.bumpId.conf l = w.conf l := rfl
@[simp] theorem nextId_bumpId : w.bumpId.nextId = w.nextId + 1 := rfl
@[simp] theorem arg_bumpId : w.bumpId.arg = w.arg := rfl
@[simp] theorem reports_bumpId : w.bumpId.reports = w.reports := rfl
@[simp] theorem execs_bumpId : w.bumpId.execs = w.execs := rfl
@[simp] theorem locked_bumpId : w.bumpId.locked = w.locked := rfl

variable (l' : ℕ) (s : Side) (r : Ref)

@[simp] theorem engines_logExec : (w.logExec l s r o).engines = w.engines := rfl
@[simp] theorem store_logExec : (w.logExec l s r o).store l' = w.store l' := rfl
@[simp] theorem conf_logExec : (w.logExec l s r o).conf l' = w.conf l' := rfl
@[simp] theorem nextId_logExec : (w.logExec l s r o).nextId = w.nextId := rfl
@[simp] theorem arg_logExec : (w.logExec l s r o).arg = w.arg := rfl
@[simp] theorem reports_logExec : (w.logExec l s r o).reports = w.reports := rfl
@[simp] theorem execs_logExec :
    (w.logExec l s r o).execs = w.execs ++ [⟨l, s, r, o, w.engines l⟩] := rfl
@[simp] theorem locked_logExec : (w.logExec l s r o).locked = w.locked := rfl

end SetArg

/-! ### Reports -/

section Callback

variable (w : World) (l l' : ℕ) (o : Order)

@[simp] theorem store_callback : (w.callback l o).store l' = w.store l' := by
  unfold callback
  split
  · simp only [store, modify, Function.update_apply]
    split_ifs with h
    · subst h; rfl
    · rfl
  · rfl

@[simp] theorem conf_callback : (w.callback l o).conf l' = w.conf l' := by
  unfold callback
  split
  · simp only [conf, modify, Function.update_apply]
    split_ifs with h
    · subst h; rfl
    · rfl
  · rfl

@[simp] theorem isAuction_callback :
    ((w.callback l o).engines l').isAuction = (w.engines l').isAuction := by
  unfold callback
  split
  · simp only [modify, Function.update_apply]
    split_ifs with h
    · subst h; rfl
    · rfl
  · rfl

@[simp] theorem nextId_callback : (w.callback l o).nextId = w.nextId := by
  unfold callback; split <;> rfl
@[simp] theorem arg_callback : (w.callback l o).arg = w.arg := by unfold callback; split <;> rfl
@[simp] theorem execs_callback : (w.callback l o).execs = w.execs := by
  unfold callback; split <;> rfl
@[simp] theorem locked_callback : (w.callback l o).locked = w.locked := by
  unfold callback; split <;> rfl

theorem reports_callback (h : (w.engines l).isAuction = false) :
    (w.callback l o).reports = w.reports ++ [(l, o)] := by simp [callback, h, emit]

theorem reports_callback_eq : (w.callback l o).reports =
    if (w.engines l).isAuction then w.reports else w.reports ++ [(l, o)] := by
  unfold callback
  split <;> rfl

theorem cbRecords_callback : ((w.callback l o).engines l').cbRecords =
    if l' = l ∧ (w.engines l).isAuction then (w.engines l).cbRecords ++ [o]
    else (w.engines l').cbRecords := by
  unfold callback
  by_cases ha : (w.engines l).isAuction
  · simp only [ha, if_true, and_true, modify, Function.update_apply]
    split_ifs <;> rfl
  · simp [ha, emit]

end Callback

/-! ### The halves of an execution step -/

/-- Write the filled maker `m'` back and report it; when nothing of it is left, it leaves the front
    of its book and the map. -/
def fillMaker (w : World) (l : ℕ) (s : Side) (m' : Order) : World :=
  let w := (w.putOrder l m'.orderId m').callback l m'
  if m'.remainQuantity = 0 then (w.setBook l s (w.book l s).pop).eraseOrder l m'.orderId else w

/-- Write the filled taker back and report it. -/
def fillTaker (w : World) (l : ℕ) (r : Ref) (o' : Order) : World :=
  (w.writeRef l r o').callback l o'

section FillMaker

variable (w : World) (l l' : ℕ) (s t : Side) (m' : Order)

theorem book_fillMaker : (((w.fillMaker l s m').store l').book t) =
    if l' = l ∧ t = s ∧ m'.remainQuantity = 0 then ((w.store l).book s).pop
    else (w.store l').book t := by
  unfold fillMaker
  by_cases hl : l' = l
  · subst hl
    by_cases ht : t = s <;> by_cases hq : m'.remainQuantity = 0 <;> simp [ht, hq]
  · by_cases hq : m'.remainQuantity = 0 <;> simp [hl, hq]

theorem find_fillMaker (id : ℕ) : ((w.fillMaker l s m').store l').odrMap.find? id =
    if l' = l ∧ id = m'.orderId then (if m'.remainQuantity = 0 then none else some m')
    else (w.store l').odrMap.find? id := by
  unfold fillMaker
  by_cases hl : l' = l
  · subst hl
    by_cases hi : id = m'.orderId <;> by_cases hq : m'.remainQuantity = 0 <;> simp [hi, hq]
  · by_cases hq : m'.remainQuantity = 0 <;> simp [hl, hq]

@[simp] theorem stops_fillMaker :
    ((w.fillMaker l s m').store l').stops t = (w.store l').stops t := by
  unfold fillMaker
  by_cases hl : l' = l
  · subst hl
    by_cases hq : m'.remainQuantity = 0 <;> simp [hq]
  · by_cases hq : m'.remainQuantity = 0 <;> simp [hl, hq]

@[simp] theorem conf_fillMaker : (w.fillMaker l s m').conf l' = w.conf l' := by
  unfold fillMaker; split <;> simp

@[simp] theorem isAuction_fillMaker :
    ((w.fillMaker l s m').engines l').isAuction = (w.engines l').isAuction := by
  unfold fillMaker; split <;> simp

@[simp] theorem nextId_fillMaker : (w.fillMaker l s m').nextId = w.nextId := by
  unfold fillMaker; split <;> simp
@[simp] theorem arg_fillMaker : (w.fillMaker l s m').arg = w.arg := by
  unfold fillMaker; split <;> simp
@[simp] theorem execs_fillMaker : (w.fillMaker l s m').execs = w.execs := by
  unfold fillMaker; split <;> simp

/-- The report of a filled maker. -/
theorem reports_fillMaker : (w.fillMaker l s m').reports = (w.callback l m').reports := by
  unfold fillMaker
  by_cases hq : m'.remainQuantity = 0 <;> simp [hq, reports_callback_eq]

theorem cbRecords_fillMaker : ((w.fillMaker l s m').engines l').cbRecords =
    ((w.callback l m').engines l').cbRecords := by
  unfold fillMaker
  by_cases hq : m'.remainQuantity = 0 <;> simp [hq, cbRecords_callback]

end FillMaker

section WriteRef

variable (w : World) (l l' : ℕ) (r : Ref) (o' : Order) (t : Side)

@[simp] theorem book_writeRef : ((w.writeRef l r o').store l').book t = (w.store l').book t := by
  cases r with
  | arg => rfl
  | entry id =>
    by_cases hl : l' = l
    · subst hl; simp [writeRef]
    · simp [writeRef, hl]

@[simp] theorem stops_writeRef : ((w.writeRef l r o').store l').stops t = (w.store l').stops t := by
  cases r with
  | arg => rfl
  | entry id =>
    by_cases hl : l' = l
    · subst hl; simp [writeRef]
    · simp [writeRef, hl]

theorem find_writeRef (id : ℕ) : ((w.writeRef l r o').store l').odrMap.find? id =
    if l' = l ∧ r = .entry id then some o' else (w.store l').odrMap.find? id := by
  cases r with
  | arg => simp [writeRef]
  | entry tid =>
    by_cases hl : l' = l
    · subst hl; simp [writeRef, eq_comm]
    · simp [writeRef, hl]

@[simp] theorem conf_writeRef : (w.writeRef l r o').conf l' = w.conf l' := by
  cases r <;> simp [writeRef]
@[simp] theorem isAuction_writeRef :
    ((w.writeRef l r o').engines l').isAuction = (w.engines l').isAuction := by
  cases r <;> simp [writeRef]
@[simp] theorem nextId_writeRef : (w.writeRef l r o').nextId = w.nextId := by cases r <;> rfl
@[simp] theorem execs_writeRef : (w.writeRef l r o').execs = w.execs := by cases r <;> rfl
@[simp] theorem reports_writeRef : (w.writeRef l r o').reports = w.reports := by cases r <;> rfl
@[simp] theorem locked_writeRef : (w.writeRef l r o').locked = w.locked := by cases r <;> rfl
@[simp] theorem cbRecords_writeRef :
    ((w.writeRef l r o').engines l').cbRecords = (w.engines l').cbRecords := by
  cases r <;> simp [writeRef]

@[simp] theorem readRef_writeRef : (w.writeRef l r o').readRef l r = .ok o' := by
  cases r <;> simp [writeRef, readRef, deref]

@[simp] theorem readRef_callback (o : Order) : (w.callback l' o).readRef l r = w.readRef l r := by
  cases r <;> simp [readRef, deref]

@[simp] theorem book_fillTaker : ((w.fillTaker l r o').store l').book t = (w.store l').book t := by
  simp [fillTaker]
@[simp] theorem stops_fillTaker :
    ((w.fillTaker l r o').store l').stops t = (w.store l').stops t := by
  simp [fillTaker]
theorem find_fillTaker (id : ℕ) : ((w.fillTaker l r o').store l').odrMap.find? id =
    if l' = l ∧ r = .entry id then some o' else (w.store l').odrMap.find? id := by
  simp [fillTaker, find_writeRef]
@[simp] theorem conf_fillTaker : (w.fillTaker l r o').conf l' = w.conf l' := by simp [fillTaker]
@[simp] theorem isAuction_fillTaker :
    ((w.fillTaker l r o').engines l').isAuction = (w.engines l').isAuction := by simp [fillTaker]
@[simp] theorem nextId_fillTaker : (w.fillTaker l r o').nextId = w.nextId := by simp [fillTaker]
@[simp] theorem execs_fillTaker : (w.fillTaker l r o').execs = w.execs := by simp [fillTaker]
@[simp] theorem readRef_fillTaker : (w.fillTaker l r o').readRef l r = .ok o' := by simp [fillTaker]

theorem reports_fillTaker : (w.fillTaker l r o').reports = (w.callback l o').reports := by
  simp [fillTaker, reports_callback_eq]

theorem cbRecords_fillTaker : ((w.fillTaker l r o').engines l').cbRecords =
    ((w.callback l o').engines l').cbRecords := by simp [fillTaker, cbRecords_callback]

end WriteRef

end World

/-! ### What was reported -/

/-- The reports `rs`, each for an engine, were passed to `callback` in this order between `w` and
    `w'`: those of an engine in an auction were recorded, all others delivered. -/
structure Emits (w w' : World) (rs : List (ℕ × Order)) : Prop where
  auction : ∀ l, (w'.engines l).isAuction = (w.engines l).isAuction
  reports : w'.reports = w.reports ++ rs.filter (fun x => !(w.engines x.1).isAuction)
  cbRecords : ∀ l, (w'.engines l).cbRecords = (w.engines l).cbRecords ++
    if (w.engines l).isAuction then (rs.filter (fun x => x.1 = l)).map Prod.snd else []

namespace Emits

variable {w w' w'' : World} {rs rs' : List (ℕ × Order)}

theorem silent (ha : ∀ l, (w'.engines l).isAuction = (w.engines l).isAuction)
    (hr : w'.reports = w.reports) (hc : ∀ l, (w'.engines l).cbRecords = (w.engines l).cbRecords) :
    Emits w w' [] :=
  ⟨ha, by simpa using hr, fun l => by simpa using hc l⟩

theorem refl (w : World) : Emits w w [] := silent (fun _ => rfl) rfl (fun _ => rfl)

theorem trans (h : Emits w w' rs) (h' : Emits w' w'' rs') : Emits w w'' (rs ++ rs') := by
  refine ⟨fun l => (h'.auction l).trans (h.auction l), ?_, fun l => ?_⟩
  · rw [h'.reports, h.reports, List.filter_append, List.append_assoc]
    simp only [h.auction]
  · rw [h'.cbRecords, h.cbRecords, h.auction, List.append_assoc]
    split_ifs
    · rw [List.filter_append, List.map_append]
    · simp

theorem callback (w : World) (l : ℕ) (o : Order) : Emits w (w.callback l o) [(l, o)] := by
  refine ⟨fun l' => World.isAuction_callback .., ?_, fun l' => ?_⟩
  · rw [World.reports_callback_eq]
    cases ha : (w.engines l).isAuction <;> simp [ha]
  · rw [World.cbRecords_callback]
    by_cases hl : l' = l
    · subst hl
      cases ha : (w.engines l').isAuction <;> simp
    · have hne : l ≠ l' := fun he => hl he.symm
      simp [hl, hne]

theorem upd (w : World) (l : ℕ) (f : Store → Store) : Emits w (w.upd l f) [] :=
  silent (fun _ => World.isAuction_upd ..) rfl (fun _ => World.cbRecords_upd ..)

theorem writeRef (w : World) (l : ℕ) (r : Ref) (o : Order) : Emits w (w.writeRef l r o) [] :=
  silent (fun _ => World.isAuction_writeRef ..) (World.reports_writeRef ..)
    (fun _ => World.cbRecords_writeRef ..)

theorem fillMaker (w : World) (l : ℕ) (s : Side) (m' : Order) :
    Emits w (w.fillMaker l s m') [(l, m')] := by
  have h := callback w l m'
  refine ⟨fun l' => World.isAuction_fillMaker .., ?_, fun l' => ?_⟩
  · rw [World.reports_fillMaker, h.reports]
  · rw [World.cbRecords_fillMaker, h.cbRecords]

theorem fillTaker (w : World) (l : ℕ) (r : Ref) (o' : Order) :
    Emits w (w.fillTaker l r o') [(l, o')] := by
  have h := callback w l o'
  refine ⟨fun l' => World.isAuction_fillTaker .., ?_, fun l' => ?_⟩
  · rw [World.reports_fillTaker, h.reports]
  · rw [World.cbRecords_fillTaker, h.cbRecords]

theorem bumpId (w : World) : Emits w w.bumpId [] := silent (fun _ => rfl) rfl (fun _ => rfl)

theorem setArg (w : World) (o : Order) : Emits w (w.setArg o) [] :=
  silent (fun _ => rfl) rfl (fun _ => rfl)

theorem logExec (w : World) (l : ℕ) (s : Side) (r : Ref) (o : Order) :
    Emits w (w.logExec l s r o) [] :=
  silent (fun _ => rfl) rfl (fun _ => rfl)

end Emits

end Matching
