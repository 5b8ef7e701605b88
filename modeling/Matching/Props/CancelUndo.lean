import Matching.Engine.Sorted
import Matching.Engine.Reports

/-! Cancelling takes an order back out exactly. Where nothing waits in the stop books, a limit order
    that rests whole adds one entry to the map and one to its book and says so once (`RestsWhole`);
    the cancellation of its id removes both again, whatever its level and the neighbours are. A
    cancellation of an unknown id changes nothing. -/

namespace Matching

/-- No fill is reported between `w` and `w'`. -/
def World.Unfilled (w w' : World) : Prop :=
  ∀ x ∈ w'.reports.drop w.reports.length, ¬x.2.orderState.IsFill

instance (w w' : World) : Decidable (w.Unfilled w') := inferInstanceAs (Decidable (∀ x ∈ _, _))

/-- The id that the next order gets is not in use in engine `e`. -/
structure World.NextFree (w : World) (e : ℕ) : Prop where
  map : (w.store e).odrMap.find? w.nextId = none
  books : ∀ t, w.nextId ∉ ((w.store e).book t).ids

/-- The request cancels the order `id`; an auction is for plain sides only. -/
structure Order.Cancels (c : Order) (id : ℕ) : Prop where
  action : c.orderAction = .cancel
  id : c.orderId = id
  fair : ¬c.Stray

variable {w w' v : World} {e n : ℕ} {s : Side} {r : Ref} {o q c : Order} {m : Matcher}

/-! ### Fills are reported -/

theorem executeStep_emits {rec : MatchedRecord} {x : Iter × Option Iter}
    (h : executeStep w e r rec = .ok (w', x)) :
    ∃ y rs, Emits w w' (y :: rs) ∧ y.2.orderState.IsFill := by
  obtain ⟨y, ms, _, _, hem, hall, _⟩ := executeStep_reports h
  exact ⟨y, _, hem, (hall y List.mem_cons_self).2⟩

/-! ### A limit order that meets nothing -/

/-- The front order of book `s` is in the map. -/
def Store.FrontFound (g : Store) (s : Side) : Prop :=
  ∀ p id is b, g.book s = (p, id :: is) :: b → g.odrMap.find? id ≠ none

theorem Iter.topPriceOwnSide_found {p : ℤ} (h : Iter.topPriceOwnSide w e s = .ok p) :
    (w.store e).FrontFound s.opp := by
  intro p' id is b hb hnone
  simp only [Iter.topPriceOwnSide, World.book, hb, World.deref, World.order?, hnone, orUb] at h
  cases h

/-- While the taker has something left, the loop of an engine without impliers stops at
    once, or there is a fill. -/
theorem normalLoop_first {tick : ℤ} {b : Bool} (hm : m.impliers = []) (ho : w.readRef e r = .ok o)
    (hrem : o.remainQuantity ≠ 0) (htc : o.timeCondition = .gtc)
    (h : normalLoop e s r tick (n + 1) w m = .ok (w', b)) :
    (w' = w ∧ b = false ∧ (w.store m.engine).FrontFound m.side.opp) ∨ ∃ x rs, Emits w w' (x :: rs) ∧
      x.2.orderState.IsFill := by
  simp only [normalLoop, ho, ok_bind, if_neg hrem, htc, reduceCtorEq, if_false, bind_ok] at h
  obtain ⟨t, ht, h⟩ := h
  have hown : (w.store m.engine).FrontFound m.side.opp := by
    simp only [Matcher.top, bind_ok] at ht
    obtain ⟨_, _, own, hown, _⟩ := ht
    exact Iter.topPriceOwnSide_found hown
  split at h
  · obtain ⟨rfl, rfl⟩ := Prod.mk.inj (pure_ok.mp h)
    exact Or.inl ⟨rfl, rfl, hown⟩
  split at h
  · obtain ⟨rfl, rfl⟩ := Prod.mk.inj (pure_ok.mp h)
    exact Or.inl ⟨rfl, rfl, hown⟩
  right
  split at h
  · obtain ⟨⟨u, leg1, x⟩, hu, h⟩ := bind_ok.mp h
    obtain ⟨y, rs, hrs, hy⟩ := executeStep_emits hu
    have hin : ∀ {m : Matcher}, m.Within fun _ => True := ⟨trivial, fun _ _ => ⟨trivial, trivial⟩⟩
    obtain ⟨rs', hrs'⟩ := (Acts.normalLoop (T := fun _ => True) n hin h).emits
    exact ⟨y, rs ++ rs', hrs.trans hrs', hy⟩
  · rw [hm, List.getElem?_nil] at h
    cases h

theorem normalMatch_rests {tick : ℤ} (hi : (w.conf e).impliers s = []) (ho : w.arg = o)
    (hrem : o.remainQuantity = o.quantity) (hpos : o.quantity ≠ 0) (htc : o.timeCondition = .gtc)
    (hp : o.price ≠ marketPrice) (h : normalMatch w e s .arg tick = .ok w') :
    (w' = (w.upd e
      (fun g => { g.setBook s.opp ((g.book s.opp).insert s.opp.cmp o.price o.orderId) with
        odrMap := g.odrMap.emplace o.orderId o })).callback e o ∧ (w.store e).FrontFound s.opp) ∨
      ∃ x rs, Emits w w' (x :: rs) ∧ x.2.orderState.IsFill := by
  have hread : w.readRef e .arg = .ok o := by rw [← ho]; rfl
  simp only [normalMatch, hread, ok_bind, bind_ok] at h
  obtain ⟨m, hm, ⟨v, b⟩, hv, h⟩ := h
  simp only [Matcher.reset, hi, Matcher.resetLegs, bind_ok, pure_ok, Except.ok.injEq] at hm
  obtain ⟨loc, _, legs, rfl, rfl⟩ := hm
  rcases normalLoop_first rfl hread (hrem ▸ hpos) htc hv with ⟨rfl, rfl, hown⟩ | ⟨x, rs, hrs, hx⟩
  · left
    simp only [Bool.false_eq_true, if_false, residual, hread, ok_bind, htc, reduceCtorEq, if_neg hp,
      restTaker, hrem, if_neg hpos, if_true] at h
    exact ⟨(pure_ok.mp h).symm, hown⟩
  · right
    split at h
    · obtain rfl := pure_ok.mp h
      exact ⟨x, rs, hrs, hx⟩
    · obtain ⟨rs', hrs'⟩ := (Acts.residual (T := fun _ => True) h).emits
      exact ⟨x, rs ++ rs', hrs.trans hrs', hx⟩

/-- The world after a call that put `o` to rest on its own side, whole, and reported it. -/
structure RestsWhole (w : World) (e : ℕ) (s : Side) (o : Order) (w' : World) : Prop where
  self : w'.store e =
    (((w.store e).setBook s.opp
    (((w.store e).book s.opp).insert s.opp.cmp o.price o.orderId)).withMap
    ((w.store e).odrMap.emplace o.orderId o))
  other : ∀ l, l ≠ e → w'.store l = w.store l
  reports : w'.reports = w.reports ++ [(e, o)]
  found : (w.store e).FrontFound s.opp

/-- A limit order without a fill that is in the map afterwards rests whole. -/
theorem handle_new_rests (hidle : w.Idle) (hi : ∀ t, (w.conf e).impliers t = [])
    (hstops : ∀ t, (w.store e).stops t = []) (hnext : w.NextFree e) (ha : q.orderAction = .new)
    (hside : q.side = s.plain) (htype : q.type = .limit) (htc : q.timeCondition = .gtc)
    (h : handle w e q = .ok w') (hrest : (w'.store e).odrMap.find? w.nextId ≠ none)
    (hun : w.Unfilled w') : q.quantity ≠ 0 ∧ RestsWhole w e s (q.opened w.nextId) w' := by
  have hns : ¬q.Stray := fun hs => by rw [Order.Stray, htc] at hs; exact nomatch hs.1
  obtain ⟨held, _, ⟨hs, _⟩ | ⟨_, v, hv, rfl⟩⟩ := handle_cases h
  · exact absurd hs hns
  have hoff : (v.engines e).isAuction = false := by
    rw [(dispatch_calm hv).auction, World.isAuction_enter, if_neg (by simp [htc])]
    exact hidle.isAuction e
  have hflush : flushAuction v e = v := by rw [flushAuction, if_neg (by simp [hoff])]
  rw [hflush] at hrest hun ⊢
  rw [World.store_unlock] at hrest
  set u := w.enter e q held with hu
  have harg : u.arg = q := World.arg_enter ..
  have hoffu : (u.engines e).isAuction = false := by rw [← (dispatch_calm hv).auction]; exact hoff
  have hstore : ∀ l, u.store l = w.store l := fun l => World.store_enter ..
  have hnone : (u.store e).odrMap.find? w.nextId = none := by rw [hstore]; exact hnext.map
  -- a request that is rejected does not come into the map
  have hrej : ∀ {x : World} {st : OrderStatus}, (∀ l, x.store l = u.store l) →
      v ≠ rejectArg x e st := by
    rintro x st hx rfl
    refine hrest ?_
    rw [rejectArg, World.store_callback, World.store_setArg, hx]
    exact hnone
  simp only [dispatch, harg, ha] at hv
  rw [handleNew, harg, if_pos ha, newChecked, World.arg_setArg] at hv
  split at hv
  · exact absurd (pure_ok.mp hv).symm (hrej fun _ => rfl)
  rename_i hq0
  split at hv
  · exact absurd (pure_ok.mp hv).symm (hrej fun _ => rfl)
  refine ⟨hq0, ?_⟩
  have hplain : newPlain (u.setArg { q with orderId := 0 }) e s = .ok v := by
    cases s <;> simp only [Side.plain] at hside <;> simpa only [hside] using hv
  have hinit : initNewOrder (u.setArg { q with orderId := 0 }) =
      (u.setArg { q with orderId := 0 }).bumpId.setArg (q.opened w.nextId) := by
    rw [initNewOrder_eq rfl]
    simp only [World.nextId_setArg, hu, World.nextId_enter]
    rfl
  simp only [newPlain, hinit, World.arg_setArg] at hplain
  set x := (u.setArg { q with orderId := 0 }).bumpId.setArg (q.opened w.nextId) with hx
  have hty : (q.opened w.nextId).type ≠ .market := by simp [Order.opened, htype]
  split at hplain
  · exact absurd (pure_ok.mp hplain).symm (hrej fun _ => rfl)
  rename_i hpm
  have hp : (q.opened w.nextId).price ≠ marketPrice := fun hp => hpm ⟨hty, hp⟩
  obtain ⟨y, hy, hplain⟩ := bind_ok.mp hplain
  -- the triggers after it find no stop
  have hvy : v = y := by
    have hnil : ∀ t, (y.store e).stops t = [] :=
      fun t => (execute_stops hy e t).trans (by rw [← hstops t, ← hstore]; rfl)
    split at hplain
    · obtain ⟨z, hz, hplain⟩ := bind_ok.mp hplain
      rw [triggerStop_nil (hnil _)] at hz
      obtain ⟨_, _, hz⟩ := bind_ok.mp hz
      obtain rfl := pure_ok.mp hz
      rw [triggerStop_nil (hnil _)] at hplain
      obtain ⟨_, _, hplain⟩ := bind_ok.mp hplain
      exact (pure_ok.mp hplain).symm
    · exact (pure_ok.mp hplain).symm
  subst hvy
  have hfok : (q.opened w.nextId).timeCondition ≠ .fok := by simp [Order.opened, htc]
  have hread : x.readRef e .arg = .ok (q.opened w.nextId) := rfl
  simp only [execute, hread, ok_bind, if_neg hfok] at hy
  have hux : Emits u (x.logExec e s .arg (q.opened w.nextId)) [] :=
    Emits.silent (fun _ => rfl) rfl (fun _ => rfl)
  have hrep : u.reports = w.reports := World.reports_enter ..
  have hconf : ((x.logExec e s .arg (q.opened w.nextId)).conf e).impliers s = [] := by
    change ((u.conf e).impliers s) = []
    rw [hu, World.conf_enter]
    exact hi s
  -- it rests as it came, or the first of its fills is among the reports
  rcases normalMatch_rests hconf rfl rfl hq0 htc hp hy with ⟨rfl, hown⟩ | ⟨z, rs, hrs, hz⟩
  · refine ⟨?_, fun l hl => ?_, ?_, ?_⟩
    · rw [World.store_unlock, World.store_callback, World.store_upd, if_pos rfl, ← hstore e]
      rfl
    · rw [World.store_unlock, World.store_callback, World.store_upd, if_neg hl]
      exact hstore l
    · rw [World.reports_unlock,
        World.reports_callback _ _ _ (by rw [World.isAuction_upd]; exact hoffu), ← hrep]
      rfl
    · rw [← hstore e]
      exact hown
  · have hall := hux.trans hrs
    refine absurd hz (hun z ?_)
    have hzl : (u.engines z.1).isAuction = false := by
      rw [hu, World.isAuction_enter, if_neg (by simp [htc])]
      exact hidle.isAuction _
    rw [World.reports_unlock, hall.reports, hrep, List.drop_left, List.nil_append]
    exact List.mem_filter.mpr ⟨List.mem_cons_self, by simp [hzl]⟩

/-! ### Taking it back -/

/-- The best price can be read where the front order is in the map. -/
theorem bestPrice_ok (hi : (w.conf e).impliers s = []) (hwf : ((w.store e).book s).WF s.cmp)
    (hf : (w.store e).FrontFound s) :
    ∃ p, bestPrice w e s = .ok p := by
  simp only [bestPrice, Matcher.reset, hi, Matcher.resetLegs, Matcher.topPrice,
    Iter.reset, World.book]
  rcases hb : (w.store e).book s with _ | ⟨⟨p, _ | ⟨id, is⟩⟩, b⟩
  · exact ⟨marketPrice, rfl⟩
  · rw [hb] at hwf
    exact absurd rfl (hwf.full _ List.mem_cons_self)
  · obtain ⟨m, hm⟩ := Option.ne_none_iff_exists'.mp (hf p id is b hb)
    have hhas : Ladder.has ((p, id :: is) :: b) p id = true := by simp [Ladder.has, Ladder.level?]
    have hload : Iter.load w e s (some (p, id)) = .ok ⟨e, s, some ⟨p, id, m.remainQuantity⟩⟩ := by
      simp only [Iter.load, World.deref, World.order?, hm, orUb, ok_bind]
      rfl
    refine ⟨m.price, ?_⟩
    simp only [Ladder.first, orUb, ok_bind, hload, pure, Except.pure, Iter.topPrice, Iter.valid,
      Option.isSome_some, if_true, Iter.order, World.book, hb, hhas, World.deref, World.order?, hm,
      Matcher.topPriceLoop]

/-- The order a cancellation reports. -/
def Order.cancelled (o : Order) : Order := { o with orderState := .canceledByUser }

/-- The cancellation of the order that just came to rest gives the store back. -/
theorem handleCancel_rested (hi : ∀ t, (w.conf e).impliers t = []) (hsort : w.Sorted)
    (hstops : ∀ t, (w.store e).stops t = []) (hmap : (w.store e).odrMap.find? o.orderId = none)
    (hbooks : ∀ t, o.orderId ∉ ((w.store e).book t).ids) (hside : o.side = s.plain)
    (hw : RestsWhole w e s o w') (hconf : w'.conf e = w.conf e) (harg : w'.arg = c)
    (hc : c.orderAction = .cancel) (hid : c.orderId = o.orderId) :
    ∃ v, handleCancel w' e = .ok (v, true) ∧ (∀ l, v.store l = w.store l) ∧
      Emits w' v [(e, o.cancelled)] := by
  set g := w.store e with hg
  have hself : w'.store e =
    (g.setBook s.opp ((g.book s.opp).insert s.opp.cmp o.price o.orderId)).withMap
    (g.odrMap.emplace o.orderId o) := hw.self
  have hfind : w'.order? e c.orderId = some o := by
    rw [World.order?, hself, Store.odrMap_withMap, OrdMap.find?_emplace, if_pos hid, hmap]
    rfl
  set u := (w'.putOrder e c.orderId o.cancelled).callback e o.cancelled with hu
  have hstore : u.store e =
      (w'.store e).withMap ((w'.store e).odrMap.insert c.orderId o.cancelled) := by
    rw [hu, World.store_callback, World.putOrder_eq, World.store_upd, if_pos rfl]
  have hother : ∀ l, l ≠ e → u.store l = w.store l := fun l hl => by
    rw [hu, World.store_callback, World.putOrder_eq, World.store_upd, if_neg hl, hw.other l hl]
  have hbook : u.book e s.opp = (g.book s.opp).insert s.opp.cmp o.price o.orderId := by
    rw [World.book, hstore, Store.book_withMap, hself, Store.book_withMap,
      Store.book_setBook, if_pos rfl]
  obtain ⟨is, his⟩ : ∃ is, ((g.book s.opp).insert s.opp.cmp o.price o.orderId).level? o.price =
    some is := Ladder.level?_insert ..
  have herase : ((g.book s.opp).insert s.opp.cmp o.price o.orderId).eraseAt o.price o.orderId =
      g.book s.opp :=
    Ladder.eraseAt_insert o.price (fun l hl => (hsort e s.opp).full l hl) (hbooks s.opp)
  set x := u.setBook e s.opp (g.book s.opp) with hx
  have hstopsx : (x.store e).stops s.opp = [] := by
    rw [hx, World.setBook_eq, World.store_upd, if_pos rfl, Store.stops_setBook, hstore,
      Store.stops_withMap, hself, Store.stops_withMap, Store.stops_setBook]
    exact hstops s.opp
  have hbookx : (x.store e).book s.opp = g.book s.opp := by
    rw [hx, World.setBook_eq, World.store_upd, if_pos rfl, Store.book_setBook, if_pos rfl]
  have hmapx : (x.store e).odrMap =
      (g.odrMap.emplace o.orderId o).insert c.orderId o.cancelled := by
    rw [hx, World.setBook_eq, World.store_upd, if_pos rfl, Store.odrMap_setBook, hstore,
      Store.odrMap_withMap, hself, Store.odrMap_withMap]
  -- no stop waits, so that the trigger changes nothing once it has a price to look at
  have htrigger : triggerStop x e s.opp = .ok x := by
    have hbest : ∃ p, bestPrice x e s.opp = .ok p := by
      refine bestPrice_ok ?_ (by rw [hbookx]; exact hsort e s.opp) ?_
      · rw [hx, World.setBook_eq, World.conf_upd, hu, World.conf_callback, World.putOrder_eq,
          World.conf_upd, hconf]
        exact hi s.opp
      · intro p id is b hb
        rw [hbookx] at hb
        have hne : id ≠ o.orderId := fun he => hbooks s.opp (by rw [hb]; simp [he])
        rw [hmapx, OrdMap.find?_insert, OrdMap.find?_emplace,
          if_neg (by rw [hid]; exact hne), if_neg hne]
        exact hw.found p id is b hb
    obtain ⟨p, hp⟩ := hbest
    rw [triggerStop_nil hstopsx, hp]
    rfl
  -- the order is looked for where it was put: its side and its price say so
  have hunlist : unlist u e o.cancelled = .ok x := by
    have hrest : unlist u e o.cancelled = unrest u e s.opp o.cancelled := by
      have hs : o.cancelled.side = s.plain := hside
      cases s <;> simp only [unlist, hs, Side.plain, Side.opp]
    have hfound : eraseFound (u.book e s.opp) o.cancelled.price o.cancelled.orderId =
        .ok (g.book s.opp) := by
      have hlev : Ladder.level? o.cancelled.price (u.book e s.opp) = some is := hbook ▸ his
      rw [eraseFound, hlev, hbook]
      exact congrArg Except.ok herase
    rw [hrest, unrest, hfound, ok_bind, ← hx]
    simp only [htrigger]
    exact ite_self _
  have hcancel : handleCancel w' e = .ok (x.eraseOrder e c.orderId, true) := by
    have hst : cancelState c.orderAction = some .canceledByUser := by rw [hc]; rfl
    simp only [handleCancel, harg, hfind, hst]
    change (do let w ← unlist u e o.cancelled; return (w.eraseOrder e c.orderId, true)) = _
    rw [hunlist]
    rfl
  refine ⟨_, hcancel, fun l => ?_, ?_⟩
  · rw [World.eraseOrder_eq, World.store_upd]
    split_ifs with hl
    · subst hl
      refine Store.ext_containers ?_ (fun t => ?_) (fun t => ?_)
      · rw [Store.odrMap_withMap, hmapx, hid]
        refine Eq.trans (OrdMap.ext_find fun j => ?_) (OrdMap.erase_emplace o hmap)
        simp only [OrdMap.find?_erase, OrdMap.find?_insert]
        split_ifs <;> rfl
      · rw [Store.book_withMap, hx, World.setBook_eq, World.store_upd, if_pos rfl,
          Store.book_setBook]
        split_ifs with ht
        · rw [ht]
        · rw [hstore, Store.book_withMap, hself, Store.book_withMap, Store.book_setBook, if_neg ht]
      · rw [Store.stops_withMap, hx, World.setBook_eq, World.store_upd, if_pos rfl,
          Store.stops_setBook, hstore, Store.stops_withMap, hself, Store.stops_withMap,
          Store.stops_setBook]
    · rw [hx, World.setBook_eq, World.store_upd, if_neg hl, hother l hl]
  · have hput : Emits w' u [(e, o.cancelled)] := (Emits.upd w' e _).trans (Emits.callback ..)
    exact (hput.trans (Emits.upd u e _)).trans (Emits.upd x e _)

/-- Engines with the same containers and settings, none in an auction, are the same. -/
theorem World.Idle.engines_eq (h : w.Idle) (h' : w'.Idle) (hst : ∀ l, w'.store l = w.store l)
    (hc : ∀ l, w'.conf l = w.conf l) :
    w'.engines = w.engines := by
  funext l
  have h1 := (h'.isAuction l).trans (h.isAuction l).symm
  have h2 := (h'.cbRecords l).trans (h.cbRecords l).symm
  have h3 := hst l
  have h4 := hc l
  simp only [World.store, World.conf] at h3 h4
  generalize w'.engines l = g at *
  generalize w.engines l = g' at *
  cases g
  cases g'
  simp only at h1 h2 h3 h4
  subst h1 h2 h3 h4
  rfl

/-- A cancellation that finds no order. -/
theorem handleCancel_unknown (hc : w.arg.orderAction = .cancel)
    (hnone : (w.store e).odrMap.find? w.arg.orderId = none) :
    ∃ v o, handleCancel w e = .ok (v, false) ∧ (∀ l, v.store l = w.store l) ∧ v.nextId = w.nextId ∧
      Emits w v [(e, o)] ∧
      o.orderState = .rejectCancelOrderIdNotFound ∧ o.orderId = w.arg.orderId := by
  have hnone' : w.order? e w.arg.orderId = none := hnone
  set o : Order :=
    { w.arg with remainQuantity := 0, orderState := .rejectCancelOrderIdNotFound } with ho
  refine ⟨((w.setArg { w.arg with remainQuantity := 0 }).setArg o).callback e o, o, ?_, fun l => ?_,
    ?_, ?_, rfl, rfl⟩
  · simp only [handleCancel, hnone', World.arg_setArg]
    split
    · rfl
    · rename_i ha
      cases hc.symm.trans ha
    · rename_i hna _
      exact absurd hc hna
  · rw [World.store_callback]
    rfl
  · rw [World.nextId_callback]
    rfl
  · exact (Emits.setArg w _).trans ((Emits.setArg _ _).trans (Emits.callback ..))

/-- What a cancellation undoes: a limit order of a plain side that rested whole is gone without a
    trace but its two reports. -/
structure Undone (w : World) (e : ℕ) (w' : World) : Prop where
  engines : w'.engines = w.engines
  reports : ∃ o o', w'.reports = w.reports ++ [(e, o), (e, o')] ∧ o.orderId = w.nextId ∧
    o'.orderId = w.nextId ∧ o.orderState = .opened ∧ o'.orderState = .canceledByUser ∧
    o.remainQuantity = o.quantity ∧ o'.remainQuantity = o'.quantity

/-- What a cancellation of an unknown id does: one report. -/
structure NotFound (w : World) (e : ℕ) (w' : World) : Prop where
  engines : w'.engines = w.engines
  nextId : w'.nextId = w.nextId
  locked : w'.locked = w.locked
  reports : ∃ o, w'.reports = w.reports ++ [(e, o)] ∧ o.orderState = .rejectCancelOrderIdNotFound

/-- In every reached world: where the engine has no impliers and nothing waits, and its next
    id is not in use, a cancellation undoes a limit order that rested whole; and one of an
    unknown id is turned away. -/
theorem cancel_undoes {w0 : World} {rs : List (ℕ × Order)} (h0 : w0.Fresh)
    (hrun : run w0 rs = .ok w) (e : ℕ) :
    ((∀ t, (w.conf e).impliers t = []) → (∀ t, (w.store e).stops t = []) → w.NextFree e →
      ∀ {s : Side} {q c : Order} {w1 : World}, q.orderAction = .new → q.side = s.plain →
        q.type = .limit → q.timeCondition = .gtc → handle w e q = .ok w1 →
        (w1.store e).odrMap.find? w.nextId ≠ none → w.Unfilled w1 → c.Cancels w.nextId →
        ∃ w2, handle w1 e c = .ok w2 ∧ Undone w e w2) ∧
    ∀ {id : ℕ} {c : Order}, c.Cancels id → (w.store e).odrMap.find? id = none → w.Unlocked e →
      ∃ w', handle w e c = .ok w' ∧ NotFound w e w' := by
  have hidle : w.Idle := run_idle h0.idle hrun
  refine ⟨fun hi hstops hnext s q c w1 ha hside htype htc h1 hrest hun hcan => ?_,
    fun {id c} hcan hnone hlock => ?_⟩
  · obtain ⟨_, hw⟩ := handle_new_rests hidle hi hstops hnext ha hside htype htc h1 hrest hun
    have hns : ¬q.Stray := fun hs => by rw [Order.Stray, htc] at hs; exact nomatch hs.1
    obtain ⟨hidle1, hlocked⟩ := handle_leaves hidle hns h1
    obtain ⟨held, hheld⟩ := handle_unlocked h1
    rw [← handle_conf h1, ← hlocked] at hheld
    have hent : RestsWhole w e s (q.opened w.nextId) (w1.enter e c held) :=
      ⟨by rw [World.store_enter]; exact hw.self,
        fun l hl => by rw [World.store_enter]; exact hw.other l hl,
        by rw [World.reports_enter]; exact hw.reports, hw.found⟩
    obtain ⟨v, hv, hst, hem⟩ :=
      handleCancel_rested (o := q.opened w.nextId) hi
        (run_sorted h0 hrun) hstops hnext.map hnext.books hside hent
      (by rw [World.conf_enter]; exact handle_conf h1 e) (World.arg_enter ..) hcan.action hcan.id
    have hdis : dispatch (w1.enter e c held) e = .ok v := by
      simp only [dispatch, World.arg_enter, hcan.action, hv, ok_bind]
      rfl
    have h2 := handle_ok hheld hcan.fair hdis
    obtain ⟨p, hp⟩ := reports_leave (by rw [World.cbRecords_enter]; exact hidle1.cbRecords e) hem
    refine ⟨_, h2, hidle.engines_eq (handle_idle hidle1 h2) (fun l => ?_) (fun l => ?_), ?_⟩
    · rw [World.store_unlock, World.store_flush, hst]
    · rw [handle_conf h2, handle_conf h1]
    · refine ⟨q.opened w.nextId, (q.opened w.nextId).cancelled.priced p, ?_, rfl, rfl, rfl,
        rfl, rfl, rfl⟩
      rw [hp, hent.reports, List.append_assoc]
      rfl
  · obtain ⟨held, hheld⟩ := hlock
    have harg : (w.enter e c held).arg = c := World.arg_enter ..
    obtain ⟨v, o, hv, hst, hn, hem, hstate, -⟩ :=
      handleCancel_unknown (w := w.enter e c held) (e := e) (by rw [harg]; exact hcan.action)
      (by rw [World.store_enter, harg, hcan.id]; exact hnone)
    have hdis : dispatch (w.enter e c held) e = .ok v := by
      simp only [dispatch, harg, hcan.action, hv, ok_bind]
      rfl
    have h2 := handle_ok hheld hcan.fair hdis
    obtain ⟨p, hp⟩ := reports_leave (by rw [World.cbRecords_enter]; exact hidle.cbRecords e) hem
    refine ⟨_, h2,
      hidle.engines_eq (handle_idle hidle h2) (fun l => ?_) (fun l => handle_conf h2 l), ?_,
      (handle_leaves hidle hcan.fair h2).2, o.priced p, ?_, hstate⟩
    · rw [World.store_unlock, World.store_flush, hst, World.store_enter]
    · rw [World.nextId_unlock, World.nextId_flush, hn, World.nextId_enter]
    · rw [hp, World.reports_enter]

/-- A sell order and two buyers. -/
def threeQuotes : List (ℕ × Order) :=
  [(0, { Order.default with side := .sell, price := 105, quantity := 3 }),
    (0, { Order.default with price := 100, quantity := 5 }),
    (0, { Order.default with price := 98, quantity := 7 })]

/-- A limit order of one plain side. -/
def limitBuy (p : ℤ) : Order := { Order.default with price := p, quantity := 4 }

def cancelOf (id : ℕ) : Order := { Order.default with orderAction := .cancel, orderId := id }

/-- A bid between two others is taken back; an id that is not there is turned away. -/
theorem cancel_undoes_threeQuotes :
    ∃ w w1 w2 w3, run (World.start 1 1000) threeQuotes = .ok w ∧ handle w 0 (limitBuy 99) = .ok w1 ∧
      (w1.store 0).bidBook = [(100, [1001]), (99, [1003]), (98, [1002])] ∧
      handle w1 0 (cancelOf 1003) = .ok w2 ∧ Undone w 0 w2 ∧
      handle w 0 (cancelOf 7) = .ok w3 ∧ NotFound w 0 w3 := by
  have h := cancel_undoes (World.start_fresh 1 1000) (show run _ threeQuotes = .ok _ from rfl) 0
  obtain ⟨w2, h2, hundone⟩ :=
    h.1 (fun t => by cases t <;> rfl) (fun t => by cases t <;> rfl)
      ⟨rfl, fun t => by cases t <;> decide⟩
    (s := .buy) (q := limitBuy 99) (c := cancelOf 1003) rfl rfl rfl rfl rfl (nofun)
      (by decide +kernel) ⟨rfl, rfl, by decide⟩
  obtain ⟨w3, h3, hnot⟩ := h.2 (⟨rfl, rfl, by decide⟩ : (cancelOf 7).Cancels 7) rfl ⟨_, rfl⟩
  exact ⟨_, _, w2, w3, rfl, rfl, rfl, h2, hundone, h3, hnot⟩

/-- An order of another engine, under its id. -/
def insertedSell (id : ℕ) : Order :=
  { Order.default with
    side := .sell, price := 105, quantity := 3, remainQuantity := 3,
    orderAction := .insertNew, orderId := id }

/-- Three runs: a cancellation dressed as an auction for a stop side leaves the order where it is,
    and no later one of any id returns; and after an insertion under the id that comes next, the
    cancellation takes out the inserted order and leaves the new one behind. -/
theorem cancel_leavesTraces :
    (run (World.start 1 1000)
      [(0, limitBuy 100),
        (0, { cancelOf 1000 with timeCondition := .auction, side := .buyStop })]).map
      (fun w => ((w.store 0).bidBook, w.reports.map fun x => x.2.orderState)) =
        .ok ([(100, [1000])], [.opened, .rejectAuctionSupportBuySellOnly]) ∧
    (run (World.start 1 1000)
      [(0, { cancelOf 7 with timeCondition := .auction, side := .buyStop }), (0, cancelOf 7)]).map
      (fun w => w.reports) = .error .deadlock ∧
    (run (World.start 1 1000) [(0, insertedSell 1000)]).map
      (fun w =>
        ((w.store 0).odrMap.entries.map Prod.fst, (w.store 0).bidBook, (w.store 0).askBook)) =
      .ok ([1000], [], [(105, [1000])]) ∧
    (run (World.start 1 1000) [(0, insertedSell 1000), (0, limitBuy 100), (0, cancelOf 1000)]).map
      (fun w =>
        ((w.store 0).odrMap.entries.map Prod.fst, (w.store 0).bidBook, (w.store 0).askBook)) =
      .ok ([], [(100, [1000])], []) := by
  refine ⟨?_, ?_, ?_, ?_⟩ <;> decide +kernel

end Matching
