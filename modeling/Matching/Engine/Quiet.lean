import Matching.Engine.Placed
import Matching.Engine.Sorted

/-! The stops an engine owes. A stop that waits is due when the first price of the book it
    watches has reached its trigger. A stop trigger runs until nothing of its side is due
    (`quiet_triggerStop`); the other side it disturbs only by a stop that comes to rest
    where its own side of the book was empty, for what else rests leaves a first price that
    reaches no further (`quiet_execute`). So requests whose executions rouse everyone
    (`Exec.Rouses`) leave no stop due. -/

namespace Matching

/-- The first price of the book takers of side `s` trade against. -/
def Store.firstPrice (g : Store) (s : Side) : Option ℤ := (g.book s).head?.map Prod.fst

/-- No stop of side `s` that waits is due. -/
def Store.Quiet (g : Store) (s : Side) : Prop :=
  ∀ p ∈ g.firstPrice s, ∀ l ∈ g.stops s, s.reached p l.1 = false

instance (g : Store) (s : Side) : Decidable (g.Quiet s) := inferInstanceAs (Decidable (∀ p ∈ _, _))

/-- After the execution the triggers look at all stops that it may have made due: the
    request's own order is not filled, and a stop that comes to rest does so where its side
    of the book is not empty. -/
structure Exec.Rouses (z : Exec) : Prop where
  oneLeg : z.OneLeg
  own : z.ref = .arg → z.fate ≠ .filled
  stop : z.ref ≠ .arg → z.fate.rest? ≠ none → z.before.toStore.book z.side.opp ≠ []

theorem Exec.rouses_iff {z : Exec} : z.Rouses ↔ z.OneLeg ∧ (z.ref = .arg → z.fate ≠ .filled) ∧
    (z.ref ≠ .arg → z.fate.rest? ≠ none → z.before.toStore.book z.side.opp ≠ []) :=
  ⟨fun h => ⟨h.oneLeg, h.own, h.stop⟩, fun ⟨h1, h2, h3⟩ => ⟨h1, h2, h3⟩⟩

instance (z : Exec) : Decidable z.Rouses := decidable_of_iff _ Exec.rouses_iff.symm

variable {w w' v : World} {e n id : ℕ} {s t : Side} {r : Ref} {hs : List Held} {o q : Order}
  {g g' : Store} {x y : World × List Held}

/-! ### First prices -/

/-- A first price that is no worse for the takers reaches no further. -/
theorem Side.reached_of_better {p p' a : ℤ} (h : s.cmp p p' = false) (hr : s.reached p a = false) :
    s.reached p' a = false := by
  cases s with
  | buy =>
    simp only [Side.cmp, Side.reached, decide_eq_false_iff_not] at *
    omega
  | sell =>
    simp only [Side.cmp, Side.reached, decide_eq_false_iff_not] at *
    omega

namespace Store.Quiet

theorem mono (h : g.Quiet s)
    (hfirst : ∀ p' ∈ g'.firstPrice s, ∃ p ∈ g.firstPrice s, s.cmp p p' = false)
    (hstops : ∀ l ∈ g'.stops s, ∃ l' ∈ g.stops s, l'.1 = l.1) : g'.Quiet s := by
  intro p' hp' l hl
  obtain ⟨p, hp, hle⟩ := hfirst p' hp'
  obtain ⟨l', hl', he⟩ := hstops l hl
  exact Side.reached_of_better hle (he ▸ h p hp l' hl')

theorem congr (h : g.Quiet s) (hb : g'.book s = g.book s) (hst : g'.stops s = g.stops s) :
    g'.Quiet s := by
  intro p hp l hl
  rw [Store.firstPrice, hb] at hp
  exact h p hp l (hst ▸ hl)

/-- Stops may leave. -/
theorem of_stops (h : g.Quiet s) (hb : g'.book s = g.book s)
    (hst : ∀ l ∈ g'.stops s, ∃ l' ∈ g.stops s, l'.1 = l.1) : g'.Quiet s := by
  intro p hp l hl
  rw [Store.firstPrice, hb] at hp
  obtain ⟨l', hl', he⟩ := hst l hl
  exact he ▸ h p hp l' hl'

/-- An order may rest beside others. -/
theorem insert {p : ℤ} (h : g.Quiet s) (hne : g.book s ≠ [])
    (hb : g'.book s = (g.book s).insert s.cmp p id) (hst : g'.stops s = g.stops s) :
    g'.Quiet s := by
  refine h.mono (fun p' hp' => ?_) fun l hl => ⟨l, hst ▸ hl, rfl⟩
  rw [Store.firstPrice, hb] at hp'
  obtain ⟨y, hy, rfl⟩ := Option.map_eq_some_iff.mp hp'
  obtain ⟨x, hx, hle⟩ := Ladder.head_insert p id hne hy
  exact ⟨x.1, Option.map_eq_some_iff.mpr ⟨x, hx, rfl⟩, hle⟩

end Store.Quiet

/-- The best price an engine without impliers reads is the first price of the book. -/
theorem bestPrice_first {best : ℤ} (hok : w.Ok) (hi : (w.conf e).impliers s = [])
    (h : bestPrice w e s = .ok best) :
    ((w.store e).firstPrice s = none ∧ best = marketPrice) ∨
      ((w.store e).firstPrice s = some best ∧ best ≠ marketPrice) := by
  have hsrc : ∀ x ∈ (w.conf e).sources e s, Resolves w x.1 x.2 := by
    rcases Matcher.reset_cases hok e s with hsrc | ⟨hub, _⟩
    · exact hsrc
    · rw [bestPrice, hub] at h
      cases h
  have hbest : best = w.best e s := by
    rcases bestPrice_cases hok e s with hp | ⟨hub, _⟩
    · exact Except.ok.inj (h.symm.trans hp)
    · rw [hub] at h
      cases h
  have hcursor : w.best e s = ((w.cursor e s).map Cursor.price).getD marketPrice := by
    rw [World.best, World.matcher, hi]
    rfl
  rcases hsrc (e, s) List.mem_cons_self with hnil | ⟨m, hm⟩
  · left
    have hnone : w.cursor e s = none := by rw [World.cursor, hnil]
    refine ⟨by rw [Store.firstPrice, hnil]; rfl, ?_⟩
    rw [hbest, hcursor, hnone]
    rfl
  · right
    obtain ⟨is, b, hb⟩ := hm.book
    have hprice : best = m.price := by
      rw [hbest, hcursor, World.cursor, hb]
      rfl
    exact ⟨by rw [Store.firstPrice, hb, hprice]; rfl,
      hprice ▸ ((hok e).restsAt hm.at_book hm.find).limit⟩

/-! ### Executions and stop triggers -/

theorem Lone.steps (h : Lone (fun _ _ => True) e x) (hst : Steps e q x y)
    (hgood : ∀ z ∈ y.1.execs, z.Rouses) :
    Lone (fun _ _ => True) e y :=
  hst.induct (fun hstep hz hv => hstep.lone trivial (fun z hzm _ => (hz z hzm).oneLeg) hv) hgood h

theorem activateStops_history {ids : List ℕ} (h : activateStops e s w ids = .ok w') :
    ∀ z ∈ w.execs, z ∈ w'.execs := by
  have hsteps : Steps e Order.default (w, ids.map (fun id => ⟨some s, id⟩) ++ []) (w', []) :=
    activateStops_steps ids h
  exact hsteps.execs

theorem triggerLoop_history (h : triggerLoop e s n w = .ok w') : ∀ z ∈ w.execs, z ∈ w'.execs := by
  have hsteps : Steps e Order.default (w, []) (w', []) := triggerLoop_steps n h
  exact hsteps.execs

/-- An execution disturbs no stop of the other side that the taker does not meet alone. -/
theorem quiet_execute (hset : Setup w e s r) (hi : ∀ t, (w.conf e).impliers t = [])
    (ho : w.readRef e r = .ok o) (h0 : o.remainQuantity ≠ 0) (h : execute w e s r = .ok w')
    (hrest : ∀ p, (w.store e).fate (w.conf e).miniTick s o = .rested p →
      (w.store e).book s.opp ≠ [])
    (hq : (w.store e).Quiet s.opp) : (w'.store e).Quiet s.opp := by
  have hstops := execute_stops h e s.opp
  rcases execute_reference hset hi ho h0 with ⟨v, hv, w1, _, htr, hends⟩ | ⟨hub, _⟩
  · obtain rfl := Except.ok.inj (hv.symm.trans h)
    have hother : (w1.store e).book s.opp = (w.store e).book s.opp :=
      htr.bookOther e s.opp fun he => absurd (congrArg Prod.snd he) (Side.opp_ne s)
    generalize hfate : ((w.logExec e s r o).store e).fate
      ((w.logExec e s r o).conf e).miniTick s o = f at hends
    cases hends with
    | filled => exact hq.congr hother hstops
    | killed => exact hq.congr (by rw [World.book_kill, hother]) hstops
    | rested =>
      exact hq.insert (hrest _ hfate) (by rw [World.book_rest, if_pos ⟨rfl, rfl⟩, hother]) hstops
  · rw [hub] at h
    cases h

/-- After the execution of the caller's order something of it is left, unless it
    was going to be filled. -/
theorem execute_left (hset : Setup w e s .arg) (hi : ∀ t, (w.conf e).impliers t = [])
    (h0 : w.arg.remainQuantity ≠ 0) (h : execute w e s .arg = .ok w')
    (hf : (w.store e).fate (w.conf e).miniTick s w.arg ≠ .filled) : w'.arg.remainQuantity ≠ 0 := by
  rcases execute_reference hset hi rfl h0 with ⟨v, hv, w1, _, _, hends⟩ | ⟨hub, _⟩
  · obtain rfl := Except.ok.inj (hv.symm.trans h)
    generalize hfate : ((w.logExec e s .arg w.arg).store e).fate
      ((w.logExec e s .arg w.arg).conf e).miniTick s w.arg = f at hends
    cases hends with
    | filled => exact absurd hfate hf
    | killed hrem p st => rwa [World.kill, World.arg_callback]
    | rested hrem p =>
      simp only [World.rest]
      split_ifs
      · rwa [World.arg_callback]
      · exact hrem
  · rw [hub] at h
    cases h

theorem Lone.setup_taker (hx : Lone (fun _ _ => True) e (w, hs)) (o : Order) (s : Side) :
    Setup (w.bumpId.setArg o) e s .arg :=
  ⟨fun l => (hx.sound.stores l).books, OffBook.arg _ _, (hx.sound.legs s).congr rfl⟩

/-- The stops in hand are activated; the other side is left quiet. -/
theorem quiet_activateStops :
    ∀ (ids : List ℕ) {w w' : World},
      Lone (fun _ _ => True) e (w, ids.map (fun id => ⟨some s, id⟩) ++ hs) →
    activateStops e s w ids = .ok w' → (∀ z ∈ w'.execs, z.Rouses) → (w.store e).Quiet s.opp →
      (w'.store e).Quiet s.opp
  | [], w, w', _, h, _, hq => by
    obtain rfl := Except.ok.inj h
    exact hq
  | id :: ids, w, w', hx, h, hgood, hq => by
    simp only [activateStops, activateStop, bind_ok] at h
    obtain ⟨v, ⟨o, ho, hex⟩, hrest⟩ := h
    have hfind : (w.store e).odrMap.find? id = some o := by simpa [World.deref] using ho
    have hlogged : ∀ z ∈ v.execs, z.Rouses := fun z hz => hgood z (activateStops_history hrest z hz)
    have hone : ∀ z ∈ v.execs, True → z.OneLeg := fun z hz _ => (hlogged z hz).oneLeg
    have hfires := hx.sound.fires hfind hex hone
    set u := w.putOrder e id { o with price := o.stopLimit s } with hu
    have hset : Setup u e s (.entry id) :=
      ⟨hfires.stores.ok, hfires.offBook,
        (hx.sound.legs s).congr (World.conf_writeRef w e e (.entry id) _)⟩
    have hi : ∀ t, (u.conf e).impliers t = [] := fun t => by
      rw [← hx.alone t]
      exact congrArg (Config.impliers · t) (World.conf_writeRef w e e (.entry id) _)
    have hbook : ∀ t, (u.store e).book t = (w.store e).book t :=
      World.book_writeRef w e e (.entry id) _
    have hnext : (v.store e).Quiet s.opp := by
      refine quiet_execute hset hi hfires.read hfires.remain hex (fun p hp => ?_)
        (hq.congr (hbook _) (World.stops_writeRef w e e (.entry id) _ _))
      have hz :
          (⟨e, s, .entry id, { o with price := o.stopLimit s }, u.engines e⟩ : Exec) ∈ v.execs := by
        rw [execute_logged hex hfires.read]
        exact List.mem_append_right _ (List.mem_singleton_self _)
      refine (hlogged _ hz).stop (by simp) ?_
      rw [Exec.fate]
      simp only [World.store, World.conf] at hp
      rw [hp]
      exact Option.some_ne_none p
    exact quiet_activateStops ids
      ((Step.fire (q := Order.default) hfind hex).lone trivial hone hx) hrest hgood hnext

/-- A stop trigger leaves nothing due on its side, and the other side as it was. -/
theorem quiet_triggerLoop :
    ∀ (n : ℕ) {w w' : World}, Lone (fun _ _ => True) e (w, hs) → triggerLoop e s n w = .ok w' →
    (∀ z ∈ w'.execs, z.Rouses) →
      (w'.store e).Quiet s ∧ ((w.store e).Quiet s.opp → (w'.store e).Quiet s.opp)
  | 0, _, _, _, h, _ => by cases h
  | n + 1, w, w', hx, h, hgood => by
    simp only [triggerLoop, bind_ok] at h
    obtain ⟨best, hbest, v, hv, h⟩ := h
    set u := (collectStops w e s best).1 with hu
    have hbooks : ∀ t, (u.store e).book t = (w.store e).book t := fun t => by
      rw [hu, collectStops, World.setStops_eq, World.store_upd, if_pos rfl, Store.book_setStops]
    have hother : (u.store e).stops s.opp = (w.store e).stops s.opp := by
      rw [hu, collectStops, World.setStops_eq, World.store_upd, if_pos rfl, Store.stops_setStops,
        if_neg (Side.opp_ne s)]
    have hself : (u.store e).stops s = ((w.store e).stops s).filter fun l =>
        !(best ≠ marketPrice && s.reached best l.1) := by
      rw [hu, collectStops, World.setStops_eq, World.store_upd, if_pos rfl,
        Store.stops_setStops, if_pos rfl]
      rfl
    have hcol : Step e Order.default (w, hs)
      (u, (collectStops w e s best).2.map (fun id => ⟨some s, id⟩) ++ hs) := Step.collect s _
    have hlast : ∀ z ∈ v.execs, z.Rouses := by
      split at h
      · obtain rfl := pure_ok.mp h
        exact hgood
      · exact fun z hz => hgood z (triggerLoop_history h z hz)
    have hux : Lone (fun _ _ => True) e
        (u, (collectStops w e s best).2.map (fun id => ⟨some s, id⟩) ++ hs) :=
      hcol.lone trivial (fun z hz _ => (hlast z (activateStops_history hv z hz)).oneLeg) hx
    have hkeep : (w.store e).Quiet s.opp → (v.store e).Quiet s.opp := fun hq =>
      quiet_activateStops _ hux hv hlast (hq.congr (hbooks _) hother)
    split at h
    · rename_i hnil
      obtain rfl := pure_ok.mp h
      refine ⟨?_, hkeep⟩
      -- nothing was collected, so nothing is due at the best price
      rw [hnil] at hv
      obtain rfl := Except.ok.inj hv
      intro p hp l hl
      rw [Store.firstPrice, hbooks] at hp
      rw [hself] at hl
      obtain ⟨_, hhit⟩ := List.mem_filter.mp hl
      rcases bestPrice_first (fun l => (hx.sound.stores l).books) (hx.alone s) hbest with
        ⟨hnone, _⟩ | ⟨hsome, hne⟩
      · rw [Store.firstPrice] at hnone
        rw [hnone] at hp
        cases hp
      · rw [Store.firstPrice] at hsome
        obtain rfl := Option.some.inj (hsome.symm.trans hp)
        simpa [hne] using hhit
    · obtain ⟨hq, hq'⟩ :=
        quiet_triggerLoop n
          (hux.steps (activateStops_steps (q := Order.default) _ hv) hlast) h hgood
      exact ⟨hq, fun hw => hq' (hkeep hw)⟩

theorem quiet_triggerStop (hx : Lone (fun _ _ => True) e (w, hs)) (h : triggerStop w e s = .ok w')
    (hgood : ∀ z ∈ w'.execs, z.Rouses) :
    (w'.store e).Quiet s ∧ ((w.store e).Quiet s.opp → (w'.store e).Quiet s.opp) :=
  quiet_triggerLoop _ hx h hgood

/-- The caller's order is executed and, if something of it is left, both triggers have run. -/
theorem quiet_executeArg (hx : Lone (fun _ _ => True) e (w, hs)) (ho : o.From q w.nextId)
    (ht : o.Takes s) (h : executeArg (w.bumpId.setArg o) e s = .ok w')
    (hgood : ∀ z ∈ w'.execs, z.Rouses) : ∀ t, (w'.store e).Quiet t := by
  simp only [executeArg, bind_ok] at h
  obtain ⟨v, hv, h⟩ := h
  have hpos := ho.whole
  have hsub : ∀ z ∈ v.execs, z ∈ w'.execs := fun z hz => by
    split at h
    · obtain ⟨u, hu, h⟩ := bind_ok.mp h
      exact triggerLoop_history h z (triggerLoop_history hu z hz)
    · obtain rfl := pure_ok.mp h
      exact hz
  have hset := hx.setup_taker o s
  have hleft : v.arg.remainQuantity ≠ 0 := by
    refine execute_left hset hx.alone (by show o.remainQuantity ≠ 0; omega) hv ?_
    have hz : (⟨e, s, .arg, o, (w.bumpId.setArg o).engines e⟩ : Exec) ∈ v.execs := by
      rw [execute_logged (o := o) hv rfl]
      exact List.mem_append_right _ (List.mem_singleton_self _)
    exact (hgood _ (hsub _ hz)).own rfl
  rw [if_pos (Nat.pos_of_ne_zero hleft)] at h
  obtain ⟨u, hu, h⟩ := bind_ok.mp h
  have hstep : Step e q (w, hs) (v, hs) := Step.taker ho ht hv
  have hone : ∀ z ∈ v.execs, True → z.OneLeg := fun z hz _ => (hgood z (hsub z hz)).oneLeg
  have hgoodu : ∀ z ∈ u.execs, z.Rouses := fun z hz => hgood z (triggerLoop_history h z hz)
  have hvx := hstep.lone trivial hone hx
  obtain ⟨hsell, _⟩ := quiet_triggerStop hvx hu hgoodu
  obtain ⟨hbuy, hkeep⟩ :=
    quiet_triggerStop (hvx.steps (triggerStop_steps (q := q) hu) hgoodu) h hgood
  intro t
  cases t with
  | buy => exact hbuy
  | sell => exact hkeep hsell

/-! ### New orders -/

theorem quiet_rejectArg {st : OrderStatus} (hq : ∀ t, (w.store e).Quiet t) :
    ∀ t, ((rejectArg w e st).store e).Quiet t := by
  have hst : (rejectArg w e st).store e = w.store e := by
    rw [rejectArg, World.store_callback]
    rfl
  rw [hst]
  exact hq

/-- A stop may be registered where it is not due. -/
theorem quiet_registered {ss : List Side} (hreg : Registered w w' e o ss)
    (hq : ∀ t, (w.store e).Quiet t)
    (hdue : ∀ t ∈ ss, ∀ p ∈ (w.store e).firstPrice t, t.reached p (o.stopTrigger t) = false)
    (t : Side) : (w'.store e).Quiet t := by
  intro p hp l hl
  rw [Store.firstPrice, hreg.book] at hp
  rw [hreg.stops] at hl
  split_ifs at hl with ht
  · rcases Ladder.mem_insert_key hl with he | ⟨l', hl', he⟩
    · rw [he]
      exact hdue t ht p hp
    · exact he ▸ hq t p hp l' hl'
  · exact hq t p hp l hl

/-- What the best price does not reach is not due. -/
theorem not_due {best a : ℤ} (hok : w.Ok) (hi : (w.conf e).impliers s = [])
    (hbest : bestPrice w e s = .ok best) (h : ¬(best ≠ marketPrice ∧ s.reached best a = true)) :
    ∀ p ∈ (w.store e).firstPrice s, s.reached p a = false := by
  intro p hp
  rcases bestPrice_first hok hi hbest with ⟨hnone, _⟩ | ⟨hsome, hne⟩
  · rw [hnone] at hp
    cases hp
  · obtain rfl := Option.some.inj (hsome.symm.trans hp)
    exact Bool.eq_false_iff.mpr fun hr => h ⟨hne, hr⟩

theorem quiet_newPlain (hx : Lone (fun _ _ => True) e (w, hs)) (h0 : w.arg.orderId = 0)
    (hren : w.arg.Renew q) (hpos : 0 < q.quantity) (hside : q.side = s.plain)
    (h : newPlain w e s = .ok w') (hgood : ∀ z ∈ w'.execs, z.Rouses)
    (hq : ∀ t, (w.store e).Quiet t) :
    ∀ t, (w'.store e).Quiet t := by
  set o : Order :=
    { w.arg with
      remainQuantity := w.arg.quantity, orderState := .opened, orderId := w.nextId } with ho
  have hinit : initNewOrder w = w.bumpId.setArg o := initNewOrder_eq h0
  have hfrom : o.From q w.nextId := ⟨by rw [ho, hren.eq], hpos, fun _ _ => by rw [ho, hren.eq]⟩
  simp only [newPlain, hinit, World.arg_setArg] at h
  split at h
  · obtain rfl := pure_ok.mp h
    exact quiet_rejectArg hq
  · rename_i hmk
    exact quiet_executeArg hx hfrom
      (Or.inl ⟨by rw [hfrom.eq]; exact hside, fun hty hp => hmk ⟨hty, hp⟩⟩) h hgood

/-- A stop that is triggered at once. -/
theorem quiet_executeLeg (hx : Lone (fun _ _ => True) e (w, hs)) (ho : o.From q w.nextId)
    (hside : o.side = s.stop ∨ o.side = .buySellStop) (hl : o.stopLimit s ≠ marketPrice)
    (h : executeLeg (w.bumpId.setArg o) e s = .ok w') (hgood : ∀ z ∈ w'.execs, z.Rouses) :
    ∀ t, (w'.store e).Quiet t := by
  have hlim : ({ o with price := o.stopLimit s } : Order).stopLimit s = o.stopLimit s := by
    cases s <;> rfl
  have hqs : q.side = o.side := by rw [ho.eq]
  have hfrom : ({ o with price := o.stopLimit s } : Order).From q w.nextId :=
    ⟨by rw [ho.eq], ho.pos, fun t ht => absurd (hqs ▸ ht)
      (by rcases hside with h | h <;> rw [h] <;> cases s <;> cases t <;> decide)⟩
  exact quiet_executeArg hx hfrom (Or.inr ⟨hside, hlim.symm, by rw [hlim]; exact hl⟩) h hgood

/-- The order `init_new_order` makes of a stop request, and the world it is made in. -/
theorem Order.Renew.from_stop {p : ℤ} (hren : w.arg.Renew q) (hpos : 0 < q.quantity)
    (hq : ∀ t : Side, q.side ≠ t.plain) :
    ({ w.arg with
      price := p, remainQuantity := w.arg.quantity, orderState := .opened, orderId := w.nextId } :
        Order).From q w.nextId :=
  ⟨by rw [hren.eq], hpos, fun t ht => absurd ht (hq t)⟩

theorem quiet_newStop (hx : Lone (fun _ _ => True) e (w, hs)) (h0 : w.arg.orderId = 0)
    (hren : w.arg.Renew q) (hpos : 0 < q.quantity) (hside : q.side = s.stop)
    (h : newStop w e s = .ok w') (hgood : ∀ z ∈ w'.execs, z.Rouses)
    (hq : ∀ t, (w.store e).Quiet t) :
    ∀ t, (w'.store e).Quiet t := by
  simp only [newStop, bind_ok] at h
  obtain ⟨best, hbest, h⟩ := h
  set v := w.setArg { w.arg with price := stopPrice } with hv
  have hvx : Lone (fun _ _ => True) e (v, hs) := hx.congr (fun _ => rfl) (fun _ => rfl) rfl
  rcases hrej : stopReject v.arg s with _ | st
  swap
  · simp only [hrej] at h
    obtain rfl := pure_ok.mp h
    exact quiet_rejectArg hq
  simp only [hrej] at h
  set o : Order :=
    { v.arg with
      remainQuantity := v.arg.quantity, orderState := .opened, orderId := v.nextId } with ho
  have hinit : initNewOrder v = v.bumpId.setArg o := initNewOrder_eq h0
  have hfrom : o.From q v.nextId := hren.from_stop hpos fun t ht => by
    rw [hside] at ht
    cases s <;> cases t <;> cases ht
  have hos : o.side = s.stop := by rw [hfrom.eq]; exact hside
  have hlim : o.stopLimit s ≠ marketPrice := by
    have hlimit := stopReject_none hrej
    cases s <;> exact hlimit
  rw [hinit] at h
  split at h
  · exact quiet_executeLeg hvx hfrom (Or.inl hos) hlim h hgood
  · rename_i hnot
    obtain rfl := pure_ok.mp h
    obtain ⟨hnone, _⟩ :=
      hvx.sound.stores.self.unused (show v.nextId ≤ o.orderId from hfrom.orderId.ge)
    have hreg := World.registered (w := v.bumpId.setArg o) e hnone rfl [s] (List.nodup_singleton s)
    have hdue : ∀ p ∈ (v.store e).firstPrice s, s.reached p (o.stopTrigger s) = false :=
      not_due (fun l => (hvx.sound.stores l).books) (hvx.alone s) hbest hnot
    intro t
    rw [World.store_callback]
    exact quiet_registered hreg hq (fun t ht => List.mem_singleton.mp ht ▸ hdue) t

theorem quiet_newBuySellStop (hx : Lone (fun _ _ => True) e (w, hs)) (h0 : w.arg.orderId = 0)
    (hren : w.arg.Renew q) (hpos : 0 < q.quantity) (hside : q.side = .buySellStop)
    (h : newBuySellStop w e = .ok w') (hgood : ∀ z ∈ w'.execs, z.Rouses)
    (hq : ∀ t, (w.store e).Quiet t) : ∀ t, (w'.store e).Quiet t := by
  simp only [newBuySellStop, bind_ok] at h
  obtain ⟨bestA, hbestA, bestB, hbestB, h⟩ := h
  set v := w.setArg { w.arg with price := stopPrice } with hv
  have hvx : Lone (fun _ _ => True) e (v, hs) := hx.congr (fun _ => rfl) (fun _ => rfl) rfl
  rcases hrejB : stopReject v.arg .buy with _ | st
  swap
  · simp only [hrejB] at h
    obtain rfl := pure_ok.mp h
    exact quiet_rejectArg hq
  rcases hrejS : stopReject v.arg .sell with _ | st
  swap
  · simp only [hrejB, hrejS] at h
    obtain rfl := pure_ok.mp h
    exact quiet_rejectArg hq
  simp only [hrejB, hrejS] at h
  set o : Order :=
    { v.arg with
      remainQuantity := v.arg.quantity, orderState := .opened, orderId := v.nextId } with ho
  have hinit : initNewOrder v = v.bumpId.setArg o := initNewOrder_eq h0
  have hfrom : o.From q v.nextId := hren.from_stop hpos fun t ht => by
    rw [hside] at ht
    cases t <;> cases ht
  have hos : o.side = .buySellStop := by rw [hfrom.eq]; exact hside
  rw [hinit] at h
  split at h
  · have hlim : o.stopLimit .buy ≠ marketPrice := stopReject_none hrejB
    exact quiet_executeLeg hvx hfrom (Or.inr hos) hlim h hgood
  rename_i hnotB
  split at h
  · have hlim : o.stopLimit .sell ≠ marketPrice := stopReject_none hrejS
    exact quiet_executeLeg hvx hfrom (Or.inr hos) hlim h hgood
  rename_i hnotS
  obtain rfl := pure_ok.mp h
  obtain ⟨hnone, _⟩ :=
    hvx.sound.stores.self.unused (show v.nextId ≤ o.orderId from hfrom.orderId.ge)
  have hreg := World.registered (w := v.bumpId.setArg o) e hnone rfl [.buy, .sell] (by decide)
  have hok : v.Ok := fun l => (hvx.sound.stores l).books
  have hdue : ∀ t, ∀ p ∈ (v.store e).firstPrice t,
      t.reached p (o.stopTrigger t) = false := fun t => by
    cases t with
    | buy => exact not_due hok (hvx.alone .buy) hbestA hnotB
    | sell => exact not_due hok (hvx.alone .sell) hbestB fun hd => hnotS (.inr hd.2)
  intro t
  rw [World.store_callback]
  exact quiet_registered hreg hq (fun t _ => hdue t) t

theorem quiet_handleNew (hx : Lone (fun _ _ => True) e (w, hs)) (hren : w.arg.Renew q)
    (hnew : w.arg.orderAction = .new) (h : handleNew w e = .ok w')
    (hgood : ∀ z ∈ w'.execs, z.Rouses) (hq : ∀ t, (w.store e).Quiet t) :
    ∀ t, (w'.store e).Quiet t := by
  rw [handleNew, if_pos hnew] at h
  set v := w.setArg { w.arg with orderId := 0 } with hv
  have hvx : Lone (fun _ _ => True) e (v, hs) := hx.congr (fun _ => rfl) (fun _ => rfl) rfl
  have hren' : v.arg.Renew q := ⟨by rw [hv, World.arg_setArg, hren.eq]⟩
  have hquant : v.arg.quantity = q.quantity := by rw [hren'.eq]
  have hside : v.arg.side = q.side := by rw [hren'.eq]
  rw [newChecked, hquant, hside] at h
  split at h
  · obtain rfl := pure_ok.mp h
    exact quiet_rejectArg hq
  rename_i h0
  split at h
  · obtain rfl := pure_ok.mp h
    exact quiet_rejectArg hq
  have hpos : 0 < q.quantity := Nat.pos_of_ne_zero h0
  split at h
  · exact quiet_newPlain hvx rfl hren' hpos ‹_› h hgood hq
  · exact quiet_newPlain hvx rfl hren' hpos ‹_› h hgood hq
  · exact quiet_newStop hvx rfl hren' hpos ‹_› h hgood hq
  · exact quiet_newStop hvx rfl hren' hpos ‹_› h hgood hq
  · exact quiet_newBuySellStop hvx rfl hren' hpos ‹_› h hgood hq
  · obtain rfl := pure_ok.mp h
    exact quiet_rejectArg hq

/-! ### Cancellations and amends -/

/-- Taking a resting order out of a book with the trigger that goes with it. -/
theorem quiet_unrest {is : List ℕ} (hwf : ((w.store e).book t).WF t.cmp)
    (hlev : ((w.store e).book t).level? o.price = some is)
    (hx : Lone (fun _ _ => True) e
      (w.setBook e t (((w.store e).book t).eraseAt o.price o.orderId), hs))
    (h : unrest w e t o = .ok w') (hgood : ∀ z ∈ w'.execs, z.Rouses)
    (hq : ∀ s, (w.store e).Quiet s) : ∀ s, (w'.store e).Quiet s := by
  have hfound : eraseFound (w.book e t) o.price o.orderId =
      .ok (((w.store e).book t).eraseAt o.price o.orderId) := by
    rw [World.book, eraseFound, hlev]
    rfl
  set u := w.setBook e t (((w.store e).book t).eraseAt o.price o.orderId) with hu
  have hbook : ∀ s, (u.store e).book s =
      if s = t then ((w.store e).book t).eraseAt o.price o.orderId
      else (w.store e).book s := fun s => by
    rw [hu, World.setBook_eq, World.store_upd, if_pos rfl, Store.book_setBook]
  have hstops : ∀ s, (u.store e).stops s = (w.store e).stops s := fun s => by
    rw [hu, World.setBook_eq, World.store_upd, if_pos rfl, Store.stops_setBook]
  have hopp : (u.store e).Quiet t.opp :=
    (hq t.opp).congr (by rw [hbook, if_neg (Side.opp_ne t)]) (hstops _)
  have hboth : ∀ {v : World}, (v.store e).Quiet t → (v.store e).Quiet t.opp →
      ∀ s, (v.store e).Quiet s := fun hself hother s => by
    rcases eq_or_ne s t with rfl | hne
    · exact hself
    · rw [Side.eq_opp_of_ne hne]
      exact hother
  obtain ⟨x, b, hb⟩ : ∃ x b, (w.store e).book t = x :: b := by
    refine List.exists_cons_of_ne_nil fun hnil => ?_
    rw [hnil] at hlev
    cases hlev
  simp only [unrest, hfound, ok_bind] at h
  rw [show w.book e t = x :: b from hb] at h
  by_cases hlast : x.2.length = 1 ∧ o.price = x.1
  · rw [if_pos (by simpa using hlast)] at h
    obtain ⟨hself, hother⟩ := quiet_triggerStop hx h hgood
    exact hboth hself (hother hopp)
  · rw [if_neg (by simpa using hlast)] at h
    obtain rfl := pure_ok.mp h
    -- the first price of the book has not changed
    have hself : (u.store e).Quiet t := by
      refine (hq t).mono (fun p hp => ?_) fun l hl => ⟨l, hstops t ▸ hl, rfl⟩
      rw [Store.firstPrice, hbook, if_pos rfl, hb] at hp
      obtain ⟨y, hy, rfl⟩ := Option.map_eq_some_iff.mp hp
      refine ⟨x.1, by rw [Store.firstPrice, hb]; rfl, ?_⟩
      rw [hb] at hwf
      rw [Ladder.head_eraseAt hlast (hwf.full x List.mem_cons_self) hy]
      exact StrictLt.irrefl x.1
    exact hboth hself hopp

/-- Taking a waiting stop out of its stop books. -/
theorem quiet_dropStops {ss : List Side} (hd : Dropped w w' e o ss)
    (hq : ∀ s, (w.store e).Quiet s) : ∀ s, (w'.store e).Quiet s := by
  intro s
  refine (hq s).of_stops (hd.book s) fun l hl => ?_
  rw [hd.stops] at hl
  split_ifs at hl
  · exact Ladder.mem_eraseAt hl
  · exact ⟨l, hl, rfl⟩

/-- The cancellation of an order that is there, marked by the request or not. -/
theorem quiet_cancelFound (a : OrderAction) {b : Bool} {st : OrderStatus}
    (hx : Lone (fun _ _ => True) e (w, [])) (harg : w.arg = q)
    (hst : cancelState q.orderAction = some st) (hf : (w.store e).odrMap.find? q.orderId = some o)
    (h : handleCancel (w.putOrder e q.orderId { o with orderAction := a }) e = .ok (w', b))
    (hgood : ∀ z ∈ w'.execs, z.Rouses) (hq : ∀ s, (w.store e).Quiet s) :
    (∀ s, (w'.store e).Quiet s) ∧ Lone (fun _ _ => True) e (w', []) ∧ w'.arg = q := by
  obtain ⟨⟨v, hopen, hsteps⟩, harg', -⟩ := handleCancel_found a harg hst hf h
  refine ⟨?_, (hopen.lone hx).steps hsteps hgood, harg'⟩
  set o' : Order := { o with orderAction := a } with ho'
  set x := w.putOrder e q.orderId o' with hxw
  have hxarg : x.arg = q := harg
  have hfx : x.order? e x.arg.orderId = some o' := by
    rw [World.order?, hxarg, hxw, World.putOrder_eq, World.store_upd, if_pos rfl,
      Store.odrMap_withMap, OrdMap.find?_insert, if_pos rfl]
  have hack : x.ackCancel e x.arg.orderId o' st = w.ackCancel e q.orderId o' st := by
    rw [hxarg, World.ackCancel, World.ackCancel, hxw, World.putOrder_putOrder]
  rw [handleCancel_unlist hfx (by rw [hxarg]; exact hst), hack, unlist_eq] at h
  obtain ⟨u, hu, h⟩ := bind_ok.mp h
  obtain rfl : u.eraseOrder e x.arg.orderId = w' := congrArg Prod.fst (pure_ok.mp h).symm |>.symm
  have hqack : ∀ s, ((w.ackCancel e q.orderId o' st).store e).Quiet s := fun s =>
    (hq s).congr (World.book_ackCancel ..) (World.stops_ackCancel ..)
  have hqu : ∀ s, (u.store e).Quiet s := by
    have hlook : ({ o' with orderState := st } : Order).lookup = o.lookup := rfl
    rw [hlook] at hu
    rcases hl : o.lookup with t | ss
    · simp only [hl] at hu
      obtain ⟨hlev, -⟩ := unrest_ok hu
      obtain ⟨is, his⟩ := Option.ne_none_iff_exists'.mp hlev
      rw [World.book, World.book_ackCancel] at his
      have hopen' := (Opening.unbooked (a := a) hf hst hl his).lone hx
      rw [← World.book_ackCancel w e q.orderId o' st] at his hopen'
      refine quiet_unrest ?_ his hopen' hu hgood hqack
      rw [World.book_ackCancel]
      exact hx.sound.stores.self.books.wf t
    · simp only [hl] at hu
      obtain ⟨-, rfl⟩ := unstops_ok ss (Order.lookup_nodup hl) hu
      exact quiet_dropStops (World.dropped e _ ss _ (Order.lookup_nodup hl)) hqack
  intro s
  refine (hqu s).congr ?_ ?_
  · rw [World.eraseOrder_eq, World.store_upd, if_pos rfl, Store.book_withMap]
  · rw [World.eraseOrder_eq, World.store_upd, if_pos rfl, Store.stops_withMap]

theorem quiet_handleAmend (hx : Lone (fun _ _ => True) e (w, [])) (harg : w.arg = q)
    (ha : q.orderAction = .amend) (h : handleAmend w e = .ok w')
    (hgood : ∀ z ∈ w'.execs, z.Rouses) (hq : ∀ s, (w.store e).Quiet s) :
    ∀ s, (w'.store e).Quiet s := by
  subst harg
  rw [handleAmend] at h
  split at h
  · obtain rfl := pure_ok.mp h
    exact quiet_rejectArg hq
  split at h
  · obtain rfl := pure_ok.mp h
    exact quiet_rejectArg hq
  rcases hf : w.order? e w.arg.orderId with _ | o
  · rw [hf] at h
    obtain rfl := pure_ok.mp h
    exact quiet_rejectArg hq
  simp only [hf] at h
  split at h
  · obtain rfl := pure_ok.mp h
    intro s
    rw [World.store_callback]
    exact (hq s).congr (by simp) (by simp)
  have hst : cancelState w.arg.orderAction = some .canceledByAmend := by rw [ha]; rfl
  obtain ⟨⟨v, b⟩, hv, h⟩ := bind_ok.mp h
  simp only at h
  have hlogged : ∀ z ∈ v.execs, z.Rouses := by
    split at h
    · intro z hz
      have hnew : Once e w.arg (v, []) (w', []) := by
        obtain ⟨-, hvarg, -⟩ := handleCancel_found _ rfl hst hf hv
        exact Once.head (Relation.ReflTransGen.single (Step.arg _))
          (handleNew_once ⟨by rw [World.arg_setArg, hvarg]⟩ rfl h)
      exact hgood z (hnew.steps.execs z hz)
    · obtain rfl := pure_ok.mp h
      exact hgood
  obtain ⟨hqv, hvx, hvarg⟩ := quiet_cancelFound _ hx rfl hst hf hv hlogged hq
  split at h
  · have hset : ∀ o, Lone (fun _ _ => True) e (v.setArg o, []) :=
      fun o => hvx.congr (fun _ => rfl) (fun _ => rfl) rfl
    refine quiet_handleNew (q := w.arg) (hset _) ?_ ?_ h hgood hqv
    · exact ⟨by rw [World.arg_setArg, hvarg]⟩
    · rfl
  · obtain rfl := pure_ok.mp h
    exact hqv

end Matching
