import Matching.Engine.Calls

/-! What holds of the books of an engine whatever it is sent: the levels of the price books are
    sorted and full (`World.Sorted`), and an execution leaves the stop books alone, so that a stop
    trigger with nothing waiting changes nothing. -/

namespace Matching

/-- The price books of every engine are well-formed ladders. -/
def World.Sorted (w : World) : Prop := ∀ l s, ((w.store l).book s).WF s.cmp

variable {T : ℕ → Prop} {w w' : World} {l e : ℕ} {s : Side} {r : Ref} {q : Order}

namespace World.Sorted

theorem congr (h : w.Sorted) (hb : ∀ l s, (w'.store l).book s = (w.store l).book s) : w'.Sorted :=
  fun l s => hb l s ▸ h l s

theorem upd (h : w.Sorted) {f : Store → Store} (hf : ∀ s, ((f (w.store l)).book s).WF s.cmp) :
    (w.upd l f).Sorted := fun l' s => by
  rw [store_upd]
  split_ifs
  · exact hf s
  · exact h l' s

theorem callback (h : w.Sorted) (o : Order) : (w.callback l o).Sorted :=
  h.congr fun _ _ => by rw [store_callback]

/-- Whatever becomes of the map. -/
theorem withMap (h : w.Sorted) (f : Store → OrdMap ℕ Order) :
    (w.upd l (fun g => g.withMap (f g))).Sorted := h.upd fun s => by
  rw [Store.book_withMap]
  exact h l s

theorem putOrder (h : w.Sorted) (id : ℕ) (o : Order) : (w.putOrder l id o).Sorted := h.withMap _

theorem eraseOrder (h : w.Sorted) (id : ℕ) : (w.eraseOrder l id).Sorted := h.withMap _

theorem erase (h : w.Sorted) (s : Side) (p : ℤ) (id : ℕ) :
    (w.setBook l s (((w.store l).book s).eraseAt p id)).Sorted := h.upd fun t => by
  rw [Store.book_setBook]
  split_ifs with ht
  · subst ht
    exact Ladder.wf_eraseAt p id (h l t)
  · exact h l t

/-- An order comes to rest. -/
theorem insert (h : w.Sorted) (s : Side) (o : Order) : (w.upd l (fun g =>
    { g.setBook s ((g.book s).insert s.cmp o.price o.orderId) with
      odrMap := g.odrMap.emplace o.orderId o })).Sorted := h.upd fun t => by
  change ((((w.store l).setBook s _).withMap _).book t).WF t.cmp
  rw [Store.book_withMap, Store.book_setBook]
  split_ifs with ht
  · subst ht
    exact Ladder.wf_insert _ _ (h l t)
  · exact h l t

theorem setStops (h : w.Sorted) (s : Side) (b : Book) :
    (w.setStops l s b).Sorted := h.upd fun t => by
  rw [Store.book_setStops]
  exact h l t

theorem registerStop (h : w.Sorted) (s : Side) : (registerStop w l s).Sorted := by
  unfold Matching.registerStop
  refine h.upd fun t => ?_
  change ((((w.store l).setStops s _).withMap _).book t).WF t.cmp
  rw [Store.book_withMap, Store.book_setStops]
  exact h l t

theorem registerStops (h : w.Sorted) : ∀ ss : List Side, (w.registerStops l ss).Sorted
  | [] => h
  | s :: ss => (registerStops h ss).registerStop s

theorem dropStops (o : Order) :
    ∀ (ss : List Side) {w : World}, w.Sorted → (w.dropStops l o ss).Sorted
  | [], _, h => h
  | s :: ss, _, h => dropStops o ss (h.setStops s _)

theorem ackCancel (h : w.Sorted) (id : ℕ) (o : Order) (st : OrderStatus) :
    (w.ackCancel l id o st).Sorted :=
  (h.putOrder id _).callback _

theorem writeRef (h : w.Sorted) (o : Order) : (w.writeRef e r o).Sorted :=
  h.congr fun _ _ => by rw [book_writeRef]

theorem act (h : w.Sorted) (ha : Act T e r w w') : w'.Sorted := by
  cases ha with
  | bump => exact h
  | fill => exact (h.putOrder _ _).callback _
  | unbook hT s p id => exact h.erase s p id
  | erase => exact h.eraseOrder _
  | take => exact (h.writeRef _).callback _
  | kill => exact (h.writeRef _).callback _
  | price => exact h.writeRef _
  | rest ho s => exact h.insert s.opp _
  | report => exact h.callback _

theorem execute (h : w.Sorted) (hex : execute w e s r = .ok w') : w'.Sorted := by
  obtain ⟨o, _, hacts⟩ :=
    Acts.execute (T := fun _ => True) trivial (fun _ _ => ⟨trivial, trivial⟩) hex
  clear hex
  induction hacts with
  | refl => exact h
  | tail _ hact ih => exact ih.act hact

theorem step {x y : World × List Held} (h : x.1.Sorted) (hs : Step e q x y) : y.1.Sorted := by
  cases hs with
  | arg => exact h
  | bump => exact h
  | @reject v _ o => exact callback (w := v.setArg o) h o
  | @taker v _ _ o _ _ _ hex => exact execute (w := v.bumpId.setArg o) h hex
  | fire _ hex => exact (h.putOrder _ _).execute hex
  | collect s => exact h.setStops s _
  | @register v _ o => exact (registerStops (w := v.bumpId.setArg o) h _).callback o
  | drop => exact h.eraseOrder _

theorem opening {y : World × List Held} (h : w.Sorted) (ho : Opening e q w y) : y.1.Sorted := by
  cases ho with
  | same => exact h
  | @refused o => exact callback (w := w.setArg o) h o
  | amended => exact (h.putOrder _ _).callback _
  | @unbooked o a st t =>
    have hbook : ((w.ackCancel e q.orderId { o with orderAction := a } st).store e).book t =
        (w.store e).book t := by
      simp [World.ackCancel]
    have herase :=
      (h.ackCancel (l := e) q.orderId { o with orderAction := a } st).erase (l := e)
        t o.price o.orderId
    rwa [hbook] at herase
  | unstopped => exact dropStops _ _ (h.ackCancel _ _ _)

theorem handleInsert (h : w.Sorted) : (handleInsert w e).Sorted := by
  simp only [Matching.handleInsert]
  generalize hv : w.setArg _ = v
  have hsort : v.Sorted := hv ▸ h
  have hreg : ∀ o : Order, (Matching.registerStop (v.setArg o) e .buy).Sorted :=
    fun o => registerStop (w := v.setArg o) hsort .buy
  suffices hend : ∀ {u : World}, u.Sorted → (u.emit e u.arg).Sorted by
    refine hend ?_
    split
    · exact hsort.insert .sell _
    · exact hsort.insert .buy _
    · split
      · exact hsort.insert .sell _
      · exact hreg _
    · split
      · exact hsort.insert .buy _
      · exact hreg _
    · exact (hsort.registerStop .sell).registerStop .buy
    · exact hsort
  exact fun hu => hu

end World.Sorted

/-- Every call keeps the books well-formed. -/
theorem handle_sorted (h : handle w e q = .ok w') (hsort : w.Sorted) : w'.Sorted := by
  by_cases ht : q.IsTrade
  · have hall : ∀ z ∈ w'.execs, (fun _ : Exec => True) z := fun _ _ => trivial
    exact handle_induct (I := fun x => x.1.Sorted) ht
      (fun hst _ _ hx => hx.congr fun l s => by rw [hst]) (fun ho hx => hx.opening ho)
      (fun hs _ hx => hx.step hs) h hall hsort
  · obtain ⟨held, _, ⟨_, rfl⟩ | ⟨_, v, hv, rfl⟩⟩ := handle_cases h
    · exact hsort
    · have hent : (w.enter e q held).Sorted := hsort.congr fun l s => by rw [World.store_enter]
      have hend : v.Sorted := by
        simp only [Order.IsTrade, not_or] at ht
        have harg : (w.enter e q held).arg = q := World.arg_enter ..
        rw [dispatch, harg] at hv
        cases ha : q.orderAction <;> simp only [ha, Except.ok.injEq] at hv
        case new => exact absurd ha ht.1
        case cancel => exact absurd ha ht.2.1
        case amend => exact absurd ha ht.2.2
        case dump => exact hent.congr fun l s => by rw [← hv, (handleDump_same _ e).1]
        all_goals exact hv ▸ hent.handleInsert
      exact hend.congr fun l s => by rw [World.store_unlock, World.store_flush]

theorem run_sorted {w0 : World} (h0 : w0.Fresh) {rs : List (ℕ × Order)} (h : run w0 rs = .ok w) :
    w.Sorted :=
  run_induct (fun hh ht => handle_sorted hh ht) rs h fun l s => by
    rw [h0.store]
    cases s <;> exact Ladder.wf_nil _

/-! ### Stop books -/

theorem Act.stops (h : Act T e r w w') (l : ℕ) (s : Side) :
    (w'.store l).stops s = (w.store l).stops s := by
  cases h with
  | bump => rfl
  | @fill l' => by_cases hl : l = l' <;> simp [hl]
  | @unbook l' => by_cases hl : l = l' <;> simp [hl]
  | @erase l' => by_cases hl : l = l' <;> simp [hl]
  | take => simp
  | kill => simp
  | price => simp
  | rest ho t =>
    rw [World.store_upd]
    split_ifs with hl
    · subst hl
      exact (Store.stops_withMap ..).trans (Store.stops_setBook ..)
    · rfl
  | report => simp

/-- An execution leaves the stop books alone. -/
theorem execute_stops (h : execute w e s r = .ok w') (l : ℕ) (t : Side) :
    (w'.store l).stops t = (w.store l).stops t := by
  obtain ⟨o, _, hacts⟩ :=
    Acts.execute (T := fun _ => True) trivial (fun _ _ => ⟨trivial, trivial⟩) h
  clear h
  induction hacts with
  | refl => rfl
  | tail _ hact ih => exact (hact.stops l t).trans ih

theorem World.setStops_self (w : World) (l : ℕ) (s : Side) :
    w.setStops l s ((w.store l).stops s) = w := by
  have hself : ∀ g : Store, g.setStops s (g.stops s) = g := fun g => by cases s <;> rfl
  have hst : (w.store l) = (w.engines l).toStore := rfl
  simp only [setStops, upd, modify, hst, hself, Function.update_eq_self]

/-- A stop trigger reads the best price first. -/
theorem triggerStop_nil (hnil : (w.store e).stops s = []) :
    triggerStop w e s = (do let _ ← bestPrice w e s; return w) := by
  have hcol : ∀ best, collectStops w e s best = (w, []) := by
    intro best
    have hself := w.setStops_self e s
    rw [hnil] at hself
    simp only [collectStops, World.stops, hnil, List.filter_nil, Ladder.ids_nil, hself]
  rw [triggerStop, World.stops, hnil]
  simp only [List.length_nil, triggerLoop, hcol, activateStops, ok_bind, if_true]

/-! ### Calls that return -/

/-- The locks of engine `e` are free. -/
def World.Unlocked (w : World) (e : ℕ) : Prop :=
  ∃ held, lockAll (w.conf e).mutexSet w.locked = .ok held

theorem World.Unlocked.of_free :
    ∀ {ms : List ℕ} {held : ℕ → Bool}, ms.Nodup → (∀ m ∈ ms, held m = false) →
    ∃ held', lockAll ms held = .ok held'
  | [], held, _, _ => ⟨held, rfl⟩
  | m :: ms, held, hnd, hfree => by
    obtain ⟨hm, hnd⟩ := List.nodup_cons.mp hnd
    have hrest : ∀ x ∈ ms, Function.update held m true x = false := fun x hx => by
      rw [Function.update_of_ne (fun he : x = m => hm (he ▸ hx))]
      exact hfree x (List.mem_cons_of_mem _ hx)
    obtain ⟨held', hheld⟩ := of_free hnd hrest
    exact ⟨held', by rw [lockAll, if_neg (by simp [hfree m List.mem_cons_self]), hheld]⟩

theorem handle_unlocked (h : handle w e q = .ok w') : w.Unlocked e := by
  obtain ⟨held, hheld, _⟩ := handle_cases h
  exact ⟨held, hheld⟩

/-- A call whose dispatch returns, returns. -/
theorem handle_ok {held : ℕ → Bool} {v : World}
    (hheld : lockAll (w.conf e).mutexSet w.locked = .ok held) (hs : ¬q.Stray)
    (hv : dispatch (w.enter e q held) e = .ok v) :
    handle w e q = .ok (unlock (flushAuction v e) e) := by
  have hlock : lock (w.setArg q) e = .ok { w.setArg q with locked := held } := by
    have hheld' : lockAll ((w.setArg q).conf e).mutexSet (w.setArg q).locked = .ok held := hheld
    simp only [lock, hheld', ok_bind]
    rfl
  rw [handle, hlock, ok_bind]
  by_cases ha : q.timeCondition = .auction
  · have hside : q.side = .buy ∨ q.side = .sell := not_not.mp fun hn => hs ⟨ha, hn⟩
    rw [World.enter, if_pos ha] at hv
    rw [if_pos ha, if_pos hside]
    simp only [hv, ok_bind]
    rfl
  · rw [World.enter, if_neg ha] at hv
    rw [if_neg ha]
    simp only [hv, ok_bind]
    rfl

end Matching
