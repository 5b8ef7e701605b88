import Matching.Engine.Steps

/-! Whole calls of `engine::handle`: what is done before and after the request is
    dispatched, and what no request changes. Between two calls no engine is in an auction
    and none holds a report back. -/

namespace Matching

variable {w w' : World} {e : ℕ} {q o : Order} {hs : List Held}

/-! ### What a request leaves alone -/

/-- Locks, settings and auction flags are as they were, and an engine that is not in an auction
    holds no more reports back than before. -/
structure Calm (w w' : World) : Prop where
  conf : ∀ l, w'.conf l = w.conf l
  auction : ∀ l, (w'.engines l).isAuction = (w.engines l).isAuction
  cbRecords : ∀ l, (w.engines l).isAuction = false →
    (w'.engines l).cbRecords = (w.engines l).cbRecords
  locked : w'.locked = w.locked

namespace Calm

variable {w'' : World}

theorem refl (w : World) : Calm w w := ⟨fun _ => rfl, fun _ => rfl, fun _ _ => rfl, rfl⟩

theorem trans (h : Calm w w') (h' : Calm w' w'') : Calm w w'' :=
  ⟨fun l => (h'.conf l).trans (h.conf l), fun l => (h'.auction l).trans (h.auction l),
    fun l ha => (h'.cbRecords l ((h.auction l).trans ha)).trans (h.cbRecords l ha),
    h'.locked.trans h.locked⟩

theorem of_keeps {r : Ref} (h : Keeps r w w') : Calm w w' :=
  ⟨h.conf, h.auction, h.cbRecords, h.locked⟩

theorem upd (w : World) (l : ℕ) (f : Store → Store) : Calm w (w.upd l f) :=
  of_keeps (Keeps.upd .arg w l f)

theorem callback (w : World) (l : ℕ) (o : Order) : Calm w (w.callback l o) :=
  of_keeps (Keeps.callback .arg w l o)

theorem setArg (w : World) (o : Order) : Calm w (w.setArg o) :=
  ⟨fun _ => rfl, fun _ => rfl, fun _ _ => rfl, rfl⟩

theorem emit (w : World) (l : ℕ) (o : Order) : Calm w (w.emit l o) :=
  ⟨fun _ => rfl, fun _ => rfl, fun _ _ => rfl, rfl⟩

theorem putOrder (w : World) (e id : ℕ) (o : Order) : Calm w (w.putOrder e id o) := by
  rw [World.putOrder_eq]; exact upd ..

theorem eraseOrder (w : World) (e id : ℕ) : Calm w (w.eraseOrder e id) := by
  rw [World.eraseOrder_eq]; exact upd ..

theorem setBook (w : World) (e : ℕ) (s : Side) (b : Book) : Calm w (w.setBook e s b) := by
  rw [World.setBook_eq]; exact upd ..

theorem setStops (w : World) (e : ℕ) (s : Side) (b : Book) : Calm w (w.setStops e s b) := by
  rw [World.setStops_eq]; exact upd ..

theorem registerStop (w : World) (e : ℕ) (s : Side) : Calm w (registerStop w e s) := by
  unfold Matching.registerStop; exact upd ..

theorem insertResting (w : World) (e : ℕ) (s : Side) : Calm w (insertResting w e s) := by
  unfold Matching.insertResting; exact upd ..

theorem registerStops (w : World) (e : ℕ) : ∀ ss : List Side, Calm w (w.registerStops e ss)
  | [] => refl w
  | s :: ss => (registerStops w e ss).trans (registerStop _ e s)

theorem dropStops (o : Order) (e : ℕ) : ∀ (ss : List Side) (w : World), Calm w (w.dropStops e o ss)
  | [], w => refl w
  | _ :: ss, w => (setStops w e _ _).trans (dropStops o e ss _)

theorem execute {s : Side} {r : Ref} (h : execute w e s r = .ok w') : Calm w w' := by
  obtain ⟨o, _, hk⟩ := Keeps.execute h
  have hlog : Calm w (w.logExec e s r o) := ⟨fun _ => rfl, fun _ => rfl, fun _ _ => rfl, rfl⟩
  exact hlog.trans (of_keeps hk)

end Calm

theorem Step.calm {x y : World × List Held} (h : Step e q x y) : Calm x.1 y.1 := by
  cases h with
  | arg o => exact Calm.setArg _ o
  | bump => exact Calm.of_keeps (Keeps.bumpId .arg _)
  | @reject v _ o => exact (Calm.setArg v o).trans (Calm.callback _ e o)
  | @taker v _ _ o _ _ _ hex =>
    exact ((Calm.of_keeps (Keeps.bumpId .arg v)).trans (Calm.setArg _ o)).trans (Calm.execute hex)
  | @fire v _ _ o s id _ hex => exact (Calm.putOrder v e id _).trans (Calm.execute hex)
  | collect => exact Calm.setStops ..
  | @register v _ o =>
    exact (((Calm.of_keeps (Keeps.bumpId .arg v)).trans (Calm.setArg _ o)).trans
      (Calm.registerStops _ e _)).trans (Calm.callback _ e o)
  | drop => exact Calm.eraseOrder ..

theorem Steps.calm {x y : World × List Held} (h : Steps e q x y) : Calm x.1 y.1 := by
  induction h with
  | refl => exact Calm.refl _
  | tail _ hstep ih => exact ih.trans hstep.calm

theorem Calm.ackCancel (w : World) (e id : ℕ) (o : Order) (st : OrderStatus) :
    Calm w (w.ackCancel e id o st) :=
  (putOrder w e id _).trans (callback _ e _)

theorem Opening.calm {y : World × List Held} (h : Opening e q w y) : Calm w y.1 := by
  cases h with
  | same => exact Calm.refl w
  | refused => exact (Calm.setArg w _).trans (Calm.callback _ e _)
  | amended => exact (Calm.putOrder w e _ _).trans (Calm.callback _ e _)
  | unbooked => exact (Calm.ackCancel ..).trans (Calm.setBook ..)
  | unstopped => exact (Calm.ackCancel ..).trans (Calm.dropStops _ e _ _)

theorem handleDump_calm (w : World) (e : ℕ) : Calm w (handleDump w e) := by
  have hfold : ∀ (xs : List (ℕ × Order)) (v : World),
      Calm v (xs.foldl (fun v x => v.emit e (dumpOrder x.2)) v) := by
    intro xs
    induction xs with
    | nil => exact Calm.refl
    | cons x xs ih => exact fun v => (Calm.emit v e _).trans (ih _)
  exact (hfold _ w).trans (Calm.emit _ e _)

/-- A dump delivers the live orders and changes no engine. -/
theorem handleDump_same (w : World) (e : ℕ) :
    (∀ l, (handleDump w e).store l = w.store l) ∧ (handleDump w e).nextId = w.nextId := by
  have hfold : ∀ (xs : List (ℕ × Order)) (v : World),
      (∀ l, (xs.foldl (fun v x => v.emit e (dumpOrder x.2)) v).store l = v.store l) ∧
        (xs.foldl (fun v x => v.emit e (dumpOrder x.2)) v).nextId = v.nextId := by
    intro xs
    induction xs with
    | nil => exact fun v => ⟨fun _ => rfl, rfl⟩
    | cons x xs ih => exact fun v => ih (v.emit e (dumpOrder x.2))
  exact hfold _ w

theorem handleInsert_calm (w : World) (e : ℕ) : Calm w (handleInsert w e) := by
  simp only [handleInsert]
  generalize hv : w.setArg _ = v
  have hcalm : Calm w v := hv ▸ Calm.setArg w _
  have hreg : ∀ (o : Order) (s : Side), Calm v (registerStop (v.setArg o) e s) := fun o s =>
    (Calm.setArg v o).trans (Calm.registerStop _ e s)
  refine (hcalm.trans ?_).trans (Calm.emit _ e _)
  split
  · exact Calm.insertResting v e _
  · exact Calm.insertResting v e _
  · split
    · exact Calm.insertResting v e _
    · exact hreg _ _
  · split
    · exact Calm.insertResting v e _
    · exact hreg _ _
  · exact (Calm.registerStop v e _).trans (Calm.registerStop _ e _)
  · exact Calm.refl v

theorem dispatch_calm (h : dispatch w e = .ok w') : Calm w w' := by
  by_cases ht : w.arg.IsTrade
  · obtain ⟨v, hs, hopen, hsteps⟩ := dispatch_steps rfl ht h
    exact hopen.calm.trans hsteps.calm
  · simp only [Order.IsTrade, not_or] at ht
    obtain ⟨h1, h2, h3⟩ := ht
    cases ha : w.arg.orderAction <;> simp only [dispatch, ha, Except.ok.injEq] at h
    case new => exact absurd ha h1
    case cancel => exact absurd ha h2
    case amend => exact absurd ha h3
    case dump => exact h ▸ handleDump_calm w e
    all_goals exact h ▸ handleInsert_calm w e

/-! ### Locks and the auction flag -/

theorem lockAll_ok : ∀ (ms : List ℕ) {held held' : ℕ → Bool}, lockAll ms held = .ok held' →
    (∀ m ∈ ms, held m = false) ∧ ∀ m, held' m = (decide (m ∈ ms) || held m)
  | [], held, held', h => by
    obtain rfl := Except.ok.inj h
    simp
  | m :: ms, held, held', h => by
    rw [lockAll] at h
    split at h
    · cases h
    · rename_i hm
      obtain ⟨hfree, hheld⟩ := lockAll_ok ms h
      have hne : ∀ x ∈ ms, x ≠ m := by
        rintro x hx rfl
        simpa using hfree x hx
      refine ⟨fun x hx => ?_, fun x => ?_⟩
      · rcases List.mem_cons.mp hx with rfl | hx
        · simpa using hm
        · simpa [hne x hx] using hfree x hx
      · rw [hheld x]
        by_cases hxm : x = m
        · subst hxm; simp
        · simp [hxm]

/-- The request's order object is set, the locks are held, and an auction is announced. -/
def World.enter (w : World) (e : ℕ) (o : Order) (held : ℕ → Bool) : World :=
  let w := { w.setArg o with locked := held }
  if o.timeCondition = .auction then w.modify e (fun g => { g with isAuction := true }) else w

/-- An auction request of another side than `BUY` and `SELL`. -/
def Order.Stray (o : Order) : Prop := o.timeCondition = .auction ∧ ¬(o.side = .buy ∨ o.side = .sell)

instance (o : Order) : Decidable o.Stray := inferInstanceAs (Decidable (_ ∧ _))

/-- A call takes the locks; it reports a stray auction request and returns, or it dispatches the
    request, delivers the records of an auction and gives the locks back. -/
theorem handle_cases (h : handle w e o = .ok w') :
    ∃ held, lockAll (w.conf e).mutexSet w.locked = .ok held ∧
      ((o.Stray ∧ w' = ({ w with locked := held }.setArg
          { o with orderState := .rejectAuctionSupportBuySellOnly }).emit e
          { o with orderState := .rejectAuctionSupportBuySellOnly }) ∨
        (¬o.Stray ∧ ∃ v, dispatch (w.enter e o held) e = .ok v ∧
          w' = unlock (flushAuction v e) e)) := by
  simp only [handle, lock, bind_ok, pure_ok] at h
  obtain ⟨v, ⟨held, hheld, rfl⟩, h⟩ := h
  refine ⟨held, hheld, ?_⟩
  split at h
  · rename_i hauc
    split at h
    · rename_i hside
      obtain ⟨u, hu, rfl⟩ := by simpa only [bind_ok, pure_ok] using h
      refine Or.inr ⟨fun hs => hs.2 hside, u, ?_, rfl⟩
      rw [World.enter, if_pos hauc]
      exact hu
    · rename_i hside
      exact Or.inl ⟨⟨hauc, hside⟩, (pure_ok.mp h).symm⟩
  · rename_i hauc
    obtain ⟨u, hu, rfl⟩ := by simpa only [bind_ok, pure_ok] using h
    refine Or.inr ⟨fun hs => hauc hs.1, u, ?_, rfl⟩
    rw [World.enter, if_neg hauc]
    exact hu

namespace World

variable (w : World) (e l : ℕ) (o : Order) (held : ℕ → Bool)

@[simp] theorem conf_enter : (w.enter e o held).conf l = w.conf l := by
  unfold enter
  split
  · simp only [conf, modify, Function.update_apply, setArg]
    split_ifs with hl
    · rw [hl]
    · rfl
  · rfl

@[simp] theorem store_enter : (w.enter e o held).store l = w.store l := by
  unfold enter
  split
  · simp only [store, modify, Function.update_apply, setArg]
    split_ifs with hl
    · rw [hl]
    · rfl
  · rfl

@[simp] theorem cbRecords_enter :
    ((w.enter e o held).engines l).cbRecords = (w.engines l).cbRecords := by
  unfold enter
  split
  · simp only [modify, Function.update_apply, setArg]
    split_ifs with hl
    · rw [hl]
    · rfl
  · rfl

theorem isAuction_enter : ((w.enter e o held).engines l).isAuction =
    if l = e ∧ o.timeCondition = .auction then true else (w.engines l).isAuction := by
  unfold enter
  split
  · simp only [modify, Function.update_apply, setArg]
    split_ifs with hl <;> simp_all
  · simp_all [setArg]

@[simp] theorem locked_enter : (w.enter e o held).locked = held := by unfold enter; split <;> rfl
@[simp] theorem arg_enter : (w.enter e o held).arg = o := by unfold enter; split <;> rfl
@[simp] theorem nextId_enter : (w.enter e o held).nextId = w.nextId := by
  unfold enter; split <;> rfl
@[simp] theorem reports_enter : (w.enter e o held).reports = w.reports := by
  unfold enter; split <;> rfl
@[simp] theorem execs_enter : (w.enter e o held).execs = w.execs := by unfold enter; split <;> rfl

theorem emitAll (e : ℕ) : ∀ (rs : List Order) (w : World),
    rs.foldl (fun w r => w.emit e r) w = { w with reports := w.reports ++ rs.map (fun r => (e, r)) }
  | [], w => by simp
  | r :: rs, w => by
    rw [List.foldl_cons, emitAll e rs (w.emit e r)]
    simp [emit, List.append_assoc]

@[simp] theorem conf_flush : (flushAuction w e).conf l = w.conf l := by
  unfold flushAuction
  split
  · simp only [emitAll, conf, modify, Function.update_apply]
    split_ifs with hl
    · rw [hl]
    · rfl
  · rfl

@[simp] theorem store_flush : (flushAuction w e).store l = w.store l := by
  unfold flushAuction
  split
  · simp only [emitAll, store, modify, Function.update_apply]
    split_ifs with hl
    · rw [hl]
    · rfl
  · rfl

theorem isAuction_flush : ((flushAuction w e).engines l).isAuction =
    if l = e then false else (w.engines l).isAuction := by
  unfold flushAuction
  split
  · simp only [emitAll, modify, Function.update_apply]
    split_ifs <;> rfl
  · rename_i ha
    split_ifs with hl
    · rw [hl]; simpa using ha
    · rfl

theorem cbRecords_flush : ((flushAuction w e).engines l).cbRecords =
    if l = e ∧ (w.engines e).isAuction then [] else (w.engines l).cbRecords := by
  unfold flushAuction
  split
  · rename_i ha
    simp only [emitAll, modify, Function.update_apply, ha, and_true]
    split_ifs <;> rfl
  · rename_i ha
    simp [ha]

theorem reports_flush : (flushAuction w e).reports = w.reports ++
    if (w.engines e).isAuction then (auctionRecords (w.engines e).cbRecords w.arg).map
      (fun r => (e, r)) else [] := by
  unfold flushAuction
  split
  · simp only [emitAll]
    rfl
  · simp

@[simp] theorem locked_flush : (flushAuction w e).locked = w.locked := by
  unfold flushAuction; split <;> simp [emitAll, modify]
@[simp] theorem arg_flush : (flushAuction w e).arg = w.arg := by
  unfold flushAuction; split <;> simp [emitAll, modify]
@[simp] theorem nextId_flush : (flushAuction w e).nextId = w.nextId := by
  unfold flushAuction; split <;> simp [emitAll, modify]
@[simp] theorem execs_flush : (flushAuction w e).execs = w.execs := by
  unfold flushAuction; split <;> simp [emitAll, modify]

@[simp] theorem engines_unlock : (unlock w e).engines = w.engines := rfl
@[simp] theorem conf_unlock : (unlock w e).conf l = w.conf l := rfl
@[simp] theorem store_unlock : (unlock w e).store l = w.store l := rfl
@[simp] theorem arg_unlock : (unlock w e).arg = w.arg := rfl
@[simp] theorem nextId_unlock : (unlock w e).nextId = w.nextId := rfl
@[simp] theorem reports_unlock : (unlock w e).reports = w.reports := rfl
@[simp] theorem execs_unlock : (unlock w e).execs = w.execs := rfl

end World

/-! ### Between two calls -/

/-- No engine is in an auction, and none holds a report back. -/
structure World.Idle (w : World) : Prop where
  isAuction : ∀ l, (w.engines l).isAuction = false
  cbRecords : ∀ l, (w.engines l).cbRecords = []

theorem World.Fresh.idle (h : w.Fresh) : w.Idle := ⟨h.isAuction, h.cbRecords⟩

/-- When a call that is not turned away returns, its engine is idle again and its locks are free. -/
theorem handle_leaves (hidle : w.Idle) (hs : ¬o.Stray) (h : handle w e o = .ok w') :
    w'.Idle ∧ w'.locked = w.locked := by
  obtain ⟨held, hheld, ⟨hstray, _⟩ | ⟨_, v, hv, rfl⟩⟩ := handle_cases h
  · exact absurd hstray hs
  obtain ⟨hfree, hlocked⟩ := lockAll_ok _ hheld
  have hcalm := dispatch_calm hv
  refine ⟨⟨fun l => ?_, fun l => ?_⟩, ?_⟩
  · rw [World.engines_unlock, World.isAuction_flush, hcalm.auction, World.isAuction_enter]
    by_cases hl : l = e
    · rw [if_pos hl]
    · rw [if_neg hl, if_neg (fun hc => hl hc.1)]
      exact hidle.isAuction l
  · rw [World.engines_unlock, World.cbRecords_flush]
    split
    · rfl
    · rename_i hne
      have hoff : ((w.enter e o held).engines l).isAuction = false := by
        rw [World.isAuction_enter]
        split
        · rename_i hl
          refine absurd ⟨hl.1, ?_⟩ hne
          rw [hcalm.auction, World.isAuction_enter, if_pos ⟨rfl, hl.2⟩]
        · exact hidle.isAuction l
      rw [hcalm.cbRecords l hoff, World.cbRecords_enter, hidle.cbRecords]
  · have hl : (unlock (flushAuction v e) e).locked =
        fun m => if m ∈ (w.conf e).mutexSet then false else held m := by
      simp only [unlock, World.conf_flush, World.locked_flush, hcalm.conf, hcalm.locked,
        World.conf_enter, World.locked_enter]
    rw [hl]
    funext m
    by_cases hm : m ∈ (w.conf e).mutexSet
    · rw [if_pos hm, hfree m hm]
    · rw [if_neg hm, hlocked m]
      simp [hm]

/-- A stray auction request leaves everything as it was, except that the locks are held. -/
theorem handle_stray (hs : o.Stray) (h : handle w e o = .ok w') :
    w'.engines = w.engines ∧ w'.nextId = w.nextId ∧ w'.execs = w.execs ∧
      ∀ m, w'.locked m = (decide (m ∈ (w.conf e).mutexSet) || w.locked m) := by
  obtain ⟨held, hheld, ⟨_, rfl⟩ | ⟨hns, _⟩⟩ := handle_cases h
  · exact ⟨rfl, rfl, rfl, (lockAll_ok _ hheld).2⟩
  · exact absurd hs hns

theorem handle_conf (h : handle w e o = .ok w') (l : ℕ) : w'.conf l = w.conf l := by
  obtain ⟨held, hheld, ⟨_, rfl⟩ | ⟨_, v, hv, rfl⟩⟩ := handle_cases h
  · rfl
  · rw [World.conf_unlock, World.conf_flush, (dispatch_calm hv).conf, World.conf_enter]

/-- What openings, steps with acceptable executions and all that is not about stores preserve, a
    trading request preserves. -/
theorem handle_induct {I : World × List Held → Prop} {g : Exec → Prop} (ht : o.IsTrade)
    (hcongr : ∀ {v v' : World}, (∀ l, v'.store l = v.store l) → (∀ l, v'.conf l = v.conf l) →
      v'.nextId = v.nextId → I (v, []) → I (v', []))
    (hopen : ∀ {v : World} {y : World × List Held}, Opening e o v y → I (v, []) → I y)
    (hstep : ∀ {x y}, Step e o x y → (∀ z ∈ y.1.execs, g z) → I x → I y)
    (h : handle w e o = .ok w') (hgood : ∀ z ∈ w'.execs, g z) (hI : I (w, [])) : I (w', []) := by
  obtain ⟨held, _, ⟨_, rfl⟩ | ⟨_, v, hv, rfl⟩⟩ := handle_cases h
  · exact hcongr (v := w) (fun _ => rfl) (fun _ => rfl) rfl hI
  · obtain ⟨u, hs, hop, hsteps⟩ := dispatch_steps (World.arg_enter w e o held) ht hv
    have hent : I (w.enter e o held, []) :=
      hcongr (fun l => World.store_enter ..) (fun l => World.conf_enter ..)
        (World.nextId_enter ..) hI
    have hend : I (v, []) :=
      hsteps.induct hstep (fun z hz => hgood z (by rwa [World.execs_unlock, World.execs_flush]))
        (hopen hop hent)
    exact hcongr (fun l => by rw [World.store_unlock, World.store_flush])
      (fun l => by rw [World.conf_unlock, World.conf_flush])
      (by rw [World.nextId_unlock, World.nextId_flush]) hend

theorem handle_idle (hidle : w.Idle) (h : handle w e o = .ok w') : w'.Idle := by
  by_cases hs : o.Stray
  · have hen := (handle_stray hs h).1
    exact ⟨fun l => by rw [hen]; exact hidle.isAuction l,
      fun l => by rw [hen]; exact hidle.cbRecords l⟩
  · exact (handle_leaves hidle hs h).1

/-- What every call that returns preserves, every run preserves. -/
theorem run_induct {I : World → Prop}
    (hstep : ∀ {w w' : World} {l : ℕ} {o : Order}, handle w l o = .ok w' → I w → I w') :
    ∀ (rs : List (ℕ × Order)) {w0 w : World}, run w0 rs = .ok w → I w0 → I w
  | [], w0, w, h, h0 => by
    obtain rfl := Except.ok.inj h
    exact h0
  | (l, o) :: rs, w0, w, h, h0 => by
    simp only [run, runs, bind_ok] at h
    obtain ⟨v, hv, h⟩ := h
    exact run_induct hstep rs h (hstep hv h0)

/-- Whatever was handled before, no engine is in an auction. -/
theorem run_idle {w0 : World} (h0 : w0.Idle) {rs : List (ℕ × Order)} (h : run w0 rs = .ok w) :
    w.Idle :=
  run_induct (fun hh hidle => handle_idle hidle hh) rs h h0

end Matching
