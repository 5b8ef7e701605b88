import Matching.Engine.Reference
import Matching.Engine.Firm

/-! Where the entries of the price books come from, for an engine without impliers: whoever is
    listed where he was not has come to rest there at the end of an execution (`World.Enters`).
    Whatever no execution leaves behind is so in no book of a run. -/

namespace Matching

/-- The end the execution is going to have. -/
def Exec.fate (x : Exec) : Fate := x.before.toStore.fate x.before.miniTick x.side x.taker

/-- Who is listed afterwards was listed before, or an execution has left it there. -/
def World.Enters (w w' : World) (e : ℕ) : Prop :=
  ∀ t p id, ((w'.store e).book t).At p id → ((w.store e).book t).At p id ∨
    ∃ z ∈ w'.execs, z.fate = .rested p

variable {T : ℕ → Terms → Prop} {w w' w'' : World} {e k id : ℕ} {s : Side} {r : Ref}
  {hs : List Held} {o q : Order}

namespace World.Enters

theorem refl (w : World) (e : ℕ) : w.Enters w e := fun _ _ _ => Or.inl

theorem trans (h : w.Enters w' e) (h' : w'.Enters w'' e) (hx : ∀ z ∈ w'.execs, z ∈ w''.execs) :
    w.Enters w'' e := by
  intro t p id hat
  rcases h' t p id hat with hat | hz
  · rcases h t p id hat with hat | ⟨z, hz, hf⟩
    · exact Or.inl hat
    · exact Or.inr ⟨z, hx z hz, hf⟩
  · exact Or.inr hz

/-- The books lose entries at most. -/
theorem of_sub (h : ∀ t p id, ((w'.store e).book t).At p id → ((w.store e).book t).At p id) :
    w.Enters w' e :=
  fun t p id hat => Or.inl (h t p id hat)

theorem of_book (h : ∀ t, (w'.store e).book t = (w.store e).book t) : w.Enters w' e :=
  of_sub fun t p id hat => by rwa [h t] at hat

end World.Enters

/-- Of the books only that of the taker's own side grows, and only when the taker rests. -/
theorem Executed.at {t : Side} {p : ℤ} (h : Executed w e s r o w')
    (hat : ((w'.store e).book t).At p id) :
    ((w.store e).book t).At p id ∨
      (t = s.opp ∧ id = o.orderId ∧ (w.store e).fate (w.conf e).miniTick s o = .rested p) := by
  obtain ⟨w1, _, htr, hends⟩ := h
  rw [Store.plan_eq] at htr hends
  have htrade : ∀ {t p id}, ((w1.store e).book t).At p id → ((w.store e).book t).At p id := by
    intro t p id hat
    by_cases ht : t = s
    · subst ht
      rw [htr.book, Ladder.at_without] at hat
      exact hat.1
    · rwa [htr.bookOther e t (fun he => ht (congrArg Prod.snd he))] at hat
  generalize hfate : (w.store e).fate (w.conf e).miniTick s o = f at hends ⊢
  cases hends with
  | filled => exact Or.inl (htrade hat)
  | killed =>
    rw [World.book_kill] at hat
    exact Or.inl (htrade hat)
  | rested =>
    rw [World.book_rest] at hat
    split_ifs at hat with ht
    · rcases (Ladder.at_insert _ _ _ _ _).mp hat with ⟨rfl, rfl⟩ | hat
      · exact Or.inr ⟨ht.2, (filled_afterTrades w.nextId o _).orderId, rfl⟩
      · rw [ht.2]
        exact Or.inl (htrade hat)
    · exact Or.inl (htrade hat)

/-- Between two small steps of an engine without impliers. -/
structure Lone (T : ℕ → Terms → Prop) (e : ℕ) (x : World × List Held) : Prop where
  sound : Sound T e x
  alone : ∀ t, (x.1.conf e).impliers t = []

theorem Lone.congr (h : Lone T e (w, hs)) (hst : ∀ l, w'.store l = w.store l)
    (hc : ∀ l, w'.conf l = w.conf l) (hn : w'.nextId = w.nextId) :
    Lone T e (w', hs) := by
  refine ⟨⟨?_, fun s => (h.sound.legs s).congr (hc e)⟩,
    fun t => (congrArg (Config.impliers · t) (hc e)).trans (h.alone t)⟩
  rw [show (w', hs).1.nextId = w.nextId from hn]
  exact h.sound.stores.congr hst

theorem execute_enters (hs : Setup w e s r) (hi : ∀ t, (w.conf e).impliers t = [])
    (ho : w.readRef e r = .ok o) (h0 : o.remainQuantity ≠ 0) (h : execute w e s r = .ok w') :
    w.Enters w' e := by
  rcases execute_reference hs hi ho h0 with ⟨v, hv, hexd⟩ | ⟨hub, _⟩
  · obtain rfl := Except.ok.inj (hv.symm.trans h)
    intro t p id hat
    rcases hexd.at hat with hat | ⟨_, _, hfate⟩
    · exact Or.inl hat
    · refine Or.inr ⟨⟨e, s, r, o, w.engines e⟩, ?_, hfate⟩
      rw [execute_logged h ho]
      exact List.mem_append_right _ (List.mem_singleton_self _)
  · rw [hub] at h
    cases h

theorem Step.enters {x y : World × List Held} (h : Step e q x y)
    (hone : ∀ z ∈ y.1.execs, T z.taker.orderId z.taker.terms → z.OneLeg) (hx : Lone T e x) :
    x.1.Enters y.1 e := by
  have hsnd := hx.sound.stores
  cases h with
  | arg o => exact World.Enters.refl _ e
  | bump => exact World.Enters.refl _ e
  | @reject w hs o => exact World.Enters.of_book fun t => by rw [World.store_callback]; rfl
  | @taker w w' hs o s ho ht hex =>
    have hpos := ho.whole
    have hset : Setup (w.bumpId.setArg o) e s .arg :=
      ⟨fun l => (hsnd l).books, OffBook.arg _ _, (hx.sound.legs s).congr rfl⟩
    have hent : (w.bumpId.setArg o).Enters w' e :=
      execute_enters (o := o) hset hx.alone rfl (by omega) hex
    exact hent
  | @fire w w' hs o s id ho hex =>
    have hfi := hx.sound.fires ho hex hone
    have hset : Setup (w.putOrder e id { o with price := o.stopLimit s }) e s (.entry id) :=
      ⟨hfi.stores.ok, hfi.offBook,
        (hx.sound.legs s).congr (World.conf_writeRef w e e (.entry id) _)⟩
    have hi : ∀ t,
        ((w.putOrder e id { o with price := o.stopLimit s }).conf e).impliers t = [] := fun t => by
      rw [← hx.alone t]
      exact congrArg (Config.impliers · t) (World.conf_writeRef w e e (.entry id) _)
    have hput : w.Enters (w.putOrder e id { o with price := o.stopLimit s }) e :=
      World.Enters.of_book fun t => World.book_writeRef w e e (.entry id) _ t
    exact hput.trans (execute_enters hset hi hfi.read hfi.remain hex) fun z hz => by
      rw [execute_logged hex hfi.read]
      exact List.mem_append_left _ hz
  | @collect w hs s hit =>
    refine World.Enters.of_book fun t => ?_
    rw [World.setStops_eq, World.store_upd, if_pos rfl, Store.book_setStops]
  | @register w hs o ho hp hne hl =>
    obtain ⟨hnone, _⟩ := hsnd.self.unused (show w.nextId ≤ o.orderId from ho.orderId.ge)
    have hreg := World.registered (w := w.bumpId.setArg o) e hnone rfl o.stopSides o.stopSides_nodup
    refine World.Enters.of_book fun t => ?_
    rw [World.store_callback, hreg.book]
    rfl
  | @drop w hs id =>
    refine World.Enters.of_book fun t => ?_
    rw [World.eraseOrder_eq, World.store_upd, if_pos rfl, Store.book_withMap]

theorem Opening.enters {y : World × List Held} (h : Opening e q w y)
    (hsnd : StoreOk T (w.store e) w.nextId []) : w.Enters y.1 e := by
  cases h with
  | same => exact World.Enters.refl w e
  | @refused o => exact World.Enters.of_book fun t => by rw [World.store_callback]; rfl
  | @amended o a =>
    refine World.Enters.of_book fun t => ?_
    rw [World.store_callback]
    exact World.book_writeRef w e e (.entry q.orderId) _ t
  | @unbooked o a st u is =>
    refine World.Enters.of_sub fun t p id hat => ?_
    rw [World.setBook_eq, World.store_upd, if_pos rfl, Store.book_setBook,
      World.book_ackCancel] at hat
    split_ifs at hat with ht
    · rw [ht]
      exact ((Ladder.at_eraseAt (hsnd.books.wf u)).mp hat).1
    · exact hat
  | @unstopped o a st ss hf hst hl hlev =>
    have hdrop := World.dropped e o ss (w.ackCancel e q.orderId { o with orderAction := a } st)
      (Order.lookup_nodup hl)
    exact World.Enters.of_book fun t => by rw [hdrop.book, World.book_ackCancel]

theorem Step.lone {x y : World × List Held} (h : Step e q x y) (hT : T x.1.nextId q.terms)
    (hone : ∀ z ∈ y.1.execs, T z.taker.orderId z.taker.terms → z.OneLeg) (hx : Lone T e x) :
    Lone T e y :=
  ⟨h.sound hT hone hx.sound,
    fun t => by rw [← hx.alone t]; exact congrArg (Config.impliers · t) (h.calm.conf e)⟩

theorem Opening.lone {y : World × List Held} (h : Opening e q w y) (hx : Lone T e (w, [])) :
    Lone T e y :=
  ⟨h.sound hx.sound,
    fun t => by rw [← hx.alone t]; exact congrArg (Config.impliers · t) (h.calm.conf e)⟩

/-- Along a request. -/
theorem dispatch_enters (hw : w.arg = q) (ht : q.IsTrade) (hT : q.Allowed T w.nextId)
    (hx : Lone T e (w, [])) (h : dispatch w e = .ok w')
    (hone : ∀ z ∈ w'.execs, T z.taker.orderId z.taker.terms → z.OneLeg) : w.Enters w' e := by
  obtain ⟨v, hs, hopen, hsteps⟩ := dispatch_steps hw ht h
  have hend := hsteps.induct (I := fun z => w.Enters z.1 e ∧ Lone T e z ∧ w.nextId ≤ z.1.nextId)
    (fun {x y} hstep hgood hz =>
      ⟨hz.1.trans (hstep.enters hgood hz.2.1) hstep.execs, hstep.lone (hT _ hz.2.2) hgood hz.2.1,
      hz.2.2.trans hstep.nextId⟩) hone
    ⟨hopen.enters hx.sound.stores.self, hopen.lone hx, hopen.nextId.ge⟩
  exact hend.1

/-- Between two calls of an engine without impliers. -/
theorem World.Ordered.lone (hord : w.Ordered T) (hi : ∀ t, (w.conf e).impliers t = []) :
    Lone T e (w, []) := by
  have hlegs : ∀ s, (w.conf e).legs s = [] := fun s => by
    rw [Config.legs, hi]
    rfl
  exact ⟨⟨hord.soundAt e,
    fun s => ⟨by rw [hlegs]; exact List.nodup_nil, by rw [hlegs]; exact fun x hx => nomatch hx⟩⟩,
    hi⟩

theorem handle_enters (ht : q.IsTrade) (hT : q.Allowed T w.nextId) (hord : w.Ordered T)
    (hi : ∀ t, (w.conf e).impliers t = []) (h : handle w e q = .ok w')
    (hone : ∀ z ∈ w'.execs, T z.taker.orderId z.taker.terms → z.OneLeg) : w.Enters w' e := by
  obtain ⟨held, _, ⟨_, rfl⟩ | ⟨_, v, hv, rfl⟩⟩ := handle_cases h
  · exact World.Enters.refl w e
  · have hlone : Lone T e (w.enter e q held, []) :=
      hord.enter.lone fun t => by rw [World.conf_enter]; exact hi t
    have hent := dispatch_enters (World.arg_enter ..) ht (by rwa [World.nextId_enter]) hlone hv
      fun z hz => hone z (by rwa [World.execs_unlock, World.execs_flush])
    intro t p id hat
    rw [World.store_unlock, World.store_flush] at hat
    rcases hent t p id hat with hat | hz
    · rw [World.store_enter] at hat
      exact Or.inl hat
    · rw [World.execs_unlock, World.execs_flush]
      exact Or.inr hz

/-! ### Nothing rests at `STOP_PRICE` -/

def Store.Unstopped (g : Store) : Prop := ∀ t id, ¬(g.book t).At stopPrice id

/-- Where nothing rests at `STOP_PRICE`, `handle_cancel` finds every order of one leg. -/
theorem Store.Unstopped.finds {g : Store} {n : ℕ} (h : g.Unstopped) (hok : StoreOk T g n hs)
    (hone : ∀ {i t}, T i t → t.side ≠ .buySellStop) (id : ℕ) : g.Finds id := by
  intro o t p ho hat
  have hr := hok.books.restsAt hat ho
  have hp : o.price ≠ stopPrice := fun he => h t id (by rw [← he, hr.price]; exact hat)
  rcases hok.placed hat.mem_ids ho with hs | hs | hs
  · cases t <;> simp [Order.lookup, hs, Side.plain, Side.opp]
  · cases t <;> simp [Order.lookup, hs, Side.stop, Side.opp, hp]
  · exact absurd hs (hone (hok.key ho).2.2)

theorem World.Fresh.unstopped {w0 : World} (h : w0.Fresh) (e : ℕ) :
    (w0.store e).Unstopped := fun t id hat => by
  rw [h.store] at hat
  cases t <;> exact absurd hat (by simp [Store.book])

/-- Unless an execution comes to rest there, nothing does. -/
theorem Store.Unstopped.enters (h : (w.store e).Unstopped) (hent : w.Enters w' e)
    (hex : ∀ z ∈ w'.execs, z.fate ≠ .rested stopPrice) :
    (w'.store e).Unstopped := fun t id hat => by
  rcases hent t stopPrice id hat with hold | ⟨z, hz, hfate⟩
  · exact h t id hold
  · exact hex z hz hfate

end Matching
