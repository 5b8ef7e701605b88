import Matching.Engine.Firm

/-! What holds of every live order. A property of an order, its id and its engine that fills, a new
    price, a new state and an amend in place keep (`Lasting`), and that the orders made from a
    request have, holds of every order in the maps after every step, if it held before. -/

namespace Matching

/-- `P` holds of every order in the maps. -/
def World.Every (w : World) (P : ℕ → ℕ → Order → Prop) : Prop :=
  ∀ l id o, (w.store l).odrMap.find? id = some o → P l id o

/-- What happens to a live order keeps `P`. -/
structure Lasting (P : ℕ → ℕ → Order → Prop) : Prop where
  fill : ∀ {l id o t mid p q a b}, 0 < q → q ≤ o.remainQuantity → P l id o →
    P l id (engineMatch o t mid p q a b)
  price : ∀ {l id o} (p : ℤ), P l id o → P l id { o with price := p }
  mark : ∀ {l id o} (a : OrderAction) (st : OrderStatus), P l id o →
    P l id { o with orderAction := a, orderState := st }
  amend : ∀ {l id o} (a : OrderAction) (q : Order), P l id o →
    P l id (amendInPlace { o with orderAction := a } q)

variable {P : ℕ → ℕ → Order → Prop} {T : ℕ → Terms → Prop} {w w' : World} {n e : ℕ} {s : Side}
  {r : Ref} {hs : List Held}
  {o q : Order}

namespace World.Every

theorem of_find (h : w.Every P)
    (hf : ∀ l id o, (w'.store l).odrMap.find? id = some o →
      (w.store l).odrMap.find? id = some o ∨ P l id o) : w'.Every P :=
  fun l id o ho => (hf l id o ho).elim (h l id o) fun hp => hp

theorem congr (h : w.Every P) (hst : ∀ l, w'.store l = w.store l) : w'.Every P :=
  h.of_find fun l id o ho => .inl (by rwa [hst] at ho)

theorem mono {Q : ℕ → ℕ → Order → Prop} (h : w.Every P)
    (hpq : ∀ l id o, (w.store l).odrMap.find? id = some o → P l id o → Q l id o) :
    w.Every Q := fun l id o ho => hpq l id o ho (h l id o ho)

/-- The taker is written. -/
theorem writeRef (h : w.Every P) (ho : ∀ id, r = .entry id → P e id o) :
    (w.writeRef e r o).Every P := by
  refine h.of_find fun l id o' ho' => ?_
  rw [find_writeRef] at ho'
  split_ifs at ho' with hc
  · obtain ⟨rfl, hr⟩ := hc
    obtain rfl := Option.some.inj ho'
    exact .inr (ho id hr)
  · exact .inl ho'

end World.Every

/-! ### Executions -/

/-- What is known of the taker of an execution. -/
def Taking (P : ℕ → ℕ → Order → Prop) (e : ℕ) (r : Ref) (v : World) : Prop :=
  v.Every P ∧ ∃ o, v.readRef e r = .ok o ∧ P e o.orderId o ∧ ∀ id, r = .entry id → o.orderId = id

theorem Fill.every (hP : Lasting P) (hw : Ready w e s r) (h : Fill e s r w w')
    (hx : Taking P e r w) : Taking P e r w' := by
  refine h.induct (P := Taking P e r) hw (fun {v} hv => ⟨hv.1.congr fun _ => rfl, ?_⟩)
    (fun {v l t m mid q a b} _ hoff hm hq0 hq hv => ?_)
    (fun {v o mid p q a b} _ ho hq0 hq hv => ?_) hx
  · obtain ⟨o, ho, hself⟩ := hv.2
    exact ⟨o, by cases r <;> exact ho, hself⟩
  · obtain ⟨hall, o, ho, hself⟩ := hv
    refine ⟨hall.of_find fun l' id o' ho' => ?_, o,
      (World.readRef_fillMaker hoff hm (engineMakerMatch_orderId ..)).trans ho, hself⟩
    rw [World.find_fillMaker] at ho'
    split_ifs at ho' with hc
    · obtain ⟨rfl, rfl⟩ := hc
      obtain rfl := Option.some.inj ho'
      exact .inr (hP.fill hq0 hq (hall _ _ _ hm.find))
    · exact .inl ho'
  · obtain ⟨hall, o', ho', hself, hid⟩ := hv
    obtain rfl := Except.ok.inj (ho'.symm.trans ho)
    have hnew : P e o'.orderId (engineMatch o' .taker mid p q a b) := hP.fill hq0 hq hself
    refine ⟨World.Every.congr (w := v.writeRef e r _)
      (hall.writeRef fun id hr => hid id hr ▸ hnew) fun _ => World.store_callback .., _,
      World.readRef_fillTaker .., hnew, hid⟩

theorem Outcome.every {tick : ℤ} (hP : Lasting P) (h : Outcome w e s r o tick w')
    (hfree : w.Free e r o) (hall : w.Every P) (hself : P e o.orderId o) : w'.Every P := by
  have hkill : ∀ o' : Order, P e o.orderId o' → (w.kill e r o').Every P := fun o' hp =>
    World.Every.congr (w := w.writeRef e r o')
      (hall.writeRef fun id hr => hfree.entry id hr ▸ hp) fun _ => World.store_callback ..
  cases h with
  | filled => exact hall
  | killed => exact hkill _ (hP.mark o.orderAction _ hself)
  | nothing =>
    exact hkill _
      (hP.price marketPrice (hP.mark o.orderAction .canceledByMarketOrderNothingMatch hself))
  | @rested p =>
    refine hall.of_find fun l id o' ho' => ?_
    rw [World.find_rest w e s r { o with price := p } l hfree.entry
      (fun hr => (hfree.arg hr).1)] at ho'
    split_ifs at ho' with hc
    · obtain ⟨rfl, rfl⟩ := hc
      obtain rfl := Option.some.inj ho'
      exact .inr (hP.price p hself)
    · exact .inl ho'

theorem execute_every (hP : Lasting P) (hsnd : w.SoundAt T n e hs) (hoff : OffBook w e r)
    (hlegs : LegsApart w e s) (ho : w.readRef e r = .ok o) (h0 : o.remainQuantity ≠ 0)
    (htk : TakerOk T n hs s r o) (hall : w.Every P) (hself : P e o.orderId o)
    (h : execute w e s r = .ok w') : w'.Every P := by
  rcases execute_cases ⟨hsnd.ok, hoff, hlegs⟩ ho h0 with
    ⟨recs, w1, o1, v, hex, hw, hwalk, ho1, hout, _⟩ | ⟨hub, _⟩
  · obtain rfl := Except.ok.inj (hex.symm.trans h)
    have hread : (w.logExec e s r o).readRef e r = .ok o := by rw [World.readRef_logExec, ho]
    have hstart : (w.logExec e s r o).SoundAt T n e hs := hsnd.congr fun _ => rfl
    have hfirst : Taking P e r (w.logExec e s r o) :=
      ⟨hall.congr fun _ => rfl, o, hread, hself, fun id hr => (htk.entry id hr).1⟩
    obtain ⟨hsnd1, o2, ho2, htk2⟩ := hwalk.induct (P := fun v => v.SoundAt T n e hs ∧
      ∃ o, v.readRef e r = .ok o ∧ TakerOk T n hs s r o) (fun hv _ hf hx => hf.sound hv hx) hw
        ⟨hstart, o, hread, htk⟩
    obtain ⟨hall1, o3, ho3, hself1, -⟩ :=
      hwalk.induct (P := Taking P e r) (fun hv _ hf hx => hf.every hP hv hx) hw hfirst
    obtain rfl := Except.ok.inj (ho2.symm.trans ho1)
    obtain rfl := Except.ok.inj (ho3.symm.trans ho1)
    exact hout.every hP (hsnd1.free htk2) hall1 hself1
  · rw [hub] at h
    cases h

/-! ### Small steps and openings -/

theorem Step.every {x y : World × List Held} (hP : Lasting P) (h : Step e q x y)
    (hnew : ∀ o : Order, o.From q x.1.nextId → P e o.orderId o) (hT : T x.1.nextId q.terms)
    (hone : ∀ z ∈ y.1.execs, T z.taker.orderId z.taker.terms → z.OneLeg) (hx : Sound T e x)
    (hall : x.1.Every P) : y.1.Every P := by
  have hsnd := hx.stores
  cases h with
  | arg o => exact hall.congr fun _ => rfl
  | bump => exact hall.congr fun _ => rfl
  | reject => exact hall.congr fun _ => World.store_callback ..
  | @taker w w' hs o s ho ht hex =>
    have hstart : (w.bumpId.setArg o).SoundAt T w.nextId e hs := hsnd.congr fun _ => rfl
    have hread : (w.bumpId.setArg o).readRef e .arg = .ok o := rfl
    have hpos := ho.whole
    exact execute_every hP hstart (OffBook.arg _ _) ((hx.legs s).congr rfl) hread (by omega)
      (ho.takerOk ht hT) (hall.congr fun _ => rfl) (hnew o ho) hex
  | @fire w w' hs o s id ho hex =>
    have hf := hx.fires ho hex hone
    have hid : o.orderId = id := (hsnd.self.key ho).1
    have hself : P e id { o with price := o.stopLimit s } := hP.price _ (hall e id o ho)
    have hput : (w.putOrder e id { o with price := o.stopLimit s }).Every P :=
      hall.writeRef (r := .entry id) fun j hj => by cases hj; exact hself
    exact execute_every hP hf.stores hf.offBook
      ((hx.legs s).congr (World.conf_writeRef w e e (.entry id) _)) hf.read hf.remain hf.taker hput
      (hid.symm ▸ hself) hex
  | @collect w hs s hit =>
    refine hall.of_find fun l id o ho => .inl ?_
    rw [World.setStops_eq, World.store_upd] at ho
    split_ifs at ho with hl
    · subst hl
      rwa [Store.odrMap_setStops] at ho
    · exact ho
  | @register w hs o ho hp hne hl =>
    have hnone : ((w.bumpId.setArg o).store e).odrMap.find? o.orderId = none :=
      (hsnd.self.unused ho.orderId.ge).1
    have hreg := World.registered e hnone rfl o.stopSides o.stopSides_nodup
    refine hall.of_find fun l id o' ho' => ?_
    rw [World.store_callback] at ho'
    by_cases hle : l = e
    · rw [hle, hreg.find] at ho'
      split_ifs at ho' with hc
      · obtain rfl := Option.some.inj ho'
        rw [hle, hc.1]
        exact .inr (hnew _ ho)
      · exact .inl (hle ▸ ho')
    · rw [hreg.other l hle] at ho'
      exact .inl ho'
  | @drop w hs id =>
    refine hall.of_find fun l j o ho => .inl ?_
    rw [World.eraseOrder_eq, World.store_upd] at ho
    split_ifs at ho with hl
    · rw [Store.odrMap_withMap, OrdMap.find?_erase] at ho
      split_ifs at ho
      exact hl ▸ ho
    · exact ho

theorem Opening.every {y : World × List Held} (hP : Lasting P) (h : Opening e q w y)
    (hall : w.Every P) : y.1.Every P := by
  have hack : ∀ (o : Order) (a : OrderAction) (st : OrderStatus),
      (w.store e).odrMap.find? q.orderId = some o →
      (w.ackCancel e q.orderId { o with orderAction := a } st).Every P := fun o a st hf =>
    World.Every.congr (w := w.putOrder e q.orderId _)
        (hall.writeRef (r := .entry q.orderId) fun j hj => by
      cases hj
      exact hP.mark (o := o) a st (hall e q.orderId o hf)) fun _ => World.store_callback ..
  cases h with
  | same => exact hall
  | refused => exact hall.congr fun _ => World.store_callback ..
  | @amended o a hf =>
    refine World.Every.congr (w := w.putOrder e q.orderId _)
      (hall.writeRef (r := .entry q.orderId) fun j hj => ?_) fun _ => World.store_callback ..
    cases hj
    exact hP.amend (o := o) a q (hall e q.orderId o hf)
  | @unbooked o a st t is hf =>
    refine (hack o a st hf).of_find fun l id o' ho' => .inl ?_
    rw [World.setBook_eq, World.store_upd] at ho'
    split_ifs at ho' with hl
    · subst hl
      rwa [Store.odrMap_setBook] at ho'
    · exact ho'
  | @unstopped o a st ss hf hst hl =>
    have hdrop :=
      World.dropped e o ss (w.ackCancel e q.orderId { o with orderAction := a } st)
        (Order.lookup_nodup hl)
    refine (hack o a st hf).of_find fun l id o' ho' => .inl ?_
    by_cases hle : l = e
    · rw [hle, hdrop.find] at ho'
      exact hle ▸ ho'
    · rwa [hdrop.other l hle] at ho'

/-! ### Requests, calls -/

/-- Between two small steps: the stores are in order and firm, and `P` holds of every order. -/
structure Settled (T : ℕ → Terms → Prop) (P : ℕ → ℕ → Order → Prop) (e : ℕ)
    (x : World × List Held) : Prop where
  sound : Sound T e x
  firm : x.1.FirmAt e x.2
  every : x.1.Every P

theorem Step.settled {x y : World × List Held} (hP : Lasting P) (h : Step e q x y)
    (hnew : ∀ o : Order, o.From q x.1.nextId → P e o.orderId o) (hT : T x.1.nextId q.terms)
    (hone : ∀ z ∈ y.1.execs, T z.taker.orderId z.taker.terms → z.OneLeg) (hx : Settled T P e x) :
    Settled T P e y :=
  ⟨h.sound hT hone hx.sound, h.firm hT hone hx.sound hx.firm,
    h.every hP hnew hT hone hx.sound hx.every⟩

theorem Steps.settled {x y : World × List Held} (hP : Lasting P) (h : Steps e q x y)
    (hnew : ∀ n, x.1.nextId ≤ n → ∀ o : Order, o.From q n → P e o.orderId o)
    (hT : q.Allowed T x.1.nextId)
    (hone : ∀ z ∈ y.1.execs, T z.taker.orderId z.taker.terms → z.OneLeg) (hx : Settled T P e x) :
    Settled T P e y ∧ x.1.nextId ≤ y.1.nextId :=
  h.induct (I := fun z => Settled T P e z ∧ x.1.nextId ≤ z.1.nextId)
    (fun hstep hgood hz =>
      ⟨hstep.settled hP (hnew _ hz.2) (hT _ hz.2) hgood hz.1, hz.2.trans hstep.nextId⟩)
        hone ⟨hx, le_rfl⟩

theorem Opening.settled {y : World × List Held} (hP : Lasting P) (h : Opening e q w y)
    (hfind : q.orderAction ≠ .new → (w.store e).Finds q.orderId) (hx : Settled T P e (w, [])) :
    Settled T P e y :=
  ⟨h.sound hx.sound, h.firm hx.sound hx.firm hfind, h.every hP hx.every⟩

/-- The same between two calls. -/
structure World.Settled (w : World) (T : ℕ → Terms → Prop) (P : ℕ → ℕ → Order → Prop) : Prop where
  ordered : w.Ordered T
  firm : ∀ l, Firm (w.store l) []
  every : w.Every P

theorem World.Fresh.settled (h : w.Fresh) (T : ℕ → Terms → Prop) (P : ℕ → ℕ → Order → Prop) :
    w.Settled T P := by
  refine ⟨h.ordered T, fun l => ?_, fun l id o ho => ?_⟩
  · rw [h.store]
    exact Firm.empty
  · rw [h.store] at ho
    cases ho

namespace World.Settled

theorem congr (h : w.Settled T P) (hst : ∀ l, w'.store l = w.store l) (hn : w'.nextId = w.nextId) :
    w'.Settled T P :=
  ⟨fun l => by rw [hst, hn]; exact h.ordered l, fun l => by rw [hst]; exact h.firm l,
    h.every.congr hst⟩

/-- At the beginning of the work on a request. -/
theorem start (h : w.Settled T P) (hap : w.Apart) (e : ℕ) : Matching.Settled T P e (w, []) :=
  ⟨⟨h.ordered.soundAt e, hap e⟩, fun l => by rw [ite_self]; exact h.firm l, h.every⟩

end World.Settled

theorem Settled.done (h : Settled T P e (w, [])) : w.Settled T P :=
  ⟨h.sound.stores.ordered, fun l => by have hl := h.firm l; rwa [ite_self] at hl, h.every⟩

/-- A trading request that is handled to its end. -/
theorem handle_settled (hP : Lasting P) (ht : q.IsTrade) (hT : q.Allowed T w.nextId)
    (hnew : ∀ n, w.nextId ≤ n → ∀ o : Order, o.From q n → P e o.orderId o)
    (hfind : q.orderAction ≠ .new → (w.store e).Finds q.orderId) (hap : w.Apart)
    (hw : w.Settled T P) (h : handle w e q = .ok w')
    (hone : ∀ z ∈ w'.execs, T z.taker.orderId z.taker.terms → z.OneLeg) : w'.Settled T P := by
  obtain ⟨held, _, ⟨_, rfl⟩ | ⟨_, v, hv, rfl⟩⟩ := handle_cases h
  · exact hw.congr (fun _ => rfl) rfl
  · have hent : (w.enter e q held).Settled T P :=
      hw.congr (fun l => World.store_enter ..) (World.nextId_enter ..)
    have hstart := hent.start (hap.congr fun l => World.conf_enter ..) e
    obtain ⟨u, hs, hopen, hsteps⟩ := dispatch_steps (World.arg_enter w e q held) ht hv
    have hu := hopen.settled hP (by rwa [World.store_enter]) hstart
    have hid : u.nextId = w.nextId := hopen.nextId.trans (World.nextId_enter ..)
    have hend :=
      (hsteps.settled hP (by rwa [hid]) (by rwa [hid])
        (fun z hz => hone z (by rwa [World.execs_unlock, World.execs_flush])) hu).1
    exact hend.done.congr (fun l => by rw [World.store_unlock, World.store_flush])
      (by rw [World.nextId_unlock, World.nextId_flush])

end Matching
