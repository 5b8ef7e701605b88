import Matching.Engine.Hands
import Matching.Engine.Calls

/-! Stores stay in order over whole runs: through the fills and the end of an execution
    (`execute_sound`), every small step and opening, every call (`handle_sound`) and every run
    (`run_sound`), whatever impliers there are, as long as their legs are apart. The one thing that
    can break it is a collected order of two legs: it is a taker while its other leg still waits. -/

namespace Matching

variable {T : ℕ → Terms → Prop} {w w' w1 : World} {n m : ℕ} {e l : ℕ} {s : Side} {r : Ref}
  {hs : List Held} {o o' q : Order}

/-- Every store is in order; engine `e` has the ids `hs` in hand, and no id
    from `n` on is in use. -/
def World.SoundAt (w : World) (T : ℕ → Terms → Prop) (n e : ℕ) (hs : List Held) : Prop :=
  ∀ l, StoreOk T (w.store l) n (if l = e then hs else [])

/-- A taker that is not the caller's order waited for one leg only. -/
def Exec.OneLeg (x : Exec) : Prop := x.ref ≠ .arg → x.taker.side ≠ .buySellStop

/-- Terms of one leg. -/
def Terms.OneLegged (_ : ℕ) (t : Terms) : Prop := t.side ≠ .buySellStop

theorem Exec.oneLeg_of_oneLegged {z : Exec} (h : Terms.OneLegged z.taker.orderId z.taker.terms) :
    z.OneLeg := fun _ => h

/-- The taker `o` of side `s`: a new order under the id `n`, or an entry in hand. -/
structure TakerOk (T : ℕ → Terms → Prop) (n : ℕ) (hs : List Held) (s : Side) (r : Ref) (o : Order) :
    Prop where
  arg : r = .arg → o.orderId = n
  entry : ∀ id, r = .entry id → o.orderId = id ∧ ⟨none, id⟩ ∈ hs
  terms : T o.orderId o.terms
  rests : o.RestsOn s.opp

theorem TakerOk.congr (h : TakerOk T n hs s r o) (hid : o'.orderId = o.orderId)
    (ht : o'.terms = o.terms) :
    TakerOk T n hs s r o' :=
  ⟨fun hr => hid.trans (h.arg hr),
    fun id hr => ⟨hid.trans (h.entry id hr).1, (h.entry id hr).2⟩, by rw [hid, ht]; exact h.terms,
    h.rests.congr ht⟩

namespace World

theorem store_fillMaker_ne {n : Order} (hl : l ≠ m) : (w.fillMaker m s n).store l = w.store l := by
  refine Store.ext_containers (OrdMap.ext_find fun id => ?_) (fun t => ?_) (fun t => by simp)
  · rw [find_fillMaker, if_neg (fun hc => hl hc.1)]
  · rw [book_fillMaker, if_neg (fun hc => hl hc.1)]

theorem store_writeRef_ne (hl : l ≠ e) : (w.writeRef e r o).store l = w.store l := by
  refine Store.ext_containers (OrdMap.ext_find fun id => ?_) (fun t => by simp) (fun t => by simp)
  rw [find_writeRef, if_neg (fun hc => hl hc.1)]

namespace SoundAt

theorem ok (h : w.SoundAt T n e hs) : w.Ok := fun l => (h l).books

theorem self (h : w.SoundAt T n e hs) : StoreOk T (w.store e) n hs := by
  have he := h e
  rwa [if_pos rfl] at he

theorem congr (h : w.SoundAt T n e hs) (hst : ∀ l, w'.store l = w.store l) : w'.SoundAt T n e hs :=
  fun l => by rw [hst]; exact h l

theorem mono (h : w.SoundAt T n e hs) (hle : n ≤ m) : w.SoundAt T m e hs := fun l => (h l).mono hle

/-- Only the store of engine `e` changes. -/
theorem put {hs' : List Held} (h : w.SoundAt T n e hs) (hle : n ≤ m)
    (hself : StoreOk T (w'.store e) m hs') (hother : ∀ l, l ≠ e → w'.store l = w.store l) :
    w'.SoundAt T m e hs' := by
  intro l
  by_cases hl : l = e
  · rw [if_pos hl, hl]; exact hself
  · have hst := h l
    rw [if_neg hl] at hst ⊢
    rw [hother l hl]
    exact hst.mono hle

theorem fillMaker {m m' : Order} (h : w.SoundAt T n e hs) (hm : Front w l s m) (hf : Filled m m') :
    (w.fillMaker l s m').SoundAt T n e hs := by
  intro l'
  by_cases hl : l' = l
  · subst hl
    obtain ⟨is, b, hb⟩ := hm.book
    refine (h l').fill hb hm.find hf (fun t => ?_) (fun t => stops_fillMaker ..) (fun j => ?_)
    · rw [book_fillMaker]; simp
    · rw [find_fillMaker, hf.orderId]; simp
  · rw [store_fillMaker_ne hl]
    exact h l'

/-- A write to a taker in hand. -/
theorem writeRef (h : w.SoundAt T n e hs) (hoff : OffBook w e r) (ho : w.readRef e r = .ok o)
    (ht : TakerOk T n hs s r o) (hid : o'.orderId = o.orderId) (hterms : o'.terms = o.terms) :
    (w.writeRef e r o').SoundAt T n e hs := by
  cases r with
  | arg => exact h.congr fun _ => rfl
  | entry id =>
    have hf : (w.store e).odrMap.find? id = some o := by simpa [readRef, deref] using ho
    refine h.put le_rfl
      (h.self.write (ht.entry id rfl).2 (hoff id rfl) hf hid hterms (fun t => ?_)
      (fun t => ?_) fun j => ?_) (fun l hl => store_writeRef_ne hl)
    · exact book_writeRef ..
    · exact stops_writeRef ..
    · rw [find_writeRef]
      simp [eq_comm]

theorem fillTaker (h : w.SoundAt T n e hs) (hoff : OffBook w e r) (ho : w.readRef e r = .ok o)
    (ht : TakerOk T n hs s r o) (hid : o'.orderId = o.orderId) (hterms : o'.terms = o.terms) :
    (w.fillTaker e r o').SoundAt T n e hs :=
  (h.writeRef hoff ho ht hid hterms).congr fun _ => store_callback ..

theorem kill (h : w.SoundAt T n e hs) (hoff : OffBook w e r) (ho : w.readRef e r = .ok o)
    (ht : TakerOk T n hs s r o) (hid : o'.orderId = o.orderId) (hterms : o'.terms = o.terms) :
    (w.kill e r o').SoundAt T n e hs := h.fillTaker hoff ho ht hid hterms

/-- Under its id a taker may come to rest. -/
theorem free (h : w.SoundAt T n e hs) (ht : TakerOk T n hs s r o) : w.Free e r o := by
  refine ⟨fun id hr => (ht.entry id hr).1, fun hr => ?_⟩
  have hge : n ≤ o.orderId := (ht.arg hr).ge
  obtain ⟨h1, h2, _⟩ := h.self.unused hge
  exact ⟨h1, h2⟩

theorem rest (h : w.SoundAt T n e hs) (hoff : OffBook w e r) (ht : TakerOk T n hs s r o)
    (hrem : 0 < o.remainQuantity) (hp : o.price ≠ marketPrice) (hle : n ≤ m)
    (hlt : r = .arg → n < m) : (w.rest e s r o).SoundAt T m e hs := by
  have hfree := h.free ht
  have hwait : ¬(w.store e).Waiting hs o.orderId := by
    cases r with
    | arg => exact (h.self.unused (ht.arg rfl).ge).2.2
    | entry id =>
      obtain ⟨rfl, hin⟩ := ht.entry id rfl
      rintro ⟨u, hm | hm⟩
      · exact ((h.self.taken hin).2 u).1 hm
      · exact ((h.self.taken hin).2 u).2 hm
  have hid : o.orderId < m := by
    cases r with
    | arg => rw [ht.arg rfl]; exact hlt rfl
    | entry id =>
      obtain ⟨rfl, hin⟩ := ht.entry id rfl
      exact (h.self.taken hin).1.trans_le hle
  refine h.put hle (h.self.rest hwait (ok_rest hfree hoff h.ok hrem hp e) hid hle ht.terms ht.rests
    (hfree.notMem hoff) (fun t => ?_) (fun t => stops_rest ..) fun j => ?_)
      (fun l hl => store_rest_ne hl)
  · rw [book_rest]; simp
  · rw [find_rest w e s r o e hfree.entry (fun hr => (hfree.arg hr).1)]; simp

end SoundAt
end World

/-! ### Executions -/

theorem RestsAt.ne_market {tick p : ℤ} (h : RestsAt w e s o tick p) : p ≠ marketPrice := by
  cases h with
  | limit _ _ hp => exact hp
  | market _ _ _ hb => exact hb
  | reprice _ _ hp => exact hp
  | repriceMarket _ _ _ hb => exact hb

/-- What filling a front order and filling the taker preserve, a step preserves. -/
theorem Fill.induct {P : World → Prop} (hw : Ready w e s r) (h : Fill e s r w w')
    (hbump : ∀ {v}, P v → P v.bumpId)
    (hmaker : ∀ {v : World} {l : ℕ} {t : Side} {m : Order} {mid q a b : ℕ}, v.Ok → OffBook v e r →
      Front v l t m → 0 < q → q ≤ m.remainQuantity → P v →
      P (v.fillMaker l t (engineMakerMatch m mid q a b)))
    (htaker : ∀ {v : World} {o : Order} {mid : ℕ} {p : ℤ} {q a b : ℕ}, OffBook v e r →
      v.readRef e r = .ok o → 0 < q → q ≤ o.remainQuantity → P v →
      P (v.fillTaker e r (engineMatch o .taker mid p q a b)))
    (hP : P w) : P w' := by
  cases h with
  | @loc m o q ho hm hq hq0 =>
    have hread : w.bumpId.readRef e r = .ok o := by cases r <;> exact ho
    have h1 : P (w.bumpId.fillMaker e s (engineMakerMatch m w.nextId q o.orderId 0)) :=
      hmaker hw.ok hw.off hm.bumpId hq0 (by omega) (hbump hP)
    refine htaker
      (World.offBook_fillMaker (w := w.bumpId) hw.off hm.bumpId hw.ok) ?_ hq0 (by omega) h1
    rw [World.readRef_fillMaker (w := w.bumpId) hw.off hm.bumpId (engineMakerMatch_orderId ..),
      hread]
  | @imp i m1 m2 o p q hi ho hm1 hm2 hq hq0 =>
    have hne := hw.legs.leg_ne hi
    have hread : w.bumpId.readRef e r = .ok o := by cases r <;> exact ho
    have hok1 : (w.fillLeg1 i m1 m2 o q).Ok := World.ok_fillLeg1 hw.ok hm1
    have hoff1 : OffBook (w.fillLeg1 i m1 m2 o q) e r := World.offBook_fillLeg1 hw.ok hw.off hm1
    have hm2' : Front (w.fillLeg1 i m1 m2 o q) i.leg2.1 i.leg2.2 m2 := hm1.fillLeg1 hw.ok hne hm2
    have h1 : P (w.fillLeg1 i m1 m2 o q) :=
      hmaker (v := w.bumpId) hw.ok hw.off hm1.bumpId hq0 (by omega) (hbump hP)
    have h2 : P
        ((w.fillLeg1 i m1 m2 o q).fillMaker i.leg2.1 i.leg2.2
        (engineMakerMatch m2 w.nextId q o.orderId m1.orderId)) :=
      hmaker hok1 hoff1 hm2' hq0 (by omega) h1
    refine htaker (World.offBook_fillMaker hoff1 hm2' hok1) ?_ hq0 (by omega) h2
    rw [World.readRef_fillMaker hoff1 hm2' (engineMakerMatch_orderId ..), World.fillLeg1,
      World.readRef_fillMaker (w := w.bumpId) hw.off hm1.bumpId (engineMakerMatch_orderId ..),
      hread]

/-- A fill keeps the stores in order, and its taker a taker. -/
theorem Fill.sound (hw : Ready w e s r) (h : Fill e s r w w')
    (hx : w.SoundAt T n e hs ∧ ∃ o, w.readRef e r = .ok o ∧ TakerOk T n hs s r o) :
    w'.SoundAt T n e hs ∧ ∃ o, w'.readRef e r = .ok o ∧ TakerOk T n hs s r o := by
  refine h.induct (P := fun v => v.SoundAt T n e hs ∧ ∃ o, v.readRef e r = .ok o ∧
    TakerOk T n hs s r o) hw (fun {v} hv => ⟨hv.1.congr fun _ => rfl, ?_⟩)
    (fun hok hoff hm _ hq hv => ?_) (fun hoff ho _ _ hv => ?_) hx
  · obtain ⟨o, ho, htk⟩ := hv.2
    exact ⟨o, by cases r <;> exact ho, htk⟩
  · obtain ⟨hsnd, o, ho, htk⟩ := hv
    exact ⟨hsnd.fillMaker hm (Filled.engineMatch _ hq), o,
      (World.readRef_fillMaker hoff hm (engineMakerMatch_orderId ..)).trans ho, htk⟩
  · obtain ⟨hsnd, o', ho', htk⟩ := hv
    obtain rfl := Except.ok.inj (ho'.symm.trans ho)
    exact ⟨hsnd.fillTaker hoff ho htk (engineMatch_orderId ..) (engineMatch_terms ..), _,
      World.readRef_fillTaker .., htk.congr (engineMatch_orderId ..) (engineMatch_terms ..)⟩

/-- The end of an execution keeps the stores in order. -/
theorem Outcome.sound {tick : ℤ} (h : Outcome w e s r o tick w') (hsnd : w.SoundAt T n e hs)
    (hoff : OffBook w e r) (ho : w.readRef e r = .ok o) (htk : TakerOk T n hs s r o) (hle : n ≤ m)
    (hlt : r = .arg → n < m) :
    w'.SoundAt T m e hs := by
  cases h with
  | filled => exact hsnd.mono hle
  | killed => refine World.SoundAt.mono (World.SoundAt.kill hsnd hoff ho htk ?_ ?_) hle <;> rfl
  | nothing => refine World.SoundAt.mono (World.SoundAt.kill hsnd hoff ho htk ?_ ?_) hle <;> rfl
  | rested h0 hp =>
    exact hsnd.rest hoff (htk.congr rfl rfl) (Nat.pos_of_ne_zero h0) hp.ne_market hle hlt

theorem World.readRef_logExec {w : World} {x : Side} {y : Ref} :
    (w.logExec e x y o).readRef e r = w.readRef e r := by
  cases r <;> rfl

theorem execute_sound (hsnd : w.SoundAt T n e hs) (hoff : OffBook w e r) (hlegs : LegsApart w e s)
    (ho : w.readRef e r = .ok o) (h0 : o.remainQuantity ≠ 0) (htk : TakerOk T n hs s r o)
    (hle : n ≤ m) (hlt : r = .arg → n < m) (h : execute w e s r = .ok w') :
    w'.SoundAt T m e hs := by
  rcases execute_cases ⟨hsnd.ok, hoff, hlegs⟩ ho h0 with
    ⟨recs, w1, o1, v, hex, hw, hwalk, ho1, hout, _⟩ | ⟨hub, _⟩
  · obtain rfl := Except.ok.inj (hex.symm.trans h)
    have hstart : (w.logExec e s r o).SoundAt T n e hs := hsnd.congr fun _ => rfl
    obtain ⟨hsnd1, o2, ho2, htk2⟩ := hwalk.induct (P := fun v => v.SoundAt T n e hs ∧
      ∃ o, v.readRef e r = .ok o ∧ TakerOk T n hs s r o) (fun hv _ hf hx => hf.sound hv hx) hw
      ⟨hstart, o, by rw [World.readRef_logExec, ho], htk⟩
    obtain rfl := Except.ok.inj (ho2.symm.trans ho1)
    exact hout.sound hsnd1 (hwalk.ready hw).off ho1 htk2 hle hlt
  · rw [hub] at h; cases h

/-! ### Small steps -/

theorem World.store_upd_ne {w : World} {f : Store → Store} (hl : l ≠ e) :
    (w.upd e f).store l = w.store l := by
  rw [World.store_upd, if_neg hl]

theorem World.store_setStops_ne {b : Book} (hl : l ≠ e) : (w.setStops e s b).store l = w.store l :=
  store_upd_ne hl

theorem World.store_setBook_ne {b : Book} (hl : l ≠ e) : (w.setBook e s b).store l = w.store l :=
  store_upd_ne hl

theorem World.store_eraseOrder_ne {id : ℕ} (hl : l ≠ e) : (w.eraseOrder e id).store l = w.store l :=
  store_upd_ne hl

/-- Entering the caller's order into stop books. -/
structure Registered (w w' : World) (e : ℕ) (o : Order) (ss : List Side) : Prop where
  arg : w'.arg = o
  book : ∀ t, (w'.store e).book t = (w.store e).book t
  stops : ∀ t, (w'.store e).stops t =
    if t ∈ ss then ((w.store e).stops t).insert t.cmp (o.stopTrigger t) o.orderId
    else (w.store e).stops t
  find : ∀ j, (w'.store e).odrMap.find? j =
    if j = o.orderId ∧ ss ≠ [] then some o else (w.store e).odrMap.find? j
  other : ∀ l, l ≠ e → w'.store l = w.store l
  nextId : w'.nextId = w.nextId

theorem World.registered (e : ℕ) (hnone : (w.store e).odrMap.find? o.orderId = none)
    (harg : w.arg = o) :
    ∀ ss : List Side, ss.Nodup → Registered w (w.registerStops e ss) e o ss
  | [], _ =>
    ⟨harg, fun _ => rfl, fun _ => by simp [registerStops], fun _ => by simp [registerStops],
      fun _ _ => rfl, rfl⟩
  | s :: ss, hnd => by
    obtain ⟨hs, hnd⟩ := List.nodup_cons.mp hnd
    have ih := World.registered e hnone harg ss hnd
    have hstep : w.registerStops e (s :: ss) = registerStop (w.registerStops e ss) e s := rfl
    have hfound : ((w.registerStops e ss).store e).odrMap.find? o.orderId = none ∨
        ((w.registerStops e ss).store e).odrMap.find? o.orderId = some o := by
      rw [ih.find]
      split_ifs
      · exact Or.inr rfl
      · exact Or.inl hnone
    refine ⟨by rw [hstep]; exact ih.arg, fun t => ?_, fun t => ?_, fun j => ?_, fun l hl => ?_, ?_⟩
    · rw [hstep, registerStop, World.store_upd, if_pos rfl]
      have hbook := ih.book t
      cases t <;> cases s <;> exact hbook
    · rw [hstep, registerStop, World.store_upd, if_pos rfl, ih.arg]
      have hset : ∀ (b : Book) (m : OrdMap ℕ Order),
          (({ ((w.registerStops e ss).store e).setStops s b with odrMap := m } : Store)).stops t =
          if t = s then b else ((w.registerStops e ss).store e).stops t :=
          fun b m => by cases t <;> cases s <;> rfl
      simp only [List.mem_cons]
      by_cases ht : t = s
      · subst ht
        have hst := ih.stops t
        rw [if_neg hs] at hst
        simp only [true_or, if_true]
        exact (hset _ _).trans (by rw [if_pos rfl, hst])
      · simp only [ht, false_or]
        exact (hset _ _).trans (by rw [if_neg ht, ih.stops])
    · rw [hstep, registerStop, World.store_upd, if_pos rfl, ih.arg]
      show (((w.registerStops e ss).store e).odrMap.emplace o.orderId o).find? j = _
      rw [OrdMap.find?_emplace]
      by_cases hj : j = o.orderId
      · subst hj
        rcases hfound with h | h <;> simp [h]
      · rw [if_neg hj, ih.find]
        simp [hj]
    · rw [hstep, registerStop, World.store_upd_ne hl]
      exact ih.other l hl
    · rw [hstep]; exact ih.nextId

theorem Emits.registerStops (w : World) (e : ℕ) :
    ∀ ss : List Side, Emits w (w.registerStops e ss) []
  | [] => Emits.refl w
  | s :: ss => by
    have hstep : Emits (w.registerStops e ss) (registerStop (w.registerStops e ss) e s) [] := by
      unfold registerStop
      exact Emits.upd ..
    exact (Emits.registerStops w e ss).trans hstep

/-- The stores are in order between two small steps of engine `e`. -/
structure Sound (T : ℕ → Terms → Prop) (e : ℕ) (x : World × List Held) : Prop where
  stores : x.1.SoundAt T x.1.nextId e x.2
  legs : ∀ s, LegsApart x.1 e s

theorem LegsApart.congr (h : LegsApart w e s) (hc : w'.conf e = w.conf e) : LegsApart w' e s :=
  ⟨by rw [hc]; exact h.nodup, by rw [hc]; exact h.outside⟩

theorem execute_nextId (h : execute w e s r = .ok w') : w.nextId ≤ w'.nextId := by
  obtain ⟨_, _, hk⟩ := Keeps.execute h
  exact hk.nextId

theorem execute_logged (h : execute w e s r = .ok w') (ho : w.readRef e r = .ok o) :
    w'.execs = w.execs ++ [⟨e, s, r, o, w.engines e⟩] := by
  obtain ⟨o', ho', hk⟩ := Keeps.execute h
  obtain rfl := Except.ok.inj (ho'.symm.trans ho)
  exact hk.execs

theorem Order.stopSides_nodup (o : Order) : o.stopSides.Nodup := by
  unfold Order.stopSides
  split <;> decide

/-- A collected order as it starts to execute. -/
structure Fires (T : ℕ → Terms → Prop) (w : World) (e : ℕ) (s : Side) (id : ℕ) (hs : List Held)
    (o : Order) : Prop where
  waits : ∃ t, o.Waits s t
  oneLeg : o.side ≠ .buySellStop
  off : ∀ t, id ∉ ((w.store e).book t).ids
  offBook : OffBook (w.putOrder e id { o with price := o.stopLimit s }) e (.entry id)
  read : (w.putOrder e id { o with price := o.stopLimit s }).readRef e (.entry id) =
    .ok { o with price := o.stopLimit s }
  stores : (w.putOrder e id { o with price := o.stopLimit s }).SoundAt T w.nextId e
    (⟨none, id⟩ :: hs)
  taker : TakerOk T w.nextId (⟨none, id⟩ :: hs) s (.entry id) { o with price := o.stopLimit s }

theorem Fires.remain {id : ℕ} (h : Fires T w e s id hs o) : o.remainQuantity ≠ 0 := by
  obtain ⟨t, hw⟩ := h.waits
  have h1 := hw.whole
  have h2 := hw.pos
  omega

/-- A collected order of one leg. -/
theorem Sound.fires_of_side {id : ℕ} (hx : Sound T e (w, ⟨some s, id⟩ :: hs))
    (ho : (w.store e).odrMap.find? id = some o) (hside : o.side ≠ .buySellStop) :
    Fires T w e s id hs o := by
  have hsnd : w.SoundAt T w.nextId e (⟨some s, id⟩ :: hs) := hx.stores
  obtain ⟨⟨o', t, ho', hwt⟩, _, _⟩ := hsnd.self.held List.mem_cons_self
  obtain rfl := Option.some.inj (ho'.symm.trans ho)
  set tk : Order := { o' with price := o'.stopLimit s } with htk
  have hterms : tk.terms = o'.terms := rfl
  have hread : (w.putOrder e id tk).readRef e (.entry id) = .ok tk :=
    World.readRef_writeRef w e (.entry id) tk
  have hoff : ∀ t, id ∉ ((w.store e).book t).ids := fun t => ((hsnd.self.alone ho hside).1 t).1
  have htake : w.SoundAt T w.nextId e (⟨none, id⟩ :: hs) :=
    hsnd.put le_rfl (hsnd.self.take ho hside) (fun _ _ => rfl)
  have hoffw : OffBook w e (.entry id) := fun j hj => by cases hj; exact hoff
  have htkok : TakerOk T w.nextId (⟨none, id⟩ :: hs) s (.entry id) o' :=
    ⟨fun hr => (nomatch hr),
      fun j hj => by cases hj; exact ⟨(hsnd.self.key ho).1, List.mem_cons_self⟩,
      (hsnd.self.key ho).1.symm ▸ (hsnd.self.key ho).2.2, hwt.restsOn⟩
  refine ⟨⟨t, hwt⟩, hside, hoff, fun j hj t => ?_, hread,
    htake.writeRef hoffw (by simp [World.readRef, World.deref, ho]) htkok rfl rfl,
    htkok.congr rfl hterms⟩
  have hbook : ((w.putOrder e id tk).store e).book t = (w.store e).book t :=
    World.book_writeRef w e e (.entry id) tk t
  rw [hbook]
  exact hoffw j hj t

theorem Sound.fires {id : ℕ} (hx : Sound T e (w, ⟨some s, id⟩ :: hs))
    (ho : (w.store e).odrMap.find? id = some o)
    (hex : execute (w.putOrder e id { o with price := o.stopLimit s }) e s (.entry id) = .ok w')
    (hone : ∀ z ∈ w'.execs, T z.taker.orderId z.taker.terms → z.OneLeg) :
    Fires T w e s id hs o := by
  set tk : Order := { o with price := o.stopLimit s } with htk
  have hread : (w.putOrder e id tk).readRef e (.entry id) = .ok tk :=
    World.readRef_writeRef w e (.entry id) tk
  refine hx.fires_of_side ho
    (hone ⟨e, s, .entry id, tk, (w.putOrder e id tk).engines e⟩ ?_ ?_ (by simp))
  · rw [execute_logged hex hread]
    exact List.mem_append_right _ (List.mem_singleton_self _)
  · obtain ⟨hid, _, hT⟩ := hx.stores.self.key ho
    exact hid.symm ▸ hT

/-- A new order as it starts to execute. -/
theorem Order.From.takerOk (ho : o.From q n) (ht : o.Takes s) (hT : T n q.terms) :
    TakerOk T n hs s .arg o :=
  ⟨fun _ => ho.orderId,
    fun _ hr => (nomatch hr), by rw [ho.orderId, ho.terms]; exact hT, ht.restsOn⟩

theorem Step.sound {x y : World × List Held} (h : Step e q x y) (hT : T x.1.nextId q.terms)
    (hone : ∀ z ∈ y.1.execs, T z.taker.orderId z.taker.terms → z.OneLeg) (hx : Sound T e x) :
    Sound T e y := by
  refine ⟨?_, fun s => (hx.legs s).congr (h.calm.conf e)⟩
  have hsnd := hx.stores
  cases h with
  | arg o => exact hsnd.congr fun _ => rfl
  | bump => exact (hsnd.congr fun _ => rfl).mono (Nat.le_succ _)
  | reject =>
    rw [World.nextId_callback]
    exact hsnd.congr fun _ => World.store_callback ..
  | @taker w w' hs o s ho ht hex =>
    have hread : (w.bumpId.setArg o).readRef e .arg = .ok o := rfl
    have hpos := ho.whole
    have hstart : (w.bumpId.setArg o).SoundAt T w.nextId e hs := hsnd.congr fun _ => rfl
    exact execute_sound hstart (OffBook.arg _ _) ((hx.legs s).congr rfl) hread (by omega)
      (ho.takerOk ht hT) ((Nat.le_succ _).trans (execute_nextId hex))
        (fun _ => execute_nextId hex) hex
  | @fire w w' hs o s id ho hex =>
    have hf := hx.fires ho hex hone
    have hle := execute_nextId hex
    have hdone :=
      execute_sound hf.stores hf.offBook
        ((hx.legs s).congr (World.conf_writeRef w e e (.entry id) _)) hf.read
      hf.remain hf.taker hle (fun hr => (nomatch hr)) hex
    exact hdone.put le_rfl hdone.self.release (fun _ _ => rfl)
  | @collect w hs s hit =>
    refine hsnd.put le_rfl ?_ (fun l hl => World.store_setStops_ne hl)
    show StoreOk T ((w.setStops e s _).store e) _ _
    rw [World.setStops_eq, World.store_upd, if_pos rfl]
    exact hsnd.self.collect s hit
  | @register w hs o ho hp hne hl =>
    have hnone : ((w.bumpId.setArg o).store e).odrMap.find? o.orderId = none :=
      (hsnd.self.unused ho.orderId.ge).1
    have hreg := World.registered e hnone rfl o.stopSides o.stopSides_nodup
    have hwaits : ∀ s ∈ o.stopSides, o.Waits s (o.stopTrigger s) := fun s hs =>
      ⟨hp, hs, rfl, ho.whole.1, by have := ho.whole; omega, hl s hs, ho.opened⟩
    rw [World.nextId_callback, hreg.nextId]
    refine (hsnd.put (Nat.le_succ _)
      (hsnd.self.register ho.orderId.ge (by rw [ho.orderId]; exact Nat.lt_succ_self _)
      (by rw [ho.orderId, ho.terms]; exact hT) hwaits hreg.book hreg.stops fun j => ?_)
      hreg.other).congr fun _ => World.store_callback ..
    rw [hreg.find]
    simp only [hne, ne_eq, not_false_eq_true, and_true]
    rfl
  | @drop w hs id =>
    refine hsnd.put le_rfl (hsnd.self.drop (fun t => ?_) (fun t => ?_) fun j => ?_)
      (fun l hl => World.store_eraseOrder_ne hl)
    · rw [World.eraseOrder_eq, World.store_upd, if_pos rfl, Store.book_withMap]
    · rw [World.eraseOrder_eq, World.store_upd, if_pos rfl, Store.stops_withMap]
    · rw [World.eraseOrder_eq, World.store_upd, if_pos rfl, Store.odrMap_withMap,
        OrdMap.find?_erase]

/-! ### Openings -/

theorem Order.Waits.lookup {t : ℤ} (h : o.Waits s t) : o.lookup = .inr o.stopSides := by
  have hside := h.side
  have hp := h.price
  revert hside
  unfold Order.stopSides Order.lookup
  cases o.side <;> simp [hp]

/-- Taking `o` out of stop books. -/
structure Dropped (w w' : World) (e : ℕ) (o : Order) (ss : List Side) : Prop where
  book : ∀ t, (w'.store e).book t = (w.store e).book t
  stops : ∀ t, (w'.store e).stops t =
    if t ∈ ss then ((w.store e).stops t).eraseAt (o.stopTrigger t) o.orderId
    else (w.store e).stops t
  find : ∀ j, (w'.store e).odrMap.find? j = (w.store e).odrMap.find? j
  other : ∀ l, l ≠ e → w'.store l = w.store l
  nextId : w'.nextId = w.nextId

theorem World.dropped (e : ℕ) (o : Order) :
    ∀ (ss : List Side) (w : World), ss.Nodup → Dropped w (w.dropStops e o ss) e o ss
  | [], w, _ => ⟨fun _ => rfl, fun _ => by simp [dropStops], fun _ => rfl, fun _ _ => rfl, rfl⟩
  | s :: ss, w, hnd => by
    obtain ⟨hs, hnd⟩ := List.nodup_cons.mp hnd
    set v := w.setStops e s ((w.stops e s).eraseAt (o.stopTrigger s) o.orderId) with hv
    have ih := World.dropped e o ss v hnd
    have hself : v.store e =
        ((w.store e).setStops s ((w.stops e s).eraseAt (o.stopTrigger s) o.orderId)) := by
      rw [hv, World.setStops_eq, World.store_upd, if_pos rfl]
    refine ⟨fun t => ?_, fun t => ?_, fun j => ?_,
      fun l hl => (ih.other l hl).trans (World.store_setStops_ne hl), ih.nextId⟩
    · exact (ih.book t).trans (by rw [hself, Store.book_setStops])
    · refine (ih.stops t).trans ?_
      rw [hself, Store.stops_setStops]
      by_cases ht : t = s
      · subst ht
        simp [hs]
      · simp [ht]
    · exact (ih.find j).trans (by rw [hself, Store.odrMap_setStops])

theorem World.store_ackCancel_ne {id : ℕ} {st : OrderStatus} (hl : l ≠ e) :
    (w.ackCancel e id o st).store l = w.store l := by
  rw [World.ackCancel, World.store_callback, World.putOrder_eq, World.store_upd_ne hl]

section AckCancel

variable (w e) (id : ℕ) (o : Order) (st : OrderStatus) (t : Side)

@[simp] theorem World.book_ackCancel :
    ((w.ackCancel e id o st).store e).book t = (w.store e).book t := by
  simp [World.ackCancel]

@[simp] theorem World.stops_ackCancel :
    ((w.ackCancel e id o st).store e).stops t = (w.store e).stops t := by
  simp [World.ackCancel]

theorem World.find_ackCancel (j : ℕ) : ((w.ackCancel e id o st).store e).odrMap.find? j =
    if j = id then some { o with orderState := st } else (w.store e).odrMap.find? j := by
  simp [World.ackCancel]

@[simp] theorem World.nextId_ackCancel : (w.ackCancel e id o st).nextId = w.nextId := by
  simp [World.ackCancel]

end AckCancel

theorem Emits.dropStops (o : Order) (e : ℕ) :
    ∀ (ss : List Side) (w : World), Emits w (w.dropStops e o ss) []
  | [], w => Emits.refl w
  | s :: ss, w => by
    have hstep : Emits w (w.setStops e s ((w.stops e s).eraseAt (o.stopTrigger s) o.orderId)) [] :=
      Emits.upd ..
    exact hstep.trans (Emits.dropStops o e ss _)

theorem Emits.ackCancel (w : World) (e id : ℕ) (o : Order) (st : OrderStatus) :
    Emits w (w.ackCancel e id o st) [(e, { o with orderState := st })] :=
  (Emits.writeRef w e (.entry id) _).trans (Emits.callback _ e _)

theorem canAmend_le {a b : Order} (h : canAmend a b = true) : a.quantity ≤ b.remainQuantity := by
  unfold canAmend at h
  split_ifs at h
  simpa using h

/-- An order in a stop book is looked up in stop books. -/
theorem StoreOk.lookup {g : Store} {s : Side} {t : ℤ} {i : ℕ} (h : StoreOk T g n hs)
    (hf : g.odrMap.find? i = some o) (hat : (g.stops s).At t i) : o.lookup = .inr o.stopSides := by
  obtain ⟨o', ho', hw⟩ := h.waits hat
  obtain rfl := Option.some.inj (ho'.symm.trans hf)
  exact hw.lookup

namespace World.SoundAt

variable {a : OrderAction} {z : OrderStatus}

/-- An amendment in place. -/
theorem amended (h : w.SoundAt T w.nextId e []) (hf : (w.store e).odrMap.find? q.orderId = some o)
    (hpos : 0 < q.quantity) :
    (w.putOrder e q.orderId (amendInPlace { o with orderAction := a } q)).SoundAt T
      w.nextId e [] := by
  refine h.put le_rfl (h.self.touch (o := amendInPlace { o with orderAction := a } q) hf rfl rfl
    (fun p hr => ⟨hr.orderId, hr.price, hpos, hr.limit⟩)
    (fun s t hw => ⟨hw.price, hw.side, hw.trigger, rfl, hpos, hw.limit, hw.opened⟩)
      (fun t => ?_) (fun t => ?_)
    fun j => ?_) fun l hl => World.store_upd_ne hl
  all_goals simp

/-- A resting order is taken out of its book, and its entry is in hand. -/
theorem unbooked {t : Side} (h : w.SoundAt T w.nextId e [])
    (hf : (w.store e).odrMap.find? q.orderId = some o) (hl : o.lookup = .inl t) :
    ((w.ackCancel e q.orderId { o with orderAction := a } z).setBook e t
      (((w.store e).book t).eraseAt o.price o.orderId)).SoundAt T w.nextId e
        [⟨none, q.orderId⟩] := by
  set v := w.ackCancel e q.orderId { o with orderAction := a } z
  have hnot : ∀ s t', ¬((w.store e).stops s).At t' q.orderId := fun s t' hat => by
    have hlookup := h.self.lookup hf hat
    rw [hl] at hlookup
    cases hlookup
  have hack : StoreOk T (v.store e) w.nextId [] := by
    refine h.self.touch (o := { o with orderAction := a, orderState := z }) hf rfl rfl
      (fun p hr => ⟨hr.orderId, hr.price, hr.remain, hr.limit⟩) (fun s t' hw => ?_)
        (World.book_ackCancel w e _ _ z)
      (World.stops_ackCancel w e _ _ z) (World.find_ackCancel w e _ _ z)
    rw [hw.lookup] at hl
    cases hl
  have hstore : (v.setBook e t (((w.store e).book t).eraseAt o.price o.orderId)).store e =
      (v.store e).setBook t (((v.store e).book t).eraseAt o.price o.orderId) := by
    rw [World.setBook_eq, World.store_upd, if_pos rfl, World.book_ackCancel]
  have hself : StoreOk T
      ((v.setBook e t (((w.store e).book t).eraseAt o.price o.orderId)).store e) w.nextId [] := by
    rw [hstore]
    refine hack.frame_stops (hack.books.unlist (fun u => Store.book_setBook ..) (fun j => ?_))
      (fun {u j} hm => ?_) (fun s => Store.stops_setBook ..)
      (fun {j o'} ho' => ⟨o', by rwa [Store.odrMap_setBook] at ho', rfl, rfl⟩)
      (fun {j o1 u c} _ ho1 hwt => ⟨o1, by rwa [Store.odrMap_setBook], hwt⟩)
    · rw [Store.odrMap_setBook]
    · rw [Store.book_setBook] at hm
      split_ifs at hm with hu
      · rw [hu]
        exact (Ladder.eraseAt_sublist _ _ _).subset hm
      · exact hm
  refine h.put le_rfl (hself.grab (h.self.key hf).2.1 fun s hm => ?_) fun l hl =>
    (World.store_setBook_ne hl).trans (World.store_ackCancel_ne hl)
  rw [hstore, Store.stops_setBook, World.stops_ackCancel] at hm
  obtain ⟨t', hat⟩ := Ladder.mem_ids.mp hm
  exact hnot s t' hat

/-- An order that waits is taken out of the stop books it is looked up in. -/
theorem unstopped {ss : List Side} (h : w.SoundAt T w.nextId e [])
    (hf : (w.store e).odrMap.find? q.orderId = some o) (hl : o.lookup = .inr ss) :
    ((w.ackCancel e q.orderId { o with orderAction := a } z).dropStops e o ss).SoundAt T w.nextId e
      [⟨none, q.orderId⟩] := by
  set v := w.ackCancel e q.orderId { o with orderAction := a } z
  have hdrop := World.dropped e o ss v (Order.lookup_nodup hl)
  have hid := (h.self.key hf).1
  have hbook : ∀ t, ((v.dropStops e o ss).store e).book t = (w.store e).book t := fun t =>
    (hdrop.book t).trans (World.book_ackCancel ..)
  have hstops : ∀ t, ((v.dropStops e o ss).store e).stops t =
      if t ∈ ss then ((w.store e).stops t).eraseAt (o.stopTrigger t) o.orderId
      else (w.store e).stops t := fun t => by
    rw [hdrop.stops, World.stops_ackCancel]
  have hfind : ∀ j, ((v.dropStops e o ss).store e).odrMap.find? j =
      if j = q.orderId then some { o with orderAction := a, orderState := z }
      else (w.store e).odrMap.find? j :=
    fun j => (hdrop.find j).trans (World.find_ackCancel ..)
  -- what still waits waited before, and it is not this order: the lookup names all its stop books
  have hsub : ∀ {s t j}, (((v.dropStops e o ss).store e).stops s).At t j →
      ((w.store e).stops s).At t j ∧ j ≠ q.orderId := by
    intro s t j hat
    rw [hstops] at hat
    have hold : ((w.store e).stops s).At t j := by
      split_ifs at hat
      · exact ((Ladder.at_eraseAt (h.self.stopsWf s)).mp hat).1
      · exact hat
    refine ⟨hold, ?_⟩
    rintro rfl
    obtain ⟨o', ho', hw⟩ := h.self.waits hold
    obtain rfl := Option.some.inj (ho'.symm.trans hf)
    rw [hw.lookup] at hl
    obtain rfl := Sum.inr.inj hl
    rw [if_pos hw.side] at hat
    exact ((Ladder.at_eraseAt (h.self.stopsWf s)).mp hat).2 ⟨hw.trigger.symm, hid.symm⟩
  have hself : StoreOk T ((v.dropStops e o ss).store e) w.nextId [] := by
    refine h.self.frame (h.self.books.touch hbook hfind fun s p hat => ?_)
      (fun {t j} hm => by rwa [hbook] at hm) (fun s => ?_) (fun hat => (hsub hat).1)
      (fun {j o'} ho' => ?_) (fun {j o1 u c} hw ho1 hwt => ⟨o1, ?_, hwt⟩)
    · have hr := h.self.books.restsAt hat hf
      exact ⟨hr.orderId, hr.price, hr.remain, hr.limit⟩
    · rw [hstops]
      split_ifs
      · exact Ladder.wf_eraseAt _ _ (h.self.stopsWf s)
      · exact h.self.stopsWf s
    · rw [hfind] at ho'
      split_ifs at ho' with hj
      · obtain rfl := Option.some.inj ho'
        exact ⟨o, hj ▸ hf, rfl, rfl⟩
      · exact ⟨o', ho', rfl, rfl⟩
    · obtain ⟨s, hm | hm⟩ := hw
      · obtain ⟨t, hat⟩ := Ladder.mem_ids.mp hm
        rw [hfind, if_neg (hsub hat).2, ho1]
      · cases hm
  refine h.put le_rfl (hself.grab (h.self.key hf).2.1 fun s hm => ?_)
    fun l hl => (hdrop.other l hl).trans (World.store_ackCancel_ne hl)
  obtain ⟨t, hat⟩ := Ladder.mem_ids.mp hm
  exact (hsub hat).2 rfl

end World.SoundAt

/-- Openings, one branch of `handle` each. -/
theorem Opening.sound {y : World × List Held} (h : Opening e q w y) (hx : Sound T e (w, [])) :
    Sound T e y := by
  refine ⟨?_, fun s => (hx.legs s).congr (h.calm.conf e)⟩
  cases h with
  | same => exact hx.stores
  | refused =>
    rw [World.nextId_callback]
    exact hx.stores.congr fun _ => World.store_callback ..
  | amended hf _ hpos =>
    rw [World.nextId_callback]
    exact (hx.stores.amended hf hpos).congr fun _ => World.store_callback ..
  | @unbooked o a st t is hf _ hl _ =>
    have hsnd := hx.stores.unbooked (a := a) (z := st) hf hl
    rwa [← World.nextId_ackCancel w e q.orderId { o with orderAction := a } st] at hsnd
  | @unstopped o a st ss hf _ hl _ =>
    have hsnd := hx.stores.unstopped (a := a) (z := st) hf hl
    have hdrop :=
      World.dropped e o ss (w.ackCancel e q.orderId { o with orderAction := a } st)
        (Order.lookup_nodup hl)
    rwa [← World.nextId_ackCancel w e q.orderId { o with orderAction := a } st,
      ← hdrop.nextId] at hsnd

/-! ### Calls and runs -/

/-- Every store is in order between two calls. -/
def World.Ordered (w : World) (T : ℕ → Terms → Prop) : Prop :=
  ∀ l, StoreOk T (w.store l) w.nextId []

theorem World.Ordered.soundAt (h : w.Ordered T) (e : ℕ) : w.SoundAt T w.nextId e [] := fun l => by
  rw [ite_self]; exact h l

theorem World.SoundAt.ordered (h : w.SoundAt T w.nextId e []) : w.Ordered T := fun l => by
  have hl := h l
  rwa [ite_self] at hl

theorem World.Fresh.ordered (h : w.Fresh) (T : ℕ → Terms → Prop) : w.Ordered T := fun l => by
  rw [h.store]; exact StoreOk.empty T _

/-- The legs of every matcher are apart. -/
def World.Apart (w : World) : Prop := ∀ l s, LegsApart w l s

theorem World.Apart.congr (h : w.Apart) (hc : ∀ l, w'.conf l = w.conf l) : w'.Apart :=
  fun l s => (h l s).congr (hc l)

theorem Opening.execs {y : World × List Held} (h : Opening e q w y) : y.1.execs = w.execs := by
  have hdrop : ∀ (ss : List Side) (o : Order) (v : World),
      (v.dropStops e o ss).execs = v.execs := by
    intro ss o
    induction ss with
    | nil => exact fun _ => rfl
    | cons s ss ih => exact fun v => ih _
  cases h with
  | same => rfl
  | refused => exact World.execs_callback ..
  | amended => exact World.execs_callback ..
  | unbooked => exact World.execs_callback ..
  | unstopped => rw [hdrop]; exact World.execs_callback ..

theorem Step.nextId {x y : World × List Held} (h : Step e q x y) : x.1.nextId ≤ y.1.nextId := by
  cases h with
  | arg => exact le_rfl
  | bump => exact Nat.le_succ _
  | reject =>
    rw [World.nextId_callback]
    exact le_rfl
  | taker _ _ hex => exact (Nat.le_succ _).trans (execute_nextId hex)
  | fire _ hex =>
    have hle := execute_nextId hex
    exact hle
  | collect => exact le_rfl
  | register =>
    have hreg : ∀ (ss : List Side) (v : World), (v.registerStops e ss).nextId = v.nextId := by
      intro ss
      induction ss with
      | nil => exact fun _ => rfl
      | cons s ss ih => exact ih
    rw [World.nextId_callback, hreg]
    exact Nat.le_succ _
  | drop => exact le_rfl

theorem Opening.nextId {y : World × List Held} (h : Opening e q w y) : y.1.nextId = w.nextId := by
  cases h with
  | same => rfl
  | refused => exact World.nextId_callback ..
  | amended => exact World.nextId_callback ..
  | unbooked => exact World.nextId_callback ..
  | unstopped _ _ hl =>
    exact (World.dropped e _ _ _ (Order.lookup_nodup hl)).nextId.trans (World.nextId_callback ..)

/-- The terms of a request are acceptable under every id it may get. -/
def Order.Allowed (q : Order) (T : ℕ → Terms → Prop) (n : ℕ) : Prop := ∀ i, n ≤ i → T i q.terms

theorem Steps.sound {x y : World × List Held} (h : Steps e q x y) (hT : q.Allowed T x.1.nextId)
    (hone : ∀ z ∈ y.1.execs, T z.taker.orderId z.taker.terms → z.OneLeg) (hx : Sound T e x) :
    Sound T e y ∧ x.1.nextId ≤ y.1.nextId :=
  h.induct (I := fun z => Sound T e z ∧ x.1.nextId ≤ z.1.nextId)
    (fun hstep hgood hz => ⟨hstep.sound (hT _ hz.2) hgood hz.1, hz.2.trans hstep.nextId⟩)
      hone ⟨hx, le_rfl⟩

/-- A request that is handled to its end keeps the stores in order. -/
theorem dispatch_sound (hq : w.arg = q) (ht : q.IsTrade) (hT : q.Allowed T w.nextId)
    (hap : ∀ s, LegsApart w e s) (hord : w.Ordered T) (h : dispatch w e = .ok w')
    (hone : ∀ z ∈ w'.execs, T z.taker.orderId z.taker.terms → z.OneLeg) : w'.Ordered T := by
  obtain ⟨v, hs, hopen, hsteps⟩ := dispatch_steps hq ht h
  have hstart : Sound T e (v, hs) := hopen.sound ⟨hord.soundAt e, hap⟩
  exact (hsteps.sound (by rw [hopen.nextId]; exact hT) hone hstart).1.stores.ordered

theorem dispatch_nextId (hq : w.arg = q) (ht : q.IsTrade) (h : dispatch w e = .ok w') :
    w.nextId ≤ w'.nextId := by
  obtain ⟨v, hs, hopen, hsteps⟩ := dispatch_steps hq ht h
  rw [← hopen.nextId]
  have hgood : ∀ z ∈ w'.execs, (fun _ : Exec => True) z := fun _ _ => trivial
  exact hsteps.induct (I := fun z => v.nextId ≤ z.1.nextId)
    (fun hstep _ hz => hz.trans hstep.nextId) hgood le_rfl

theorem dispatch_execs (hq : w.arg = q) (ht : q.IsTrade) (h : dispatch w e = .ok w') :
    ∀ z ∈ w.execs, z ∈ w'.execs := by
  obtain ⟨v, hs, hopen, hsteps⟩ := dispatch_steps hq ht h
  intro z hz
  exact hsteps.execs z (by rw [hopen.execs]; exact hz)

theorem handle_nextId (ht : q.IsTrade) (h : handle w e q = .ok w') : w.nextId ≤ w'.nextId := by
  obtain ⟨held, _, ⟨_, rfl⟩ | ⟨_, v, hv, rfl⟩⟩ := handle_cases h
  · exact le_rfl
  · rw [World.nextId_unlock, World.nextId_flush]
    exact (World.nextId_enter w e q held).ge.trans (dispatch_nextId (World.arg_enter ..) ht hv)

theorem handle_execs (ht : q.IsTrade) (h : handle w e q = .ok w') :
    ∀ z ∈ w.execs, z ∈ w'.execs := by
  obtain ⟨held, _, ⟨_, rfl⟩ | ⟨_, v, hv, rfl⟩⟩ := handle_cases h
  · exact fun z hz => hz
  · intro z hz
    rw [World.execs_unlock, World.execs_flush]
    exact dispatch_execs (World.arg_enter ..) ht hv z (by rwa [World.execs_enter])

theorem World.Ordered.enter {held : ℕ → Bool} (hord : w.Ordered T) :
    (w.enter e q held).Ordered T := fun l => by
  rw [World.store_enter, World.nextId_enter]
  exact hord l

theorem World.Ordered.leave (hord : w.Ordered T) :
    (unlock (flushAuction w e) e).Ordered T := fun l => by
  rw [World.store_unlock, World.store_flush, World.nextId_unlock, World.nextId_flush]
  exact hord l

theorem handle_sound (ht : q.IsTrade) (hT : q.Allowed T w.nextId) (hap : ∀ s, LegsApart w e s)
    (hord : w.Ordered T) (h : handle w e q = .ok w')
    (hone : ∀ z ∈ w'.execs, T z.taker.orderId z.taker.terms → z.OneLeg) : w'.Ordered T := by
  obtain ⟨held, _, ⟨_, rfl⟩ | ⟨_, v, hv, rfl⟩⟩ := handle_cases h
  · exact hord
  · refine World.Ordered.leave ?_
    refine dispatch_sound (World.arg_enter ..) ht ?_
      (fun s => (hap s).congr (World.conf_enter ..)) hord.enter hv
      (fun z hz => hone z (by rwa [World.execs_unlock, World.execs_flush]))
    rwa [World.nextId_enter]

/-- A call on one of the engines. -/
abbrev World.call (w : World) (x : ℕ × Order) : Except Fault World := handle w x.1 x.2

theorem run_execs :
    ∀ (rs : List (ℕ × Order)) {w : World}, (∀ x ∈ rs, x.2.IsTrade) → run w rs = .ok w' →
    ∀ z ∈ w.execs, z ∈ w'.execs
  | [], w, _, h => by
    obtain rfl := Except.ok.inj h
    exact fun _ hz => hz
  | (l, q) :: rs, w, hrs, h => by
    obtain ⟨v, hv, h⟩ := bind_ok.mp h
    have ih := run_execs rs (fun x hx => hrs x (List.mem_cons_of_mem _ hx)) h
    exact fun z hz => ih z (handle_execs (hrs (l, q) List.mem_cons_self) hv z hz)

/-- What calls with acceptable requests and acceptable executions preserve, such runs preserve. -/
theorem run_along {I : World → Prop} {ok : World → ℕ × Order → Prop} {good : Exec → Prop}
    (hstep : ∀ {w w' : World} {l : ℕ} {q : Order}, q.IsTrade → ok w (l, q) → handle w l q = .ok w' →
      (∀ z ∈ w'.execs, good z) → I w → I w') :
    ∀ (rs : List (ℕ × Order)) {w : World}, (∀ x ∈ rs, x.2.IsTrade) → RunsAlong World.call ok w rs →
      run w rs = .ok w' →
      (∀ z ∈ w'.execs, good z) → I w → I w'
  | [], w, _, _, h, _, hI => by
    obtain rfl := Except.ok.inj h
    exact hI
  | (l, q) :: rs, w, hrs, hok, h, hgood, hI => by
    obtain ⟨v, hv, h⟩ := bind_ok.mp h
    have hrs' : ∀ x ∈ rs, x.2.IsTrade := fun x hx => hrs x (List.mem_cons_of_mem _ hx)
    refine run_along hstep rs hrs' (hok.2 v hv) h hgood
      (hstep (hrs (l, q) List.mem_cons_self) hok.1 hv (fun z hz => ?_) hI)
    exact hgood z (run_execs rs hrs' h z hz)

/-- A run of trading requests with acceptable terms, for engines that use no source of liquidity
    twice, keeps the stores in order. -/
theorem run_sound (rs : List (ℕ × Order)) (hrs : ∀ x ∈ rs, x.2.IsTrade ∧ x.2.Allowed T w.nextId)
    (hap : ∀ x ∈ rs, ∀ s, LegsApart w x.1 s) (hord : w.Ordered T) (h : run w rs = .ok w')
    (hone : ∀ z ∈ w'.execs, T z.taker.orderId z.taker.terms → z.OneLeg) : w'.Ordered T := by
  have hok : RunsAlong World.call (fun _ x => x ∈ rs) w rs :=
    RunsAlong.of_forall rs fun x hx _ => hx
  have hend := run_along
    (I := fun v => v.Ordered T ∧ (∀ l, v.conf l = w.conf l) ∧ w.nextId ≤ v.nextId)
    (fun {v v' l q} ht hq hv hgood hI =>
      ⟨handle_sound ht (fun i hi => (hrs (l, q) hq).2 i (hI.2.2.trans hi))
          (fun s => (hap (l, q) hq s).congr (hI.2.1 l)) hI.1 hv hgood,
        fun k => (handle_conf hv k).trans (hI.2.1 k), hI.2.2.trans (handle_nextId ht hv)⟩)
    rs (fun x hx => (hrs x hx).1) hok h hone ⟨hord, fun _ => rfl, le_rfl⟩
  exact hend.1

end Matching
