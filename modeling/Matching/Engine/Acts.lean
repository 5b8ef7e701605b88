import Mathlib.Logic.Relation
import Matching.Engine.Frame

/-! An execution as a sequence of primitive changes (`Act`): a fill of a maker, its removal from
    book and map, a fill of the taker, the end of the taker. They say nothing about the books, so
    what holds of an execution whatever the books look like is proved of one change at a time: what
    matching leaves alone (`Keeps`), and that it changes its own engine and the engines of the legs
    only (`Touches`). -/

namespace Matching

/-- One change of an execution of the taker `r` of engine `e` whose iterators
    are in the engines of `T`. -/
inductive Act (T : ℕ → Prop) (e : ℕ) (r : Ref) (w : World) : World → Prop
  | bump : Act T e r w w.bumpId
  | fill {l id : ℕ} {m : Order} (hT : T l) (hm : w.deref l id = .ok m) (matchedId q a b : ℕ) :
      Act T e r w ((w.putOrder l id (engineMakerMatch m matchedId q a b)).callback l
        (engineMakerMatch m matchedId q a b))
  | unbook {l : ℕ} (hT : T l) (s : Side) (p : ℤ) (id : ℕ) :
      Act T e r w (w.setBook l s ((w.book l s).eraseAt p id))
  | erase {l : ℕ} (hT : T l) (id : ℕ) : Act T e r w (w.eraseOrder l id)
  | take {o : Order} (ho : w.readRef e r = .ok o) (matchedId : ℕ) (p : ℤ) (q a b : ℕ) :
      Act T e r w ((w.writeRef e r (engineMatch o .taker matchedId p q a b)).callback e
        (engineMatch o .taker matchedId p q a b))
  | kill {o : Order} {st : OrderStatus} (ho : w.readRef e r = .ok o) (hst : st.isReject = false) :
      Act T e r w
        ((w.writeRef e r { o with orderState := st }).callback e { o with orderState := st })
  | price {o : Order} (ho : w.readRef e r = .ok o) (p : ℤ) :
      Act T e r w (w.writeRef e r { o with price := p })
  | rest {o : Order} (ho : w.readRef e r = .ok o) (s : Side) : Act T e r w (w.upd e (fun g =>
      { g.setBook s.opp ((g.book s.opp).insert s.opp.cmp o.price o.orderId) with
        odrMap := g.odrMap.emplace o.orderId o }))
  | report {o : Order} (ho : w.readRef e r = .ok o) : Act T e r w (w.callback e o)

/-- Any number of changes. -/
def Acts (T : ℕ → Prop) (e : ℕ) (r : Ref) : World → World → Prop :=
  Relation.ReflTransGen (Act T e r)

/-- The iterators of a record are in engines of `T`. -/
def MatchedRecord.Within (rec : MatchedRecord) (T : ℕ → Prop) : Prop :=
  T rec.leg1.engine ∧ ∀ leg2, rec.leg2 = some leg2 → T leg2.engine

/-- So are those of a matcher, which works for one of them. -/
structure Matcher.Within (m : Matcher) (T : ℕ → Prop) : Prop where
  loc : T m.loc.engine
  legs : ∀ L ∈ m.impliers, T L.leg1.engine ∧ T L.leg2.engine

variable {T : ℕ → Prop} {w w' w'' : World} {l e : ℕ} {s : Side} {r : Ref} {it it' : Iter}
  {m m' : Matcher}

namespace Acts

theorem single (h : Act T e r w w') : Acts T e r w w' := Relation.ReflTransGen.single h

/-! ### Iterators stay in their engine -/

theorem load_engine {p : Option (ℤ × ℕ)} (h : Iter.load w l s p = .ok it) : it.engine = l := by
  rcases p with _ | ⟨p, id⟩
  · obtain rfl := Except.ok.inj h
    rfl
  · simp only [Iter.load, bind_ok, pure_ok] at h
    obtain ⟨o, _, rfl⟩ := h
    rfl

theorem reset_engine (h : Iter.reset w l s = .ok it) : it.engine = l := by
  obtain ⟨p, _, h⟩ := bind_ok.mp h
  exact load_engine h

theorem next_engine (h : it.next w = .ok it') : it'.engine = it.engine := by
  unfold Iter.next at h
  split at h
  · cases h
  · obtain ⟨p, _, h⟩ := bind_ok.mp h
    exact load_engine h

theorem stepLeg_engine (h : Matcher.stepLeg w it = .ok it') : it'.engine = it.engine := by
  unfold Matcher.stepLeg at h
  split at h
  · exact next_engine h
  · obtain rfl := Except.ok.inj h
    rfl

theorem erase (hT : T it.engine) (h : it.erase w = .ok (w', it')) :
    Acts T e r w w' ∧ it'.engine = it.engine := by
  unfold Iter.erase at h
  split at h
  · obtain ⟨rfl, rfl⟩ := Prod.mk.inj (Except.ok.inj h)
    exact ⟨Relation.ReflTransGen.refl, rfl⟩
  · simp only [bind_ok, pure_ok, Prod.mk.injEq] at h
    obtain ⟨_, _, _, hnext, rfl, rfl⟩ := h
    exact ⟨(single (.unbook hT _ _ _)).tail (.erase hT _), next_engine hnext⟩

theorem makerMatch {mid q a b : ℕ} (hT : T it.engine)
    (h : it.makerMatch w mid q a b = .ok (w', it')) :
    Acts T e r w w' ∧ it'.engine = it.engine := by
  rcases hc : it.cur with _ | c
  · simp only [Iter.makerMatch, hc, reduceCtorEq] at h
  · simp only [Iter.makerMatch, hc, bind_ok] at h
    obtain ⟨o, ho, h⟩ := h
    have hm : w.deref it.engine c.id = .ok o := by
      simp only [Iter.order, hc] at ho
      split at ho
      · exact ho
      · cases ho
    have hfill : Acts T e r w
        ((w.putOrder it.engine c.id (engineMakerMatch o mid q a b)).callback it.engine
        (engineMakerMatch o mid q a b)) := single (.fill hT hm mid q a b)
    split at h
    · obtain ⟨herase, heng⟩ := erase hT h
      exact ⟨hfill.trans herase, heng⟩
    · obtain ⟨rfl, rfl⟩ := Prod.mk.inj (pure_ok.mp h)
      exact ⟨hfill, rfl⟩

theorem takerMatch {mid q a b : ℕ} {p : ℤ} (h : takerMatch w e r mid p q a b = .ok w') :
    Acts T e r w w' := by
  simp only [Matching.takerMatch, bind_ok, pure_ok] at h
  obtain ⟨o, ho, rfl⟩ := h
  exact single (.take ho mid p q a b)

theorem executeStep {rec : MatchedRecord} {leg1 : Iter} {leg2 : Option Iter} (hrec : rec.Within T)
    (h : executeStep w e r rec = .ok (w', leg1, leg2)) :
    Acts T e r w w' ∧ T leg1.engine ∧ ∀ it, leg2 = some it → T it.engine := by
  simp only [Matching.executeStep, bind_ok] at h
  obtain ⟨o, _, h⟩ := h
  have h0 : Acts T e r w w.bumpId := single .bump
  split at h
  · simp only [bind_ok, pure_ok, Prod.mk.injEq] at h
    obtain ⟨o1, _, ⟨w1, it1⟩, h1, w2, h2, rfl, rfl, rfl⟩ := h
    obtain ⟨ht1, he1⟩ := makerMatch hrec.1 h1
    exact ⟨(h0.trans ht1).trans (takerMatch h2), he1 ▸ hrec.1, fun _ h => by cases h⟩
  · rename_i it hleg2
    simp only [bind_ok, pure_ok, Prod.mk.injEq] at h
    obtain ⟨o1, _, o2, _, ⟨w1, it1⟩, h1, ⟨w2, it2⟩, h2, w3, h3, rfl, rfl, rfl⟩ := h
    obtain ⟨ht1, he1⟩ := makerMatch hrec.1 h1
    obtain ⟨ht2, he2⟩ := makerMatch (hrec.2 it hleg2) h2
    refine ⟨((h0.trans ht1).trans ht2).trans (takerMatch h3), he1 ▸ hrec.1, fun it' h => ?_⟩
    obtain rfl := Option.some.inj h
    exact he2 ▸ hrec.2 it hleg2

theorem killTaker {st : OrderStatus} (hst : st.isReject = false) (h : killTaker w e r st = .ok w') :
    Acts T e r w w' := by
  simp only [Matching.killTaker, bind_ok, pure_ok] at h
  obtain ⟨o, ho, rfl⟩ := h
  exact single (.kill ho hst)

/-- An order keeps its fields when it comes to rest. -/
theorem readRef_rest {o : Order} (ho : w.readRef e r = .ok o) (f : Store → Book) (s : Side) :
    (w.upd e (fun g =>
      { g.setBook s (f g) with odrMap := g.odrMap.emplace o.orderId o })).readRef e r = .ok o := by
  cases r with
  | arg => exact ho
  | entry id =>
    have hfind : (w.store e).odrMap.find? id = some o := by
      simpa [World.readRef, World.deref] using ho
    have hkept :
        (if id = o.orderId then some (((w.store e).odrMap.find? o.orderId).getD o) else some o) =
          some o := by
      split_ifs with hid
      · rw [← hid, hfind]
        rfl
      · rfl
    simp only [World.readRef, World.deref, World.order?, World.store_upd, if_true,
      OrdMap.find?_emplace, hfind, hkept, orUb]

theorem restTaker (h : restTaker w e s r = .ok w') : Acts T e r w w' := by
  simp only [Matching.restTaker, bind_ok] at h
  obtain ⟨o, ho, h⟩ := h
  split at h
  · obtain rfl := pure_ok.mp h
    exact (single (.rest ho s)).tail (.report (readRef_rest ho _ s.opp))
  · obtain rfl := pure_ok.mp h
    exact single (.rest ho s)

theorem residual (h : residual w e s r = .ok w') : Acts T e r w w' := by
  simp only [Matching.residual, bind_ok] at h
  obtain ⟨o, ho, h⟩ := h
  split at h
  · obtain rfl := pure_ok.mp h
    exact Relation.ReflTransGen.refl
  split at h
  · exact killTaker (by split <;> rfl) h
  split at h
  · exact killTaker (by split <;> rfl) h
  split at h
  · obtain ⟨p, _, h⟩ := bind_ok.mp h
    split at h
    · exact (single (.price ho p)).trans (killTaker rfl h)
    · exact (single (.price ho p)).trans (restTaker h)
  · exact restTaker h

/-! ### Matchers -/

/-- Replacing the iterators of one implier by iterators of the same engines. -/
theorem within_set {i : ℕ} {L : ImpliedLegs} {leg1 leg2 : Iter} (hm : m.Within T)
    (h1 : T leg1.engine) (h2 : T leg2.engine) :
    ({ m with impliers := m.impliers.set i { L with leg1 := leg1, leg2 := leg2 } } :
      Matcher).Within T := by
  refine ⟨hm.loc, fun K hK => ?_⟩
  rcases List.mem_or_eq_of_mem_set hK with hK | rfl
  · exact hm.legs K hK
  · exact ⟨h1, h2⟩

theorem normalLoop {tick : ℤ} {b : Bool} : ∀ (n : ℕ) {w : World} {m : Matcher}, m.Within T →
    normalLoop e s r tick n w m = .ok (w', b) → Acts T e r w w'
  | 0, _, _, _, h => by cases h
  | n + 1, w, m, hm, h => by
    simp only [Matching.normalLoop, bind_ok] at h
    obtain ⟨o, ho, h⟩ := h
    split at h
    · obtain ⟨rfl, -⟩ := Prod.mk.inj (pure_ok.mp h)
      exact Relation.ReflTransGen.refl
    obtain ⟨t, _, h⟩ := bind_ok.mp h
    split at h
    · obtain ⟨rfl, -⟩ := Prod.mk.inj (pure_ok.mp h)
      exact Relation.ReflTransGen.refl
    split at h
    · obtain ⟨rfl, -⟩ := Prod.mk.inj (pure_ok.mp h)
      exact Relation.ReflTransGen.refl
    split at h
    · obtain ⟨v, hv, h⟩ := bind_ok.mp h
      obtain ⟨rfl, -⟩ := Prod.mk.inj (pure_ok.mp h)
      exact killTaker rfl hv
    split at h
    · obtain ⟨rfl, -⟩ := Prod.mk.inj (pure_ok.mp h)
      exact single (.price ho _)
    split at h
    · obtain ⟨⟨v, leg1, x⟩, hv, h⟩ := bind_ok.mp h
      have hrec : ∀ q, MatchedRecord.Within ⟨t.price, q, m.loc, none⟩ T :=
        fun _ => ⟨hm.loc, fun _ h => by cases h⟩
      obtain ⟨ht, h1, -⟩ := executeStep (hrec _) hv
      have hm' : Matcher.Within { m with loc := leg1 } T := ⟨h1, hm.legs⟩
      exact ht.trans (normalLoop n hm' h)
    · split at h
      · cases h
      · rename_i i _ L hL
        obtain ⟨⟨v, leg1, x⟩, hv, h⟩ := bind_ok.mp h
        obtain ⟨hL1, hL2⟩ := hm.legs L (List.mem_of_getElem? hL)
        have hrec : ∀ q, MatchedRecord.Within ⟨t.price, q, L.leg1, some L.leg2⟩ T :=
          fun _ => ⟨hL1, fun it hit => by cases hit; exact hL2⟩
        obtain ⟨ht, h1, h2⟩ := executeStep (hrec _) hv
        have hx : T (x.getD L.leg2).engine := by
          rcases x with _ | it
          · exact hL2
          · exact h2 it rfl
        exact ht.trans (normalLoop n (within_set hm h1 hx) h)

theorem matchOne {p : ℤ} {q : ℕ} {rec : Option MatchedRecord} (hm : m.Within T)
    (h : m.matchOne w p q = .ok (rec, m')) :
    m'.Within T ∧ ∀ x, rec = some x → x.Within T := by
  simp only [Matcher.matchOne, bind_ok] at h
  obtain ⟨t, _, h⟩ := h
  split at h
  · obtain ⟨rfl, rfl⟩ := Prod.mk.inj (pure_ok.mp h)
    exact ⟨hm, fun _ h => by cases h⟩
  split at h
  · obtain ⟨rfl, rfl⟩ := Prod.mk.inj (pure_ok.mp h)
    exact ⟨hm, fun _ h => by cases h⟩
  generalize (if t.quantity > q then q else t.quantity) = k at h
  split at h
  · have hrec : MatchedRecord.Within ⟨t.price, k, m.loc, none⟩ T :=
      ⟨hm.loc, fun _ h => by cases h⟩
    split at h
    · obtain ⟨loc, hloc, h⟩ := bind_ok.mp h
      obtain ⟨rfl, rfl⟩ := Prod.mk.inj (pure_ok.mp h)
      exact ⟨⟨next_engine hloc ▸ hm.loc, hm.legs⟩, fun x hx => Option.some.inj hx ▸ hrec⟩
    · obtain ⟨rfl, rfl⟩ := Prod.mk.inj (Except.ok.inj h)
      exact ⟨hm, fun x hx => Option.some.inj hx ▸ hrec⟩
  · split at h
    · cases h
    · rename_i i _ L hL
      obtain ⟨leg1, h1, h⟩ := bind_ok.mp h
      obtain ⟨leg2, h2, h⟩ := bind_ok.mp h
      obtain ⟨rfl, rfl⟩ := Prod.mk.inj (pure_ok.mp h)
      obtain ⟨hL1, hL2⟩ := hm.legs L (List.mem_of_getElem? hL)
      refine ⟨within_set hm (stepLeg_engine h1 ▸ hL1) (stepLeg_engine h2 ▸ hL2), fun x hx => ?_⟩
      obtain rfl := Option.some.inj hx
      exact ⟨hL1, fun it hit => by cases hit; exact hL2⟩

theorem fokLoop {p : ℤ} :
    ∀ (n : ℕ) {m : Matcher} {q left : ℕ} {recs : List MatchedRecord}, m.Within T →
    fokLoop w p n m q = .ok (recs, left) → ∀ x ∈ recs, x.Within T
  | 0, _, _, _, _, _, h => by cases h
  | n + 1, m, q, left, recs, hm, h => by
    simp only [Matching.fokLoop] at h
    split at h
    · obtain ⟨rfl, -⟩ := Prod.mk.inj (pure_ok.mp h)
      exact fun _ hx => nomatch hx
    · obtain ⟨⟨rec, m'⟩, hone, h⟩ := bind_ok.mp h
      obtain ⟨hm', hrec⟩ := matchOne hm hone
      rcases rec with _ | rec
      · obtain ⟨rfl, -⟩ := Prod.mk.inj (pure_ok.mp h)
        exact fun _ hx => nomatch hx
      · obtain ⟨⟨recs', left'⟩, hrest, h⟩ := bind_ok.mp h
        obtain ⟨rfl, -⟩ := Prod.mk.inj (pure_ok.mp h)
        intro x hx
        rcases List.mem_cons.mp hx with rfl | hx
        · exact hrec x rfl
        · exact fokLoop n hm' hrest x hx

theorem fokExecute : ∀ (recs : List MatchedRecord) {w : World}, (∀ x ∈ recs, x.Within T) →
    fokExecute e r w recs = .ok w' → Acts T e r w w'
  | [], w, _, h => by
    obtain rfl := Except.ok.inj h
    exact Relation.ReflTransGen.refl
  | rec :: recs, w, hrecs, h => by
    obtain ⟨⟨v, x⟩, hv, h⟩ := bind_ok.mp h
    obtain ⟨ht, -⟩ := executeStep (hrecs rec List.mem_cons_self) hv
    exact ht.trans (fokExecute recs (fun y hy => hrecs y (List.mem_cons_of_mem _ hy)) h)

theorem resetLegs :
    ∀ (imps : List Implier) {Ls : List ImpliedLegs}, Matcher.resetLegs w imps = .ok Ls →
    ∀ L ∈ Ls, ∃ i ∈ imps, L.leg1.engine = i.leg1.1 ∧ L.leg2.engine = i.leg2.1
  | [], Ls, h => by
    obtain rfl := Except.ok.inj h
    exact fun _ hL => nomatch hL
  | i :: imps, Ls, h => by
    simp only [Matcher.resetLegs, bind_ok, pure_ok] at h
    obtain ⟨leg1, h1, leg2, h2, Ls', hrest, rfl⟩ := h
    intro L hL
    rcases List.mem_cons.mp hL with rfl | hL
    · exact ⟨i, List.mem_cons_self, reset_engine h1, reset_engine h2⟩
    · obtain ⟨j, hj, he⟩ := resetLegs imps hrest L hL
      exact ⟨j, List.mem_cons_of_mem _ hj, he⟩

/-- A matcher is made of iterators in its engine and in the engines of the legs. -/
theorem reset (hT : T e) (hlegs : ∀ i ∈ (w.conf e).impliers s, T i.leg1.1 ∧ T i.leg2.1)
    (h : Matcher.reset w e s = .ok m) : m.Within T := by
  simp only [Matcher.reset, bind_ok, pure_ok] at h
  obtain ⟨loc, hloc, Ls, hLs, rfl⟩ := h
  refine ⟨reset_engine hloc ▸ hT, fun L hL => ?_⟩
  obtain ⟨i, hi, h1, h2⟩ := resetLegs _ hLs L hL
  rw [h1, h2]
  exact hlegs i hi

/-- An execution logs itself and is a sequence of changes. -/
theorem execute (hT : T e) (hlegs : ∀ i ∈ (w.conf e).impliers s, T i.leg1.1 ∧ T i.leg2.1)
    (h : execute w e s r = .ok w') :
    ∃ o, w.readRef e r = .ok o ∧ Acts T e r (w.logExec e s r o) w' := by
  simp only [Matching.execute, bind_ok] at h
  obtain ⟨o, ho, h⟩ := h
  have hlegs' : ∀ i ∈ ((w.logExec e s r o).conf e).impliers s, T i.leg1.1 ∧ T i.leg2.1 := hlegs
  refine ⟨o, ho, ?_⟩
  split at h
  · simp only [fokMatch, bind_ok] at h
    obtain ⟨m, hm, o', _, ⟨recs, left⟩, hrecs, h⟩ := h
    split at h
    · exact killTaker rfl h
    · exact fokExecute recs (fokLoop _ (reset hT hlegs' hm) hrecs) h
  · simp only [normalMatch, bind_ok] at h
    obtain ⟨m, hm, o', _, ⟨v, b⟩, hv, h⟩ := h
    have hloop := normalLoop _ (reset hT hlegs' hm) hv
    split at h
    · obtain rfl := pure_ok.mp h
      exact hloop
    · exact hloop.trans (residual h)


end Acts

/-! ### What matching leaves alone -/

/-- Whatever books there are, the matching functions keep configuration, locks, auction flags and
    history, hold no report back outside an auction, draw ids upwards, and write the caller's order
    only when it is the taker. -/
structure Keeps (r : Ref) (w w' : World) : Prop where
  conf : ∀ l, w'.conf l = w.conf l
  auction : ∀ l, (w'.engines l).isAuction = (w.engines l).isAuction
  cbRecords : ∀ l, (w.engines l).isAuction = false →
    (w'.engines l).cbRecords = (w.engines l).cbRecords
  locked : w'.locked = w.locked
  execs : w'.execs = w.execs
  nextId : w.nextId ≤ w'.nextId
  arg : r ≠ .arg → w'.arg = w.arg

namespace Keeps

variable {w w' w'' : World} {T : ℕ → Prop} {e : ℕ} {s : Side} {r : Ref}

theorem refl (r : Ref) (w : World) : Keeps r w w :=
  ⟨fun _ => rfl, fun _ => rfl, fun _ _ => rfl, rfl, rfl, le_rfl, fun _ => rfl⟩

theorem trans (h : Keeps r w w') (h' : Keeps r w' w'') : Keeps r w w'' :=
  ⟨fun l => (h'.conf l).trans (h.conf l), fun l => (h'.auction l).trans (h.auction l),
    fun l ha => (h'.cbRecords l ((h.auction l).trans ha)).trans (h.cbRecords l ha),
    h'.locked.trans h.locked,
    h'.execs.trans h.execs, h.nextId.trans h'.nextId, fun hr => (h'.arg hr).trans (h.arg hr)⟩

theorem upd (r : Ref) (w : World) (l : ℕ) (f : Store → Store) : Keeps r w (w.upd l f) :=
  ⟨fun _ => World.conf_upd .., fun _ => World.isAuction_upd .., fun _ _ => World.cbRecords_upd ..,
    rfl, rfl, le_rfl, fun _ => rfl⟩

theorem callback (r : Ref) (w : World) (l : ℕ) (o : Order) : Keeps r w (w.callback l o) := by
  refine ⟨fun _ => World.conf_callback .., fun _ => World.isAuction_callback .., fun l' ha => ?_,
    World.locked_callback .., World.execs_callback .., (World.nextId_callback ..).ge,
    fun _ => World.arg_callback ..⟩
  rw [World.cbRecords_callback, if_neg]
  rintro ⟨rfl, ha'⟩
  exact absurd ha' (by simp [ha])

theorem writeRef (w : World) (l : ℕ) (r : Ref) (o : Order) : Keeps r w (w.writeRef l r o) := by
  refine ⟨fun _ => World.conf_writeRef .., fun _ => World.isAuction_writeRef ..,
    fun _ _ => World.cbRecords_writeRef .., World.locked_writeRef .., World.execs_writeRef ..,
    (World.nextId_writeRef ..).ge, fun hr => ?_⟩
  cases r with
  | arg => exact absurd rfl hr
  | entry id => rfl

theorem bumpId (r : Ref) (w : World) : Keeps r w w.bumpId :=
  ⟨fun _ => rfl, fun _ => rfl, fun _ _ => rfl, rfl, rfl, Nat.le_succ _, fun _ => rfl⟩

theorem act (h : Act T e r w w') : Keeps r w w' := by
  cases h with
  | bump => exact bumpId r w
  | fill => exact (upd r w _ _).trans (callback r _ _ _)
  | unbook => exact upd r w _ _
  | erase => exact upd r w _ _
  | take => exact (writeRef w e r _).trans (callback r _ e _)
  | kill => exact (writeRef w e r _).trans (callback r _ e _)
  | price => exact writeRef w e r _
  | rest => exact upd r w _ _
  | report => exact callback r w e _

theorem acts (h : Acts T e r w w') : Keeps r w w' := by
  induction h with
  | refl => exact refl r w
  | tail _ hact ih => exact ih.trans (act hact)

/-- An execution keeps everything but the history, which gets one entry. -/
theorem execute (h : execute w e s r = .ok w') :
    ∃ o, w.readRef e r = .ok o ∧ Keeps r (w.logExec e s r o) w' := by
  obtain ⟨o, ho, hacts⟩ :=
    Acts.execute (T := fun _ => True) trivial (fun _ _ => ⟨trivial, trivial⟩) h
  exact ⟨o, ho, acts hacts⟩

end Keeps

/-! ### The engines an execution changes -/

/-- Only engines of `T` have other containers in `w'` than in `w`. -/
def Touches (T : ℕ → Prop) (w w' : World) : Prop := ∀ l, ¬T l → w'.store l = w.store l

namespace Touches

theorem upd {l : ℕ} (hT : T l) (w : World) (f : Store → Store) : Touches T w (w.upd l f) := by
  intro l' hl'
  rw [World.store_upd, if_neg]
  rintro rfl
  exact hl' hT

theorem writeRef (hT : T e) (w : World) (r : Ref) (o : Order) : Touches T w (w.writeRef e r o) := by
  cases r with
  | arg => exact fun _ _ => rfl
  | entry id =>
    rw [World.writeRef, World.putOrder_eq]
    exact upd hT w _

theorem report {v : World} {l : ℕ} (h : Touches T w v) (o : Order) :
    Touches T w (v.callback l o) := fun l' hl' =>
  (World.store_callback ..).trans (h l' hl')

theorem act (hT : T e) (h : Act T e r w w') : Touches T w w' := by
  cases h with
  | bump => exact fun _ _ => rfl
  | fill hl => exact (upd hl w _).report _
  | unbook hl => exact upd hl w _
  | erase hl => exact upd hl w _
  | take => exact (writeRef hT w r _).report _
  | kill => exact (writeRef hT w r _).report _
  | price => exact writeRef hT w r _
  | rest => exact upd hT w _
  | report => exact fun _ _ => World.store_callback ..

/-- An execution touches its own engine and the engines of the legs. -/
theorem execute (hT : T e) (hlegs : ∀ i ∈ (w.conf e).impliers s, T i.leg1.1 ∧ T i.leg2.1)
    (h : execute w e s r = .ok w') : Touches T w w' := by
  obtain ⟨o, _, hacts⟩ := Acts.execute hT hlegs h
  change Touches T (w.logExec e s r o) w'
  clear h
  induction hacts with
  | refl => exact fun _ _ => rfl
  | tail _ hact ih => exact fun l hl => (act hT hact l hl).trans (ih l hl)

end Touches
end Matching
