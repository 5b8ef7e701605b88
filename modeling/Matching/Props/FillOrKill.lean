import Matching.Props.ImpliedPrice

/-! Fill-or-kill against good-till-cancel. The two matching functions are run for the same taker in
    the same world, once as `FOK` and once as `GTC`; the worlds they pass through differ in the time
    condition of the taker only (`Twin`), so the steps `fok_match` counts beforehand are those
    `normal_match` would execute. -/

namespace Matching

/-- The same report up to the time condition of a taker. -/
def SameReport (a b : Order) : Prop :=
  b = a ∨ (a.matchedType = .taker ∧ b = { a with timeCondition := .fok })

/-- `w` is `v` with the taker's time condition set to `FOK`. -/
structure Twin (e : ℕ) (r : Ref) (v w : World) : Prop where
  book : ∀ l t, (w.store l).book t = (v.store l).book t
  stops : ∀ l t, (w.store l).stops t = (v.store l).stops t
  find : ∀ l id, ¬(l = e ∧ r = .entry id) →
    (w.store l).odrMap.find? id = (v.store l).odrMap.find? id
  conf : ∀ l, w.conf l = v.conf l
  nextId : w.nextId = v.nextId
  auction : ∀ l, (w.engines l).isAuction = (v.engines l).isAuction
  reports : List.Forall₂ (fun a b => a.1 = b.1 ∧ SameReport a.2 b.2) v.reports w.reports
  cbRecords : ∀ l, List.Forall₂ SameReport (v.engines l).cbRecords (w.engines l).cbRecords
  taker : ∃ o, v.readRef e r = .ok o ∧ w.readRef e r = .ok { o with timeCondition := .fok }

namespace Twin

variable {v w v' : World} {l e : ℕ} {s t : Side} {r : Ref} {m o n n' : Order} {q : ℕ} {p : ℤ}

theorem sameReport_refl (a : Order) : SameReport a a := Or.inl rfl

theorem callback_reports (h : Twin e r v w) (hs : SameReport n n') :
    List.Forall₂ (fun a b => a.1 = b.1 ∧ SameReport a.2 b.2) (v.callback l n).reports
      (w.callback l n').reports := by
  rw [World.reports_callback_eq, World.reports_callback_eq, h.auction]
  split_ifs
  · exact h.reports
  · exact List.rel_append h.reports (List.Forall₂.cons ⟨rfl, hs⟩ List.Forall₂.nil)

theorem callback_cbRecords (h : Twin e r v w) (hs : SameReport n n') (l' : ℕ) :
    List.Forall₂ SameReport ((v.callback l n).engines l').cbRecords
      ((w.callback l n').engines l').cbRecords := by
  rw [World.cbRecords_callback, World.cbRecords_callback, h.auction]
  split_ifs with hc
  · exact List.rel_append (h.cbRecords l) (List.Forall₂.cons hs List.Forall₂.nil)
  · exact h.cbRecords l'

theorem bumpId (h : Twin e r v w) : Twin e r v.bumpId w.bumpId :=
  ⟨h.book, h.stops, h.find, h.conf, congrArg (· + 1) h.nextId, h.auction, h.reports, h.cbRecords, by
    obtain ⟨o, ho, ho'⟩ := h.taker
    exact ⟨o, by cases r <;> exact ho, by cases r <;> exact ho'⟩⟩

theorem offBook (h : Twin e r v w) (hoff : OffBook v e r) : OffBook w e r := by
  intro id hr t
  rw [h.book]
  exact hoff id hr t

theorem find_book (h : Twin e r v w) (hoff : OffBook v e r) {id : ℕ}
    (hid : id ∈ ((v.store l).book t).ids) :
    (w.store l).odrMap.find? id = (v.store l).odrMap.find? id := by
  refine h.find l id ?_
  rintro ⟨rfl, hr⟩
  exact hoff id hr t hid

theorem front (h : Twin e r v w) (hoff : OffBook v e r) (hm : Front v l t m) : Front w l t m := by
  obtain ⟨is, b, hb⟩ := hm.book
  refine ⟨⟨is, b, (h.book l t).trans hb⟩, ?_, hm.remain, hm.limit⟩
  rw [h.find_book hoff hm.at_book.mem_ids, hm.find]

theorem front_eq (h : Twin e r v w) (hoff : OffBook v e r) (l : ℕ) (t : Side) :
    w.front l t = v.front l t := by
  simp only [World.front, World.cursor, h.book]
  rcases hb : (v.store l).book t with _ | ⟨⟨p, _ | ⟨j, js⟩⟩, bs⟩
  · rfl
  · rfl
  · have hj : j ∈ ((v.store l).book t).ids := by rw [hb]; simp
    simp only [h.find_book hoff hj]

theorem resolves (h : Twin e r v w) (hoff : OffBook v e r) (hr : Resolves v l t) :
    Resolves w l t := by
  rcases hr with hb | ⟨m, hm⟩
  · exact Or.inl ((h.book l t).trans hb)
  · exact Or.inr ⟨m, h.front hoff hm⟩

theorem ready (h : Twin e r v w) (hv : Ready v e s r) : Ready w e s r := by
  refine ⟨fun l => (hv.ok l).congr (h.book l) (fun t j hj => h.find_book hv.off hj),
    h.offBook hv.off, ⟨?_, ?_⟩, ⟨h.resolves hv.off hv.fronts.own, fun x hx => ?_⟩⟩
  · rw [h.conf]; exact hv.legs.nodup
  · rw [h.conf]; exact hv.legs.outside
  · rw [h.conf] at hx
    exact h.resolves hv.off (hv.fronts.src x hx)

/-- The time condition plays no part in choosing the next step. -/
theorem nextRec_eq (h : Twin e r v w) (hoff : OffBook v e r) (o : Order) :
    w.nextRec e s { o with timeCondition := .fok } = v.nextRec e s o := by
  have hown : w.ownPrice e s = v.ownPrice e s := by simp only [World.ownPrice, h.book]
  have hmatch : w.matcher e s = v.matcher e s := by
    simp only [World.matcher, h.conf, h.front_eq hoff]
  have hoffer : w.offer e s = v.offer e s := by simp only [World.offer, hmatch, hown, h.conf]
  simp only [World.nextRec, hoffer, h.front_eq hoff, h.conf]

theorem fillMaker (h : Twin e r v w) (hoff : OffBook v e r) (hm : Front v l t m)
    (hid : n.orderId = m.orderId) :
    Twin e r (v.fillMaker l t n) (w.fillMaker l t n) := by
  refine ⟨fun l' t' => ?_, fun l' t' => by simp [h.stops], fun l' id hne => ?_,
    fun l' => by simp [h.conf], by simp [h.nextId], fun l' => by simp [h.auction], ?_,
    fun l' => ?_, ?_⟩
  · rw [World.book_fillMaker, World.book_fillMaker, h.book, h.book]
  · rw [World.find_fillMaker, World.find_fillMaker, h.find l' id hne]
  · rw [World.reports_fillMaker, World.reports_fillMaker]
    exact h.callback_reports (sameReport_refl n)
  · rw [World.cbRecords_fillMaker, World.cbRecords_fillMaker]
    exact h.callback_cbRecords (sameReport_refl n) l'
  · rw [World.readRef_fillMaker hoff hm hid,
      World.readRef_fillMaker (h.offBook hoff) (h.front hoff hm) hid]
    exact h.taker

theorem fillTaker (h : Twin e r v w) (hn : n.matchedType = .taker)
    (hn' : n' = { n with timeCondition := .fok }) :
    Twin e r (v.fillTaker e r n) (w.fillTaker e r n') := by
  have hs : SameReport n n' := Or.inr ⟨hn, hn'⟩
  refine ⟨fun l' t' => by simp [h.book], fun l' t' => by simp [h.stops], fun l' id hne => ?_,
    fun l' => by simp [h.conf], by simp [h.nextId], fun l' => by simp [h.auction], ?_,
    fun l' => ?_, ?_⟩
  · rw [World.find_fillTaker, World.find_fillTaker, if_neg hne, if_neg hne, h.find l' id hne]
  · rw [World.reports_fillTaker, World.reports_fillTaker]
    exact h.callback_reports hs
  · rw [World.cbRecords_fillTaker, World.cbRecords_fillTaker]
    exact h.callback_cbRecords hs l'
  · exact ⟨n, World.readRef_fillTaker .., hn' ▸ World.readRef_fillTaker ..⟩

/-- A step of one twin is a step of the other. -/
theorem step {v1 : World} {rec : MatchedRecord} {x : Iter × Option Iter} (h : Twin e r v w)
    (hv : Ready v e s r) (ho : v.readRef e r = .ok o) (hrec : v.nextRec e s o = some rec)
    (hstep : executeStep v e r rec = .ok (v1, x)) :
    ∃ w1 y, executeStep w e r rec = .ok (w1, y) ∧ Twin e r v1 w1 := by
  have hw := h.ready hv
  obtain ⟨o₀, ho₀, ho'⟩ := h.taker
  obtain rfl := Except.ok.inj (ho₀.symm.trans ho)
  obtain ⟨_, _, _, ⟨m, hm, hoffer, rfl⟩ | ⟨k, i, m1, m2, hi, hm1, hm2, hsrc, hq, rfl⟩⟩ :=
    World.nextRec_cases hv.fronts hrec
  · obtain ⟨rfl, _, hf1⟩ := executeStep_local_ok hv hm ho hstep
    set q := min m.remainQuantity o₀.remainQuantity
    have htwin : Twin e r (v.fillLocal e s r m o₀ m.price q)
        (w.fillLocal e s r m { o₀ with timeCondition := .fok } m.price q) := by
      rw [World.fillLocal, World.fillLocal, h.nextId]
      exact Twin.fillTaker (h.bumpId.fillMaker (v := v.bumpId) hv.off hm.bumpId rfl) rfl rfl
    have hex := executeStep_local (p := m.price) (q := q) hw.ok hw.off (h.front hv.off hm) ho'
    have hres := htwin.resolves (World.offBook_fillLocal hv.ok hv.off hm) hf1.loc
    rw [h.front_eq hv.off, Iter.reset_eq hres] at hex
    exact ⟨_, _, hex, htwin⟩
  · have hmem : i ∈ (v.conf e).impliers s := List.mem_of_getElem? hi
    have hne := hv.legs.leg_ne hmem
    obtain ⟨rfl, _, hf1⟩ := executeStep_implied_ok hv hmem hm1 hm2 ho hstep
    set q := min (min m1.remainQuantity m2.remainQuantity) o₀.remainQuantity
    have htwin : Twin e r (v.fillImplied e r i m1 m2 o₀ (v.offer e s).price q)
        (w.fillImplied e r i m1 m2 { o₀ with timeCondition := .fok } (v.offer e s).price q) := by
      rw [World.fillImplied, World.fillImplied, World.fillLeg1, World.fillLeg1, h.nextId]
      have h1 := h.bumpId.fillMaker (v := v.bumpId)
        (n := engineMakerMatch m1 v.nextId q o₀.orderId m2.orderId) hv.off hm1.bumpId rfl
      exact Twin.fillTaker
        (h1.fillMaker (World.offBook_fillLeg1 hv.ok hv.off hm1) (hm1.fillLeg1 hv.ok hne hm2) rfl)
        rfl rfl
    have hex := executeStep_implied (p := (v.offer e s).price) (q := q) hw.ok hw.off hne
      (h.front hv.off hm1) (h.front hv.off hm2) ho'
    have hoff1 :=
      World.offBook_fillImplied (o := o₀) (p := (v.offer e s).price) (q := q)
        hv.ok hv.off hne hm1 hm2
    obtain ⟨hr1, hr2⟩ := hf1.leg (i := i) (by rw [World.conf_fillImplied]; exact hmem)
    rw [h.front_eq hv.off, h.front_eq hv.off, Iter.reset_eq (htwin.resolves hoff1 hr1),
      Iter.reset_eq (htwin.resolves hoff1 hr2)] at hex
    exact ⟨_, _, hex, htwin⟩

/-- A walk of one twin is a walk of the other. -/
theorem walk {recs : List MatchedRecord} (hwalk : Walk e s r v recs v') :
    ∀ {w}, Twin e r v w → Ready v e s r → ∃ w', Walk e s r w recs w' ∧ Twin e r v' w' := by
  induction hwalk with
  | nil v => exact fun h _ => ⟨_, Walk.nil _, h⟩
  | cons ho hrec hstep _ ih =>
    intro w h hv
    obtain ⟨w1, y, hstep', h1⟩ := h.step hv ho hrec hstep
    obtain ⟨w', hwalk', htwin⟩ := ih h1 (World.nextRec_fill hv ho hrec hstep).2.1
    obtain ⟨o₀, ho₀, ho'⟩ := h.taker
    obtain rfl := Except.ok.inj (ho₀.symm.trans ho)
    exact ⟨w', Walk.cons ho' ((h.nextRec_eq hv.off _).trans hrec) hstep' hwalk', htwin⟩

/-- The two starts: one world, one taker, two time conditions. -/
theorem start (w : World) (e : ℕ) (r : Ref) (o : Order) :
    Twin e r (w.writeRef e r { o with timeCondition := .gtc })
      (w.writeRef e r { o with timeCondition := .fok }) := by
  refine ⟨fun l t => by simp, fun l t => by simp, fun l id hne => ?_, fun l => by simp, by simp,
    fun l => by simp, ?_, fun l => ?_, ⟨_, World.readRef_writeRef .., World.readRef_writeRef ..⟩⟩
  · rw [World.find_writeRef, World.find_writeRef, if_neg hne, if_neg hne]
  · simp only [World.reports_writeRef]
    exact List.forall₂_same.mpr (fun x _ => ⟨rfl, sameReport_refl _⟩)
  · simp only [World.cbRecords_writeRef]
    exact List.forall₂_same.mpr (fun x _ => sameReport_refl _)

end Twin

variable {w : World} {e : ℕ} {s : Side} {r : Ref} {o : Order}

theorem Setup.writeRef (h : Setup w e s r) (o : Order) : Setup (w.writeRef e r o) e s r := by
  refine ⟨fun l => World.booksOk_writeRef (h.ok l) h.off, fun id hr t => ?_, ?_, ?_⟩
  · rw [World.book_writeRef]; exact h.off id hr t
  · rw [World.conf_writeRef]; exact h.legs.nodup
  · rw [World.conf_writeRef]; exact h.legs.outside

/-- How the `FOK` run of the taker `o` (ending in `wF`) compares with its `GTC` run (ending in `wG`,
    with the taker as `oG`). -/
structure FokAgrees (w : World) (e : ℕ) (r : Ref) (o : Order) (wG : World) (oG : Order)
    (wF : World) : Prop where
  /-- Filled under `GTC`: the same reports, up to the time condition they carry, the same
      books and the same orders. -/
  filled : oG.remainQuantity = 0 →
    List.Forall₂ (fun a b => a.1 = b.1 ∧ SameReport a.2 b.2) wG.reports wF.reports ∧
    (∀ l, List.Forall₂ SameReport (wG.engines l).cbRecords (wF.engines l).cbRecords) ∧
    (∀ l t, (wF.store l).book t = (wG.store l).book t ∧
      (wF.store l).stops t = (wG.store l).stops t) ∧
    (∀ l id, ¬(l = e ∧ r = .entry id) →
      (wF.store l).odrMap.find? id = (wG.store l).odrMap.find? id) ∧
    wF.readRef e r = .ok { oG with timeCondition := .fok }
  /-- Not filled under `GTC`: one report of the whole quantity, and only the taker is touched. -/
  unfilled : oG.remainQuantity ≠ 0 → ∃ c : Order,
    c = { o with timeCondition := .fok, orderState := .canceledByFok } ∧
      c.remainQuantity = c.quantity ∧
    wF = (w.writeRef e r c).callback e c ∧
    (∀ l t, (wF.store l).book t = (w.store l).book t ∧ (wF.store l).stops t = (w.store l).stops t) ∧
    (∀ l id, ¬(l = e ∧ r = .entry id) → (wF.store l).odrMap.find? id = (w.store l).odrMap.find? id)

/-- From every state whose books are in order, with any impliers whose legs are pairwise different
    books of other engines, and for every taker outside the books, both runs return and agree. -/
theorem fok_is_gtc_or_nothing (w : World) (e : ℕ) (s : Side) (r : Ref) (tick : ℤ) (o : Order)
    (hok : ∀ l, BooksOk (w.store l)) (hlive : ∀ l, (w.store l).Live) (hlegs : LegsApart w e s)
    (hoff : OffBook w e r) (hq : o.remainQuantity = o.quantity) (hpos : 0 < o.quantity) :
    ∃ wG oG wF,
      normalMatch (w.writeRef e r { o with timeCondition := .gtc }) e s r tick = .ok wG ∧
      wG.readRef e r = .ok oG ∧
      fokMatch (w.writeRef e r { o with timeCondition := .fok }) e s r = .ok wF ∧
      FokAgrees w e r o wG oG wF := by
  have hs : Setup w e s r := ⟨hok, hoff, hlegs⟩
  have hn0 : o.remainQuantity ≠ 0 := by omega
  have hlive' : ∀ o', (w.writeRef e r o').Live := fun o' => World.live_writeRef hlive hoff
  obtain ⟨recs, v1, o1, wG, hnm, hv, hwalk, ho1, hout, _⟩ | ⟨_, hl⟩ :=
    normalMatch_cases (hs.writeRef { o with timeCondition := .gtc }) (World.readRef_writeRef ..) hn0
      (by simp) tick
  swap
  · exact absurd (hlive' _) hl
  obtain ⟨o1', ho1', hfill⟩ := hwalk.taker hv (World.readRef_writeRef ..)
  obtain rfl := Except.ok.inj (ho1'.symm.trans ho1)
  have htc := hfill.timeCondition
  have hstuck := hout.stuck (hwalk.ready hv).fronts (by simp [Order.MakerOnly, htc]) (by simp [htc])
  obtain ⟨oG, hoG, hrem⟩ := hout.taker ho1
  -- the same walk with the other time condition is the one `fok_match` finds
  obtain ⟨w1, hwalkF, htwin⟩ := Twin.walk hwalk (Twin.start w e r o) hv
  obtain ⟨o₁, ho₁, hoF⟩ := htwin.taker
  obtain rfl := Except.ok.inj (ho₁.symm.trans ho1)
  have hstuckF := (htwin.nextRec_eq (hwalk.ready hv).off o₁).trans hstuck
  obtain ⟨recs', w1', o2, _, hwalk', ho2, hnone, hfok⟩ | ⟨_, hl⟩ :=
    fokMatch_cases (hs.writeRef { o with timeCondition := .fok }) (World.readRef_writeRef ..) hn0
  swap
  · exact absurd (hlive' _) hl
  obtain ⟨rfl, rfl⟩ := hwalkF.unique hoF hstuckF hwalk' ho2 hnone
  obtain rfl := Except.ok.inj (hoF.symm.trans ho2)
  refine ⟨wG, oG, _, hnm, hoG, hfok, ⟨fun h0 => ?_, fun h0 => ?_⟩⟩
  · have h0' : o₁.remainQuantity = 0 := hrem ▸ h0
    rw [if_pos h0']
    cases hout with
    | filled =>
      obtain rfl := Except.ok.inj (hoG.symm.trans ho1)
      exact ⟨htwin.reports, htwin.cbRecords, fun l t => ⟨htwin.book l t, htwin.stops l t⟩,
        htwin.find, hoF⟩
    | killed h => exact absurd h0' h
    | nothing h => exact absurd h0' h
    | rested h => exact absurd h0' h
  · rw [if_neg (fun h => h0 (hrem.trans h))]
    refine ⟨_, rfl, hq, ?_, fun l t => by simp, fun l id hne => ?_⟩
    · rw [World.kill, World.writeRef_writeRef]
    · rw [World.find_kill, World.find_writeRef, if_neg hne, if_neg hne]

/-- Sellers in the legs of an implier of engine 0, whose orders together sell at 100, and
    two of engine 0 itself. -/
def legSellers : List (ℕ × Side × Order) :=
  [(1, .sell, .resting 5 .sell 50 2), (2, .sell, .resting 6 .sell 50 3),
    (0, .sell, .resting 7 .sell 101 4), (0, .sell, .resting 8 .sell 100 1)]

def legAsks : World := sumLegs.rests legSellers

/-- A buyer of a part of what there is up to 101. -/
def legBuy : Order :=
  { Order.default with price := 101, quantity := 5, remainQuantity := 5, orderId := 9 }

/-- The buyer is filled by the order at 100, then by the two legs, then by the order at 101, and as
    fill-or-kill alike. -/
theorem fok_is_gtc_or_nothing_legAsks : ∃ wG oG wF,
    normalMatch (legAsks.writeRef 0 .arg { legBuy with timeCondition := .gtc }) 0 .buy .arg
      (-1) = .ok wG ∧
    wG.readRef 0 .arg = .ok oG ∧
    fokMatch (legAsks.writeRef 0 .arg { legBuy with timeCondition := .fok }) 0 .buy .arg = .ok wF ∧
    FokAgrees legAsks 0 .arg legBuy wG oG wF ∧ oG.remainQuantity = 0 ∧
    (wF.reports.drop legAsks.reports.length).map
      (fun x => (x.1, x.2.orderId, x.2.lastMatchPrice, x.2.lastMatchQuantity)) =
      [(0, 8, 100, 1), (0, 9, 100, 1), (1, 5, 50, 2), (2, 6, 50, 2), (0, 9, 100, 2), (0, 7, 101, 2),
        (0, 9, 101, 2)] := by
  obtain ⟨hok, hlive, hconf⟩ :=
    World.rests_ok legSellers (by decide +kernel) sumLegs_ok.1 sumLegs_ok.2
  have hlegs : LegsApart legAsks 0 .buy := by
    have hconf' : (legAsks.conf 0).legs .buy = [(1, .buy), (2, .buy)] := by rw [legAsks, hconf]; rfl
    exact ⟨by rw [hconf']; decide, by rw [hconf']; decide⟩
  obtain ⟨wG, oG, wF, hG, hoG, hF, hagrees⟩ :=
    fok_is_gtc_or_nothing legAsks 0 .buy .arg (-1) legBuy hok hlive hlegs (OffBook.arg _ _) rfl
      (by decide)
  refine ⟨wG, oG, wF, hG, hoG, hF, hagrees, ?_, ?_⟩
  · have hrem : ((normalMatch (legAsks.writeRef 0 .arg { legBuy with timeCondition := .gtc }) 0
        .buy .arg (-1)).bind fun w => w.readRef 0 .arg).map Order.remainQuantity = .ok 0 := by
      decide +kernel
    rw [hG] at hrem
    change (wG.readRef 0 .arg).map Order.remainQuantity = .ok 0 at hrem
    rw [hoG] at hrem
    exact Except.ok.inj hrem
  · have hreports :
        (fokMatch (legAsks.writeRef 0 .arg { legBuy with timeCondition := .fok }) 0 .buy .arg).map
          (fun w => (w.reports.drop legAsks.reports.length).map
            (fun x => (x.1, x.2.orderId, x.2.lastMatchPrice, x.2.lastMatchQuantity))) =
          .ok [(0, 8, 100, 1), (0, 9, 100, 1), (1, 5, 50, 2), (2, 6, 50, 2), (0, 9, 100, 2),
            (0, 7, 101, 2), (0, 9, 101, 2)] := by
      decide +kernel
    rw [hF] at hreports
    exact Except.ok.inj hreports

end Matching
