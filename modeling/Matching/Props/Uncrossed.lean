import Matching.Engine.Every
import Matching.Engine.Reference

/-! The books of an engine without impliers never cross. An order comes to rest only behind a walk
    that has drained the opposite book down to its limit, one tick short of the best opposite price,
    or at the best price of its own side; between any two small steps every bid is below every ask.
    For a repriced order this needs that one tick from every level is still a price, which holds of
    all levels if it holds of the limits the requests bring. -/

namespace Matching

/-- One tick up and one tick down from the price are prices. -/
def Roomy (tick p : ℤ) : Prop := -2 ^ 63 ≤ p - tick ∧ p + tick < 2 ^ 63

instance (tick p : ℤ) : Decidable (Roomy tick p) := inferInstanceAs (Decidable (_ ∧ _))

/-- The limit under which the order trades has room for a tick, or it is none. -/
structure Order.Bounded (tick : ℤ) (q : Order) : Prop where
  plain : ∀ s : Side, q.side = s.plain → q.price = marketPrice ∨ Roomy tick q.price
  stop : ∀ s : Side, q.side = s.stop → q.stopLimit s = marketPrice ∨ Roomy tick (q.stopLimit s)

instance (tick : ℤ) (q : Order) : Decidable (q.Bounded tick) :=
  decidable_of_iff
    (∀ s ∈ [Side.buy, .sell], (q.side = s.plain → q.price = marketPrice ∨ Roomy tick q.price) ∧
    (q.side = s.stop → q.stopLimit s = marketPrice ∨ Roomy tick (q.stopLimit s)))
    ⟨fun h => ⟨fun s => (h s (by cases s <;> simp)).1, fun s => (h s (by cases s <;> simp)).2⟩,
      fun h s _ => ⟨h.plain s, h.stop s⟩⟩

/-- The price, and the one a taker of side `s` goes back to in front of it, are prices. -/
def Side.Fits (s : Side) (tick p : ℤ) : Prop :=
  match s with
  | .buy => -2 ^ 63 ≤ p - tick ∧ p < 2 ^ 63
  | .sell => -2 ^ 63 ≤ p ∧ p + tick < 2 ^ 63

/-- No order of one side meets a price of the other. -/
structure Store.Uncrossed (tick : ℤ) (g : Store) : Prop where
  apart : ∀ {s p p' i j}, (g.book s.opp).At p i → (g.book s).At p' j → s.cmp p p' = true
  room : ∀ {s p i}, (g.book s).At p i → s.Fits tick p

/-- The same of every engine of the process, set up as `c` says. -/
structure World.Uncrossed (c : ℕ → Config) (w : World) : Prop where
  conf : ∀ l, w.conf l = c l
  store : ∀ l, (w.store l).Uncrossed (c l).miniTick

/-- A stop has a bounded limit. -/
def Order.Limited (c : ℕ → Config) (l _id : ℕ) (o : Order) : Prop :=
  ∀ s : Side, o.side = s.stop → o.stopLimit s = marketPrice ∨ Roomy (c l).miniTick (o.stopLimit s)

variable {c : ℕ → Config} {T : ℕ → Terms → Prop} {w w' : World} {g g' : Store} {n e l id : ℕ}
  {s : Side} {r : Ref}
  {hs : List Held} {m o q : Order} {tick p : ℤ}

theorem Side.cmp_opp (s : Side) (a b : ℤ) : s.opp.cmp a b = s.cmp b a := by cases s <;> rfl

theorem Roomy.fits (h : Roomy tick p) (ht : 0 < tick) (s : Side) : s.Fits tick p := by
  obtain ⟨hlo, hhi⟩ := h
  cases s <;> constructor <;> omega

/-! ### Stores -/

namespace Store.Uncrossed

/-- Entries may leave the books. -/
theorem mono (h : g.Uncrossed tick) (hsub : ∀ {s p i}, (g'.book s).At p i → (g.book s).At p i) :
    g'.Uncrossed tick :=
  ⟨fun hp hp' => h.apart (hsub hp) (hsub hp'), fun hp => h.room (hsub hp)⟩

/-- An order comes to rest short of the opposite book. -/
theorem rest (h : g.Uncrossed tick) (hp : ∀ {p' j}, (g.book s).At p' j → s.cmp p p' = true)
    (hfit : s.opp.Fits tick p) (hbook : ∀ t, g'.book t =
      if t = s.opp then (g.book s.opp).insert s.opp.cmp p id else g.book t) :
    g'.Uncrossed tick := by
  have hown : ∀ {p' j}, (g'.book s.opp).At p' j → p' = p ∨ (g.book s.opp).At p' j := fun hat => by
    rw [hbook, if_pos rfl, Ladder.at_insert] at hat
    exact hat.imp And.left fun hold => hold
  have hopp : g'.book s = g.book s := by rw [hbook, if_neg (Side.ne_opp s)]
  have hcross : ∀ {p1 p2 i j}, (g'.book s.opp).At p1 i → (g'.book s).At p2 j →
      s.cmp p1 p2 = true := fun hat1 hat2 => by
    rw [hopp] at hat2
    rcases hown hat1 with rfl | hold
    · exact hp hat2
    · exact h.apart hold hat2
  refine ⟨fun {t p1 p2 i j} hat1 hat2 => ?_, fun {t p1 i} hat => ?_⟩
  · by_cases ht : t = s
    · subst ht
      exact hcross hat1 hat2
    · obtain rfl := Side.eq_opp_of_ne ht
      rw [Side.opp_opp] at hat1
      rw [Side.cmp_opp]
      exact hcross hat2 hat1
  · by_cases ht : t = s
    · rw [ht, hopp] at hat
      exact ht ▸ h.room hat
    · obtain rfl := Side.eq_opp_of_ne ht
      rcases hown hat with rfl | hold
      · exact hfit
      · exact h.room hold

end Store.Uncrossed

/-! ### Where an order comes to rest -/

/-- Nothing in a book is better than its front. -/
theorem Front.le_of_at (hok : w.Ok) (hm : Front w l s m) (hat : ((w.store l).book s).At p id) :
    p = m.price ∨ s.cmp m.price p = true := by
  obtain ⟨is, b, hb⟩ := hm.book
  have hwf := (hok l).wf s
  rw [hb] at hat hwf
  rcases (Ladder.at_cons ..).mp hat with ⟨rfl, -⟩ | hrest
  · exact .inl rfl
  · exact .inr (hwf.lt_of_at hrest)

theorem Front.cmp_of_at {p' : ℤ} (hok : w.Ok) (hm : Front w l s m) (hp : s.cmp p m.price = true)
    (hat : ((w.store l).book s).At p' id) : s.cmp p p' = true := by
  rcases hm.le_of_at hok hat with rfl | hlt
  · exact hp
  · exact StrictLt.trans hp hlt

/-- The best price of the own side is one of its prices. -/
theorem World.best_at (hok : w.Ok) (hi : (w.conf e).impliers s.opp = [])
    (hb : w.best e s.opp ≠ marketPrice) :
    ∃ i, ((w.store e).book s.opp).At (w.best e s.opp) i := by
  have hwf := (hok e).wf s.opp
  rw [World.best_of_no_impliers hi] at hb ⊢
  unfold Store.ownBest at hb ⊢
  rcases hbook : (w.store e).book s.opp with _ | ⟨⟨p, _ | ⟨i, is⟩⟩, b⟩
  · simp [hbook] at hb
  · rw [hbook] at hwf
    exact absurd rfl (hwf.full _ List.mem_cons_self)
  · exact ⟨i, (Ladder.at_cons ..).mpr (.inl ⟨rfl, List.mem_cons_self⟩)⟩

/-- One tick in front of a level. -/
theorem Side.Fits.reprice (h : s.Fits tick p) (ht : 0 < tick) :
    s.cmp (toI64 (p + s.tick tick)) p = true ∧ s.opp.Fits tick (toI64 (p + s.tick tick)) := by
  have hi64 : ∀ x : ℤ, -2 ^ 63 ≤ x → x < 2 ^ 63 → toI64 x = x :=
    fun x hlo hhi => Int.bmod_eq_of_le (by omega) (by omega)
  cases s with
  | buy =>
    obtain ⟨hlo, hhi⟩ := h
    have hp : toI64 (p + Side.tick .buy tick) = p - tick := by
      have hsub : p + tick * -1 = p - tick := by omega
      rw [Side.tick, toI64, toI64, Int.add_bmod_bmod, hsub]
      exact hi64 _ hlo (by omega)
    rw [hp]
    exact ⟨by simp only [Side.cmp, decide_eq_true_eq]; omega, hlo, by omega⟩
  | sell =>
    obtain ⟨hlo, hhi⟩ := h
    have hp : toI64 (p + Side.tick .sell tick) = p + tick :=
      hi64 _ (by simp only [Side.tick]; omega) hhi
    rw [hp]
    exact ⟨by simp only [Side.cmp, decide_eq_true_eq]; omega, by omega, hhi⟩

/-- A residual rests short of every price of the opposite book. -/
theorem RestsAt.short (h : RestsAt w e s o (s.tick tick) p) (hw : Ready w e s r)
    (hi : ∀ t, (w.conf e).impliers t = []) (hu : (w.store e).Uncrossed tick) (ht : 0 < tick)
    (h0 : o.remainQuantity ≠ 0) (hlim : o.price = marketPrice ∨ Roomy tick o.price) :
    (∀ {p' j}, ((w.store e).book s).At p' j → s.cmp p p' = true) ∧ s.opp.Fits tick p := by
  have hown : w.best e s.opp ≠ marketPrice →
      (∀ {p' j}, ((w.store e).book s).At p' j → s.cmp (w.best e s.opp) p' = true) ∧
        s.opp.Fits tick (w.best e s.opp) := fun hb => by
    obtain ⟨i, hat⟩ := World.best_at hw.ok (hi s.opp) hb
    exact ⟨fun hat' => hu.apart hat hat', hu.room hat⟩
  have hoffer := World.offer_of_no_impliers (hi s)
  have hfront : w.nextRec e s o ≠ none →
      ∃ m, Front w e s m ∧ (w.offer e s).price = m.price := fun hn => by
    obtain ⟨-, hp⟩ := not_or.mp (mt (World.nextRec_eq_none hw.fronts).mpr hn)
    rcases hw.fronts.loc.cursor_cases with ⟨hc, -⟩ | ⟨m, hm⟩
    · exact absurd (.inl (by rw [hoffer, hc]; rfl)) hp
    · exact ⟨m, hm, by rw [hoffer, hm.cursor]; rfl⟩
  cases h with
  | limit _ hn hp =>
    refine ⟨fun {p' j} hat => ?_, (hlim.resolve_left hp).fits ht _⟩
    rcases hw.fronts.loc.cursor_cases with ⟨-, hnil⟩ | ⟨m, hm⟩
    · rw [hnil] at hat
      exact absurd hat (by simp)
    · rw [World.nextRec_eq_none hw.fronts, hoffer, hm.cursor] at hn
      rcases hn with hz | hz | hz
      · exact absurd hz h0
      · exact absurd hz hm.limit
      · exact hm.cmp_of_at hw.ok hz.2 hat
  | market _ _ _ hb => exact hown hb
  | reprice _ hn =>
    obtain ⟨m, hm, hprice⟩ := hfront hn
    rw [hprice]
    obtain ⟨hcmp, hfits⟩ := (hu.room hm.at_book).reprice ht
    exact ⟨hm.cmp_of_at hw.ok hcmp, hfits⟩
  | repriceMarket _ _ _ hb => exact hown hb

/-! ### Executions -/

namespace World.Uncrossed

theorem congr (h : w.Uncrossed c) (hst : ∀ l, w'.store l = w.store l)
    (hc : ∀ l, w'.conf l = w.conf l) : w'.Uncrossed c :=
  ⟨fun l => (hc l).trans (h.conf l), fun l => by rw [hst]; exact h.store l⟩

/-- Entries may leave the books. -/
theorem mono (h : w.Uncrossed c)
    (hsub : ∀ {l s p i}, ((w'.store l).book s).At p i → ((w.store l).book s).At p i)
    (hc : ∀ l, w'.conf l = w.conf l) : w'.Uncrossed c :=
  ⟨fun l => (hc l).trans (h.conf l), fun l => (h.store l).mono hsub⟩

end World.Uncrossed

theorem Fill.uncrossed (hw : Ready w e s r) (h : Fill e s r w w') (hu : w.Uncrossed c) :
    w'.Uncrossed c := by
  refine h.induct (P := fun v => v.Uncrossed c) hw (fun hv => hv.congr (fun _ => rfl) fun _ => rfl)
    (fun {v l t m mid q a b} hok _ hm _ _ hv => ?_) (fun _ _ _ _ hv => ?_) hu
  · refine hv.mono (fun {l' s' p i} hat => ?_) fun l' => World.conf_fillMaker ..
    rw [World.book_fillMaker] at hat
    split_ifs at hat with hc
    · obtain ⟨is, rest, hb⟩ := hm.book
      obtain ⟨rfl, hts, -⟩ := hc
      rw [hts]
      exact (((hok _).at_pop hb).mp hat).1
    · exact hat
  · exact hv.mono (fun hat => by rwa [World.book_fillTaker] at hat) fun l' =>
      World.conf_fillTaker ..

theorem Outcome.uncrossed (hw : Ready w e s r) (h : Outcome w e s r o (s.tick (c e).miniTick) w')
    (hi : ∀ t, (c e).impliers t = []) (ht : 0 < (c e).miniTick)
    (hlim : o.price = marketPrice ∨ Roomy (c e).miniTick o.price) (hu : w.Uncrossed c) :
    w'.Uncrossed c := by
  cases h with
  | filled => exact hu
  | killed => exact hu.mono (fun hat => by rwa [World.book_kill] at hat) fun l => World.conf_kill ..
  | nothing =>
    exact hu.mono (fun hat => by rwa [World.book_kill] at hat) fun l => World.conf_kill ..
  | @rested p h0 hp =>
    obtain ⟨hshort, hfit⟩ := hp.short hw (by rw [hu.conf]; exact hi) (hu.store e) ht h0 hlim
    refine ⟨fun l => by rw [World.conf_rest]; exact hu.conf l, fun l => ?_⟩
    by_cases hl : l = e
    · subst hl
      have hbook : ∀ t, ((w.rest l s r { o with price := p }).store l).book t =
          if t = s.opp then ((w.store l).book s.opp).insert s.opp.cmp p o.orderId
          else (w.store l).book t := fun t => by
        rw [World.book_rest]
        simp
      exact (hu.store l).rest hshort hfit hbook
    · rw [World.store_rest_ne hl]
      exact hu.store l

theorem execute_uncrossed (hs : Setup w e s r) (ho : w.readRef e r = .ok o)
    (h0 : o.remainQuantity ≠ 0) (hi : ∀ t, (c e).impliers t = []) (ht : 0 < (c e).miniTick)
    (hlim : o.price = marketPrice ∨ Roomy (c e).miniTick o.price) (hu : w.Uncrossed c)
    (h : execute w e s r = .ok w') : w'.Uncrossed c := by
  rcases execute_cases hs ho h0 with ⟨recs, w1, o1, v, hex, hw, hwalk, ho1, hout, -⟩ | ⟨hub, -⟩
  · obtain rfl := Except.ok.inj (hex.symm.trans h)
    have hread : (w.logExec e s r o).readRef e r = .ok o := by rw [World.readRef_logExec, ho]
    have hu1 : w1.Uncrossed c :=
      hwalk.induct (P := fun v => v.Uncrossed c) (fun hv _ hf hx => hf.uncrossed hv hx) hw
      (hu.congr (fun _ => rfl) fun _ => rfl)
    obtain ⟨o2, ho2, hf⟩ := hwalk.taker hw hread
    obtain rfl := Except.ok.inj (ho2.symm.trans ho1)
    rw [hu.conf] at hout
    exact hout.uncrossed (hwalk.ready hw) hi ht (by rw [hf.price]; exact hlim) hu1
  · rw [hub] at h
    cases h

/-! ### Small steps -/

theorem lasting_limited (c : ℕ → Config) : Lasting (Order.Limited c) where
  fill _ _ h s hs := by
    have hlim := h s hs
    cases s <;> exact hlim
  price _ h s hs := h s hs
  mark _ _ h s hs := h s hs
  amend _ _ h s hs := h s hs

/-- Between two small steps of engine `e`. -/
structure Clear (c : ℕ → Config) (e : ℕ) (x : World × List Held) : Prop where
  sound : Sound Terms.OneLegged e x
  limited : x.1.Every (Order.Limited c)
  uncrossed : x.1.Uncrossed c

/-- The limit of a new taker. -/
theorem Order.From.limit (ho : o.From q n) (ht : o.Takes s) (hside : q.side ≠ .buySellStop)
    (hb : q.Bounded tick) :
    o.price = marketPrice ∨ Roomy tick o.price := by
  have hs : o.side = q.side := Order.terms_side ho.terms
  rcases ht with ⟨hp, -⟩ | ⟨hst | hst, hlim, -⟩
  · rw [ho.priced s (hs.symm.trans hp)]
    exact hb.plain s (hs.symm.trans hp)
  · rw [hlim, Order.terms_stopLimit ho.terms]
    exact hb.stop s (hs.symm.trans hst)
  · exact absurd (hs.symm.trans hst) hside

theorem Step.clear {x y : World × List Held} (h : Step e q x y) (hi : ∀ t, (c e).impliers t = [])
    (ht : 0 < (c e).miniTick) (hside : q.side ≠ .buySellStop) (hb : q.Bounded (c e).miniTick)
    (hx : Clear c e x) : Clear c e y := by
  have hT : Terms.OneLegged x.1.nextId q.terms := hside
  have hone : ∀ z ∈ y.1.execs, Terms.OneLegged z.taker.orderId z.taker.terms → z.OneLeg :=
    fun _ _ => Exec.oneLeg_of_oneLegged
  refine ⟨h.sound hT hone hx.sound,
    h.every (lasting_limited c) (fun o ho s hs => ?_) hT hone hx.sound hx.limited, ?_⟩
  · rw [Order.terms_stopLimit ho.terms]
    exact hb.stop s ((Order.terms_side ho.terms).symm.trans hs)
  have hu := hx.uncrossed
  have hsnd := hx.sound.stores
  cases h with
  | arg => exact hu.congr (fun _ => rfl) fun _ => rfl
  | bump => exact hu.congr (fun _ => rfl) fun _ => rfl
  | reject => exact hu.congr (fun _ => World.store_callback ..) fun _ => World.conf_callback ..
  | @taker w w' hs o s ho htk hex =>
    have hstart : (w.bumpId.setArg o).Uncrossed c := hu.congr (fun _ => rfl) fun _ => rfl
    have hset : Setup (w.bumpId.setArg o) e s .arg :=
      ⟨hsnd.ok, OffBook.arg _ _, (hx.sound.legs s).congr rfl⟩
    have hread : (w.bumpId.setArg o).readRef e .arg = .ok o := rfl
    have hpos := ho.whole
    exact execute_uncrossed hset hread (by omega) hi ht (ho.limit htk hside hb) hstart hex
  | @fire w w' hs o s id ho hex =>
    have hf := hx.sound.fires ho hex hone
    obtain ⟨t, hwait⟩ := hf.waits
    have hos : o.side = s.stop := (Order.mem_stopSides hwait.side).resolve_right hf.oneLeg
    have hput : (w.writeRef e (.entry id) { o with price := o.stopLimit s }).Uncrossed c :=
      hu.mono (fun hat => by rwa [World.book_writeRef] at hat) fun l => World.conf_writeRef ..
    exact execute_uncrossed
      ⟨hf.stores.ok, hf.offBook, (hx.sound.legs s).congr (World.conf_writeRef w e e (.entry id) _)⟩
      hf.read hf.remain hi ht (hx.limited e id o ho s hos) hput hex
  | @collect w hs s hit =>
    refine hu.mono (fun {l t p i} hat => ?_) fun l => (Calm.setStops ..).conf l
    rw [World.setStops_eq, World.store_upd] at hat
    split_ifs at hat with hl
    · rw [hl]
      rwa [Store.book_setStops] at hat
    · exact hat
  | @register w hs o ho =>
    have hnone : ((w.bumpId.setArg o).store e).odrMap.find? o.orderId = none :=
      (hsnd.self.unused ho.orderId.ge).1
    have hreg := World.registered e hnone rfl o.stopSides o.stopSides_nodup
    refine World.Uncrossed.congr (w := (w.bumpId.setArg o).registerStops e o.stopSides) ?_
      (fun _ => World.store_callback ..) fun _ => World.conf_callback ..
    refine hu.mono (fun {l t p i} hat => ?_) fun l => (Calm.registerStops ..).conf l
    by_cases hl : l = e
    · rw [hl] at hat ⊢
      rwa [hreg.book] at hat
    · rwa [hreg.other l hl] at hat
  | @drop w hs id =>
    refine hu.mono (fun {l t p i} hat => ?_) fun l => (Calm.eraseOrder ..).conf l
    rw [World.eraseOrder_eq, World.store_upd] at hat
    split_ifs at hat with hl
    · rw [hl]
      rwa [Store.book_withMap] at hat
    · exact hat

theorem Opening.clear {y : World × List Held} (h : Opening e q w y) (hx : Clear c e (w, [])) :
    Clear c e y := by
  refine ⟨h.sound hx.sound, h.every (lasting_limited c) hx.limited, ?_⟩
  refine hx.uncrossed.mono (fun {l t p i} hat => ?_) h.calm.conf
  have hwf := (hx.sound.stores.ok l).wf t
  cases h with
  | same => exact hat
  | refused => rwa [World.store_callback] at hat
  | amended =>
    rw [World.store_callback, World.putOrder_eq, World.store_upd] at hat
    split_ifs at hat with hl
    · rw [hl]
      rwa [Store.book_withMap] at hat
    · exact hat
  | @unbooked o a st u is =>
    by_cases hl : l = e
    · subst hl
      rw [World.setBook_eq, World.store_upd, if_pos rfl, Store.book_setBook] at hat
      split_ifs at hat with ht
      · subst ht
        exact ((Ladder.at_eraseAt hwf).mp hat).1
      · rwa [World.book_ackCancel] at hat
    · rwa [World.store_setBook_ne hl, World.store_ackCancel_ne hl] at hat
  | @unstopped o a st ss hf hst hlk =>
    have hdrop :=
      World.dropped e o ss (w.ackCancel e q.orderId { o with orderAction := a } st)
        (Order.lookup_nodup hlk)
    by_cases hl : l = e
    · rw [hl] at hat ⊢
      rwa [hdrop.book, World.book_ackCancel] at hat
    · rwa [hdrop.other l hl, World.store_ackCancel_ne hl] at hat

/-! ### Calls and runs -/

/-- Between the calls of a run. -/
structure World.Clear (c : ℕ → Config) (w : World) : Prop where
  ordered : w.Ordered Terms.OneLegged
  limited : w.Every (Order.Limited c)
  uncrossed : w.Uncrossed c

theorem World.Clear.legs (h : w.Clear c) (hi : ∀ t, (c e).impliers t = []) (s : Side) :
    LegsApart w e s := by
  have hlegs : (w.conf e).legs s = [] := by simp [Config.legs, h.uncrossed.conf, hi]
  exact ⟨by rw [hlegs]; exact List.nodup_nil, by simp [hlegs]⟩

theorem World.Fresh.clear (h : w.Fresh) : w.Clear w.conf := by
  have hbook : ∀ l s, (w.store l).book s = [] := fun l s => by rw [h.store]; cases s <;> rfl
  refine ⟨h.ordered _, fun l id o ho => ?_, fun _ => rfl,
    fun l => ⟨fun {s p p' i j} hat => ?_, fun {s p i} hat => ?_⟩⟩
  · rw [h.store] at ho
    cases ho
  · rw [hbook] at hat
    exact absurd hat (by simp)
  · rw [hbook] at hat
    exact absurd hat (by simp)

theorem handle_clear (hi : ∀ t, (c e).impliers t = []) (ht : 0 < (c e).miniTick) (htr : q.IsTrade)
    (hside : q.side ≠ .buySellStop) (hb : q.Bounded (c e).miniTick) (hw : w.Clear c)
    (h : handle w e q = .ok w') : w'.Clear c := by
  have hend : Matching.Clear c e (w', []) := by
    have hgood : ∀ z ∈ w'.execs, (fun _ : Exec => True) z := fun _ _ => trivial
    refine handle_induct (I := Matching.Clear c e) htr (fun {v v'} hst hc hn hv => ?_)
      (fun hop hv => hop.clear hv) (fun hstep _ hx => hstep.clear hi ht hside hb hx) h hgood
      ⟨⟨hw.ordered.soundAt e, hw.legs hi⟩, hw.limited, hw.uncrossed⟩
    have hnext : (v', ([] : List Held)).1.nextId = v.nextId := hn
    exact ⟨⟨by rw [hnext]; exact hv.sound.stores.congr hst,
        fun s => (hv.sound.legs s).congr (hc e)⟩, hv.limited.congr hst, hv.uncrossed.congr hst hc⟩
  exact ⟨hend.sound.stores.ordered, hend.limited, hend.uncrossed⟩

/-- After every call of a run over engines without impliers the best bid is below the best ask. -/
theorem run_uncrossed {w0 : World} {rs : List (ℕ × Order)} (h0 : w0.Fresh)
    (hconf : ∀ x ∈ rs, (∀ t, (w0.conf x.1).impliers t = []) ∧ 0 < (w0.conf x.1).miniTick)
    (hrs : ∀ x ∈ rs, x.2.IsTrade ∧ x.2.side ≠ .buySellStop ∧ x.2.Bounded (w0.conf x.1).miniTick)
    (hrun : run w0 rs = .ok w) {b a : ℤ} {is js : List ℕ} {bids asks : Book}
    (hbid : (w.store l).bidBook = (b, is) :: bids) (hask : (w.store l).askBook = (a, js) :: asks) :
    b < a := by
  have hok : RunsAlong World.call (fun _ x => x ∈ rs) w0 rs :=
    RunsAlong.of_forall rs fun x hx _ => hx
  have hw : w.Clear w0.conf :=
      RunsAlong.preserves (I := fun v => v.Clear w0.conf) (fun {v x v'} hx hv hI => by
    obtain ⟨hi, ht⟩ := hconf x hx
    obtain ⟨htr, hside, hb⟩ := hrs x hx
    exact handle_clear hi ht htr hside hb hI hv) rs hok hrun h0.clear
  have hfull : ∀ {s : Side} {p : ℤ} {ids : List ℕ} {rest : Book}, (w.store l).book s =
      (p, ids) :: rest → ∃ i, ((w.store l).book s).At p i := fun {s p ids rest} hbook => by
    have hwf := (hw.ordered l).books.wf s
    rw [hbook] at hwf ⊢
    obtain ⟨i, hi⟩ := List.exists_mem_of_ne_nil _ (hwf.full _ List.mem_cons_self)
    exact ⟨i, (Ladder.at_cons ..).mpr (.inl ⟨rfl, hi⟩)⟩
  obtain ⟨i, hati⟩ := hfull (s := .sell) hbid
  obtain ⟨j, hatj⟩ := hfull (s := .buy) hask
  have hlt := (hw.uncrossed.store l).apart (s := .buy) hati hatj
  simpa [Side.cmp] using hlt

/-- A bid, an ask, and a buyer that would take but goes one tick back. -/
def repricedBuyer : List (ℕ × Order) :=
  [(0, { Order.default with price := 99, quantity := 5 }),
    (0, { Order.default with side := .sell, price := 101, quantity := 5 }),
    (0, { Order.default with price := 105, quantity := 5, timeCondition := .makerOnlyReprice })]

theorem run_uncrossed_repricedBuyer : ∃ w, run (World.start 1 1000) repricedBuyer = .ok w ∧
    (w.store 0).bidBook = [(100, [1002]), (99, [1000])] ∧ (w.store 0).askBook = [(101, [1001])] ∧
      (100 : ℤ) < 101 := by
  have hrs : ∀ x ∈ repricedBuyer, x.2.IsTrade ∧ x.2.side ≠ .buySellStop ∧ x.2.Bounded 1 := by decide
  have hbooks : (run (World.start 1 1000) repricedBuyer).map
      (fun w => ((w.store 0).bidBook, (w.store 0).askBook)) =
      .ok ([(100, [1002]), (99, [1000])], [(101, [1001])]) := by decide +kernel
  rcases hrun : run (World.start 1 1000) repricedBuyer with f | w
  · rw [hrun] at hbooks
    cases hbooks
  · rw [hrun] at hbooks
    obtain ⟨hbid, hask⟩ := Prod.mk.inj (Except.ok.inj hbooks)
    have hconf : ∀ x ∈ repricedBuyer, (∀ t, ((World.start 1 1000).conf x.1).impliers t = []) ∧
        0 < ((World.start 1 1000).conf x.1).miniTick :=
      fun x _ => ⟨fun t => by cases t <;> rfl, Int.one_pos⟩
    exact ⟨w, rfl, hbid, hask, run_uncrossed (World.start_fresh 1 1000) hconf hrs hrun hbid hask⟩

end Matching
