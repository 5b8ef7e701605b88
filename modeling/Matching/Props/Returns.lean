import Matching.Engine.Entries
import Matching.Engine.Progress
import Matching.Props.LockBalance

/-! Every request terminates. What each loop takes off its measure is said on its own (`Shrinks`):
    an iteration of `normal_match` lowers the taker's remaining quantity, an iteration of
    `fok_match` the quantity it still counts, and a round of a stop trigger that collects something
    the number of entries of the stop books. A call on books in order returns, then, if it gets its
    locks. It does not get them after an auction request of another side than `BUY` and `SELL`,
    which returned without giving them back. -/

namespace Matching

/-- The books represent the orders: containers, map and fields agree and everything resolves
    (`StoreOk`, `Firm`), no order has two legs, and what rests in engine `e` is in the book its
    `handle_cancel` looks in. -/
structure World.Represented (w : World) (e : ℕ) : Prop where
  ordered : w.Ordered Terms.OneLegged
  firm : ∀ l, Firm (w.store l) []
  finds : ∀ id, (w.store e).Finds id

/-- A request other than `NEW` names an unknown id or an order that is in one of the four books. -/
def Order.Named (q : Order) (g : Store) : Prop :=
  q.orderAction ≠ .new → g.odrMap.find? q.orderId ≠ none →
    (∃ s, q.orderId ∈ (g.book s).ids) ∨ ∃ s, q.orderId ∈ (g.stops s).ids

/-- No implier is attached and what the local iterator points to has something left. -/
structure Matcher.Loaded (m : Matcher) : Prop where
  impliers : m.impliers = []
  remain : ∀ c, m.loc.cur = some c → 0 < c.remain

/-- What every iteration of the three loops takes off: of the `while` of `normal_match` the quantity
    left of its taker, of the counting loop of `fok_match` the quantity left to count, of the loop
    of a stop trigger the number of entries of the stop books, to which the activations add none. -/
structure Shrinks (e : ℕ) : Prop where
  normal : ∀ {v : World} {s : Side} {r : Ref} {o : Order} (tick : ℤ), Ready v e s r → v.Live →
    v.readRef e r = .ok o →
    (∃ x, ∀ n, normalLoop e s r tick (n + 1) v (v.matcher e s) = .ok x) ∨
    ∃ v' o',
      (∀ n, normalLoop e s r tick (n + 1) v (v.matcher e s) =
        normalLoop e s r tick n v' (v'.matcher e s)) ∧
      Ready v' e s r ∧ v'.Live ∧ v'.readRef e r = .ok o' ∧
      o'.remainQuantity < o.remainQuantity
  fok : ∀ {v : World} {m m' : Matcher} {p : ℤ} {k : ℕ} {rec : MatchedRecord}, v.Ok →
    m.Loaded → k ≠ 0 → m.matchOne v p k = .ok (some rec, m') →
    m'.Loaded ∧ subU64 k rec.matchedQuantity < k
  round : ∀ {v v' : World} {s : Side} {best : ℤ}, activateStops e s (collectStops v e s best).1
    (collectStops v e s best).2 = .ok v' →
    (∀ t, (v'.store e).stops t = ((collectStops v e s best).1.store e).stops t) ∧
    ((collectStops v e s best).2 ≠ [] →
      ((v'.store e).stops .buy).ids.length + ((v'.store e).stops .sell).ids.length <
      ((v.store e).stops .buy).ids.length + ((v.store e).stops .sell).ids.length)

variable {w w' v : World} {n e k : ℕ} {s : Side} {r : Ref} {o q : Order} {m m' : Matcher}

/-! ### The three measures -/

/-- An iteration of `normal_match` ends the loop or takes something from
    what is left of the taker. -/
theorem normalLoop_shrinks (tick : ℤ) (hw : Ready v e s r) (hlive : v.Live)
    (ho : v.readRef e r = .ok o) :
    (∃ x, ∀ n, normalLoop e s r tick (n + 1) v (v.matcher e s) = .ok x) ∨
    ∃ v' o',
      (∀ n, normalLoop e s r tick (n + 1) v (v.matcher e s) = normalLoop e s r tick n v'
      (v'.matcher e s)) ∧
      Ready v' e s r ∧ v'.Live ∧ v'.readRef e r = .ok o' ∧
        o'.remainQuantity < o.remainQuantity := by
  rcases hrec : v.nextRec e s o with _ | rec
  · exact Or.inl ⟨_, fun n => normalLoop_none tick n hw ho hrec⟩
  have hsome : v.nextRec e s o ≠ none := by rw [hrec]; exact Option.some_ne_none rec
  by_cases h1 : o.timeCondition = .makerOnly
  · exact Or.inl ⟨_, fun n => (normalLoop_maker tick n hw ho hsome).1 h1⟩
  by_cases h2 : o.timeCondition = .makerOnlyReprice
  · exact Or.inl ⟨_, fun n => (normalLoop_maker tick n hw ho hsome).2 h2⟩
  right
  obtain ⟨⟨hq0, hq⟩, ⟨v', x, mid, a, b, hstep, hfill, hv', ho'⟩ | ⟨_, hl⟩⟩ :=
    World.nextRec_step hw ho hrec
  · refine ⟨v', _, fun n => ?_, hv', hfill.live hw hlive, ho', ?_⟩
    · rw [normalLoop_some tick n hw ho hrec h1 h2, hstep, ok_bind]
    · rw [engineMatch_remainQuantity, subU64_of_le hq]
      omega
  · exact absurd hlive hl

/-- A position that the books hold is loaded with something left. -/
theorem Iter.load_remain {l : ℕ} {at? : Option (ℤ × ℕ)} {it : Iter} (hok : v.Ok)
    (hat : ∀ p id, at? = some (p, id) → ((v.store l).book s).At p id)
    (h : Iter.load v l s at? = .ok it) : ∀ c, it.cur = some c → 0 < c.remain := by
  rcases at? with _ | ⟨p, id⟩
  · obtain rfl := Except.ok.inj h
    intro c hc
    cases hc
  · simp only [Iter.load, bind_ok, pure_ok] at h
    obtain ⟨o, ho, rfl⟩ := h
    intro c hc
    obtain rfl := Option.some.inj hc
    exact ((hok l).restsAt (hat p id rfl) (orUb_ok.mp ho)).remain

theorem Iter.next_remain {it it' : Iter} (hok : v.Ok) (h : it.next v = .ok it') :
    ∀ c, it'.cur = some c → 0 < c.remain := by
  rcases hc : it.cur with _ | c
  · simp only [Iter.next, hc, reduceCtorEq] at h
  · simp only [Iter.next, hc, bind_ok] at h
    obtain ⟨at?, hsucc, h⟩ := h
    exact Iter.load_remain hok
      (fun p id hat => Ladder.at_of_succ ((orUb_ok.mp hsucc).trans (congrArg some hat))) h

/-- An iteration of `fok_match` takes something from the quantity left to count. -/
theorem matchOne_shrinks {p : ℤ} {rec : MatchedRecord} (hok : v.Ok) (hm : m.Loaded) (hk : k ≠ 0)
    (h : m.matchOne v p k = .ok (some rec, m')) : m'.Loaded ∧ subU64 k rec.matchedQuantity < k := by
  simp only [Matcher.matchOne, Matcher.top, hm.impliers, Matcher.topLoop, bind_ok,
    Except.ok.injEq] at h
  obtain ⟨t, ⟨price, hprice, own, _, rfl⟩, h⟩ := h
  simp only at h
  split at h
  · cases h
  rename_i hp
  split at h
  · cases h
  obtain ⟨c, hc⟩ : ∃ c, m.loc.cur = some c := by
    refine Option.ne_none_iff_exists'.mp fun hnone => hp ?_
    simp only [Iter.topPrice, Iter.valid, hnone, Option.isSome_none, Bool.false_eq_true,
      if_false] at hprice
    exact (pure_ok.mp hprice).symm
  have hpos := hm.remain c hc
  have htop : m.loc.topMatchingQuantity = c.remain := by simp [Iter.topMatchingQuantity, hc]
  rw [htop] at h
  have hless : subU64 k (if c.remain > k then k else c.remain) < k := by
    rw [subU64_of_le (by split_ifs <;> omega)]
    split_ifs <;> omega
  generalize (if c.remain > k then k else c.remain) = taken at h hless
  split at h
  · simp only [bind_ok, pure_ok, Prod.mk.injEq, Option.some.injEq] at h
    obtain ⟨loc, hloc, rfl, rfl⟩ := h
    exact ⟨⟨rfl, Iter.next_remain hok hloc⟩, hless⟩
  · simp only [ok_bind, pure_ok, Prod.mk.injEq, Option.some.injEq] at h
    obtain ⟨rfl, rfl⟩ := h
    exact ⟨⟨rfl, hm.remain⟩, hless⟩

/-- A round of a stop trigger leaves the stop books as its collection left them: smaller, if it
    collected anything. -/
theorem round_shrinks {best : ℤ}
    (h : activateStops e s (collectStops v e s best).1 (collectStops v e s best).2 = .ok w') :
    (∀ t, (w'.store e).stops t = ((collectStops v e s best).1.store e).stops t) ∧
    ((collectStops v e s best).2 ≠ [] →
      ((w'.store e).stops .buy).ids.length + ((w'.store e).stops .sell).ids.length <
      ((v.store e).stops .buy).ids.length + ((v.store e).stops .sell).ids.length) := by
  have hstops := activateStops_stops _ h
  refine ⟨hstops, fun hne => ?_⟩
  have hother : ((collectStops v e s best).1.store e).stops s.opp = (v.store e).stops s.opp := by
    rw [collectStops, World.setStops_eq, World.store_upd, if_pos rfl, Store.stops_setStops,
      if_neg (Side.opp_ne s)]
  have hself : (((collectStops v e s best).1.store e).stops s).ids.length <
      ((v.store e).stops s).ids.length := by
    have hpos := List.length_pos_iff.mpr hne
    simp only [collectStops, World.setStops_eq, World.store_upd, if_pos, Store.stops_setStops,
      World.stops] at hpos ⊢
    have hsum :=
      Ladder.length_ids_filter (fun l => best ≠ marketPrice && s.reached best l.1)
        ((v.store e).stops s)
    omega
  rw [hstops, hstops]
  cases s
  · rw [show ((collectStops v e .buy best).1.store e).stops .sell =
      (v.store e).stops .sell from hother]
    omega
  · rw [show ((collectStops v e .sell best).1.store e).stops .buy =
      (v.store e).stops .buy from hother]
    omega

theorem Shrinks.all (e : ℕ) : Shrinks e :=
  ⟨fun tick => normalLoop_shrinks tick, matchOne_shrinks, round_shrinks⟩

/-! ### Calls -/

/-- In books that represent the orders, the order a request names is where `handle_cancel` looks. -/
theorem World.Represented.reaches (h : w.Represented e) (hn : q.Named (w.store e))
    (hne : q.orderAction ≠ .new) (ho : (w.store e).odrMap.find? q.orderId = some o) :
    (w.store e).Reaches o := by
  have hord := h.ordered e
  rcases hn hne (by rw [ho]; exact Option.some_ne_none o) with ⟨t, hm⟩ | ⟨s, hm⟩
  · obtain ⟨p, hat⟩ := Ladder.mem_ids.mp hm
    have hl : o.lookup = .inl t := h.finds q.orderId o t p ho hat
    obtain ⟨is, his, _⟩ := Ladder.level?_of_at (hord.books.wf t) hat
    rw [← (hord.books.restsAt hat ho).price] at his
    simp only [Store.Reaches, hl, his]
    exact Option.some_ne_none is
  · obtain ⟨t, hat⟩ := Ladder.mem_ids.mp hm
    obtain ⟨o', ho', hw⟩ := hord.waits hat
    obtain rfl := Option.some.inj (ho'.symm.trans ho)
    simp only [Store.Reaches, hw.lookup]
    intro u hu
    have hone : o'.side ≠ .buySellStop := (hord.key ho).2.2
    have hus : u = s := by
      by_contra hne
      rw [Side.eq_opp_of_ne hne] at hu
      exact hone (Order.stopSides_two hw.side hu)
    obtain ⟨is, his, _⟩ := Ladder.level?_of_at (hord.stopsWf s) hat
    rw [hus, hw.trigger, his]
    exact Option.some_ne_none is

theorem World.Represented.steady (h : w.Represented e) (hi : ∀ s, (w.conf e).impliers s = []) :
    Steady e (w, []) := by
  have hlegs : ∀ s, LegsApart w e s :=
    fun s => ⟨by simp [Config.legs, hi s], by simp [Config.legs, hi s]⟩
  exact ⟨⟨h.ordered.soundAt e, hlegs⟩, fun l => by rw [ite_self]; exact h.firm l⟩

/-- A call that gets its locks returns. -/
theorem handle_returns (hi : ∀ s, (w.conf e).impliers s = []) (ht : q.IsTrade)
    (hq : q.side ≠ .buySellStop) (hrep : w.Represented e) (hn : q.Named (w.store e))
    (hfree : w.Unlocked e) : ∃ w', handle w e q = .ok w' := by
  obtain ⟨held, hheld⟩ := hfree
  by_cases hs : q.Stray
  · have hlock : lock (w.setArg q) e = .ok { w.setArg q with locked := held } := by
      have hheld' : lockAll ((w.setArg q).conf e).mutexSet (w.setArg q).locked = .ok held := hheld
      simp only [lock, hheld', ok_bind]
      rfl
    rw [handle, hlock, ok_bind, if_pos hs.1, if_neg hs.2]
    exact ⟨_, rfl⟩
  · have hent : Steady e (w.enter e q held, []) :=
      (hrep.steady hi).congr (fun l => World.store_enter ..) (World.conf_enter ..)
        (World.nextId_enter ..)
    obtain ⟨v, hv⟩ := dispatch_returns hq ht hent (World.arg_enter ..)
      (fun _ => by rw [World.store_enter]; exact hrep.finds q.orderId)
      (fun hne o ho => by rw [World.store_enter] at ho ⊢; exact hrep.reaches hn hne ho)
    exact ⟨_, handle_ok hheld hs hv⟩

/-- For every state with books in order and every request that names an order in them or an
    unknown id: the call returns, by loops that take something off in each iteration,
    exactly when it gets its locks. -/
theorem handle_returns_iff (hi : ∀ s, (w.conf e).impliers s = []) (ht : q.IsTrade)
    (hq : q.side ≠ .buySellStop) (hrep : w.Represented e) (hn : q.Named (w.store e)) :
    ((∃ w', handle w e q = .ok w') ∧ Shrinks e) ↔ w.Unlocked e := by
  constructor
  · rintro ⟨⟨w', h⟩, _⟩
    exact handle_unlocked h
  · intro hfree
    exact ⟨handle_returns hi ht hq hrep hn hfree, Shrinks.all e⟩

/-! ### Runs -/

/-- Runs of trading requests for orders of one leg keep the books so, unless an order comes
    to rest at `STOP_PRICE`. -/
theorem run_represented {w0 : World} (h0 : w0.Fresh) (hi : ∀ s, (w0.conf e).impliers s = [])
    (qs : List Order) (hqs : ∀ q ∈ qs, q.IsTrade ∧ q.side ≠ .buySellStop)
    (h : run w0 (qs.map (Prod.mk e)) = .ok w) (hex : ∀ z ∈ w.execs, z.fate ≠ .rested stopPrice) :
    w.Represented e := by
  have hone : RunsAlong World.call (fun _ x => x.1 = e ∧ x.2.side ≠ .buySellStop) w0
      (qs.map (Prod.mk e)) :=
    RunsAlong.of_forall _ fun x hx _ => by
      obtain ⟨q, hq, rfl⟩ := List.mem_map.mp hx
      exact ⟨rfl, (hqs q hq).2⟩
  have htrade : ∀ x ∈ qs.map (Prod.mk e), x.2.IsTrade := fun x hx => by
    obtain ⟨q, hq, rfl⟩ := List.mem_map.mp hx
    exact (hqs q hq).1
  have hstart : w0.Represented e := by
    refine ⟨h0.ordered _, fun l => ?_, (h0.unstopped e).finds (h0.ordered Terms.OneLegged e) id⟩
    rw [h0.store]
    exact Firm.empty
  have hend :=
    run_along (I := fun v => Steady e (v, []) ∧ (v.store e).Unstopped ∧
      ∀ s, (v.conf e).impliers s = [])
    (fun {v v' l q} ht hok hv hgood hI => by
      obtain ⟨⟨rfl, hside⟩, hx, hun, hi⟩ := And.intro hok hI
      have hord : v.Ordered Terms.OneLegged := World.SoundAt.ordered hx.sound.stores
      refine ⟨handle_steady ht hside hx (hun.finds (hord l) id _) hv, ?_,
        fun s => by rw [handle_conf hv]; exact hi s⟩
      exact hun.enters
        (handle_enters ht (fun _ _ => hside) hord hi hv fun _ _ => Exec.oneLeg_of_oneLegged) hgood)
    _ htrade hone h hex ⟨hstart.steady hi, h0.unstopped e, hi⟩
  obtain ⟨hx, hun, -⟩ := hend
  have hord : w.Ordered Terms.OneLegged := World.SoundAt.ordered hx.sound.stores
  exact ⟨hord, fun l => by have hl := hx.firm l; rwa [ite_self] at hl, hun.finds (hord e) id⟩

/-- An order to sell, one to buy and a stop to buy that waits for a best price of 105 or more. -/
def sellAndStop : List Order :=
  [{ Order.default with side := .sell, price := 100, quantity := 5 },
    { Order.default with price := 99, quantity := 3 },
    { Order.default with
      side := .buyStop, quantity := 2, buyStopTriggerPrice := 105, buyStopLimitPrice := 106 }]

/-- The cancellation of the order to sell, whose level is the best one. -/
def cancelSell : Order := { Order.default with orderAction := .cancel, orderId := 1000 }

theorem handle_returns_iff_cancelSell :
    ∃ w, run (World.start 1 1000) (sellAndStop.map (Prod.mk 0)) = .ok w ∧
      (((∃ w', handle w 0 cancelSell = .ok w') ∧ Shrinks 0) ↔ w.Unlocked 0) := by
  refine ⟨_, rfl, handle_returns_iff (fun s => by cases s <;> rfl) (Or.inr (Or.inl rfl))
    (by decide) ?_ fun _ _ => Or.inl ⟨.buy, by decide⟩⟩
  exact run_represented (World.start_fresh 1 1000) (fun s => by cases s <;> rfl) sellAndStop
    (by decide) rfl (by decide)

/-- After the stop with time condition `AUCTION` the books are as empty as before, and an order to
    buy never returns. -/
theorem strayStop_blocks :
    ∃ w, run (World.start 1 1000) [(0, strayStop)] = .ok w ∧ w.Represented 0 ∧
      handle w 0 plainBuy = .error .deadlock ∧
      ¬((∃ w', handle w 0 plainBuy = .ok w') ∧ Shrinks 0) := by
  refine ⟨_, rfl, ?_, rfl, fun h => ?_⟩
  · exact run_represented (World.start_fresh 1 1000) (fun s => by cases s <;> rfl) [strayStop]
      (by decide) rfl (by decide)
  · obtain ⟨⟨w', hw'⟩, -⟩ := h
    cases hw'

end Matching
