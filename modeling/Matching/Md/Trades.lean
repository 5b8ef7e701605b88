import Matching.Engine.Reference
import Matching.Md.Depth

/-! A book that is fed the reports of an execution without impliers. The reports of its trades
    change the view of the book at the makers and the taker (`Follows.trades`), which is how the
    store changes; what the end of the taker adds is right when a rest that was reported before
    keeps its price (`Executed.follows`). -/

namespace Matching

open Md (Half BasicBook Follows)

namespace Trade

theorem makerAfter_bookHalf (t : Trade) : t.makerAfter.bookHalf = t.maker.bookHalf := rfl

theorem takerAfter_bookHalf (t : Trade) : t.takerAfter.bookHalf = t.taker.bookHalf := rfl

end Trade

theorem Order.calc_engineMatch {o : Order} {t : MatchedType} {mid : ℕ} {p : ℤ} {q a b : ℕ} :
    (engineMatch o t mid p q a b).calcRemainQuantity =
      (engineMatch o t mid p q a b).remainQuantity := by
  by_cases h : (engineMatch o t mid p q a b).remainQuantity = 0
  · rw [h, Order.calc_of_not_active fun ha => Order.active_engineMatch.mp ha h]
  · exact (Order.active_engineMatch.mpr h).calc

/-- The view after trades. -/
def afterView (v : ℕ → Option Shown) : List Trade → ℕ → Option Shown
  | [] => v
  | t :: T =>
    afterView (Function.update (Function.update v t.maker.orderId t.makerAfter.shown)
      t.taker.orderId t.takerAfter.shown) T

variable {n : ℕ} {o m : Order} {ms : List Order} {v : ℕ → Option Shown} {b : BasicBook}

/-- The view after trades, read at one order: the taker as the last trade left it, a
    maker as its trade did. -/
theorem afterView_eq (id : ℕ) :
    ∀ (ms : List Order) (n : ℕ) (o : Order) (v : ℕ → Option Shown), (ms.map Order.orderId).Nodup →
    (∀ m ∈ ms, m.orderId ≠ o.orderId) → afterView v (trades n o ms) id =
      if id = o.orderId then (if trades n o ms = [] then v id
      else (afterTrades o (trades n o ms)).shown)
      else match (trades n o ms).find? (fun t => t.maker.orderId = id) with
        | none => v id
        | some t => t.makerAfter.shown
  | [], n, o, v, _, _ => by simp [afterView]
  | m :: ms, n, o, v, hnd, hne => by
    by_cases h : o.remainQuantity = 0
    · rw [trades_of_filled n h]
      simp [afterView]
    · obtain ⟨hm, hnd⟩ := List.nodup_cons.mp hnd
      rw [trades_cons n m ms h]
      set t : Trade := ⟨m, o, min m.remainQuantity o.remainQuantity, n⟩ with ht
      have htid : t.takerAfter.orderId = o.orderId := rfl
      have hmo : m.orderId ≠ o.orderId := hne m List.mem_cons_self
      have ih := afterView_eq id ms (n + 1) t.takerAfter
        (Function.update (Function.update v t.maker.orderId t.makerAfter.shown)
          t.taker.orderId t.takerAfter.shown) hnd
        (fun m' hm' => hne m' (List.mem_cons_of_mem _ hm'))
      rw [afterView, ih, htid]
      by_cases hid : id = o.orderId
      · subst hid
        simp only [if_true, afterTrades_cons, reduceCtorEq, if_false]
        split_ifs with hnil
        · rw [hnil]
          exact Function.update_self ..
        · rfl
      · simp only [if_neg hid]
        by_cases him : m.orderId = id
        · have hnone : (trades (n + 1) t.takerAfter ms).find?
            (fun u => u.maker.orderId = id) = none := by
            rw [List.find?_eq_none]
            intro u hu
            have hmem : u.maker ∈ ms := mem_makers hu
            simpa using fun he : u.maker.orderId = id =>
              hm (List.mem_map.mpr ⟨u.maker, hmem, he.trans him.symm⟩)
          rw [hnone, List.find?_cons_of_pos (by simpa using him)]
          simp only
          rw [Function.update_of_ne (show id ≠ t.taker.orderId from hid), ← him]
          exact Function.update_self ..
        · rw [List.find?_cons_of_neg (by simpa using him)]
          rw [Function.update_of_ne (show id ≠ t.taker.orderId from hid),
            Function.update_of_ne (show id ≠ t.maker.orderId from Ne.symm him)]

theorem heard_trade (e : ℕ) (c : Option ℤ) (t : Trade) (T : List Trade) :
    heard e c (tradeReports e (t :: T)) =
    t.makerAfter.priced c :: t.takerAfter.priced c :: heard e c (tradeReports e T) := by
  simp [heard, tradeReports]

namespace Md

/-- The maker's report of a trade. -/
theorem Follows.maker {t : Trade} {c : Option ℤ} (hf : Follows b v)
    (hm : v t.maker.orderId = t.maker.shown) (hact : t.maker.Active)
    (hq : t.quantity ≤ t.maker.remainQuantity) :
    Follows (b.handleOdr (t.makerAfter.priced c)).1
      (Function.update v t.maker.orderId t.makerAfter.shown) := by
  refine Follows.follow (m := t.maker) hf hm rfl rfl ?_
  show t.makerAfter.calcRemainQuantity ≤ _
  rw [hact.calc, Trade.makerAfter, engineMakerMatch, Order.calc_engineMatch,
    engineMatch_remainQuantity, subU64_of_le hq]
  exact Nat.sub_le _ _

/-- The taker's report of a trade that is not its first. -/
theorem Follows.taker {t : Trade} {c : Option ℤ} (hf : Follows b v)
    (hm : v t.taker.orderId = t.taker.shown) (hact : t.taker.Active)
    (hq : t.quantity ≤ t.taker.remainQuantity) :
    Follows (b.handleOdr (t.takerAfter.priced c)).1
      (Function.update v t.taker.orderId t.takerAfter.shown) := by
  refine Follows.follow (m := t.taker) hf hm rfl rfl ?_
  show t.takerAfter.calcRemainQuantity ≤ _
  rw [hact.calc, Trade.takerAfter, Order.calc_engineMatch, engineMatch_remainQuantity,
    subU64_of_le hq]
  exact Nat.sub_le _ _

/-- The orders of a queue as a view shows them: active, under different ids
    that are not the taker's. -/
structure Queued (v : ℕ → Option Shown) (o : Order) (ms : List Order) : Prop where
  shown : ∀ m ∈ ms, v m.orderId = m.shown ∧ m.Active
  nodup : (ms.map Order.orderId).Nodup
  other : ∀ m ∈ ms, m.orderId ≠ o.orderId

theorem Queued.tail (h : Queued v o (m :: ms)) {x y : Option Shown} {o' : Order}
    (hid : o'.orderId = o.orderId) :
    Queued (Function.update (Function.update v m.orderId x) o.orderId y) o' ms := by
  obtain ⟨hm, hnd⟩ := List.nodup_cons.mp h.nodup
  refine ⟨fun m' hm' => ?_, hnd,
    fun m' hm' => by rw [hid]; exact h.other m' (List.mem_cons_of_mem _ hm')⟩
  have hne : m'.orderId ≠ m.orderId := fun he => hm (List.mem_map.mpr ⟨m', hm', he⟩)
  rw [Function.update_of_ne (h.other m' (List.mem_cons_of_mem _ hm')), Function.update_of_ne hne]
  exact h.shown m' (List.mem_cons_of_mem _ hm')

/-- The reports of trades whose taker is shown already. -/
theorem Follows.trades_shown (e : ℕ) (c : Option ℤ) :
    ∀ (ms : List Order) (n : ℕ) (o : Order) {b : BasicBook} {v : ℕ → Option Shown},
    Follows b v → Queued v o ms → v o.orderId = o.shown → (o.remainQuantity ≠ 0 → o.Active) →
    Follows (b.feed (heard e c (tradeReports e (trades n o ms)))) (afterView v (trades n o ms))
  | [], _, _, _, _, hf, _, _, _ => hf
  | m :: ms, n, o, b, v, hf, hqu, ho, hact => by
    by_cases h : o.remainQuantity = 0
    · rw [trades_of_filled n h]
      exact hf
    · rw [trades_cons n m ms h, heard_trade, BasicBook.feed_cons, BasicBook.feed_cons, afterView]
      set t : Trade := ⟨m, o, min m.remainQuantity o.remainQuantity, n⟩ with ht
      obtain ⟨hm, hma⟩ := hqu.shown m List.mem_cons_self
      have h1 : Follows (b.handleOdr (t.makerAfter.priced c)).1
          (Function.update v m.orderId t.makerAfter.shown) :=
        hf.maker (t := t) hm hma (min_le_left _ _)
      have h2 := h1.taker (t := t) (c := c)
        (by rw [Function.update_of_ne (hqu.other m List.mem_cons_self).symm]; exact ho) (hact h)
          (min_le_right _ _)
      refine trades_shown e c ms (n + 1) t.takerAfter h2 (hqu.tail rfl) ?_ fun hz => ?_
      · exact Function.update_self ..
      · exact Order.active_engineMatch.mpr hz

/-- The reports of trades whose taker is not shown yet: what the first trade leaves of it is new. -/
theorem Follows.trades (e : ℕ) (c : Option ℤ) (n : ℕ) (hf : Follows b v) (hqu : Queued v o ms)
    (ho : v o.orderId = none)
    (hbound : ∀ t T z, Matching.trades n o ms = t :: T → t.takerAfter.shown = some z →
      ∀ b', Follows b' (Function.update v t.maker.orderId t.makerAfter.shown) →
      b'.recorded z.half z.price + z.quantity < 2 ^ 64) :
    Follows (b.feed (heard e c (tradeReports e (Matching.trades n o ms))))
      (afterView v (Matching.trades n o ms)) := by
  rcases ms with _ | ⟨m, ms⟩
  · exact hf
  · by_cases h : o.remainQuantity = 0
    · rw [trades_of_filled n h]
      exact hf
    · rw [trades_cons n m ms h] at hbound ⊢
      rw [heard_trade, BasicBook.feed_cons, BasicBook.feed_cons, afterView]
      set t : Trade := ⟨m, o, min m.remainQuantity o.remainQuantity, n⟩ with ht
      obtain ⟨hm, hma⟩ := hqu.shown m List.mem_cons_self
      have h1 : Follows (b.handleOdr (t.makerAfter.priced c)).1
          (Function.update v m.orderId t.makerAfter.shown) :=
        hf.maker (t := t) hm hma (min_le_left _ _)
      have h2 : Follows
          ((b.handleOdr (t.makerAfter.priced c)).1.handleOdr (t.takerAfter.priced c)).1
          (Function.update
          (Function.update v m.orderId t.makerAfter.shown) o.orderId t.takerAfter.shown) :=
        h1.add (o := t.takerAfter.priced c) (by
          show Function.update v m.orderId t.makerAfter.shown o.orderId = none
          rw [Function.update_of_ne (hqu.other m List.mem_cons_self).symm, ho])
          fun z hz => hbound t _ z rfl hz _ h1
      refine trades_shown e c ms (n + 1) t.takerAfter h2 (hqu.tail rfl) ?_ fun hz => ?_
      · exact Function.update_self ..
      · exact Order.active_engineMatch.mpr hz

end Md

/-! ### Executions -/

namespace Store

/-- The price and the quantity a listener is first told of a taker: what its first trade leaves of
    it, or the whole of it when it comes to rest without a trade. -/
def firstTold (g : Store) (tick : ℤ) (s : Side) (o : Order) : Option (ℤ × ℕ) :=
  match g.takes s o with
  | m :: _ => some (o.price, o.remainQuantity - m.remainQuantity)
  | [] =>
    match g.fate tick s o with
    | .rested p => some (p, o.remainQuantity)
    | _ => none

/-- A listener can follow the execution: a taker that has traded rests at the price its reports
    carried, and the level it is added to stays below 2^64. -/
structure Heard (g : Store) (tick : ℤ) (s : Side) (o : Order) : Prop where
  price : ∀ p, g.fate tick s o = .rested p → g.takes s o = [] ∨ p = o.price
  small : ∀ p q, g.firstTold tick s o = some (p, q) → p ≠ stopPrice → g.depth s.opp p + q < 2 ^ 64

instance (f : Fate) (P : ℤ → Prop) [DecidablePred P] : Decidable (∀ p, f = .rested p → P p) :=
  match f with
  | .rested p => decidable_of_iff (P p) ⟨fun h q hq => by cases hq; exact h, fun h => h p rfl⟩
  | .filled => isTrue fun _ h => nomatch h
  | .killed _ _ => isTrue fun _ h => nomatch h

instance (x : Option (ℤ × ℕ)) (P : ℤ → ℕ → Prop) [∀ p q, Decidable (P p q)] :
    Decidable (∀ p q, x = some (p, q) → P p q) :=
  match x with
  | some (p, q) =>
    decidable_of_iff (P p q) ⟨fun h a b hab => by cases hab; exact h, fun h => h p q rfl⟩
  | none => isTrue fun _ _ h => nomatch h

instance (g : Store) (tick : ℤ) (s : Side) (o : Order) : Decidable (g.Heard tick s o) :=
  decidable_of_iff (_ ∧ _) ⟨fun h => ⟨h.1, h.2⟩, fun h => ⟨h.price, h.small⟩⟩

end Store

section Executed

variable {T : ℕ → Terms → Prop} {w w' w1 : World} {e k : ℕ} {s : Side} {r : Ref} {hs : List Held}

/-- The orders a taker trades with, as its store shows them. -/
theorem Md.queued_takes {g : Store} (hok : BooksOk g) (hfirm : Firm g hs)
    (hoff : ∀ t, o.orderId ∉ (g.book t).ids) :
    Md.Queued g.shown o (g.takes s o) := by
  have hsub := g.takes_sublist s o
  have hmem : ∀ m ∈ g.takes s o, m.orderId ∈ (g.book s).ids ∧
      g.odrMap.find? m.orderId = some m := by
    intro m hm
    obtain ⟨id, hid, hf⟩ := Store.mem_queue.mp (hsub.subset hm)
    obtain ⟨p, hat⟩ := Ladder.mem_ids.mp hid
    rw [(hok.restsAt hat hf).orderId]
    exact ⟨hid, hf⟩
  refine ⟨fun m hm => ?_, ?_, fun m hm he => hoff s (he ▸ (hmem m hm).1)⟩
  · obtain ⟨hid, hf⟩ := hmem m hm
    obtain ⟨m', hf', hact⟩ := hfirm.rests hid
    obtain rfl := Option.some.inj (hf'.symm.trans hf)
    exact ⟨by rw [Store.shown_of_mem hid, hf]; rfl, hact⟩
  · have hids := Store.queue_ids hok hfirm.live s
    have hnd : (g.book s).ids.Nodup := Ladder.ids_nodup (hok.wf s) fun h h' => hok.price_unique h h'
    rw [← hids] at hnd
    exact hnd.sublist (hsub.map _)

/-- After its trades the store shows what the reports of the trades say, except of the taker. -/
theorem Traded.shown {n : ℕ} (htr : Traded w e s r o (trades n o ms) w1)
    (hok : BooksOk (w.store e)) (hqu : Md.Queued (w.store e).shown o ms)
    (hms : ms.Sublist ((w.store e).queue s)) (hid : ∀ j, r = .entry j → o.orderId = j) {id : ℕ}
    (hne : id ≠ o.orderId) :
    (w1.store e).shown id = afterView (w.store e).shown (trades n o ms) id := by
  have hr : r ≠ .entry id := fun he => hne (hid id he).symm
  have hbook : ∀ t, id ∈ ((w1.store e).book t).ids ↔
      id ∈ ((w.store e).book t).ids ∧ (t = s → id ∉ filledMakers (trades n o ms)) := by
    intro t
    by_cases ht : t = s
    · subst ht
      rw [htr.book, Ladder.mem_ids_without]
      simp
    · rw [htr.bookOther e t (fun he => ht (congrArg Prod.snd he))]
      simp [ht]
  have hfind := htr.find id hr
  rw [afterView_eq id ms n o _ hqu.nodup hqu.other, if_neg hne]
  rcases hT : (trades n o ms).find? (fun t => t.maker.orderId = id) with _ | t
  · rw [hT] at hfind ⊢
    simp only at hfind ⊢
    have hnot : id ∉ filledMakers (trades n o ms) := by
      intro hm
      obtain ⟨t, ht, hte⟩ := List.mem_map.mp hm
      have hnone := List.find?_eq_none.mp hT t (List.mem_of_mem_filter ht)
      exact hnone (by simpa using hte)
    refine Store.shown_congr (fun t => ?_) fun _ => hfind
    rw [hbook]
    exact and_iff_left fun _ => hnot
  · rw [hT] at hfind ⊢
    simp only at hfind ⊢
    have htm := List.mem_of_find?_eq_some hT
    have hmid : t.maker.orderId = id := by simpa using List.find?_some hT
    obtain ⟨j, hj, hfj⟩ := Store.mem_queue.mp (hms.subset (mem_makers htm))
    obtain ⟨p, hat⟩ := Ladder.mem_ids.mp hj
    have hjid : id ∈ ((w.store e).book s).ids := by
      rw [← hmid, (hok.restsAt hat hfj).orderId]; exact hj
    by_cases hz : t.makerAfter.remainQuantity = 0
    · have hfilled : id ∈ filledMakers (trades n o ms) :=
        List.mem_map.mpr ⟨t, List.mem_filter.mpr ⟨htm, by simpa using hz⟩, hmid⟩
      rw [Store.shown_of_notMem fun u hu => ?_, Order.shown_eq_none.mpr (Or.inr (Or.inl ?_))]
      · rw [Trade.makerAfter, engineMakerMatch, Order.calc_engineMatch]
        exact hz
      · obtain ⟨hold, hnot⟩ := (hbook u).mp hu
        by_cases hus : u = s
        · exact hnot hus hfilled
        · rw [Side.eq_opp_of_ne hus] at hold
          exact hok.apart hjid hold
    · have hin : id ∈ ((w1.store e).book s).ids := by
        refine (hbook s).mpr ⟨hjid, fun _ hm => ?_⟩
        obtain ⟨u, hu, hue⟩ := List.mem_map.mp hm
        obtain ⟨hum, huz⟩ := List.mem_filter.mp hu
        have hnd : ((trades n o ms).map (fun t => t.maker.orderId)).Nodup := by
          have hsub := (makers_sublist n o ms).map Order.orderId
          rw [List.map_map] at hsub
          exact hqu.nodup.sublist hsub
        have hut : u = t := List.inj_on_of_nodup_map hnd hum htm (hue.trans hmid.symm)
        exact hz (by simpa [hut] using huz)
      rw [Store.shown_of_mem hin, hfind, if_neg hz]
      rfl

/-! ### Ends -/

/-- A taker that is killed is shown no more; nothing else changes. -/
theorem World.shown_kill (hfree : w1.Free e r o) (hoff : OffBook w1 e r) (id : ℕ) :
    ((w1.kill e r o).store e).shown id = if id = o.orderId then none
      else (w1.store e).shown id := by
  split_ifs with hid
  · refine Store.shown_of_notMem fun t => ?_
    rw [World.book_kill, hid]
    exact hfree.notMem hoff t
  · refine Store.shown_congr (fun t => by rw [World.book_kill]) fun _ => ?_
    rw [World.find_kill, if_neg]
    rintro ⟨_, hr⟩
    exact hid (hfree.entry id hr).symm

/-- A taker that comes to rest is shown as it rests; nothing else changes. -/
theorem World.shown_rest (hfree : w1.Free e r o) (id : ℕ) :
    ((w1.rest e s r o).store e).shown id = if id = o.orderId then o.shown
      else (w1.store e).shown id := by
  have hfind := World.find_rest w1 e s r o e hfree.entry (fun hr => (hfree.arg hr).1)
  split_ifs with hid
  · have hin : id ∈ (((w1.rest e s r o).store e).book s.opp).ids := by
      rw [World.book_rest, if_pos ⟨rfl, rfl⟩]
      exact Ladder.mem_ids_insert.mpr (Or.inl hid)
    rw [Store.shown_of_mem hin, hfind, if_pos ⟨rfl, hid⟩]
    rfl
  · refine Store.shown_congr (fun t => ?_) fun _ => ?_
    · rw [World.book_rest]
      split_ifs with ht
      · rw [Ladder.mem_ids_insert, ht.2]
        simp [hid]
      · rfl
    · rw [hfind, if_neg (fun hc => hid hc.2)]

theorem Store.restFate_cases (g : Store) (s : Side) (p : ℤ) : (∃ q, g.restFate s p = .rested q) ∨
    (p = marketPrice ∧
      g.restFate s p = .killed marketPrice .canceledByMarketOrderNothingMatch) := by
  unfold Store.restFate
  split_ifs with hp hb
  · exact Or.inl ⟨_, rfl⟩
  · exact Or.inr ⟨not_not.mp hp, rfl⟩
  · exact Or.inl ⟨_, rfl⟩

/-- A taker that is killed is not active afterwards, and keeps its price if it has traded. -/
theorem Store.fate_killed {g : Store} {tick p : ℤ} {st : OrderStatus}
    (h : g.fate tick s o = .killed p st) :
    (st ≠ .opened ∧ st ≠ .partialFill) ∧ (g.takes s o = [] ∨ p = o.price) := by
  have hrest : ∀ q, g.restFate s q = .killed p st → (st ≠ .opened ∧ st ≠ .partialFill) ∧
      (q = o.price → p = o.price) := by
    intro q hq
    rcases g.restFate_cases s q with ⟨_, he⟩ | ⟨hqm, he⟩
    · rw [he] at hq; cases hq
    · rw [he] at hq
      cases hq
      exact ⟨by simp, fun hqo => hqm.symm.trans hqo⟩
  cases htc : o.timeCondition <;> simp only [Store.fate, Store.residualFate, htc] at h
  case makerOnly =>
    split_ifs at h
    · exact ⟨(hrest _ h).1, Or.inr ((hrest _ h).2 rfl)⟩
    · cases h
      exact ⟨by simp, Or.inr rfl⟩
  case makerOnlyReprice =>
    refine ⟨?_, Or.inl (by simp only [Store.takes, htc])⟩
    split at h
    · exact (hrest _ h).1
    · exact (hrest _ h).1
  case ioc =>
    split_ifs at h <;> cases h <;> exact ⟨by simp, Or.inr rfl⟩
  case auction =>
    split_ifs at h <;> cases h <;> exact ⟨by simp, Or.inr rfl⟩
  case fok =>
    split_ifs at h
    cases h
    exact ⟨by simp, Or.inr rfl⟩
  all_goals
    split_ifs at h
    exact ⟨(hrest _ h).1, Or.inr ((hrest _ h).2 rfl)⟩

/-- What a book can hear of an execution. -/
structure Hearing (T : ℕ → Terms → Prop) (w : World) (e : ℕ) (s : Side) (r : Ref) (o : Order)
    (k : ℕ) (hs : List Held) : Prop where
  stores : StoreOk T (w.store e) k (r.hand ++ hs)
  firm : Firm (w.store e) (r.hand ++ hs)
  free : w.Free e r o
  off : OffBook w e r
  pos : o.remainQuantity ≠ 0
  whole : o.remainQuantity = o.quantity
  active : o.Active
  sided : (w.store e).Sided
  rests : o.RestsOn s.opp
  oneLeg : o.side ≠ .buySellStop
  told : (w.store e).Heard (w.conf e).miniTick s o

theorem Order.calc_le (o : Order) : o.calcRemainQuantity ≤ o.remainQuantity := by
  unfold Order.calcRemainQuantity
  split_ifs
  · exact Nat.zero_le _
  · exact le_rfl

namespace Hearing

variable (h : Hearing T w e s r o k hs)
include h

theorem half {o' : Order} (hs : o'.side = o.side) : o'.bookHalf = some s.opp.half :=
  Order.RestsOn.bookHalf (by unfold Order.RestsOn; rw [hs]; exact h.rests)
    (by rw [hs]; exact h.oneLeg)

theorem queued : Md.Queued (w.store e).shown o ((w.store e).takes s o) :=
  Md.queued_takes h.stores.books h.firm (h.free.notMem h.off)

/-- The first report of a taker that trades does not carry. -/
theorem first_small {t : Trade} {n : ℕ} {rest : List Trade} {z : Shown}
    (ht : trades n o ((w.store e).takes s o) = t :: rest) (hz : t.takerAfter.shown = some z)
    {b' : BasicBook}
    (hb : Follows b' (Function.update (w.store e).shown t.maker.orderId t.makerAfter.shown)) :
    b'.recorded z.half z.price + z.quantity < 2 ^ 64 := by
  obtain ⟨hp, _, hzh, hzp, hzq⟩ := Order.shown_eq_some.mp hz
  rcases hms : (w.store e).takes s o with _ | ⟨m, ms⟩
  · rw [hms] at ht; cases ht
  rw [hms, trades_cons _ _ _ h.pos] at ht
  obtain ⟨hteq, _⟩ := List.cons.inj ht
  have hmaker : t.maker = m := by rw [← hteq]
  have htaker : t.taker = o := by rw [← hteq]
  have hquantity : t.quantity = min m.remainQuantity o.remainQuantity := by rw [← hteq]
  have hmem : m ∈ (w.store e).queue s :=
    ((w.store e).takes_sublist s o).subset (by rw [hms]; exact List.mem_cons_self)
  obtain ⟨j, hj, hfj⟩ := Store.mem_queue.mp hmem
  obtain ⟨q, hat⟩ := Ladder.mem_ids.mp hj
  have hprice : z.price = o.price := by rw [← htaker]; exact hzp
  have hhalf : z.half = s.opp.half := by
    rw [Trade.takerAfter_bookHalf, htaker, h.half rfl] at hzh
    exact (Option.some.inj hzh).symm
  have hrem : t.takerAfter.remainQuantity =
      o.remainQuantity - min m.remainQuantity o.remainQuantity := by
    rw [Trade.takerAfter, engineMatch_remainQuantity, htaker, hquantity,
      subU64_of_le (min_le_right _ _)]
  have hrec :=
    hb.recorded_opp h.stores.books h.firm h.sided (u := s) (p := z.price)
      (fun he => hp (hzp.symm.trans he))
    (by rw [hmaker, (h.stores.books.restsAt hat hfj).orderId]; exact hj)
    (fun y hy => by
      have hyh := (Order.shown_eq_some.mp hy).2.2.1
      rw [Trade.makerAfter_bookHalf, hmaker, h.sided hj hfj] at hyh
      exact (Option.some.inj hyh).symm)
  have hsmall :=
    h.told.small o.price (o.remainQuantity - m.remainQuantity) (by rw [Store.firstTold, hms])
    (fun he => hp (hzp.symm.trans (hprice.trans he)))
  have hcalc := t.takerAfter.calc_le
  rw [hhalf, hrec, hprice, hzq]
  omega

/-- A taker that rests untouched does not carry. -/
theorem rest_small {p : ℤ} {z : Shown} (hnil : (w.store e).takes s o = [])
    (hfate : (w.store e).fate (w.conf e).miniTick s o = .rested p)
    (hz : ({ o with price := p } : Order).shown = some z) (hb : Follows b (w.store e).shown) :
    b.recorded z.half z.price + z.quantity < 2 ^ 64 := by
  obtain ⟨hp, _, hzh, hzp, hzq⟩ := Order.shown_eq_some.mp hz
  have hhalf : z.half = s.opp.half := Option.some.inj (hzh.symm.trans (h.half rfl))
  have hsmall := h.told.small p o.remainQuantity (by rw [Store.firstTold, hnil, hfate]) hp
  have hcalc := ({ o with price := p } : Order).calc_le
  rw [hhalf, hzp,
    hb.recorded_depth h.stores.books h.firm h.sided s.opp hp fun _ _ _ => Iff.rfl, hzq]
  exact (Nat.add_le_add_left hcalc _).trans_lt hsmall

/-- The reports of the trades, fed to a book that follows the store. -/
theorem follows_trades (n : ℕ) (c : Option ℤ) (hf : Follows b (w.store e).shown) :
    Follows (b.feed (heard e c (tradeReports e (trades n o ((w.store e).takes s o)))))
      (afterView (w.store e).shown (trades n o ((w.store e).takes s o))) :=
  hf.trades e c n h.queued (Store.shown_of_notMem (h.free.notMem h.off)) fun _ _ _ ht hz _ hb =>
    h.first_small ht hz hb

/-- The taker has traded, or it is as it was. -/
theorem trades_cases (n : ℕ) :
    (trades n o ((w.store e).takes s o) = [] ∧ (w.store e).takes s o = []) ∨
    (trades n o ((w.store e).takes s o) ≠ [] ∧ (w.store e).takes s o ≠ [] ∧
      (afterTrades o (trades n o ((w.store e).takes s o))).remainQuantity < o.remainQuantity) := by
  rcases hms : (w.store e).takes s o with _ | ⟨m, ms⟩
  · exact Or.inl ⟨rfl, rfl⟩
  · have hmem : m ∈ (w.store e).queue s :=
      ((w.store e).takes_sublist s o).subset (by rw [hms]; exact List.mem_cons_self)
    have hpos := Store.remain_of_queue h.stores.books hmem
    have h0 := h.pos
    refine Or.inr ⟨by rw [trades_cons _ _ _ h.pos]; simp, by simp, ?_⟩
    rw [remain_afterTrades, List.map_cons, List.sum_cons]
    omega

/-- The taker after its trades is still outside the books and free to rest. -/
theorem free_after {n : ℕ} (htr : Traded w e s r o (trades n o ((w.store e).takes s o)) w1) :
    w1.Free e r (afterTrades o (trades n o ((w.store e).takes s o))) := by
  have hid : (afterTrades o (trades n o ((w.store e).takes s o))).orderId = o.orderId :=
    (filled_afterTrades n o _).orderId
  have hnot := h.free.notMem h.off
  refine ⟨fun j hr => hid.trans (h.free.entry j hr), fun hr => ⟨?_, fun t => ?_⟩⟩
  · have hnone : (trades n o ((w.store e).takes s o)).find?
      (fun t => t.maker.orderId = o.orderId) = none := by
      rw [List.find?_eq_none]
      exact fun t ht => by simpa using h.queued.other _ (mem_makers ht)
    rw [hid, htr.find _ (by rw [hr]; simp), hnone]
    exact (h.free.arg hr).1
  · rw [hid]
    by_cases ht : t = s
    · subst ht
      rw [htr.book, Ladder.mem_ids_without]
      exact fun hm => hnot t hm.1
    · rw [htr.bookOther e t (fun he => ht (congrArg Prod.snd he))]
      exact hnot t

/-- The trades leave of the taker what `trades` ends in; the store shows nothing of it before. -/
theorem view_taker (n : ℕ) :
    afterView (w.store e).shown (trades n o ((w.store e).takes s o)) o.orderId =
      if trades n o ((w.store e).takes s o) = [] then none
      else (afterTrades o (trades n o ((w.store e).takes s o))).shown := by
  rw [afterView_eq o.orderId _ _ o _ h.queued.nodup h.queued.other, if_pos rfl,
    Store.shown_of_notMem (h.free.notMem h.off)]

/-- The report of a killed taker takes it off what the trades left. -/
theorem follows_killed {n : ℕ} {p : ℤ} {st : OrderStatus} {o' : Order} (c : Option ℤ)
    (hfate : (w.store e).fate (w.conf e).miniTick s o = .killed p st)
    (ho' : o' = { afterTrades o (trades n o ((w.store e).takes s o)) with
      price := p, orderState := st })
    (hf : Follows b (afterView (w.store e).shown (trades n o ((w.store e).takes s o)))) :
    Follows (b.handleOdr (o'.priced c)).1
      (Function.update (afterView (w.store e).shown (trades n o ((w.store e).takes s o)))
        o.orderId none) := by
  obtain ⟨⟨hst1, hst2⟩, hprice⟩ := Store.fate_killed hfate
  have hfill := filled_afterTrades n o ((w.store e).takes s o)
  have hid : o'.orderId = o.orderId := by rw [ho']; exact hfill.orderId
  have hcalc : o'.calcRemainQuantity = 0 := by rw [ho']; exact if_pos ⟨hst1, hst2⟩
  have hnone : o'.shown = none := Order.shown_eq_none.mpr (Or.inr (Or.inl hcalc))
  have hown := h.view_taker n
  rcases h.trades_cases n with ⟨hnil, _⟩ | ⟨hne, hne', _⟩
  · have hadd := hf.add (o := o'.priced c)
      (by rw [Order.orderId_priced, hid, hown, if_pos hnil])
      (fun z hz => by rw [Order.shown_priced, hnone] at hz; cases hz)
    rw [Order.shown_priced, hnone, Order.orderId_priced, hid] at hadd
    exact hadd
  · set o1 := afterTrades o (trades n o ((w.store e).takes s o)) with ho1
    have hhalf : o'.bookHalf = o1.bookHalf :=
      (h.half (by rw [ho']; exact hfill.side)).trans (h.half hfill.side).symm
    have hp : o'.price = o1.price := by
      rw [ho']
      exact (hprice.resolve_left hne').trans hfill.price.symm
    have hfol := hf.follow (o := o'.priced c) (m := o1)
      (by rw [Order.orderId_priced, hid, hown, if_neg hne]) hp hhalf
      (by rw [Order.calcRemainQuantity_priced, hcalc]; exact Nat.zero_le _)
    rw [Order.shown_priced, hnone, Order.orderId_priced, hid] at hfol
    exact hfol

/-- What the callback hears of a taker that rests puts it on what the trades left. -/
theorem follows_rested {n : ℕ} {p : ℤ} {o' : Order} (c : Option ℤ)
    (hfate : (w.store e).fate (w.conf e).miniTick s o = .rested p)
    (ho' : o' = { afterTrades o (trades n o ((w.store e).takes s o)) with price := p })
    (hf : Follows b (w.store e).shown) :
    Follows (b.feed (heard e c (tradeReports e (trades n o ((w.store e).takes s o)) ++
        if o'.remainQuantity = o'.quantity then [(e, o')] else [])))
      (Function.update (afterView (w.store e).shown (trades n o ((w.store e).takes s o)))
        o.orderId o'.shown) := by
  have hft := h.follows_trades n c hf
  have hfill := filled_afterTrades n o ((w.store e).takes s o)
  have hid : o'.orderId = o.orderId := by rw [ho']; exact hfill.orderId
  have hown := h.view_taker n
  rcases h.trades_cases n with ⟨hnil, hnil'⟩ | ⟨hne, hne', hlt⟩
  · -- the taker has not traded and is reported as it comes to rest
    have heq : o' = { o with price := p } := by rw [ho', hnil]; rfl
    have hwhole : o'.remainQuantity = o'.quantity := by rw [heq]; exact h.whole
    rw [if_pos hwhole, heard_append, BasicBook.feed_append, heard_self]
    have hadd := hft.add (o := o'.priced c)
      (by rw [Order.orderId_priced, hid, hown, if_pos hnil])
      (fun z hz => by
        rw [hnil]
        rw [Order.shown_priced, heq] at hz
        exact h.rest_small hnil' hfate hz hf)
    rw [Order.shown_priced, Order.orderId_priced, hid] at hadd
    exact hadd
  · -- the taker has traded: what the last trade left of it is known already
    set o1 := afterTrades o (trades n o ((w.store e).takes s o)) with ho1
    have hpart : o'.remainQuantity ≠ o'.quantity := by
      rw [ho']
      show o1.remainQuantity ≠ o1.quantity
      rw [hfill.quantity, ← h.whole]
      exact hlt.ne
    have hsame : o' = o1 := by
      have hp : p = o1.price := ((h.told.price p hfate).resolve_left hne').trans hfill.price.symm
      rw [ho', hp]
    rw [if_neg hpart, List.append_nil]
    refine hft.congr fun id => ?_
    rw [Function.update_apply]
    split_ifs with hid'
    · rw [hid', hown, if_neg hne, hsame]
    · rfl

end Hearing

/-- A book that follows the store hears of an execution what the store makes of it. -/
theorem Executed.follows (h : Hearing T w e s r o k hs) (hex : Executed w e s r o w') :
    ∃ rs, Emits w w' rs ∧ ∀ c b, Follows b (w.store e).shown →
      Follows (b.feed (heard e c rs)) (w'.store e).shown := by
  obtain ⟨w1, hw1, htr, hends⟩ := hex
  rw [Store.plan_eq] at htr hends
  set ms := (w.store e).takes s o with hms
  set o1 := afterTrades o (trades w.nextId o ms) with ho1
  have hfill : Filled o o1 := filled_afterTrades ..
  have hfree := h.free_after htr
  have hview : ∀ id, id ≠ o.orderId →
      (w1.store e).shown id = afterView (w.store e).shown (trades w.nextId o ms) id :=
    fun id hne => htr.shown h.stores.books h.queued ((w.store e).takes_sublist s o) h.free.entry hne
  have hown : afterView (w.store e).shown (trades w.nextId o ms) o.orderId =
      if trades w.nextId o ms = [] then none else o1.shown := h.view_taker w.nextId
  generalize hfate : (w.store e).fate (w.conf e).miniTick s o = f at hends
  cases hends with
  | filled h0 =>
    refine ⟨_, htr.emits, fun c b hf => (h.follows_trades w.nextId c hf).congr fun id => ?_⟩
    by_cases hid : id = o.orderId
    · have hnone : o1.shown = none :=
        Order.shown_eq_none.mpr (Or.inr (Or.inl (Nat.le_zero.mp (o1.calc_le.trans h0.le))))
      rw [hid, hown, hnone, ite_self, ← hfill.orderId, Store.shown_of_notMem (hfree.notMem hw1.off)]
    · exact (hview id hid).symm
  | killed h0 p st =>
    set o2 : Order := { o1 with price := p, orderState := st } with ho2
    have hid2 : o2.orderId = o.orderId := hfill.orderId
    have hfree2 : w1.Free e r o2 := ⟨hfree.entry, hfree.arg⟩
    refine ⟨_, htr.emits.trans (Emits.kill w1 e r o2), fun c b hf => ?_⟩
    rw [heard_append, BasicBook.feed_append, heard_self]
    refine (h.follows_killed c hfate ho2 (h.follows_trades w.nextId c hf)).congr fun id => ?_
    rw [World.shown_kill hfree2 hw1.off, Function.update_apply, hid2]
    split_ifs with hid
    · rfl
    · exact (hview id hid).symm
  | rested h0 p =>
    set o2 : Order := { o1 with price := p } with ho2
    have hid2 : o2.orderId = o.orderId := hfill.orderId
    have hfree2 : w1.Free e r o2 := ⟨hfree.entry, hfree.arg⟩
    refine ⟨_, htr.emits.trans (Emits.rest w1 e s r o2), fun c b hf => ?_⟩
    refine (h.follows_rested c hfate ho2 hf).congr fun id => ?_
    rw [World.shown_rest hfree2, Function.update_apply, hid2]
    split_ifs with hid
    · rfl
    · exact (hview id hid).symm

end Executed

end Matching
