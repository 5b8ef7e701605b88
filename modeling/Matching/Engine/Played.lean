import Matching.Engine.Ledger
import Matching.Engine.Placed
import Matching.Engine.Reports

/-! Who was executed, on which side and for how much, as a history of an engine without impliers. An
    order is a taker once at most; who rests in a book has been a taker on the other side; who still
    waits has been none; and what an order was reported filled for, with what is left of it, is not
    more than it had as a taker (`Played`). -/

namespace Matching

instance (o : Order) : Decidable o.SaysFilled := inferInstanceAs (Decidable (_ ∧ _))

/-- The quantity that the report says order `k` was filled for. -/
def Order.tells (k : ℕ) (o : Order) : ℕ :=
  if o.orderId = k ∧ o.SaysFilled then o.lastMatchQuantity else 0

/-- The report says that the order was cancelled or replaced. -/
def Order.SaysGone (o : Order) : Prop :=
  o.orderState = .canceledByUser ∨ o.orderState = .canceledByAmend

/-- What the reports of engine `e` among `rs` say order `k` was filled for. -/
def told (e k : ℕ) (rs : List Report) : ℕ :=
  ((rs.filter fun x => x.1 = e).map fun x => x.2.tells k).sum

namespace World

/-- Engine `e` reported `o`; during an auction the report is yet to be delivered. -/
def Said (w : World) (e : ℕ) (o : Order) : Prop := (e, o) ∈ w.reports ∨ o ∈ (w.engines e).cbRecords

/-- What the reports of engine `e` say order `k` was filled for. -/
def filledFor (w : World) (e k : ℕ) : ℕ :=
  told e k w.reports + ((w.engines e).cbRecords.map (Order.tells k)).sum

/-- What is left of order `k`. -/
def left (w : World) (e k : ℕ) : ℕ := ((w.order? e k).map Order.remainQuantity).getD 0

/-- Order `k` has been no taker. -/
def Unplayed (w : World) (e k : ℕ) : Prop := ∀ z ∈ w.execs, z.engine = e → z.taker.orderId ≠ k

/-- Order `k` has been a taker of side `s`. -/
def PlayedOn (w : World) (e k : ℕ) (s : Side) : Prop :=
  ∃ z ∈ w.execs, z.engine = e ∧ z.taker.orderId = k ∧ z.side = s

/-- The history of engine `e`, which has the ids `hs` in hand. -/
structure Played (w : World) (e : ℕ) (hs : List Held) : Prop where
  below : ∀ z ∈ w.execs, z.engine = e → z.taker.orderId < w.nextId
  once : ((w.execs.filter fun z => z.engine = e).map fun z => z.taker.orderId).Nodup
  rested : ∀ {t k}, k ∈ ((w.store e).book t).ids → w.PlayedOn e k t.opp
  waiting : ∀ {k}, (w.store e).Waiting hs k → w.Unplayed e k ∧ ∀ o, w.Said e o →
    o.orderId = k → ¬o.SaysGone
  gone : ∀ o, w.Said e o → o.SaysGone → o.orderId < w.nextId
  met : ∀ z ∈ w.execs, z.engine = e → ∀ m ∈ z.before.toStore.queue z.side,
    m.orderId ≠ z.taker.orderId ∧ w.PlayedOn e m.orderId z.side.opp
  filled : ∀ z ∈ w.execs, z.engine = e →
    w.filledFor e z.taker.orderId + w.left e z.taker.orderId ≤ z.taker.quantity
  unfilled : ∀ k, w.Unplayed e k → w.filledFor e k = 0

end World

variable {T : ℕ → Terms → Prop} {w w' w1 : World} {e k n : ℕ} {s : Side} {r : Ref}
  {hs hs' : List Held} {o q : Order} {rs rs' : List Report}

/-! ### What reports say -/

theorem told_append (e k : ℕ) (rs rs' : List Report) :
    told e k (rs ++ rs') = told e k rs + told e k rs' := by
  simp [told]

@[simp] theorem told_nil (e k : ℕ) : told e k [] = 0 := rfl

theorem told_cons_self (e k : ℕ) (o : Order) (rs : List Report) :
    told e k ((e, o) :: rs) = o.tells k + told e k rs := by
  simp [told]

theorem Order.tells_of_ne (h : o.orderId ≠ k) : o.tells k = 0 := if_neg fun hc => h hc.1

theorem Order.tells_of_silent (h : ¬o.SaysFilled) : o.tells k = 0 := if_neg fun hc => h hc.2

theorem Order.tells_le (o : Order) (k : ℕ) : o.tells k ≤ o.lastMatchQuantity := by
  unfold tells
  split_ifs
  · exact le_rfl
  · exact Nat.zero_le _

theorem told_eq_zero (h : ∀ x ∈ rs, ¬x.2.SaysFilled) : told e k rs = 0 := by
  induction rs with
  | nil => rfl
  | cons x rs ih =>
    have hrs := ih fun y hy => h y (List.mem_cons_of_mem _ hy)
    have hx : x.2.tells k = 0 := Order.tells_of_silent (h x List.mem_cons_self)
    rw [← List.singleton_append, told_append, hrs, Nat.add_zero, told, List.sum_eq_zero]
    intro n hn
    obtain ⟨y, hy, rfl⟩ := List.mem_map.mp hn
    rw [List.mem_singleton.mp (List.mem_of_mem_filter hy), hx]

theorem Emits.said (h : Emits w w' rs) : w'.Said e o ↔ w.Said e o ∨ (e, o) ∈ rs := by
  unfold World.Said
  rw [h.reports, h.cbRecords]
  by_cases ha : (w.engines e).isAuction
  · simp [ha, or_assoc]
  · simp only [List.mem_append, List.mem_filter, ha]
    simp [or_right_comm]

theorem Emits.filledFor (h : Emits w w' rs) : w'.filledFor e k = w.filledFor e k + told e k rs := by
  have hboth : (rs.filter fun x => !(w.engines x.1).isAuction).filter (fun x => x.1 = e) =
      if (w.engines e).isAuction then [] else rs.filter fun x => x.1 = e := by
    rw [List.filter_filter]
    by_cases ha : (w.engines e).isAuction
    · rw [if_pos ha, List.filter_eq_nil_iff]
      rintro ⟨l, o⟩ _ hx
      simp only [Bool.and_eq_true, decide_eq_true_eq, Bool.not_eq_true'] at hx
      obtain ⟨rfl, hx⟩ := hx
      rw [ha] at hx
      cases hx
    · rw [if_neg ha]
      refine List.filter_congr fun x _ => ?_
      by_cases hx : x.1 = e
      · simp [hx, ha]
      · simp [hx]
  have hreports : told e k w'.reports = told e k w.reports + if (w.engines e).isAuction then 0
      else told e k rs := by
    rw [h.reports, told_append, told, told, hboth]
    split_ifs <;> rfl
  rw [World.filledFor, World.filledFor, hreports, h.cbRecords, List.map_append, List.sum_append]
  by_cases ha : (w.engines e).isAuction
  · have hmap : ((rs.filter fun x => x.1 = e).map Prod.snd).map (Order.tells k) =
      (rs.filter fun x => x.1 = e).map fun x => x.2.tells k :=
      List.map_map
    simp only [ha, if_true, hmap, told]
    omega
  · simp only [ha, Bool.false_eq_true, if_false, List.map_nil, List.sum_nil]
    omega

/-! ### What trades say -/

theorem tells_makerAfter (t : Trade) (k : ℕ) :
    t.makerAfter.tells k ≤ if t.maker.orderId = k then t.quantity else 0 := by
  split_ifs with hk
  · exact Order.tells_le ..
  · exact (Order.tells_of_ne (o := t.makerAfter) hk).le

theorem tells_takerAfter (t : Trade) (k : ℕ) :
    t.takerAfter.tells k ≤ if t.taker.orderId = k then t.quantity else 0 := by
  split_ifs with hk
  · exact Order.tells_le ..
  · exact (Order.tells_of_ne (o := t.takerAfter) hk).le

theorem told_cons_trade (e k : ℕ) (t : Trade) (ts : List Trade) :
    told e k (tradeReports e (t :: ts)) = t.makerAfter.tells k + t.takerAfter.tells k + told e k
      (tradeReports e ts) := by
  rw [tradeReports, List.flatMap_cons, List.cons_append, List.singleton_append, told_cons_self,
    told_cons_self, Nat.add_assoc]
  rfl

/-- The taker is told filled for what its trades take of it. -/
theorem told_taker (e : ℕ) :
    ∀ (n : ℕ) (o : Order) (ms : List Order), (∀ m ∈ ms, m.orderId ≠ o.orderId) →
    told e o.orderId (tradeReports e (trades n o ms)) +
      (afterTrades o (trades n o ms)).remainQuantity ≤ o.remainQuantity
  | _, o, [], _ => by simp [tradeReports]
  | n, o, m :: ms, hne => by
    by_cases h0 : o.remainQuantity = 0
    · rw [trades_of_filled n h0]
      simp [tradeReports]
    set t : Trade := ⟨m, o, min m.remainQuantity o.remainQuantity, n⟩
    have hq : t.quantity ≤ o.remainQuantity := min_le_right _ _
    have hremain : t.takerAfter.remainQuantity = o.remainQuantity - t.quantity := subU64_of_le hq
    have hrest : told e o.orderId (tradeReports e (trades (n + 1) t.takerAfter ms)) +
        (afterTrades t.takerAfter (trades (n + 1) t.takerAfter ms)).remainQuantity ≤
          t.takerAfter.remainQuantity :=
      told_taker e (n + 1) t.takerAfter ms fun m' hm => hne m' (List.mem_cons_of_mem _ hm)
    have hmaker : t.makerAfter.tells o.orderId = 0 := Order.tells_of_ne (hne m List.mem_cons_self)
    have htaker := tells_takerAfter t o.orderId
    rw [if_pos (rfl : t.taker.orderId = o.orderId)] at htaker
    have hcons : trades n o (m :: ms) = t :: trades (n + 1) t.takerAfter ms := trades_cons n m ms h0
    rw [hcons, afterTrades_cons, told_cons_trade, hmaker]
    omega

/-- Another order is told filled for the quantity of its trade, which it has. -/
theorem told_maker (e : ℕ) :
    ∀ (n : ℕ) (o : Order) (ms : List Order), (ms.map Order.orderId).Nodup → o.orderId ≠ k →
    match (trades n o ms).find? (fun t => t.maker.orderId = k) with
    | none => told e k (tradeReports e (trades n o ms)) = 0
    | some t => told e k (tradeReports e (trades n o ms)) + t.makerAfter.remainQuantity ≤
        t.maker.remainQuantity
  | _, o, [], _, _ => rfl
  | n, o, m :: ms, hnd, hk => by
    by_cases h0 : o.remainQuantity = 0
    · rw [trades_of_filled n h0]
      rfl
    rw [List.map_cons, List.nodup_cons] at hnd
    set t : Trade := ⟨m, o, min m.remainQuantity o.remainQuantity, n⟩
    have hq : t.quantity ≤ m.remainQuantity := min_le_left _ _
    have hremain : t.makerAfter.remainQuantity = m.remainQuantity - t.quantity := subU64_of_le hq
    have hrest := told_maker e (n + 1) t.takerAfter ms hnd.2 hk
    have htaker : t.takerAfter.tells k = 0 := Order.tells_of_ne hk
    have hmaker := tells_makerAfter t k
    have hcons : trades n o (m :: ms) = t :: trades (n + 1) t.takerAfter ms := trades_cons n m ms h0
    rw [hcons, told_cons_trade, htaker]
    by_cases hm : m.orderId = k
    · have hnone : (trades (n + 1) t.takerAfter ms).find?
        (fun t => t.maker.orderId = k) = none := by
        rw [List.find?_eq_none]
        intro u hu hc
        refine hnd.1 (List.mem_map.mpr ⟨u.maker, mem_makers hu, ?_⟩)
        rw [hm]
        simpa using hc
      rw [hnone] at hrest
      rw [if_pos hm] at hmaker
      rw [List.find?_cons_of_pos (by simpa using hm)]
      simp only at hrest ⊢
      have hown : t.maker.remainQuantity = m.remainQuantity := rfl
      omega
    · have hzero : t.makerAfter.tells k = 0 := Order.tells_of_ne hm
      rw [List.find?_cons_of_neg (by simpa using hm), hzero]
      simpa using hrest

/-- The queue names every order once. -/
theorem Store.queue_nodup {g : Store} (h : BooksOk g) (s : Side) :
    ((g.queue s).map Order.orderId).Nodup := by
  rw [List.Nodup, List.pairwise_map]
  refine (Store.queue_sorted h s).imp_of_mem fun {a b} ha hb hab heq => ?_
  obtain ⟨i, hi, hfa⟩ := Store.mem_queue.mp ha
  obtain ⟨j, hj, hfb⟩ := Store.mem_queue.mp hb
  obtain ⟨p, hp⟩ := Ladder.mem_ids.mp hi
  obtain ⟨c, hc⟩ := Ladder.mem_ids.mp hj
  obtain rfl : i = j := (h.restsAt hp hfa).orderId.symm.trans (heq.trans (h.restsAt hc hfb).orderId)
  obtain rfl := Option.some.inj (hfa.symm.trans hfb)
  rcases hab with hlt | ⟨_, hlt⟩
  · have hirr : s.cmp a.price a.price = false := StrictLt.irrefl a.price
    rw [hirr] at hlt
    cases hlt
  · exact lt_irrefl _ hlt

/-! ### Executions -/

/-- A taker is killed in a state of its own. -/
theorem Store.fate_killed_status {g : Store} {tick p : ℤ} {st : OrderStatus}
    (h : g.fate tick s o = .killed p st) :
    ¬st.IsFill ∧ st ≠ .canceledByUser ∧ st ≠ .canceledByAmend := by
  have hrest : ∀ c, g.restFate s c = .killed p st →
      st = .canceledByMarketOrderNothingMatch := fun c hc => by
    unfold restFate at hc
    split_ifs at hc
    cases hc
    rfl
  have hquiet : st = .canceledByMarketOrderNothingMatch → ¬st.IsFill ∧ st ≠ .canceledByUser ∧
      st ≠ .canceledByAmend := by
    rintro rfl
    decide
  unfold fate residualFate at h
  cases htc : o.timeCondition <;> rw [htc] at h <;> simp only at h
  case makerOnly =>
    split_ifs at h
    · exact hquiet (hrest _ h)
    · cases h
      decide
  case makerOnlyReprice =>
    split at h <;> exact hquiet (hrest _ h)
  all_goals split_ifs at h <;> first | exact hquiet (hrest _ h) | (cases h; decide)

/-- The end of an execution reports no fill and nothing gone. -/
theorem Ends.says {o1 : Order} {f : Fate} (h : Ends w1 e s r o1 f w')
    (hact : o1.remainQuantity ≠ 0 → o1.Active)
    (hf : ∀ p st, f = .killed p st → ¬st.IsFill ∧ st ≠ .canceledByUser ∧ st ≠ .canceledByAmend) :
    ∃ rs, Emits w1 w' rs ∧ ∀ x ∈ rs, ¬x.2.SaysFilled ∧ ¬x.2.SaysGone := by
  cases h with
  | filled => exact ⟨[], Emits.refl _, fun x hx => by cases hx⟩
  | killed h0 p st =>
    refine ⟨_, Emits.kill w1 e r _, fun x hx => ?_⟩
    obtain rfl := List.mem_singleton.mp hx
    obtain ⟨hfill, huser, hamend⟩ := hf p st rfl
    exact ⟨fun hs => hfill hs.1, fun hg => hg.elim huser hamend⟩
  | rested h0 p =>
    refine ⟨_, Emits.rest w1 e s r _, fun x hx => ?_⟩
    split_ifs at hx with hw
    · obtain rfl := List.mem_singleton.mp hx
      refine ⟨fun hs => absurd hw hs.2.ne, fun hg => ?_⟩
      have ha : o1.Active := hact h0
      have hg' : o1.SaysGone := hg
      rcases ha with ha | ha <;> rcases hg' with hg' | hg' <;> rw [ha] at hg' <;> cases hg'
    · cases hx

/-- Of its taker an execution leaves at most what it has after its trades, and of the
    others what it finds. -/
theorem Ends.left {o1 : Order} {f : Fate} (h : Ends w1 e s r o1 f w') (hfree : w1.Free e r o1)
    (ho1 : w1.left e o1.orderId ≤ o1.remainQuantity) :
    w'.left e o1.orderId ≤ o1.remainQuantity ∧ ∀ k, k ≠ o1.orderId → w'.left e k = w1.left e k := by
  cases h with
  | filled => exact ⟨ho1, fun k _ => rfl⟩
  | killed h0 p st =>
    have hfind : ∀ k, (w1.kill e r { o1 with price := p, orderState := st }).order? e k =
        if r = .entry k then some { o1 with price := p, orderState := st }
        else w1.order? e k := fun k => by
      rw [World.order?, World.find_kill]
      simp only [true_and]
      rfl
    refine ⟨?_, fun k hk => ?_⟩
    · rw [World.left, hfind]
      split_ifs
      · exact le_rfl
      · exact ho1
    · rw [World.left, hfind, if_neg fun hr => hk (hfree.entry k hr).symm]
      rfl
  | rested h0 p =>
    have hfind : ∀ k, (w1.rest e s r { o1 with price := p }).order? e k =
        if k = o1.orderId then some { o1 with price := p } else w1.order? e k := fun k => by
      rw [World.order?,
        World.find_rest w1 e s r { o1 with price := p } e hfree.entry (fun hr => (hfree.arg hr).1)]
      simp only [true_and]
      rfl
    refine ⟨?_, fun k hk => ?_⟩
    · rw [World.left, hfind, if_pos rfl]
      exact le_rfl
    · rw [World.left, hfind, if_neg hk]
      rfl

/-- What an execution reports, and what it leaves of every order. -/
structure Accounted (w w' : World) (e : ℕ) (s : Side) (o : Order) : Prop where
  taker : w'.filledFor e o.orderId + w'.left e o.orderId ≤
    w.filledFor e o.orderId + o.remainQuantity
  others : ∀ k, k ≠ o.orderId → w'.filledFor e k + w'.left e k ≤ w.filledFor e k + w.left e k
  apart : ∀ k, k ≠ o.orderId → k ∉ ((w.store e).book s).ids → w'.filledFor e k = w.filledFor e k
  said : ∀ o', w'.Said e o' → w.Said e o' ∨ ¬o'.SaysGone

theorem Traded.left {m : ℕ} {ms : List Order} (htr : Traded w e s r o (trades m o ms) w1)
    (hok : StoreOk T (w.store e) n hs') (hms : ms.Sublist ((w.store e).queue s))
    (hfree : w.Free e r o) (hoff : OffBook w e r) :
    w1.left e o.orderId ≤ (afterTrades o (trades m o ms)).remainQuantity ∧
      ∀ k, k ≠ o.orderId → told e k (tradeReports e (trades m o ms)) + w1.left e k ≤ w.left e k ∧
        (k ∉ ((w.store e).book s).ids → told e k (tradeReports e (trades m o ms)) = 0) := by
  have hin : ∀ a ∈ ms, a.orderId ∈ ((w.store e).book s).ids ∧
      (w.store e).odrMap.find? a.orderId = some a := fun a ha => by
    obtain ⟨i, hi, hf⟩ := Store.mem_queue.mp (hms.subset ha)
    rw [(hok.key hf).1]
    exact ⟨hi, hf⟩
  have hnd : (ms.map Order.orderId).Nodup := (Store.queue_nodup hok.books s).sublist (hms.map _)
  refine ⟨?_, fun k hk => ?_⟩
  · cases r with
    | entry id =>
      have hid : o.orderId = id := hfree.entry id rfl
      have hf1 : (w1.store e).odrMap.find? id = some (afterTrades o (trades m o ms)) := by
        simpa [World.readRef, World.deref] using htr.taker
      rw [hid, World.left, World.order?, hf1]
      exact le_rfl
    | arg =>
      have hnone : (w1.store e).odrMap.find? o.orderId = none := by
        have hfree1 := Traded.free htr hok hms hfree
        have hfind := (hfree1.arg rfl).1
        rwa [(filled_afterTrades m o ms).orderId] at hfind
      rw [World.left, World.order?, hnone]
      exact Nat.zero_le _
  · have hr : r ≠ .entry k := fun hr => hk (hfree.entry k hr).symm
    have htold := told_maker e m o ms hnd hk.symm
    have hfind := htr.find k hr
    cases hmk : (trades m o ms).find? (fun t => t.maker.orderId = k) with
    | none =>
      rw [hmk] at htold hfind
      simp only at htold hfind
      refine ⟨?_, fun _ => htold⟩
      rw [htold, World.left, World.left, World.order?, World.order?, hfind, Nat.zero_add]
    | some t =>
      rw [hmk] at htold hfind
      simp only at htold hfind
      have hmaker : t.maker.orderId = k := by simpa using List.find?_some hmk
      obtain ⟨hbook, hf⟩ := hin _ (mem_makers (List.mem_of_find?_eq_some hmk))
      rw [hmaker] at hbook hf
      refine ⟨?_, fun hno => absurd hbook hno⟩
      have hleft1 : w1.left e k ≤ t.makerAfter.remainQuantity := by
        rw [World.left, World.order?, hfind]
        split_ifs
        · exact Nat.zero_le _
        · exact le_rfl
      have hleft : w.left e k = t.maker.remainQuantity := by
        rw [World.left, World.order?, hf]
        rfl
      omega

theorem Executed.accounted (h : Executed w e s r o w') (hok : StoreOk T (w.store e) n hs')
    (hfree : w.Free e r o) (hoff : OffBook w e r) (hact : o.Active) : Accounted w w' e s o := by
  obtain ⟨w1, hw1, htr, hends⟩ := h
  rw [Store.plan_eq] at htr hends
  have hms := (w.store e).takes_sublist s o
  have hne : ∀ m ∈ (w.store e).takes s o, m.orderId ≠ o.orderId := fun a ha he => by
    obtain ⟨i, hi, hf⟩ := Store.mem_queue.mp (hms.subset ha)
    rw [← (hok.key hf).1, he] at hi
    exact hfree.notMem hoff s hi
  obtain ⟨htaker1, hothers1⟩ := htr.left hok hms hfree hoff
  have htold := told_taker e w.nextId o ((w.store e).takes s o) hne
  have hfree1 := Traded.free htr hok hms hfree
  have hid : (afterTrades o (trades w.nextId o ((w.store e).takes s o))).orderId = o.orderId :=
    (filled_afterTrades w.nextId o ((w.store e).takes s o)).orderId
  obtain ⟨rs, hem, hrs⟩ :=
    hends.says (Order.active_afterTrades hact) fun p st hf => Store.fate_killed_status hf
  obtain ⟨htaker2, hothers2⟩ := hends.left hfree1 (hid.symm ▸ htaker1)
  rw [hid] at htaker2 hothers2
  have hzero : ∀ k, told e k rs = 0 := fun k => told_eq_zero fun x hx => (hrs x hx).1
  have hfilled : ∀ k, w'.filledFor e k = w.filledFor e k + told e k
      (tradeReports e (trades w.nextId o ((w.store e).takes s o))) := fun k => by
    rw [hem.filledFor, htr.emits.filledFor, hzero, Nat.add_zero]
  refine ⟨?_, fun k hk => ?_, fun k hk hbook => ?_, fun o' ho' => ?_⟩
  · rw [hfilled]
    omega
  · rw [hfilled, hothers2 k hk]
    have := (hothers1 k hk).1
    omega
  · rw [hfilled, (hothers1 k hk).2 hbook, Nat.add_zero]
  · rcases hem.said.mp ho' with ho' | ho'
    · refine (htr.emits.said.mp ho').imp id fun hmem hg => ?_
      obtain ⟨t, _, ht⟩ := List.mem_flatMap.mp hmem
      have hfill : o'.orderState.IsFill := by
        rcases List.mem_cons.mp ht with he | ht
        · cases he
          exact engineMatch_isFill ..
        · cases List.mem_singleton.mp ht
          exact engineMatch_isFill ..
      rcases hfill with hf | hf <;> rcases hg with hg | hg <;> rw [hf] at hg <;> cases hg
    · exact Or.inr (hrs _ ho').2

/-- What engine `e` reports in between says no fill; it says of the orders in `P`
    only that they are gone. -/
structure World.Hushed (w w' : World) (e : ℕ) (P : ℕ → Prop) : Prop where
  filled : ∀ k, w'.filledFor e k = w.filledFor e k
  said : ∀ o, w'.Said e o → o.SaysGone →
    (∃ o', w.Said e o' ∧ o'.SaysGone ∧ o'.orderId = o.orderId) ∨ P o.orderId

theorem Emits.hushed {P : ℕ → Prop} (h : Emits w w' rs) (hsilent : ∀ x ∈ rs, ¬x.2.SaysFilled)
    (hgone : ∀ x ∈ rs, x.2.SaysGone → P x.2.orderId) : w.Hushed w' e P := by
  refine ⟨fun k => by rw [h.filledFor, told_eq_zero hsilent, Nat.add_zero], fun o ho hg => ?_⟩
  rcases h.said.mp ho with ho | ho
  · exact Or.inl ⟨o, ho, hg, rfl⟩
  · exact Or.inr (hgone _ ho hg)

theorem Emits.hushed_nil {P : ℕ → Prop} (h : Emits w w' []) : w.Hushed w' e P :=
  h.hushed (fun _ hx => absurd hx List.not_mem_nil) fun _ hx => absurd hx List.not_mem_nil

namespace World.Played

/-- Nobody is executed, and nothing is added to the price books. -/
theorem frame (h : w.Played e hs) (hx : w'.execs = w.execs) (hn : w.nextId ≤ w'.nextId)
    (hbook : ∀ {t k}, k ∈ ((w'.store e).book t).ids → k ∈ ((w.store e).book t).ids)
    (hwait : ∀ {k}, (w'.store e).Waiting hs' k → (w.store e).Waiting hs k ∨ w.nextId ≤ k)
    (hquiet : w.Hushed w' e fun k => k < w.nextId ∧ ¬(w'.store e).Waiting hs' k)
    (hleft : ∀ k, k < w.nextId → w'.left e k ≤ w.left e k) : w'.Played e hs' := by
  have hun : ∀ k, w'.Unplayed e k ↔ w.Unplayed e k := fun k => by rw [Unplayed, Unplayed, hx]
  have hon : ∀ k t, w'.PlayedOn e k t ↔ w.PlayedOn e k t :=
    fun k t => by rw [PlayedOn, PlayedOn, hx]
  have hnew : ∀ o, w'.Said e o → o.SaysGone → o.orderId < w.nextId := fun o ho hg => by
    rcases hquiet.said o ho hg with ⟨o', ho', hg', hid⟩ | hP
    · exact hid ▸ h.gone o' ho' hg'
    · exact hP.1
  refine ⟨fun z hz hze => ?_, by rw [hx]; exact h.once,
    fun hm => (hon _ _).mpr (h.rested (hbook hm)), fun {k} hw => ?_,
    fun o ho hg => (hnew o ho hg).trans_le hn, fun z hz hze m hm => ?_, fun z hz hze => ?_,
    fun k hk => ?_⟩
  · rw [hx] at hz
    exact (h.below z hz hze).trans_le hn
  · rcases hwait hw with hold | hge
    · obtain ⟨hunplayed, hsaid⟩ := h.waiting hold
      refine ⟨(hun k).mpr hunplayed, fun o ho hk hg => ?_⟩
      rcases hquiet.said o ho hg with ⟨o', ho', hg', hid⟩ | hP
      · exact hsaid o' ho' (hid.trans hk) hg'
      · exact hP.2 (hk ▸ hw)
    · refine ⟨(hun k).mpr fun z hz hze he => ?_, fun o ho hk hg => ?_⟩
      · have hlt := h.below z hz hze
        omega
      · have hlt := hnew o ho hg
        omega
  · rw [hx] at hz
    exact ⟨(h.met z hz hze m hm).1, (hon _ _).mpr (h.met z hz hze m hm).2⟩
  · rw [hx] at hz
    rw [hquiet.filled]
    have hle := hleft _ (h.below z hz hze)
    have hold := h.filled z hz hze
    omega
  · rw [hquiet.filled]
    exact h.unfilled k ((hun k).mp hk)

/-- An order that has been no taker is executed. -/
theorem executed (h : w.Played e hs) (hok : StoreOk T (w.store e) n hs') (hfree : w.Free e r o)
    (hoff : OffBook w e r) (hact : o.Active) (hwhole : o.remainQuantity = o.quantity)
    (hlt : o.orderId < w.nextId) (hun : w.Unplayed e o.orderId)
    (hwait : ¬(w.store e).Waiting hs o.orderId) (hexd : Executed (w.logExec e s r o) e s r o w')
    (hn : w.nextId ≤ w'.nextId) (hlog : w'.execs = w.execs ++ [⟨e, s, r, o, w.engines e⟩])
    (hstops : ∀ t, (w'.store e).stops t = (w.store e).stops t) :
    w'.Played e hs := by
  have hmem : ∀ {z : Exec}, z ∈ w'.execs ↔
      z ∈ w.execs ∨ z = ⟨e, s, r, o, w.engines e⟩ := fun {z} => by
    rw [hlog, List.mem_append, List.mem_singleton]
  have hplayed : ∀ {k t}, w.PlayedOn e k t → w'.PlayedOn e k t :=
    fun ⟨z, hz, hp⟩ => ⟨z, hmem.mpr (Or.inl hz), hp⟩
  have hself : w'.PlayedOn e o.orderId s := ⟨_, hmem.mpr (Or.inr rfl), rfl, rfl, rfl⟩
  have hfree0 : (w.logExec e s r o).Free e r o := ⟨hfree.entry, hfree.arg⟩
  have hacc := hexd.accounted (n := n) hok hfree0 (fun id hr t => hoff id hr t) hact
  have hsaid : ∀ o', w'.Said e o' → o'.SaysGone → w.Said e o' :=
    fun o' ho' hg => (hacc.said o' ho').resolve_right fun hno => hno hg
  have hne : ∀ z ∈ w.execs, z.engine = e → z.taker.orderId ≠ o.orderId := hun
  refine ⟨fun z hz hze => ?_, ?_, fun {t k} hm => ?_, fun {k} hw => ?_,
    fun o' ho' hg => (h.gone o' (hsaid o' ho' hg) hg).trans_le hn, fun z hz hze m hm => ?_,
    fun z hz hze => ?_, fun k hk => ?_⟩
  · rcases hmem.mp hz with hz | rfl
    · exact (h.below z hz hze).trans_le hn
    · exact hlt.trans_le hn
  · rw [hlog, List.filter_append, List.map_append, List.nodup_append]
    refine ⟨h.once, by simp, fun i hi j hj => ?_⟩
    obtain ⟨z, hz, rfl⟩ := List.mem_map.mp hi
    obtain ⟨hz, hze⟩ := List.mem_filter.mp hz
    obtain ⟨y, hy, rfl⟩ := List.mem_map.mp hj
    obtain rfl := List.mem_singleton.mp (List.mem_of_mem_filter hy)
    exact hne z hz (by simpa using hze)
  · obtain ⟨p, hat⟩ := Ladder.mem_ids.mp hm
    rcases hexd.at hat with hat | ⟨rfl, rfl, _⟩
    · exact hplayed (h.rested (hat.mem_ids : k ∈ ((w.store e).book t).ids))
    · rwa [Side.opp_opp]
  · have hold : (w.store e).Waiting hs k := by
      obtain ⟨t, hm⟩ := hw
      exact ⟨t, by rwa [hstops] at hm⟩
    obtain ⟨hunplayed, hquiet⟩ := h.waiting hold
    refine ⟨fun z hz hze => ?_, fun o' ho' hk hg => hquiet o' (hsaid o' ho' hg) hk hg⟩
    rcases hmem.mp hz with hz | rfl
    · exact hunplayed z hz hze
    · intro he
      exact hwait (he ▸ hold)
  · rcases hmem.mp hz with hz | rfl
    · exact ⟨(h.met z hz hze m hm).1, hplayed (h.met z hz hze m hm).2⟩
    · obtain ⟨i, hi, hf⟩ := Store.mem_queue.mp hm
      obtain rfl : m.orderId = i := (hok.key hf).1
      exact ⟨fun he => hfree.notMem hoff s (he ▸ hi), hplayed (h.rested hi)⟩
  · rcases hmem.mp hz with hz | rfl
    · have hothers : w'.filledFor e z.taker.orderId + w'.left e z.taker.orderId ≤
        w.filledFor e z.taker.orderId + w.left e z.taker.orderId :=
        hacc.others _ (hne z hz hze)
      exact hothers.trans (h.filled z hz hze)
    · have htaker : w'.filledFor e o.orderId + w'.left e o.orderId ≤
        w.filledFor e o.orderId + o.remainQuantity := hacc.taker
      have hzero := h.unfilled o.orderId hun
      simp only
      omega
  · have hko : k ≠ o.orderId := fun he => hk _ (hmem.mpr (Or.inr rfl)) rfl he.symm
    have hold : w.Unplayed e k := fun z hz hze => hk z (hmem.mpr (Or.inl hz)) hze
    have hbook : k ∉ ((w.store e).book s).ids := fun hm => by
      obtain ⟨z, hz, hze, he, _⟩ := h.rested hm
      exact hold z hz hze he
    have hsame : w'.filledFor e k = w.filledFor e k := hacc.apart k hko hbook
    rw [hsame]
    exact h.unfilled k hold

end World.Played

/-- Who is about to be executed waits nowhere. -/
theorem World.SoundAt.not_waiting (h : w.SoundAt T n e (r.hand ++ hs))
    (htk : TakerOk T n (r.hand ++ hs) s r o) :
    ¬(w.store e).Waiting hs o.orderId := by
  intro hw
  have hw' : (w.store e).Waiting (r.hand ++ hs) o.orderId := Store.Waiting.append_hand.mpr hw
  cases r with
  | arg => exact (h.self.unused (htk.arg rfl).ge).2.2 hw'
  | entry id =>
    obtain ⟨rfl, hin⟩ := htk.entry id rfl
    obtain ⟨u, hm⟩ := hw'
    exact hm.elim ((h.self.taken hin).2 u).1 ((h.self.taken hin).2 u).2

theorem execute_played (h : w.Played e hs) (hsnd : w.SoundAt T n e (r.hand ++ hs))
    (hoff : OffBook w e r) (hi : ∀ t, (w.conf e).impliers t = []) (ho : w.readRef e r = .ok o)
    (hwhole : o.remainQuantity = o.quantity ∧ 0 < o.quantity) (hact : o.Active)
    (htk : TakerOk T n (r.hand ++ hs) s r o) (hlt : o.orderId < w.nextId)
    (hun : w.Unplayed e o.orderId) (hex : execute w e s r = .ok w') : w'.Played e hs := by
  have h0 : o.remainQuantity ≠ 0 := by omega
  rcases execute_reference ⟨hsnd.ok, hoff, LegsApart.of_nil hi s⟩ hi ho h0 with
    ⟨v, hv, hexd⟩ | ⟨hub, _⟩
  · obtain rfl := Except.ok.inj (hv.symm.trans hex)
    refine h.executed hsnd.self (hsnd.free htk) hoff hact hwhole.1 hlt hun
      (hsnd.not_waiting htk) hexd (execute_nextId hex) (execute_logged hex ho) fun t => ?_
    obtain ⟨w1, _, htr, hends⟩ := hexd
    have hstops : (w1.store e).stops t = (w.store e).stops t := htr.stops e t
    rw [← hstops]
    generalize Store.fate _ _ _ _ = f at hends
    cases hends with
    | filled => rfl
    | killed => exact World.stops_kill ..
    | rested => exact World.stops_rest ..
  · rw [hub] at hex
    cases hex

/-! ### Small steps -/

namespace World

theorem left_congr (h : w'.order? e k = w.order? e k) : w'.left e k = w.left e k := by
  rw [left, left, h]

end World

/-- A report that turns a request away says neither. -/
theorem Order.silent_of_reject (h : o.orderState.isReject = true) :
    ¬o.SaysFilled ∧ ¬o.SaysGone := by
  constructor
  · rintro ⟨hs | hs, -⟩ <;> rw [hs] at h <;> cases h
  · rintro (hs | hs) <;> rw [hs] at h <;> cases h

theorem Order.silent_of_opened (h : o.orderState = .opened) : ¬o.SaysFilled ∧ ¬o.SaysGone := by
  constructor
  · rintro ⟨hs | hs, -⟩ <;> rw [hs] at h <;> cases h
  · rintro (hs | hs) <;> rw [hs] at h <;> cases h

/-- Only reports are made. -/
theorem World.Played.congr (h : w.Played e hs) (hst : ∀ l, w'.store l = w.store l)
    (hx : w'.execs = w.execs) (hn : w.nextId ≤ w'.nextId) (hquiet : w.Hushed w' e fun _ => False) :
    w'.Played e hs := by
  refine h.frame hx hn (fun hm => by rwa [hst] at hm) (fun hw => Or.inl (by rwa [hst] at hw))
    ⟨hquiet.filled, fun o ho hg => (hquiet.said o ho hg).imp id False.elim⟩ fun k _ =>
      (World.left_congr ?_).le
  rw [World.order?, World.order?, hst]

theorem World.Played.say (h : w.Played e hs) (hst : ∀ l, w'.store l = w.store l)
    (hx : w'.execs = w.execs) (hn : w.nextId ≤ w'.nextId) (hem : Emits w w' rs)
    (hrs : ∀ x ∈ rs, ¬x.2.SaysFilled ∧ ¬x.2.SaysGone) : w'.Played e hs :=
  h.congr hst hx hn (hem.hushed (fun x hx => (hrs x hx).1) fun x hx hg => (hrs x hx).2 hg)

namespace World.Played

/-- A stop order that fires takes its limit for its price. -/
theorem fires {j : ℕ} {p : ℤ} (h : w.Played e (⟨some s, j⟩ :: hs))
    (ho : (w.store e).odrMap.find? j = some o) :
    (w.putOrder e j { o with price := p }).Played e hs := by
  have hem : Emits w (w.putOrder e j { o with price := p }) [] := Emits.upd ..
  refine h.frame rfl le_rfl (fun {t k} hm => ?_) (fun {k} hk => ?_) hem.hushed_nil fun k _ => ?_
  · rwa [World.putOrder_eq, World.store_upd, if_pos rfl, Store.book_withMap] at hm
  · obtain ⟨t, hm⟩ := hk
    rw [World.putOrder_eq, World.store_upd, if_pos rfl, Store.stops_withMap] at hm
    exact Or.inl ⟨t, hm.imp id (List.mem_cons_of_mem _)⟩
  · rw [World.left, World.left, World.order?, World.order?, World.putOrder_eq,
      World.store_upd, if_pos rfl, Store.odrMap_withMap, OrdMap.find?_insert]
    split_ifs with hk
    · rw [hk, ho]
      exact le_rfl
    · exact le_rfl

/-- Orders that are collected go on waiting, in hand. -/
theorem collects (h : w.Played e hs) (s : Side) (hit : ℤ × List ℕ → Bool) :
    (w.setStops e s ((w.stops e s).filter fun l => !hit l)).Played e
      ((Ladder.ids ((w.stops e s).filter hit)).map (fun id => ⟨some s, id⟩) ++ hs) := by
  have hem : Emits w (w.setStops e s ((w.stops e s).filter fun l => !hit l)) [] := Emits.upd ..
  have hsub : ∀ {j : ℕ} {c : ℤ × List ℕ → Bool}, j ∈ Ladder.ids ((w.stops e s).filter c) →
      j ∈ ((w.store e).stops s).ids := fun hj => by
    obtain ⟨p, hat⟩ := Ladder.mem_ids.mp hj
    exact (Ladder.at_filter hat).mem_ids
  refine h.frame rfl le_rfl (fun {t k} hm => ?_) (fun {k} hk => Or.inl ?_) hem.hushed_nil
    fun k _ => (World.left_congr ?_).le
  · rwa [World.setStops_eq, World.store_upd, if_pos rfl, Store.book_setStops] at hm
  · obtain ⟨t, hm | hm⟩ := hk
    · rw [World.setStops_eq, World.store_upd, if_pos rfl, Store.stops_setStops] at hm
      split_ifs at hm with ht
      · exact ⟨s, Or.inl (hsub hm)⟩
      · exact ⟨t, Or.inl hm⟩
    · rcases List.mem_append.mp hm with hm | hm
      · obtain ⟨i, hi, he⟩ := List.mem_map.mp hm
        cases he
        exact ⟨s, Or.inl (hsub hi)⟩
      · exact ⟨t, Or.inr hm⟩
  · rw [World.order?, World.order?, World.setStops_eq, World.store_upd, if_pos rfl,
      Store.odrMap_setStops]

/-- A new stop order is opened under an id nothing is said of yet. -/
theorem registers (h : w.Played e hs) (hsnd : StoreOk T (w.store e) w.nextId hs)
    (ho : o.From q w.nextId) :
    (((w.bumpId.setArg o).registerStops e o.stopSides).callback e o).Played e hs := by
  have hid : o.orderId = w.nextId := ho.orderId
  obtain ⟨hnone, _⟩ := hsnd.unused hid.ge
  have hreg := World.registered (w := w.bumpId.setArg o) e hnone rfl o.stopSides o.stopSides_nodup
  have hem := ((Emits.bumpId w).trans (Emits.setArg _ o)).trans
    ((Emits.registerStops (w.bumpId.setArg o) e o.stopSides).trans (Emits.callback _ e o))
  have hsilent := Order.silent_of_opened ho.opened
  refine h.frame ?_ ?_ (fun {t k} hm => ?_) (fun {k} hk => ?_)
    (hem.hushed (fun x hx => ?_) fun x hx hg => ?_) fun k hk => (World.left_congr ?_).le
  · rw [World.execs_callback, World.execs_registerStops]
    rfl
  · rw [World.nextId_callback, hreg.nextId]
    exact Nat.le_succ _
  · rwa [World.store_callback, hreg.book] at hm
  · obtain ⟨t, hm⟩ := hk
    rw [World.store_callback, hreg.stops] at hm
    split_ifs at hm with ht
    · rcases hm with hm | hm
      · rcases Ladder.mem_ids_insert.mp hm with rfl | hm
        · exact Or.inr hid.ge
        · exact Or.inl ⟨t, Or.inl hm⟩
      · exact Or.inl ⟨t, Or.inr hm⟩
    · exact Or.inl ⟨t, hm⟩
  · obtain rfl := List.mem_singleton.mp hx
    exact hsilent.1
  · obtain rfl := List.mem_singleton.mp hx
    exact absurd hg hsilent.2
  · rw [World.order?, World.order?, World.store_callback, hreg.find, if_neg]
    · rfl
    · rintro ⟨rfl, _⟩
      exact absurd hk hid.ge.not_gt

/-- The entry of an order that is done for is erased. -/
theorem drops {j : ℕ} (h : w.Played e (⟨none, j⟩ :: hs)) : (w.eraseOrder e j).Played e hs := by
  have hem : Emits w (w.eraseOrder e j) [] := Emits.upd ..
  refine h.frame rfl le_rfl (fun {t k} hm => ?_)
    (fun {k} hk => Or.inl ?_) hem.hushed_nil fun k _ => ?_
  · rwa [World.eraseOrder_eq, World.store_upd, if_pos rfl, Store.book_withMap] at hm
  · obtain ⟨t, hm⟩ := hk
    rw [World.eraseOrder_eq, World.store_upd, if_pos rfl, Store.stops_withMap] at hm
    exact ⟨t, hm.imp id (List.mem_cons_of_mem _)⟩
  · rw [World.left, World.left, World.order?, World.order?, World.eraseOrder_eq,
      World.store_upd, if_pos rfl, Store.odrMap_withMap, OrdMap.find?_erase]
    split_ifs
    · exact Nat.zero_le _
    · exact le_rfl

end World.Played

theorem Step.played {x y : World × List Held} (h : Step e q x y) (hT : T x.1.nextId q.terms)
    (hone : ∀ z ∈ y.1.execs, T z.taker.orderId z.taker.terms → z.OneLeg) (hx : Lone T e x)
    (hp : x.1.Played e x.2) :
    y.1.Played e y.2 := by
  have hsnd := hx.sound.stores
  cases h with
  | arg o => exact hp.say (fun _ => rfl) rfl le_rfl (Emits.setArg _ o) fun x hx => by cases hx
  | bump => exact hp.say (fun _ => rfl) rfl (Nat.le_succ _) (Emits.bumpId _) fun x hx => by cases hx
  | @reject v hs o hr hst =>
    have hn : ((v.setArg o).callback e o).nextId = v.nextId := World.nextId_callback ..
    refine hp.say (fun l => World.store_callback ..) (World.execs_callback ..) hn.ge
      ((Emits.setArg v o).trans (Emits.callback _ e o)) fun x hx => ?_
    obtain rfl := List.mem_singleton.mp hx
    exact Order.silent_of_reject hst
  | @taker v v' hs o s ho ht hex =>
    have hread : (v.bumpId.setArg o).readRef e .arg = .ok o := rfl
    have hstart : (v.bumpId.setArg o).SoundAt T v.nextId e hs := hsnd.congr fun _ => rfl
    have hput : (v.bumpId.setArg o).Played e hs :=
      hp.say (fun _ => rfl) rfl (Nat.le_succ _)
        ((Emits.bumpId v).trans (Emits.setArg _ o)) fun x hx => by cases hx
    have hid : o.orderId = v.nextId := ho.orderId
    have hlt : o.orderId < v.nextId + 1 := by omega
    refine execute_played (r := .arg) hput hstart (OffBook.arg _ _) hx.alone hread ho.whole
      (Or.inl ho.opened) (ho.takerOk ht hT) hlt (fun z hz hze he => ?_) hex
    -- no taker before this one had its id
    have hold : z.taker.orderId < v.nextId := hp.below z hz hze
    omega
  | @fire v v' hs o s j ho hex =>
    have hfi := hx.sound.fires ho hex hone
    obtain ⟨t, hw⟩ := hfi.waits
    have hi : ∀ t,
        ((v.putOrder e j { o with price := o.stopLimit s }).conf e).impliers t = [] := fun t => by
      rw [← hx.alone t]
      exact congrArg (Config.impliers · t) (World.conf_writeRef v e e (.entry j) _)
    have hid : o.orderId = j := (hsnd.self.key ho).1
    have hwaits : (v.store e).Waiting (⟨some s, j⟩ :: hs) j := ⟨s, Or.inr List.mem_cons_self⟩
    -- an order that waits was the taker of no execution yet
    exact execute_played (r := .entry j) (hp.fires ho) hfi.stores hfi.offBook hi hfi.read
      ⟨hw.whole, hw.pos⟩ (Or.inl hw.opened) hfi.taker (hid.symm ▸ (hsnd.self.key ho).2.1)
      (hid.symm ▸ (hp.waiting hwaits).1) hex
  | collect s hit => exact hp.collects s hit
  | register ho => exact hp.registers hsnd.self ho
  | drop => exact hp.drops

/-! ### Openings -/

/-- What an order says of which nothing is missing. -/
theorem Order.not_saysFilled_of_whole (h : o.remainQuantity = o.quantity) : ¬o.SaysFilled :=
  fun hs => absurd h hs.2.ne

theorem Order.not_saysFilled_of_gone (h : o.SaysGone) : ¬o.SaysFilled := by
  rintro ⟨hs | hs, -⟩ <;> rcases h with h | h <;> rw [hs] at h <;> cases h

theorem cancelState_gone {a : OrderAction} {st : OrderStatus} (h : cancelState a = some st)
    (ho : o.orderState = st) : o.SaysGone := by
  unfold cancelState at h
  split at h <;> cases h
  · exact Or.inl ho
  · exact Or.inr ho

namespace World.Played

variable {a : OrderAction} {z : OrderStatus}

/-- An amendment in place reports an order of which nothing is missing. -/
theorem amended (h : w.Played e []) (hsnd : StoreOk T (w.store e) w.nextId [])
    (hf : (w.store e).odrMap.find? q.orderId = some o)
    (hc : canAmend q { o with orderAction := a } = true) :
    ((w.putOrder e q.orderId (amendInPlace { o with orderAction := a } q)).callback e
      (amendInPlace { o with orderAction := a } q)).Played e [] := by
  set o' := amendInPlace { o with orderAction := a } q with ho'
  have hn : ((w.putOrder e q.orderId o').callback e o').nextId = w.nextId :=
    World.nextId_callback ..
  have hem : Emits w ((w.putOrder e q.orderId o').callback e o') [(e, o')] :=
    (Emits.writeRef w e (.entry q.orderId) o').trans (Emits.callback _ e o')
  have hstore : ((w.putOrder e q.orderId o').callback e o').store e =
      (w.store e).withMap ((w.store e).odrMap.insert q.orderId o') := by
    rw [World.store_callback, World.putOrder_eq, World.store_upd, if_pos rfl]
  have hwait : ∀ {k}, (((w.putOrder e q.orderId o').callback e o').store e).Waiting [] k →
      (w.store e).Waiting [] k := fun {k} ⟨t, hm⟩ => ⟨t, by rwa [hstore, Store.stops_withMap] at hm⟩
  have hid : o'.orderId = q.orderId := (hsnd.key hf).1
  refine h.frame (World.execs_callback ..) hn.ge
    (fun {t k} hm => by rwa [hstore, Store.book_withMap] at hm) (fun hk => Or.inl (hwait hk))
    (hem.hushed (fun x hx => ?_) fun x hx hg => ⟨?_, fun hk => ?_⟩) fun k _ => ?_
  · obtain rfl := List.mem_singleton.mp hx
    exact Order.not_saysFilled_of_whole rfl
  · obtain rfl := List.mem_singleton.mp hx
    exact hid.trans_lt (hsnd.key hf).2.1
  · -- an order that waits is open, so its report does not say that it is gone
    obtain rfl := List.mem_singleton.mp hx
    obtain ⟨t, hm⟩ := hwait hk
    obtain ⟨o2, c, ho2, hw⟩ := hsnd.waits_of hm
    rw [hid, hf] at ho2
    cases ho2
    exact (Order.silent_of_opened hw.opened).2 hg
  · rw [World.left, World.left, World.order?, World.order?, hstore, Store.odrMap_withMap,
      OrdMap.find?_insert]
    split_ifs with hk
    · rw [hk, hf]
      exact canAmend_le hc
    · exact le_rfl

/-- A resting order is taken out of its book and reported gone; `hout` says
    that it waits nowhere. -/
theorem unbooked {t : Side} (h : w.Played e []) (hsnd : StoreOk T (w.store e) w.nextId [])
    (hf : (w.store e).odrMap.find? q.orderId = some o) (hst : cancelState q.orderAction = some z)
    (hout : ¬(((w.ackCancel e q.orderId { o with orderAction := a } z).setBook e t
      (((w.store e).book t).eraseAt o.price o.orderId)).store e).Waiting
      [⟨none, q.orderId⟩] q.orderId) :
    ((w.ackCancel e q.orderId { o with orderAction := a } z).setBook e t
      (((w.store e).book t).eraseAt o.price o.orderId)).Played e [⟨none, q.orderId⟩] := by
  have hem : Emits w ((w.ackCancel e q.orderId { o with orderAction := a } z).setBook e t
      (((w.store e).book t).eraseAt o.price o.orderId))
        ([(e, { o with orderAction := a, orderState := z })] ++ []) :=
    (Emits.ackCancel w e q.orderId _ z).trans (Emits.upd ..)
  have hn : (w.ackCancel e q.orderId { o with orderAction := a } z).nextId = w.nextId :=
    World.nextId_callback ..
  have hid : o.orderId = q.orderId := (hsnd.key hf).1
  refine h.frame (World.execs_callback ..) hn.ge (fun {u k} hm => ?_) (fun {k} hk => Or.inl ?_)
    (hem.hushed (fun x hx => ?_) fun x hx _ => ?_) fun k _ => ?_
  · rw [World.setBook_eq, World.store_upd, if_pos rfl, Store.book_setBook,
      World.book_ackCancel] at hm
    split_ifs at hm with hu
    · subst hu
      obtain ⟨p, hat⟩ := Ladder.mem_ids.mp hm
      exact ((Ladder.at_eraseAt (hsnd.books.wf u)).mp hat).1.mem_ids
    · exact hm
  · obtain ⟨u, hm⟩ := hk
    rw [World.setBook_eq, World.store_upd, if_pos rfl, Store.stops_setBook,
      World.stops_ackCancel] at hm
    exact ⟨u, hm.imp id fun hm => absurd hm (by simp)⟩
  · obtain rfl := List.mem_singleton.mp hx
    exact Order.not_saysFilled_of_gone (cancelState_gone hst rfl)
  · obtain rfl := List.mem_singleton.mp hx
    exact ⟨hid.trans_lt (hsnd.key hf).2.1, hid.symm ▸ hout⟩
  · rw [World.left, World.left, World.order?, World.order?, World.setBook_eq,
      World.store_upd, if_pos rfl, Store.odrMap_setBook, World.find_ackCancel]
    split_ifs with hk
    · rw [hk, hf]
      exact le_rfl
    · exact le_rfl

/-- The same for an order that waits. -/
theorem unstopped {ss : List Side} (h : w.Played e []) (hsnd : StoreOk T (w.store e) w.nextId [])
    (hf : (w.store e).odrMap.find? q.orderId = some o) (hst : cancelState q.orderAction = some z)
    (hl : o.lookup = .inr ss)
    (hexecs :
      ((w.ackCancel e q.orderId { o with orderAction := a } z).dropStops e o ss).execs = w.execs)
    (hout : ¬(((w.ackCancel e q.orderId { o with orderAction := a } z).dropStops e o ss).store
      e).Waiting [⟨none, q.orderId⟩] q.orderId) :
    ((w.ackCancel e q.orderId { o with orderAction := a } z).dropStops e o ss).Played e
      [⟨none, q.orderId⟩] := by
  have hdrop :=
    World.dropped e o ss (w.ackCancel e q.orderId { o with orderAction := a } z)
      (Order.lookup_nodup hl)
  have hem : Emits w ((w.ackCancel e q.orderId { o with orderAction := a } z).dropStops e o ss)
      ([(e, { o with orderAction := a, orderState := z })] ++ []) :=
    (Emits.ackCancel w e q.orderId _ z).trans (Emits.dropStops ..)
  have hn : (w.ackCancel e q.orderId { o with orderAction := a } z).nextId = w.nextId :=
    World.nextId_callback ..
  have hid : o.orderId = q.orderId := (hsnd.key hf).1
  refine h.frame hexecs (hdrop.nextId.trans hn).ge (fun {u k} hm => ?_) (fun {k} hk => Or.inl ?_)
    (hem.hushed (fun x hx => ?_) fun x hx _ => ?_) fun k _ => ?_
  · rwa [hdrop.book, World.book_ackCancel] at hm
  · obtain ⟨u, hm⟩ := hk
    refine ⟨u, hm.imp (fun hm => ?_) fun hm => absurd hm (by simp)⟩
    rw [hdrop.stops, World.stops_ackCancel] at hm
    split_ifs at hm
    · obtain ⟨p, hat⟩ := Ladder.mem_ids.mp hm
      exact ((Ladder.at_eraseAt (hsnd.stopsWf u)).mp hat).1.mem_ids
    · exact hm
  · obtain rfl := List.mem_singleton.mp hx
    exact Order.not_saysFilled_of_gone (cancelState_gone hst rfl)
  · obtain rfl := List.mem_singleton.mp hx
    exact ⟨hid.trans_lt (hsnd.key hf).2.1, hid.symm ▸ hout⟩
  · rw [World.left, World.left, World.order?, World.order?, hdrop.find, World.find_ackCancel]
    split_ifs with hk
    · rw [hk, hf]
      exact le_rfl
    · exact le_rfl

end World.Played

theorem Opening.played {y : World × List Held} (h : Opening e q w y) (hx : Sound T e (w, []))
    (hy : Sound T e y) (hp : w.Played e []) : y.1.Played e y.2 := by
  have hsnd : StoreOk T (w.store e) w.nextId [] := hx.stores.self
  have hexecs := h.execs
  -- what is in hand behind the opening is in no stop book
  have hout : ∀ {k}, y.2 = [⟨none, k⟩] →
      ¬(y.1.store e).Waiting [⟨none, k⟩] k := fun {k} he ⟨u, hm⟩ => by
    have hin : ⟨none, k⟩ ∈ y.2 := he ▸ List.mem_cons_self
    rcases hm with hm | hm
    · exact ((hy.stores.self.taken hin).2 u).1 hm
    · exact ((hy.stores.self.taken hin).2 u).2 (he ▸ hm)
  cases h with
  | same => exact hp
  | @refused o hbad hr hst hid =>
    have hn : ((w.setArg o).callback e o).nextId = w.nextId := World.nextId_callback ..
    refine hp.say (fun l => World.store_callback ..) hexecs hn.ge
      ((Emits.setArg w o).trans (Emits.callback _ e o)) fun x hx => ?_
    obtain rfl := List.mem_singleton.mp hx
    exact Order.silent_of_reject hst
  | amended hf hc _ => exact hp.amended hsnd hf hc
  | unbooked hf hst _ _ => exact hp.unbooked hsnd hf hst (hout rfl)
  | unstopped hf hst hl _ => exact hp.unstopped hsnd hf hst hl hexecs (hout rfl)

/-! ### Calls -/

theorem told_priced {c : Option ℤ} {k : ℕ} (rs : List Order) :
    (rs.map (Order.priced c)).map (Order.tells k) = rs.map (Order.tells k) := by
  rw [List.map_map]
  rfl

/-- What is delivered in the end says what was recorded. -/
theorem World.hushed_flush (w : World) (e : ℕ) {P : ℕ → Prop} :
    w.Hushed (unlock (flushAuction w e) e) e P := by
  by_cases ha : (w.engines e).isAuction
  · obtain ⟨c, hc⟩ := auctionRecords_eq (w.engines e).cbRecords w.arg
    have hreports : (unlock (flushAuction w e) e).reports =
        w.reports ++ ((w.engines e).cbRecords.map (Order.priced c)).map (Prod.mk e) := by
      rw [World.reports_unlock, World.reports_flush, if_pos ha, hc]
    have hcb : ((unlock (flushAuction w e) e).engines e).cbRecords = [] := by
      rw [World.engines_unlock, World.cbRecords_flush, if_pos ⟨rfl, ha⟩]
    refine ⟨fun k => ?_, fun o ho hg => Or.inl ?_⟩
    · have hself : (((w.engines e).cbRecords.map (Order.priced c)).map (Prod.mk e)).filter
        (fun x => x.1 = e) =
          ((w.engines e).cbRecords.map (Order.priced c)).map (Prod.mk e) := by
        rw [List.filter_eq_self]
        intro x hx
        obtain ⟨o, _, rfl⟩ := List.mem_map.mp hx
        simp
      have htold : told e k (((w.engines e).cbRecords.map (Order.priced c)).map (Prod.mk e)) =
          ((w.engines e).cbRecords.map (Order.tells k)).sum := by
        rw [told, hself, List.map_map, ← told_priced (c := c)]
        rfl
      rw [World.filledFor, World.filledFor, hreports, hcb, told_append, htold]
      rfl
    · rcases ho with ho | ho
      · rw [hreports] at ho
        rcases List.mem_append.mp ho with ho | ho
        · exact ⟨o, Or.inl ho, hg, rfl⟩
        · obtain ⟨o', ho', he⟩ := List.mem_map.mp ho
          obtain ⟨o2, ho2, rfl⟩ := List.mem_map.mp ho'
          cases he
          exact ⟨o2, Or.inr ho2, hg, rfl⟩
      · rw [hcb] at ho
        cases ho
  · have hflush : flushAuction w e = w := if_neg ha
    rw [hflush]
    exact ⟨fun k => rfl, fun o ho hg => Or.inl ⟨o, ho, hg, rfl⟩⟩

end Matching
