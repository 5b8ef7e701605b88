import Matching.Engine.Exec

/-! Executions of an engine without impliers, as pure functions of its store: the queue of
    orders a taker meets, the trades it makes with them one after the other, and what
    becomes of the rest of it (`Store.fate`). `execute_reference` says that `fok_match` and
    `normal_match` do exactly this. -/

namespace Matching

instance (s : Side) (o : Order) (p : ℤ) : Decidable (Accepts s o p) :=
  inferInstanceAs (Decidable (_ ∨ _))

/-- One trade: the two orders as they are before it, its quantity and its id. -/
structure Trade where
  maker : Order
  taker : Order
  quantity : ℕ
  matchedId : ℕ

namespace Trade

def makerAfter (t : Trade) : Order :=
  engineMakerMatch t.maker t.matchedId t.quantity t.taker.orderId 0

def takerAfter (t : Trade) : Order :=
  engineMatch t.taker .taker t.matchedId t.maker.price t.quantity t.maker.orderId 0

end Trade

/-- The taker `o` trades with the orders of a queue until it is filled; ids
    are drawn from `n` on. -/
def trades : ℕ → Order → List Order → List Trade
  | _, _, [] => []
  | n, o, m :: ms =>
    if o.remainQuantity = 0 then []
    else
      let t : Trade := ⟨m, o, min m.remainQuantity o.remainQuantity, n⟩
      t :: trades (n + 1) t.takerAfter ms

/-- The taker after its trades. -/
def afterTrades (o : Order) (T : List Trade) : Order := (T.getLast?.map Trade.takerAfter).getD o

/-- The reports of trades: maker, then taker. -/
def tradeReports (e : ℕ) (T : List Trade) : List (ℕ × Order) :=
  T.flatMap (fun t => [(e, t.makerAfter), (e, t.takerAfter)])

/-- The makers that were filled completely. -/
def filledMakers (T : List Trade) : List ℕ :=
  (T.filter (fun t => t.makerAfter.remainQuantity = 0)).map (fun t => t.maker.orderId)

/-- How an execution ends for its taker. -/
inductive Fate where
  | filled
  | killed (price : ℤ) (state : OrderStatus)
  | rested (price : ℤ)
  deriving DecidableEq, Repr

namespace Store

variable (g : Store) (tick : ℤ) (s : Side) (n : ℕ) (o : Order)

/-- The orders a taker of side `s` meets: best price first and, inside a price, lowest id first. -/
def queue : List Order := (g.book s).ids.filterMap g.odrMap.find?

/-- The longest prefix of the queue whose prices the taker accepts. -/
def eligible : List Order := (g.queue s).takeWhile (fun m => Accepts s o m.price)

/-- What the eligible orders leave of the taker. -/
def leftover : ℕ := o.remainQuantity - ((g.eligible s o).map Order.remainQuantity).sum

/-- The best price of the book the taker would rest in. -/
def ownBest : ℤ :=
  match g.book s.opp with
  | (p, _ :: _) :: _ => p
  | _ => marketPrice

/-- The rest of a taker whose limit is `p` rests; without a limit it rests at the best price of its
    own side, if there is one. -/
def restFate (p : ℤ) : Fate :=
  if p ≠ marketPrice then .rested p
  else if g.ownBest s = marketPrice then .killed marketPrice .canceledByMarketOrderNothingMatch
  else .rested (g.ownBest s)

/-- The trades of an execution. -/
def plan : List Trade :=
  match o.timeCondition with
  | .makerOnly | .makerOnlyReprice => []
  | .fok => if g.leftover s o = 0 then trades n o (g.eligible s o) else []
  | _ => trades n o (g.eligible s o)

/-- The orders a taker trades with. -/
def takes : List Order :=
  match o.timeCondition with
  | .makerOnly | .makerOnlyReprice => []
  | .fok => if g.leftover s o = 0 then g.eligible s o else []
  | _ => g.eligible s o

/-- What becomes of a taker that took what it could and has `left` left. -/
def residualFate (left : ℕ) : Fate :=
  match o.timeCondition with
  | .fok => .killed o.price .canceledByFok
  | .ioc => .killed o.price (if o.quantity = left then .canceledAllByIoc else .canceledPartialByIoc)
  | .auction =>
    .killed o.price
      (if o.quantity = left then .canceledAllByAuction else .canceledPartialByAuction)
  | _ => g.restFate s o.price

/-- The end of an execution. -/
def fate : Fate :=
  match o.timeCondition with
  | .makerOnly =>
    if g.eligible s o = [] then g.restFate s o.price else .killed o.price .canceledByMakerOnly
  | .makerOnlyReprice =>
    match g.eligible s o with
    | [] => g.restFate s o.price
    | m :: _ => g.restFate s (toI64 (m.price + s.tick tick))
  | _ => if g.leftover s o = 0 then .filled else g.residualFate s o (g.leftover s o)

end Store

/-- The world `w1` is `w` after the trades `T` of the taker `o`. -/
structure Traded (w : World) (e : ℕ) (s : Side) (r : Ref) (o : Order) (T : List Trade)
    (w1 : World) : Prop where
  taker : w1.readRef e r = .ok (afterTrades o T)
  book : (w1.store e).book s = ((w.store e).book s).without (filledMakers T)
  bookOther : ∀ l t, (l, t) ≠ (e, s) → (w1.store l).book t = (w.store l).book t
  stops : ∀ l t, (w1.store l).stops t = (w.store l).stops t
  find : ∀ id, r ≠ .entry id → (w1.store e).odrMap.find? id =
    match T.find? (fun t => t.maker.orderId = id) with
    | none => (w.store e).odrMap.find? id
    | some t => if t.makerAfter.remainQuantity = 0 then none else some t.makerAfter
  findOther : ∀ l id, l ≠ e → (w1.store l).odrMap.find? id = (w.store l).odrMap.find? id
  conf : ∀ l, w1.conf l = w.conf l
  nextId : w1.nextId = w.nextId + T.length
  execs : w1.execs = w.execs
  emits : Emits w w1 (tradeReports e T)

/-- The end `f` of a taker that is `o1` in `w1`. -/
inductive Ends (w1 : World) (e : ℕ) (s : Side) (r : Ref) (o1 : Order) : Fate → World → Prop
  | filled (h : o1.remainQuantity = 0) : Ends w1 e s r o1 .filled w1
  | killed (h : o1.remainQuantity ≠ 0) (p : ℤ) (st : OrderStatus) :
      Ends w1 e s r o1 (.killed p st) (w1.kill e r { o1 with price := p, orderState := st })
  | rested (h : o1.remainQuantity ≠ 0) (p : ℤ) :
      Ends w1 e s r o1 (.rested p) (w1.rest e s r { o1 with price := p })

/-- `w'` is `w` after the planned trades of the taker `o` and its end. -/
def Executed (w : World) (e : ℕ) (s : Side) (r : Ref) (o : Order) (w' : World) : Prop :=
  ∃ w1, Ready w1 e s r ∧ Traded w e s r o ((w.store e).plan s w.nextId o) w1 ∧
    Ends w1 e s r (afterTrades o ((w.store e).plan s w.nextId o))
      ((w.store e).fate (w.conf e).miniTick s o) w'

variable {w w' w1 : World} {e : ℕ} {s : Side} {r : Ref} {o m : Order} {T : List Trade} {n : ℕ}

/-! ### Lists of trades -/

@[simp] theorem trades_nil (n : ℕ) (o : Order) : trades n o [] = [] := rfl

theorem trades_of_filled (n : ℕ) (h : o.remainQuantity = 0) : ∀ ms, trades n o ms = []
  | [] => rfl
  | m :: ms => by rw [trades, if_pos h]

theorem trades_cons (n : ℕ) (m : Order) (ms : List Order) (h : o.remainQuantity ≠ 0) :
    trades n o (m :: ms) =
      ⟨m, o, min m.remainQuantity o.remainQuantity, n⟩ ::
        trades (n + 1) (Trade.takerAfter ⟨m, o, min m.remainQuantity o.remainQuantity, n⟩) ms := by
  rw [trades, if_neg h]

@[simp] theorem afterTrades_nil (o : Order) : afterTrades o [] = o := rfl

@[simp] theorem afterTrades_cons (o : Order) (t : Trade) (T : List Trade) :
    afterTrades o (t :: T) = afterTrades t.takerAfter T := by
  cases T with
  | nil => rfl
  | cons x xs => simp only [afterTrades, List.getLast?_cons_cons]; rfl

/-- The makers of trades are the front of the queue. -/
theorem makers_sublist :
    ∀ (n : ℕ) (o : Order) (ms : List Order), ((trades n o ms).map Trade.maker).Sublist ms
  | _, _, [] => List.Sublist.refl _
  | n, o, m :: ms => by
    rw [trades]
    split_ifs
    · exact List.nil_sublist _
    · exact (makers_sublist (n + 1) _ ms).cons_cons m

theorem mem_makers {t : Trade} {ms : List Order} (h : t ∈ trades n o ms) : t.maker ∈ ms :=
  (makers_sublist n o ms).subset (List.mem_map_of_mem h)

/-- What trades leave of the taker. -/
theorem remain_afterTrades : ∀ (n : ℕ) (o : Order) (ms : List Order),
    (afterTrades o (trades n o ms)).remainQuantity =
      o.remainQuantity - (ms.map Order.remainQuantity).sum
  | _, o, [] => by simp
  | n, o, m :: ms => by
    by_cases h : o.remainQuantity = 0
    · rw [trades_of_filled n h]; simp [h]
    · have hq : min m.remainQuantity o.remainQuantity ≤ o.remainQuantity := min_le_right _ _
      rw [trades_cons n m ms h, afterTrades_cons, remain_afterTrades (n + 1) _ ms, List.map_cons,
        List.sum_cons]
      simp only [Trade.takerAfter, engineMatch_remainQuantity, subU64_of_le hq]
      omega

/-- Only the last trade can leave something of its maker. -/
theorem trades_in_turn : ∀ (n : ℕ) (o : Order) (ms : List Order), ∀ t ∈ (trades n o ms).dropLast,
    t.makerAfter.remainQuantity = 0
  | _, _, [], t, ht => by simp at ht
  | n, o, m :: ms, t, ht => by
    by_cases h : o.remainQuantity = 0
    · rw [trades_of_filled n h] at ht; simp at ht
    set u : Trade := ⟨m, o, min m.remainQuantity o.remainQuantity, n⟩ with hu
    rw [trades_cons n m ms h] at ht
    have hmaker : u.makerAfter.remainQuantity =
        m.remainQuantity - min m.remainQuantity o.remainQuantity := by
      rw [Trade.makerAfter, engineMakerMatch_remainQuantity, subU64_of_le (min_le_left _ _)]
    have htaker : u.takerAfter.remainQuantity =
        o.remainQuantity - min m.remainQuantity o.remainQuantity := by
      rw [Trade.takerAfter, engineMatch_remainQuantity, subU64_of_le (min_le_right _ _)]
    rcases hT : trades (n + 1) u.takerAfter ms with _ | ⟨v, T⟩
    · rw [hT] at ht; simp at ht
    · rw [hT, List.dropLast_cons_cons, ← hT] at ht
      rcases List.mem_cons.mp ht with he | ht
      · have hz : u.takerAfter.remainQuantity ≠ 0 := fun h0 => by
          rw [trades_of_filled _ h0] at hT; cases hT
        rw [he, hmaker]
        omega
      · exact trades_in_turn (n + 1) _ ms t ht

theorem tradeReports_concat (e : ℕ) (T : List Trade) (t : Trade) :
    (tradeReports e (T ++ [t])).map Prod.snd =
    ((tradeReports e T).map Prod.snd ++ [t.makerAfter]) ++ [t.takerAfter] := by
  simp [tradeReports, List.flatMap_append]

theorem tradeReports_fst {e : ℕ} {T : List Trade} {x : ℕ × Order} (h : x ∈ tradeReports e T) :
    x.1 = e := by
  obtain ⟨t, _, hx⟩ := List.mem_flatMap.mp h
  rcases List.mem_cons.mp hx with rfl | hx
  · rfl
  · rw [List.mem_singleton.mp hx]

/-- Trades change what fills change. -/
theorem filled_afterTrades :
    ∀ (n : ℕ) (o : Order) (ms : List Order), Filled o (afterTrades o (trades n o ms))
  | _, o, [] => Filled.refl o
  | n, o, m :: ms => by
    by_cases h : o.remainQuantity = 0
    · rw [trades_of_filled n h]; exact Filled.refl o
    · rw [trades_cons n m ms h, afterTrades_cons]
      exact (Filled.engineMatch o (min_le_right _ _)).trans (filled_afterTrades (n + 1) _ ms)

/-! ### The queue -/

/-- Ids of a ladder in the order of the ladder: by key, then ascending. -/
theorem queue_pairwise {f : ℕ → Option Order} : ∀ {b : Book}, b.WF s.cmp →
    (∀ p id m, b.At p id → f id = some m → m.orderId = id ∧ m.price = p) →
    (b.ids.filterMap f).Pairwise
      (fun x y => s.cmp x.price y.price = true ∨ (x.price = y.price ∧ x.orderId < y.orderId))
  | [], _, _ => List.Pairwise.nil
  | l :: ls, hwf, hf => by
    have hhead : ∀ id ∈ l.2, ∀ m, f id = some m → m.orderId = id ∧ m.price = l.1 :=
      fun id hid m hm => hf l.1 id m ((Ladder.at_cons ..).mpr (Or.inl ⟨rfl, hid⟩)) hm
    have htail : ∀ p id m, Ladder.At ls p id → f id = some m → m.orderId = id ∧ m.price = p :=
      fun p id m hat hm => hf p id m ((Ladder.at_cons ..).mpr (Or.inr hat)) hm
    rw [Ladder.ids_cons, List.filterMap_append, List.pairwise_append]
    refine ⟨?_, queue_pairwise hwf.tail htail, fun x hx y hy => ?_⟩
    · rw [List.pairwise_filterMap]
      refine (hwf.asc l (List.mem_cons_self ..)).imp_of_mem (fun {i j} hi hj hij x hx y hy => ?_)
      obtain ⟨rfl, hpx⟩ := hhead i hi x hx
      obtain ⟨rfl, hpy⟩ := hhead j hj y hy
      exact Or.inr ⟨hpx.trans hpy.symm, hij⟩
    · obtain ⟨i, hi, hxi⟩ := List.mem_filterMap.mp hx
      obtain ⟨j, hj, hyj⟩ := List.mem_filterMap.mp hy
      obtain ⟨q, hat⟩ := Ladder.mem_ids.mp hj
      rw [(hhead i hi x hxi).2, (htail q j y hat hyj).2]
      exact Or.inl (hwf.lt_of_at hat)

theorem Store.queue_sorted {g : Store} (h : BooksOk g) (s : Side) : (g.queue s).Pairwise
    (fun a b => s.cmp a.price b.price = true ∨ (a.price = b.price ∧ a.orderId < b.orderId)) :=
  queue_pairwise (h.wf s) fun _ _ _ hat hm => ⟨(h.restsAt hat hm).orderId, (h.restsAt hat hm).price⟩

/-- Where nothing dangles the queue is the whole book. -/
theorem Store.queue_ids {g : Store} (h : BooksOk g) (hl : g.Live) (s : Side) :
    (g.queue s).map Order.orderId = (g.book s).ids := by
  have hgen : ∀ is : List ℕ, (∀ i ∈ is, i ∈ (g.book s).ids) →
      (is.filterMap g.odrMap.find?).map Order.orderId = is := by
    intro is
    induction is with
    | nil => exact fun _ => rfl
    | cons i is ih =>
      intro hi
      obtain ⟨p, hat⟩ := Ladder.mem_ids.mp (hi i (List.mem_cons_self ..))
      obtain ⟨m, hm⟩ := Option.ne_none_iff_exists'.mp (hl s p i hat)
      rw [List.filterMap_cons_some hm, List.map_cons, (h.restsAt hat hm).orderId,
        ih (fun j hj => hi j (List.mem_cons_of_mem _ hj))]
  exact hgen _ (fun _ hi => hi)

theorem Store.remain_of_queue {g : Store} (h : BooksOk g) (hm : m ∈ g.queue s) :
    0 < m.remainQuantity := by
  obtain ⟨id, hid, hfind⟩ := List.mem_filterMap.mp hm
  obtain ⟨p, hat⟩ := Ladder.mem_ids.mp hid
  exact (h.restsAt hat hfind).remain

/-- A taker makes no trade exactly when it is left whole. -/
theorem trades_eq_nil_iff {g : Store} (h : BooksOk g) (h0 : o.remainQuantity ≠ 0) :
    trades n o (g.eligible s o) = [] ↔ o.remainQuantity = g.leftover s o := by
  rcases he : g.eligible s o with _ | ⟨m, ms⟩
  · simp [Store.leftover, he]
  · have hm : m ∈ g.queue s := (List.takeWhile_sublist _).subset (he ▸ List.mem_cons_self ..)
    have hpos := Store.remain_of_queue h hm
    have hlt : g.leftover s o ≠ o.remainQuantity := by
      rw [Store.leftover, he, List.map_cons, List.sum_cons]
      omega
    simp [trades_cons n m ms h0, Ne.symm hlt]

theorem Store.mem_queue {g : Store} :
    m ∈ g.queue s ↔ ∃ id ∈ (g.book s).ids, g.odrMap.find? id = some m :=
  List.mem_filterMap

theorem Store.queue_front (hok : BooksOk (w.store e)) (hm : Front w e s m) :
    (w.store e).queue s = m :: ((w.store e).book s).pop.ids.filterMap (w.store e).odrMap.find? := by
  obtain ⟨is, b, hb⟩ := hm.book
  rw [Store.queue, Ladder.ids_pop _ (hok.wf s).full, hb]
  simp [hm.find]

theorem Store.eligible_front (hok : BooksOk (w.store e)) (hm : Front w e s m)
    (hacc : Accepts s o m.price) :
    (w.store e).eligible s o = m ::
      (((w.store e).book s).pop.ids.filterMap (w.store e).odrMap.find?).takeWhile
        (fun x => Accepts s o x.price) := by
  rw [Store.eligible, Store.queue_front hok hm, List.takeWhile_cons_of_pos (by simpa using hacc)]

theorem World.offer_of_no_impliers (hi : (w.conf e).impliers s = []) :
    w.offer e s =
      ⟨none, ((w.cursor e s).map Cursor.price).getD marketPrice,
      ((w.cursor e s).map Cursor.remain).getD 0⟩ := by
  simp only [World.offer, World.matcher, hi, List.map_nil, Matcher.pureTop, Matcher.pureLoop]
  rfl

/-- Without impliers there is a next step exactly while the taker is not filled and an order is
    eligible. -/
theorem World.nextRec_eq_none_iff (hi : (w.conf e).impliers s = []) (hok : BooksOk (w.store e))
    (hf : Fronts w e s) :
    w.nextRec e s o = none ↔ o.remainQuantity = 0 ∨ (w.store e).eligible s o = [] := by
  rw [World.nextRec_eq_none hf, World.offer_of_no_impliers hi]
  rcases hf.loc.cursor_cases with ⟨hc, hb⟩ | ⟨m, hm⟩
  · simp [hc, Store.eligible, Store.queue, hb]
  · simp only [hm.cursor, Option.map_some, Option.getD_some, hm.limit, false_or]
    by_cases hacc : Accepts s o m.price
    · simp [Store.eligible_front hok hm hacc, hacc.not_beyond]
    · have hnil : (w.store e).eligible s o = [] := by
        rw [Store.eligible, Store.queue_front hok hm,
          List.takeWhile_cons_of_neg (by simpa using hacc)]
      have hbeyond : o.price ≠ marketPrice ∧ s.cmp o.price m.price = true := by
        simpa [Accepts, not_or] using hacc
      simp [hnil, hbeyond]

theorem World.best_of_no_impliers (hi : (w.conf e).impliers s.opp = []) :
    w.best e s.opp = (w.store e).ownBest s := by
  simp only [World.best, World.matcher, hi, List.map_nil, List.foldl_nil, World.front, World.cursor,
    Store.ownBest]
  rcases (w.store e).book s.opp with _ | ⟨⟨p, _ | ⟨j, js⟩⟩, b⟩ <;> rfl

/-! ### A walk is a list of trades -/

theorem Traded.refl (hw : Ready w e s r) (ho : w.readRef e r = .ok o) : Traded w e s r o [] w where
  taker := ho
  book := (Ladder.without_nil ((hw.ok e).wf s).full).symm
  bookOther _ _ _ := rfl
  stops _ _ := rfl
  find _ _ := rfl
  findOther _ _ _ := rfl
  conf _ := rfl
  nextId := rfl
  execs := rfl
  emits := Emits.refl w

/-- A trade with the front order, and then more. -/
theorem Traded.cons {t : Trade} (hw : Ready w e s r) (hm : Front w e s t.maker)
    (hid : t.matchedId = w.nextId) (hnew : ∀ u ∈ T, u.maker.orderId ≠ t.maker.orderId)
    (hpart : t.makerAfter.remainQuantity ≠ 0 → T = [])
    (h : Traded
      (w.fillLocal e s r t.maker t.taker t.maker.price t.quantity) e s r t.takerAfter T w1) :
    Traded w e s r t.taker (t :: T) w1 := by
  obtain ⟨is, b, hb⟩ := hm.book
  have hmk : engineMakerMatch t.maker w.nextId t.quantity t.taker.orderId 0 = t.makerAfter := by
    rw [Trade.makerAfter, hid]
  have htk : engineMatch t.taker .taker w.nextId t.maker.price t.quantity t.maker.orderId 0 =
      t.takerAfter := by
    rw [Trade.takerAfter, hid]
  rw [World.fillLocal, hmk, htk] at h
  refine ⟨?_, ?_, fun l u hne => ?_, fun l u => ?_, fun id hr => ?_, fun l id hl => ?_,
    fun l => ?_, ?_, ?_, ?_⟩
  · rw [afterTrades_cons]; exact h.taker
  · rw [h.book, World.book_fillTaker, World.book_fillMaker]
    by_cases hq : t.makerAfter.remainQuantity = 0
    · have hnot := (hw.ok e).front_notMem hb
      rw [if_pos ⟨rfl, rfl, hq⟩, filledMakers, filledMakers,
        List.filter_cons_of_pos (by simpa using hq), List.map_cons]
      simp only [World.store_bumpId]
      rw [hb] at hnot ⊢
      exact (Ladder.without_cons_front _ hnot).symm
    · rw [if_neg (fun hc => hq hc.2.2), hpart hq, filledMakers, filledMakers,
        List.filter_cons_of_neg (by simpa using hq)]
      rfl
  · rw [h.bookOther l u hne, World.book_fillTaker, World.book_fillMaker_ne hne]
    rfl
  · rw [h.stops, World.stops_fillTaker, World.stops_fillMaker]
    rfl
  · have htaker : ¬(e = e ∧ r = .entry id) := fun hc => hr hc.2
    rw [h.find id hr, World.find_fillTaker, if_neg htaker, World.find_fillMaker]
    have hmid : t.makerAfter.orderId = t.maker.orderId := rfl
    by_cases hi : t.maker.orderId = id
    · have hnone : T.find? (fun u => u.maker.orderId = id) = none := by
        rw [List.find?_eq_none]
        intro u hu
        simpa using fun he : u.maker.orderId = id => hnew u hu (he.trans hi.symm)
      rw [hnone, List.find?_cons_of_pos (by simpa using hi), if_pos ⟨rfl, (hmid.trans hi).symm⟩]
    · rw [List.find?_cons_of_neg (by simpa using hi), if_neg (fun hc => hi (hc.2.trans hmid).symm)]
      rfl
  · rw [h.findOther l id hl, World.find_fillTaker, if_neg (fun hc => hl hc.1), World.find_fillMaker,
      if_neg (fun hc => hl hc.1)]
    rfl
  · rw [h.conf, World.conf_fillTaker, World.conf_fillMaker]
    rfl
  · rw [h.nextId, World.nextId_fillTaker, World.nextId_fillMaker, World.nextId_bumpId,
      List.length_cons]
    omega
  · rw [h.execs, World.execs_fillTaker, World.execs_fillMaker]
    rfl
  · have h1 := ((Emits.bumpId w).trans (Emits.fillMaker w.bumpId e s t.makerAfter)).trans
      (Emits.fillTaker (w.bumpId.fillMaker e s t.makerAfter) e r t.takerAfter)
    simpa [tradeReports] using h1.trans h.emits

/-- The walk of a taker that is stuck at its end is the list of its trades
    with the eligible orders. -/
theorem Walk.traded {recs : List MatchedRecord} {o1 : Order} (h : Walk e s r w recs w1)
    (hi : (w.conf e).impliers s = []) (hw : Ready w e s r) (ho : w.readRef e r = .ok o)
    (ho1 : w1.readRef e r = .ok o1) (hn : w1.nextRec e s o1 = none) :
    Traded w e s r o (trades w.nextId o ((w.store e).eligible s o)) w1 := by
  induction h generalizing o with
  | nil w =>
    obtain rfl := Except.ok.inj (ho.symm.trans ho1)
    have hnil : trades w.nextId o ((w.store e).eligible s o) = [] := by
      rcases (World.nextRec_eq_none_iff hi (hw.ok e) hw.fronts).mp hn with h0 | h0
      · exact trades_of_filled _ h0 _
      · rw [h0]; rfl
    rw [hnil]
    exact Traded.refl hw ho
  | @cons w w2 w1 o' rec recs x ho' hrec hstep _ ih =>
    obtain rfl := Except.ok.inj (ho'.symm.trans ho)
    obtain ⟨hfill, hw2, _, _, _⟩ := World.nextRec_fill hw ho' hrec hstep
    obtain ⟨h0, hp, hacc, ⟨m, hm, hoffer, rfl⟩ | ⟨k, i, _, _, hk, _⟩⟩ :=
      World.nextRec_cases hw.fronts hrec
    swap
    · rw [hi] at hk; cases hk
    rw [hoffer] at hacc
    obtain ⟨rfl, _, _⟩ := executeStep_local_ok hw hm ho' hstep
    have ho2 :
        (w.fillLocal e s r m o' m.price (min m.remainQuantity o'.remainQuantity)).readRef e r =
        .ok (engineMatch o' .taker w.nextId m.price
        (min m.remainQuantity o'.remainQuantity) m.orderId 0) :=
      World.readRef_fillTaker ..
    have htr := ih (by rw [World.conf_fillLocal]; exact hi) hw2 ho2 ho1 hn
    set t : Trade := ⟨m, o', min m.remainQuantity o'.remainQuantity, w.nextId⟩ with ht
    have htk : engineMatch o' .taker w.nextId m.price
        (min m.remainQuantity o'.remainQuantity) m.orderId 0 = t.takerAfter := rfl
    have hnext : (w.fillLocal e s r m o' m.price (min m.remainQuantity o'.remainQuantity)).nextId =
        w.nextId + 1 := by
      simp [World.fillLocal]
    rw [htk, hnext] at htr
    have hmrem : t.makerAfter.remainQuantity =
        m.remainQuantity - min m.remainQuantity o'.remainQuantity := by
      rw [Trade.makerAfter, engineMakerMatch_remainQuantity, subU64_of_le (min_le_left _ _)]
    have htrem : t.takerAfter.remainQuantity =
        o'.remainQuantity - min m.remainQuantity o'.remainQuantity := by
      rw [Trade.takerAfter, engineMatch_remainQuantity, subU64_of_le (min_le_right _ _)]
    have hz : t.makerAfter.remainQuantity ≠ 0 → t.takerAfter.remainQuantity = 0 := by
      rw [hmrem, htrem]; omega
    obtain ⟨is, b, hb⟩ := hm.book
    have hnot := (hw.ok e).front_notMem hb
    have hpops : ((w.store e).book s).pop.ids = ((w.store e).book s).ids.tail :=
      Ladder.ids_pop _ ((hw.ok e).wf s).full
    set rest := (((w.store e).book s).pop.ids.filterMap (w.store e).odrMap.find?).takeWhile
      (fun x => Accepts s o' x.price) with hrest
    have helig : (w.store e).eligible s o' = m :: rest := Store.eligible_front (hw.ok e) hm hacc
    -- a filled maker leaves the rest of the queue; a maker left over has filled the taker
    have hsame : trades (w.nextId + 1) t.takerAfter
        (((w.fillLocal e s r m o' m.price (min m.remainQuantity o'.remainQuantity)).store
          e).eligible s t.takerAfter) =
        trades (w.nextId + 1) t.takerAfter rest := by
      by_cases hq : t.makerAfter.remainQuantity = 0
      · have hbook :
          ((w.fillLocal e s r m o' m.price (min m.remainQuantity o'.remainQuantity)).store e).book
            s = ((w.store e).book s).pop := by
          rw [World.fillLocal, World.book_fillTaker, World.book_fillMaker, if_pos ⟨rfl, rfl, hq⟩]
          rfl
        have hqueue :
            ((w.fillLocal e s r m o' m.price (min m.remainQuantity o'.remainQuantity)).store
              e).queue s =
            ((w.store e).book s).pop.ids.filterMap (w.store e).odrMap.find? := by
          rw [Store.queue, hbook]
          refine List.filterMap_congr (fun j hj => ?_)
          rw [hpops] at hj
          have hjm : j ≠ m.orderId := fun he => hnot (he ▸ hj)
          have hjt : ¬(e = e ∧ r = .entry j) := fun hc => hw.off j hc.2 s (List.mem_of_mem_tail hj)
          rw [World.fillLocal, World.find_fillTaker, if_neg hjt, World.find_fillMaker,
            if_neg (fun hc => hjm (hc.2.trans (engineMakerMatch_orderId ..)))]
          rfl
        rw [Store.eligible, hqueue]
        rfl
      · rw [trades_of_filled _ (hz hq), trades_of_filled _ (hz hq)]
    rw [helig, trades_cons _ _ _ h0.ne']
    rw [hsame] at htr
    refine Traded.cons (t := t) hw hm rfl (fun u hu he => ?_) (fun hq => ?_) htr
    · have hmem := (List.takeWhile_sublist _).subset (mem_makers hu)
      obtain ⟨j, hj, hfind⟩ := List.mem_filterMap.mp hmem
      rw [hpops] at hj
      obtain ⟨p, hat⟩ := Ladder.mem_ids.mp (List.mem_of_mem_tail hj)
      have hid := ((hw.ok e).restsAt hat hfind).orderId
      exact hnot (he ▸ hid ▸ hj)
    · exact trades_of_filled _ (hz hq) _

/-! ### Executions -/

theorem Store.plan_eq (g : Store) (s : Side) (n : ℕ) (o : Order) :
    g.plan s n o = trades n o (g.takes s o) := by
  cases htc : o.timeCondition <;> simp only [plan, takes, htc, trades_nil]
  split_ifs <;> rfl

theorem Store.takes_sublist (g : Store) (s : Side) (o : Order) :
    (g.takes s o).Sublist (g.queue s) := by
  unfold takes
  split
  · exact List.nil_sublist _
  · exact List.nil_sublist _
  · split_ifs
    · exact List.takeWhile_sublist _
    · exact List.nil_sublist _
  · exact List.takeWhile_sublist _

theorem Store.remain_afterTrades_eligible (g : Store) (n : ℕ) (o : Order) :
    (afterTrades o (trades n o (g.eligible s o))).remainQuantity = g.leftover s o :=
  remain_afterTrades ..

/-- A taker that takes: its walk to the end is the planned list of trades, unless it is a
    `FOK` that is not filled. -/
theorem Store.plan_of_takes {g : Store} (hm : ¬o.MakerOnly)
    (hf : o.timeCondition = .fok → g.leftover s o = 0) :
    g.plan s n o = trades n o (g.eligible s o) := by
  unfold Store.plan
  split
  · exact absurd (Or.inl ‹_›) hm
  · exact absurd (Or.inr ‹_›) hm
  · rw [if_pos (hf ‹_›)]
  · rfl

theorem Store.fate_of_takes {g : Store} {tick : ℤ} (hm : ¬o.MakerOnly) :
    g.fate tick s o = if g.leftover s o = 0 then .filled else g.residualFate s o
      (g.leftover s o) := by
  unfold Store.fate
  split
  · exact absurd (Or.inl ‹_›) hm
  · exact absurd (Or.inr ‹_›) hm
  · rfl

theorem Filled.mayRest {o1 : Order} (h : Filled o o1) (hr : o1.MayRest) : o.MayRest := by
  unfold Order.MayRest at *
  rwa [h.timeCondition] at hr

theorem Store.residualFate_of_mayRest {g : Store} {left : ℕ} (h : o.MayRest) :
    g.residualFate s o left = g.restFate s o.price := by
  obtain ⟨h1, h2, h3⟩ := h
  unfold Store.residualFate
  split
  · exact absurd ‹_› h3
  · exact absurd ‹_› h1
  · exact absurd ‹_› h2
  · rfl

/-- The residual of a taker that took what it could. -/
theorem Outcome.ends {g : Store} {tick : ℤ} {left : ℕ} {o1 : Order}
    (h : Outcome w1 e s r o1 tick w') (hm : ¬o.MakerOnly) (hf : o.timeCondition ≠ .fok)
    (hfill : Filled o o1) (hleft : left = o1.remainQuantity)
    (hbest : w1.best e s.opp = g.ownBest s) :
    Ends w1 e s r o1 (if left = 0 then .filled else g.residualFate s o left) w' := by
  subst hleft
  have htc := hfill.timeCondition
  have hm2 : o1.timeCondition ≠ .makerOnlyReprice := fun h => hm (Or.inr (htc.symm.trans h))
  cases h with
  | filled h0 => rw [if_pos h0]; exact Ends.filled h0
  | killed h0 hk =>
    rw [if_neg h0]
    cases hk with
    | ioc h hn =>
      rw [htc] at h
      simp only [Store.residualFate, h, ← hfill.price, ← hfill.quantity]
      exact Ends.killed h0 _ _
    | auction h hn =>
      rw [htc] at h
      simp only [Store.residualFate, h, ← hfill.price, ← hfill.quantity]
      exact Ends.killed h0 _ _
    | makerOnly h => exact absurd (Or.inl (htc.symm.trans h)) hm
    | fok h => exact absurd (htc.symm.trans h) hf
  | nothing h0 hb hp =>
    rcases hp with ⟨hr, hp, _⟩ | ⟨h, _⟩
    · rw [if_neg h0, Store.residualFate_of_mayRest (hfill.mayRest hr), Store.restFate,
        ← hfill.price, hp, if_neg (not_not.mpr rfl), ← hbest, if_pos hb]
      exact Ends.killed h0 _ _
    · exact absurd h hm2
  | rested h0 hp =>
    rw [if_neg h0]
    cases hp with
    | limit hr _ hp =>
      rw [Store.residualFate_of_mayRest (hfill.mayRest hr), Store.restFate,
        ← hfill.price, if_pos hp]
      exact Ends.rested h0 _
    | market hr _ hp hb =>
      rw [Store.residualFate_of_mayRest (hfill.mayRest hr), Store.restFate, ← hfill.price, hp,
        if_neg (not_not.mpr rfl), ← hbest, if_neg hb]
      exact Ends.rested h0 _
    | reprice h => exact absurd h hm2
    | repriceMarket h => exact absurd h hm2

/-- A maker-only taker, by whether an order is eligible. -/
theorem Outcome.ends_maker {tick : ℤ} (h : Outcome w e s r o (s.tick tick) w') (hw : Ready w e s r)
    (hi : ∀ t, (w.conf e).impliers t = []) (hm : o.MakerOnly) (h0 : o.remainQuantity ≠ 0) :
    Ends w e s r o ((w.store e).fate tick s o) w' := by
  have hbest := World.best_of_no_impliers (hi s.opp)
  have hnone := World.nextRec_eq_none_iff (o := o) (hi s) (hw.ok e) hw.fronts
  have hne : w.nextRec e s o ≠ none → (w.store e).eligible s o ≠ [] :=
    fun hn he => hn (hnone.mpr (Or.inr he))
  have hrest : w.nextRec e s o = none →
      (w.store e).fate tick s o = (w.store e).restFate s o.price := by
    intro hn
    have he := (hnone.mp hn).resolve_left h0
    rcases hm with hm | hm <;> simp only [Store.fate, hm, he, if_true]
  have hoffer : ∀ m ms, (w.store e).eligible s o = m :: ms → (w.offer e s).price = m.price := by
    intro m ms he
    rw [World.offer_of_no_impliers (hi s)]
    rcases hw.fronts.loc.cursor_cases with ⟨_, hb⟩ | ⟨m', hm'⟩
    · simp [Store.eligible, Store.queue, hb] at he
    · rw [Store.eligible, Store.queue_front (hw.ok e) hm'] at he
      have hhead : m' = m := by
        rw [List.takeWhile_cons] at he
        split_ifs at he
        exact (List.cons.inj he).1
      simp [hm'.cursor, hhead]
  have hreprice : o.timeCondition = .makerOnlyReprice → w.nextRec e s o ≠ none →
      (w.store e).fate tick s o =
        (w.store e).restFate s (toI64 ((w.offer e s).price + s.tick tick)) := by
    intro hr hn
    rcases he : (w.store e).eligible s o with _ | ⟨m, ms⟩
    · exact absurd he (hne hn)
    · simp only [Store.fate, hr, he, hoffer m ms he]
  cases h with
  | filled h => exact absurd h h0
  | killed _ hk =>
    cases hk with
    | ioc h => rcases hm with hm | hm <;> rw [h] at hm <;> cases hm
    | auction h => rcases hm with hm | hm <;> rw [h] at hm <;> cases hm
    | makerOnly h hn =>
      have hfate : (w.store e).fate tick s o = .killed o.price .canceledByMakerOnly := by
        simp only [Store.fate, h, if_neg (hne hn)]
      rw [hfate]
      exact Ends.killed h0 _ _
    | fok h => exact absurd h hm.not_fok
  | nothing _ hb hp =>
    rcases hp with ⟨_, hp, hn⟩ | ⟨h, hn, hp⟩
    · rw [hrest hn, Store.restFate, hp, if_neg (not_not.mpr rfl), ← hbest, if_pos hb]
      exact Ends.killed h0 _ _
    · rw [hreprice h hn, Store.restFate, hp, if_neg (not_not.mpr rfl), ← hbest, if_pos hb]
      exact Ends.killed h0 _ _
  | rested _ hp =>
    cases hp with
    | limit _ hn hp =>
      rw [hrest hn, Store.restFate, if_pos hp]
      exact Ends.rested h0 _
    | market _ hn hp hb =>
      rw [hrest hn, Store.restFate, hp, if_neg (not_not.mpr rfl), ← hbest, if_neg hb]
      exact Ends.rested h0 _
    | reprice h hn hp =>
      rw [hreprice h hn, Store.restFate, if_pos hp]
      exact Ends.rested h0 _
    | repriceMarket h hn hp hb =>
      rw [hreprice h hn, Store.restFate, hp, if_neg (not_not.mpr rfl), ← hbest, if_neg hb]
      exact Ends.rested h0 _

theorem Walk.eq_of_nil (h : Walk e s r w [] w') : w' = w := by
  cases h; rfl

/-- The walk of a taker that takes, and its outcome. -/
theorem Outcome.traded {recs : List MatchedRecord} {o1 : Order} {tick : ℤ} (hw : Ready w e s r)
    (hi : ∀ t, (w.conf e).impliers t = []) (ho : w.readRef e r = .ok o)
    (hwalk : Walk e s r w recs w1) (ho1 : w1.readRef e r = .ok o1)
    (hout : Outcome w1 e s r o1 tick w') (hm : ¬o.MakerOnly)
    (hz : o.timeCondition = .fok → o1.remainQuantity = 0) :
    o1 = afterTrades o (trades w.nextId o ((w.store e).eligible s o)) ∧
    Traded w e s r o (trades w.nextId o ((w.store e).eligible s o)) w1 ∧
    Ends w1 e s r o1 (if (w.store e).leftover s o = 0 then .filled
      else (w.store e).residualFate s o ((w.store e).leftover s o)) w' := by
  obtain ⟨o1', ho1', hfill⟩ := hwalk.taker hw ho
  obtain rfl := Except.ok.inj (ho1'.symm.trans ho1)
  have hw1 := hwalk.ready hw
  have htc := hfill.timeCondition
  have hm' : ¬o1'.MakerOnly := by rwa [Order.MakerOnly, htc]
  have hn : w1.nextRec e s o1' = none := hout.stuck hw1.fronts hm' (fun h => hz (htc.symm.trans h))
  have htr := hwalk.traded (hi s) hw ho ho1 hn
  obtain rfl := Except.ok.inj (htr.taker.symm.trans ho1)
  have hleft := (w.store e).remain_afterTrades_eligible (s := s) w.nextId o
  refine ⟨rfl, htr, ?_⟩
  by_cases hfok : o.timeCondition = .fok
  · rw [← hleft, if_pos (hz hfok)]
    cases hout with
    | filled h => exact Ends.filled h
    | killed h => exact absurd (hz hfok) h
    | nothing h => exact absurd (hz hfok) h
    | rested h => exact absurd (hz hfok) h
  · have hbest : w1.best e s.opp = (w.store e).ownBest s := by
      rw [World.best_of_no_impliers (by rw [htr.conf]; exact hi s.opp), Store.ownBest,
        Store.ownBest, htr.bookOther e s.opp (fun he => Side.opp_ne s (congrArg Prod.snd he))]
    exact hout.ends hm hfok hfill hleft.symm hbest

/-- A walk and its outcome are the planned trades and the end of the taker. -/
theorem Outcome.executed {recs : List MatchedRecord} {o1 : Order} (hw : Ready w e s r)
    (hi : ∀ t, (w.conf e).impliers t = []) (ho : w.readRef e r = .ok o) (h0 : o.remainQuantity ≠ 0)
    (hwalk : Walk e s r w recs w1) (ho1 : w1.readRef e r = .ok o1)
    (hout : Outcome w1 e s r o1 (s.tick (w.conf e).miniTick) w')
    (hstill : o.MakerOnly ∨ (o.timeCondition = .fok ∧ o1.remainQuantity ≠ 0) → recs = []) :
    Executed w e s r o w' := by
  obtain ⟨o1', ho1', hfill⟩ := hwalk.taker hw ho
  obtain rfl := Except.ok.inj (ho1'.symm.trans ho1)
  have hw1 := hwalk.ready hw
  by_cases hm : o.MakerOnly
  · obtain rfl := hstill (Or.inl hm)
    obtain rfl := hwalk.eq_of_nil
    obtain rfl := Except.ok.inj (ho.symm.trans ho1)
    have hplan : (w1.store e).plan s w1.nextId o = [] := by
      rcases hm with hm | hm <;> simp only [Store.plan, hm]
    refine ⟨w1, hw, ?_, ?_⟩
    · rw [hplan]; exact Traded.refl hw ho
    · rw [hplan, afterTrades_nil]
      exact hout.ends_maker hw hi hm h0
  by_cases hf : o.timeCondition = .fok ∧ o1'.remainQuantity ≠ 0
  · -- a `FOK` that cannot be filled: the walk counted beforehand says how much there was
    obtain ⟨hf, hz⟩ := hf
    obtain rfl := hstill (Or.inr ⟨hf, hz⟩)
    obtain rfl := hwalk.eq_of_nil
    obtain rfl := Except.ok.inj (ho.symm.trans ho1)
    cases hout with
    | filled h => exact absurd h h0
    | killed _ hk =>
      cases hk with
      | ioc h => rw [hf] at h; cases h
      | auction h => rw [hf] at h; cases h
      | makerOnly h => rw [hf] at h; cases h
      | fok _ hcount ho2 hn hrem =>
        have htr := hcount.traded (hi s) hw ho ho2 hn
        obtain rfl := Except.ok.inj (htr.taker.symm.trans ho2)
        rw [Store.remain_afterTrades_eligible] at hrem
        have hplan : (w1.store e).plan s w1.nextId o = [] := by
          simp only [Store.plan, hf, if_neg hrem]
        have hfate : (w1.store e).fate (w1.conf e).miniTick s o =
            .killed o.price .canceledByFok := by
          rw [Store.fate_of_takes hm, if_neg hrem]
          simp only [Store.residualFate, hf]
        refine ⟨w1, hw, by rw [hplan]; exact Traded.refl hw ho, ?_⟩
        rw [hplan, hfate]
        exact Ends.killed h0 _ _
    | nothing _ _ hp =>
      rcases hp with ⟨hr, _⟩ | ⟨h, _⟩
      · exact absurd hf hr.2.2
      · rw [hf] at h; cases h
    | rested _ hp =>
      cases hp with
      | limit hr => exact absurd hf hr.2.2
      | market hr => exact absurd hf hr.2.2
      | reprice h => rw [hf] at h; cases h
      | repriceMarket h => rw [hf] at h; cases h
  · have hz : o.timeCondition = .fok → o1'.remainQuantity = 0 :=
      fun h => not_not.mp fun hz => hf ⟨h, hz⟩
    obtain ⟨rfl, htr, hends⟩ := hout.traded hw hi ho hwalk ho1 hm hz
    have hleft := (w.store e).remain_afterTrades_eligible (s := s) w.nextId o
    have hplan := Store.plan_of_takes (n := w.nextId) (s := s) hm (fun h => hleft.symm.trans (hz h))
    exact ⟨w1, hw1, by rw [hplan]; exact htr, by rw [hplan, Store.fate_of_takes hm]; exact hends⟩

/-- Without impliers an execution is its planned trades and its end, or it runs
    into a dangling entry. -/
theorem execute_reference (hs : Setup w e s r) (hi : ∀ t, (w.conf e).impliers t = [])
    (ho : w.readRef e r = .ok o) (h0 : o.remainQuantity ≠ 0) :
    (∃ w', execute w e s r = .ok w' ∧ Executed (w.logExec e s r o) e s r o w') ∨
    (execute w e s r = .error .ub ∧ ¬w.Live) := by
  rcases execute_cases hs ho h0 with ⟨recs, w1, o1, w', hex, hw, hwalk, ho1, hout, hstill⟩ | hub
  · have ho0 : (w.logExec e s r o).readRef e r = .ok o := by cases r <;> exact ho
    exact Or.inl ⟨w', hex, Outcome.executed hw hi ho0 h0 hwalk ho1 hout hstill⟩
  · exact Or.inr hub

end Matching
