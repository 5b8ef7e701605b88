import Matching.Engine.Steps
import Matching.Engine.Exec

/-! What holds of a store between any two small steps, given the ids the engine has in its
    hands (`StoreOk`): every order is in the map under its own id, below the next id to be
    drawn; the entries of the price books are in order and belong to sides that rest there;
    an entry of a stop book resolves to a waiting order, which is in no price book; and an
    id in hand is where only the hand finds it. The lemmas say which updates keep this. What
    an order keeps for its whole life is its `Terms`. -/

namespace Matching

/-- What fills, cancellation, a new price and an amendment in place leave as it is. -/
structure Terms where
  side : OrderSide
  type : OrderType
  timeCondition : TimeCondition
  trigger : Side → ℤ
  limit : Side → ℤ

namespace Order

def terms (o : Order) : Terms := ⟨o.side, o.type, o.timeCondition, o.stopTrigger, o.stopLimit⟩

/-- The sides of the orders that rest in the book takers of side `s` trade against. -/
def RestsOn (o : Order) (s : Side) : Prop :=
  o.side = s.opp.plain ∨ o.side = s.opp.stop ∨ o.side = .buySellStop

/-- `o` waits in the stop book of side `s` under the trigger `t`. -/
structure Waits (o : Order) (s : Side) (t : ℤ) : Prop where
  price : o.price = stopPrice
  side : s ∈ o.stopSides
  trigger : o.stopTrigger s = t
  whole : o.remainQuantity = o.quantity
  pos : 0 < o.quantity
  limit : o.stopLimit s ≠ marketPrice
  opened : o.orderState = .opened

variable {o o' q : Order} {s : Side} {t : ℤ} {n : ℕ}

theorem terms_side (h : o.terms = o'.terms) : o.side = o'.side := congrArg Terms.side h

theorem terms_stopLimit (h : o.terms = o'.terms) (s : Side) : o.stopLimit s = o'.stopLimit s :=
  congrFun (congrArg Terms.limit h) s

theorem RestsOn.congr (h : o.RestsOn s) (ht : o'.terms = o.terms) : o'.RestsOn s := by
  unfold RestsOn at *
  rwa [terms_side ht]

theorem From.terms (h : o.From q n) : o.terms = q.terms := by rw [h.eq]; rfl

theorem From.orderId (h : o.From q n) : o.orderId = n := by rw [h.eq]

theorem From.whole (h : o.From q n) : o.remainQuantity = o.quantity ∧ 0 < o.quantity := by
  rw [h.eq]; exact ⟨rfl, h.pos⟩

theorem From.opened (h : o.From q n) : o.orderState = .opened := by rw [h.eq]

theorem Takes.restsOn (h : o.Takes s) : o.RestsOn s.opp := by
  unfold RestsOn
  rw [Side.opp_opp]
  rcases h with ⟨h, _⟩ | ⟨h, _⟩
  · exact Or.inl h
  · exact Or.inr h

/-- Only an order of two legs waits on both sides. -/
theorem mem_stopSides (h : s ∈ o.stopSides) : o.side = s.stop ∨ o.side = .buySellStop := by
  unfold stopSides at h
  revert h
  cases hside : o.side <;> cases s <;> simp [Side.stop]

theorem Waits.restsOn (h : o.Waits s t) : o.RestsOn s.opp := by
  unfold RestsOn
  rw [Side.opp_opp]
  exact Or.inr (mem_stopSides h.side)

theorem stopSides_two (h : s ∈ o.stopSides) (h' : s.opp ∈ o.stopSides) : o.side = .buySellStop := by
  rcases mem_stopSides h with hs | hs
  · rcases mem_stopSides h' with hs' | hs'
    · rw [hs] at hs'
      cases s <;> cases hs'
    · exact hs'
  · exact hs

end Order

@[simp] theorem engineMatch_terms (o : Order) (t : MatchedType) (m : ℕ) (p : ℤ) (q a b : ℕ) :
    (engineMatch o t m p q a b).terms = o.terms := rfl

theorem Filled.terms {o o' : Order} (h : Filled o o') : o'.terms = o.terms := by rw [h.eq]; rfl

/-- The id is in a stop book or in a hand that collected it from one. -/
def Store.Waiting (g : Store) (hs : List Held) (id : ℕ) : Prop :=
  ∃ s, id ∈ (g.stops s).ids ∨ ⟨some s, id⟩ ∈ hs

/-- What holds of a store with the ids `hs` in hand; `T` holds of the id and the terms of every
    order, and no id from `n` on is in use. -/
structure StoreOk (T : ℕ → Terms → Prop) (g : Store) (n : ℕ) (hs : List Held) : Prop where
  books : BooksOk g
  key : ∀ {id o}, g.odrMap.find? id = some o → o.orderId = id ∧ id < n ∧ T id o.terms
  bookIds : ∀ {s id}, id ∈ (g.book s).ids → id < n
  placed : ∀ {s id o}, id ∈ (g.book s).ids → g.odrMap.find? id = some o → o.RestsOn s
  stopsWf : ∀ s, (g.stops s).WF s.cmp
  waits : ∀ {s t id}, (g.stops s).At t id → ∃ o, g.odrMap.find? id = some o ∧ o.Waits s t
  off : ∀ {s id}, id ∈ (g.stops s).ids → ∀ t, id ∉ (g.book t).ids
  held : ∀ {s id}, ⟨some s, id⟩ ∈ hs → (∃ o t, g.odrMap.find? id = some o ∧ o.Waits s t) ∧
    (∀ t, id ∉ (g.book t).ids) ∧ id ∉ (g.stops s).ids
  taken : ∀ {id}, ⟨none, id⟩ ∈ hs → id < n ∧ ∀ s, id ∉ (g.stops s).ids ∧ ⟨some s, id⟩ ∉ hs
  nodup : hs.Nodup

namespace StoreOk

variable {T : ℕ → Terms → Prop} {g g' : Store} {n m : ℕ} {hs : List Held} {s : Side} {id : ℕ}
  {o : Order} {x : Held}

theorem empty (T : ℕ → Terms → Prop) (n : ℕ) : StoreOk T ⟨.empty, [], [], [], []⟩ n [] := by
  have hbook : ∀ s, (⟨.empty, [], [], [], []⟩ : Store).book s = [] := fun s => by cases s <;> rfl
  have hstops : ∀ s, (⟨.empty, [], [], [], []⟩ : Store).stops s = [] := fun s => by cases s <;> rfl
  refine ⟨BooksOk.empty _ _ _, fun h => (nomatch h), fun {s id} h => ?_,
    fun {s id o} h => ?_, fun s => ?_, fun {s t id} h => ?_, fun {s id} h => ?_,
    fun h => (nomatch h), fun h => (nomatch h), List.nodup_nil⟩
  · rw [hbook] at h; cases h
  · rw [hbook] at h; cases h
  · rw [hstops]; exact Ladder.wf_nil _
  · rw [hstops] at h; simp at h
  · rw [hstops] at h; cases h

theorem mono (h : StoreOk T g n hs) (hle : n ≤ m) : StoreOk T g m hs where
  books := h.books
  key hf := ⟨(h.key hf).1, (h.key hf).2.1.trans_le hle, (h.key hf).2.2⟩
  bookIds hm := (h.bookIds hm).trans_le hle
  placed := h.placed
  stopsWf := h.stopsWf
  waits := h.waits
  off := h.off
  held := h.held
  taken hm := ⟨(h.taken hm).1.trans_le hle, (h.taken hm).2⟩
  nodup := h.nodup

/-- An order in a stop book or collected from one waits. -/
theorem waits_of (h : StoreOk T g n hs) (hw : id ∈ (g.stops s).ids ∨ ⟨some s, id⟩ ∈ hs) :
    ∃ o t, g.odrMap.find? id = some o ∧ o.Waits s t := by
  rcases hw with hm | hm
  · obtain ⟨t, hat⟩ := Ladder.mem_ids.mp hm
    obtain ⟨o, ho, hw⟩ := h.waits hat
    exact ⟨o, t, ho, hw⟩
  · exact (h.held hm).1

theorem not_booked (h : StoreOk T g n hs) (hw : g.Waiting hs id) (t : Side) :
    id ∉ (g.book t).ids := by
  obtain ⟨s, hm | hm⟩ := hw
  · exact h.off hm t
  · exact (h.held hm).2.1 t

/-- An id that is not in use yet. -/
theorem unused (h : StoreOk T g n hs) (hid : n ≤ id) :
    g.odrMap.find? id = none ∧ (∀ t, id ∉ (g.book t).ids) ∧ ¬g.Waiting hs id := by
  have hnone : g.odrMap.find? id = none := by
    rcases ho : g.odrMap.find? id with _ | o
    · rfl
    · exact absurd (h.key ho).2.1 (by omega)
  refine ⟨hnone, fun t hm => absurd (h.bookIds hm) (by omega), fun ⟨s, hw⟩ => ?_⟩
  obtain ⟨o, t, ho, _⟩ := h.waits_of hw
  rw [hnone] at ho
  cases ho

/-- Entries may leave the books and orders the map; a write keeps an order's id and terms; what is
    still waiting goes on waiting. -/
theorem frame (h : StoreOk T g n hs) (hbooks : BooksOk g')
    (hids : ∀ {t j}, j ∈ (g'.book t).ids → j ∈ (g.book t).ids) (hwf : ∀ s, (g'.stops s).WF s.cmp)
    (hstops : ∀ {s t j}, (g'.stops s).At t j → (g.stops s).At t j)
    (hfind : ∀ {j o'}, g'.odrMap.find? j = some o' →
      ∃ o, g.odrMap.find? j = some o ∧ o'.orderId = o.orderId ∧ o'.terms = o.terms)
    (hwait : ∀ {j o s t}, g'.Waiting hs j → g.odrMap.find? j = some o → o.Waits s t →
      ∃ o', g'.odrMap.find? j = some o' ∧ o'.Waits s t) : StoreOk T g' n hs := by
  have hmem : ∀ {s j}, j ∈ (g'.stops s).ids → j ∈ (g.stops s).ids := fun hm => by
    obtain ⟨t, hat⟩ := Ladder.mem_ids.mp hm
    exact (hstops hat).mem_ids
  refine ⟨hbooks, fun {j o'} ho' => ?_, fun hm => h.bookIds (hids hm),
    fun {s j o'} hm ho' => ?_, hwf, fun {s t j} hat => ?_, fun {s j} hm t hm' => ?_,
    fun {s j} hm => ?_, fun {j} hm => ⟨(h.taken hm).1, fun s => ?_⟩, h.nodup⟩
  · obtain ⟨o, ho, hid, hterms⟩ := hfind ho'
    obtain ⟨h1, h2, h3⟩ := h.key ho
    exact ⟨hid.trans h1, h2, hterms ▸ h3⟩
  · obtain ⟨o, ho, _, hterms⟩ := hfind ho'
    exact (h.placed (hids hm) ho).congr hterms
  · obtain ⟨o, ho, hw⟩ := h.waits (hstops hat)
    exact hwait ⟨s, Or.inl hat.mem_ids⟩ ho hw
  · exact h.off (hmem hm) t (hids hm')
  · obtain ⟨⟨o, t, ho, hw⟩, hb, hs⟩ := h.held hm
    obtain ⟨o', ho', hw'⟩ := hwait ⟨s, Or.inr hm⟩ ho hw
    exact ⟨⟨o', t, ho', hw'⟩, fun t hm => hb t (hids hm), fun hm => hs (hmem hm)⟩
  · exact ⟨fun hm' => ((h.taken hm).2 s).1 (hmem hm'), ((h.taken hm).2 s).2⟩

/-- The same where no stop book changes. -/
theorem frame_stops (h : StoreOk T g n hs) (hbooks : BooksOk g')
    (hids : ∀ {t j}, j ∈ (g'.book t).ids → j ∈ (g.book t).ids)
    (hstops : ∀ s, g'.stops s = g.stops s)
    (hfind : ∀ {j o'}, g'.odrMap.find? j = some o' → ∃ o, g.odrMap.find? j = some o ∧
      o'.orderId = o.orderId ∧ o'.terms = o.terms)
    (hwait : ∀ {j o s t}, g.Waiting hs j → g.odrMap.find? j = some o → o.Waits s t →
      ∃ o', g'.odrMap.find? j = some o' ∧ o'.Waits s t) : StoreOk T g' n hs := by
  refine h.frame hbooks hids (fun s => by rw [hstops]; exact h.stopsWf s)
    (fun {s t j} hat => by rwa [hstops] at hat) hfind (fun {j o s t} hw => hwait ?_)
  obtain ⟨u, hu⟩ := hw
  exact ⟨u, by rwa [hstops] at hu⟩

/-- A hand lets go. -/
theorem release (h : StoreOk T g n (x :: hs)) : StoreOk T g n hs where
  books := h.books
  key := h.key
  bookIds := h.bookIds
  placed := h.placed
  stopsWf := h.stopsWf
  waits := h.waits
  off := h.off
  held hm := h.held (List.mem_cons_of_mem _ hm)
  taken hm := by
    obtain ⟨hlt, hst⟩ := h.taken (List.mem_cons_of_mem _ hm)
    exact ⟨hlt, fun s => ⟨(hst s).1, fun hm' => (hst s).2 (List.mem_cons_of_mem _ hm')⟩⟩
  nodup := (List.nodup_cons.mp h.nodup).2

/-- A collected order of one leg is nowhere but in its hand. -/
theorem alone (h : StoreOk T g n (⟨some s, id⟩ :: hs)) (ho : g.odrMap.find? id = some o)
    (hone : o.side ≠ .buySellStop) :
    (∀ t, id ∉ (g.book t).ids ∧ id ∉ (g.stops t).ids ∧ ⟨some t, id⟩ ∉ hs) ∧ ⟨none, id⟩ ∉ hs := by
  have hself : (⟨some s, id⟩ : Held) ∈ (⟨some s, id⟩ :: hs : List Held) := List.mem_cons_self
  obtain ⟨⟨o1, t1, ho1, hw1⟩, hb, hst⟩ := h.held hself
  obtain rfl := Option.some.inj (ho1.symm.trans ho)
  have hopp :
      ¬(id ∈ (g.stops s.opp).ids ∨ (⟨some s.opp, id⟩ : Held) ∈ (⟨some s, id⟩ :: hs : List Held)) :=
        fun hw => by
    obtain ⟨o2, t2, ho2, hw2⟩ := h.waits_of hw
    obtain rfl := Option.some.inj (ho2.symm.trans ho1)
    exact hone (Order.stopSides_two hw1.side hw2.side)
  refine ⟨fun t => ⟨hb t, ?_, ?_⟩, fun hm => ((h.taken (List.mem_cons_of_mem _ hm)).2 s).2 hself⟩
  · by_cases ht : t = s
    · rw [ht]; exact hst
    · rw [Side.eq_opp_of_ne ht]; exact fun hm => hopp (Or.inl hm)
  · by_cases ht : t = s
    · rw [ht]; exact (List.nodup_cons.mp h.nodup).1
    · rw [Side.eq_opp_of_ne ht]; exact fun hm => hopp (Or.inr (List.mem_cons_of_mem _ hm))

/-- A collected order of one leg becomes a taker. -/
theorem take (h : StoreOk T g n (⟨some s, id⟩ :: hs)) (ho : g.odrMap.find? id = some o)
    (hone : o.side ≠ .buySellStop) : StoreOk T g n (⟨none, id⟩ :: hs) := by
  obtain ⟨hal, hnone⟩ := h.alone ho hone
  have hrest := h.release
  refine ⟨h.books, h.key, h.bookIds, h.placed, h.stopsWf, h.waits, h.off, fun {t j} hm => ?_,
    fun {j} hm => ?_, ?_⟩
  · rcases List.mem_cons.mp hm with he | hm
    · cases he
    · exact hrest.held hm
  · rcases List.mem_cons.mp hm with he | hm
    · obtain rfl := (Held.mk.inj he).2
      refine ⟨(h.key ho).2.1, fun t => ⟨(hal t).2.1, fun hm' => ?_⟩⟩
      rcases List.mem_cons.mp hm' with he' | hm'
      · cases he'
      · exact (hal t).2.2 hm'
    · obtain ⟨hlt, hst⟩ := hrest.taken hm
      refine ⟨hlt, fun t => ⟨(hst t).1, fun hm' => ?_⟩⟩
      rcases List.mem_cons.mp hm' with he' | hm'
      · cases he'
      · exact (hst t).2 hm'
  · exact List.nodup_cons.mpr ⟨hnone, (List.nodup_cons.mp h.nodup).2⟩

/-- The front order of book `s` was filled. -/
theorem fill {p : ℤ} {is : List ℕ} {b : Book} {m : Order} (h : StoreOk T g n hs)
    (hb : g.book s = (p, id :: is) :: b) (hm : g.odrMap.find? id = some m) (hfill : Filled m o)
    (hbook : ∀ t, g'.book t = if t = s ∧ o.remainQuantity = 0 then (g.book s).pop else g.book t)
    (hstops : ∀ t, g'.stops t = g.stops t)
    (hfind : ∀ j, g'.odrMap.find? j = if j = id then (if o.remainQuantity = 0 then none else some o)
      else g.odrMap.find? j) : StoreOk T g' n hs := by
  have hfront := BooksOk.at_front hb
  obtain ⟨hid, hp, _, hlim⟩ := h.books.restsAt hfront hm
  have hr : o.orderId = id ∧ o.price = p ∧ p ≠ marketPrice :=
    ⟨hfill.orderId.trans hid, hfill.price.trans hp, hlim⟩
  refine h.frame_stops (h.books.fill hb hr hbook hfind) (fun {t j} hmem => ?_) hstops
    (fun {j o'} ho' => ?_) (fun {j o1 u v} hw ho1 hwt => ⟨o1, ?_, hwt⟩)
  · rw [hbook] at hmem
    split_ifs at hmem with hc
    · obtain ⟨q, hat⟩ := Ladder.mem_ids.mp hmem
      rw [hc.1]
      exact ((h.books.at_pop hb).mp hat).1.mem_ids
    · exact hmem
  · rw [hfind] at ho'
    by_cases hj : j = id
    · rw [if_pos hj] at ho'
      split_ifs at ho'
      obtain rfl := Option.some.inj ho'
      exact ⟨m, hj ▸ hm, hfill.orderId, hfill.terms⟩
    · rw [if_neg hj] at ho'
      exact ⟨o', ho', rfl, rfl⟩
  · rw [hfind, if_neg, ho1]
    rintro rfl
    exact h.not_booked hw s hfront.mem_ids

/-- A write to an order that is in hand as taken and in no book. -/
theorem write {m : Order} (h : StoreOk T g n hs) (hin : ⟨none, id⟩ ∈ hs)
    (hoff : ∀ t, id ∉ (g.book t).ids) (hm : g.odrMap.find? id = some m)
    (hid : o.orderId = m.orderId) (ht : o.terms = m.terms) (hbook : ∀ t, g'.book t = g.book t)
    (hstops : ∀ t, g'.stops t = g.stops t)
    (hfind : ∀ j, g'.odrMap.find? j = if j = id then some o else g.odrMap.find? j) :
    StoreOk T g' n hs := by
  have hbooks : BooksOk g' := h.books.congr hbook fun t j hj => by
    rw [hfind, if_neg]
    rintro rfl
    exact hoff t hj
  refine h.frame_stops hbooks (fun {t j} hmem => by rwa [hbook] at hmem) hstops
    (fun {j o'} ho' => ?_) (fun {j o1 u v} hw ho1 hwt => ⟨o1, ?_, hwt⟩)
  · rw [hfind] at ho'
    by_cases hj : j = id
    · rw [if_pos hj] at ho'
      obtain rfl := Option.some.inj ho'
      exact ⟨m, hj ▸ hm, hid, ht⟩
    · rw [if_neg hj] at ho'
      exact ⟨o', ho', rfl, rfl⟩
  · rw [hfind, if_neg, ho1]
    rintro rfl
    obtain ⟨u, hm | hm⟩ := hw
    · exact ((h.taken hin).2 u).1 hm
    · exact ((h.taken hin).2 u).2 hm

/-- An order that does not wait comes to rest in book `s`. -/
theorem rest (h : StoreOk T g n hs) (hw : ¬g.Waiting hs o.orderId) (hbooks : BooksOk g')
    (hlt : o.orderId < m) (hle : n ≤ m) (ht : T o.orderId o.terms) (hs' : o.RestsOn s)
    (hnew : ∀ t, o.orderId ∉ (g.book t).ids)
    (hbook : ∀ t, g'.book t = if t = s then (g.book s).insert s.cmp o.price o.orderId else g.book t)
    (hstops : ∀ t, g'.stops t = g.stops t)
    (hfind : ∀ j, g'.odrMap.find? j = if j = o.orderId then some o else g.odrMap.find? j) :
    StoreOk T g' m hs := by
  have hm := h.mono hle
  have hids : ∀ {t j}, j ∈ (g'.book t).ids → (t = s ∧ j = o.orderId) ∨
      (j ∈ (g.book t).ids ∧ j ≠ o.orderId) := by
    intro t j hmem
    rw [hbook] at hmem
    split_ifs at hmem with hts
    · subst hts
      rcases Ladder.mem_ids_insert.mp hmem with he | hmem
      · exact Or.inl ⟨rfl, he⟩
      · exact Or.inr ⟨hmem, fun he => hnew _ (he ▸ hmem)⟩
    · exact Or.inr ⟨hmem, fun he => hnew _ (he ▸ hmem)⟩
  have hsame : ∀ {j}, g.Waiting hs j → g'.odrMap.find? j = g.odrMap.find? j := by
    intro j hj
    rw [hfind, if_neg]
    rintro rfl
    exact hw hj
  have hnotin : ∀ {j t}, g.Waiting hs j → j ∉ (g'.book t).ids := by
    intro j t hj hmem
    rcases hids hmem with ⟨_, rfl⟩ | ⟨hmem, _⟩
    · exact hw hj
    · exact h.not_booked hj t hmem
  refine ⟨hbooks, fun {j o'} ho' => ?_, fun {t j} hmem => ?_,
    fun {t j o'} hmem ho' => ?_, fun t => ?_, fun {u v j} hat => ?_, fun {u j} hmem t => ?_,
    fun {u j} hmem => ?_, fun {j} hmem => ⟨(hm.taken hmem).1, fun u => ?_⟩, h.nodup⟩
  · rw [hfind] at ho'
    split_ifs at ho' with hj
    · obtain rfl := Option.some.inj ho'
      exact ⟨hj.symm, hj ▸ hlt, hj ▸ ht⟩
    · exact hm.key ho'
  · rcases hids hmem with ⟨_, rfl⟩ | ⟨hmem, _⟩
    · exact hlt
    · exact hm.bookIds hmem
  · rw [hfind] at ho'
    rcases hids hmem with ⟨rfl, rfl⟩ | ⟨hmem, hne⟩
    · rw [if_pos rfl] at ho'
      obtain rfl := Option.some.inj ho'
      exact hs'
    · rw [if_neg hne] at ho'
      exact h.placed hmem ho'
  · rw [hstops]; exact h.stopsWf t
  · rw [hstops] at hat
    rw [hsame ⟨u, Or.inl hat.mem_ids⟩]
    exact h.waits hat
  · rw [hstops] at hmem
    exact hnotin ⟨u, Or.inl hmem⟩
  · obtain ⟨hwt, _, hst⟩ := h.held hmem
    rw [hsame ⟨u, Or.inr hmem⟩, hstops]
    exact ⟨hwt, fun t => hnotin ⟨u, Or.inr hmem⟩, hst⟩
  · rw [hstops]; exact (h.taken hmem).2 u

/-- Levels of a stop book are collected. -/
theorem collect (h : StoreOk T g n hs) (s : Side) (hit : ℤ × List ℕ → Bool) :
    StoreOk T (g.setStops s ((g.stops s).filter (fun l => !hit l))) n
      ((Ladder.ids ((g.stops s).filter hit)).map (fun id => ⟨some s, id⟩) ++ hs) := by
  -- an order waits at one trigger price of a side, so that it is collected once
  have hnd : (Ladder.ids (g.stops s)).Nodup :=
      Ladder.ids_nodup (h.stopsWf s) fun {p q i} hp hq => by
    obtain ⟨o, ho, hw⟩ := h.waits hp
    obtain ⟨o', ho', hw'⟩ := h.waits hq
    obtain rfl := Option.some.inj (ho.symm.trans ho')
    exact hw.trigger.symm.trans hw'.trigger
  obtain ⟨hhit, _, hdis⟩ :=
    List.nodup_append.mp ((Ladder.ids_filter_perm hit (g.stops s)).nodup_iff.mpr hnd)
  have hkeep : ∀ {t u j}, ((g.setStops s ((g.stops s).filter (fun l => !hit l))).stops t).At u j →
      (g.stops t).At u j := by
    intro t u j hat
    rw [Store.stops_setStops] at hat
    split_ifs at hat with ht
    · subst ht
      exact Ladder.at_filter hat
    · exact hat
  have hmem : ∀ {t j}, j ∈ ((g.setStops s ((g.stops s).filter (fun l => !hit l))).stops t).ids →
      j ∈ (g.stops t).ids :=
    fun hm => by
      obtain ⟨u, hat⟩ := Ladder.mem_ids.mp hm
      exact (hkeep hat).mem_ids
  have hfrom : ∀ {t j}, (⟨some t, j⟩ : Held) ∈ (Ladder.ids ((g.stops s).filter hit)).map
      (fun id => (⟨some s, id⟩ : Held)) → t = s ∧ j ∈ Ladder.ids ((g.stops s).filter hit) := by
    intro t j hm
    obtain ⟨i, hi, he⟩ := List.mem_map.mp hm
    obtain ⟨h1, h2⟩ := Held.mk.inj he
    exact ⟨(Option.some.inj h1).symm, h2 ▸ hi⟩
  have hids : ∀ {j}, j ∈ Ladder.ids ((g.stops s).filter hit) → j ∈ (g.stops s).ids := fun hj => by
    obtain ⟨u, hat⟩ := Ladder.mem_ids.mp hj
    exact (Ladder.at_filter hat).mem_ids
  -- one goal for each field of `StoreOk`, in their order
  refine ⟨h.books.congr (fun _ => Store.book_setStops ..)
    (fun _ _ _ => by rw [Store.odrMap_setStops]), fun ho => ?_, fun {t j} hm => ?_,
    fun {t j o} hm ho => ?_, fun t => ?_, fun {t u j} hat => ?_, fun {t j} hm u => ?_,
    fun {t j} hm => ?_, fun {j} hm => ?_, ?_⟩
  · rw [Store.odrMap_setStops] at ho
    exact h.key ho
  · rw [Store.book_setStops] at hm
    exact h.bookIds hm
  · rw [Store.book_setStops] at hm
    rw [Store.odrMap_setStops] at ho
    exact h.placed hm ho
  · rw [Store.stops_setStops]
    split_ifs with ht
    · subst ht
      exact (h.stopsWf t).sublist List.filter_sublist
    · exact h.stopsWf t
  · rw [Store.odrMap_setStops]
    exact h.waits (hkeep hat)
  · rw [Store.book_setStops]
    exact h.off (hmem hm) u
  · simp only [Store.odrMap_setStops, Store.book_setStops]
    rcases List.mem_append.mp hm with hm | hm
    · obtain ⟨rfl, hj⟩ := hfrom hm
      obtain ⟨u, hat⟩ := Ladder.mem_ids.mp (hids hj)
      obtain ⟨o, ho, hw⟩ := h.waits hat
      refine ⟨⟨o, u, ho, hw⟩, h.off hat.mem_ids, fun hm' => ?_⟩
      rw [Store.stops_setStops, if_pos rfl] at hm'
      exact hdis j hj j hm' rfl
    · obtain ⟨hw, hb, hst⟩ := h.held hm
      exact ⟨hw, hb, fun hm' => hst (hmem hm')⟩
  · rcases List.mem_append.mp hm with hm | hm
    · obtain ⟨i, _, he⟩ := List.mem_map.mp hm
      cases he
    · obtain ⟨hlt, hst⟩ := h.taken hm
      refine ⟨hlt, fun t => ⟨fun hm' => (hst t).1 (hmem hm'), fun hm' => ?_⟩⟩
      rcases List.mem_append.mp hm' with hm' | hm'
      · obtain ⟨rfl, hj⟩ := hfrom hm'
        exact (hst _).1 (hids hj)
      · exact (hst t).2 hm'
  · refine List.nodup_append.mpr
      ⟨hhit.map (fun i j he => (Held.mk.inj he).2), h.nodup, fun x hx y hy he => ?_⟩
    subst he
    obtain ⟨i, hi, rfl⟩ := List.mem_map.mp hx
    exact (h.held hy).2.2 (hids hi)

/-- A new order is entered into the stop books it waits in. -/
theorem register (h : StoreOk T g n hs) (hid : n ≤ o.orderId) (hlt : o.orderId < m)
    (ht : T o.orderId o.terms) (hw : ∀ s ∈ o.stopSides, o.Waits s (o.stopTrigger s))
    (hbook : ∀ t, g'.book t = g.book t)
    (hstops : ∀ s, g'.stops s = if s ∈ o.stopSides then (g.stops s).insert s.cmp
      (o.stopTrigger s) o.orderId else g.stops s)
    (hfind : ∀ j, g'.odrMap.find? j = if j = o.orderId then some o else g.odrMap.find? j) :
    StoreOk T g' m hs := by
  obtain ⟨_, hnew, hnw⟩ := h.unused hid
  have hm := h.mono (show n ≤ m by omega)
  have hat : ∀ {s t j}, (g'.stops s).At t j →
      (s ∈ o.stopSides ∧ t = o.stopTrigger s ∧ j = o.orderId) ∨
        ((g.stops s).At t j ∧ j ≠ o.orderId) := by
    intro s t j hat
    rw [hstops] at hat
    split_ifs at hat with hs
    · rcases (Ladder.at_insert ..).mp hat with ⟨h1, h2⟩ | hat
      · exact Or.inl ⟨hs, h1, h2⟩
      · exact Or.inr ⟨hat, fun he => hnw ⟨s, Or.inl (he ▸ hat.mem_ids)⟩⟩
    · exact Or.inr ⟨hat, fun he => hnw ⟨s, Or.inl (he ▸ hat.mem_ids)⟩⟩
  have hmem : ∀ {s j}, j ∈ (g'.stops s).ids → j = o.orderId ∨ j ∈ (g.stops s).ids := fun hj => by
    obtain ⟨t, hj⟩ := Ladder.mem_ids.mp hj
    rcases hat hj with ⟨_, _, he⟩ | ⟨hj, _⟩
    · exact Or.inl he
    · exact Or.inr hj.mem_ids
  have hbooks : BooksOk g' := h.books.congr hbook fun t j hj => by
    rw [hfind, if_neg]
    rintro rfl
    exact hnew t hj
  refine ⟨hbooks, fun {j o'} ho' => ?_, fun {t j} hj => ?_, fun {t j o'} hj ho' => ?_, fun s => ?_,
    fun {s t j} hj => ?_, fun {s j} hj t => ?_, fun {s j} hj => ?_, fun {j} hj => ?_, h.nodup⟩
  · rw [hfind] at ho'
    split_ifs at ho' with he
    · obtain rfl := Option.some.inj ho'
      exact ⟨he.symm, he ▸ hlt, he ▸ ht⟩
    · exact hm.key ho'
  · rw [hbook] at hj
    exact hm.bookIds hj
  · rw [hbook] at hj
    have hne : j ≠ o.orderId := fun he => hnew t (he ▸ hj)
    rw [hfind, if_neg hne] at ho'
    exact h.placed hj ho'
  · rw [hstops]
    split_ifs
    · exact Ladder.wf_insert _ _ (h.stopsWf s)
    · exact h.stopsWf s
  · rw [hfind]
    rcases hat hj with ⟨hs, rfl, rfl⟩ | ⟨hj, hne⟩
    · exact ⟨o, if_pos rfl, hw s hs⟩
    · rw [if_neg hne]
      exact h.waits hj
  · rw [hbook]
    rcases hmem hj with rfl | hj
    · exact hnew t
    · exact h.off hj t
  · obtain ⟨⟨o', t, ho', hw'⟩, hb, hst⟩ := h.held hj
    have hne : j ≠ o.orderId := fun he => hnw ⟨s, Or.inr (he ▸ hj)⟩
    refine ⟨⟨o', t, by rw [hfind, if_neg hne, ho'], hw'⟩, fun t => by rw [hbook]; exact hb t,
      fun hj' => ?_⟩
    rcases hmem hj' with he | hj'
    · exact hne he
    · exact hst hj'
  · obtain ⟨hlt', hst⟩ := h.taken hj
    refine ⟨by omega, fun s => ⟨fun hj' => ?_, (hst s).2⟩⟩
    rcases hmem hj' with he | hj'
    · omega
    · exact (hst s).1 hj'

/-- An order that was taken out is forgotten. -/
theorem drop (h : StoreOk T g n (⟨none, id⟩ :: hs)) (hbook : ∀ t, g'.book t = g.book t)
    (hstops : ∀ t, g'.stops t = g.stops t)
    (hfind : ∀ j, g'.odrMap.find? j = if j = id then none else g.odrMap.find? j) :
    StoreOk T g' n hs := by
  have hst := (h.taken List.mem_cons_self).2
  have hsub : ∀ {j o'}, g'.odrMap.find? j = some o' →
      g.odrMap.find? j = some o' := fun {j o'} ho' => by
    rw [hfind] at ho'
    split_ifs at ho'
    exact ho'
  refine h.release.frame_stops (h.books.shrink (fun t => by rw [hbook]; exact h.books.wf t)
    (fun {t q j} hat => by rwa [hbook] at hat) (fun _ ho' => hsub ho'))
      (fun {t j} hm => by rwa [hbook] at hm) hstops
    (fun {j o'} ho' => ⟨o', hsub ho', rfl, rfl⟩) (fun {j o1 u v} hw ho1 hwt => ⟨o1, ?_, hwt⟩)
  rw [hfind, if_neg, ho1]
  rintro rfl
  obtain ⟨u, hm | hm⟩ := hw
  · exact (hst u).1 hm
  · exact (hst u).2 (List.mem_cons_of_mem _ hm)

/-! ### Openings -/

/-- A write that keeps id and terms, and leaves a resting order resting and
    a waiting one waiting. -/
theorem touch {m : Order} (h : StoreOk T g n hs) (hm : g.odrMap.find? id = some m)
    (hid : o.orderId = m.orderId) (ht : o.terms = m.terms)
    (hrest : ∀ p, m.RestsAt p id → o.RestsAt p id) (hwait : ∀ s t, m.Waits s t → o.Waits s t)
    (hbook : ∀ t, g'.book t = g.book t) (hstops : ∀ t, g'.stops t = g.stops t)
    (hfind : ∀ j, g'.odrMap.find? j = if j = id then some o else g.odrMap.find? j) :
    StoreOk T g' n hs := by
  refine h.frame_stops (h.books.touch hbook hfind fun s p hat => hrest p (h.books.restsAt hat hm))
    (fun {t j} hmem => by rwa [hbook] at hmem) hstops (fun {j o'} ho' => ?_)
      (fun {j o1 u v} _ ho1 hwt => ?_)
  · rw [hfind] at ho'
    by_cases hj : j = id
    · rw [if_pos hj] at ho'
      obtain rfl := Option.some.inj ho'
      exact ⟨m, hj ▸ hm, hid, ht⟩
    · rw [if_neg hj] at ho'
      exact ⟨o', ho', rfl, rfl⟩
  · by_cases hj : j = id
    · subst hj
      obtain rfl := Option.some.inj (ho1.symm.trans hm)
      exact ⟨o, by rw [hfind, if_pos rfl], hwait u v hwt⟩
    · exact ⟨o1, by rw [hfind, if_neg hj, ho1], hwt⟩

/-- An order that no longer waits is taken in hand. -/
theorem grab (h : StoreOk T g n []) (hlt : id < n) (hst : ∀ s, id ∉ (g.stops s).ids) :
    StoreOk T g n [⟨none, id⟩] where
  books := h.books
  key := h.key
  bookIds := h.bookIds
  placed := h.placed
  stopsWf := h.stopsWf
  waits := h.waits
  off := h.off
  held hm := by
    obtain he := List.mem_singleton.mp hm
    cases he
  taken hm := by
    obtain rfl := (Held.mk.inj (List.mem_singleton.mp hm)).2
    refine ⟨hlt, fun s => ⟨hst s, fun hm' => ?_⟩⟩
    cases List.mem_singleton.mp hm'
  nodup := List.nodup_singleton _

end StoreOk
end Matching
