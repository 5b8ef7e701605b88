import Matching.Engine.Frame

/-! The two price books of a store and the order map: what holds of them between any two primitive
    updates of a well-behaved run. A book entry that resolves does so to an order of the same id and
    price with something left to trade (`BooksOk`); that all entries resolve is a separate property
    (`Live`), because a run can lose it. The lemmas say that a fill at the front, a new resting
    order and an erasure keep both, and that updates elsewhere in the store do not matter. -/

namespace Matching

/-- `o` is an order as it rests under price `p` and id `id`. -/
structure Order.RestsAt (o : Order) (p : ℤ) (id : ℕ) : Prop where
  orderId : o.orderId = id
  price : o.price = p
  remain : 0 < o.remainQuantity
  limit : p ≠ marketPrice

/-- The price books of a store are sorted and without empty levels, their entries resolve to resting
    orders if at all, and no id is in two places. -/
structure BooksOk (g : Store) : Prop where
  wf : ∀ s, (g.book s).WF s.cmp
  restsAt : ∀ {s p id o}, (g.book s).At p id → g.odrMap.find? id = some o → o.RestsAt p id
  price_unique : ∀ {s p q id}, (g.book s).At p id → (g.book s).At q id → p = q
  apart : ∀ {s id}, id ∈ (g.book s).ids → id ∉ (g.book s.opp).ids

/-- No book entry of the store dangles. -/
def Store.Live (g : Store) : Prop := ∀ s p id, (g.book s).At p id → g.odrMap.find? id ≠ none

namespace BooksOk

variable {g g' : Store} {s : Side} {p : ℤ} {id : ℕ} {is : List ℕ} {b : Book} {o : Order}

theorem empty (m : OrdMap ℕ Order) (b1 b2 : Book) : BooksOk ⟨m, [], [], b1, b2⟩ := by
  refine ⟨fun s => ?_, fun {s p id o} h => ?_, fun {s p q id} h => ?_, fun {s id} h => ?_⟩
  · cases s <;> exact Ladder.wf_nil _
  · cases s <;> simp [Store.book] at h
  · cases s <;> simp [Store.book] at h
  · cases s <;> simp [Store.book] at h

theorem at_front (hb : g.book s = (p, id :: is) :: b) : (g.book s).At p id := by
  rw [hb]; exact (Ladder.at_cons ..).mpr (Or.inl ⟨rfl, List.mem_cons_self ..⟩)

/-- The front id is nowhere else in its book. -/
theorem front_notMem (h : BooksOk g) (hb : g.book s = (p, id :: is) :: b) :
    id ∉ (g.book s).ids.tail := by
  have hwf := h.wf s
  rw [hb] at hwf ⊢
  simp only [Ladder.ids_cons, List.cons_append, List.tail_cons, List.mem_append, not_or]
  refine ⟨fun hmem => ?_, fun hmem => ?_⟩
  · have hasc := hwf.asc _ (List.mem_cons_self ..)
    exact absurd ((List.pairwise_cons.mp hasc).1 id hmem) (lt_irrefl _)
  · obtain ⟨q, hat⟩ := Ladder.mem_ids.mp hmem
    have hq : (g.book s).At q id := by rw [hb]; exact (Ladder.at_cons ..).mpr (Or.inr hat)
    have hlt := hwf.lt_of_at hat
    rw [h.price_unique hq (at_front hb)] at hlt
    exact Bool.false_ne_true ((StrictLt.irrefl p).symm.trans hlt)

/-- What is left of a book once its front is gone. -/
theorem at_pop (h : BooksOk g) (hb : g.book s = (p, id :: is) :: b) {q : ℤ} {j : ℕ} :
    (g.book s).pop.At q j ↔ (g.book s).At q j ∧ j ≠ id := by
  have hpop : (g.book s).pop = (g.book s).eraseAt p id := by rw [hb, Ladder.eraseAt_head]
  rw [hpop, Ladder.at_eraseAt (h.wf s)]
  constructor
  · rintro ⟨hat, hne⟩
    exact ⟨hat, fun he => hne ⟨h.price_unique (he ▸ hat) (at_front hb), he⟩⟩
  · rintro ⟨hat, hne⟩
    exact ⟨hat, fun he => hne he.2⟩

/-- Only the books and the orders they refer to matter. -/
theorem congr (h : BooksOk g) (hbook : ∀ s, g'.book s = g.book s)
    (hfind : ∀ s id, id ∈ (g.book s).ids → g'.odrMap.find? id = g.odrMap.find? id) :
    BooksOk g' := by
  refine ⟨fun s => ?_, fun {s p id o} hat ho => ?_, fun {s p q id} hp hq => ?_,
    fun {s id} hmem => ?_⟩
  · rw [hbook]; exact h.wf s
  · rw [hbook] at hat
    rw [hfind s id hat.mem_ids] at ho
    exact h.restsAt hat ho
  · rw [hbook] at hp hq
    exact h.price_unique hp hq
  · rw [hbook] at hmem ⊢
    exact h.apart hmem

/-- A write to an order that, where it rests, keeps its id, price and a rest of its quantity. -/
theorem touch (h : BooksOk g) (hbook : ∀ s, g'.book s = g.book s)
    (hfind : ∀ j, g'.odrMap.find? j = if j = id then some o else g.odrMap.find? j)
    (ho : ∀ s p, (g.book s).At p id → o.RestsAt p id) : BooksOk g' := by
  refine ⟨fun s => ?_, fun {s p j o'} hat ho' => ?_, fun {s p q j} hp hq => ?_,
    fun {s j} hmem => ?_⟩
  · rw [hbook]; exact h.wf s
  · rw [hbook] at hat
    rw [hfind] at ho'
    split_ifs at ho' with hj
    · obtain rfl := Option.some.inj ho'
      exact hj ▸ ho s p (hj ▸ hat)
    · exact h.restsAt hat ho'
  · rw [hbook] at hp hq
    exact h.price_unique hp hq
  · rw [hbook] at hmem ⊢
    exact h.apart hmem

/-- Entries that left the books, and orders that left the map, do no harm. -/
theorem shrink (h : BooksOk g) (hwf : ∀ s, (g'.book s).WF s.cmp)
    (hsub : ∀ {s q j}, (g'.book s).At q j → (g.book s).At q j)
    (hfind : ∀ {s q j o}, (g'.book s).At q j → g'.odrMap.find? j = some o →
      g.odrMap.find? j = some o) :
    BooksOk g' := by
  refine ⟨hwf, fun {s p j o'} hat ho' => h.restsAt (hsub hat) (hfind hat ho'),
    fun {s p q j} hp hq => h.price_unique (hsub hp) (hsub hq), fun {s j} hmem hmem' => ?_⟩
  obtain ⟨q, hat⟩ := Ladder.mem_ids.mp hmem
  obtain ⟨q', hat'⟩ := Ladder.mem_ids.mp hmem'
  exact h.apart (hsub hat).mem_ids (hsub hat').mem_ids

/-- What is left of the books once the front order of book `s` is gone. -/
theorem at_of_pop (h : BooksOk g) (hb : g.book s = (p, id :: is) :: b)
    (hbook : ∀ t, g'.book t = if t = s then (g.book s).pop else g.book t) {t : Side} {q : ℤ} {j : ℕ}
    (hat : (g'.book t).At q j) : (g.book t).At q j ∧ j ≠ id := by
  rw [hbook] at hat
  split_ifs at hat with ht
  · subst ht; exact (h.at_pop hb).mp hat
  · refine ⟨hat, fun he => ?_⟩
    rw [Side.eq_opp_of_ne ht] at hat
    exact h.apart (at_front hb).mem_ids (he ▸ hat.mem_ids)

/-- The front order of book `s` was filled: it stays with what is left of it
    or leaves book and map. -/
theorem fill (h : BooksOk g) (hb : g.book s = (p, id :: is) :: b)
    (hr : o.orderId = id ∧ o.price = p ∧ p ≠ marketPrice)
    (hbook : ∀ t, g'.book t = if t = s ∧ o.remainQuantity = 0 then (g.book s).pop else g.book t)
    (hfind : ∀ j, g'.odrMap.find? j = if j = id then (if o.remainQuantity = 0 then none else some o)
      else g.odrMap.find? j) : BooksOk g' := by
  by_cases hq : o.remainQuantity = 0
  · simp only [hq, and_true, if_true] at hbook hfind
    refine h.shrink (fun t => ?_) (fun hat => (h.at_of_pop hb hbook hat).1) (fun hat ho => ?_)
    · rw [hbook]
      split_ifs with ht
      · subst ht; exact Ladder.wf_pop (h.wf _)
      · exact h.wf t
    · rw [hfind, if_neg (h.at_of_pop hb hbook hat).2] at ho
      exact ho
  · simp only [hq, and_false, if_false] at hbook hfind
    refine h.touch hbook hfind (fun t q hat => ?_)
    have hts : t = s := by
      by_contra hne
      rw [Side.eq_opp_of_ne hne] at hat
      exact h.apart (at_front hb).mem_ids hat.mem_ids
    subst hts
    obtain rfl := h.price_unique (at_front hb) hat
    exact ⟨hr.1, hr.2.1, Nat.pos_of_ne_zero hq, hr.2.2⟩

/-- The order `o` comes to rest in book `s` at its price. -/
theorem rest (h : BooksOk g) (hfresh : ∀ t, o.orderId ∉ (g.book t).ids)
    (ho : o.RestsAt o.price o.orderId)
    (hbook : ∀ t, g'.book t = if t = s then (g.book s).insert s.cmp o.price o.orderId else g.book t)
    (hfind : ∀ j, g'.odrMap.find? j = if j = o.orderId then some o else g.odrMap.find? j) :
    BooksOk g' := by
  have hsub : ∀ {t q j}, (g'.book t).At q j →
      (t = s ∧ q = o.price ∧ j = o.orderId) ∨ ((g.book t).At q j ∧ j ≠ o.orderId) := by
    intro t q j hat
    rw [hbook] at hat
    split_ifs at hat with ht
    · subst ht
      rcases (Ladder.at_insert ..).mp hat with ⟨h1, h2⟩ | hat
      · exact Or.inl ⟨rfl, h1, h2⟩
      · exact Or.inr ⟨hat, fun he => hfresh t (he ▸ hat.mem_ids)⟩
    · exact Or.inr ⟨hat, fun he => hfresh t (he ▸ hat.mem_ids)⟩
  refine ⟨fun t => ?_, fun {t q j o'} hat ho' => ?_, fun {t q q' j} hq hq' => ?_,
    fun {t j} hmem hmem' => ?_⟩
  · rw [hbook]
    split_ifs with ht
    · subst ht; exact Ladder.wf_insert _ _ (h.wf _)
    · exact h.wf t
  · rw [hfind] at ho'
    rcases hsub hat with ⟨_, rfl, rfl⟩ | ⟨hat, hne⟩
    · rw [if_pos rfl] at ho'
      obtain rfl := Option.some.inj ho'
      exact ho
    · rw [if_neg hne] at ho'
      exact h.restsAt hat ho'
  · rcases hsub hq with ⟨_, rfl, hj⟩ | ⟨hat, hne⟩
    · rcases hsub hq' with ⟨_, rfl, _⟩ | ⟨_, hne'⟩
      · rfl
      · exact absurd hj hne'
    · rcases hsub hq' with ⟨_, _, hj'⟩ | ⟨hat', _⟩
      · exact absurd hj' hne
      · exact h.price_unique hat hat'
  · obtain ⟨q, hat⟩ := Ladder.mem_ids.mp hmem
    obtain ⟨q', hat'⟩ := Ladder.mem_ids.mp hmem'
    rcases hsub hat with ⟨ht, _, hj⟩ | ⟨hat, hne⟩
    · rcases hsub hat' with ⟨ht', _, _⟩ | ⟨_, hne'⟩
      · exact Side.opp_ne s (ht ▸ ht')
      · exact hne' hj
    · rcases hsub hat' with ⟨_, _, hj'⟩ | ⟨hat', _⟩
      · exact hne hj'
      · exact h.apart hat.mem_ids hat'.mem_ids

/-- The id `id` is taken out of book `s`. -/
theorem unlist (h : BooksOk g)
    (hbook : ∀ t, g'.book t = if t = s then (g.book s).eraseAt p id else g.book t)
    (hfind : ∀ j, g'.odrMap.find? j = g.odrMap.find? j) : BooksOk g' := by
  refine h.shrink (fun t => ?_) (fun {t q j} hat => ?_) (fun _ ho => (hfind _).symm.trans ho)
  · rw [hbook]
    split_ifs with ht
    · subst ht; exact Ladder.wf_eraseAt _ _ (h.wf _)
    · exact h.wf t
  · rw [hbook] at hat
    split_ifs at hat with ht
    · subst ht; exact ((Ladder.at_eraseAt (h.wf t)).mp hat).1
    · exact hat

end BooksOk

namespace Store.Live

variable {g g' : Store} {s : Side} {p : ℤ} {id : ℕ} {is : List ℕ} {b : Book} {o : Order}

theorem congr (h : g.Live) (hbook : ∀ s, g'.book s = g.book s)
    (hfind : ∀ s id, id ∈ (g.book s).ids → g'.odrMap.find? id = g.odrMap.find? id) : g'.Live := by
  intro s p id hat
  rw [hbook] at hat
  rw [hfind s id hat.mem_ids]
  exact h s p id hat

theorem fill (h : g.Live) (hok : BooksOk g) (hb : g.book s = (p, id :: is) :: b)
    (hbook : ∀ t, g'.book t = if t = s ∧ o.remainQuantity = 0 then (g.book s).pop else g.book t)
    (hfind : ∀ j, g'.odrMap.find? j = if j = id then (if o.remainQuantity = 0 then none else some o)
      else g.odrMap.find? j) : g'.Live := by
  intro t q j hat
  by_cases hq : o.remainQuantity = 0
  · simp only [hq, and_true, if_true] at hbook hfind
    obtain ⟨hat', hne⟩ := hok.at_of_pop hb hbook hat
    rw [hfind, if_neg hne]
    exact h t q j hat'
  · simp only [hq, and_false, if_false] at hbook hfind
    rw [hbook] at hat
    rw [hfind]
    split_ifs
    · exact Option.some_ne_none o
    · exact h t q j hat

theorem rest (h : g.Live)
    (hbook : ∀ t, g'.book t = if t = s then (g.book s).insert s.cmp o.price o.orderId else g.book t)
    (hfind : ∀ j, g'.odrMap.find? j = if j = o.orderId then some o else g.odrMap.find? j) :
    g'.Live := by
  intro t q j hat
  rw [hfind]
  split_ifs with hj
  · exact Option.some_ne_none o
  · rw [hbook] at hat
    split_ifs at hat with ht
    · subst ht
      rcases (Ladder.at_insert ..).mp hat with ⟨_, he⟩ | hat
      · exact absurd he hj
      · exact h t q j hat
    · exact h t q j hat

end Store.Live
end Matching
