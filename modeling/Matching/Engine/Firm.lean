import Matching.Engine.Sound

/-! The order map and the price books belong together: every entry of a price book resolves to an
    active order, and every active order is in a book, waits or is in hand (`Firm`). Fills and
    executions keep this as they are; what can break it is a request that takes an order out of its
    book and looks in the wrong one, so the requests of a run are to find the orders they name
    (`World.Finds`). Where it holds nothing dangles. -/

namespace Matching

/-- Open or partially filled. -/
def Order.Active (o : Order) : Prop := o.orderState = .opened ∨ o.orderState = .partialFill

/-- Book entries resolve to active orders, an id taken in hand is in no book, and every
    active order is somewhere. -/
structure Firm (g : Store) (hs : List Held) : Prop where
  rests : ∀ {s id}, id ∈ (g.book s).ids → ∃ o, g.odrMap.find? id = some o ∧ o.Active
  gone : ∀ {id}, ⟨none, id⟩ ∈ hs → ∀ s, id ∉ (g.book s).ids
  placed : ∀ {id o}, g.odrMap.find? id = some o → o.Active →
    (∃ s, id ∈ (g.book s).ids) ∨ g.Waiting hs id ∨ ⟨none, id⟩ ∈ hs

/-- The hand that holds the taker of an execution. -/
def Ref.hand : Ref → List Held
  | .arg => []
  | .entry id => [⟨none, id⟩]

theorem Ref.mem_hand {r : Ref} {id : ℕ} : (⟨none, id⟩ : Held) ∈ r.hand ↔ r = .entry id := by
  cases r <;> simp [hand, eq_comm]

theorem Ref.some_notMem_hand {r : Ref} {s : Side} {id : ℕ} : (⟨some s, id⟩ : Held) ∉ r.hand := by
  cases r <;> simp [hand]

variable {T : ℕ → Terms → Prop} {g g' : Store} {w w' w1 : World} {n m : ℕ} {e l id : ℕ} {s : Side}
  {r : Ref} {hs : List Held}
  {o o' q : Order}

theorem Store.Waiting.append_hand {id : ℕ} : g.Waiting (r.hand ++ hs) id ↔ g.Waiting hs id := by
  simp only [Store.Waiting, List.mem_append, Ref.some_notMem_hand, false_or]

theorem Order.active_engineMatch {t : MatchedType} {mid : ℕ} {p : ℤ} {q a b : ℕ} :
    (engineMatch o t mid p q a b).Active ↔ (engineMatch o t mid p q a b).remainQuantity ≠ 0 := by
  simp only [Order.Active, engineMatch, Order.updateDisplay]
  split_ifs with h <;> simp [h]

namespace Firm

theorem empty : Firm ⟨.empty, [], [], [], []⟩ [] := by
  refine ⟨fun {s id} h => ?_, fun h => (nomatch h), fun h => (nomatch h)⟩
  cases s <;> cases h

theorem live (h : Firm g hs) : g.Live := fun s p id hat => by
  obtain ⟨o, ho, _⟩ := h.rests hat.mem_ids
  rw [ho]
  exact Option.some_ne_none o

/-- The front order of book `s` was filled. -/
theorem fill {p : ℤ} {is : List ℕ} {b : Book} (h : Firm g hs) (hok : BooksOk g)
    (hb : g.book s = (p, id :: is) :: b) (hact : o.Active ↔ o.remainQuantity ≠ 0)
    (hbook : ∀ t, g'.book t = if t = s ∧ o.remainQuantity = 0 then (g.book s).pop else g.book t)
    (hstops : ∀ t, g'.stops t = g.stops t)
    (hfind : ∀ j, g'.odrMap.find? j = if j = id then (if o.remainQuantity = 0 then none else some o)
      else g.odrMap.find? j) : Firm g' hs := by
  have hmem : ∀ {t j}, j ∈ (g'.book t).ids ↔
      j ∈ (g.book t).ids ∧ (t = s → o.remainQuantity = 0 → j ≠ id) := by
    intro t j
    rw [hbook]
    split_ifs with hc
    · obtain ⟨rfl, hz⟩ := hc
      simp only [Ladder.mem_ids, hok.at_pop hb]
      exact ⟨fun ⟨q, hat, hne⟩ => ⟨⟨q, hat⟩, fun _ _ => hne⟩,
        fun ⟨⟨q, hat⟩, hne⟩ => ⟨q, hat, hne trivial hz⟩⟩
    · exact ⟨fun hm => ⟨hm, fun ht hz => absurd ⟨ht, hz⟩ hc⟩, And.left⟩
  have hfront := (BooksOk.at_front hb).mem_ids
  refine ⟨fun {t j} hm => ?_, fun hm t hm' => h.gone hm t (hmem.mp hm').1, fun {j o'} ho' ha => ?_⟩
  · obtain ⟨hold, hne⟩ := hmem.mp hm
    rw [hfind]
    by_cases hj : j = id
    · have hz : o.remainQuantity ≠ 0 := fun hz => by
        by_cases ht : t = s
        · exact hne ht hz hj
        · rw [Side.eq_opp_of_ne ht] at hold
          exact hok.apart hfront (hj ▸ hold)
      exact ⟨o, by rw [if_pos hj, if_neg hz], hact.mpr hz⟩
    · rw [if_neg hj]
      exact h.rests hold
  · rw [hfind] at ho'
    by_cases hj : j = id
    · rw [if_pos hj] at ho'
      split_ifs at ho' with hz
      exact Or.inl ⟨s, hmem.mpr ⟨hj ▸ hfront, fun _ hz' => absurd hz' hz⟩⟩
    · rw [if_neg hj] at ho'
      rcases h.placed ho' ha with ⟨t, hm⟩ | ⟨t, hm⟩ | hm
      · exact Or.inl ⟨t, hmem.mpr ⟨hm, fun _ _ => hj⟩⟩
      · exact Or.inr (Or.inl ⟨t, by rwa [hstops]⟩)
      · exact Or.inr (Or.inr hm)

/-- A write to one entry: an active order in a book stays active, and one that becomes active is
    somewhere. -/
theorem touch (h : Firm g hs) (hact : (∃ s, id ∈ (g.book s).ids) → o.Active)
    (hplaced : o.Active → (∃ s, id ∈ (g.book s).ids) ∨ g.Waiting hs id ∨ ⟨none, id⟩ ∈ hs)
    (hbook : ∀ t, g'.book t = g.book t) (hstops : ∀ t, g'.stops t = g.stops t)
    (hfind : ∀ j, g'.odrMap.find? j = if j = id then some o else g.odrMap.find? j) :
    Firm g' hs := by
  refine ⟨fun {t j} hm => ?_, fun hm t => by rw [hbook]; exact h.gone hm t, fun {j o'} ho' ha => ?_⟩
  · rw [hbook] at hm
    rw [hfind]
    by_cases hj : j = id
    · exact ⟨o, if_pos hj, hact ⟨t, hj ▸ hm⟩⟩
    · rw [if_neg hj]
      exact h.rests hm
  · simp only [hbook, Store.Waiting, hstops]
    rw [hfind] at ho'
    by_cases hj : j = id
    · rw [if_pos hj] at ho'
      obtain rfl := Option.some.inj ho'
      exact hj ▸ hplaced ha
    · rw [if_neg hj] at ho'
      exact h.placed ho' ha

/-- The taker comes to rest and leaves the hand. -/
theorem rest (h : Firm g (r.hand ++ hs)) (hact : o.Active)
    (hid : ∀ id, r = .entry id → o.orderId = id) (hfresh : ⟨none, o.orderId⟩ ∉ hs)
    (hbook : ∀ t, g'.book t = if t = s then (g.book s).insert s.cmp o.price o.orderId else g.book t)
    (hstops : ∀ t, g'.stops t = g.stops t)
    (hfind : ∀ j, g'.odrMap.find? j = if j = o.orderId then some o else g.odrMap.find? j) :
    Firm g' hs := by
  have hmem : ∀ {t j}, j ∈ (g'.book t).ids ↔ (t = s ∧ j = o.orderId) ∨ j ∈ (g.book t).ids := by
    intro t j
    rw [hbook]
    split_ifs with ht
    · subst ht
      simp [Ladder.mem_ids_insert]
    · simp [ht]
  refine ⟨fun {t j} hm => ?_, fun {j} hm t hm' => ?_, fun {j o'} ho' ha => ?_⟩
  · rw [hfind]
    by_cases hj : j = o.orderId
    · exact ⟨o, if_pos hj, hact⟩
    · rw [if_neg hj]
      rcases hmem.mp hm with ⟨_, he⟩ | hm
      · exact absurd he hj
      · exact h.rests hm
  · rcases hmem.mp hm' with ⟨_, rfl⟩ | hm'
    · exact hfresh hm
    · exact h.gone (List.mem_append_right _ hm) t hm'
  · rw [hfind] at ho'
    by_cases hj : j = o.orderId
    · exact Or.inl ⟨s, hmem.mpr (Or.inl ⟨rfl, hj⟩)⟩
    · rw [if_neg hj] at ho'
      rcases h.placed ho' ha with ⟨t, hm⟩ | hw | hm
      · exact Or.inl ⟨t, hmem.mpr (Or.inr hm)⟩
      · obtain ⟨t, hw⟩ := Store.Waiting.append_hand.mp hw
        exact Or.inr (Or.inl ⟨t, by rwa [hstops]⟩)
      · rcases List.mem_append.mp hm with hm | hm
        · exact absurd (hid j (Ref.mem_hand.mp hm)).symm hj
        · exact Or.inr (Or.inr hm)

/-- A taker that is no longer active leaves the hand. -/
theorem release (h : Firm g (r.hand ++ hs))
    (hdead : ∀ id o, r = .entry id → g.odrMap.find? id = some o → ¬o.Active) :
    Firm g hs := by
  refine ⟨h.rests, fun hm => h.gone (List.mem_append_right _ hm), fun {j o'} ho' ha => ?_⟩
  rcases h.placed ho' ha with hm | hw | hm
  · exact Or.inl hm
  · exact Or.inr (Or.inl (Store.Waiting.append_hand.mp hw))
  · rcases List.mem_append.mp hm with hm | hm
    · exact absurd ha (hdead j o' (Ref.mem_hand.mp hm) ho')
    · exact Or.inr (Or.inr hm)

/-- A collected order becomes a taker. -/
theorem take (h : Firm g (⟨some s, id⟩ :: hs)) (hoff : ∀ t, id ∉ (g.book t).ids) :
    Firm g (⟨none, id⟩ :: hs) := by
  refine ⟨h.rests, fun {j} hm => ?_, fun {j o'} ho' ha => ?_⟩
  · rcases List.mem_cons.mp hm with he | hm
    · obtain rfl := (Held.mk.inj he).2
      exact hoff
    · exact h.gone (List.mem_cons_of_mem _ hm)
  · rcases h.placed ho' ha with hm | ⟨t, hm | hm⟩ | hm
    · exact Or.inl hm
    · exact Or.inr (Or.inl ⟨t, Or.inl hm⟩)
    · rcases List.mem_cons.mp hm with he | hm
      · obtain rfl := (Held.mk.inj he).2
        exact Or.inr (Or.inr List.mem_cons_self)
      · exact Or.inr (Or.inl ⟨t, Or.inr (List.mem_cons_of_mem _ hm)⟩)
    · rcases List.mem_cons.mp hm with he | hm
      · cases he
      · exact Or.inr (Or.inr (List.mem_cons_of_mem _ hm))

/-- Levels of a stop book are collected. -/
theorem collect (h : Firm g hs) (s : Side) (hit : ℤ × List ℕ → Bool) :
    Firm (g.setStops s ((g.stops s).filter (fun l => !hit l)))
      ((Ladder.ids ((g.stops s).filter hit)).map (fun id => ⟨some s, id⟩) ++ hs) := by
  refine ⟨fun {t j} hm => ?_, fun {j} hm t => ?_, fun {j o'} ho' ha => ?_⟩
  · rw [Store.book_setStops] at hm
    rw [Store.odrMap_setStops]
    exact h.rests hm
  · rw [Store.book_setStops]
    rcases List.mem_append.mp hm with hm | hm
    · obtain ⟨i, _, he⟩ := List.mem_map.mp hm
      cases he
    · exact h.gone hm t
  · rw [Store.odrMap_setStops] at ho'
    simp only [Store.book_setStops]
    rcases h.placed ho' ha with hm | ⟨t, hm | hm⟩ | hm
    · exact Or.inl hm
    · refine Or.inr (Or.inl ⟨t, ?_⟩)
      rw [Store.stops_setStops]
      split_ifs with ht
      · subst ht
        rcases List.mem_append.mp
          ((Ladder.ids_filter_perm hit (g.stops t)).mem_iff.mpr hm) with hm | hm
        · exact Or.inr (List.mem_append_left _ (List.mem_map_of_mem hm))
        · exact Or.inl hm
      · exact Or.inl hm
    · exact Or.inr (Or.inl ⟨t, Or.inr (List.mem_append_right _ hm)⟩)
    · exact Or.inr (Or.inr (List.mem_append_right _ hm))

/-- A new order waits. -/
theorem register (h : Firm g hs) (hne : o.stopSides ≠ []) (hnew : ∀ t, o.orderId ∉ (g.book t).ids)
    (hbook : ∀ t, g'.book t = g.book t)
    (hstops : ∀ s, g'.stops s = if s ∈ o.stopSides then (g.stops s).insert s.cmp
      (o.stopTrigger s) o.orderId else g.stops s)
    (hfind : ∀ j, g'.odrMap.find? j = if j = o.orderId then some o else g.odrMap.find? j) :
    Firm g' hs := by
  obtain ⟨u, hu⟩ := List.exists_mem_of_ne_nil _ hne
  refine ⟨fun {t j} hm => ?_, fun hm t => by rw [hbook]; exact h.gone hm t, fun {j o'} ho' ha => ?_⟩
  · rw [hbook] at hm
    have hj : j ≠ o.orderId := fun he => hnew t (he ▸ hm)
    rw [hfind, if_neg hj]
    exact h.rests hm
  · simp only [hbook]
    by_cases hj : j = o.orderId
    · refine Or.inr (Or.inl ⟨u, Or.inl ?_⟩)
      rw [hstops, if_pos hu]
      exact Ladder.mem_ids_insert.mpr (Or.inl hj)
    · rw [hfind, if_neg hj] at ho'
      rcases h.placed ho' ha with hm | ⟨t, hm | hm⟩ | hm
      · exact Or.inl hm
      · refine Or.inr (Or.inl ⟨t, Or.inl ?_⟩)
        rw [hstops]
        split_ifs
        · exact Ladder.mem_ids_insert.mpr (Or.inr hm)
        · exact hm
      · exact Or.inr (Or.inl ⟨t, Or.inr hm⟩)
      · exact Or.inr (Or.inr hm)

/-- An order that was taken out is forgotten. -/
theorem drop (h : Firm g (⟨none, id⟩ :: hs)) (hbook : ∀ t, g'.book t = g.book t)
    (hstops : ∀ t, g'.stops t = g.stops t)
    (hfind : ∀ j, g'.odrMap.find? j = if j = id then none else g.odrMap.find? j) : Firm g' hs := by
  refine ⟨fun {t j} hm => ?_, fun hm t => by rw [hbook]; exact h.gone (List.mem_cons_of_mem _ hm) t,
    fun {j o'} ho' ha => ?_⟩
  · rw [hbook] at hm
    have hj : j ≠ id := fun he => h.gone List.mem_cons_self t (he ▸ hm)
    rw [hfind, if_neg hj]
    exact h.rests hm
  · rw [hfind] at ho'
    split_ifs at ho' with hj
    simp only [hbook, Store.Waiting, hstops]
    rcases h.placed ho' ha with hm | ⟨t, hm | hm⟩ | hm
    · exact Or.inl hm
    · exact Or.inr (Or.inl ⟨t, Or.inl hm⟩)
    · rcases List.mem_cons.mp hm with he | hm
      · cases he
      · exact Or.inr (Or.inl ⟨t, Or.inr hm⟩)
    · rcases List.mem_cons.mp hm with he | hm
      · exact absurd (Held.mk.inj he).2 hj
      · exact Or.inr (Or.inr hm)

/-- An order is taken out of every book and in hand. -/
theorem grab (h : Firm g []) (hbook : ∀ {t j}, j ∈ (g'.book t).ids ↔ j ∈ (g.book t).ids ∧ j ≠ id)
    (hstops : ∀ {t j}, j ≠ id → j ∈ (g.stops t).ids → j ∈ (g'.stops t).ids)
    (hfind : ∀ j, g'.odrMap.find? j = if j = id then some o else g.odrMap.find? j) :
    Firm g' [⟨none, id⟩] := by
  refine ⟨fun {t j} hm => ?_, fun {j} hm t hm' => ?_, fun {j o'} ho' ha => ?_⟩
  · obtain ⟨hold, hj⟩ := hbook.mp hm
    rw [hfind, if_neg hj]
    exact h.rests hold
  · obtain rfl := (Held.mk.inj (List.mem_singleton.mp hm)).2
    exact (hbook.mp hm').2 rfl
  · by_cases hj : j = id
    · exact Or.inr (Or.inr (by rw [hj]; exact List.mem_singleton_self _))
    · rw [hfind, if_neg hj] at ho'
      rcases h.placed ho' ha with ⟨t, hm⟩ | ⟨t, hm | hm⟩ | hm
      · exact Or.inl ⟨t, hbook.mpr ⟨hm, hj⟩⟩
      · exact Or.inr (Or.inl ⟨t, Or.inl (hstops hj hm)⟩)
      · cases hm
      · cases hm

end Firm
/-! ### Executions -/

/-- Every store is firm; engine `e` has the ids `hs` in hand. -/
def World.FirmAt (w : World) (e : ℕ) (hs : List Held) : Prop :=
  ∀ l, Firm (w.store l) (if l = e then hs else [])

namespace World.FirmAt

theorem self (h : w.FirmAt e hs) : Firm (w.store e) hs := by
  have he := h e
  rwa [if_pos rfl] at he

theorem congr (h : w.FirmAt e hs) (hst : ∀ l, w'.store l = w.store l) :
    w'.FirmAt e hs := fun l => by
  rw [hst]; exact h l

theorem put {hs' : List Held} (h : w.FirmAt e hs) (hself : Firm (w'.store e) hs')
    (hother : ∀ l, l ≠ e → w'.store l = w.store l) : w'.FirmAt e hs' := by
  intro l
  by_cases hl : l = e
  · rw [if_pos hl, hl]; exact hself
  · have hst := h l
    rw [if_neg hl] at hst ⊢
    rw [hother l hl]
    exact hst

theorem fillMaker {m : Order} {mid q a b : ℕ} (h : w.FirmAt e hs) (hok : w.Ok)
    (hm : Front w l s m) :
    (w.fillMaker l s (engineMakerMatch m mid q a b)).FirmAt e hs := by
  intro l'
  by_cases hl : l' = l
  · subst hl
    obtain ⟨is, rest, hb⟩ := hm.book
    refine (h l').fill (o := engineMakerMatch m mid q a b)
      (hok l') hb Order.active_engineMatch (fun t => ?_) (fun t => stops_fillMaker ..) (fun j => ?_)
    · rw [book_fillMaker]; simp only [true_and]
    · rw [find_fillMaker, engineMakerMatch_orderId]; simp only [true_and]
  · rw [store_fillMaker_ne hl]
    exact h l'

/-- A write to the taker in hand. -/
theorem writeRef (h : w.FirmAt e (r.hand ++ hs)) (hoff : OffBook w e r) :
    (w.writeRef e r o).FirmAt e (r.hand ++ hs) := by
  cases r with
  | arg => exact h.congr fun _ => rfl
  | entry id =>
    have hact : (∃ t, id ∈ ((w.store e).book t).ids) → o.Active :=
      fun ⟨t, hm⟩ => absurd hm (hoff id rfl t)
    refine h.put
      (h.self.touch hact (fun _ => Or.inr (Or.inr List.mem_cons_self)) (fun t => ?_)
      (fun t => ?_) fun j => ?_) (fun l hl => store_writeRef_ne hl)
    · exact book_writeRef ..
    · exact stops_writeRef ..
    · rw [find_writeRef]
      simp [eq_comm]

theorem release (h : w.FirmAt e (r.hand ++ hs)) (ho : w.readRef e r = .ok o) (hdead : ¬o.Active) :
    w.FirmAt e hs := by
  refine h.put (h.self.release fun id o' hr ho' => ?_) fun _ _ => rfl
  subst hr
  have hf : (w.store e).odrMap.find? id = some o := by simpa [readRef, deref] using ho
  obtain rfl := Option.some.inj (ho'.symm.trans hf)
  exact hdead

end World.FirmAt

theorem Kills.not_active {st : OrderStatus} (h : Kills w e s r o st) :
    ¬({ o with orderState := st } : Order).Active := by
  unfold Order.Active
  cases h with
  | ioc => split_ifs <;> simp
  | auction => split_ifs <;> simp
  | makerOnly => simp
  | fok => simp

theorem Fill.firm (hw : Ready w e s r) (h : Fill e s r w w')
    (hx : w.FirmAt e (r.hand ++ hs) ∧ ∃ o, w.readRef e r = .ok o ∧
      (o.Active ↔ o.remainQuantity ≠ 0)) :
    w'.FirmAt e (r.hand ++ hs) ∧ ∃ o, w'.readRef e r = .ok o ∧
      (o.Active ↔ o.remainQuantity ≠ 0) := by
  refine h.induct (P := fun v => v.FirmAt e (r.hand ++ hs) ∧ ∃ o, v.readRef e r = .ok o ∧
    (o.Active ↔ o.remainQuantity ≠ 0)) hw (fun {v} hv => ⟨hv.1.congr fun _ => rfl, ?_⟩)
    (fun hok hoff hm _ _ hv => ?_) (fun hoff _ _ _ hv => ?_) hx
  · obtain ⟨o, ho, hact⟩ := hv.2
    exact ⟨o, by cases r <;> exact ho, hact⟩
  · obtain ⟨hfirm, o, ho, hact⟩ := hv
    exact ⟨hfirm.fillMaker hok hm, o,
      (World.readRef_fillMaker hoff hm (engineMakerMatch_orderId ..)).trans ho, hact⟩
  · exact ⟨(hv.1.writeRef hoff).congr fun _ => World.store_callback .., _,
      World.readRef_fillTaker .., Order.active_engineMatch⟩

/-- The end of an execution: the taker rests or is no longer active. -/
theorem Outcome.firm {tick : ℤ} (h : Outcome w e s r o tick w')
    (hfirm : w.FirmAt e (r.hand ++ hs)) (hsnd : w.SoundAt T n e (r.hand ++ hs))
    (hoff : OffBook w e r) (ho : w.readRef e r = .ok o) (htk : TakerOk T n (r.hand ++ hs) s r o)
    (hact : o.Active ↔ o.remainQuantity ≠ 0) : w'.FirmAt e hs := by
  have hkill : ∀ o' : Order, ¬o'.Active → (w.kill e r o').FirmAt e hs := fun o' hdead => by
    have hput : (w.kill e r o').FirmAt e (r.hand ++ hs) :=
      (hfirm.writeRef (o := o') hoff).congr fun _ => World.store_callback ..
    exact hput.release (World.readRef_kill ..) hdead
  cases h with
  | filled h0 => exact hfirm.release ho fun ha => hact.mp ha h0
  | killed _ hk => exact hkill _ hk.not_active
  | nothing => exact hkill _ (by simp [Order.Active])
  | @rested p h0 hp =>
    have htk' : TakerOk T n (r.hand ++ hs) s r { o with price := p } := htk.congr rfl rfl
    have hfree := hsnd.free htk'
    refine hfirm.put (hfirm.self.rest (o := { o with price := p }) (s := s.opp) (hact.mpr h0)
      (fun id hr => (htk.entry id hr).1) (fun hin => ?_) (fun t => ?_)
        (fun t => World.stops_rest ..) fun j => ?_)
      (fun l hl => World.store_rest_ne hl)
    · cases r with
      | arg =>
        exact absurd (hsnd.self.taken hin).1
          (by rw [show ({ o with price := p } : Order).orderId = n from htk.arg rfl]; omega)
      | entry id =>
        have hid : o.orderId = id := (htk.entry id rfl).1
        exact (List.nodup_cons.mp hsnd.self.nodup).1 (hid ▸ hin)
    · rw [World.book_rest]; simp
    · rw [World.find_rest w e s r _ e hfree.entry (fun hr => (hfree.arg hr).1)]; simp

/-- An execution keeps the stores firm. -/
theorem execute_firm (hfirm : w.FirmAt e (r.hand ++ hs)) (hsnd : w.SoundAt T n e (r.hand ++ hs))
    (hoff : OffBook w e r) (hlegs : LegsApart w e s) (ho : w.readRef e r = .ok o)
    (h0 : o.remainQuantity ≠ 0) (hact : o.Active) (htk : TakerOk T n (r.hand ++ hs) s r o)
    (h : execute w e s r = .ok w') : w'.FirmAt e hs := by
  rcases execute_cases ⟨hsnd.ok, hoff, hlegs⟩ ho h0 with
    ⟨recs, w1, o1, v, hex, hw, hwalk, ho1, hout, _⟩ | ⟨hub, _⟩
  · obtain rfl := Except.ok.inj (hex.symm.trans h)
    have hread : (w.logExec e s r o).readRef e r = .ok o := by rw [World.readRef_logExec, ho]
    have hstart : (w.logExec e s r o).SoundAt T n e (r.hand ++ hs) := hsnd.congr fun _ => rfl
    have hfstart : (w.logExec e s r o).FirmAt e (r.hand ++ hs) := hfirm.congr fun _ => rfl
    obtain ⟨hsnd1, o2, ho2, htk2⟩ := hwalk.induct (P := fun v => v.SoundAt T n e (r.hand ++ hs) ∧
      ∃ o, v.readRef e r = .ok o ∧ TakerOk T n (r.hand ++ hs) s r o)
        (fun hv _ hf hx => hf.sound hv hx) hw ⟨hstart, o, hread, htk⟩
    obtain ⟨hfirm1, o3, ho3, hact3⟩ := hwalk.induct (P := fun v => v.FirmAt e (r.hand ++ hs) ∧
      ∃ o, v.readRef e r = .ok o ∧ (o.Active ↔ o.remainQuantity ≠ 0))
        (fun hv _ hf hx => hf.firm hv hx) hw
      ⟨hfstart, o, hread, ⟨fun _ => h0, fun _ => hact⟩⟩
    obtain rfl := Except.ok.inj (ho2.symm.trans ho1)
    obtain rfl := Except.ok.inj (ho3.symm.trans ho1)
    exact hout.firm hfirm1 hsnd1 (hwalk.ready hw).off ho1 htk2 hact3
  · rw [hub] at h; cases h

/-! ### Small steps -/

theorem Step.firm {x y : World × List Held} (h : Step e q x y) (hT : T x.1.nextId q.terms)
    (hone : ∀ z ∈ y.1.execs, T z.taker.orderId z.taker.terms → z.OneLeg) (hx : Sound T e x)
    (hf : x.1.FirmAt e x.2) : y.1.FirmAt e y.2 := by
  have hsnd := hx.stores
  cases h with
  | arg o => exact hf.congr fun _ => rfl
  | bump => exact hf.congr fun _ => rfl
  | reject => exact hf.congr fun _ => World.store_callback ..
  | @taker w w' hs o s ho ht hex =>
    have hstart : (w.bumpId.setArg o).SoundAt T w.nextId e hs := hsnd.congr fun _ => rfl
    have hfstart : (w.bumpId.setArg o).FirmAt e hs := hf.congr fun _ => rfl
    have hread : (w.bumpId.setArg o).readRef e .arg = .ok o := rfl
    have hpos := ho.whole
    exact execute_firm (r := .arg) hfstart hstart (OffBook.arg _ _)
      ((hx.legs s).congr rfl) hread (by omega) (Or.inl ho.opened) (ho.takerOk ht hT) hex
  | @fire w w' hs o s id ho hex =>
    have hfi := hx.fires ho hex hone
    obtain ⟨t, hw⟩ := hfi.waits
    have hfw : w.FirmAt e (⟨none, id⟩ :: hs) := hf.put (hf.self.take hfi.off) fun _ _ => rfl
    have hoff : OffBook w e (.entry id) := fun j hj => by cases hj; exact hfi.off
    exact execute_firm (r := .entry id) (hfw.writeRef hoff) hfi.stores hfi.offBook
      ((hx.legs s).congr (World.conf_writeRef w e e (.entry id) _)) hfi.read hfi.remain
        (Or.inl hw.opened) hfi.taker hex
  | @collect w hs s hit =>
    refine hf.put ?_ (fun l hl => World.store_setStops_ne hl)
    show Firm ((w.setStops e s _).store e) _
    rw [World.setStops_eq, World.store_upd, if_pos rfl]
    exact hf.self.collect s hit
  | @register w hs o ho hp hne hl =>
    have hge : w.nextId ≤ o.orderId := ho.orderId.ge
    obtain ⟨hnone, hnew, _⟩ := hsnd.self.unused hge
    have hreg := World.registered (w := w.bumpId.setArg o) e hnone rfl o.stopSides o.stopSides_nodup
    refine (hf.put (hf.self.register hne hnew hreg.book hreg.stops fun j => ?_) hreg.other).congr
      fun _ => World.store_callback ..
    rw [hreg.find]
    simp only [hne, ne_eq, not_false_eq_true, and_true]
    rfl
  | @drop w hs id =>
    refine hf.put (hf.self.drop (fun t => ?_) (fun t => ?_) fun j => ?_)
      (fun l hl => World.store_eraseOrder_ne hl)
    · rw [World.eraseOrder_eq, World.store_upd, if_pos rfl, Store.book_withMap]
    · rw [World.eraseOrder_eq, World.store_upd, if_pos rfl, Store.stops_withMap]
    · rw [World.eraseOrder_eq, World.store_upd, if_pos rfl, Store.odrMap_withMap,
        OrdMap.find?_erase]

/-! ### Openings -/

/-- The order a request names, if it rests, is where `handle_cancel` looks for it. -/
def Store.Finds (g : Store) (id : ℕ) : Prop :=
  ∀ o t p, g.odrMap.find? id = some o → (g.book t).At p id → o.lookup = .inl t

theorem Opening.firm {y : World × List Held} (h : Opening e q w y) (hx : Sound T e (w, []))
    (hf : w.FirmAt e []) (hfind : q.orderAction ≠ .new → (w.store e).Finds q.orderId) :
    y.1.FirmAt e y.2 := by
  have hsnd : w.SoundAt T w.nextId e [] := hx.stores
  have hnew : ∀ {st : OrderStatus}, cancelState q.orderAction = some st →
      q.orderAction ≠ .new := fun hst he => by
    rw [he] at hst
    cases hst
  cases h with
  | same => exact hf
  | refused => exact hf.congr fun _ => World.store_callback ..
  | @amended o a hfo hc hpos =>
    have hself : Firm
        ((w.putOrder e q.orderId (amendInPlace { o with orderAction := a } q)).store e) [] := by
      have hact : (∃ t, q.orderId ∈ ((w.store e).book t).ids) →
          (amendInPlace { o with orderAction := a } q).Active := fun ⟨t, hm⟩ => by
        obtain ⟨o', ho', ha⟩ := hf.self.rests hm
        obtain rfl := Option.some.inj (ho'.symm.trans hfo)
        exact ha
      refine hf.self.touch hact (fun ha => hf.self.placed hfo ha) (fun t => ?_)
        (fun t => ?_) fun j => ?_
      · simp
      · simp
      · simp
    have hput : (w.putOrder e q.orderId (amendInPlace { o with orderAction := a } q)).FirmAt e [] :=
      hf.put hself fun l hl => World.store_upd_ne hl
    exact hput.congr fun _ => World.store_callback ..
  | @unbooked o a st t is hfo hst hl hlev =>
    obtain ⟨hid, _, _⟩ := hsnd.self.key hfo
    refine hf.put
      (hf.self.grab (o := { o with orderAction := a, orderState := st }) (fun {u j} => ?_)
      (fun {u j} _ hm => ?_) fun j => ?_) fun l hl => (World.store_setBook_ne hl).trans
      (World.store_ackCancel_ne hl)
    · show j ∈ (((World.setBook _ e t _).store e).book u).ids ↔ _
      rw [World.setBook_eq, World.store_upd, if_pos rfl, Store.book_setBook, World.book_ackCancel]
      split_ifs with hu
      · subst hu
        simp only [Ladder.mem_ids, Ladder.at_eraseAt (hsnd.self.books.wf u), hid]
        refine ⟨fun ⟨p, hat, hne⟩ => ⟨⟨p, hat⟩, ?_⟩,
          fun ⟨⟨p, hat⟩, hne⟩ => ⟨p, hat, fun hc => hne hc.2⟩⟩
        rintro rfl
        exact hne ⟨(hsnd.self.books.restsAt hat hfo).price.symm, rfl⟩
      · refine ⟨fun hm => ⟨hm, ?_⟩, And.left⟩
        rintro rfl
        obtain ⟨p, hat⟩ := Ladder.mem_ids.mp hm
        have hlu := hfind (hnew hst) o u p hfo hat
        rw [hl] at hlu
        exact hu (Sum.inl.inj hlu).symm
    · show j ∈ (((World.setBook _ e t _).store e).stops u).ids
      rw [World.setBook_eq, World.store_upd, if_pos rfl, Store.stops_setBook, World.stops_ackCancel]
      exact hm
    · show ((World.setBook _ e t _).store e).odrMap.find? j = _
      rw [World.setBook_eq, World.store_upd, if_pos rfl, Store.odrMap_setBook, World.find_ackCancel]
  | @unstopped o a st ss hfo hst hl hlev =>
    obtain ⟨hid, _, _⟩ := hsnd.self.key hfo
    have hdrop :=
      World.dropped e o ss (w.ackCancel e q.orderId { o with orderAction := a } st)
        (Order.lookup_nodup hl)
    refine hf.put
      (hf.self.grab (o := { o with orderAction := a, orderState := st }) (fun {u j} => ?_)
        (fun {u j} hne hm => ?_) fun j => ?_)
      fun l hl => (hdrop.other l hl).trans (World.store_ackCancel_ne hl)
    · rw [hdrop.book, World.book_ackCancel]
      refine ⟨fun hm => ⟨hm, ?_⟩, And.left⟩
      rintro rfl
      obtain ⟨p, hat⟩ := Ladder.mem_ids.mp hm
      have hlu := hfind (hnew hst) o u p hfo hat
      rw [hl] at hlu
      cases hlu
    · rw [hdrop.stops, World.stops_ackCancel]
      split_ifs
      · obtain ⟨t, hat⟩ := Ladder.mem_ids.mp hm
        exact ((Ladder.at_eraseAt (hsnd.self.stopsWf u)).mpr
          ⟨hat, fun hc => hne (hc.2.trans hid)⟩).mem_ids
      · exact hm
    · rw [hdrop.find, World.find_ackCancel]

end Matching
