import Matching.Engine.Sound

/-! The reports of a call as a ledger. A call is a sequence of execution steps (`Trades`), at most
    one amendment in place, and changes that move no quantity (`Still`); its `Trail` lists the
    reports of each. An order's account at any point is what it was reported filled for since it was
    created or amended in place (`filledFor`); it balances in every report of a fill and for every
    live order (`Accounts`). -/

namespace Matching

/-- A report, with the engine whose callback gets it. -/
abbrev Report := ℕ × Order

/-- What belongs together among the reports of a call: an execution step, an amendment in place, or
    any other single report. -/
inductive Item where
  | fill (makers : List Report) (taker : Report)
  | amend (x : Report)
  | word (x : Report)

namespace Item

def reports : Item → List Report
  | .fill ms t => ms ++ [t]
  | .amend x => [x]
  | .word x => [x]

/-- The matched id of an execution step. -/
def matchedIds : Item → List ℕ
  | .fill _ t => [t.2.matchedId]
  | _ => []

end Item

/-- The quantity that reports say order `id` of engine `l` was filled for. -/
def reported (l id : ℕ) (xs : List Report) : ℕ :=
  ((xs.filter fun x => x.1 = l ∧ x.2.orderId = id).map fun x => x.2.lastMatchQuantity).sum

/-- The account of order `id` of engine `l` after an item, when it was at `n`. -/
def Item.account (l id n : ℕ) : Item → ℕ
  | .fill ms t => n + reported l id (ms ++ [t])
  | .amend x => if x.1 = l ∧ x.2.orderId = id then 0 else n
  | .word _ => n

/-- What the order was reported filled for since it was created or last amended in place. -/
def filledFor (l id : ℕ) (items : List Item) : ℕ := items.foldl (fun n x => x.account l id n) 0

/-- The order's quantity is what is left of it and what it was reported filled for. -/
def Order.Balanced (o : Order) (l : ℕ) (items : List Item) : Prop :=
  o.quantity = o.remainQuantity + filledFor l o.orderId items

/-- The report of a fill by `q` of the order `o`. -/
structure Order.FilledBy (o' o : Order) (t : MatchedType) (q : ℕ) : Prop where
  orderId : o'.orderId = o.orderId
  matchedType : o'.matchedType = t
  lastMatchQuantity : o'.lastMatchQuantity = q
  quantity : o'.quantity = o.quantity
  remain : o'.remainQuantity + q = o.remainQuantity
  orderState : o'.orderState = if o'.remainQuantity = 0 then .filled else .partialFill

/-- The report says that the order was filled. An amend in place repeats the state and the last
    match of the order, but leaves it whole. -/
def Order.SaysFilled (o : Order) : Prop :=
  (o.orderState = .filled ∨ o.orderState = .partialFill) ∧ o.remainQuantity < o.quantity

/-- Whose trades a step is made of: the taker's with an order of its own engine, or with one order
    of each leg of an implier. They name each other. -/
inductive Crosswise (e : ℕ) (v : World) : List Report → Report → Prop
  | loc {m t : Order} (h : m.lastMatchedOrderId = t.orderId)
      (ht : t.lastMatchedOrderId = m.orderId) : Crosswise e v [(e, m)] (e, t)
  | imp {s : Side} {i : Implier} {m1 m2 t : Order} (hi : i ∈ (v.conf e).impliers s)
      (h1 : m1.lastMatchedOrderId = t.orderId ∧ m1.lastMatchedOrderId2 = m2.orderId)
      (h2 : m2.lastMatchedOrderId = t.orderId ∧ m2.lastMatchedOrderId2 = m1.orderId)
      (ht : t.lastMatchedOrderId = m1.orderId ∧ t.lastMatchedOrderId2 = m2.orderId) :
      Crosswise e v [(i.leg1.1, m1), (i.leg2.1, m2)] (e, t)

/-- One execution step of the taker `r` of engine `e`, reported by `ms` and `t`. -/
structure Trades (e : ℕ) (r : Ref) (v v' : World) (ms : List Report) (t : Report) : Prop where
  emitted : v'.reports = v.reports ++ (ms ++ [t])
  drawn : t.2.matchedId = v.nextId ∧ v'.nextId = v.nextId + 1
  matchedId : ∀ x ∈ ms, x.2.matchedId = t.2.matchedId
  told : ∀ x ∈ ms ++ [t], x.2.SaysFilled
  positive : 0 < t.2.lastMatchQuantity
  crosswise : Crosswise e v ms t
  /-- The participants are different orders. -/
  nodup : ((ms ++ [t]).map fun x => (x.1, x.2.orderId)).Nodup
  /-- A maker trades at its own limit, and leaves the map when nothing is left of it. -/
  maker : ∀ x ∈ ms, ∃ m, v.order? x.1 x.2.orderId = some m ∧
    x.2.FilledBy m .maker t.2.lastMatchQuantity ∧ x.2.lastMatchPrice = m.price ∧
    v'.order? x.1 x.2.orderId = if x.2.remainQuantity = 0 then none else some x.2
  taker : ∃ o, v.readRef e r = .ok o ∧ t.2.FilledBy o .taker t.2.lastMatchQuantity ∧
    v'.readRef e r = .ok t.2 ∧ ∀ o', v'.order? e t.2.orderId = some o' → o' = t.2
  others : ∀ l id, (∀ x ∈ ms ++ [t], ¬(x.1 = l ∧ x.2.orderId = id)) → v'.order? l id = v.order? l id

/-- No quantity changes: who is in the map afterwards was there, or is the caller's order. -/
def Still (v v' : World) : Prop := ∀ l id o', v'.order? l id = some o' →
  (∃ o, v.order? l id = some o ∧ o'.orderId = o.orderId ∧ o'.quantity = o.quantity ∧
    o'.remainQuantity = o.remainQuantity) ∨ (v.order? l id = none ∧ o' = v'.arg ∧ o'.orderId = id)

/-- An order is amended in place, and reported. -/
structure Amends (v v' : World) (x : Report) : Prop where
  emitted : v'.reports = v.reports ++ [x]
  before : ∃ o, v.order? x.1 x.2.orderId = some o ∧ x.2.remainQuantity ≤ o.remainQuantity
  whole : x.2.quantity = x.2.remainQuantity
  after : v'.order? x.1 x.2.orderId = some x.2
  others : ∀ l id, ¬(x.1 = l ∧ x.2.orderId = id) → v'.order? l id = v.order? l id

/-- From `w` to `w'` engine `e` made the reports of the items, in this order. -/
inductive Trail (e : ℕ) (w : World) : List Item → World → Prop
  | nil : Trail e w [] w
  | fill {items : List Item} {v v' : World} {r : Ref} {ms : List Report} {t : Report}
      (h : Trail e w items v) (ht : Trades e r v v' ms t) : Trail e w (items ++ [.fill ms t]) v'
  | amend {items : List Item} {v v' : World} {x : Report} (h : Trail e w items v)
      (ha : Amends v v' x) : Trail e w (items ++ [.amend x]) v'
  | word {items : List Item} {v v' : World} {x : Report} (h : Trail e w items v) (hs : Still v v')
      (hr : v'.reports = v.reports ++ [x]) (hx : ¬x.2.SaysFilled) :
        Trail e w (items ++ [.word x]) v'
  | quiet {items : List Item} {v v' : World} (h : Trail e w items v) (hs : Still v v')
      (hr : v'.reports = v.reports) : Trail e w items v'

/-- The books of the ledger in the world `v`: matched ids are used once, and what was reported
    filled is what is missing of every order. -/
structure Accounts (items : List Item) (v : World) : Prop where
  nodup : (items.flatMap Item.matchedIds).Nodup
  below : ∀ i ∈ items.flatMap Item.matchedIds, i < v.nextId
  fresh : ∀ l id, v.nextId ≤ id → filledFor l id items = 0
  fills : ∀ (k : ℕ) (ms : List Report) (t : Report), items[k]? = some (.fill ms t) →
    ∀ x ∈ ms ++ [t], x.2.Balanced x.1 (items.take (k + 1))
  orders : ∀ l id o, v.order? l id = some o → o.orderId = id ∧ o.Balanced l items

variable {T : ℕ → Terms → Prop} {v v' w w' w1 : World} {n l e id : ℕ} {s : Side} {r : Ref}
  {hs : List Held} {m o q : Order}
  {items past : List Item} {ms : List Report} {t x : Report}

/-! ### Accounts -/

theorem reported_eq_zero {xs : List Report} (h : ∀ x ∈ xs, ¬(x.1 = l ∧ x.2.orderId = id)) :
    reported l id xs = 0 := by
  have hnil : xs.filter (fun x => x.1 = l ∧ x.2.orderId = id) = [] := by
    rw [List.filter_eq_nil_iff]
    intro x hx
    simpa using h x hx
  rw [reported, hnil]
  rfl

/-- Among reports of different orders an order's quantity is that of its report. -/
theorem reported_of_mem :
    ∀ {xs : List Report}, (xs.map fun x => (x.1, x.2.orderId)).Nodup → x ∈ xs →
    reported x.1 x.2.orderId xs = x.2.lastMatchQuantity
  | [], _, hx => nomatch hx
  | y :: xs, hnd, hx => by
    rw [List.map_cons, List.nodup_cons] at hnd
    obtain ⟨hy, hnd⟩ := hnd
    have hskip : ∀ {l id : ℕ}, reported l id (y :: xs) =
        (if y.1 = l ∧ y.2.orderId = id then y.2.lastMatchQuantity else 0) + reported l id xs :=
          fun {l id} => by
      simp only [reported, List.filter_cons]
      split_ifs <;> simp_all
    rw [hskip]
    rcases List.mem_cons.mp hx with rfl | hmem
    · rw [if_pos ⟨rfl, rfl⟩,
        reported_eq_zero fun z hz hc => hy (List.mem_map.mpr ⟨z, hz, Prod.ext hc.1 hc.2⟩),
        Nat.add_zero]
    · rw [if_neg fun hc => hy (List.mem_map.mpr ⟨x, hmem, (Prod.ext hc.1 hc.2).symm⟩),
        reported_of_mem hnd hmem, Nat.zero_add]

@[simp] theorem filledFor_concat (items : List Item) (x : Item) :
    filledFor l id (items ++ [x]) = x.account l id (filledFor l id items) := by
  rw [filledFor, List.foldl_append]
  rfl

theorem Still.of_find
    (h : ∀ l id o', v'.order? l id = some o' → ∃ o, v.order? l id = some o ∧
      o'.orderId = o.orderId ∧ o'.quantity = o.quantity ∧ o'.remainQuantity = o.remainQuantity) :
    Still v v' := fun l id o' ho' => .inl (h l id o' ho')

theorem Still.of_store (h : ∀ l, v'.store l = v.store l) : Still v v' :=
  .of_find fun l id o ho => ⟨o, by rwa [World.order?, h] at ho, rfl, rfl, rfl⟩

namespace Accounts

theorem empty (h : ∀ l id, v.order? l id = none) : Accounts [] v :=
  ⟨List.nodup_nil, (fun _ hi => nomatch hi), fun _ _ _ => rfl, fun k ms t hk => by simp at hk,
      fun l id o ho => by
    rw [h] at ho
    cases ho⟩

/-- The last item of a list. -/
theorem fills_concat {it : Item} (h : Accounts items v)
    (hit : ∀ ms t, it = .fill ms t → ∀ x ∈ ms ++ [t], x.2.Balanced x.1 (items ++ [it])) :
    ∀ (k : ℕ) (ms : List Report) (t : Report), (items ++ [it])[k]? = some (.fill ms t) →
      ∀ x ∈ ms ++ [t], x.2.Balanced x.1 ((items ++ [it]).take (k + 1)) := by
  intro k ms t hk x hx
  rcases lt_trichotomy k items.length with hlt | heq | hgt
  · rw [List.getElem?_append_left hlt] at hk
    rw [List.take_append_of_le_length hlt]
    exact h.fills k ms t hk x hx
  · subst heq
    rw [List.getElem?_concat_length] at hk
    rw [List.take_of_length_le (by simp)]
    exact hit ms t (Option.some.inj hk) x hx
  · rw [List.getElem?_eq_none (by simp; omega)] at hk
    cases hk

/-- Changes that move no quantity, silent or with a report of something else. -/
theorem still (h : Accounts items v) (hs : Still v v') (hn : v.nextId ≤ v'.nextId)
    {its : List Item} (hits : its = [] ∨ ∃ x, its = [.word x])
    (harg : ∀ l id, v.order? l id = none → v'.order? l id = some v'.arg → v'.arg.Balanced l items) :
    Accounts (items ++ its) v' := by
  have hfor : ∀ l id, filledFor l id (items ++ its) = filledFor l id items := fun l id => by
    rcases hits with rfl | ⟨x, rfl⟩
    · rw [List.append_nil]
    · rw [filledFor_concat]
      rfl
  have hids : (items ++ its).flatMap Item.matchedIds = items.flatMap Item.matchedIds := by
    rcases hits with rfl | ⟨x, rfl⟩ <;> simp [Item.matchedIds]
  refine ⟨hids ▸ h.nodup, fun i hi => (h.below i (hids ▸ hi)).trans_le hn, fun l id hid => ?_, ?_,
    fun l id o' ho' => ?_⟩
  · rw [hfor]
    exact h.fresh l id (hn.trans hid)
  · rcases hits with rfl | ⟨x, rfl⟩
    · rw [List.append_nil]
      exact h.fills
    · exact h.fills_concat fun ms t he => nomatch he
  · rcases hs l id o' ho' with ⟨o, ho, hoid, hq, hr⟩ | ⟨hnone, rfl, hoid⟩
    · obtain ⟨hid, hbal⟩ := h.orders l id o ho
      refine ⟨hoid.trans hid, ?_⟩
      rw [Order.Balanced, hfor, hq, hr, hoid]
      exact hbal
    · refine ⟨hoid, ?_⟩
      rw [Order.Balanced, hfor]
      exact harg l id hnone ho'

/-- The account of an order that is amended in place is opened again. -/
theorem amended (h : Accounts items v) (ha : Amends v v' x) (hn : v.nextId ≤ v'.nextId) :
    Accounts (items ++ [.amend x]) v' := by
  have hfor : ∀ l id, filledFor l id (items ++ [.amend x]) = if x.1 = l ∧ x.2.orderId = id then 0
      else filledFor l id items :=
    fun l id => filledFor_concat ..
  have hids : (items ++ [Item.amend x]).flatMap Item.matchedIds =
    items.flatMap Item.matchedIds := by simp [Item.matchedIds]
  refine ⟨hids ▸ h.nodup, fun i hi => (h.below i (hids ▸ hi)).trans_le hn, fun l id hid => ?_,
    h.fills_concat (fun ms t he => nomatch he), fun l id o' ho' => ?_⟩
  · rw [hfor]
    split_ifs
    · rfl
    · exact h.fresh l id (hn.trans hid)
  · by_cases hx : x.1 = l ∧ x.2.orderId = id
    · obtain ⟨rfl, rfl⟩ := hx
      obtain rfl := Option.some.inj (ho'.symm.trans ha.after)
      refine ⟨rfl, ?_⟩
      rw [Order.Balanced, hfor, if_pos ⟨rfl, rfl⟩, Nat.add_zero]
      exact ha.whole
    · rw [ha.others l id hx] at ho'
      obtain ⟨hoid, hbal⟩ := h.orders l id o' ho'
      refine ⟨hoid, ?_⟩
      rw [Order.Balanced, hfor, if_neg fun hc => hx ⟨hc.1, hc.2.trans hoid⟩]
      exact hbal

/-- The accounts of the participants of a step grow by what it filled; all others stay. -/
theorem filled (h : Accounts items v) (ht : Trades e r v v' ms t) (ho : v.readRef e r = .ok o)
    (hb : o.Balanced e items) (hids : ∀ x ∈ ms ++ [t], x.2.orderId < v'.nextId) :
    Accounts (items ++ [.fill ms t]) v' ∧ t.2.Balanced e (items ++ [.fill ms t]) := by
  obtain ⟨o', ho', hf, hread, hafter⟩ := ht.taker
  obtain rfl := Except.ok.inj (ho.symm.trans ho')
  have hte : t.1 = e := by cases ht.crosswise <;> rfl
  have hpart : ∀ x ∈ ms ++ [t], x.2.lastMatchQuantity = t.2.lastMatchQuantity →
      filledFor x.1 x.2.orderId (items ++ [.fill ms t]) =
        filledFor x.1 x.2.orderId items + t.2.lastMatchQuantity := fun x hx hq => by
    rw [filledFor_concat, ← hq, ← reported_of_mem ht.nodup hx]
    rfl
  have hbal : ∀ x ∈ ms ++ [t], x.2.Balanced x.1 (items ++ [.fill ms t]) := fun x hx => by
    rcases List.mem_append.mp hx with hm | hm
    · obtain ⟨m, hfind, hfm, -, -⟩ := ht.maker x hm
      have hold := (h.orders _ _ m hfind).2
      have hq := hfm.quantity
      have hrem := hfm.remain
      rw [Order.Balanced, ← hfm.orderId] at hold
      rw [Order.Balanced, hpart x hx hfm.lastMatchQuantity]
      omega
    · obtain rfl := List.mem_singleton.mp hm
      have hq := hf.quantity
      have hrem := hf.remain
      rw [Order.Balanced, ← hf.orderId, ← hte] at hb
      rw [Order.Balanced, hpart x hx rfl]
      omega
  obtain ⟨hid, hnext⟩ := ht.drawn
  refine ⟨⟨?_, fun i hi => ?_, fun l id hle => ?_, h.fills_concat fun ms' t' he => ?_,
    fun l id o' ho' => ?_⟩, hte ▸ hbal t (List.mem_append_right _ (List.mem_singleton_self t))⟩
  · rw [List.flatMap_append, List.nodup_append]
    refine ⟨h.nodup, by simp [Item.matchedIds], fun i hi j hj => ?_⟩
    have hlt := h.below i hi
    simp only [Item.matchedIds, List.flatMap_cons, List.flatMap_nil, List.append_nil,
      List.mem_singleton] at hj
    omega
  · rw [List.flatMap_append, List.mem_append] at hi
    rcases hi with hi | hi
    · have hlt := h.below i hi
      omega
    · simp only [Item.matchedIds, List.flatMap_cons, List.flatMap_nil, List.append_nil,
        List.mem_singleton] at hi
      omega
  · -- an id that is not in use takes part in nothing
    rw [filledFor_concat, h.fresh l id (by omega)]
    show 0 + reported l id (ms ++ [t]) = 0
    rw [Nat.zero_add]
    refine reported_eq_zero fun x hx hc => ?_
    have hlt := hids x hx
    omega
  · obtain ⟨rfl, rfl⟩ := Item.fill.inj he
    exact hbal
  · by_cases hin : ∃ x ∈ ms ++ [t], x.1 = l ∧ x.2.orderId = id
    · obtain ⟨x, hx, rfl, rfl⟩ := hin
      have hox : o' = x.2 := by
        rcases List.mem_append.mp hx with hm | hm
        · obtain ⟨-, -, -, -, hnew⟩ := ht.maker x hm
          rw [hnew] at ho'
          split_ifs at ho'
          exact (Option.some.inj ho').symm
        · obtain rfl := List.mem_singleton.mp hm
          exact hafter o' (hte ▸ ho')
      rw [hox]
      exact ⟨rfl, hbal x hx⟩
    · rw [ht.others l id fun x hx hc => hin ⟨x, hx, hc⟩] at ho'
      obtain ⟨hoid, hold⟩ := h.orders l id o' ho'
      refine ⟨hoid, ?_⟩
      rw [Order.Balanced, filledFor_concat, hoid]
      show _ = _ + (_ + reported l id (ms ++ [t]))
      rw [reported_eq_zero fun x hx hc => hin ⟨x, hx, hc⟩, Nat.add_zero, ← hoid]
      exact hold

end Accounts

/-! ### A fill is a step of the ledger -/

/-- Outside an auction reports are delivered at once. -/
theorem Emits.delivered {rs : List Report} (h : Emits w w' rs)
    (hna : ∀ l, (w.engines l).isAuction = false) :
    w'.reports = w.reports ++ rs := by
  rw [h.reports, List.filter_eq_self.mpr fun x _ => by rw [hna]; rfl]

theorem engineMatch_filledBy {t : MatchedType} {mid q a b : ℕ} {p : ℤ} (hq : q ≤ o.remainQuantity) :
    (engineMatch o t mid p q a b).FilledBy o t q :=
  ⟨rfl, rfl, rfl, rfl, by rw [engineMatch_remainQuantity, subU64_of_le hq]; omega, rfl⟩

/-- What is left of an order that trades is less than the whole. -/
theorem Order.FilledBy.saysFilled {o' : Order} {t : MatchedType} {q : ℕ} (h : o'.FilledBy o t q)
    (hq : 0 < q) (hle : o.remainQuantity ≤ o.quantity) : o'.SaysFilled := by
  have hrem := h.remain
  refine ⟨?_, by rw [h.quantity]; omega⟩
  rw [h.orderState]
  split_ifs
  · exact .inl rfl
  · exact .inr rfl

theorem Order.Balanced.le (h : o.Balanced l items) : o.remainQuantity ≤ o.quantity := by
  rw [Order.Balanced] at h
  omega

/-- The taker in the map after its fill: its own entry, if it has one. -/
theorem World.Free.find_fillTaker (h : w.Free e r o) {x o' : Order} (hx : x.orderId = o.orderId)
    (hkeep : v.order? e o.orderId = w.order? e o.orderId)
    (ho' : (v.fillTaker e r x).order? e x.orderId = some o') : o' = x := by
  change ((v.fillTaker e r x).store e).odrMap.find? x.orderId = some o' at ho'
  rw [hx, World.find_fillTaker] at ho'
  split_ifs at ho' with hc
  · exact (Option.some.inj ho').symm
  · cases r with
    | arg =>
      have hnone : v.order? e o.orderId = none := hkeep.trans (h.arg rfl).1
      exact absurd (hnone.symm.trans ho') (by simp)
    | entry id => exact absurd ⟨rfl, congrArg Ref.entry (h.entry id rfl).symm⟩ hc

/-- All others, and the makers, are as they were before it. -/
theorem World.Free.find_fillTaker_ne (h : w.Free e r o) {x : Order}
    (hne : ¬(e = l ∧ o.orderId = id)) :
    (v.fillTaker e r x).order? l id = v.order? l id := by
  show ((v.fillTaker e r x).store l).odrMap.find? id = _
  rw [World.find_fillTaker, if_neg]
  · rfl
  · rintro ⟨rfl, rfl⟩
    exact hne ⟨rfl, h.entry _ rfl⟩

theorem World.order?_fillMaker {x : Order} :
    (v.fillMaker l s x).order? l x.orderId = if x.remainQuantity = 0 then none else some x := by
  show ((v.fillMaker l s x).store l).odrMap.find? x.orderId = _
  rw [World.find_fillMaker, if_pos ⟨rfl, rfl⟩]

theorem World.order?_fillMaker_ne {k : ℕ} {x : Order} (hne : ¬(l = k ∧ x.orderId = id)) :
    (v.fillMaker l s x).order? k id = v.order? k id := by
  show ((v.fillMaker l s x).store k).odrMap.find? id = _
  rw [World.find_fillMaker, if_neg fun hc => hne ⟨hc.1.symm, hc.2.symm⟩]
  rfl

theorem Fill.trades (hw : Ready w e s r) (h : Fill e s r w w')
    (hna : ∀ l, (w.engines l).isAuction = false) (ho : w.readRef e r = .ok o)
    (hfree : w.Free e r o) (hle : o.remainQuantity ≤ o.quantity)
    (hles : ∀ l id m, w.order? l id = some m → m.remainQuantity ≤ m.quantity) :
    ∃ ms t, Trades e r w w' ms t := by
  cases h with
  | @loc m o' q ho' hm hq hq0 =>
    obtain rfl := Except.ok.inj (ho.symm.trans ho')
    set m' := engineMakerMatch m w.nextId q o.orderId 0 with hm'
    set t := engineMatch o .taker w.nextId m.price q m.orderId 0 with ht
    have hne : m.orderId ≠ o.orderId := fun he => hfree.notMem hw.off s (he ▸ hm.at_book.mem_ids)
    have hkeep : ∀ {k id : ℕ}, ¬(e = k ∧ m.orderId = id) →
        (w.bumpId.fillMaker e s m').order? k id = w.order? k id :=
      fun hc => World.order?_fillMaker_ne hc
    have hem :=
      ((Emits.bumpId w).trans (Emits.fillMaker w.bumpId e s m')).trans
        (Emits.fillTaker (w.bumpId.fillMaker e s m') e r t)
    have hfm : m'.FilledBy m .maker q := engineMatch_filledBy (by omega)
    have hft : t.FilledBy o .taker q := engineMatch_filledBy (by omega)
    refine ⟨[(e, m')], (e, t), hem.delivered hna, ⟨rfl, ?_⟩, fun x hx => ?_, fun x hx => ?_, hq0,
      .loc rfl rfl, ?_, fun x hx => ?_, ?_, fun l id hout => ?_⟩
    · simp [World.fillLocal]
    · obtain rfl := List.mem_singleton.mp hx
      rfl
    · simp only [List.cons_append, List.nil_append, List.mem_cons, List.not_mem_nil, or_false] at hx
      rcases hx with rfl | rfl
      · exact hfm.saysFilled hq0 (hles _ _ m hm.find)
      · exact hft.saysFilled hq0 hle
    · simp [hm', ht, hne]
    · obtain rfl := List.mem_singleton.mp hx
      refine ⟨m, hm.find, hfm, rfl, ?_⟩
      exact (hfree.find_fillTaker_ne fun hc => hne hc.2.symm).trans World.order?_fillMaker
    · exact ⟨o, ho, hft, World.readRef_fillTaker .., fun o' hfind =>
        hfree.find_fillTaker rfl (hkeep fun hc => hne hc.2) hfind⟩
    · exact (hfree.find_fillTaker_ne (hout (e, t) (by simp))).trans (hkeep (hout (e, m') (by simp)))
  | @imp i m1 m2 o' p q hi ho' hm1 hm2 hq hq0 =>
    obtain rfl := Except.ok.inj (ho.symm.trans ho')
    obtain ⟨hout1, hout2⟩ := hw.legs.outside_of_mem hi
    set m1' := engineMakerMatch m1 w.nextId q o.orderId m2.orderId with hm1'
    set m2' := engineMakerMatch m2 w.nextId q o.orderId m1.orderId with hm2'
    set t := engineMatch o .taker w.nextId p q m1.orderId m2.orderId with ht
    have hapart : ¬(i.leg2.1 = i.leg1.1 ∧ m2.orderId = m1.orderId) :=
      hm1.ne_of_ne hw.ok hm2 fun he => hw.legs.leg_ne hi he.symm
    have hkeep : ∀ {k id : ℕ}, ¬(i.leg1.1 = k ∧ m1.orderId = id) →
        ¬(i.leg2.1 = k ∧ m2.orderId = id) →
        ((w.fillLeg1 i m1 m2 o q).fillMaker i.leg2.1 i.leg2.2 m2').order? k id = w.order? k id :=
      fun hc1 hc2 => (World.order?_fillMaker_ne (x := m2') hc2).trans
        (World.order?_fillMaker_ne (v := w.bumpId) (x := m1') hc1)
    have hem := (((Emits.bumpId w).trans (Emits.fillMaker w.bumpId i.leg1.1 i.leg1.2 m1')).trans
      (Emits.fillMaker (w.fillLeg1 i m1 m2 o q) i.leg2.1 i.leg2.2 m2')).trans
      (Emits.fillTaker ((w.fillLeg1 i m1 m2 o q).fillMaker i.leg2.1 i.leg2.2 m2') e r t)
    have hf1 : m1'.FilledBy m1 .maker q := engineMatch_filledBy (by omega)
    have hf2 : m2'.FilledBy m2 .maker q := engineMatch_filledBy (by omega)
    have hft : t.FilledBy o .taker q := engineMatch_filledBy (by omega)
    refine ⟨[(i.leg1.1, m1'), (i.leg2.1, m2')], (e, t), hem.delivered hna, ⟨rfl, ?_⟩,
      fun x hx => ?_, fun x hx => ?_, hq0, .imp hi ⟨rfl, rfl⟩ ⟨rfl, rfl⟩ ⟨rfl, rfl⟩, ?_,
      fun x hx => ?_, ?_, fun l id hout => ?_⟩
    · simp [World.fillImplied, World.fillLeg1]
    · rcases List.mem_cons.mp hx with rfl | hx
      · rfl
      · obtain rfl := List.mem_singleton.mp hx
        rfl
    · simp only [List.cons_append, List.nil_append, List.mem_cons, List.not_mem_nil, or_false] at hx
      rcases hx with rfl | rfl | rfl
      · exact hf1.saysFilled hq0 (hles _ _ m1 hm1.find)
      · exact hf2.saysFilled hq0 (hles _ _ m2 hm2.find)
      · exact hft.saysFilled hq0 hle
    · have h12 : ¬(i.leg1.1 = i.leg2.1 ∧ m1.orderId = m2.orderId) :=
        fun hc => hapart ⟨hc.1.symm, hc.2.symm⟩
      simp [hm1', hm2', ht, hout1, hout2, h12]
    · rcases List.mem_cons.mp hx with rfl | hx
      · refine ⟨m1, hm1.find, hf1, rfl, ?_⟩
        refine (hfree.find_fillTaker_ne fun hc => hout1 hc.1.symm).trans ?_
        exact (World.order?_fillMaker_ne (x := m2') hapart).trans
          (World.order?_fillMaker (v := w.bumpId) (x := m1'))
      · obtain rfl := List.mem_singleton.mp hx
        refine ⟨m2, hm2.find, hf2, rfl, ?_⟩
        exact (hfree.find_fillTaker_ne fun hc => hout2 hc.1.symm).trans World.order?_fillMaker
    · exact ⟨o, ho, hft, World.readRef_fillTaker .., fun o' hfind =>
        hfree.find_fillTaker rfl (hkeep (fun hc => hout1 hc.1) fun hc => hout2 hc.1) hfind⟩
    · exact (hfree.find_fillTaker_ne (hout (e, t) (by simp))).trans
        (hkeep (hout (i.leg1.1, m1') (by simp)) (hout (i.leg2.1, m2') (by simp)))

/-! ### Executions -/

/-- After the calls that made `past`, engine `e` has made the reports `items` since `w`, and the
    books are kept; no engine is in an auction. -/
structure Kept (past items : List Item) (e : ℕ) (w v : World) : Prop where
  trail : Trail e w items v
  accounts : Accounts (past ++ items) v
  delivers : ∀ l, (v.engines l).isAuction = false

namespace Kept

/-- A silent change that moves no quantity. -/
theorem silent (h : Kept past items e w v) (hs : Still v v') (hem : Emits v v' [])
    (hn : v.nextId ≤ v'.nextId)
    (harg : ∀ l id, v.order? l id = none → v'.order? l id = some v'.arg →
      v'.arg.Balanced l (past ++ items)) : Kept past items e w v' := by
  have hrep := hem.delivered h.delivers
  have hacc := h.accounts.still hs hn (.inl rfl) harg
  rw [List.append_nil] at hrep hacc
  exact ⟨h.trail.quiet hs hrep, hacc, fun l => (hem.auction l).trans (h.delivers l)⟩

/-- One that is reported, but not as a fill. -/
theorem word (h : Kept past items e w v) (hs : Still v v') (hem : Emits v v' [x])
    (hx : ¬x.2.SaysFilled) (hn : v.nextId ≤ v'.nextId)
    (harg : ∀ l id, v.order? l id = none → v'.order? l id = some v'.arg →
      v'.arg.Balanced l (past ++ items)) :
    Kept past (items ++ [.word x]) e w v' := by
  have hacc := h.accounts.still hs hn (.inr ⟨x, rfl⟩) harg
  rw [List.append_assoc] at hacc
  exact ⟨h.trail.word hs (hem.delivered h.delivers) hx, hacc,
    fun l => (hem.auction l).trans (h.delivers l)⟩

/-- A silent change to orders that are there already. -/
theorem touch (h : Kept past items e w v)
    (hs : ∀ l id o', v'.order? l id = some o' → ∃ o, v.order? l id = some o ∧
      o'.orderId = o.orderId ∧ o'.quantity = o.quantity ∧ o'.remainQuantity = o.remainQuantity)
    (hem : Emits v v' []) (hn : v.nextId ≤ v'.nextId) : Kept past items e w v' :=
  h.silent (.of_find hs) hem hn fun l id hnone hsome => by
    obtain ⟨o, ho, -⟩ := hs l id _ hsome
    rw [hnone] at ho
    cases ho

/-- Nothing happens to the orders. -/
theorem steady (h : Kept past items e w v) (hf : ∀ l id, v'.order? l id = v.order? l id)
    (hem : Emits v v' []) (hn : v.nextId ≤ v'.nextId) : Kept past items e w v' :=
  h.touch (fun l id o ho => ⟨o, (hf l id).symm.trans ho, rfl, rfl, rfl⟩) hem hn

theorem congr (h : Kept past items e w v) (hst : ∀ l, v'.store l = v.store l)
    (hem : Emits v v' []) (hn : v.nextId ≤ v'.nextId) :
    Kept past items e w v' := h.steady (fun l id => by rw [World.order?, World.order?, hst]) hem hn

theorem amend (h : Kept past items e w v) (hx : Amends v v' x) (hem : Emits v v' [x])
    (hn : v.nextId ≤ v'.nextId) :
    Kept past (items ++ [.amend x]) e w v' := by
  have hacc := h.accounts.amended hx hn
  rw [List.append_assoc] at hacc
  exact ⟨h.trail.amend hx, hacc, fun l => (hem.auction l).trans (h.delivers l)⟩

/-- A report of something else. -/
theorem say (h : Kept past items e w v) (ho : ¬o.SaysFilled) :
    Kept past (items ++ [.word (e, o)]) e w (v.callback e o) :=
  h.word (.of_store fun _ => World.store_callback ..) (Emits.callback v e o) ho
    (World.nextId_callback ..).ge fun l id hnone hsome => by
      rw [World.order?, World.store_callback] at hsome
      exact absurd (hnone.symm.trans hsome) (by simp)

end Kept

/-- A taker at work: its fills are in the books, and it is reported whole only as it came. -/
structure Taken (past : List Item) (T : ℕ → Terms → Prop) (n e : ℕ) (hs : List Held) (s : Side)
    (r : Ref) (w v : World) : Prop where
  stores : v.SoundAt T n e hs
  later : n ≤ v.nextId
  arg : r = .arg → n < v.nextId
  kept : ∃ items o, Kept past items e w v ∧ v.readRef e r = .ok o ∧ TakerOk T n hs s r o ∧
    o.Balanced e (past ++ items) ∧ (o.remainQuantity = o.quantity → o.orderState = .opened)

theorem Fill.isAuction (h : Fill e s r w w') (l : ℕ) :
    (w'.engines l).isAuction = (w.engines l).isAuction := by
  cases h with
  | loc => simp [World.fillLocal]
  | imp => simp [World.fillImplied, World.fillLeg1]

theorem Fill.taken (hw : Ready v e s r) (h : Fill e s r v v') (ht : Taken past T n e hs s r w v) :
    Taken past T n e hs s r w v' := by
  have hle := ht.later
  obtain ⟨items, o, hk, ho, htk, hbal, -⟩ := ht.kept
  obtain ⟨hsnd, o', ho', htk'⟩ := h.sound hw ⟨ht.stores, o, ho, htk⟩
  obtain ⟨ms, t, htr⟩ := h.trades hw hk.delivers ho (ht.stores.free htk) hbal.le fun _ _ _ hm =>
    (hk.accounts.orders _ _ _ hm).2.le
  obtain ⟨o1, ho1, hf, hread, -⟩ := htr.taker
  obtain rfl := Except.ok.inj (ho1.symm.trans ho)
  obtain rfl := Except.ok.inj (hread.symm.trans ho')
  have hnext := htr.drawn.2
  have hids : ∀ x ∈ ms ++ [t], x.2.orderId < v'.nextId := fun x hx => by
    rcases List.mem_append.mp hx with hm | hm
    · obtain ⟨m, hfind, -⟩ := htr.maker x hm
      have hlt := ((ht.stores x.1).key hfind).2.1
      omega
    · obtain rfl := List.mem_singleton.mp hm
      have hid := hf.orderId
      cases r with
      | arg =>
        have hn := htk.arg rfl
        omega
      | entry id =>
        obtain ⟨hid', hin⟩ := htk.entry id rfl
        have hlt := (ht.stores.self.taken hin).1
        omega
  obtain ⟨hacc, hbal'⟩ := hk.accounts.filled htr ho hbal hids
  rw [List.append_assoc] at hacc hbal'
  refine ⟨hsnd, by omega, fun hr => ?_, items ++ [.fill ms t], t.2,
    ⟨hk.trail.fill htr, hacc, fun l => ?_⟩, hread, htk', hbal', fun hwhole => ?_⟩
  · have hlt := ht.arg hr
    omega
  · rw [h.isAuction]
    exact hk.delivers l
  · -- a taker that traded is no longer whole
    have hq := hf.quantity
    have hrem := hf.remain
    have hpos := htr.positive
    rw [Order.Balanced] at hbal
    omega

/-- A write to an order that keeps its quantities. -/
theorem Kept.write {o' : Order} (h : Kept past items e w v) (ho : v.readRef e r = .ok o)
    (hid : o'.orderId = o.orderId) (hq : o'.quantity = o.quantity)
    (hr : o'.remainQuantity = o.remainQuantity) : Kept past items e w (v.writeRef e r o') := by
  refine h.touch (fun l id x hx => ?_) (Emits.writeRef v e r o') (World.nextId_writeRef ..).ge
  change ((v.writeRef e r o').store l).odrMap.find? id = some x at hx
  rw [World.find_writeRef] at hx
  split_ifs at hx with hc
  · obtain ⟨rfl, rfl⟩ := hc
    obtain rfl := Option.some.inj hx
    exact ⟨o, by simpa [World.readRef, World.deref] using ho, hid, hq, hr⟩
  · exact ⟨x, hx, rfl, rfl, rfl⟩

/-- The taker's rest is taken out, and reported as something else than a fill. -/
theorem Kept.kill {o' : Order} (h : Kept past items e w v) (ho : v.readRef e r = .ok o)
    (hid : o'.orderId = o.orderId) (hq : o'.quantity = o.quantity)
    (hr : o'.remainQuantity = o.remainQuantity) (hst : ¬o'.SaysFilled) :
    Kept past (items ++ [.word (e, o')]) e w (v.kill e r o') := (h.write ho hid hq hr).say hst

/-- The taker comes to rest, reported if it is whole. -/
theorem Kept.rest {p : ℤ} (h : Kept past items e w v) (hfree : v.Free e r o)
    (ho : v.readRef e r = .ok o) (hbal : o.Balanced e (past ++ items))
    (hopen : o.remainQuantity = o.quantity → o.orderState = .opened) :
    ∃ items', Kept past items' e w (v.rest e s r { o with price := p }) := by
  set o' : Order := { o with price := p } with ho'
  have hfind := World.find_rest v e s r o'
  have hcase : ∀ {l id : ℕ} {x : Order}, (v.rest e s r o').order? l id = some x →
      (l = e ∧ id = o.orderId ∧ x = o') ∨ v.order? l id = some x := fun {l id x} hx => by
    change ((v.rest e s r o').store l).odrMap.find? id = some x at hx
    rw [hfind l hfree.entry fun hr => (hfree.arg hr).1] at hx
    split_ifs at hx with hc
    · exact .inl ⟨hc.1, hc.2, (Option.some.inj hx).symm⟩
    · exact .inr hx
  have hstill : Still v (v.rest e s r o') := fun l id x hx => by
    rcases hcase hx with ⟨rfl, rfl, rfl⟩ | hold
    · cases r with
      | arg =>
        have harg : (v.rest l s .arg o').arg = o' :=
          Except.ok.inj (World.readRef_rest v l s .arg o')
        exact .inr ⟨(hfree.arg rfl).1, harg.symm, rfl⟩
      | entry id =>
        have hfound : v.order? l id = some o := by simpa [World.readRef, World.deref] using ho
        exact .inl ⟨o, hfree.entry id rfl ▸ hfound, rfl, rfl, rfl⟩
    · exact .inl ⟨x, hold, rfl, rfl, rfl⟩
  have hnew : ∀ l id, v.order? l id = none →
      (v.rest e s r o').order? l id = some (v.rest e s r o').arg →
      (v.rest e s r o').arg.Balanced l (past ++ items) := fun l id hnone hsome => by
    rcases hcase hsome with ⟨rfl, -, harg⟩ | hold
    · rw [harg]
      exact hbal
    · rw [hnone] at hold
      cases hold
  have hem := Emits.rest v e s r o'
  split_ifs at hem with hwhole
  · refine ⟨_, h.word hstill hem (fun hs => ?_) (World.nextId_rest ..).ge hnew⟩
    rcases hs.1 with hs | hs <;> exact absurd ((hopen hwhole).symm.trans hs) (by decide)
  · exact ⟨_, h.silent hstill hem (World.nextId_rest ..).ge hnew⟩

theorem Kills.not_saysFilled {st : OrderStatus} (h : Kills w e s r o st) :
    ¬({ o with orderState := st } : Order).SaysFilled := by
  rintro ⟨hs, -⟩
  cases h with
  | ioc => split_ifs at hs <;> simp at hs
  | auction => split_ifs at hs <;> simp at hs
  | makerOnly => simp at hs
  | fok => simp at hs

theorem Outcome.kept {tick : ℤ} (h : Outcome v e s r o tick v') (ht : Taken past T n e hs s r w v)
    (ho : v.readRef e r = .ok o) :
    ∃ items, Kept past items e w v' := by
  obtain ⟨items, o', hk, ho', htk, hbal, hopen⟩ := ht.kept
  obtain rfl := Except.ok.inj (ho'.symm.trans ho)
  have hfree := ht.stores.free htk
  cases h with
  | filled => exact ⟨items, hk⟩
  | killed _ hkill => exact ⟨_, hk.kill ho rfl rfl rfl hkill.not_saysFilled⟩
  | nothing => exact ⟨_, hk.kill ho rfl rfl rfl (by simp [Order.SaysFilled])⟩
  | rested => exact hk.rest hfree ho hbal hopen

theorem execute_kept (hstart : Taken past T n e hs s r w v) (hoff : OffBook v e r)
    (hlegs : LegsApart v e s) (ho : v.readRef e r = .ok o) (h0 : o.remainQuantity ≠ 0)
    (h : execute v e s r = .ok v') : ∃ items, Kept past items e w v' := by
  rcases execute_cases ⟨hstart.stores.ok, hoff, hlegs⟩ ho h0 with
    ⟨recs, w1, o1, v1, hex, hw, hwalk, ho1, hout, -⟩ | ⟨hub, -⟩
  · obtain rfl := Except.ok.inj (hex.symm.trans h)
    have hlog : Taken past T n e hs s r w (v.logExec e s r o) := by
      obtain ⟨items, o', hk, ho', htk, hbal, hopen⟩ := hstart.kept
      exact ⟨hstart.stores.congr fun _ => rfl, hstart.later, hstart.arg, items, o',
        hk.congr (fun _ => rfl) (Emits.logExec ..) le_rfl, by rw [World.readRef_logExec, ho'],
        htk, hbal, hopen⟩
    exact hout.kept
      (hwalk.induct (P := Taken past T n e hs s r w) (fun hv _ hf ht => hf.taken hv ht) hw hlog) ho1
  · rw [hub] at h
    cases h

end Matching
