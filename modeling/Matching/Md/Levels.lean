import Mathlib.Logic.Function.Basic
import Matching.Md.BasicBook

/-! Levels as quantities. A half of a book shows a function from prices to quantities: a level with
    the quantity where there is one, none where it is 0 (`Shows`). Every change of a book is a
    change of the quantity at one price (`moveQuantity_moves`), `handle_odr` among them
    (`handleOdr_eq`); so a book that shows the sums of its recorded orders goes on showing them
    (`Sums.handleOdr`). -/

namespace Matching.Md

/-- What a half holds at a price when it shows the quantity `q` there. -/
def levelAt (h : Half) (p : ℤ) (q : ℕ) : Option BookItem :=
  if q = 0 then none else some ⟨p, q, h.side, 0⟩

def Shows (m : BookMap) (h : Half) (f : ℤ → ℕ) : Prop := ∀ p, m.find? p = levelAt h p (f p)

/-- The quantity at a price, 0 without a level. -/
def BookMap.qty (m : BookMap) (p : ℤ) : ℕ := ((m.find? p).map BookItem.quantity).getD 0

theorem Half.side_inj {h h' : Half} (hs : h.side = h'.side) : h = h' := by
  cases h <;> cases h' <;> simp_all [side]

theorem Half.side_ne_none (h : Half) : h.side ≠ .none := by cases h <;> simp [side]

theorem levelAt_quantity (h : Half) (p : ℤ) (q : ℕ) :
    ((levelAt h p q).map BookItem.quantity).getD 0 = q := by
  unfold levelAt
  split_ifs with hq
  · exact hq.symm
  · rfl

namespace Shows

variable {m : BookMap} {h : Half} {f g : ℤ → ℕ}

theorem empty (h : Half) : Shows .empty h (fun _ => 0) := fun _ => rfl

theorem qty_eq (hs : Shows m h f) (p : ℤ) : m.qty p = f p := by
  rw [BookMap.qty, hs p, levelAt_quantity]

theorem self (hs : Shows m h f) : Shows m h m.qty := fun p => by rw [hs.qty_eq, hs p]

theorem congr (hs : Shows m h f) (hfg : ∀ p, f p = g p) : Shows m h g := fun p => by rw [hs p, hfg]

theorem insert (hs : Shows m h f) {p : ℤ} {q : ℕ} (hq : q ≠ 0) :
    Shows (m.insert p ⟨p, q, h.side, 0⟩) h (Function.update f p q) := by
  intro p'
  rw [OrdMap.find?_insert, Function.update_apply]
  by_cases hp : p' = p
  · rw [if_pos hp, if_pos hp, levelAt, if_neg hq, hp]
  · rw [if_neg hp, if_neg hp, hs p']

theorem erase (hs : Shows m h f) (p : ℤ) : Shows (m.erase p) h (Function.update f p 0) := by
  intro p'
  rw [OrdMap.find?_erase, Function.update_apply]
  by_cases hp : p' = p
  · rw [if_pos hp, if_pos hp, levelAt, if_pos rfl]
  · rw [if_neg hp, if_neg hp, hs p']

/-- A level that is there has its price, a quantity and the side of its half. -/
theorem level (hs : Shows m h f) {p : ℤ} {x : BookItem} (hx : m.find? p = some x) :
    x = ⟨p, f p, h.side, 0⟩ ∧ f p ≠ 0 := by
  rw [hs p, levelAt] at hx
  split_ifs at hx with h0
  exact ⟨(Option.some.inj hx).symm, h0⟩

end Shows

namespace BasicBook

variable {b : BasicBook} {h : Half} {f : ℤ → ℕ} {p : ℤ} {q old new : ℕ}

/-- No addition so far has come to 2^64 or more. -/
def NoCarry (b : BasicBook) : Prop := ∀ x ∈ b.added, x.1 + x.2 < 2 ^ 64

instance (b : BasicBook) : Decidable b.NoCarry :=
  inferInstanceAs (Decidable (∀ x ∈ b.added, x.1 + x.2 < 2 ^ 64))

/-- Every reduction so far found its level, with enough on it. -/
def Backed (b : BasicBook) : Prop := ∀ x ∈ b.reduced, ∃ held, x.1 = some held ∧ x.2 ≤ held

@[simp] theorem half_setHalf (b : BasicBook) (h : Half) (m : BookMap) :
    (b.setHalf h m).half h = m := by cases h <;> rfl

@[simp] theorem half_opp_setHalf (b : BasicBook) (h : Half) (m : BookMap) :
    (b.setHalf h m).half h.opp = b.half h.opp := by
  cases h <;> rfl

@[simp] theorem orders_setHalf (b : BasicBook) (h : Half) (m : BookMap) :
    (b.setHalf h m).orders = b.orders := by
  cases h <;> rfl

@[simp] theorem reduced_setHalf (b : BasicBook) (h : Half) (m : BookMap) :
    (b.setHalf h m).reduced = b.reduced := by
  cases h <;> rfl

@[simp] theorem added_setHalf (b : BasicBook) (h : Half) (m : BookMap) :
    (b.setHalf h m).added = b.added := by
  cases h <;> rfl

/-- From `b` to `b'` only half `h` may have changed, and the history of additions has grown. -/
structure Within (h : Half) (b b' : BasicBook) : Prop where
  other : b'.half h.opp = b.half h.opp
  added : ∃ l, b'.added = b.added ++ l

theorem Within.refl (h : Half) (b : BasicBook) : Within h b b := ⟨rfl, [], (List.append_nil _).symm⟩

theorem Within.trans {b b1 b2 : BasicBook} (h1 : Within h b b1) (h2 : Within h b1 b2) :
    Within h b b2 := by
  obtain ⟨ho1, l1, hl1⟩ := h1
  obtain ⟨ho2, l2, hl2⟩ := h2
  exact ⟨ho2.trans ho1, l1 ++ l2, by rw [hl2, hl1, List.append_assoc]⟩

theorem NoCarry.of_within {b b' : BasicBook} (hw : Within h b b') (hc : b'.NoCarry) :
    b.NoCarry := by
  obtain ⟨l, hl⟩ := hw.added
  exact fun x hx => hc x (by rw [hl]; exact List.mem_append_left _ hx)

theorem addQuantity_within (b : BasicBook) (h : Half) (p : ℤ) (q : ℕ) :
    Within h b (b.addQuantity h p q).1 := by
  cases h <;> exact ⟨rfl, _, rfl⟩

theorem reduceQuantity_within (b : BasicBook) (h : Half) (p : ℤ) (q : ℕ) :
    Within h b (b.reduceQuantity h p q).1 := by
  unfold reduceQuantity
  split
  · exact ⟨by cases h <;> rfl, [], (List.append_nil _).symm⟩
  · exact ⟨by cases h <;> rfl, [], by simp⟩

theorem moveQuantity_within (b : BasicBook) (h : Half) (p : ℤ) (old new : ℕ) :
    Within h b (b.moveQuantity h p old new).1 := by
  unfold moveQuantity
  split_ifs
  · exact addQuantity_within ..
  · exact reduceQuantity_within ..
  · exact Within.refl h b

/-- From `b` to `b'` only the level at `p` of half `h` has changed, from `f p` to
    `q`, and `item` tells. -/
structure Moves (b b' : BasicBook) (item : BookItem) (h : Half) (f : ℤ → ℕ) (p : ℤ) (q : ℕ) :
    Prop where
  shows : Shows (b'.half h) h (Function.update f p q)
  other : b'.half h.opp = b.half h.opp
  orders : b'.orders = b.orders
  backed : b.Backed → b'.Backed
  told : (q = f p ∧ item = .default) ∨ item = ⟨p, q, h.side, 0⟩

theorem half_addQuantity (b : BasicBook) (h : Half) (p : ℤ) (q : ℕ) :
    ((b.addQuantity h p q).1.half h) = (b.half h).insert p (b.addQuantity h p q).2 := by
  cases h <;> rfl

theorem addQuantity_moves (hs : Shows (b.half h) h f) (hq : 0 < q)
    (hc : (b.addQuantity h p q).1.NoCarry) :
    Moves b (b.addQuantity h p q).1 (b.addQuantity h p q).2 h f p (f p + q) := by
  have hheld : (((b.half h).find? p).getD .default).quantity = f p := by
    rw [hs p, levelAt]
    split_ifs with h0
    · exact h0.symm
    · rfl
  have hmarket : (((b.half h).find? p).getD .default).marketId = 0 := by
    rw [hs p, levelAt]
    split_ifs <;> rfl
  have hlt : f p + q < 2 ^ 64 := by
    refine hc (f p, q) ?_
    simp [addQuantity, hheld]
  have hitem : (b.addQuantity h p q).2 = ⟨p, f p + q, h.side, 0⟩ := by
    simp only [addQuantity, hheld, hmarket, addU64, Nat.mod_eq_of_lt hlt]
  refine ⟨?_, by cases h <;> rfl, by simp [addQuantity], fun hb => ?_, Or.inr hitem⟩
  · rw [half_addQuantity, hitem]
    exact hs.insert (by omega)
  · intro x hx
    exact hb x (by simpa [addQuantity] using hx)

theorem reduceQuantity_moves (hs : Shows (b.half h) h f) (hq : 0 < q) (hle : q ≤ f p) :
    Moves b (b.reduceQuantity h p q).1 (b.reduceQuantity h p q).2 h f p (f p - q) := by
  have hlevel : (b.half h).find? p = some ⟨p, f p, h.side, 0⟩ := by
    rw [hs p, levelAt, if_neg (by omega)]
  simp only [reduceQuantity, hlevel, subU64, if_pos hle]
  refine ⟨?_, by cases h <;> rfl, by simp, fun hb => ?_, Or.inr rfl⟩
  · rw [show ∀ (m : BookMap) (l), ({ b.setHalf h m with reduced := l } : BasicBook).half h =
      (b.setHalf h m).half h from fun m l => by cases h <;> rfl, half_setHalf]
    split_ifs with h0
    · rw [h0]
      exact hs.erase p
    · exact hs.insert h0
  · intro x hx
    rcases List.mem_append.mp hx with hx | hx
    · exact hb x hx
    · obtain rfl := List.mem_singleton.mp hx
      exact ⟨f p, rfl, hle⟩

theorem moveQuantity_moves (hs : Shows (b.half h) h f) (hle : old ≤ f p)
    (hc : (b.moveQuantity h p old new).1.NoCarry) :
    Moves b (b.moveQuantity h p old new).1 (b.moveQuantity h p old new).2 h f p
      (f p - old + new) := by
  rcases lt_trichotomy old new with hlt | heq | hgt
  · simp only [moveQuantity, if_pos hlt] at hc ⊢
    have hm := addQuantity_moves hs (show 0 < new - old by omega) hc
    rwa [show f p + (new - old) = f p - old + new by omega] at hm
  · subst heq
    simp only [moveQuantity, lt_irrefl, if_false]
    refine ⟨?_, rfl, rfl, id, Or.inl ⟨by omega, rfl⟩⟩
    rw [show f p - old + old = f p by omega, Function.update_eq_self]
    exact hs
  · simp only [moveQuantity, if_neg hgt.not_gt, gt_iff_lt, if_pos hgt]
    have hm := reduceQuantity_moves hs (show 0 < old - new by omega) (show old - new ≤ f p by omega)
    rwa [show f p - (old - new) = f p - old + new by omega] at hm

/-! ### `handle_odr` -/

/-- What is on record of an order. -/
def recordOf (b : BasicBook) (id : ℕ) : ℕ := ((b.orders.find? id).map Order.remainQuantity).getD 0

/-- The orders on record after `o`. -/
def record (b : BasicBook) (o : Order) : OrdMap ℕ Order :=
  if o.calcRemainQuantity = 0 then b.orders.erase o.orderId
  else b.orders.insert o.orderId
    { (b.orders.find? o.orderId).getD o with remainQuantity := o.calcRemainQuantity }

theorem moveQuantity_orders (b : BasicBook) (os : OrdMap ℕ Order) (h : Half) (p : ℤ) (old new : ℕ) :
    ({ b with orders := os } : BasicBook).moveQuantity h p old new =
      ({ (b.moveQuantity h p old new).1 with orders := os }, (b.moveQuantity h p old new).2) := by
  simp only [moveQuantity, addQuantity, reduceQuantity]
  cases h
  · simp only [half, setHalf]
    split_ifs
    · rfl
    · split <;> rfl
    · rfl
  · simp only [half, setHalf]
    split_ifs
    · rfl
    · split <;> rfl
    · rfl

@[simp] theorem orders_moveQuantity (b : BasicBook) (h : Half) (p : ℤ) (old new : ℕ) :
    (b.moveQuantity h p old new).1.orders = b.orders := by
  have hself := congrArg (fun x => x.1.orders) (moveQuantity_orders b b.orders h p old new)
  exact hself

theorem moveQuantity_zero (b : BasicBook) (h : Half) (p : ℤ) (hq : 0 < q) :
    b.moveQuantity h p 0 q = b.addQuantity h p q := by simp [moveQuantity, hq]

/-- `handle_odr` moves one level by the change of the order's remaining quantity. -/
theorem handleOdr_eq (b : BasicBook) {o : Order} (hp : o.price ≠ stopPrice)
    (hh : o.bookHalf = some h) :
    b.handleOdr o =
      ({ (b.moveQuantity h o.price (b.recordOf o.orderId) o.calcRemainQuantity).1 with
        orders := b.record o },
        (b.moveQuantity h o.price (b.recordOf o.orderId) o.calcRemainQuantity).2) := by
  simp only [handleOdr, if_neg hp, hh, recordOf, record]
  rcases ho : b.orders.find? o.orderId with _ | x
  · by_cases hq : o.calcRemainQuantity = 0
    · simp [hq, moveQuantity, OrdMap.erase_none ho]
    · have hself : o.calcRemainQuantity = o.remainQuantity := by
        unfold Order.calcRemainQuantity at hq ⊢
        split_ifs with hst
        · rw [if_pos hst] at hq
          exact absurd rfl hq
        · rfl
      have hpos : 0 < o.remainQuantity := by omega
      simp only [hself] at hq ⊢
      simp only [ne_eq, hq, not_false_eq_true, if_true, if_false, Option.map_none, Option.getD_none]
      rw [← moveQuantity_zero _ h o.price hpos, moveQuantity_orders]
  · simp only [Option.map_some, Option.getD_some, orders_moveQuantity]

theorem handleOdr_skip (b : BasicBook) {o : Order} (h : o.price = stopPrice ∨ o.bookHalf = none) :
    b.handleOdr o = (b, .default) := by
  rcases h with hp | hn
  · simp [handleOdr, hp]
  · simp only [handleOdr, hn]
    split_ifs <;> rfl

/-- A report of an order that is on record carries its price, and belongs to the same half. -/
def Steady (b : BasicBook) (o : Order) : Prop :=
  o.price ≠ stopPrice → ∀ h, o.bookHalf = some h → ∀ x, b.orders.find? o.orderId = some x →
    x.price = o.price ∧ x.bookHalf = some h

/-- The remaining quantities of the orders on record at a price. -/
def recorded (b : BasicBook) (h : Half) (p : ℤ) : ℕ :=
  b.orders.total (fun _ o => if o.bookHalf = some h ∧ o.price = p then o.remainQuantity else 0)

theorem recorded_congr {b b' : BasicBook} (ho : b'.orders = b.orders) :
    b'.recorded = b.recorded := by
  funext h p
  rw [recorded, recorded, ho]

/-- What an order on record that is the same as `o` up to its quantity contributes to a level. -/
theorem share_recorded {o : Order} (hs : b.Steady o) (hp : o.price ≠ stopPrice)
    (hh : o.bookHalf = some h) (h' : Half) (p : ℤ) :
    b.orders.share
      (fun _ o => if o.bookHalf = some h' ∧ o.price = p then o.remainQuantity else 0) o.orderId =
      if h' = h ∧ p = o.price then b.recordOf o.orderId else 0 := by
  rcases hx : b.orders.find? o.orderId with _ | x
  · simp [OrdMap.share, recordOf, hx]
  · obtain ⟨hxp, hxh⟩ := hs hp h hh x hx
    simp only [OrdMap.share, recordOf, hx, Option.map_some, Option.getD_some, hxp, hxh,
      Option.some.injEq]
    exact if_congr (and_congr eq_comm eq_comm) rfl rfl

theorem recordOf_le {o : Order} (hs : b.Steady o) (hp : o.price ≠ stopPrice)
    (hh : o.bookHalf = some h) :
    b.recordOf o.orderId ≤ b.recorded h o.price := by
  have hshare := share_recorded hs hp hh h o.price
  rw [if_pos ⟨rfl, rfl⟩] at hshare
  have := OrdMap.total_erase
    (fun _ x => if x.bookHalf = some h ∧ x.price = o.price then x.remainQuantity else 0)
    b.orders o.orderId
  rw [recorded]
  omega

/-- The sums over the orders on record change where `handle_odr` moves the level. -/
theorem recorded_record {o : Order} (hs : b.Steady o) (hp : o.price ≠ stopPrice)
    (hh : o.bookHalf = some h) {b' : BasicBook} (hb : b'.orders = b.record o) (h' : Half) (p : ℤ) :
    b'.recorded h' p =
      if h' = h ∧ p = o.price then b.recorded h p - b.recordOf o.orderId + o.calcRemainQuantity
      else b.recorded h' p := by
  set F : ℕ → Order → ℕ :=
    fun _ x => if x.bookHalf = some h' ∧ x.price = p then x.remainQuantity else 0 with hF
  have hsum : b'.recorded h' p + b.orders.share F o.orderId =
      b.recorded h' p + if h' = h ∧ p = o.price then o.calcRemainQuantity else 0 := by
    rw [recorded, hb, record]
    by_cases hq : o.calcRemainQuantity = 0
    · rw [if_pos hq, OrdMap.total_erase, hq, ite_self, Nat.add_zero, recorded]
    · rw [if_neg hq, OrdMap.total_insert, recorded]
      congr 1
      have hsame : (((b.orders.find? o.orderId).getD o).price = o.price) ∧
          ((b.orders.find? o.orderId).getD o).bookHalf = some h := by
        rcases hx : b.orders.find? o.orderId with _ | x
        · exact ⟨rfl, hh⟩
        · exact hs hp h hh x hx
      show (if ((b.orders.find? o.orderId).getD o).bookHalf = some h' ∧
          ((b.orders.find? o.orderId).getD o).price = p then o.calcRemainQuantity else 0) = _
      rw [hsame.1, hsame.2]
      simp only [Option.some.injEq]
      exact if_congr (and_congr eq_comm eq_comm) rfl rfl
  rw [share_recorded hs hp hh] at hsum
  by_cases hc : h' = h ∧ p = o.price
  · obtain ⟨rfl, rfl⟩ := hc
    have hle := recordOf_le hs hp hh
    simp only [and_self, if_true] at hsum ⊢
    omega
  · simp only [if_neg hc, Nat.add_zero] at hsum ⊢
    exact hsum

/-- A book whose levels are the sums of the orders on record and of `extra`. -/
structure Sums (b : BasicBook) (extra : Half → ℤ → ℕ) : Prop where
  shows : ∀ h, Shows (b.half h) h (fun p => b.recorded h p + extra h p)
  backed : b.Backed

theorem Sums.empty : Sums .empty (fun _ _ => 0) :=
  ⟨fun h => by cases h <;> exact fun _ => rfl, fun x hx => nomatch hx⟩

theorem Sums.congr {extra extra' : Half → ℤ → ℕ} (hs : b.Sums extra)
    (he : ∀ h p, extra h p = extra' h p) :
    b.Sums extra' := ⟨fun h => (hs.shows h).congr (fun p => by rw [he]), hs.backed⟩

end BasicBook

open BasicBook

/-! ### What a change tells -/

/-- The items tell the levels of `b'` that are not those of `b`. -/
structure Told (b b' : BasicBook) (items : List BookItem) : Prop where
  level : ∀ x ∈ items, ∃ h : Half, x.side = h.side ∧
    (b'.half h).find? x.price = levelAt h x.price x.quantity
  silent : ∀ (h : Half) (p : ℤ), (∀ x ∈ items, ¬(x.side = h.side ∧ x.price = p)) →
    (b'.half h).find? p = (b.half h).find? p

/-- The quantities a listener has who keeps the last item of each side and price. -/
def replay (items : List BookItem) : BookSide × ℤ → ℕ :=
  items.foldl (fun f x => Function.update f (x.side, x.price) x.quantity) (fun _ => 0)

theorem replay_foldl (k : BookSide × ℤ) : ∀ (items : List BookItem) (f : BookSide × ℤ → ℕ),
    (items.foldl (fun f x => Function.update f (x.side, x.price) x.quantity) f k = f k ∧
      ∀ x ∈ items, (x.side, x.price) ≠ k) ∨
    ∃ x ∈ items, (x.side, x.price) = k ∧
      items.foldl (fun f x => Function.update f (x.side, x.price) x.quantity) f k = x.quantity
  | [], f => Or.inl ⟨rfl, fun _ hx => nomatch hx⟩
  | y :: items, f => by
    rcases replay_foldl k items (Function.update f (y.side, y.price) y.quantity) with
      ⟨hf, hnot⟩ | ⟨x, hx, hk, hf⟩
    · by_cases hy : (y.side, y.price) = k
      · exact Or.inr ⟨y, List.mem_cons_self ..,
          hy, by rw [List.foldl_cons, hf, ← hy, Function.update_self]⟩
      · refine Or.inl ⟨by rw [List.foldl_cons, hf, Function.update_of_ne (Ne.symm hy)],
          fun x hx => ?_⟩
        rcases List.mem_cons.mp hx with rfl | hx
        · exact hy
        · exact hnot x hx
    · exact Or.inr ⟨x, List.mem_cons_of_mem _ hx, hk, by rw [List.foldl_cons, hf]⟩

/-- A listener who has the levels of `b` has those of `b'` after the items. -/
theorem Told.replay {b b' : BasicBook} {items pub : List BookItem} (ht : Told b b' items)
    (hr : ∀ h : Half, Shows (b.half h) h (fun p => replay pub (h.side, p))) (h : Half) :
    Shows (b'.half h) h (fun p => Md.replay (pub ++ items) (h.side, p)) := by
  intro p
  simp only [Md.replay, List.foldl_append]
  rcases replay_foldl (h.side, p) items (Md.replay pub) with ⟨hf, hnot⟩ | ⟨x, hx, hk, hf⟩
  · rw [ht.silent h p (fun x hx hxp => hnot x hx (by rw [hxp.1, hxp.2])), hr h p]
    exact congrArg _ hf.symm
  · obtain ⟨hside, rfl⟩ := Prod.mk.inj hk
    obtain ⟨h', hh', hlevel⟩ := ht.level x hx
    obtain rfl := Half.side_inj (hside.symm.trans hh')
    rw [hlevel]
    exact congrArg _ hf.symm

/-- `node` as a list, without the nodes of no side. -/
def nodeItems (node : BookItem) : List BookItem := if node.side = .none then [] else [node]

theorem Told.refl (b : BasicBook) : Told b b [] := ⟨fun _ hx => (nomatch hx), fun _ _ _ => rfl⟩

theorem BasicBook.Moves.toldItem {b b' : BasicBook} {h : Half} {f : ℤ → ℕ} {p : ℤ} {q : ℕ}
    {item : BookItem} (hm : Moves b b' item h f p q) (hs : Shows (b.half h) h f) :
    Told b b' (nodeItems item) := by
  have hself : (b'.half h).find? p = levelAt h p q := by rw [hm.shows p, Function.update_self]
  have hrest : ∀ h' p', ¬(h' = h ∧ p' = p) → (b'.half h').find? p' = (b.half h').find? p' := by
    intro h' p' hne
    rcases Half.eq_or_opp h h' with rfl | rfl
    · rw [hm.shows p', Function.update_of_ne (fun hp => hne ⟨rfl, hp⟩), hs p']
    · rw [hm.other]
  rcases hm.told with ⟨hq, hitem⟩ | hitem
  · have hnil : nodeItems item = [] := by rw [hitem]; rfl
    rw [hnil]
    refine ⟨fun _ hx => (nomatch hx), fun h' p' _ => ?_⟩
    by_cases hc : h' = h ∧ p' = p
    · obtain ⟨rfl, rfl⟩ := hc
      rw [hself, hq, hs p']
    · exact hrest h' p' hc
  · have hone : nodeItems item = [item] := by rw [hitem]; exact if_neg h.side_ne_none
    rw [hone]
    refine ⟨fun x hx => ?_, fun h' p' hnot => hrest h' p' fun hc => ?_⟩
    · obtain rfl := List.mem_singleton.mp hx
      exact ⟨h, by rw [hitem], by rw [hitem]; exact hself⟩
    · exact hnot item (List.mem_singleton_self _) (by rw [hitem, hc.1, hc.2]; exact ⟨rfl, rfl⟩)

namespace BasicBook

variable {b : BasicBook} {h : Half} {o : Order} {extra : Half → ℤ → ℕ}

theorem handleOdr_within (b : BasicBook) (o : Order) : ∃ h, Within h b (b.handleOdr o).1 := by
  by_cases hskip : o.price = stopPrice ∨ o.bookHalf = none
  · rw [handleOdr_skip b hskip]
    exact ⟨.bid, Within.refl _ b⟩
  · obtain ⟨hp, hn⟩ := not_or.mp hskip
    obtain ⟨h, hh⟩ := Option.ne_none_iff_exists'.mp hn
    rw [handleOdr_eq b hp hh]
    have hw := moveQuantity_within b h o.price (b.recordOf o.orderId) o.calcRemainQuantity
    exact ⟨h, by rw [← hw.other]; cases h <;> rfl, hw.added⟩

/-- `handle_odr` keeps the sums and tells what it changed. -/
theorem Sums.handleOdr (hsum : b.Sums extra) (hst : b.Steady o) (hc : (b.handleOdr o).1.NoCarry) :
    (b.handleOdr o).1.Sums extra ∧ Told b (b.handleOdr o).1 (nodeItems (b.handleOdr o).2) := by
  by_cases hskip : o.price = stopPrice ∨ o.bookHalf = none
  · rw [handleOdr_skip b hskip]
    exact ⟨hsum, Told.refl b⟩
  obtain ⟨hp, hn⟩ := not_or.mp hskip
  obtain ⟨h, hh⟩ := Option.ne_none_iff_exists'.mp hn
  rw [handleOdr_eq b hp hh] at hc ⊢
  have hle := recordOf_le hst hp hh
  have hm :=
    moveQuantity_moves (hsum.shows h)
      (show b.recordOf o.orderId ≤ b.recorded h o.price + extra h o.price by omega)
    (show (b.moveQuantity h o.price _ _).1.NoCarry from hc)
  set moved := b.moveQuantity h o.price (b.recordOf o.orderId) o.calcRemainQuantity
  have hrec := recorded_record hst hp hh
    (show ({ moved.1 with orders := b.record o } : BasicBook).orders = b.record o from rfl)
  have htold := hm.toldItem (hsum.shows h)
  have hhalf : ∀ h', ({ moved.1 with orders := b.record o } : BasicBook).half h' =
      moved.1.half h' := fun h' => by
    cases h' <;> rfl
  refine ⟨⟨fun h' => ?_, hm.backed hsum.backed⟩, ⟨fun x hx => ?_, fun h' p hnot => ?_⟩⟩
  · rw [hhalf]
    rcases Half.eq_or_opp h h' with rfl | rfl
    · refine hm.shows.congr fun p => ?_
      rw [Function.update_apply, hrec]
      by_cases hpp : p = o.price
      · subst hpp
        simp only [and_self, if_true]
        omega
      · simp only [hpp, and_false, if_false]
    · rw [hm.other]
      exact (hsum.shows _).congr fun p => by rw [hrec, if_neg (fun hc => Half.opp_ne h hc.1)]
  · obtain ⟨h', hside, hlev⟩ := htold.level x hx
    exact ⟨h', hside, by rw [hhalf]; exact hlev⟩
  · rw [hhalf]
    exact htold.silent h' p hnot

end BasicBook
end Matching.Md
