import Matching.Engine.Sorted
import Matching.Engine.Sent

/-! What the insert branch of `handle` does to the containers. The four books are shelves; an order
    is stored in the map and its id is put on one shelf or on two (`slots`), under its price or its
    trigger. A list of such requests with ids of their own leaves in an empty engine those orders,
    on those shelves, whatever order they come in. -/

namespace Matching

/-- A book of an engine: the price book takers of a side trade against, or
    the stop book of a side. -/
abbrev Shelf := Side ⊕ Side

def Shelf.cmp : Shelf → ℤ → ℤ → Bool
  | .inl t => t.cmp
  | .inr s => s.cmp

instance : ∀ x : Shelf, StrictLt (Shelf.cmp x)
  | .inl t => inferInstanceAs (StrictLt t.cmp)
  | .inr s => inferInstanceAs (StrictLt s.cmp)

def Store.shelf (g : Store) : Shelf → Book
  | .inl t => g.book t
  | .inr s => g.stops s

/-- What an order is stored under on a shelf. -/
def Order.keyOn (o : Order) : Shelf → ℤ
  | .inl _ => o.price
  | .inr s => o.stopTrigger s

/-- The price the insert branch leaves an order with. -/
def Order.insertedPrice (o : Order) : ℤ :=
  match o.side with
  | .buyStop => if o.price = o.buyStopLimitPrice then o.price else stopPrice
  | .sellStop => if o.price = o.sellStopLimitPrice then o.price else stopPrice
  | _ => o.price

/-- The order it stores for a request. -/
def Order.inserted (o : Order) : Order :=
  { o with
    orderAction := match o.orderAction with
      | .insertNew => .new
      | .insertAmend => .amend
      | a => a
    price := o.insertedPrice }

/-- Where it puts it. -/
def Order.slots (o : Order) : List Shelf :=
  match o.side with
  | .buy => [.inl .sell]
  | .sell => [.inl .buy]
  | .buyStop => if o.price = o.buyStopLimitPrice then [.inl .sell] else [.inr .buy]
  | .sellStop => if o.price = o.sellStopLimitPrice then [.inl .buy] else [.inr .buy]
  | .buySellStop => [.inr .buy, .inr .sell]
  | .other _ => []

/-- Store the caller's order and put its id on a shelf. -/
def World.shelve (w : World) (e : ℕ) : Shelf → World
  | .inl t => insertResting w e t
  | .inr s => registerStop w e s

/-- Put it on all the given shelves. -/
def World.shelveAll (w : World) (e : ℕ) (xs : List Shelf) : World :=
  xs.foldr (fun x w => w.shelve e x) w

/-- `g'` is `g` with the order `o` on the shelves `xs`. -/
structure Store.Adds (g g' : Store) (o : Order) (xs : List Shelf) : Prop where
  find : ∀ id, g'.odrMap.find? id = if id = o.orderId ∧ xs ≠ [] then some o else g.odrMap.find? id
  entry : ∀ x p id, (g'.shelf x).At p id ↔ (x ∈ xs ∧ o.keyOn x = p ∧ o.orderId = id) ∨
    (g.shelf x).At p id
  wf : ∀ x, (g.shelf x).WF (Shelf.cmp x) → (g'.shelf x).WF (Shelf.cmp x)

/-- The store consists of the orders of `os`, as the insert branch stores them. -/
structure Store.Holds (g : Store) (os : List Order) : Prop where
  find : ∀ id o', g.odrMap.find? id = some o' ↔ ∃ o ∈ os, o.orderId = id ∧ o.inserted = o'
  entry : ∀ x p id, (g.shelf x).At p id ↔ ∃ o ∈ os, o.orderId = id ∧ x ∈ o.slots ∧
    o.inserted.keyOn x = p
  wf : ∀ x, (g.shelf x).WF (Shelf.cmp x)

variable {w w' : World} {e k : ℕ} {g : Store} {o q : Order} {os : List Order}

@[simp] theorem Order.orderId_inserted (o : Order) : o.inserted.orderId = o.orderId := rfl

theorem Order.slots_ne_nil (h : ∀ c, o.side ≠ .other c) : o.slots ≠ [] := by
  cases hside : o.side with
  | other c => exact absurd hside (h c)
  | buyStop =>
    simp only [Order.slots, hside]
    split_ifs <;> exact List.cons_ne_nil _ _
  | sellStop =>
    simp only [Order.slots, hside]
    split_ifs <;> exact List.cons_ne_nil _ _
  | _ =>
    simp only [Order.slots, hside]
    exact List.cons_ne_nil _ _

/-! ### One request -/

@[simp] theorem World.arg_shelve (w : World) (e : ℕ) (x : Shelf) : (w.shelve e x).arg = w.arg := by
  cases x <;> rfl

@[simp] theorem World.arg_shelveAll (w : World) (e : ℕ) :
    ∀ xs : List Shelf, (w.shelveAll e xs).arg = w.arg
  | [] => rfl
  | x :: xs => (World.arg_shelve _ e x).trans (arg_shelveAll w e xs)

theorem World.odrMap_shelve (w : World) (e : ℕ) (x : Shelf) :
    ((w.shelve e x).store e).odrMap = (w.store e).odrMap.emplace w.arg.orderId w.arg := by
  cases x with
  | inl t => simp only [World.shelve, insertResting, World.store_upd, if_true]
  | inr s => simp only [World.shelve, registerStop, World.store_upd, if_true]

theorem World.shelf_shelve (w : World) (e : ℕ) (x y : Shelf) : ((w.shelve e x).store e).shelf y =
    if y = x then ((w.store e).shelf x).insert (Shelf.cmp x) (w.arg.keyOn x) w.arg.orderId
    else (w.store e).shelf y := by
  cases x with
  | inl t =>
    simp only [World.shelve, insertResting, World.store_upd, if_true]
    cases y with
    | inl u =>
      have hbook : ∀ b : Book,
          ({ (w.store e).setBook t b with
            odrMap := (w.store e).odrMap.emplace w.arg.orderId w.arg } : Store).book u =
          if u = t then b else (w.store e).book u := fun b => by cases t <;> cases u <;> rfl
      simp only [Store.shelf, hbook, Sum.inl.injEq]
      rfl
    | inr s =>
      cases t <;> cases s <;> rfl
  | inr s =>
    simp only [World.shelve, registerStop, World.store_upd, if_true]
    cases y with
    | inl u => cases u <;> cases s <;> rfl
    | inr u =>
      have hstops : ∀ b : Book,
          ({ (w.store e).setStops s b with
            odrMap := (w.store e).odrMap.emplace w.arg.orderId w.arg } : Store).stops u =
          if u = s then b else (w.store e).stops u := fun b => by cases s <;> cases u <;> rfl
      simp only [Store.shelf, hstops, Sum.inr.injEq]
      rfl

/-- An order whose id is not in use is stored once and listed on each shelf. -/
theorem World.adds_shelveAll (hnone : (w.store e).odrMap.find? w.arg.orderId = none) :
    ∀ xs : List Shelf,
    (w.store e).Adds ((w.shelveAll e xs).store e) w.arg xs
  | [] => ⟨fun id => by simp [World.shelveAll],
      fun x p id => by simp [World.shelveAll], fun x h => h⟩
  | x :: xs => by
    have ih := adds_shelveAll hnone xs
    have harg : (w.shelveAll e xs).arg = w.arg := World.arg_shelveAll w e xs
    have hcons : w.shelveAll e (x :: xs) = (w.shelveAll e xs).shelve e x := rfl
    refine ⟨fun id => ?_, fun y p id => ?_, fun y hy => ?_⟩
    · rw [hcons, World.odrMap_shelve, harg, OrdMap.find?_emplace]
      by_cases hid : id = w.arg.orderId
      · -- stored here, or on one of the shelves before
        have hself :
            (((w.shelveAll e xs).store e).odrMap.find? w.arg.orderId).getD w.arg = w.arg := by
          rw [ih.find]
          split_ifs
          · rfl
          · rw [hnone]
            rfl
        simp [hid, hself]
      · rw [if_neg hid, ih.find]
        simp [hid]
    · rw [hcons, World.shelf_shelve, harg]
      split_ifs with hyx
      · subst hyx
        rw [Ladder.at_insert, ih.entry]
        simp only [List.mem_cons, true_or, true_and]
        constructor
        · rintro (⟨rfl, rfl⟩ | ⟨_, hp, hid⟩ | hat)
          · exact .inl ⟨rfl, rfl⟩
          · exact .inl ⟨hp, hid⟩
          · exact .inr hat
        · rintro (⟨rfl, rfl⟩ | hat)
          · exact .inl ⟨rfl, rfl⟩
          · exact .inr (.inr hat)
      · rw [ih.entry]
        simp [hyx]
    · rw [hcons, World.shelf_shelve, harg]
      split_ifs with hyx
      · subst hyx
        exact Ladder.wf_insert _ _ (ih.wf y hy)
      · exact ih.wf y hy

theorem handleInsert_eq (w : World) (e : ℕ) :
    handleInsert w e =
      ((w.setArg w.arg.inserted).shelveAll e w.arg.slots).emit e w.arg.inserted := by
  simp only [handleInsert]
  generalize hv : w.setArg _ = v
  have hset : ((w.setArg w.arg.inserted).shelveAll e w.arg.slots).emit e w.arg.inserted =
      ((v.setArg { v.arg with price := v.arg.insertedPrice }).shelveAll e v.arg.slots).emit e
        { v.arg with price := v.arg.insertedPrice } := by
    rw [← hv]
    rfl
  have hplaced : ∀ p xs, v.arg.insertedPrice = p → v.arg.slots = xs →
      ((w.setArg w.arg.inserted).shelveAll e w.arg.slots).emit e w.arg.inserted =
        ((v.setArg { v.arg with price := p }).shelveAll e xs).emit e { v.arg with price := p } := by
    rintro p xs rfl rfl
    exact hset
  split
  · rename_i hside
    rw [hplaced v.arg.price [.inl .sell] (by simp only [Order.insertedPrice, hside])
      (by simp only [Order.slots, hside])]
    rfl
  · rename_i hside
    rw [hplaced v.arg.price [.inl .buy] (by simp only [Order.insertedPrice, hside])
      (by simp only [Order.slots, hside])]
    rfl
  · rename_i hside
    split
    · rename_i hlimit
      rw [hplaced v.arg.price [.inl .sell]
        (by simp only [Order.insertedPrice, hside, if_pos hlimit])
        (by simp only [Order.slots, hside, if_pos hlimit])]
      rfl
    · rename_i hlimit
      rw [hplaced stopPrice [.inr .buy] (by simp only [Order.insertedPrice, hside, if_neg hlimit])
        (by simp only [Order.slots, hside, if_neg hlimit])]
      rfl
  · rename_i hside
    split
    · rename_i hlimit
      rw [hplaced v.arg.price [.inl .buy] (by simp only [Order.insertedPrice, hside, if_pos hlimit])
        (by simp only [Order.slots, hside, if_pos hlimit])]
      rfl
    · rename_i hlimit
      rw [hplaced stopPrice [.inr .buy] (by simp only [Order.insertedPrice, hside, if_neg hlimit])
        (by simp only [Order.slots, hside, if_neg hlimit])]
      rfl
  · rename_i hside
    rw [hplaced v.arg.price [.inr .buy, .inr .sell] (by simp only [Order.insertedPrice, hside])
      (by simp only [Order.slots, hside])]
    rfl
  · rename_i c hside
    rw [hplaced v.arg.price [] (by simp only [Order.insertedPrice, hside])
      (by simp only [Order.slots, hside])]
    rfl

/-- A request for the insert branch. -/
def Order.IsInsert (q : Order) : Prop := q.orderAction = .insertNew ∨ q.orderAction = .insertAmend

/-- Its effect on the containers. -/
theorem handle_insert (hfree : ∀ m ∈ (w.conf k).mutexSet, w.locked m = false)
    (hnodup : (w.conf k).mutexSet.Nodup) (hq : q.IsInsert) (hs : ¬q.Stray)
    (hnone : (w.store k).odrMap.find? q.orderId = none) :
    ∃ w', handle w k q = .ok w' ∧ (w.store k).Adds (w'.store k) q.inserted q.slots ∧
      w'.nextId = w.nextId := by
  obtain ⟨held, hheld⟩ := World.Unlocked.of_free hnodup hfree
  have harg : (w.enter k q held).arg = q := World.arg_enter ..
  have hdispatch : dispatch (w.enter k q held) k = .ok (handleInsert (w.enter k q held) k) := by
    rcases hq with ha | ha
    · simp only [dispatch, harg, ha]
    · simp only [dispatch, harg, ha]
  refine ⟨_, handle_ok hheld hs hdispatch, ?_, ?_⟩
  · rw [World.store_unlock, World.store_flush, handleInsert_eq, harg]
    have hadds := World.adds_shelveAll (w := (w.enter k q held).setArg q.inserted) (e := k)
      (by rw [World.store_setArg, World.store_enter]; exact hnone) q.slots
    rw [World.store_setArg, World.store_enter] at hadds
    exact hadds
  · rw [World.nextId_unlock, World.nextId_flush, handleInsert_eq, harg]
    have hall : ∀ (xs : List Shelf) (v : World), (v.shelveAll k xs).nextId = v.nextId := by
      intro xs v
      induction xs with
      | nil => rfl
      | cons x xs ih => cases x <;> exact ih
    exact (hall q.slots _).trans (World.nextId_enter ..)

/-! ### A list of requests -/

/-- A store with other orders takes one more. -/
theorem Store.Holds.add {g' : Store} (h : g.Holds os) (hq : ∀ o ∈ os, o.orderId ≠ q.orderId)
    (hs : q.slots ≠ []) (ha : g.Adds g' q.inserted q.slots) : g'.Holds (os ++ [q]) := by
  refine ⟨fun id o' => ?_, fun x p id => ?_, fun x => ha.wf x (h.wf x)⟩
  · rw [ha.find, Order.orderId_inserted]
    split_ifs with hid
    · obtain ⟨rfl, -⟩ := hid
      constructor
      · rintro ⟨⟩
        exact ⟨q, by simp, rfl, rfl⟩
      · rintro ⟨o, ho, hid, rfl⟩
        rcases List.mem_append.mp ho with ho | ho
        · exact absurd hid (hq o ho)
        · rw [List.mem_singleton.mp ho]
    · have hne : ¬q.orderId = id := fun he => hid ⟨he.symm, hs⟩
      rw [h.find]
      constructor
      · rintro ⟨o, ho, hrest⟩
        exact ⟨o, List.mem_append_left _ ho, hrest⟩
      · rintro ⟨o, ho, hoid, hrest⟩
        rcases List.mem_append.mp ho with ho | ho
        · exact ⟨o, ho, hoid, hrest⟩
        · exact absurd (List.mem_singleton.mp ho ▸ hoid) hne
  · rw [ha.entry, h.entry, Order.orderId_inserted]
    constructor
    · rintro (⟨hx, hp, hid⟩ | ⟨o, ho, hrest⟩)
      · exact ⟨q, by simp, hid, hx, hp⟩
      · exact ⟨o, List.mem_append_left _ ho, hrest⟩
    · rintro ⟨o, ho, hid, hx, hp⟩
      rcases List.mem_append.mp ho with ho | ho
      · exact .inr ⟨o, ho, hid, hx, hp⟩
      · obtain rfl := List.mem_singleton.mp ho
        exact .inl ⟨hx, hp, hid⟩

/-- A request to put back an order of a side the engine knows. -/
structure Order.PutsBack (q : Order) : Prop where
  action : q.IsInsert
  side : ∀ c, q.side ≠ .other c
  stray : ¬q.Stray

/-- They are all handled, and then the engine has these orders besides those it had. -/
theorem run_inserts :
    ∀ (qs : List Order) {w : World} {os : List Order}, w.Idle →
      (∀ m ∈ (w.conf k).mutexSet, w.locked m = false) →
    (w.conf k).mutexSet.Nodup → (∀ q ∈ qs, q.PutsBack) → ((os ++ qs).map Order.orderId).Nodup →
      (w.store k).Holds os →
    ∃ v, run w (qs.map (Prod.mk k)) = .ok v ∧ (v.store k).Holds (os ++ qs) ∧
      v.nextId = w.nextId ∧ v.Idle ∧
      v.locked = w.locked ∧ ∀ l, v.conf l = w.conf l
  | [], w, os, hidle, _, _, _, _, h =>
    ⟨w, rfl, by rwa [List.append_nil], rfl, hidle, rfl, fun _ => rfl⟩
  | q :: qs, w, os, hidle, hfree, hnodup, hqs, hids, h => by
    have hq : q.PutsBack := hqs q List.mem_cons_self
    have hother : ∀ o ∈ os, o.orderId ≠ q.orderId := by
      intro o ho he
      rw [List.map_append, List.nodup_append] at hids
      exact hids.2.2 _ (List.mem_map_of_mem ho) _ (by simp) he
    have hnone : (w.store k).odrMap.find? q.orderId = none := by
      rcases hf : (w.store k).odrMap.find? q.orderId with _ | o'
      · rfl
      · obtain ⟨o, ho, hid, _⟩ := (h.find _ _).mp hf
        exact absurd hid (hother o ho)
    obtain ⟨u, hu, hadds, hnext⟩ := handle_insert hfree hnodup hq.action hq.stray hnone
    obtain ⟨hidle', hlocked⟩ := handle_leaves hidle hq.stray hu
    have hconf : ∀ l, u.conf l = w.conf l := handle_conf hu
    have hsplit : os ++ [q] ++ qs = os ++ q :: qs := by simp
    obtain ⟨v, hv, hholds, hvnext, hvidle, hvlocked, hvconf⟩ := run_inserts qs hidle'
      (by rw [hconf, hlocked]; exact hfree) (by rw [hconf]; exact hnodup)
        (fun x hx => hqs x (List.mem_cons_of_mem _ hx))
      (by rw [hsplit]; exact hids) (h.add hother (Order.slots_ne_nil hq.side) hadds)
    refine ⟨v, ?_, hsplit ▸ hholds, hvnext.trans hnext, hvidle, hvlocked.trans hlocked,
      fun l => (hvconf l).trans (hconf l)⟩
    simp only [List.map_cons, run, runs, hu, ok_bind]
    exact hv

end Matching
