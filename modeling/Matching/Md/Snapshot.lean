import Matching.Md.Listen

/-! `engine::recovery`: a client that connects gets every order of the map, in no particular order,
    whether it rests, waits or is dead. A book that is fed them comes to follow the store if the
    orders it has on record are among them, with half and price, and no level overflows on the way
    (`World.Listens.recovers`). From then on only the levels and the quantities on record count for
    what later reports do (`Twin`). -/

namespace Matching

open Md (Half BasicBook Follows)

/-- The orders `recovery` hands out; the map is unordered. -/
def Store.Recovery (g : Store) (os : List Order) : Prop := os.Perm (g.odrMap.entries.map Prod.snd)

/-- What an order that is shown counts for the level of a half at a price. -/
def amount (v : ℕ → Option Shown) (h : Half) (p : ℤ) (id : ℕ) : ℕ :=
  ((v id).map (Shown.on h p)).getD 0

/-- The orders shown in the one way or the other fit together on every level. -/
def Room (v u : ℕ → Option Shown) : Prop :=
  ∃ ids : List ℕ, ids.Nodup ∧ (∀ id, v id ≠ none ∨ u id ≠ none → id ∈ ids) ∧
    ∀ h p, (ids.map fun id => max (amount v h p id) (amount u h p id)).sum < 2 ^ 64

variable {v u : ℕ → Option Shown} {b : BasicBook} {os : List Order} {o : Order} {h : Half} {p : ℤ}
  {id : ℕ} {z : Shown}

theorem amount_le (v : ℕ → Option Shown) (h : Half) (p : ℤ) (id : ℕ) :
    amount v h p id ≤ ((v id).map Shown.quantity).getD 0 := by
  rw [amount]
  rcases v id with _ | z
  · exact Nat.le_refl 0
  · simp only [Option.map_some, Option.getD_some, Shown.on]
    split_ifs
    · exact Nat.le_refl _
    · exact Nat.zero_le _

/-- Orders fit that fit on one level. -/
theorem Room.of_total {ids : List ℕ} (hnd : ids.Nodup)
    (hall : ∀ id, v id ≠ none ∨ u id ≠ none → id ∈ ids)
    (hlt : (ids.map fun id => max (((v id).map Shown.quantity).getD 0)
      (((u id).map Shown.quantity).getD 0)).sum < 2 ^ 64) : Room v u :=
  ⟨ids, hnd, hall,
    fun h p => lt_of_le_of_lt
    (List.sum_le_sum fun id _ => max_le_max (amount_le v h p id) (amount_le u h p id)) hlt⟩

/-! ### Feeding orders one by one -/

theorem sum_add_le {f g : ℕ → ℕ} {d : ℕ} :
    ∀ {ids : List ℕ}, id ∈ ids → (∀ i, f i ≤ g i) → f id + d ≤ g id →
    (ids.map f).sum + d ≤ (ids.map g).sum
  | i :: ids, hmem, hle, hid => by
    simp only [List.map_cons, List.sum_cons]
    rcases List.mem_cons.mp hmem with rfl | hmem
    · have hrest : (ids.map f).sum ≤ (ids.map g).sum := List.sum_le_sum fun i _ => hle i
      omega
    · have hrest := sum_add_le hmem hle hid
      have hhead := hle i
      omega

namespace Md

/-- Orders with different ids that keep half and price take a book from the
    one view to the other. -/
theorem Follows.feed {u : ℕ → Option Shown} :
    ∀ (os : List Order) {b : BasicBook} {v : ℕ → Option Shown}, Follows b v →
    (∀ id z, v id = some z → z.price ≠ stopPrice) → (os.map Order.orderId).Nodup →
      (∀ o ∈ os, Keeps v o) →
    (∀ o ∈ os, u o.orderId = o.shown) → (∀ id, id ∉ os.map Order.orderId → u id = v id) → Room v u →
    Follows (b.feed os) u
  | [], _, _, hf, _, _, _, _, hrest, _ => hf.congr fun id => (hrest id List.not_mem_nil).symm
  | o :: os, b, v, hf, hv, hnd, hk, hu, hrest, hroom => by
    obtain ⟨hnew, hnd'⟩ := List.nodup_cons.mp hnd
    obtain ⟨ids, hids, hall, hlt⟩ := hroom
    have huo : u o.orderId = o.shown := hu o List.mem_cons_self
    have hkeep := hk o List.mem_cons_self
    have hc : (b.handleOdr o).1.NoCarry := by
      refine hf.carry.handleOdr hf.sums fun hp h hh hmore => ?_
      have hcalc : o.calcRemainQuantity ≠ 0 := by omega
      have hshown : o.shown = some ⟨h, o.price, o.calcRemainQuantity⟩ :=
        Order.shown_eq_some.mpr ⟨hp, hcalc, hh, rfl, rfl⟩
      have hmem : o.orderId ∈ ids :=
        hall _ (Or.inr (by rw [huo, hshown]; exact Option.some_ne_none _))
      have hrec : b.recorded h o.price = (ids.map (amount v h o.price)).sum :=
        hf.recorded_eq h o.price hids fun id z hz _ _ =>
          hall id (Or.inl (by rw [hz]; exact Option.some_ne_none _))
      have hself : amount v h o.price o.orderId ≤ b.recordOf o.orderId := by
        rw [hf.recordOf_eq]
        exact amount_le ..
      have hmine : amount u h o.price o.orderId = o.calcRemainQuantity := by
        rw [amount, huo, hshown]
        simp [Shown.on]
      have hsum :=
        sum_add_le (f := amount v h o.price)
          (g := fun id => max (amount v h o.price id) (amount u h o.price id))
        (d := o.calcRemainQuantity - b.recordOf o.orderId) hmem (fun i => Nat.le_max_left ..) (by
          have hmax :=
            Nat.le_max_right (amount v h o.price o.orderId) (amount u h o.price o.orderId)
          omega)
      have hbound := hlt h o.price
      omega
    have hf' := hf.keep hv hkeep hc
    have hother : ∀ id, id ≠ o.orderId → Function.update v o.orderId o.shown id = v id :=
      fun id hid => Function.update_of_ne hid ..
    refine Follows.feed os hf' (fun id z hz => ?_) hnd' (fun x hx => ?_)
      (fun x hx => hu x (List.mem_cons_of_mem _ hx)) (fun id hid => ?_)
      ⟨ids, hids, fun id hid => ?_, fun h p => ?_⟩
    · rw [Function.update_apply] at hz
      split_ifs at hz
      · obtain ⟨hp, _, _, hzp, _⟩ := Order.shown_eq_some.mp hz
        exact hzp ▸ hp
      · exact hv id z hz
    · have hne : x.orderId ≠ o.orderId := fun he => hnew (he ▸ List.mem_map_of_mem hx)
      intro z hz
      rw [hother _ hne] at hz
      exact hk x (List.mem_cons_of_mem _ hx) z hz
    · rw [Function.update_apply]
      split_ifs with he
      · rw [he, huo]
      · exact hrest id fun hmem => (List.mem_cons.mp hmem).elim he hid
    · rcases hid with hid | hid
      · rw [Function.update_apply] at hid
        split_ifs at hid with he
        · exact hall id (Or.inr (by rw [he, huo]; exact hid))
        · exact hall id (Or.inl hid)
      · exact hall id (Or.inr hid)
    · refine lt_of_le_of_lt (List.sum_le_sum fun id _ => ?_) (hlt h p)
      rw [amount, Function.update_apply]
      split_ifs with he
      · rw [he, amount, amount, huo]
        exact max_le (Nat.le_max_right ..) (Nat.le_max_right ..)
      · exact Nat.le_refl _

/-- What a book has on record of an order. -/
def BasicBook.shown (b : BasicBook) (id : ℕ) : Option Shown :=
  (b.orders.find? id).bind fun x => x.bookHalf.map fun h => ⟨h, x.price, x.remainQuantity⟩

theorem Follows.shown_eq (hf : Follows b v) (id : ℕ) : b.shown id = v id := by
  rcases hv : v id with _ | z
  · rw [BasicBook.shown, hf.find_none hv]
    rfl
  · obtain ⟨x, hx, hh, hp, hq⟩ := hf.find_some hv
    rw [BasicBook.shown, hx, Option.bind_some, hh, hp, hq]
    rfl

/-- Every order on record is still in the map, with the half and the price it is on record with; and
    what is on record fits with what rests. -/
structure Rejoins (b : BasicBook) (g : Store) : Prop where
  kept : ∀ id x, b.orders.find? id = some x → ∃ o, g.odrMap.find? id = some o ∧ o.price = x.price ∧
    o.bookHalf = x.bookHalf
  room : Room b.shown g.shown

end Md

/-! ### Recovery -/

variable {w : World} {e : ℕ}

/-- What the map has of an order is what is shown of it. -/
theorem World.Listens.shown_find (hl : w.Listens e) (ho : (w.store e).odrMap.find? id = some o) :
    (w.store e).shown id = o.shown := by
  by_cases hm : ∃ t, id ∈ ((w.store e).book t).ids
  · obtain ⟨t, ht⟩ := hm
    rw [Store.shown_of_mem ht, ho]
    rfl
  · have hoff : ∀ t, id ∉ ((w.store e).book t).ids := fun t ht => hm ⟨t, ht⟩
    rw [Store.shown_of_notMem hoff, eq_comm, Order.shown_eq_none]
    rcases hl.hears.unbooked ho hoff with hp | hdead
    · exact Or.inl hp
    · exact Or.inr (Or.inl (Order.calc_of_not_active hdead))

theorem World.Listens.mem_recovery (hl : w.Listens e) (hos : (w.store e).Recovery os) :
    o ∈ os ↔ (w.store e).odrMap.find? o.orderId = some o := by
  rw [hos.mem_iff, List.mem_map]
  constructor
  · rintro ⟨⟨id, o'⟩, hmem, rfl⟩
    have hfind := OrdMap.mem_entries.mp hmem
    rw [((hl.ordered e).key hfind).1]
    exact hfind
  · exact fun hfind => ⟨_, OrdMap.mem_entries.mpr hfind, rfl⟩

theorem World.Listens.recovery_nodup (hl : w.Listens e) (hos : (w.store e).Recovery os) :
    (os.map Order.orderId).Nodup := by
  have hkeys : ((w.store e).odrMap.entries.map Prod.snd).map Order.orderId =
      (w.store e).odrMap.entries.map Prod.fst := by
    rw [List.map_map]
    refine List.map_congr_left fun x hx => ?_
    exact ((hl.ordered e).key (OrdMap.mem_entries.mp hx)).1
  rw [(hos.map Order.orderId).nodup_iff, hkeys]
  exact List.pairwise_map.mpr ((w.store e).odrMap.sorted.imp fun h => ne_of_lt h)

/-- The recovery brings a book up to date all of whose orders are in the map. -/
theorem World.Listens.recovers (hl : w.Listens e) (hf : Follows b v)
    (hv : ∀ id z, v id = some z → z.price ≠ stopPrice) (hj : Md.Rejoins b (w.store e))
    (hos : (w.store e).Recovery os) : Follows (b.feed os) (w.store e).shown := by
  have hmem : ∀ {o}, o ∈ os ↔ (w.store e).odrMap.find? o.orderId = some o := hl.mem_recovery hos
  have hroom : Room v (w.store e).shown := by
    rw [← funext hf.shown_eq]
    exact hj.room
  refine hf.feed os hv (hl.recovery_nodup hos) (fun o ho z hz => ?_)
    (fun o ho => hl.shown_find (hmem.mp ho)) (fun id hid => ?_) hroom
  · obtain ⟨x, hx, hh, hp, _⟩ := hf.find_some hz
    obtain ⟨o', ho', hp', hh'⟩ := hj.kept _ x hx
    obtain rfl := Option.some.inj (ho'.symm.trans (hmem.mp ho))
    exact ⟨hp'.trans hp, hh'.trans hh⟩
  · have hnone : (w.store e).odrMap.find? id = none := by
      rcases ho : (w.store e).odrMap.find? id with _ | o
      · rfl
      · have hkey := ((hl.ordered e).key ho).1
        exact absurd (List.mem_map.mpr ⟨o, hmem.mpr (by rw [hkey]; exact ho), hkey⟩) hid
    rw [(hl.firm e).shown_none hnone]
    rcases hz : v id with _ | z
    · rfl
    · obtain ⟨x, hx, _⟩ := hf.find_some hz
      obtain ⟨o', ho', _⟩ := hj.kept _ x hx
      rw [hnone] at ho'
      cases ho'

/-! ### Twins -/

namespace Md

variable {b' : BasicBook}

/-- Every level is a number of 64 bits. -/
def BasicBook.Narrow (b : BasicBook) : Prop :=
  ∀ h p x, (b.half h).find? p = some x → x.quantity < 2 ^ 64

theorem BasicBook.Narrow.within (hb : b.Narrow) (hw : Within h b b')
    (hm : ∀ p x, (b'.half h).find? p = some x → x.quantity < 2 ^ 64) :
    b'.Narrow := by
  intro h' p x hx
  rcases Half.eq_or_opp h h' with rfl | rfl
  · exact hm p x hx
  · rw [hw.other] at hx
    exact hb _ p x hx

theorem BasicBook.Narrow.insert (hb : b.Narrow) (h : Half) (p : ℤ) {y : BookItem}
    (hy : y.quantity < 2 ^ 64) :
    ∀ k x, ((b.half h).insert p y).find? k = some x → x.quantity < 2 ^ 64 := by
  intro k x hx
  rw [OrdMap.find?_insert] at hx
  split_ifs at hx
  · exact Option.some.inj hx ▸ hy
  · exact hb h k x hx

theorem BasicBook.Narrow.addQuantity (hb : b.Narrow) (h : Half) (p : ℤ) (q : ℕ) :
    (b.addQuantity h p q).1.Narrow := by
  refine hb.within (addQuantity_within b h p q) ?_
  rw [half_addQuantity]
  exact hb.insert h p (Nat.mod_lt _ (Nat.two_pow_pos 64))

theorem BasicBook.Narrow.reduceQuantity (hb : b.Narrow) (h : Half) (p : ℤ) (q : ℕ) :
    (b.reduceQuantity h p q).1.Narrow := by
  refine hb.within (reduceQuantity_within b h p q) ?_
  unfold BasicBook.reduceQuantity
  split
  · cases h
    · exact hb .bid
    · exact hb .ask
  · rename_i item hitem
    have hlt := hb h p item hitem
    have hsub : subU64 item.quantity q < 2 ^ 64 := by
      unfold subU64
      split_ifs <;> omega
    have hhalf : ∀ (m : BookMap) (l),
      ({ b.setHalf h m with reduced := l } : BasicBook).half h = m := fun m l => by cases h <;> rfl
    rw [hhalf]
    split_ifs
    · intro k x hx
      rw [OrdMap.find?_erase] at hx
      split_ifs at hx
      exact hb h k x hx
    · exact hb.insert h p hsub

theorem BasicBook.Narrow.moveQuantity (hb : b.Narrow) (h : Half) (p : ℤ) (old new : ℕ) :
    (b.moveQuantity h p old new).1.Narrow := by
  unfold BasicBook.moveQuantity
  split_ifs
  · exact hb.addQuantity h p _
  · exact hb.reduceQuantity h p _
  · exact hb

theorem BasicBook.Narrow.handleOdr (hb : b.Narrow) (o : Order) : (b.handleOdr o).1.Narrow := by
  by_cases hskip : o.price = stopPrice ∨ o.bookHalf = none
  · rw [handleOdr_skip b hskip]
    exact hb
  · obtain ⟨hp, hn⟩ := not_or.mp hskip
    obtain ⟨h, hh⟩ := Option.ne_none_iff_exists'.mp hn
    rw [handleOdr_eq b hp hh]
    have hmove := hb.moveQuantity h o.price (b.recordOf o.orderId) o.calcRemainQuantity
    intro h' p x hx
    exact hmove h' p x (by cases h' <;> exact hx)

theorem BasicBook.Narrow.feed : ∀ (os : List Order) {b : BasicBook}, b.Narrow → (b.feed os).Narrow
  | [], _, hb => hb
  | o :: os, _, hb => Narrow.feed os (hb.handleOdr o)

theorem BasicBook.narrow_empty : BasicBook.empty.Narrow := fun h p x hx => by cases h <;> cases hx

/-- What fits in one book fits in another that starts empty. -/
theorem Follows.room (hf : Follows b v) (hb : b.Narrow) : Room BasicBook.empty.shown v := by
  refine ⟨b.orders.entries.map Prod.fst,
    List.pairwise_map.mpr (b.orders.sorted.imp fun h => ne_of_lt h), fun id hid => ?_,
    fun h p => ?_⟩
  · rcases hz : v id with _ | z
    · exact absurd (hid.resolve_left fun hne => hne rfl) (by rw [hz]; exact fun hc => hc rfl)
    · obtain ⟨x, hx, _⟩ := hf.find_some hz
      exact List.mem_map.mpr ⟨_, OrdMap.mem_entries.mpr hx, rfl⟩
  · have hnone : ∀ id, amount BasicBook.empty.shown h p id = 0 := fun _ => rfl
    simp only [hnone, Nat.zero_max]
    have hsum :=
        hf.recorded_eq h p
          (List.pairwise_map.mpr (b.orders.sorted.imp fun h => ne_of_lt h)) fun id z hz _ _ => by
      obtain ⟨x, hx, _⟩ := hf.find_some hz
      exact List.mem_map.mpr ⟨_, OrdMap.mem_entries.mpr hx, rfl⟩
    change _ < _
    have hlevel := hf.sums.shows h p
    by_cases h0 : b.recorded h p = 0
    · rw [h0] at hsum
      exact hsum ▸ (by decide)
    · have hsome : (b.half h).find? p = some ⟨p, b.recorded h p, h.side, 0⟩ := by
        rw [hlevel, levelAt, if_neg (by simpa using h0)]
        rfl
      exact hsum ▸ hb h p _ hsome

/-- The books have the same levels, and the same quantities on record. -/
structure Twin (b b' : BasicBook) : Prop where
  half : ∀ h, b.half h = b'.half h
  record : ∀ id, (b.orders.find? id).map Order.remainQuantity =
    (b'.orders.find? id).map Order.remainQuantity

theorem BasicBook.half_moveQuantity (hb : ∀ h, b.half h = b'.half h) (h : Half) (p : ℤ)
    (old new : ℕ) (h' : Half) :
    (b.moveQuantity h p old new).1.half h' = (b'.moveQuantity h p old new).1.half h' := by
  have hset : ∀ m, (b.setHalf h m).half h' = (b'.setHalf h m).half h' := fun m => by
    rcases Half.eq_or_opp h h' with rfl | rfl
    · rw [half_setHalf, half_setHalf]
    · rw [half_opp_setHalf, half_opp_setHalf, hb]
  unfold moveQuantity addQuantity reduceQuantity
  rw [hb h]
  split_ifs
  · cases h' <;> exact hset _
  · split
    · cases h'
      · exact hb .bid
      · exact hb .ask
    · cases h' <;> exact hset _
  · exact hb h'

namespace Twin

theorem recordOf_eq (ht : Twin b b') (id : ℕ) : b.recordOf id = b'.recordOf id := by
  rw [BasicBook.recordOf, BasicBook.recordOf, ht.record]

/-- One report. -/
theorem handleOdr (ht : Twin b b') (o : Order) : Twin (b.handleOdr o).1 (b'.handleOdr o).1 := by
  by_cases hskip : o.price = stopPrice ∨ o.bookHalf = none
  · rw [BasicBook.handleOdr_skip b hskip, BasicBook.handleOdr_skip b' hskip]
    exact ht
  obtain ⟨hp, hn⟩ := not_or.mp hskip
  obtain ⟨h, hh⟩ := Option.ne_none_iff_exists'.mp hn
  rw [BasicBook.handleOdr_eq b hp hh, BasicBook.handleOdr_eq b' hp hh, ht.recordOf_eq]
  refine ⟨fun h' => ?_, fun id => ?_⟩
  · have hmove :=
      BasicBook.half_moveQuantity ht.half h o.price (b'.recordOf o.orderId) o.calcRemainQuantity h'
    cases h' <;> exact hmove
  · show ((b.record o).find? id).map _ = ((b'.record o).find? id).map _
    unfold BasicBook.record
    split_ifs
    · rw [OrdMap.find?_erase, OrdMap.find?_erase]
      split_ifs
      · rfl
      · exact ht.record id
    · rw [OrdMap.find?_insert, OrdMap.find?_insert]
      split_ifs
      · rfl
      · exact ht.record id

theorem feed : ∀ (os : List Order) {b b' : BasicBook}, Twin b b' → Twin (b.feed os) (b'.feed os)
  | [], _, _, ht => ht
  | o :: os, _, _, ht => feed os (ht.handleOdr o)

end Twin

/-- Books that follow one view are twins. -/
theorem Follows.twin (hf : Follows b v) (hf' : Follows b' v) : Twin b b' := by
  refine ⟨fun h => OrdMap.ext_find fun p => ?_, fun id => ?_⟩
  · have hnd : (b.orders.entries.map Prod.fst).Nodup :=
      List.pairwise_map.mpr (b.orders.sorted.imp fun h => ne_of_lt h)
    have hall : ∀ id z, v id = some z → z.half = h → z.price = p →
        id ∈ b.orders.entries.map Prod.fst := fun id z hz _ _ => by
      obtain ⟨x, hx, _⟩ := hf.find_some hz
      exact List.mem_map.mpr ⟨_, OrdMap.mem_entries.mpr hx, rfl⟩
    have hsum : b.recorded h p = b'.recorded h p := by
      rw [hf.recorded_eq h p hnd hall, hf'.recorded_eq h p hnd hall]
    rw [hf.sums.shows h p, hf'.sums.shows h p]
    exact congrArg (levelAt h p) hsum
  · rcases hz : v id with _ | z
    · rw [hf.find_none hz, hf'.find_none hz]
    · obtain ⟨x, hx, _, _, hq⟩ := hf.find_some hz
      obtain ⟨x', hx', _, _, hq'⟩ := hf'.find_some hz
      rw [hx, hx', Option.map_some, Option.map_some, hq, hq']

end Md

/-! ### What a run delivers -/

variable {w' w0 : World} {q : Order}

theorem Step.emits {x y : World × List Held} (h : Step e q x y) : ∃ rs, Emits x.1 y.1 rs := by
  cases h with
  | arg o => exact ⟨_, Emits.setArg _ o⟩
  | bump => exact ⟨_, Emits.bumpId _⟩
  | reject => exact ⟨_, (Emits.setArg _ _).trans (Emits.callback ..)⟩
  | taker _ _ hex =>
    obtain ⟨rs, hrs⟩ := execute_emits hex
    exact ⟨_, ((Emits.bumpId _).trans (Emits.setArg _ _)).trans hrs⟩
  | fire _ hex =>
    obtain ⟨rs, hrs⟩ := execute_emits hex
    exact ⟨_, (Emits.writeRef _ e (.entry _) _).trans hrs⟩
  | @collect w _ s hit =>
    exact ⟨[], Emits.upd w e fun g => g.setStops s ((w.stops e s).filter fun l => !hit l)⟩
  | register =>
    exact ⟨_, (((Emits.bumpId _).trans (Emits.setArg _ _)).trans (Emits.registerStops _ e _)).trans
      (Emits.callback ..)⟩
  | @drop w _ id => exact ⟨[], Emits.upd w e fun g => { g with odrMap := g.odrMap.erase id }⟩

theorem Opening.emits {y : World × List Held} (h : Opening e q w y) : ∃ rs, Emits w y.1 rs := by
  cases h with
  | same => exact ⟨_, Emits.refl w⟩
  | refused => exact ⟨_, (Emits.setArg w _).trans (Emits.callback ..)⟩
  | amended => exact ⟨_, (Emits.writeRef w e (.entry q.orderId) _).trans (Emits.callback ..)⟩
  | @unbooked o a st t =>
    have hset : Emits (w.ackCancel e q.orderId { o with orderAction := a } st)
      ((w.ackCancel e q.orderId { o with orderAction := a } st).setBook e t
      (((w.store e).book t).eraseAt o.price o.orderId)) [] := Emits.upd ..
    exact ⟨_, (Emits.ackCancel w e q.orderId _ st).trans hset⟩
  | unstopped => exact ⟨_, (Emits.ackCancel w e q.orderId _ _).trans (Emits.dropStops _ e _ _)⟩

theorem Steps.emits {x y : World × List Held} (h : Steps e q x y) : ∃ rs, Emits x.1 y.1 rs := by
  induction h with
  | refl => exact ⟨[], Emits.refl x.1⟩
  | tail _ hstep ih =>
    obtain ⟨rs, hrs⟩ := ih
    obtain ⟨rs', hrs'⟩ := hstep.emits
    exact ⟨rs ++ rs', hrs.trans hrs'⟩

theorem dispatch_emits (ht : q.IsTrade) (hw : w.arg = q) (h : dispatch w e = .ok w') :
    ∃ rs, Emits w w' rs := by
  obtain ⟨v, hs, hopen, hsteps⟩ := dispatch_steps hw ht h
  obtain ⟨rs, hrs⟩ := hopen.emits
  obtain ⟨rs', hrs'⟩ := hsteps.emits
  exact ⟨rs ++ rs', hrs.trans hrs'⟩

/-- A call calls back with more reports after those so far. -/
theorem handle_heard (ht : q.IsTrade) (hidle : w.Idle) (h : handle w e q = .ok w') :
    ∃ os, w'.heardBy e = w.heardBy e ++ os := by
  obtain ⟨held, _, ⟨_, rfl⟩ | ⟨_, v, hv, rfl⟩⟩ := handle_cases h
  · refine ⟨[{ q with orderState := .rejectAuctionSupportBuySellOnly }], ?_⟩
    simp [World.heardBy, World.emit, World.setArg]
  · obtain ⟨rs, hrs⟩ := dispatch_emits ht (World.arg_enter ..) hv
    obtain ⟨c, hc⟩ := heardBy_leave ((w.cbRecords_enter e e q held).trans (hidle.cbRecords e)) hrs
    exact ⟨_, by rw [hc, World.heardBy, World.reports_enter, World.heardBy]⟩

theorem run_heard :
    ∀ (qs : List Order) {w w' : World}, (∀ q ∈ qs, q.IsTrade) → w.Idle →
      run w (qs.map (Prod.mk e)) = .ok w' →
    ∃ os, w'.heardBy e = w.heardBy e ++ os
  | [], w, _, _, _, h => by
    obtain rfl := Except.ok.inj h
    exact ⟨[], (List.append_nil _).symm⟩
  | q :: qs, w, w', ht, hidle, h => by
    obtain ⟨v, hv, h⟩ := bind_ok.mp h
    obtain ⟨os, hos⟩ := handle_heard (ht q List.mem_cons_self) hidle hv
    obtain ⟨os', hos'⟩ :=
      run_heard qs (fun x hx => ht x (List.mem_cons_of_mem _ hx)) (handle_idle hidle hv) h
    exact ⟨os ++ os', by rw [hos', hos, List.append_assoc]⟩

end Matching
