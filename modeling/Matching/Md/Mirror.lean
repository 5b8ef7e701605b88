import Matching.Engine.Reports
import Matching.Md.Levels

/-! What a book knows of the orders whose reports it was fed. A listener of the reports knows an
    order by its half, price and quantity while there is something of it (`Shown`). A book follows a
    view of who is shown as what (`Follows`) when these are its orders on record and its levels are
    their sums; each report changes the view at one order, and a book goes on following when the
    report keeps half and price and takes from the quantity (`Follows.follow`), or brings a new
    order (`Follows.add`). -/

namespace Matching

open Md (Half)

/-- What a listener knows of an order. -/
structure Shown where
  half : Half
  price : ℤ
  quantity : ℕ
  deriving DecidableEq, Repr

/-- What counts for the level of a half at a price. -/
def Shown.on (h : Half) (p : ℤ) (z : Shown) : ℕ :=
  if z.half = h ∧ z.price = p then z.quantity else 0

namespace Order

/-- What a report of `o` makes a listener know. -/
def shown (o : Order) : Option Shown :=
  if o.price = stopPrice ∨ o.calcRemainQuantity = 0 then none
  else o.bookHalf.map fun h => ⟨h, o.price, o.calcRemainQuantity⟩

variable {o : Order} {c : Option ℤ} {z : Shown}

@[simp] theorem calcRemainQuantity_priced :
    (o.priced c).calcRemainQuantity = o.calcRemainQuantity := rfl
@[simp] theorem shown_priced : (o.priced c).shown = o.shown := rfl

theorem shown_eq_some : o.shown = some z ↔
    o.price ≠ stopPrice ∧ o.calcRemainQuantity ≠ 0 ∧ o.bookHalf = some z.half ∧ z.price = o.price ∧
      z.quantity = o.calcRemainQuantity := by
  unfold shown
  split_ifs with hc
  · simp only [false_iff]
    rintro ⟨hp, hq, _⟩
    exact hc.elim hp hq
  · obtain ⟨hp, hq⟩ := not_or.mp hc
    rw [Option.map_eq_some_iff]
    constructor
    · rintro ⟨h, hh, rfl⟩
      exact ⟨hp, hq, hh, rfl, rfl⟩
    · rintro ⟨_, _, hh, hzp, hzq⟩
      exact ⟨z.half, hh, by rw [← hzp, ← hzq]⟩

theorem shown_eq_none :
    o.shown = none ↔ o.price = stopPrice ∨ o.calcRemainQuantity = 0 ∨ o.bookHalf = none := by
  unfold shown
  split_ifs with hc
  · simp only [true_iff]
    rcases hc with h | h
    · exact Or.inl h
    · exact Or.inr (Or.inl h)
  · obtain ⟨hp, hq⟩ := not_or.mp hc
    rw [Option.map_eq_none_iff]
    exact ⟨fun h => Or.inr (Or.inr h), fun h => (h.resolve_left hp).resolve_left hq⟩

end Order

namespace Md

open BasicBook

/-- Let a book handle reports one after the other. -/
def BasicBook.feed (b : BasicBook) (os : List Order) : BasicBook :=
  os.foldl (fun b o => (b.handleOdr o).1) b

@[simp] theorem BasicBook.feed_nil (b : BasicBook) : b.feed [] = b := rfl

@[simp] theorem BasicBook.feed_cons (b : BasicBook) (o : Order) (os : List Order) :
    b.feed (o :: os) = (b.handleOdr o).1.feed os := rfl

theorem BasicBook.feed_append (b : BasicBook) (os os' : List Order) :
    b.feed (os ++ os') = (b.feed os).feed os' :=
  List.foldl_append ..

/-- The orders on record are those shown, and the levels are their sums. -/
structure Follows (b : BasicBook) (v : ℕ → Option Shown) : Prop where
  known : ∀ id, (b.orders.find? id).map (fun x => (x.bookHalf, x.price, x.remainQuantity)) =
    (v id).map (fun z => (some z.half, z.price, z.quantity))
  sums : b.Sums (fun _ _ => 0)
  carry : b.NoCarry

variable {b : BasicBook} {v : ℕ → Option Shown} {h : Half} {f : ℤ → ℕ} {o m : Order} {z : Shown}
  {id : ℕ}

/-! ### Additions -/

/-- What a change of a level adds, it adds to what the level shows. -/
theorem BasicBook.added_moveQuantity (hs : Shows (b.half h) h f) {p : ℤ} {old new : ℕ} {x : ℕ × ℕ}
    (hx : x ∈ (b.moveQuantity h p old new).1.added) :
    x ∈ b.added ∨ (old < new ∧ x = (f p, new - old)) := by
  unfold moveQuantity at hx
  split_ifs at hx with hlt
  · have hheld : (((b.half h).find? p).getD .default).quantity = f p := by
      rw [hs p, levelAt]
      split_ifs with h0
      · exact h0.symm
      · rfl
    rcases List.mem_append.mp hx with hx | hx
    · exact Or.inl hx
    · exact Or.inr ⟨hlt, by rw [List.mem_singleton.mp hx, hheld]⟩
  · have hsame : (b.reduceQuantity h p (old - new)).1.added = b.added := by
      unfold reduceQuantity
      split <;> simp
    exact Or.inl (hsame ▸ hx)
  · exact Or.inl hx

/-- No addition carries when a report that brings more leaves its level below 2^64. -/
theorem BasicBook.NoCarry.handleOdr (hc : b.NoCarry) (hsum : b.Sums (fun _ _ => 0))
    (hbound : o.price ≠ stopPrice → ∀ h, o.bookHalf = some h →
      b.recordOf o.orderId < o.calcRemainQuantity →
      b.recorded h o.price + (o.calcRemainQuantity - b.recordOf o.orderId) < 2 ^ 64) :
    (b.handleOdr o).1.NoCarry := by
  by_cases hskip : o.price = stopPrice ∨ o.bookHalf = none
  · rw [handleOdr_skip b hskip]
    exact hc
  · obtain ⟨hp, hn⟩ := not_or.mp hskip
    obtain ⟨h, hh⟩ := Option.ne_none_iff_exists'.mp hn
    rw [handleOdr_eq b hp hh]
    intro x hx
    rcases added_moveQuantity (hsum.shows h) hx with hx | ⟨hlt, rfl⟩
    · exact hc x hx
    · exact hbound hp h hh hlt

/-! ### A view of the orders -/

namespace Follows

theorem empty : Follows .empty (fun _ => none) := ⟨fun _ => rfl, Sums.empty, fun _ hx => nomatch hx⟩

theorem find_none (hf : Follows b v) (hv : v id = none) : b.orders.find? id = none := by
  have hk := hf.known id
  rwa [hv, Option.map_none, Option.map_eq_none_iff] at hk

theorem find_some (hf : Follows b v) (hv : v id = some z) :
    ∃ x, b.orders.find? id = some x ∧ x.bookHalf = some z.half ∧
    x.price = z.price ∧ x.remainQuantity = z.quantity := by
  have hk := hf.known id
  rw [hv, Option.map_some, Option.map_eq_some_iff] at hk
  obtain ⟨x, hx, he⟩ := hk
  obtain ⟨hh, hp, hq⟩ := by simpa only [Prod.mk.injEq] using he
  exact ⟨x, hx, hh, hp, hq⟩

theorem recordOf_eq (hf : Follows b v) (id : ℕ) :
    b.recordOf id = ((v id).map Shown.quantity).getD 0 := by
  rcases hv : v id with _ | z
  · rw [recordOf, hf.find_none hv]; rfl
  · obtain ⟨x, hx, _, _, hq⟩ := hf.find_some hv
    rw [recordOf, hx, Option.map_some, Option.map_some, hq]

/-- A level is the sum of the orders shown at it. -/
theorem recorded_eq (hf : Follows b v) (h : Half) (p : ℤ) {ids : List ℕ} (hnd : ids.Nodup)
    (hall : ∀ id z, v id = some z → z.half = h → z.price = p → id ∈ ids) :
    b.recorded h p = (ids.map fun id => ((v id).map (Shown.on h p)).getD 0).sum := by
  have hshare : ∀ id, b.orders.share
      (fun _ o => if o.bookHalf = some h ∧ o.price = p then o.remainQuantity else 0) id =
      ((v id).map (Shown.on h p)).getD 0 := by
    intro id
    rcases hv : v id with _ | z
    · rw [OrdMap.share, hf.find_none hv]; rfl
    · obtain ⟨x, hx, hh, hp, hq⟩ := hf.find_some hv
      simp only [OrdMap.share, hx, Option.map_some, Option.getD_some, hh, hp, hq, Shown.on,
        Option.some.injEq]
  rw [recorded, OrdMap.total_eq_sum ids hnd fun id hne => ?_]
  · exact congrArg List.sum (List.map_congr_left fun id _ => hshare id)
  · rw [hshare] at hne
    rcases hv : v id with _ | z
    · rw [hv] at hne
      exact absurd rfl hne
    · rw [hv, Option.map_some, Option.getD_some, Shown.on] at hne
      split_ifs at hne with hc
      · exact hall id z hv hc.1 hc.2
      · exact absurd rfl hne

/-- A report that is steady, does not carry, and is heard when its order is known. -/
theorem report (hf : Follows b v)
    (hskip : o.price = stopPrice ∨ o.bookHalf = none → v o.orderId = none) (hst : b.Steady o)
    (hc : (b.handleOdr o).1.NoCarry) :
    Follows (b.handleOdr o).1 (Function.update v o.orderId o.shown) := by
  refine ⟨fun id => ?_, (hf.sums.handleOdr hst hc).1, hc⟩
  rw [Function.update_apply]
  by_cases hs : o.price = stopPrice ∨ o.bookHalf = none
  · have hnone : o.shown = none := Order.shown_eq_none.mpr (hs.imp_right Or.inr)
    rw [handleOdr_skip b hs, hf.known, hnone]
    split_ifs with hid
    · rw [hid, hskip hs]
    · rfl
  · obtain ⟨hp, hn⟩ := not_or.mp hs
    obtain ⟨h, hh⟩ := Option.ne_none_iff_exists'.mp hn
    rw [handleOdr_eq b hp hh]
    show ((b.record o).find? id).map _ = _
    unfold record
    by_cases hq : o.calcRemainQuantity = 0
    · rw [if_pos hq, OrdMap.find?_erase, Order.shown_eq_none.mpr (Or.inr (Or.inl hq))]
      split_ifs
      · rfl
      · exact hf.known id
    · have hsome : o.shown = some ⟨h, o.price, o.calcRemainQuantity⟩ :=
        Order.shown_eq_some.mpr ⟨hp, hq, hh, rfl, rfl⟩
      rw [if_neg hq, OrdMap.find?_insert, hsome]
      split_ifs
      · rcases hx : b.orders.find? o.orderId with _ | x
        · simp [Order.bookHalf, ← hh]
        · obtain ⟨hxp, hxh⟩ := hst hp h hh x hx
          simp [hxp, ← hxh, Order.bookHalf]
      · exact hf.known id

theorem congr {v' : ℕ → Option Shown} (hf : Follows b v) (h : ∀ id, v id = v' id) : Follows b v' :=
  ⟨fun id => by rw [← h]; exact hf.known id, hf.sums, hf.carry⟩

theorem steady (hf : Follows b v)
    (h : ∀ z, v o.orderId = some z → o.price ≠ stopPrice → ∀ h, o.bookHalf = some h →
      z.price = o.price ∧ z.half = h) : b.Steady o := by
  intro hp h' hh x hx
  rcases hv : v o.orderId with _ | z
  · rw [hf.find_none hv] at hx
    cases hx
  · obtain ⟨x', hx', hxh, hxp, _⟩ := hf.find_some hv
    obtain rfl := Option.some.inj (hx'.symm.trans hx)
    obtain ⟨hzp, rfl⟩ := h z hv hp h' hh
    exact ⟨hxp.trans hzp, hxh⟩

/-- A report with no more left of an order that is shown as `m`. -/
theorem follow (hf : Follows b v) (hm : v o.orderId = m.shown) (hp : o.price = m.price)
    (hh : o.bookHalf = m.bookHalf) (hle : o.calcRemainQuantity ≤ m.calcRemainQuantity) :
    Follows (b.handleOdr o).1 (Function.update v o.orderId o.shown) := by
  refine hf.report (fun hs => ?_) (hf.steady fun z hz _ h' hh' => ?_)
    (hf.carry.handleOdr hf.sums fun hne h' hh' hlt => ?_)
  · rw [hm, Order.shown_eq_none, ← hp, ← hh]
    exact hs.imp_right Or.inr
  · obtain ⟨_, _, hzh, hzp, _⟩ := Order.shown_eq_some.mp (hm.symm.trans hz)
    exact ⟨hzp.trans hp.symm, Option.some.inj (hzh.symm.trans (hh.symm.trans hh'))⟩
  · rw [hf.recordOf_eq, hm] at hlt ⊢
    rcases hz : m.shown with _ | z
    · rcases Order.shown_eq_none.mp hz with hs | hs | hs
      · exact absurd (hp.trans hs) hne
      · omega
      · rw [hh, hs] at hh'
        cases hh'
    · obtain ⟨_, _, _, _, hzq⟩ := Order.shown_eq_some.mp hz
      rw [hz, Option.map_some, Option.getD_some, hzq] at hlt
      omega

/-- A report of an order that is not shown yet. -/
theorem add (hf : Follows b v) (hv : v o.orderId = none)
    (hbound : ∀ z, o.shown = some z → b.recorded z.half z.price + z.quantity < 2 ^ 64) :
    Follows (b.handleOdr o).1 (Function.update v o.orderId o.shown) := by
  refine hf.report (fun _ => hv) (hf.steady fun z hz => ?_)
    (hf.carry.handleOdr hf.sums fun hne h' hh' hlt => ?_)
  · rw [hv] at hz
    cases hz
  · have hz :=
      hbound ⟨h', o.price, o.calcRemainQuantity⟩
        (Order.shown_eq_some.mpr ⟨hne, by omega, hh', rfl, rfl⟩)
    exact (Nat.add_le_add_left (Nat.sub_le _ _) _).trans_lt hz

end Follows

/-! ### Reports that keep half and price -/

/-- A report of an order of which something is left has its price and its half. -/
def Keeps (v : ℕ → Option Shown) (o : Order) : Prop :=
  ∀ z, v o.orderId = some z → o.price = z.price ∧ o.bookHalf = some z.half

theorem Follows.steady_of_keeps (hf : Follows b v) (hk : Keeps v o) : b.Steady o := by
  refine hf.steady fun z hz _ h hh => ?_
  obtain ⟨hp, hzh⟩ := hk z hz
  exact ⟨hp.symm, Option.some.inj (hzh.symm.trans hh)⟩

/-- One report that keeps half and price. -/
theorem Follows.keep (hf : Follows b v) (hv : ∀ id z, v id = some z → z.price ≠ stopPrice)
    (hk : Keeps v o) (hc : (b.handleOdr o).1.NoCarry) :
    Follows (b.handleOdr o).1 (Function.update v o.orderId o.shown) := by
  refine hf.report (fun hskip => ?_) (hf.steady_of_keeps hk) hc
  rcases hz : v o.orderId with _ | z
  · rfl
  · obtain ⟨hp, hh⟩ := hk z hz
    rcases hskip with hs | hn
    · exact absurd (hp.symm.trans hs) (hv _ z hz)
    · rw [hn] at hh
      cases hh

end Md
end Matching
