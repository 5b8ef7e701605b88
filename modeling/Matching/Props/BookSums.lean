import Mathlib.Data.List.Induction
import Matching.Md.Mirror

/-! A `basic_book` after any stream of reports in which an order on record keeps its half
    and price: the orders on record are those whose last report leaves something of them,
    every level is the sum of the orders on record there, and the item a call returns tells
    the one level that changed. -/

namespace Matching.Md

open BasicBook

variable {b : BasicBook} {v : ℕ → Option Shown} {o : Order} {rs : List Order} {id : ℕ} {z : Shown}

/-! ### Reports that change nothing -/

/-- The book brings nothing new to one that has it on record already. -/
theorem BasicBook.handleOdr_same (hrec : ∀ id x, b.orders.find? id = some x → x.remainQuantity ≠ 0)
    (h : b.recordOf o.orderId = o.calcRemainQuantity) : b.handleOdr o = (b, .default) := by
  by_cases hskip : o.price = stopPrice ∨ o.bookHalf = none
  · exact handleOdr_skip b hskip
  obtain ⟨hp, hn⟩ := not_or.mp hskip
  obtain ⟨half, hh⟩ := Option.ne_none_iff_exists'.mp hn
  have hrecord : b.record o = b.orders := by
    rw [record]
    rcases hx : b.orders.find? o.orderId with _ | x
    · rw [recordOf, hx] at h
      have hq : o.calcRemainQuantity = 0 := h.symm
      rw [if_pos hq, OrdMap.erase_none hx]
    · rw [recordOf, hx] at h
      have hq : x.remainQuantity = o.calcRemainQuantity := h
      rw [if_neg (hq ▸ hrec _ x hx), ← hq]
      exact OrdMap.insert_self hx
  rw [handleOdr_eq b hp hh, hrecord, h, moveQuantity, if_neg (lt_irrefl _), if_neg (lt_irrefl _)]

/-- What is on record after a report that is heard. -/
theorem BasicBook.recordOf_handleOdr (hp : o.price ≠ stopPrice) (hn : o.bookHalf ≠ none) :
    (b.handleOdr o).1.recordOf o.orderId = o.calcRemainQuantity := by
  obtain ⟨half, hh⟩ := Option.ne_none_iff_exists'.mp hn
  rw [handleOdr_eq b hp hh]
  show (((b.record o).find? o.orderId).map Order.remainQuantity).getD 0 = _
  unfold record
  split_ifs with hq
  · rw [OrdMap.find?_erase, if_pos rfl, hq]
    rfl
  · rw [OrdMap.find?_insert, if_pos rfl]
    rfl

namespace Follows

theorem record_ne_zero (hf : Follows b v) (hv : ∀ id z, v id = some z → z.quantity ≠ 0) {x : Order}
    (hx : b.orders.find? id = some x) : x.remainQuantity ≠ 0 := by
  have hk := hf.known id
  rcases hz : v id with _ | z
  · rw [hf.find_none hz] at hx
    cases hx
  · rw [hx, hz] at hk
    simp only [Option.map_some, Option.some.injEq, Prod.mk.injEq] at hk
    rw [hk.2.2]
    exact hv id z hz

end Follows

/-! ### Streams -/

/-- The last report of an order. -/
def lastOf (rs : List Order) (id : ℕ) : Option Order := rs.reverse.find? fun o => o.orderId = id

/-- What the last reports leave of the orders. -/
def lastShown (rs : List Order) (id : ℕ) : Option Shown := (lastOf rs id).bind Order.shown

/-- Every report of the stream does, when it comes. -/
def Keeping (rs : List Order) : Prop := ∀ rs1 o rs2, rs = rs1 ++ o :: rs2 → Keeps (lastShown rs1) o

theorem lastShown_concat (rs : List Order) (o : Order) :
    lastShown (rs ++ [o]) = Function.update (lastShown rs) o.orderId o.shown := by
  funext id
  rw [Function.update_apply, lastShown, lastOf, List.reverse_append, List.reverse_singleton,
    List.singleton_append, List.find?_cons]
  by_cases hid : o.orderId = id
  · simp [hid]
  · simp only [hid, decide_false]
    rw [if_neg fun he => hid he.symm]
    rfl

theorem lastShown_pos (h : lastShown rs id = some z) : z.price ≠ stopPrice ∧ z.quantity ≠ 0 := by
  obtain ⟨o, _, ho⟩ := Option.bind_eq_some_iff.mp h
  obtain ⟨hp, hq, _, hzp, hzq⟩ := Order.shown_eq_some.mp ho
  exact ⟨hzp ▸ hp, hzq ▸ hq⟩

theorem Keeping.left (h : Keeping (rs ++ [o])) : Keeping rs :=
  fun rs1 x rs2 he => h rs1 x (rs2 ++ [o]) (by rw [he]; simp)

theorem Keeping.nil : Keeping [] := fun rs1 o rs2 he => by simp at he

theorem Keeping.concat (h : Keeping rs) (ho : Keeps (lastShown rs) o) : Keeping (rs ++ [o]) := by
  intro rs1 x rs2 he
  rcases rs2.eq_nil_or_concat with rfl | ⟨rs2, y, rfl⟩
  · obtain ⟨rfl, hlast⟩ := List.append_inj' he rfl
    obtain ⟨rfl, -⟩ := List.cons.inj hlast
    exact ho
  · rw [List.concat_eq_append, ← List.cons_append, ← List.append_assoc] at he
    exact h rs1 x rs2 (List.append_inj' he rfl).1

theorem Keeping.last (h : Keeping (rs ++ [o])) : Keeps (lastShown rs) o := h rs o [] rfl

/-- The orders on record are what the last reports leave. -/
theorem feed_follows (rs : List Order) (hk : Keeping rs) (hc : (BasicBook.empty.feed rs).NoCarry) :
    Follows (BasicBook.empty.feed rs) (lastShown rs) := by
  induction rs using List.reverseRecOn with
  | nil => exact Follows.empty
  | append_singleton rs o ih =>
    rw [feed_append] at hc ⊢
    obtain ⟨_, hw⟩ := handleOdr_within (BasicBook.empty.feed rs) o
    have hf := ih hk.left (NoCarry.of_within hw hc)
    rw [lastShown_concat]
    exact hf.keep (fun _ _ hz => (lastShown_pos hz).1) hk.last hc

/-- The one level a report changed. -/
structure Tells (b b' : BasicBook) (item : BookItem) : Prop where
  none_iff : item.side = .none ↔ b' = b
  level : ∀ h : Half, item.side = h.side →
    (b'.half h).find? item.price = levelAt h item.price item.quantity
  rest : ∀ (h : Half) p, ¬(item.side = h.side ∧ item.price = p) →
    (b'.half h).find? p = (b.half h).find? p
  known : item.side = .none ∨ ∃ h : Half, item.side = h.side

/-- The item of a report that is heard tells the level it moves. -/
theorem BasicBook.Sums.tells {extra : Half → ℤ → ℕ} (hsum : b.Sums extra) (hs : b.Steady o)
    (hc : (b.handleOdr o).1.NoCarry)
    (hrec : ∀ id x, b.orders.find? id = some x → x.remainQuantity ≠ 0) :
    Tells b (b.handleOdr o).1 (b.handleOdr o).2 := by
  have hnothing : b.handleOdr o = (b, .default) → Tells b (b.handleOdr o).1 (b.handleOdr o).2 := by
    intro he
    rw [he]
    exact ⟨⟨fun _ => rfl, fun _ => rfl⟩, fun h hside => absurd hside.symm h.side_ne_none,
      fun _ _ _ => rfl, Or.inl rfl⟩
  by_cases hskip : o.price = stopPrice ∨ o.bookHalf = none
  · exact hnothing (handleOdr_skip b hskip)
  obtain ⟨hp, hn⟩ := not_or.mp hskip
  obtain ⟨half, hh⟩ := Option.ne_none_iff_exists'.mp hn
  rcases Decidable.em (b.recordOf o.orderId = o.calcRemainQuantity) with hsame | hnew
  · exact hnothing (handleOdr_same hrec hsame)
  have hchanged : (b.handleOdr o).1 ≠ b := by
    intro he
    have := recordOf_handleOdr (b := b) hp hn
    rw [he] at this
    exact hnew this
  have heq := handleOdr_eq b hp hh
  have hle : b.recordOf o.orderId ≤ b.recorded half o.price + extra half o.price :=
    Nat.le_trans (recordOf_le hs hp hh) (Nat.le_add_right ..)
  have hmoves := moveQuantity_moves (hsum.shows half) hle (by rw [heq] at hc; exact hc)
  have hshows : ∀ h' p, ((b.handleOdr o).1.half h').find? p =
      ((b.moveQuantity half o.price
        (b.recordOf o.orderId) o.calcRemainQuantity).1.half h').find? p := by
    intro h' p
    rw [heq]
    cases h' <;> rfl
  obtain ⟨q, hq, hitem⟩ : ∃ q, q =
      b.recorded half o.price + extra half o.price - b.recordOf o.orderId + o.calcRemainQuantity ∧
      (b.handleOdr o).2 = ⟨o.price, q, half.side, 0⟩ := by
    refine ⟨_, rfl, ?_⟩
    rw [heq]
    rcases hmoves.told with ⟨hsame, _⟩ | htold
    · omega
    · exact htold
  rw [hitem]
  refine ⟨⟨fun hside => absurd hside half.side_ne_none, fun he => absurd he hchanged⟩,
    fun h' hside => ?_, fun h' p hne => ?_, Or.inr ⟨half, rfl⟩⟩
  · obtain rfl := Half.side_inj hside
    rw [hshows, hmoves.shows, Function.update_self, hq]
  · rw [hshows]
    rcases half.eq_or_opp h' with rfl | rfl
    · have hp : p ≠ o.price := fun hp => hne ⟨rfl, hp.symm⟩
      rw [hmoves.shows, Function.update_of_ne hp, hsum.shows]
    · rw [hmoves.other]

/-- After every report of a stream in which orders on record keep half and price, unless an addition
    to a level has come to 2^64: the orders on record are what the last reports leave, none of them
    empty; every level is the sum of the orders on record there, and there is none for 0; no
    reduction missed its level or took more than it held; the item tells the level that changed; and
    the same report once more changes nothing. -/
theorem feed_levels (hk : Keeping (rs ++ [o])) (hc : (BasicBook.empty.feed (rs ++ [o])).NoCarry) :
    let b := BasicBook.empty.feed rs
    let b' := BasicBook.empty.feed (rs ++ [o])
    (∀ id, (b'.orders.find? id).map (fun x => (x.bookHalf, x.price, x.remainQuantity)) =
      (lastShown (rs ++ [o]) id).map fun z => (some z.half, z.price, z.quantity)) ∧
    (∀ id x, b'.orders.find? id = some x → x.remainQuantity ≠ 0) ∧
    (∀ (h : Half) p, (b'.half h).find? p = levelAt h p (b'.recorded h p)) ∧
    b'.Backed ∧ Tells b b' (b.handleOdr o).2 ∧ b'.handleOdr o = (b', .default) := by
  intro b b'
  have hf' : Follows b' (lastShown (rs ++ [o])) := feed_follows _ hk hc
  have hb' : b' = (b.handleOdr o).1 := feed_append ..
  have hc' : (b.handleOdr o).1.NoCarry := hb' ▸ hc
  obtain ⟨_, hw⟩ := handleOdr_within b o
  have hf : Follows b (lastShown rs) := feed_follows _ hk.left (NoCarry.of_within hw hc')
  have hrec' : ∀ id x, b'.orders.find? id = some x → x.remainQuantity ≠ 0 := fun id x hx =>
    hf'.record_ne_zero (fun _ _ hz => (lastShown_pos hz).2) hx
  have hrec : ∀ id x, b.orders.find? id = some x → x.remainQuantity ≠ 0 := fun id x hx =>
    hf.record_ne_zero (fun _ _ hz => (lastShown_pos hz).2) hx
  refine ⟨hf'.known, hrec', fun h p => hf'.sums.shows h p, hf'.sums.backed, ?_, ?_⟩
  · rw [hb']
    exact hf.sums.tells (hf.steady_of_keeps hk.last) hc' hrec
  · by_cases hskip : o.price = stopPrice ∨ o.bookHalf = none
    · exact handleOdr_skip b' hskip
    · obtain ⟨hp, hn⟩ := not_or.mp hskip
      exact handleOdr_same hrec' (by rw [hb']; exact recordOf_handleOdr hp hn)

/-- Two bids at one price, one of them filled in part. -/
def partReports : List Order :=
  [.resting 1 .buy 100 5, .resting 2 .buy 100 7,
    { Order.resting 1 .buy 100 5 with orderState := .partialFill, remainQuantity := 2 }]

theorem feed_levels_partReports :
    (BasicBook.empty.feed partReports).bid.find? 100 = some ⟨100, 9, .bid, 0⟩ ∧
      Tells (BasicBook.empty.feed (partReports.take 2)) (BasicBook.empty.feed partReports)
        ⟨100, 9, .bid, 0⟩ := by
  have hkeep : Keeping (partReports.take 2 ++ [partReports.getLast (by decide)]) := by
    refine ((Keeping.nil.concat ?_).concat ?_).concat ?_
    · exact fun z hz => by cases hz
    · exact fun z hz => by cases hz
    · intro z hz
      obtain rfl : ⟨.bid, 100, 5⟩ = z := Option.some.inj hz
      exact ⟨rfl, rfl⟩
  have h := feed_levels hkeep (by decide +kernel)
  exact ⟨by decide +kernel, h.2.2.2.2.1⟩

/-- Two bids of 2^63 at one price: the level wraps to 0, and is there. -/
theorem resting_wraps :
    let b := BasicBook.empty.feed [.resting 1 .buy 100 (2 ^ 63), .resting 2 .buy 100 (2 ^ 63)]
    b.bid.find? 100 = some ⟨100, 0, .bid, 0⟩ ∧ b.recorded .bid 100 = 2 ^ 64 := by decide +kernel

end Matching.Md
