import Matching.Md.Levels
import Matching.Proxy.Print

/-! The top prices and the last-valid copy of the proxy's order book over every run of updates and
    broadcast ticks. The top of a half is kept up to date item by item (`Books.Kept.update`), a tick
    only drops empty levels (`Books.Kept.tick`), and the copy is what an observer of the updates
    noted when the book was last uncrossed (`noted`); so the copy never crosses. -/

namespace Matching.Proxy

open Md

/-- A price an item may have: between the two sentinels. -/
def Between (p : ℤ) : Prop := -2 ^ 63 < p ∧ p < 2 ^ 63 - 1

instance (p : ℤ) : Decidable (Between p) := inferInstanceAs (Decidable (_ ∧ _))

/-- The best price with a quantity, or the sentinel when there is none. -/
def IsTop (h : Half) (m : BookMap) (px : ℤ) : Prop :=
  (0 < m.qty px ∧ ∀ p, 0 < m.qty p → h.better p px = false) ∨ (px = h.worst ∧ ∀ p, m.qty p = 0)

/-- Every item is stored under its price, between the sentinels. -/
def Placed (m : BookMap) : Prop := ∀ k v, m.find? k = some v → v.price = k ∧ Between k

variable {h : Half} {n : ℕ} {m : BookMap} {g : Books} {o : BookItem} {p px : ℤ}

theorem qty_pos : 0 < m.qty p ↔ ∃ v, m.find? p = some v ∧ 0 < v.quantity := by
  unfold BookMap.qty
  rcases m.find? p with _ | v
  · simp
  · simp

theorem qty_insert (p : ℤ) :
    BookMap.qty (m.insert o.price o) p = if p = o.price then o.quantity else m.qty p := by
  unfold BookMap.qty
  rw [OrdMap.find?_insert]
  split_ifs
  · rfl
  · rfl

/-- Dropping empty levels only. -/
theorem qty_filter {keep : ℤ × BookItem → Bool}
    (hk : ∀ x ∈ m.entries, keep x = false → x.2.quantity = 0) (p : ℤ) :
    BookMap.qty (m.filter keep) p = m.qty p := by
  have hsub : ∀ v, (m.filter keep).find? p = some v → m.find? p = some v :=
    fun v hv => ((OrdMap.find?_filter keep m).mp hv).1
  rcases hm : m.find? p with _ | v
  · rcases hf : (m.filter keep).find? p with _ | v
    · rw [BookMap.qty, BookMap.qty, hm, hf]
    · rw [hsub v hf] at hm
      cases hm
  · rcases hf : (m.filter keep).find? p with _ | u
    · have hq : v.quantity = 0 := hk (p, v) (OrdMap.mem_entries.mpr hm) (by
        rcases hkeep : keep (p, v) with _ | _
        · rfl
        · rw [(OrdMap.find?_filter keep m).mpr ⟨hm, hkeep⟩] at hf
          cases hf)
      rw [BookMap.qty, BookMap.qty, hm, hf]
      exact hq.symm
    · obtain rfl := Option.some.inj ((hsub u hf).symm.trans hm)
      rw [BookMap.qty, BookMap.qty, hm, hf]

theorem Placed.insert (hm : Placed m) (ho : Between o.price) : Placed (m.insert o.price o) := by
  intro k v hk
  rw [OrdMap.find?_insert] at hk
  split_ifs at hk with hko
  · obtain rfl := Option.some.inj hk
    exact ⟨hko.symm, hko ▸ ho⟩
  · exact hm k v hk

theorem Placed.filter (hm : Placed m) (keep : ℤ × BookItem → Bool) : Placed (m.filter keep) :=
  fun k v hk => hm k v ((OrdMap.find?_filter keep m).mp hk).1

theorem Placed.between (hm : Placed m) (hp : 0 < m.qty p) : Between p := by
  obtain ⟨v, hv, _⟩ := qty_pos.mp hp
  exact (hm p v hv).2

/-- A price between the sentinels is better than that of an empty half. -/
theorem Between.better_worst (hp : Between p) (h : Half) : h.better p h.worst = true := by
  obtain ⟨hlo, hhi⟩ := hp
  cases h with
  | bid => exact decide_eq_true hlo
  | ask => exact decide_eq_true hhi

/-! ### The top of one half -/

theorem IsTop.congr {m' : BookMap} (ht : IsTop h m px) (hq : ∀ p, BookMap.qty m' p = m.qty p) :
    IsTop h m' px := by
  simpa only [IsTop, hq] using ht

/-- A scan from the best end finds the top. -/
theorem isTop_firstPx (hm : Placed m) : IsTop h m (firstPx h m) := by
  have hpriced : Priced m := fun k v hk => (hm k v hk).1
  rcases hfind : (h.scan m).find? (fun x => decide (0 < x.2.quantity)) with _ | x
  · refine Or.inr ⟨by rw [firstPx, hfind], fun p => ?_⟩
    by_contra hq
    obtain ⟨v, hv, hpos⟩ := qty_pos.mp (Nat.pos_of_ne_zero hq)
    have hnone := List.find?_eq_none.mp hfind (p, v) (Half.mem_scan.mpr hv)
    simp only [decide_eq_true_eq] at hnone
    exact hnone hpos
  · have hx : m.find? x.1 = some x.2 := Half.mem_scan.mp (List.mem_of_find?_eq_some hfind)
    have hpos : 0 < x.2.quantity := by simpa using List.find?_some hfind
    have hpx : firstPx h m = x.1 := by
      rw [firstPx, hfind]
      exact hpriced _ _ hx
    refine Or.inl ⟨?_, fun p hp => ?_⟩
    · rw [hpx]
      exact qty_pos.mpr ⟨x.2, hx, hpos⟩
    · obtain ⟨v, hv, hvpos⟩ := qty_pos.mp hp
      exact firstPx_best hpriced hv hvpos.ne'

/-- What holds of one half between two steps. -/
structure Books.Kept (h : Half) (g : Books) : Prop where
  live : Placed g.live
  lastValid : Placed g.lastValid
  top : IsTop h g.live g.topPx

namespace Books.Kept

theorem empty (h : Half) : (Books.empty h).Kept h :=
  ⟨fun _ _ hk => (nomatch hk), fun _ _ hk => (nomatch hk), Or.inr ⟨rfl, fun _ => rfl⟩⟩

/-- The incremental top: a better item takes it, an empty one at the top makes the half search, and
    any other leaves it. -/
theorem update (hg : g.Kept h) (ho : Between o.price) : (g.update h o).Kept h := by
  have hlive : Placed (g.live.insert o.price o) := hg.live.insert ho
  refine ⟨hlive, hg.lastValid, ?_⟩
  have hqty := fun p => qty_insert (m := g.live) (o := o) p
  show IsTop h (g.live.insert o.price o) (if 0 < o.quantity ∧ h.better o.price g.topPx then o.price
    else if o.quantity = 0 ∧ o.price = g.topPx then firstPx h
      (g.live.insert o.price o) else g.topPx)
  split_ifs with hbetter hgone
  · obtain ⟨hpos, hlt⟩ := hbetter
    refine Or.inl ⟨by rwa [hqty, if_pos rfl], fun p hp => ?_⟩
    rcases hb : h.better p o.price with _ | _
    · rfl
    · have hne : p ≠ o.price := fun he => Ranked.not_self (he ▸ hb)
      rw [hqty, if_neg hne] at hp
      rcases hg.top with ⟨_, hmax⟩ | ⟨_, hnone⟩
      · exact (StrictLt.trans hb hlt).symm.trans (hmax p hp)
      · rw [hnone p] at hp
        cases hp
  · exact isTop_firstPx hlive
  · rcases hg.top with ⟨htop, hmax⟩ | ⟨hworst, hnone⟩
    · have hother : ∀ p, 0 < BookMap.qty (g.live.insert o.price o) p →
        h.better p g.topPx = false := by
        intro p hp
        rw [hqty] at hp
        split_ifs at hp with hpo
        · rw [hpo]
          exact Bool.eq_false_iff.mpr fun hb => hbetter ⟨hp, hb⟩
        · exact hmax p hp
      refine Or.inl ⟨?_, hother⟩
      rw [hqty]
      split_ifs with heq
      · exact Nat.pos_of_ne_zero fun h0 => hgone ⟨h0, heq.symm⟩
      · exact htop
    · have hempty : o.quantity = 0 := by
        by_contra hq
        refine hbetter ⟨Nat.pos_of_ne_zero hq, ?_⟩
        rw [hworst]
        exact ho.better_worst h
      refine Or.inr ⟨hworst, fun p => ?_⟩
      rw [hqty]
      split_ifs
      · exact hempty
      · exact hnone p

theorem settle_eq (hg : g.Kept h) : g.settle h = g := by
  unfold Books.settle
  split_ifs with hnil
  · have hnone : ∀ p, g.live.qty p = 0 := fun p => by rw [BookMap.qty, OrdMap.find?, hnil]; rfl
    rcases hg.top with ⟨htop, _⟩ | ⟨hworst, _⟩
    · rw [hnone] at htop
      cases htop
    · rw [← hworst]
  · rfl

theorem valid (hg : g.Kept h) : Kept h { g with lastValid := g.live } := ⟨hg.live, hg.live, hg.top⟩

end Books.Kept

/-- A tick drops empty levels of both books. -/
theorem Books.tick_qty (g : Books) (h : Half) (n : ℕ) (p : ℤ) :
    BookMap.qty (g.tick h n).1.live p = g.live.qty p ∧
      BookMap.qty (g.tick h n).1.lastValid p = g.lastValid.qty p := by
  constructor
  · refine qty_filter (fun x _ hx => ?_) p
    simp only [Bool.or_eq_false_iff, decide_eq_false_iff_not, not_not] at hx
    exact hx.1
  · exact qty_filter (fun x _ hx => by simpa using hx) p

theorem Books.Kept.tick (hg : g.Kept h) (n : ℕ) : (g.tick h n).1.Kept h := by
  have hlive : ∀ p, BookMap.qty (g.tick h n).1.live p = g.live.qty p :=
    fun p => (g.tick_qty h n p).1
  refine ⟨hg.live.filter _, hg.lastValid.filter _, ?_⟩
  show IsTop h (g.tick h n).1.live (if (g.tick h n).1.live.entries = [] then h.worst else g.topPx)
  split_ifs with hnil
  · exact Or.inr ⟨rfl, fun p => by rw [BookMap.qty, OrdMap.find?, hnil]; rfl⟩
  · exact hg.top.congr hlive

/-! ### Both halves -/

/-- The book is not crossed. -/
def Uncrossed (b : OrderBook) : Prop := b.bid.topPx < b.ask.topPx

instance (b : OrderBook) : Decidable (Uncrossed b) := inferInstanceAs (Decidable (_ < _))

/-- What an observer of both books notes: their quantities after the most recent update that left
    the top prices uncrossed. -/
def noted (n : ℕ) : State → (Half → ℤ → ℕ) → List Op → Half → ℤ → ℕ
  | _, z, [] => z
  | s, z, .tick :: ops => noted n (s.step n .tick) z ops
  | s, z, .update o :: ops =>
    let s' := s.step n (.update o)
    noted n s' (if Uncrossed s'.book then fun h => (s'.book.half h).live.qty else z) ops

/-- What holds between two steps; `z` is what the observer noted. -/
structure State.Valid (s : State) (z : Half → ℤ → ℕ) : Prop where
  kept : ∀ h, (s.book.half h).Kept h
  noted : ∀ h p, (s.book.half h).lastValid.qty p = z h p
  lt : ∀ p q, 0 < z .bid p → 0 < z .ask q → p < q

namespace State.Valid

variable {s : State} {z : Half → ℤ → ℕ}

theorem init : State.init.Valid (fun _ _ => 0) := by
  refine ⟨fun h => ?_, fun h p => ?_, fun p q hp => by cases hp⟩
  · cases h
    · exact Books.Kept.empty .bid
    · exact Books.Kept.empty .ask
  · cases h
    · rfl
    · rfl

theorem store_kept (hs : s.Valid z) (ho : Between o.price) (h : Half) :
    ((s.book.store o).half h).Kept h := by
  have hbid := hs.kept .bid
  have hask := hs.kept .ask
  unfold OrderBook.store
  cases o.side <;> cases h
  case bid.bid => exact hbid.update ho
  case ask.ask => exact hask.update ho
  all_goals first | exact hbid | exact hask

theorem store_lastValid (s : State) (o : BookItem) (h : Half) :
    ((s.book.store o).half h).lastValid = (s.book.half h).lastValid := by
  unfold OrderBook.store
  cases o.side <;> cases h <;> rfl

/-- `update`, once the items are stored: nothing is left to settle. -/
theorem update_eq (hs : s.Valid z) (ho : Between o.price) : s.book.update o =
    if Uncrossed (s.book.store o) then
      ⟨{ (s.book.store o).bid with lastValid := (s.book.store o).bid.live },
        { (s.book.store o).ask with lastValid := (s.book.store o).ask.live }⟩
    else s.book.store o := by
  have hbid : (s.book.store o).bid.settle .bid = (s.book.store o).bid :=
    (hs.store_kept ho .bid).settle_eq
  have hask : (s.book.store o).ask.settle .ask = (s.book.store o).ask :=
    (hs.store_kept ho .ask).settle_eq
  simp only [OrderBook.update, hbid, hask]
  rfl

theorem uncrossed_update (hs : s.Valid z) (ho : Between o.price) :
    Uncrossed (s.book.update o) ↔ Uncrossed (s.book.store o) := by
  rw [hs.update_eq ho]
  split_ifs
  · rfl
  · rfl

/-- Positive quantities of an uncrossed book do not cross. -/
theorem lt_of_uncrossed {b : OrderBook} (hb : IsTop .bid b.bid.live b.bid.topPx)
    (ha : IsTop .ask b.ask.live b.ask.topPx) (hlt : Uncrossed b) {p q : ℤ}
    (hp : 0 < b.bid.live.qty p) (hq : 0 < b.ask.live.qty q) : p < q := by
  have hpb : p ≤ b.bid.topPx := by
    rcases hb with ⟨_, hmax⟩ | ⟨_, hnone⟩
    · simpa [Half.better] using hmax p hp
    · rw [hnone p] at hp
      cases hp
  have hqa : b.ask.topPx ≤ q := by
    rcases ha with ⟨_, hmin⟩ | ⟨_, hnone⟩
    · simpa [Half.better] using hmin q hq
    · rw [hnone q] at hq
      cases hq
  exact lt_of_le_of_lt hpb (lt_of_lt_of_le hlt hqa)

theorem update (hs : s.Valid z) (ho : Between o.price) : (s.step n (.update o)).Valid
    (if Uncrossed (s.step n (.update o)).book then fun h =>
      ((s.step n (.update o)).book.half h).live.qty else z) := by
  have hkept := hs.store_kept ho
  have hbook : (s.step n (.update o)).book = s.book.update o := rfl
  rw [hbook]
  by_cases hu : Uncrossed (s.book.store o)
  · rw [if_pos ((hs.uncrossed_update ho).mpr hu)]
    have heq : s.book.update o = _ := (hs.update_eq ho).trans (if_pos hu)
    refine ⟨fun h => ?_, fun h p => ?_, fun p q hp hq => ?_⟩
    · rw [hbook, heq]
      cases h
      · exact (hkept .bid).valid
      · exact (hkept .ask).valid
    · rw [hbook, heq]
      cases h
      · rfl
      · rfl
    · rw [heq] at hp hq
      exact lt_of_uncrossed (hkept .bid).top (hkept .ask).top hu hp hq
  · rw [if_neg fun hc => hu ((hs.uncrossed_update ho).mp hc)]
    have heq : s.book.update o = s.book.store o := (hs.update_eq ho).trans (if_neg hu)
    refine ⟨fun h => ?_, fun h p => ?_, hs.lt⟩
    · rw [hbook, heq]
      exact hkept h
    · rw [hbook, heq, store_lastValid]
      exact hs.noted h p

theorem tick (hs : s.Valid z) : (s.step n .tick).Valid z := by
  refine ⟨fun h => ?_, fun h p => ?_, hs.lt⟩
  · cases h
    · exact (hs.kept .bid).tick n
    · exact (hs.kept .ask).tick n
  · rw [← hs.noted h p]
    cases h
    · exact (s.book.bid.tick_qty .bid n p).2
    · exact (s.book.ask.tick_qty .ask n p).2

end State.Valid

/-- Every run from a valid state. -/
theorem valid_run (n : ℕ) (ops : List Op) (hops : ∀ o, Op.update o ∈ ops → Between o.price)
    {s : State} {z : Half → ℤ → ℕ} (hs : s.Valid z) :
    (ops.foldl (State.step n) s).Valid (noted n s z ops) := by
  induction ops generalizing s z with
  | nil => exact hs
  | cons op ops ih =>
    have hrest : ∀ o, Op.update o ∈ ops → Between o.price :=
      fun o ho => hops o (List.mem_cons_of_mem _ ho)
    cases op with
    | update o => exact ih hrest (hs.update (hops o List.mem_cons_self))
    | tick => exact ih hrest hs.tick

/-- After any updates between the sentinels and any ticks: the top prices are those of the books,
    the last-valid books are what was noted after the most recent update that left the top prices
    uncrossed, their positive levels do not cross, and printing them does not exit. -/
theorem run_top (n : ℕ) (ops : List Op) (hops : ∀ o, Op.update o ∈ ops → Between o.price) :
    let b := (run n ops).book
    (∀ h, IsTop h (b.half h).live (b.half h).topPx) ∧
    (∀ h p, (b.half h).lastValid.qty p = noted n .init (fun _ _ => 0) ops h p) ∧
    (∀ p q, 0 < b.bid.lastValid.qty p → 0 < b.ask.lastValid.qty q → p < q) ∧
    printBidsAsks b.bid.lastValid b.ask.lastValid ≠ .exited := by
  intro b
  have hv : (run n ops).Valid (noted n .init (fun _ _ => 0) ops) :=
    valid_run n ops hops State.Valid.init
  have hlt : ∀ p q, 0 < b.bid.lastValid.qty p → 0 < b.ask.lastValid.qty q → p < q := by
    intro p q hp hq
    have hpn := hv.noted .bid p
    have hqn := hv.noted .ask q
    exact hv.lt p q (hpn ▸ hp) (hqn ▸ hq)
  have hmem : ∀ {m : BookMap}, Placed m → ∀ x ∈ m.entries, 0 < x.2.quantity →
      0 < m.qty x.2.price := by
    intro m hm x hx hpos
    have hfind : m.find? x.1 = some x.2 := OrdMap.mem_entries.mp hx
    rw [(hm _ _ hfind).1]
    exact qty_pos.mpr ⟨x.2, hfind, hpos⟩
  have hbid : Placed b.bid.lastValid := (hv.kept .bid).lastValid
  have hask : Placed b.ask.lastValid := (hv.kept .ask).lastValid
  refine ⟨fun h => (hv.kept h).top, hv.noted, hlt, ?_⟩
  exact printBidsAsks_stays (hmem hbid) (hmem hask) (fun p hp => (hbid.between hp).2)
    (fun p hp => (hask.between hp).1) hlt

def askAt (p : ℤ) (q : ℕ) : Op := .update ⟨p, q, .ask, 0⟩

/-- An ask comes down to the best bid: the copy stays as it was before. -/
def crossing : List Op := [bidAt 100 5, bidAt 99 4, askAt 105 3, askAt 100 2, .tick]

theorem run_top_crossing :
    (run 400 crossing).book.bid.topPx = 100 ∧ (run 400 crossing).book.ask.topPx = 100 ∧
      (∀ p q, 0 < (run 400 crossing).book.bid.lastValid.qty p →
        0 < (run 400 crossing).book.ask.lastValid.qty q → p < q) := by
  have hops : ∀ o, Op.update o ∈ crossing → Between o.price := by
    intro o ho
    simp only [crossing, bidAt, askAt, List.mem_cons, Op.update.injEq, reduceCtorEq,
      List.not_mem_nil, or_false] at ho
    rcases ho with rfl | rfl | rfl | rfl <;> decide
  exact ⟨by decide +kernel, by decide +kernel, (run_top 400 crossing hops).2.2.1⟩

end Matching.Proxy
