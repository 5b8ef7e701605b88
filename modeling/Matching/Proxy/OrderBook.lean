import Matching.Md.BasicBook

/-! `proxy::OrderBook`, the depth the proxy broadcasts. `update` keeps the books as they come in
    (`live`) and, while they are not crossed, a copy of them (`lastValid`); a broadcast tick emits
    the best `n` levels of the copy (snapshot) and what changed since the previous snapshot (diff),
    and then drops the levels nobody needs any more. The bid and the ask half are written twice in
    the source and once here. Of the JSON objects only the level lists are kept; the checksum and
    the sequence number are left out. -/

namespace Matching.Proxy

open Md

/-- One half: `bids`, `last_valid_bids`, `last_sent_bids`, `last_bids` and `top_bid_px`,
    or the same for asks. -/
structure Books where
  live : BookMap
  lastValid : BookMap
  lastSent : BookMap
  last : BookMap
  topPx : ℤ

variable {h : Half} {n : ℕ}

/-- The price of the best level that is not empty. -/
def firstPx (h : Half) (m : BookMap) : ℤ :=
  match (h.scan m).find? (fun x => decide (0 < x.2.quantity)) with
  | some x => x.2.price
  | none => h.worst

namespace Books

def empty (h : Half) : Books := ⟨.empty, .empty, .empty, .empty, h.worst⟩

/-- The part of `update` that is for one side. -/
def update (h : Half) (g : Books) (o : BookItem) : Books :=
  let live := g.live.insert o.price o
  { g with
    live := live
    topPx := if 0 < o.quantity ∧ h.better o.price g.topPx then o.price
      else if o.quantity = 0 ∧ o.price = g.topPx then firstPx h live
      else g.topPx }

/-- `if (bids.empty()) top_bid_px = min`. -/
def settle (h : Half) (g : Books) : Books :=
  { g with topPx := if g.live.entries = [] then h.worst else g.topPx }

/-- The loop of `get_orderbook_snapshot` over `last_valid_*`; `cnt` levels are out already. -/
def snapshotLoop (maxEntries : ℕ) : ℕ → List (ℤ × BookItem) → List (ℤ × BookItem)
  | _, [] => []
  | cnt, x :: xs =>
    if x.2.quantity = 0 then snapshotLoop maxEntries cnt xs
    else x :: if cnt + 1 = maxEntries then [] else snapshotLoop maxEntries (cnt + 1) xs

/-- `get_orderbook_snapshot`: what is emitted is also put into `last_sent_*`. -/
def snapshot (h : Half) (g : Books) (maxEntries : ℕ) : Books × List (ℤ × ℕ) :=
  let xs := snapshotLoop maxEntries 0 (h.scan g.lastValid)
  ({ g with lastSent := xs.foldl (fun m x => m.emplace x.1 x.2) g.lastSent },
    xs.map (fun x => (x.2.price, x.2.quantity)))

/-- `get_orderbook_diff`, the previous levels which have been deleted: those
    better than the new top. -/
def deleted (h : Half) (top : ℤ) : List (ℤ × BookItem) → List (ℤ × ℕ)
  | [] => []
  | x :: xs =>
    if h.better x.2.price top ∧ 0 < x.2.quantity then (x.2.price, 0) :: deleted h top xs else []

/-- `get_orderbook_diff`, the loop over `last_valid_*`: every entry counts,
    whether it is listed or not. -/
def changed (h : Half) (top : ℤ) (last : BookMap) (maxEntries : ℕ) :
    ℕ → List (ℤ × BookItem) → List (ℤ × ℕ)
  | _, [] => []
  | cnt, x :: xs =>
    (if ¬h.better x.2.price top ∧ last.find? x.1 ≠ some x.2 then [(x.2.price, x.2.quantity)]
      else []) ++
    if cnt + 1 = maxEntries then [] else changed h top last maxEntries (cnt + 1) xs

/-- `get_orderbook_diff`. -/
def diff (h : Half) (g : Books) (maxEntries : ℕ) : List (ℤ × ℕ) :=
  let top := firstPx h g.lastValid
  deleted h top (h.scan g.last) ++ changed h top g.last maxEntries 0 (h.scan g.lastValid)

/-- `clear_unused_bids_asks`. -/
def clear (h : Half) (g : Books) : Books :=
  let lastValid := g.lastValid.filter (fun x => decide (x.2.quantity ≠ 0))
  settle h
    { g with
      lastValid := lastValid
      last := g.lastSent
      lastSent := .empty
      live := g.live.filter (fun x => decide (x.2.quantity ≠ 0) || (lastValid.find? x.1).isSome) }

/-- A broadcast tick (`schedule_broadcast`): the half afterwards, the snapshot and the diff. -/
def tick (h : Half) (g : Books) (maxEntries : ℕ) : Books × List (ℤ × ℕ) × List (ℤ × ℕ) :=
  let (g, snap) := g.snapshot h maxEntries
  (g.clear h, snap, g.diff h maxEntries)

end Books

/-- `class OrderBook`. -/
structure OrderBook where
  bid : Books
  ask : Books

namespace OrderBook

def empty : OrderBook := ⟨.empty .bid, .empty .ask⟩

def half (b : OrderBook) : Half → Books
  | .bid => b.bid
  | .ask => b.ask

/-- Store the item on its side. -/
def store (b : OrderBook) (o : BookItem) : OrderBook :=
  match o.side with
  | .bid => { b with bid := b.bid.update .bid o }
  | .ask => { b with ask := b.ask.update .ask o }
  | _ => b

/-- `update(o)`. -/
def update (b : OrderBook) (o : BookItem) : OrderBook :=
  let b := b.store o
  let b : OrderBook := ⟨b.bid.settle .bid, b.ask.settle .ask⟩
  if b.bid.topPx < b.ask.topPx then
    ⟨{ b.bid with lastValid := b.bid.live }, { b.ask with lastValid := b.ask.live }⟩
  else b

end OrderBook

/-! ### The client -/

/-- The levels of a snapshot, as a client holds them. -/
def ofLevels (ls : List (ℤ × ℕ)) : OrdMap ℤ ℕ := ls.foldl (fun m x => m.insert x.1 x.2) .empty

/-- Set each listed price to its quantity, and remove it when the quantity is 0. -/
def applyDiff (m : OrdMap ℤ ℕ) (d : List (ℤ × ℕ)) : OrdMap ℤ ℕ :=
  d.foldl (fun m x => if x.2 = 0 then m.erase x.1 else m.insert x.1 x.2) m

/-- The best `n` levels. -/
def best (h : Half) (n : ℕ) (m : OrdMap ℤ ℕ) : List (ℤ × ℕ) := (h.scan m).take n

/-! ### Runs -/

/-- The order book and the levels of the last snapshot of each half (none before the first). -/
structure State where
  book : OrderBook
  sent : Half → List (ℤ × ℕ)

inductive Op where
  | update (o : BookItem)
  | tick

def State.init : State := ⟨.empty, fun _ => []⟩

/-- One call of `update`, or one broadcast tick. -/
def State.step (n : ℕ) (s : State) : Op → State
  | .update o => { s with book := s.book.update o }
  | .tick =>
    ⟨⟨(s.book.bid.tick .bid n).1, (s.book.ask.tick .ask n).1⟩,
      fun h => ((s.book.half h).tick h n).2.1⟩

def run (n : ℕ) (ops : List Op) : State := ops.foldl (State.step n) .init

/-- In the next tick, a client that applies the diff to the levels of the previous snapshot and
    keeps its best `n` levels holds the levels of the new snapshot. -/
def Follows (n : ℕ) (s : State) (h : Half) : Prop :=
  best h n (applyDiff (ofLevels (s.sent h)) ((s.book.half h).tick h n).2.2) =
    ((s.book.half h).tick h n).2.1

/-- The quantity the previous snapshot gave for a price. -/
def sentQuantity (last : BookMap) (p : ℤ) : ℕ := ((last.find? p).map BookItem.quantity).getD 0

/-- Behind the first `n` entries of `last_valid`, empty ones included, every price from
    the top level on whose quantity is not what the previous snapshot gave has `n`
    better levels that are not empty. -/
def Covered (n : ℕ) (s : State) (h : Half) : Prop :=
  let entries := h.scan (s.book.half h).lastValid
  ∀ x ∈ entries.drop n, h.better x.1 (firstPx h (s.book.half h).lastValid) = false →
    sentQuantity (s.book.half h).last x.1 ≠ x.2.quantity →
    n ≤ entries.countP (fun y => decide (y.2.quantity ≠ 0) && h.better y.1 x.1)

open OrdMap (assoc)

/-! ### Walking a map -/

/-- Every item is stored under its price. -/
def Priced (m : BookMap) : Prop := ∀ k v, m.find? k = some v → v.price = k

theorem Priced.scan {m : BookMap} (hm : Priced m) : ∀ x ∈ h.scan m, x.2.price = x.1 :=
  fun x hx => hm x.1 x.2 (Half.mem_scan.mp hx)

/-- Quantities under the keys they are published with. -/
theorem relabel_ranked {xs : List (ℤ × BookItem)} (hx : Ranked h.better xs)
    (hp : ∀ x ∈ xs, x.2.price = x.1) (f : ℤ × BookItem → ℕ) :
    Ranked h.better (xs.map (fun x => (x.2.price, f x))) := by
  refine List.pairwise_map.mpr (List.Pairwise.imp_of_mem (fun {a b} ha hb hab => ?_) hx)
  rw [hp a ha, hp b hb]
  exact hab

theorem mem_relabel {xs : List (ℤ × BookItem)} (hp : ∀ x ∈ xs, x.2.price = x.1)
    (f : ℤ × BookItem → ℕ) {p : ℤ} {q : ℕ} :
    (p, q) ∈ xs.map (fun x => (x.2.price, f x)) ↔ ∃ v, (p, v) ∈ xs ∧ f (p, v) = q := by
  constructor
  · intro hm
    obtain ⟨x, hx, heq⟩ := List.mem_map.mp hm
    obtain ⟨rfl, rfl⟩ := Prod.mk.inj heq
    refine ⟨x.2, ?_, ?_⟩
    · rw [hp x hx]; exact hx
    · rw [hp x hx]
  · rintro ⟨v, hv, rfl⟩
    exact List.mem_map.mpr ⟨(p, v), hv, by rw [hp _ hv]⟩

/-- On a ranked list a condition that better keys inherit is met by a beginning of the list. -/
theorem ranked_takeWhile {β : Type} {P : ℤ × β → Bool} : ∀ {xs : List (ℤ × β)},
    (∀ x ∈ xs, ∀ y ∈ xs, h.better x.1 y.1 = true → P y = true → P x = true) → Ranked h.better xs →
    xs.takeWhile P = xs.filter P
  | [], _, _ => rfl
  | x :: xs, hP, hx => by
    obtain ⟨hhead, htail⟩ := List.pairwise_cons.mp hx
    have hP' : ∀ a ∈ xs, ∀ b ∈ xs, h.better a.1 b.1 = true → P b = true → P a = true :=
      fun a ha b hb => hP a (List.mem_cons_of_mem _ ha) b (List.mem_cons_of_mem _ hb)
    by_cases hpx : P x = true
    · rw [List.takeWhile_cons_of_pos hpx, List.filter_cons_of_pos hpx, ranked_takeWhile hP' htail]
    · have hnone : xs.filter P = [] := List.filter_eq_nil_iff.mpr fun y hy hpy =>
        hpx (hP x List.mem_cons_self y (List.mem_cons_of_mem _ hy) (hhead y hy) hpy)
      rw [List.takeWhile_cons_of_neg hpx, List.filter_cons_of_neg hpx, hnone]

/-! ### What a tick emits -/

/-- The best `n` levels that are not empty. -/
def levels (h : Half) (n : ℕ) (m : BookMap) : List (ℤ × BookItem) :=
  ((h.scan m).filter (fun x => decide (x.2.quantity ≠ 0))).take n

namespace Books

theorem snapshotLoop_eq (maxEntries : ℕ) :
    ∀ (xs : List (ℤ × BookItem)) (cnt : ℕ), cnt < maxEntries →
    snapshotLoop maxEntries cnt xs = (xs.filter (fun x => decide (x.2.quantity ≠ 0))).take
      (maxEntries - cnt)
  | [], cnt, _ => by simp [snapshotLoop]
  | x :: xs, cnt, hc => by
    by_cases hq : x.2.quantity = 0
    · have hneg : (x :: xs).filter (fun x => decide (x.2.quantity ≠ 0)) =
        xs.filter (fun x => decide (x.2.quantity ≠ 0)) :=
        List.filter_cons_of_neg (by simp [hq])
      rw [snapshotLoop, if_pos hq, hneg, snapshotLoop_eq maxEntries xs cnt hc]
    · have hpos : (x :: xs).filter (fun x => decide (x.2.quantity ≠ 0)) =
          x :: xs.filter (fun x => decide (x.2.quantity ≠ 0)) :=
            List.filter_cons_of_pos (by simp [hq])
      obtain ⟨k, hk⟩ : ∃ k, maxEntries - cnt = k + 1 := ⟨maxEntries - cnt - 1, by omega⟩
      rw [snapshotLoop, if_neg hq, hpos, hk, List.take_succ_cons]
      by_cases hlast : cnt + 1 = maxEntries
      · have hk0 : k = 0 := by omega
        rw [if_pos hlast, hk0, List.take_zero]
      · have hk1 : maxEntries - (cnt + 1) = k := by omega
        rw [if_neg hlast, snapshotLoop_eq maxEntries xs (cnt + 1) (by omega), hk1]

theorem deleted_eq (top : ℤ) : ∀ xs : List (ℤ × BookItem),
    deleted h top xs =
      (xs.takeWhile (fun x => h.better x.2.price top && decide (0 < x.2.quantity))).map
      (fun x => (x.2.price, 0))
  | [] => rfl
  | x :: xs => by
    by_cases hx : h.better x.2.price top ∧ 0 < x.2.quantity
    · rw [deleted, if_pos hx, List.takeWhile_cons_of_pos (by simpa using hx), List.map_cons,
        deleted_eq top xs]
    · rw [deleted, if_neg hx, List.takeWhile_cons_of_neg (by simpa using hx), List.map_nil]

theorem changed_eq (top : ℤ) (last : BookMap) (maxEntries : ℕ) :
    ∀ (xs : List (ℤ × BookItem)) (cnt : ℕ), cnt < maxEntries →
    changed h top last maxEntries cnt xs = ((xs.take (maxEntries - cnt)).filter
      (fun x => !h.better x.2.price top && decide (last.find? x.1 ≠ some x.2))).map
        (fun x => (x.2.price, x.2.quantity))
  | [], cnt, _ => by simp [changed]
  | x :: xs, cnt, hc => by
    obtain ⟨k, hk⟩ : ∃ k, maxEntries - cnt = k + 1 := ⟨maxEntries - cnt - 1, by omega⟩
    have hrest : (if cnt + 1 = maxEntries then [] else changed h top last maxEntries (cnt + 1) xs) =
        ((xs.take k).filter
          (fun x => !h.better x.2.price top && decide (last.find? x.1 ≠ some x.2))).map
          (fun x => (x.2.price, x.2.quantity)) := by
      by_cases hlast : cnt + 1 = maxEntries
      · have hk0 : k = 0 := by omega
        rw [if_pos hlast, hk0]
        rfl
      · have hk1 : maxEntries - (cnt + 1) = k := by omega
        rw [if_neg hlast, changed_eq top last maxEntries xs (cnt + 1) (by omega), hk1]
    rw [changed, hrest, hk, List.take_succ_cons]
    by_cases hx : ¬h.better x.2.price top ∧ last.find? x.1 ≠ some x.2
    · rw [if_pos hx, List.filter_cons_of_pos (by simpa using hx)]
      rfl
    · rw [if_neg hx, List.filter_cons_of_neg (by simpa using hx)]
      rfl

end Books

/-! ### What maps hold after a loop -/

theorem find?_emplaceAll (p : ℤ) : ∀ (xs : List (ℤ × BookItem)) (m : BookMap),
    (xs.foldl (fun m x => m.emplace x.1 x.2) m).find? p = (m.find? p).or (assoc p xs)
  | [], m => by simp [assoc]
  | x :: xs, m => by
    rw [List.foldl_cons, find?_emplaceAll p xs, OrdMap.find?_emplace]
    by_cases hp : p = x.1
    · subst hp
      cases m.find? x.1 <;> simp [assoc]
    · simp [assoc, hp]

theorem find?_insertAll (p : ℤ) : ∀ {ls : List (ℤ × ℕ)} (m : OrdMap ℤ ℕ), Ranked h.better ls →
    (ls.foldl (fun m x => m.insert x.1 x.2) m).find? p = (assoc p ls).or (m.find? p)
  | [], m, _ => by simp [assoc]
  | x :: xs, m, hr => by
    rw [List.foldl_cons, find?_insertAll p _ (List.pairwise_cons.mp hr).2, OrdMap.find?_insert]
    by_cases hp : p = x.1
    · subst hp
      simp [assoc, Ranked.assoc_none (Ranked.ne_head hr)]
    · simp [assoc, hp]

/-- The quantity a map holds when it is told `q`. -/
def listed (q : ℕ) : Option ℕ := if q = 0 then none else some q

theorem find?_applyDiff (p : ℤ) : ∀ {d : List (ℤ × ℕ)} (m : OrdMap ℤ ℕ), Ranked h.better d →
    (applyDiff m d).find? p = match assoc p d with | none => m.find? p | some q => listed q
  | [], m, _ => rfl
  | x :: xs, m, hr => by
    have hstep : applyDiff m (x :: xs) =
      applyDiff (if x.2 = 0 then m.erase x.1 else m.insert x.1 x.2) xs := rfl
    rw [hstep, find?_applyDiff p _ (List.pairwise_cons.mp hr).2]
    by_cases hp : p = x.1
    · subst hp
      rw [Ranked.assoc_none (Ranked.ne_head hr)]
      by_cases hq : x.2 = 0 <;> simp [assoc, listed, hq]
    · by_cases hq : x.2 = 0 <;> simp [assoc, hp, hq]

theorem assoc_relabel (p : ℤ) : ∀ {xs : List (ℤ × BookItem)}, (∀ x ∈ xs, x.2.price = x.1) →
    assoc p (xs.map (fun x => (x.2.price, x.2.quantity))) = (assoc p xs).map BookItem.quantity
  | [], _ => rfl
  | x :: xs, hp => by
    have hx := hp x List.mem_cons_self
    by_cases hk : p = x.1
    · simp [assoc, hk, hx]
    · simp [assoc, hk, hx, assoc_relabel p (fun y hy => hp y (List.mem_cons_of_mem _ hy))]

/-! ### What every half keeps -/

/-- Items are stored under their prices, the previous snapshot is what `last` holds and has no empty
    level, and a price in an older generation is in every newer one. -/
structure Books.Inv (h : Half) (g : Books) (sent : List (ℤ × ℕ)) : Prop where
  live : Priced g.live
  lastValid : Priced g.lastValid
  last : ∀ k v, g.last.find? k = some v → v.quantity ≠ 0
  lastPriced : Priced g.last
  lastIn : ∀ k, g.lastValid.find? k = none → g.last.find? k = none
  validIn : ∀ k, g.live.find? k = none → g.lastValid.find? k = none
  lastSent : g.lastSent = .empty
  sent : ∀ p, (ofLevels sent).find? p = (g.last.find? p).map BookItem.quantity

namespace Books.Inv

variable {g : Books} {sent : List (ℤ × ℕ)}

theorem empty (h : Half) : Inv h (Books.empty h) [] :=
  ⟨fun _ _ hk => by simp [Books.empty] at hk, fun _ _ hk => by simp [Books.empty] at hk,
    fun _ _ hk => by simp [Books.empty] at hk, fun _ _ hk => by simp [Books.empty] at hk,
    fun _ _ => rfl, fun _ _ => rfl,
    rfl, fun _ => rfl⟩

theorem update (hI : Inv h g sent) (o : BookItem) : Inv h (g.update h o) sent := by
  refine { hI with live := fun k v hk => ?_, validIn := fun k hk => hI.validIn k ?_ }
  · simp only [Books.update, OrdMap.find?_insert] at hk
    split_ifs at hk with hko
    · obtain rfl := Option.some.inj hk
      exact hko.symm
    · exact hI.live k v hk
  · simp only [Books.update, OrdMap.find?_insert] at hk
    split_ifs at hk
    exact hk

theorem settle (hI : Inv h g sent) : Inv h (g.settle h) sent := { hI with }

theorem valid (hI : Inv h g sent) : Inv h { g with lastValid := g.live } sent :=
  { hI with
    lastValid := hI.live
    lastIn := fun k hk => hI.lastIn k (hI.validIn k hk)
    validIn := fun _ hk => hk }

theorem snapshot_eq (hI : Inv h g sent) (hn : 0 < n) : g.snapshot h n =
    ({ g with lastSent := (levels h n g.lastValid).foldl (fun m x => m.emplace x.1 x.2) .empty },
      (levels h n g.lastValid).map (fun x => (x.2.price, x.2.quantity))) := by
  rw [Books.snapshot, hI.lastSent, snapshotLoop_eq n _ 0 hn, Nat.sub_zero, levels]

theorem tick (hI : Inv h g sent) (hn : 0 < n) : Inv h (g.tick h n).1 (g.tick h n).2.1 := by
  set xs := levels h n g.lastValid with hxs
  have hsub : xs.Sublist (h.scan g.lastValid) := (List.take_sublist n _).trans List.filter_sublist
  have hpriced : ∀ x ∈ xs, x.2.price = x.1 := fun x hx => hI.lastValid.scan x (hsub.subset hx)
  have hranked : Ranked h.better xs := (Half.scan_ranked h _).sublist hsub
  have hmem : ∀ k v, assoc k xs = some v → g.lastValid.find? k = some v ∧
      v.quantity ≠ 0 := fun k v hk => by
    have hkv := (Ranked.mem_iff hranked).mp hk
    have hq := List.mem_of_mem_take hkv
    exact ⟨Half.mem_scan.mp (hsub.subset hkv), by simpa using (List.mem_filter.mp hq).2⟩
  have hsnap : (g.tick h n).2.1 = xs.map (fun x => (x.2.price, x.2.quantity)) := by
    simp only [Books.tick, hI.snapshot_eq hn]
    rw [hxs]
  have hlast : ∀ k, (g.tick h n).1.last.find? k = assoc k xs := fun k => by
    simp only [Books.tick, hI.snapshot_eq hn, Books.clear, Books.settle]
    rw [find?_emplaceAll, ← hxs]
    rfl
  have hvalid : ∀ k v, (g.tick h n).1.lastValid.find? k = some v ↔ g.lastValid.find? k = some v ∧
      v.quantity ≠ 0 :=
    fun k v => by
      simp only [Books.tick, hI.snapshot_eq hn, Books.clear, Books.settle, OrdMap.find?_filter,
        decide_eq_true_eq]
  have hlive : ∀ k v, (g.tick h n).1.live.find? k = some v ↔ g.live.find? k = some v ∧
      (v.quantity ≠ 0 ∨ ((g.tick h n).1.lastValid.find? k).isSome) := fun k v => by
    simp only [Books.tick, hI.snapshot_eq hn, Books.clear, Books.settle, OrdMap.find?_filter,
      Bool.or_eq_true, decide_eq_true_eq]
  refine ⟨fun k v hk => hI.live k v ((hlive k v).mp hk).1,
    fun k v hk => hI.lastValid k v ((hvalid k v).mp hk).1,
    fun k v hk => (hmem k v (hlast k ▸ hk)).2,
    fun k v hk => hI.lastValid k v (hmem k v (hlast k ▸ hk)).1,
    fun k hk => ?_, fun k hk => ?_, rfl, fun p => ?_⟩
  · rcases hf : (g.tick h n).1.last.find? k with _ | v
    · rfl
    · rw [hlast k] at hf
      rw [(hvalid k v).mpr (hmem k v hf)] at hk
      cases hk
  · rcases hf : (g.tick h n).1.lastValid.find? k with _ | v
    · rfl
    · rcases hl : g.live.find? k with _ | u
      · have hv := ((hvalid k v).mp hf).1
        rw [hI.validIn k hl] at hv
        cases hv
      · rw [(hlive k u).mpr ⟨hl, Or.inr (by rw [hf]; rfl)⟩] at hk
        cases hk
  · rw [hsnap, ofLevels, find?_insertAll p _ (relabel_ranked hranked hpriced _),
      assoc_relabel p hpriced, hlast]
    simp

end Books.Inv

/-! ### What the client holds -/

theorem better_of_top {p q top : ℤ} (hp : h.better p top = true) (hq : h.better q top = false) :
    h.better p q = true := by
  by_cases heq : q = top
  · rw [heq]; exact hp
  · exact StrictLt.trans hp (StrictLt.tri heq hq)

/-- No level that is not empty is better than the top level. -/
theorem firstPx_best {m : BookMap} (hm : Priced m) {k : ℤ} {v : BookItem}
    (hk : m.find? k = some v) (hq : v.quantity ≠ 0) :
    h.better k (firstPx h m) = false := by
  have hmem : (k, v) ∈ h.scan m := Half.mem_scan.mpr hk
  have hranked := h.scan_ranked m
  have hpriced := hm.scan (h := h)
  rcases hf : (h.scan m).find? (fun x => decide (0 < x.2.quantity)) with _ | x
  · have := List.find?_eq_none.mp hf (k, v) hmem
    simp only [decide_eq_true_eq] at this
    omega
  · obtain ⟨_, as, bs, hsplit, has⟩ := List.find?_eq_some_iff_append.mp hf
    rw [hsplit] at hmem hranked hpriced
    have htop : firstPx h m = x.1 := by
      simp only [firstPx, hf]
      exact hpriced x (by simp)
    rw [htop]
    rcases List.mem_append.mp hmem with ha | hb
    · have := has (k, v) ha
      simp only [Bool.not_eq_true', decide_eq_false_iff_not] at this
      omega
    · rcases hlt : h.better k x.1 with _ | _
      · rfl
      · rcases List.mem_cons.mp hb with rfl | hb
        · exact (Ranked.not_self hlt).elim
        · have hxk := (List.pairwise_cons.mp (List.pairwise_append.mp hranked).2.1).1 _ hb
          exact (Ranked.not_self (StrictLt.trans hlt hxk)).elim

namespace Books.Inv

variable {g : Books} {sent : List (ℤ × ℕ)}

/-- The entries `get_orderbook_diff` lists: what the previous snapshot had above the top level, and
    the first `n` entries of `last_valid` from the top level on that are not as they were. -/
theorem diff_eq (hI : Inv h g sent) (hn : 0 < n) : g.diff h n =
    ((h.scan g.last).filter (fun x => h.better x.1 (firstPx h g.lastValid))).map
      (fun x => (x.2.price, 0)) ++
      (((h.scan g.lastValid).take n).filter (fun x => !h.better x.1 (firstPx h g.lastValid) &&
        decide (g.last.find? x.1 ≠ some x.2))).map (fun x => (x.2.price, x.2.quantity)) := by
  set top := firstPx h g.lastValid
  have hwhile : (h.scan g.last).takeWhile
      (fun x => h.better x.2.price top && decide (0 < x.2.quantity)) =
      (h.scan g.last).filter (fun x => h.better x.1 top) := by
    have hlast : ∀ x ∈ h.scan g.last, (h.better x.2.price top && decide (0 < x.2.quantity)) =
        h.better x.1 top :=
      fun x hx => by
        have hq := hI.last x.1 x.2 (Half.mem_scan.mp hx)
        have hpos : 0 < x.2.quantity := by omega
        rw [hI.lastPriced.scan x hx, decide_eq_true hpos, Bool.and_true]
    rw [ranked_takeWhile (fun x hx y hy hxy hPy => ?_) (h.scan_ranked g.last),
      List.filter_congr hlast]
    rw [hlast x hx]
    exact StrictLt.trans hxy (hlast y hy ▸ hPy)
  have hfilter : ((h.scan g.lastValid).take n).filter
      (fun x => !h.better x.2.price top && decide (g.last.find? x.1 ≠ some x.2)) =
      ((h.scan g.lastValid).take n).filter
        (fun x => !h.better x.1 top && decide (g.last.find? x.1 ≠ some x.2)) := by
    refine List.filter_congr fun x hx => ?_
    rw [hI.lastValid.scan x (List.mem_of_mem_take hx)]
  rw [Books.diff, deleted_eq, changed_eq _ _ n _ 0 hn, Nat.sub_zero, hwhile, hfilter]

theorem mem_diff (hI : Inv h g sent) (hn : 0 < n) {p : ℤ} {q : ℕ} : (p, q) ∈ g.diff h n ↔
    (h.better p (firstPx h g.lastValid) = true ∧ q = 0 ∧ (g.last.find? p).isSome) ∨
      (h.better p (firstPx h g.lastValid) = false ∧
        ∃ v, (p, v) ∈ (h.scan g.lastValid).take n ∧ g.last.find? p ≠ some v ∧ v.quantity = q) := by
  have hlast : ∀ x ∈ (h.scan g.last).filter (fun x => h.better x.1 (firstPx h g.lastValid)),
      x.2.price = x.1 :=
    fun x hx => hI.lastPriced.scan x (List.mem_filter.mp hx).1
  have hvalid : ∀ x ∈ ((h.scan g.lastValid).take n).filter (fun x =>
        !h.better x.1 (firstPx h g.lastValid) && decide (g.last.find? x.1 ≠ some x.2)),
      x.2.price = x.1 :=
    fun x hx => hI.lastValid.scan x (List.mem_of_mem_take (List.mem_filter.mp hx).1)
  rw [hI.diff_eq hn, List.mem_append, mem_relabel hlast (fun _ => 0),
    mem_relabel hvalid (fun x => x.2.quantity)]
  simp only [List.mem_filter, Half.mem_scan, Bool.and_eq_true, Bool.not_eq_true', decide_eq_true_eq,
    Option.isSome_iff_exists]
  constructor
  · rintro (⟨v, ⟨hv, hb⟩, hq⟩ | ⟨v, ⟨hv, hb, hne⟩, hq⟩)
    · exact Or.inl ⟨hb, hq.symm, v, hv⟩
    · exact Or.inr ⟨hb, v, hv, hne, hq⟩
  · rintro (⟨hb, rfl, v, hv⟩ | ⟨hb, v, hv, hne, hq⟩)
    · exact Or.inl ⟨v, ⟨hv, hb⟩, rfl⟩
    · exact Or.inr ⟨v, ⟨hv, hb, hne⟩, hq⟩

theorem diff_ranked (hI : Inv h g sent) (hn : 0 < n) : Ranked h.better (g.diff h n) := by
  have hsub :
      (((h.scan g.lastValid).take n).filter
      (fun x => !h.better x.1 (firstPx h g.lastValid) && decide
      (g.last.find? x.1 ≠ some x.2))).Sublist (h.scan g.lastValid) :=
    List.filter_sublist.trans (List.take_sublist n _)
  rw [hI.diff_eq hn]
  refine List.pairwise_append.mpr ⟨?_, ?_, fun a ha b hb => ?_⟩
  · exact relabel_ranked ((h.scan_ranked g.last).sublist List.filter_sublist)
      (fun x hx => hI.lastPriced.scan x (List.mem_filter.mp hx).1) _
  · exact relabel_ranked ((h.scan_ranked g.lastValid).sublist hsub)
      (fun x hx => hI.lastValid.scan x (hsub.subset hx)) _
  · obtain ⟨x, hx, rfl⟩ := List.mem_map.mp ha
    obtain ⟨y, hy, rfl⟩ := List.mem_map.mp hb
    obtain ⟨hx, hxt⟩ := List.mem_filter.mp hx
    have hyt := (List.mem_filter.mp hy).2
    simp only [Bool.and_eq_true, Bool.not_eq_true'] at hyt
    rw [hI.lastPriced.scan x hx, hI.lastValid.scan y (hsub.subset hy)]
    exact better_of_top hxt hyt.1

/-- A client that applied the diff: nothing above the top level, the first `n` entries of
    `last_valid` as they are, and what it had before behind them. -/
theorem find?_client (hI : Inv h g sent) (hn : 0 < n) (p : ℤ) :
    (applyDiff (ofLevels sent) (g.diff h n)).find? p =
      if h.better p (firstPx h g.lastValid) then none
      else match assoc p ((h.scan g.lastValid).take n) with
        | some v => listed v.quantity
        | none => (g.last.find? p).map BookItem.quantity := by
  have hranked := hI.diff_ranked hn
  have htake : Ranked h.better ((h.scan g.lastValid).take n) :=
    (h.scan_ranked g.lastValid).sublist (List.take_sublist n _)
  have hnone : ∀ {p}, (∀ q, (p, q) ∉ g.diff h n) → assoc p (g.diff h n) = none := fun {p} hnot => by
    rcases ha : assoc p (g.diff h n) with _ | q
    · rfl
    · exact absurd ((Ranked.mem_iff hranked).mp ha) (hnot q)
  have hsome : ∀ {p q}, (p, q) ∈ g.diff h n → assoc p (g.diff h n) = some q :=
    fun hm => (Ranked.mem_iff hranked).mpr hm
  rw [find?_applyDiff p _ hranked, hI.sent]
  rcases hb : h.better p (firstPx h g.lastValid) with _ | _
  · simp only [Bool.false_eq_true, if_false]
    rcases hv : assoc p ((h.scan g.lastValid).take n) with _ | v
    · rw [hnone fun q hm => ?_]
      rcases (hI.mem_diff hn).mp hm with ⟨hb', _⟩ | ⟨_, v, hv', _⟩
      · rw [hb] at hb'; cases hb'
      · rw [(Ranked.mem_iff htake).mpr hv'] at hv; cases hv
    · have hmem := (Ranked.mem_iff htake).mp hv
      by_cases hlast : g.last.find? p = some v
      · rw [hnone fun q hm => ?_]
        · simp [hlast, listed, hI.last p v hlast]
        · rcases (hI.mem_diff hn).mp hm with ⟨hb', _⟩ | ⟨_, u, hu, hne, _⟩
          · rw [hb] at hb'; cases hb'
          · rw [(Ranked.mem_iff htake).mpr hu] at hv
            exact hne (hlast.trans hv.symm)
      · rw [hsome ((hI.mem_diff hn).mpr (Or.inr ⟨hb, v, hmem, hlast, rfl⟩))]
  · simp only [if_true]
    rcases hl : g.last.find? p with _ | v
    · rw [hnone fun q hm => ?_]
      · rfl
      · rcases (hI.mem_diff hn).mp hm with ⟨_, _, hs⟩ | ⟨hb', _⟩
        · rw [hl] at hs; cases hs
        · rw [hb] at hb'; cases hb'
    · rw [hsome ((hI.mem_diff hn).mpr (Or.inl ⟨hb, rfl, by rw [hl]; rfl⟩))]
      rfl

/-- What the new snapshot says about a price. -/
theorem find?_levels (hI : Inv h g sent) (p : ℤ) :
    assoc p (((h.scan g.lastValid).filter (fun x => decide (x.2.quantity ≠ 0))).map
      (fun x => (x.2.price, x.2.quantity))) =
      (g.lastValid.find? p).bind (fun v => listed v.quantity) := by
  have hsub : ((h.scan g.lastValid).filter (fun x => decide (x.2.quantity ≠ 0))).Sublist
      (h.scan g.lastValid) :=
    List.filter_sublist
  have hranked := (h.scan_ranked g.lastValid).sublist hsub
  rw [assoc_relabel p (fun x hx => hI.lastValid.scan x (hsub.subset hx))]
  refine Option.ext fun q => ?_
  simp only [Option.map_eq_some_iff, Ranked.mem_iff hranked, List.mem_filter, Half.mem_scan,
    decide_eq_true_eq, Option.bind_eq_some_iff, listed]
  constructor
  · rintro ⟨v, ⟨hv, hq⟩, rfl⟩
    exact ⟨v, hv, by rw [if_neg hq]⟩
  · rintro ⟨v, hv, hq⟩
    by_cases h0 : v.quantity = 0
    · rw [if_pos h0] at hq; cases hq
    · rw [if_neg h0] at hq
      exact ⟨v, ⟨hv, h0⟩, Option.some.inj hq⟩

/-- Where the client and the new snapshot disagree about a price, it is a price behind the first `n`
    entries of `last_valid` whose quantity is not what the previous snapshot gave. -/
theorem disagree_iff (hI : Inv h g sent) (hn : 0 < n) (p : ℤ) :
    (applyDiff (ofLevels sent) (g.diff h n)).find? p ≠ (g.lastValid.find? p).bind
      (fun v => listed v.quantity) ↔
      h.better p (firstPx h g.lastValid) = false ∧
        ∃ v, (p, v) ∈ (h.scan g.lastValid).drop n ∧ sentQuantity g.last p ≠ v.quantity := by
  have hranked := h.scan_ranked g.lastValid
  have htake : Ranked h.better ((h.scan g.lastValid).take n) :=
    hranked.sublist (List.take_sublist n _)
  rw [hI.find?_client hn]
  rcases hb : h.better p (firstPx h g.lastValid) with _ | _
  · simp only [Bool.false_eq_true, if_false, true_and]
    rcases ht : assoc p ((h.scan g.lastValid).take n) with _ | v
    · rcases hv : g.lastValid.find? p with _ | v
      · -- a price `last_valid` does not have, the previous snapshot did not have either
        rw [hI.lastIn p hv]
        refine ⟨fun hne => absurd rfl hne, fun ⟨v, hm, _⟩ => ?_⟩
        rw [Half.mem_scan.mp (List.mem_of_mem_drop hm)] at hv
        cases hv
      · have hdrop : (p, v) ∈ (h.scan g.lastValid).drop n := by
          have hmem : (p, v) ∈ (h.scan g.lastValid).take n ++ (h.scan g.lastValid).drop n := by
            rw [List.take_append_drop]; exact Half.mem_scan.mpr hv
          refine (List.mem_append.mp hmem).resolve_left fun hm => ?_
          rw [(Ranked.mem_iff htake).mpr hm] at ht
          cases ht
        have hq : (g.last.find? p).map BookItem.quantity ≠ listed v.quantity ↔
            sentQuantity g.last p ≠ v.quantity := by
          unfold sentQuantity listed
          rcases hl : g.last.find? p with _ | u
          · by_cases h0 : v.quantity = 0 <;> simp [h0, eq_comm]
          · have hu := hI.last p u hl
            by_cases h0 : v.quantity = 0 <;> simp [h0, hu]
        simp only [Option.bind_some, hq]
        refine ⟨fun hne => ⟨v, hdrop, hne⟩, fun ⟨u, hu, hne⟩ => ?_⟩
        have huv : u = v :=
          Option.some.inj ((Half.mem_scan.mp (List.mem_of_mem_drop hu)).symm.trans hv)
        exact huv ▸ hne
    · have hmem := (Ranked.mem_iff htake).mp ht
      rw [Half.mem_scan.mp (List.mem_of_mem_take hmem)]
      refine ⟨fun hne => absurd rfl hne, fun ⟨u, hu, _⟩ => ?_⟩
      have hsplit := hranked
      rw [← List.take_append_drop n (h.scan g.lastValid)] at hsplit
      exact (Ranked.not_self ((List.pairwise_append.mp hsplit).2.2 (p, v) hmem (p, u) hu)).elim
  · simp only [if_true, reduceCtorEq, false_and, iff_false, not_not]
    rcases hv : g.lastValid.find? p with _ | v
    · rfl
    · by_cases h0 : v.quantity = 0
      · simp [listed, h0]
      · rw [firstPx_best hI.lastValid hv h0] at hb
        cases hb

/-- One tick of one half. -/
theorem follows_iff (hI : Inv h g sent) (hn : 0 < n) :
    best h n (applyDiff (ofLevels sent) (g.tick h n).2.2) = (g.tick h n).2.1 ↔
      ∀ x ∈ (h.scan g.lastValid).drop n, h.better x.1 (firstPx h g.lastValid) = false →
        sentQuantity g.last x.1 ≠ x.2.quantity →
        n ≤ (h.scan g.lastValid).countP
          (fun y => decide (y.2.quantity ≠ 0) && h.better y.1 x.1) := by
  have hdiff : (g.tick h n).2.2 = g.diff h n := by simp only [Books.tick, hI.snapshot_eq hn]; rfl
  have hsub : ((h.scan g.lastValid).filter (fun x => decide (x.2.quantity ≠ 0))).Sublist
      (h.scan g.lastValid) :=
    List.filter_sublist
  have hpriced := fun x hx => hI.lastValid.scan x (hsub.subset hx)
  have hsnap : (g.tick h n).2.1 =
      (((h.scan g.lastValid).filter (fun x => decide (x.2.quantity ≠ 0))).map
        (fun x => (x.2.price, x.2.quantity))).take n := by
    simp only [Books.tick, hI.snapshot_eq hn, levels, List.map_take]
  have hcount : ∀ p, (((h.scan g.lastValid).filter (fun x => decide (x.2.quantity ≠ 0))).map
      (fun x => (x.2.price, x.2.quantity))).countP (fun y => h.better y.1 p) =
      (h.scan g.lastValid).countP
        (fun y => decide (y.2.quantity ≠ 0) && h.better y.1 p) := fun p => by
    rw [List.countP_map, List.countP_filter]
    refine List.countP_congr fun y hy => ?_
    simp only [Function.comp_apply, hI.lastValid.scan y hy, Bool.and_comm]
  rw [hdiff, hsnap, best, Ranked.take_eq_iff n (h.scan_ranked _)
    (relabel_ranked ((h.scan_ranked g.lastValid).sublist hsub) hpriced _)]
  simp only [Half.assoc_scan, hI.find?_levels, hcount]
  constructor
  · rintro hall ⟨p, v⟩ hx hb hq
    exact hall p ((hI.disagree_iff hn p).mpr ⟨hb, v, hx, hq⟩)
  · intro hall p hp
    obtain ⟨hb, v, hx, hq⟩ := (hI.disagree_iff hn p).mp hp
    exact hall (p, v) hx hb hq

end Books.Inv

/-! ### Every run -/

/-- Both halves of the book and the last snapshot. -/
def State.Inv (s : State) : Prop := ∀ h, (s.book.half h).Inv h (s.sent h)

theorem State.inv_init : State.init.Inv := by
  intro h
  cases h
  · exact Books.Inv.empty .bid
  · exact Books.Inv.empty .ask

theorem State.Inv.store {s : State} (hI : s.Inv) (o : BookItem) :
    State.Inv { s with book := s.book.store o } := by
  have hbid := hI .bid
  have hask := hI .ask
  intro h
  unfold OrderBook.store
  cases o.side <;> cases h
  case bid.bid => exact hbid.update o
  case ask.ask => exact hask.update o
  all_goals first | exact hbid | exact hask

theorem State.Inv.update {s : State} (hI : s.Inv) (o : BookItem) :
    State.Inv { s with book := s.book.update o } := by
  have hbid := (hI.store o) .bid
  have hask := (hI.store o) .ask
  intro h
  by_cases hv : ((s.book.store o).bid.settle .bid).topPx < ((s.book.store o).ask.settle .ask).topPx
  · simp only [OrderBook.update, if_pos hv]
    cases h
    · exact hbid.settle.valid
    · exact hask.settle.valid
  · simp only [OrderBook.update, if_neg hv]
    cases h
    · exact hbid.settle
    · exact hask.settle

theorem State.Inv.step (hn : 0 < n) {s : State} (hI : s.Inv) : ∀ op : Op, (s.step n op).Inv
  | .update o => hI.update o
  | .tick => by
    rintro (_ | _)
    · exact (hI .bid).tick hn
    · exact (hI .ask).tick hn

theorem run_inv (hn : 0 < n) (ops : List Op) : (run n ops).Inv := by
  have hall : ∀ (ops : List Op) (s : State), s.Inv → (ops.foldl (State.step n) s).Inv := by
    intro ops
    induction ops with
    | nil => exact fun s hs => hs
    | cons op ops ih => exact fun s hs => ih _ (hs.step hn op)
  exact hall ops _ State.inv_init

/-- Whatever was received and broadcast before: the next diff takes the previous snapshot to the
    next one on both sides exactly when all that changed is within the first `n` entries of
    `last_valid`, or is out of the snapshot's sight. -/
theorem follows_iff_covered (hn : 0 < n) (ops : List Op) :
    (∀ h, Follows n (run n ops) h) ↔ ∀ h, Covered n (run n ops) h :=
  forall_congr' fun h => (run_inv hn ops h).follows_iff hn

def bidAt (p : ℤ) (q : ℕ) : Op := .update ⟨p, q, .bid, 0⟩

/-- Snapshots of two levels: the best of them goes. -/
def oneLess : List Op := [bidAt 100 5, bidAt 99 4, .tick, bidAt 100 0]

theorem follows_iff_covered_oneLess :
    (∀ h, Follows 2 (run 2 oneLess) h) ↔ ∀ h, Covered 2 (run 2 oneLess) h :=
  follows_iff_covered (by decide) oneLess

/-- Snapshots of one level: the best bid goes, and the one behind it was never shown. -/
def bestGone : List Op := [bidAt 100 5, .tick, bidAt 99 5, bidAt 100 0]

/-- The diff only says that 100 is gone, the snapshot says that there are 5 at 99. -/
theorem bestGone_not_follows : ¬∀ h, Follows 1 (run 1 bestGone) h := by
  intro hf
  have hbid := hf .bid
  revert hbid
  unfold Follows
  decide

end Matching.Proxy
