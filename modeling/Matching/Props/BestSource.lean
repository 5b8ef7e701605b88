import Matching.Lib.Choose
import Matching.Props.ImpliedPrice

/-! What `matcher::top` selects, and whether `best_ask()` and `best_bid()` agree with it. Both scan
    the same offers (`World.offers`), the first order of the opposite book and what each implier
    makes of its legs; but `top` moves an implied price that is beyond the best price of the taker's
    own side, and `top_price` does not. -/

namespace Matching

namespace World

/-- What an implier makes of the first orders of its legs. -/
def implied (w : World) (e : ℕ) (i : Implier) : Option (ℤ × ℕ) :=
  match w.cursor i.leg1.1 i.leg1.2, w.cursor i.leg2.1 i.leg2.2 with
  | some c1, some c2 =>
    some (i.matchdPrice c1.price c2.price (w.conf e).miniTick, min c1.remain c2.remain)
  | _, _ => none

/-- The offer of the implier at place `k`, its price kept off the own side's best price. -/
def impliedOffer (w : World) (e : ℕ) (s : Side) (i : Implier) (k : ℕ) : Option Top :=
  (w.implied e i).map fun x => ⟨some k, engineClamp s (w.ownPrice e s) (w.conf e).miniTick x.1, x.2⟩

def localOffer (w : World) (e : ℕ) (s : Side) : Option Top :=
  (w.cursor e s).map fun c => ⟨none, c.price, c.remain⟩

/-- The offers to a taker of side `s` of engine `e`: the local book first, then the
    impliers by priority. -/
def offers (w : World) (e : ℕ) (s : Side) : List Top :=
  (w.localOffer e s).toList ++ ((w.conf e).impliers s).zipIdx.filterMap fun x =>
    w.impliedOffer e s x.1 x.2

/-- No implied price is a sentinel. -/
def Away (w : World) (e : ℕ) (s : Side) : Prop :=
  ∀ i ∈ (w.conf e).impliers s, ∀ x, w.implied e i = some x →
    x.1 ≠ marketPrice ∧ engineClamp s (w.ownPrice e s) (w.conf e).miniTick x.1 ≠ marketPrice

end World

/-- `t` is the best source: nothing offered is better, the local order wins every
    tie, then priority does. -/
structure BestSource (w : World) (e : ℕ) (s : Side) (t : Top) : Prop where
  none_iff : t.price = marketPrice ↔ w.offers e s = []
  offered : t.price ≠ marketPrice → t ∈ w.offers e s
  best : ∀ x ∈ w.offers e s, s.cmp x.price t.price = false
  localFirst : ∀ x ∈ w.offers e s, x.src = none → x.price = t.price → t.src = none
  priority : ∀ x ∈ w.offers e s, x.price = t.price → ∀ i j a b, t.src = some i →
    x.src = some j → i ≠ j → ((w.conf e).impliers s)[i]? = some a →
    ((w.conf e).impliers s)[j]? = some b → b.priority < a.priority
  positive : t.price ≠ marketPrice → 0 < t.quantity

variable {w : World} {e : ℕ} {s : Side}

/-- No source. -/
def Top.nothing : Top := ⟨none, marketPrice, 0⟩

/-- One turn of the loop of `top` is one turn of the scan. -/
theorem World.pureStep_offer (i : Implier) (k : ℕ) (t : Option Top)
    (haway : ∀ x, w.implied e i = some x → x.1 ≠ marketPrice)
    (ht : ∀ u, t = some u → u.price ≠ marketPrice) :
    Matcher.pureStep s (w.conf e).miniTick (w.ownPrice e s) k
      ⟨i, w.front i.leg1.1 i.leg1.2, w.front i.leg2.1 i.leg2.2⟩ (t.getD .nothing) =
      (choose s.cmp Top.price t (w.impliedOffer e s i k).toList).getD .nothing := by
  unfold World.impliedOffer Matcher.pureStep
  unfold World.implied at haway ⊢
  simp only [World.front]
  rcases h1 : w.cursor i.leg1.1 i.leg1.2 with _ | c1
  · rfl
  rcases h2 : w.cursor i.leg2.1 i.leg2.2 with _ | c2
  · rfl
  simp only [h1, h2, Option.some.injEq, forall_eq'] at haway
  simp only [haway, if_false, Option.map_some, Option.toList_some]
  have hmin : (if c1.remain < c2.remain then c1.remain else c2.remain) = min c1.remain c2.remain :=
    (min_def_lt ..).symm
  rw [hmin]
  rcases t with _ | u
  · simp [choose, Top.nothing, engineClamp]
  · have hu := ht u rfl
    simp only [choose, Option.getD_some, hu, false_or, engineClamp]
    rfl

/-- The loop of `top` is the scan of the implied offers. -/
theorem World.pureLoop_offers : ∀ (is : List Implier) (k : ℕ) (t : Option Top),
    (∀ i ∈ is, ∀ x, w.implied e i = some x →
      x.1 ≠ marketPrice ∧ engineClamp s (w.ownPrice e s) (w.conf e).miniTick x.1 ≠ marketPrice) →
    (∀ u, t = some u → u.price ≠ marketPrice) →
    Matcher.pureLoop s (w.conf e).miniTick (w.ownPrice e s) k
        (is.map fun i => ⟨i, w.front i.leg1.1 i.leg1.2, w.front i.leg2.1 i.leg2.2⟩)
          (t.getD .nothing) =
      (choose s.cmp Top.price t ((is.zipIdx k).filterMap fun x => w.impliedOffer e s x.1 x.2)).getD
        .nothing
  | [], _, _, _, _ => by simp [Matcher.pureLoop, choose]
  | i :: is, k, t, haway, ht => by
    have hi := haway i List.mem_cons_self
    rw [List.map_cons, Matcher.pureLoop, World.pureStep_offer i k t (fun x hx => (hi x hx).1) ht]
    have htail :=
      fun t ht => pureLoop_offers is (k + 1) t (fun j hj => haway j (List.mem_cons_of_mem _ hj)) ht
    rcases hoff : w.impliedOffer e s i k with _ | u
    · simp only [List.zipIdx_cons, List.filterMap_cons, hoff]
      exact htail t ht
    · simp only [List.zipIdx_cons, List.filterMap_cons, hoff]
      have hu : u.price ≠ marketPrice := by
        obtain ⟨x, hx, rfl⟩ := Option.map_eq_some_iff.mp hoff
        exact (hi x hx).2
      rcases t with _ | t
      · exact htail (some u) fun v hv => by cases hv; exact hu
      · refine htail (some (if s.cmp u.price t.price then u else t)) fun v hv => ?_
        cases hv
        split_ifs
        · exact hu
        · exact ht t rfl

/-- What `top` selects is the first of the best offers. -/
theorem World.offer_eq (haway : w.Away e s)
    (hmk : ∀ c, w.cursor e s = some c → c.price ≠ marketPrice) :
    w.offer e s = (choose s.cmp Top.price none (w.offers e s)).getD .nothing := by
  have hloop := World.pureLoop_offers (w := w) (e := e) (s := s) ((w.conf e).impliers s) 0
      (w.localOffer e s) haway fun u hu => by
    obtain ⟨c, hc, rfl⟩ := Option.map_eq_some_iff.mp hu
    exact hmk c hc
  have hstart : (w.localOffer e s).getD .nothing =
      ⟨none, ((w.front e s).cur.map Cursor.price).getD marketPrice,
        (w.front e s).topMatchingQuantity⟩ := by
    unfold World.localOffer World.front Iter.topMatchingQuantity
    rcases w.cursor e s with _ | c
    · rfl
    · rfl
  rw [hstart] at hloop
  rw [World.offer, Matcher.pureTop, World.matcher, hloop, World.offers]
  rcases w.localOffer e s with _ | u
  · rfl
  · rfl

/-! ### Ties -/

/-- The place of a source in the order of the scan. -/
def Top.place (t : Top) : ℕ := (t.src.map (· + 1)).getD 0

theorem World.offers_pairwise (w : World) (e : ℕ) (s : Side) :
    (w.offers e s).Pairwise (fun a b => a.place < b.place) := by
  have himp : ∀ {i : Implier} {k : ℕ} {t : Top}, w.impliedOffer e s i k = some t →
      t.place = k + 1 := by
    intro i k t h
    obtain ⟨x, _, rfl⟩ := Option.map_eq_some_iff.mp h
    rfl
  have hlist : ∀ (is : List Implier) (k : ℕ),
      ((is.zipIdx k).filterMap fun x => w.impliedOffer e s x.1 x.2).Pairwise
      (fun a b => a.place < b.place) := by
    intro is k
    refine List.Pairwise.filterMap _ (fun x y hxy a ha b hb => ?_)
      (List.pairwise_iff_getElem.mpr ?_ : (is.zipIdx k).Pairwise (fun x y => x.2 < y.2))
    · rw [himp ha, himp hb]
      omega
    · intro a b ha hb hab
      simp
      exact hab
  rw [World.offers, List.pairwise_append]
  refine ⟨?_, hlist _ 0, fun a ha b hb => ?_⟩
  · rcases w.localOffer e s with _ | u
    · exact List.Pairwise.nil
    · exact List.pairwise_singleton _ _
  · obtain ⟨c, _, rfl⟩ := Option.map_eq_some_iff.mp (Option.mem_toList.mp ha)
    obtain ⟨x, _, hx⟩ := List.mem_filterMap.mp hb
    rw [himp hx]
    exact Nat.succ_pos _

theorem FirstBest.place_le {xs : List Top} {t x : Top} (h : FirstBest s.cmp Top.price xs t)
    (hp : xs.Pairwise (fun a b => a.place < b.place)) (hx : x ∈ xs) (hxt : x.price = t.price) :
    t.place ≤ x.place := by
  obtain ⟨pre, post, rfl, hpre, _⟩ := h
  rcases List.mem_append.mp hx with hm | hm
  · have hlt := hpre x hm
    have hirr : s.cmp t.price t.price = false := StrictLt.irrefl _
    rw [hxt, hirr] at hlt
    cases hlt
  · rcases List.mem_cons.mp hm with rfl | hm
    · exact le_rfl
    · exact ((List.pairwise_cons.mp (List.pairwise_append.mp hp).2.1).1 x hm).le

theorem World.Live.cursor {l : ℕ} {c : Cursor} (hlive : w.Live) (hok : w.Ok)
    (hc : w.cursor l s = some c) :
    c.price ≠ marketPrice ∧ 0 < c.remain := by
  obtain ⟨m, hm, rfl⟩ := (Resolves.of_live (hok l) (hlive l)).front_of_cursor hc
  exact ⟨hm.limit, hm.remain⟩

/-- Every offer has a price and a quantity. -/
theorem World.offers_real (hok : w.Ok) (hlive : w.Live) (haway : w.Away e s) {t : Top}
    (ht : t ∈ w.offers e s) :
    t.price ≠ marketPrice ∧ 0 < t.quantity := by
  rcases List.mem_append.mp ht with ht | ht
  · obtain ⟨c, hc, rfl⟩ := Option.map_eq_some_iff.mp (Option.mem_toList.mp ht)
    exact hlive.cursor hok hc
  · obtain ⟨⟨i, k⟩, hik, ht⟩ := List.mem_filterMap.mp ht
    obtain ⟨x, hx, rfl⟩ := Option.map_eq_some_iff.mp ht
    refine ⟨(haway i (List.fst_mem_of_mem_zipIdx hik) x hx).2, ?_⟩
    unfold World.implied at hx
    rcases h1 : w.cursor i.leg1.1 i.leg1.2 with _ | c1
    · rw [h1] at hx; cases hx
    rcases h2 : w.cursor i.leg2.1 i.leg2.2 with _ | c2
    · rw [h1, h2] at hx; cases hx
    rw [h1, h2] at hx
    obtain rfl := Option.some.inj hx
    exact lt_min (hlive.cursor hok h1).2 (hlive.cursor hok h2).2

theorem World.offer_best (hok : w.Ok) (hlive : w.Live)
    (hdesc : ((w.conf e).impliers s).Pairwise (fun a b => b.priority < a.priority))
    (haway : w.Away e s) : BestSource w e s (w.offer e s) := by
  rw [World.offer_eq haway fun c hc => (hlive.cursor hok hc).1]
  rcases hch : choose s.cmp Top.price none (w.offers e s) with _ | t
  · have hnil := choose_none_iff.mp hch
    refine ⟨iff_of_true rfl hnil, fun h => absurd rfl h, ?_, ?_, ?_, fun h => absurd rfl h⟩
    all_goals
      rw [hnil]
      exact fun x hx => nomatch hx
  · have hf := choose_eq_some hch
    have hreal := World.offers_real hok hlive haway hf.mem
    refine ⟨iff_of_false hreal.1 (List.ne_nil_of_mem hf.mem), fun _ => hf.mem,
      fun x hx => hf.best hx, fun x hx hsrc hxt => ?_, fun x hx hxt i j a b hi hj hij ha hb => ?_,
      fun _ => hreal.2⟩
    · have hle := hf.place_le (w.offers_pairwise e s) hx hxt
      rw [Top.place, Top.place, hsrc] at hle
      rcases hts : t.src with _ | k
      · exact hts
      · rw [hts] at hle
        exact absurd hle (by simp)
    · have hle := hf.place_le (w.offers_pairwise e s) hx hxt
      simp only [Option.getD_some] at hi
      simp only [Top.place, hi, hj, Option.map_some, Option.getD_some,
        Nat.add_le_add_iff_right] at hle
      obtain ⟨hil, rfl⟩ := List.getElem?_eq_some_iff.mp ha
      obtain ⟨hjl, rfl⟩ := List.getElem?_eq_some_iff.mp hb
      exact List.pairwise_iff_getElem.mp hdesc i j hil hjl (lt_of_le_of_ne hle hij)

/-- Right after a `reset`, `top` selects the best source, over all impliers and books. -/
theorem top_selects_best (w : World) (e : ℕ) (s : Side) (hok : w.Ok) (hlive : w.Live)
    (hdesc : ((w.conf e).impliers s).Pairwise (fun a b => b.priority < a.priority))
    (haway : w.Away e s) :
    ∃ t, (do (← Matcher.reset w e s).top w) = .ok t ∧ BestSource w e s t := by
  have hf : Fronts w e s := Fronts.of_live hok hlive
  refine ⟨w.offer e s, ?_, World.offer_best hok hlive hdesc haway⟩
  rw [Matcher.reset_eq hf.src]
  exact World.top_matcher hok hf

/-- Two impliers of engine 0, each of two legs, the one with the higher priority first. -/
def twoImpliers : World :=
  { World.start 1 1000 with
    engines := fun l =>
      { (World.start 1 1000).engines l with
        askImpliers :=
          if l = 0 then
            [⟨2, (1, .buy), (2, .buy), fun a b _ => a + b⟩,
              ⟨1, (3, .buy), (4, .buy), fun a b _ => a + b⟩]
          else [] } }

/-- Sellers whose sums are 100 and 100 in the legs, and one at `p` in engine 0. -/
def tiedSellers (p : ℤ) : List (ℕ × Side × Order) :=
  [(1, .sell, .resting 5 .sell 50 2), (2, .sell, .resting 6 .sell 50 2),
    (3, .sell, .resting 7 .sell 40 2), (4, .sell, .resting 8 .sell 60 2),
    (0, .sell, .resting 9 .sell p 2)]

theorem tiedSellers_ok {p : ℤ} (hp : p = 100 ∨ p = 101) : (twoImpliers.rests (tiedSellers p)).Ok ∧
    (twoImpliers.rests (tiedSellers p)).Live ∧
      ∀ l, (twoImpliers.rests (tiedSellers p)).conf l = twoImpliers.conf l := by
  have hok : twoImpliers.Ok := fun _ => BooksOk.empty _ _ _
  have hlive : twoImpliers.Live := by
    intro l s p id h
    cases s <;> simp [twoImpliers, World.start, World.store, Store.book] at h
  rcases hp with rfl | rfl <;> exact World.rests_ok _ (by decide +kernel) hok hlive

theorem tiedSellers_away {p : ℤ} (hp : p = 100 ∨ p = 101) :
    (twoImpliers.rests (tiedSellers p)).Away 0 .buy := by
  intro i hi x hx
  rw [(tiedSellers_ok hp).2.2] at hi
  have hx : x = (100, 2) := by
    rcases List.mem_cons.mp hi with rfl | hi
    · rcases hp with rfl | rfl <;> exact (Option.some.inj hx).symm
    · obtain rfl := List.mem_singleton.mp hi
      rcases hp with rfl | rfl <;> exact (Option.some.inj hx).symm
  rw [hx]
  rcases hp with rfl | rfl <;> decide

/-- At one price the local order is selected before both impliers, and behind it the
    implier of higher priority. -/
theorem top_selects_best_tiedSellers : ∃ t u,
    (do (← Matcher.reset (twoImpliers.rests (tiedSellers 100)) 0 .buy).top
          (twoImpliers.rests (tiedSellers 100))) = .ok t ∧
    BestSource (twoImpliers.rests (tiedSellers 100)) 0 .buy t ∧ t = ⟨none, 100, 2⟩ ∧
    (do (← Matcher.reset (twoImpliers.rests (tiedSellers 101)) 0 .buy).top
          (twoImpliers.rests (tiedSellers 101))) = .ok u ∧
    BestSource (twoImpliers.rests (tiedSellers 101)) 0 .buy u ∧ u = ⟨some 0, 100, 2⟩ := by
  have hbest : ∀ p : ℤ, p = 100 ∨ p = 101 → ∃ t,
      (do (← Matcher.reset (twoImpliers.rests (tiedSellers p)) 0 .buy).top (twoImpliers.rests
        (tiedSellers p))) = .ok t ∧ BestSource (twoImpliers.rests (tiedSellers p)) 0 .buy t := by
    intro p hp
    obtain ⟨hok, hlive, hconf⟩ := tiedSellers_ok hp
    exact top_selects_best _ 0 .buy hok hlive (by rw [hconf]; decide) (tiedSellers_away hp)
  obtain ⟨t, ht, hbt⟩ := hbest 100 (.inl rfl)
  obtain ⟨u, hu, hbu⟩ := hbest 101 (.inr rfl)
  refine ⟨t, u, ht, hbt, Except.ok.inj (ht.symm.trans ?_), hu, hbu,
    Except.ok.inj (hu.symm.trans ?_)⟩ <;> decide +kernel

/-! ### `best_ask` and `best_bid` -/

/-- The price `top` finds for the first step of a taker of side `s`. -/
def World.executable (w : World) (e : ℕ) (s : Side) : Except Fault ℤ := do
  let m ← Matcher.reset w e s
  return (← m.top w).price

/-- The price the local order is offered at. -/
def World.localPrice (w : World) (e : ℕ) (s : Side) : ℤ :=
  ((w.cursor e s).map Cursor.price).getD marketPrice

/-- The prices the impliers make of their legs. -/
def World.impliedPrices (w : World) (e : ℕ) (s : Side) : List ℤ :=
  (((w.conf e).impliers s).filterMap fun i => (w.implied e i).map Prod.fst).filter (· ≠ marketPrice)

/-- Prices are 64-bit numbers, of which `MARKET_PRICE` is the largest, and the own side's best price
    can be moved by a tick. -/
structure World.Fits (w : World) (e : ℕ) (s : Side) : Prop where
  own : w.ownPrice e s ≤ marketPrice
  loc : ∀ c, w.cursor e s = some c → c.price ≤ marketPrice
  implied : ∀ m ∈ w.impliedPrices e s, m ≤ marketPrice
  moves : w.ownPrice e s ≠ marketPrice →
    s.cmp (w.ownPrice e s) (Matcher.beyondOwn s (w.ownPrice e s) (w.conf e).miniTick) = true

/-- The loop both functions are: `MARKET_PRICE` stands for nothing found. -/
def bestOf (s : Side) (p : ℤ) (l : List ℤ) : ℤ :=
  l.foldl (fun p m => if p = marketPrice ∨ s.cmp m p then m else p) p

variable {p : ℤ} {l : List ℤ}

theorem World.best_eq (w : World) (e : ℕ) (s : Side) :
    w.best e s = bestOf s (w.localPrice e s) (w.impliedPrices e s) := by
  have hfold : ∀ (is : List Implier) (p : ℤ),
      (is.map fun i =>
          (⟨i, w.front i.leg1.1 i.leg1.2, w.front i.leg2.1 i.leg2.2⟩ : ImpliedLegs)).foldl
        (fun price L =>
          match L.leg1.cur, L.leg2.cur with
          | some c1, some c2 =>
            let matched := L.imp.matchdPrice c1.price c2.price (w.conf e).miniTick
            if matched ≠ marketPrice ∧ (price = marketPrice ∨ s.cmp matched price) then matched
            else price
          | _, _ => price) p =
      bestOf s p
        ((is.filterMap fun i => (w.implied e i).map Prod.fst).filter (· ≠ marketPrice)) := by
    intro is
    induction is with
    | nil => exact fun _ => rfl
    | cons i is ih =>
      intro p
      simp only [List.map_cons, List.foldl_cons, List.filterMap_cons, World.implied, World.front]
      rcases w.cursor i.leg1.1 i.leg1.2 with _ | c1
      · exact ih p
      rcases w.cursor i.leg2.1 i.leg2.2 with _ | c2
      · exact ih p
      by_cases hm : i.matchdPrice c1.price c2.price (w.conf e).miniTick = marketPrice
      · simp only [Option.map_some, List.filter_cons, hm, ne_eq, not_true_eq_false, decide_false,
          Bool.false_eq_true, if_false, false_and]
        exact ih p
      · simp only [Option.map_some, List.filter_cons, hm, ne_eq, not_false_eq_true, decide_true,
          if_true, true_and]
        exact ih _
  exact hfold _ _

/-- The price `top` ends with. -/
theorem World.offer_price (w : World) (e : ℕ) (s : Side) :
    (w.offer e s).price = bestOf s (w.localPrice e s)
      ((w.impliedPrices e s).map (engineClamp s (w.ownPrice e s) (w.conf e).miniTick)) := by
  have hfold : ∀ (is : List Implier) (k : ℕ) (t : Top),
      (Matcher.pureLoop s (w.conf e).miniTick (w.ownPrice e s) k
        (is.map fun i => ⟨i, w.front i.leg1.1 i.leg1.2, w.front i.leg2.1 i.leg2.2⟩) t).price =
      bestOf s t.price
        (((is.filterMap fun i => (w.implied e i).map Prod.fst).filter (· ≠ marketPrice)).map
        (engineClamp s (w.ownPrice e s) (w.conf e).miniTick)) := by
    intro is
    induction is with
    | nil => exact fun _ _ => rfl
    | cons i is ih =>
      intro k t
      simp only [List.map_cons, Matcher.pureLoop, Matcher.pureStep, List.filterMap_cons,
        World.implied, World.front]
      rcases w.cursor i.leg1.1 i.leg1.2 with _ | c1
      · exact ih _ t
      rcases w.cursor i.leg2.1 i.leg2.2 with _ | c2
      · exact ih _ t
      by_cases hm : i.matchdPrice c1.price c2.price (w.conf e).miniTick = marketPrice
      · simp only [Option.map_some, List.filter_cons, hm, ne_eq, not_true_eq_false, decide_false,
          Bool.false_eq_true, if_false, if_true]
        exact ih _ t
      · simp only [Option.map_some, List.filter_cons, hm, ne_eq, not_false_eq_true, decide_true,
          if_true, if_false, List.map_cons]
        refine (ih _ _).trans (congrArg (bestOf s · _) ?_)
        rw [engineClamp, apply_ite Top.price]
  exact hfold _ 0 _

/-- What the loop ends with when no price it meets is `MARKET_PRICE`. -/
theorem bestOf_cases : ∀ {l : List ℤ} {p : ℤ}, (∀ m ∈ l, m ≠ marketPrice) →
    (bestOf s p l = p ∨ bestOf s p l ∈ l) ∧
      (bestOf s p l = marketPrice → p = marketPrice ∧ l = []) ∧
      (p ≠ marketPrice → s.cmp p (bestOf s p l) = false) ∧ ∀ m ∈ l, s.cmp m (bestOf s p l) = false
  | [], p, _ => ⟨Or.inl rfl, fun h => ⟨h, rfl⟩, fun _ => StrictLt.irrefl p, fun _ h => nomatch h⟩
  | m :: l, p, hl => by
    have hm := hl m List.mem_cons_self
    have hstep : bestOf s p (m :: l) = bestOf s (if p = marketPrice ∨ s.cmp m p then m else p) l :=
      rfl
    obtain ⟨hmem, hmk, hp, hall⟩ := bestOf_cases (p := if p = marketPrice ∨ s.cmp m p then m else p)
      (fun x hx => hl x (List.mem_cons_of_mem _ hx))
    rw [hstep]
    split_ifs at hmem hmk hp hall ⊢ with hc
    · refine ⟨Or.inr ?_, fun h => absurd (hmk h).1 hm, fun hpm => ?_, fun x hx => ?_⟩
      · rcases hmem with h | h
        · rw [h]
          exact List.mem_cons_self
        · exact List.mem_cons_of_mem _ h
      · by_contra hpr
        have hmp := hc.resolve_left hpm
        have hmr := StrictLt.trans hmp (by simpa using hpr)
        rw [hp hm] at hmr
        cases hmr
      · rcases List.mem_cons.mp hx with rfl | hx
        · exact hp hm
        · exact hall x hx
    · obtain ⟨hpm, hmp⟩ := not_or.mp hc
      refine ⟨hmem.imp id (List.mem_cons_of_mem _), fun h => absurd (hmk h).1 hpm, fun _ => hp hpm,
        fun x hx => ?_⟩
      rcases List.mem_cons.mp hx with rfl | hx
      · by_contra hxr
        exact hmp (StrictLt.trans_of_not (by simpa using hxr) (hp hpm))
      · exact hall x hx

/-- A `MARKET_PRICE` the loop meets changes nothing. -/
theorem bestOf_filter :
    ∀ {l : List ℤ} {p : ℤ}, (∀ m ∈ l, m = marketPrice → s = .buy) → p ≤ marketPrice →
      (∀ m ∈ l, m ≤ marketPrice) →
    bestOf s p l = bestOf s p (l.filter (· ≠ marketPrice))
  | [], _, _, _, _ => rfl
  | m :: l, p, hb, hp, hl => by
    have hstep : bestOf s p (m :: l) = bestOf s (if p = marketPrice ∨ s.cmp m p then m else p) l :=
      rfl
    have ih :=
      fun q (hq : q ≤ marketPrice) =>
        bestOf_filter (p := q) (fun x hx => hb x (List.mem_cons_of_mem _ hx)) hq
      fun x hx => hl x (List.mem_cons_of_mem _ hx)
    rw [hstep, List.filter_cons]
    by_cases hm : m = marketPrice
    · have hs := hb m List.mem_cons_self hm
      subst hs
      have hkeep : (if p = marketPrice ∨ Side.cmp .buy m p then m else p) = p := by
        split_ifs with hc
        · simp only [Side.cmp, decide_eq_true_eq] at hc
          omega
        · rfl
      rw [hkeep, ih p hp]
      simp [hm]
    · rw [ih _ (by split_ifs; exacts [hl m List.mem_cons_self, hp])]
      simp only [hm, ne_eq, not_false_eq_true, decide_true, if_true]
      rfl

theorem beyondOwn_le (s : Side) (own tick : ℤ) : Matcher.beyondOwn s own tick ≤ marketPrice := by
  have hle : ∀ x : ℤ, toI64 x ≤ marketPrice := fun x => by
    have hlt : toI64 x < ((2 ^ 64 : ℕ) + 1) / 2 := Int.bmod_lt (by decide)
    unfold marketPrice
    omega
  cases s <;> exact hle _

theorem World.Fits.localPrice_le (h : w.Fits e s) : w.localPrice e s ≤ marketPrice := by
  unfold World.localPrice
  rcases hc : w.cursor e s with _ | c
  · exact le_rfl
  · exact h.loc c hc

theorem World.mem_impliedPrices {m : ℤ} (h : m ∈ w.impliedPrices e s) : m ≠ marketPrice := by
  simpa using (List.mem_filter.mp h).2

/-- The clamped prices but for `MARKET_PRICE`. -/
theorem World.Fits.offer_price (h : w.Fits e s) : (w.offer e s).price = bestOf s (w.localPrice e s)
    (((w.impliedPrices e s).map (engineClamp s (w.ownPrice e s) (w.conf e).miniTick)).filter
      (· ≠ marketPrice)) := by
  rw [World.offer_price]
  refine bestOf_filter (fun x hx hxm => ?_) h.localPrice_le fun x hx => ?_
  · obtain ⟨m, hm, rfl⟩ := List.mem_map.mp hx
    unfold engineClamp at hxm
    split_ifs at hxm with hc
    · have hmove := h.moves hc.1
      have hown := h.own
      rw [hxm] at hmove
      cases s
      · rfl
      · simp only [Side.cmp, decide_eq_true_eq] at hmove
        omega
    · exact absurd hxm (World.mem_impliedPrices hm)
  · obtain ⟨m, hm, rfl⟩ := List.mem_map.mp hx
    unfold engineClamp
    split_ifs
    · exact beyondOwn_le ..
    · exact h.implied m hm

/-- The clamp moves nothing where no price is beyond that of the own side. -/
theorem clamped_same {own tick : ℤ} {ms : List ℤ} (hms : ∀ m ∈ ms, m ≠ marketPrice)
    (h : own = marketPrice ∨ ∀ m ∈ ms, s.cmp m own = false) :
    (ms.map (engineClamp s own tick)).filter (· ≠ marketPrice) = ms := by
  have hid : ∀ m ∈ ms, engineClamp s own tick m = m := fun m hm => by
    unfold engineClamp
    rw [if_neg]
    rintro ⟨hown, hcmp⟩
    rcases h with h | h
    · exact hown h
    · rw [h m hm] at hcmp
      cases hcmp
  rw [List.map_congr_left hid, List.map_id', List.filter_eq_self]
  simpa using hms

/-- A clamped price was moved beside that of the own side, or was not beyond it. -/
theorem clamped_cases {own tick : ℤ} {ms : List ℤ} {t : ℤ}
    (ht : t ∈ (ms.map (engineClamp s own tick)).filter (· ≠ marketPrice)) : t ≠ marketPrice ∧
      ((own ≠ marketPrice ∧ t = Matcher.beyondOwn s own tick ∧ ∃ m ∈ ms, s.cmp m own = true) ∨
      (t ∈ ms ∧ (own ≠ marketPrice → s.cmp t own = false))) := by
  obtain ⟨ht, htm⟩ := List.mem_filter.mp ht
  obtain ⟨m, hm, rfl⟩ := List.mem_map.mp ht
  refine ⟨by simpa using htm, ?_⟩
  unfold engineClamp
  split_ifs with hc
  · exact Or.inl ⟨hc.1, rfl, m, hm, hc.2⟩
  · exact Or.inr ⟨hm, fun hown => by simpa [hown] using hc⟩

/-- `best_ask()` and `best_bid()` give the price of the first execution step exactly when the own
    side has no best price, no implied price is beyond it, or the local order is at least as good as
    every implied one. -/
theorem best_price_agrees_iff (w : World) (e : ℕ) (s : Side) (hok : w.Ok) (hlive : w.Live)
    (hfits : w.Fits e s) :
    bestPrice w e s = w.executable e s ↔
      w.ownPrice e s = marketPrice ∨ (∀ m ∈ w.impliedPrices e s, s.cmp m (w.ownPrice e s) = false) ∨
        ∃ c, w.cursor e s = some c ∧ ∀ m ∈ w.impliedPrices e s, s.cmp m c.price = false := by
  have hf : Fronts w e s := Fronts.of_live hok hlive
  have hbest : bestPrice w e s = .ok (w.best e s) :=
    (bestPrice_cases hok e s).resolve_right fun h => h.2 hlive
  have hexec : w.executable e s = .ok (w.offer e s).price := by
    simp only [World.executable, Matcher.reset_eq hf.src, ok_bind, World.top_matcher hok hf,
      pure, Except.pure]
  rw [hbest, hexec, Except.ok.injEq, World.best_eq, hfits.offer_price]
  set own := w.ownPrice e s
  set tick := (w.conf e).miniTick
  set ms := w.impliedPrices e s
  have hms : ∀ m ∈ ms, m ≠ marketPrice := fun m hm => World.mem_impliedPrices hm
  obtain ⟨hbmem, hbm, hbp, hball⟩ := bestOf_cases (s := s) (p := w.localPrice e s) hms
  obtain ⟨htmem, _, htp, _⟩ :=
    bestOf_cases (s := s) (p := w.localPrice e s)
      fun t (ht : t ∈ (ms.map (engineClamp s own tick)).filter (· ≠ marketPrice)) =>
        (clamped_cases ht).1
  constructor
  · intro heq
    by_contra hnot
    simp only [not_or, not_forall, not_exists, not_and, Bool.not_eq_false] at hnot
    obtain ⟨hown, ⟨m, hm, hbeyond⟩, hloc⟩ := hnot
    have hb : s.cmp (bestOf s (w.localPrice e s) ms) own = true :=
      StrictLt.trans_not (hball m hm) hbeyond
    rcases htmem with ht | ht
    · -- the local order is what `top` selects, and it is not beyond an implied price
      rw [ht] at heq
      rcases hc : w.cursor e s with _ | c
      · have hp : w.localPrice e s = marketPrice := by rw [World.localPrice, hc]; rfl
        rw [(hbm (heq.trans hp)).2] at hm
        cases hm
      · have hp : w.localPrice e s = c.price := by rw [World.localPrice, hc]; rfl
        obtain ⟨m', hm', hbetter⟩ := hloc c hc
        have hle := hball m' hm'
        rw [heq, hp, hbetter] at hle
        cases hle
    · obtain ⟨_, ⟨_, hmoved, _⟩ | ⟨_, hin⟩⟩ := clamped_cases ht
      · have hmove := StrictLt.asymm (hfits.moves hown)
        rw [heq, hmoved, hmove] at hb
        cases hb
      · rw [heq, hin hown] at hb
        cases hb
  · rintro (hown | hnone | ⟨c, hc, hall⟩)
    · rw [clamped_same hms (Or.inl hown)]
    · rw [clamped_same hms (Or.inr hnone)]
    · have hp : w.localPrice e s = c.price := by rw [World.localPrice, hc]; rfl
      have hpm : w.localPrice e s ≠ marketPrice := by rw [hp]; exact (hlive.cursor hok hc).1
      rw [← hp] at hall
      have hstay : ∀ {x : ℤ}, s.cmp (w.localPrice e s) x = false →
          (x = w.localPrice e s ∨ s.cmp x (w.localPrice e s) = false) → x = w.localPrice e s :=
          fun h1 h2 => h2.elim id fun h2 => StrictLt.eq_of_not h2 h1
      have hbest : bestOf s (w.localPrice e s) ms = w.localPrice e s := by
        exact hstay (hbp hpm) (hbmem.imp id fun hin => hall _ hin)
      have htop : bestOf s (w.localPrice e s)
          ((ms.map (engineClamp s own tick)).filter (· ≠ marketPrice)) = w.localPrice e s := by
        refine hstay (htp hpm) (htmem.imp id fun hin => ?_)
        obtain ⟨_, ⟨hown, hmoved, m, hm, hbeyond⟩ | ⟨hin, _⟩⟩ := clamped_cases hin
        · -- the local order is at least as good as a price that is beyond the own side's best one
          rw [hmoved]
          by_contra hc'
          have hself :=
            StrictLt.trans (StrictLt.trans hbeyond (hfits.moves hown)) (by simpa using hc')
          rw [hall m hm] at hself
          cases hself
        · exact hall _ hin
      rw [hbest, htop]

theorem touchedAsks_fits : touchedAsks.Fits 0 .buy := by
  have hcur : touchedAsks.cursor 0 .buy = none := rfl
  have himp : touchedAsks.impliedPrices 0 .buy = [100] := by decide
  refine ⟨by decide, fun c hc => ?_, fun m hm => ?_, fun _ => by decide⟩
  · rw [hcur] at hc
    cases hc
  · rw [himp] at hm
    obtain rfl := List.mem_singleton.mp hm
    decide

theorem best_price_agrees_iff_touchedAsks :
    bestPrice touchedAsks 0 .buy = touchedAsks.executable 0 .buy ↔
      touchedAsks.ownPrice 0 .buy = marketPrice ∨
        (∀ m ∈ touchedAsks.impliedPrices 0 .buy,
          Side.cmp .buy m (touchedAsks.ownPrice 0 .buy) = false) ∨
          ∃ c, touchedAsks.cursor 0 .buy = some c ∧ ∀ m ∈ touchedAsks.impliedPrices 0 .buy,
            Side.cmp .buy m c.price = false :=
  best_price_agrees_iff touchedAsks 0 .buy touchedAsks_ok.1 touchedAsks_ok.2 touchedAsks_fits

/-- The two asks at 50 with a buy order at 101 in engine 0. -/
def passedAsks : World := twoAsks.rest 0 .buy .arg (.resting 9 .buy 101 1)

/-- `best_ask()` is 100, and a buyer executes at 102. -/
theorem passedAsks_disagrees :
    bestPrice passedAsks 0 .buy = .ok 100 ∧ passedAsks.executable 0 .buy = .ok 102 ∧
      bestPrice passedAsks 0 .buy ≠ passedAsks.executable 0 .buy := by
  have hbest : bestPrice passedAsks 0 .buy = .ok 100 := by decide +kernel
  have hexec : passedAsks.executable 0 .buy = .ok 102 := by decide +kernel
  refine ⟨hbest, hexec, ?_⟩
  rw [hbest, hexec]
  decide

end Matching
