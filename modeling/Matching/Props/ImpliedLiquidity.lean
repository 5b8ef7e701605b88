import Matching.Lib.Rounding
import Matching.Lib.Runs
import Matching.Md.Pass

/-! What an implied book keeps of the legs' liquidity. The walk of `handle_implied` pairs the units
    of the two legs, best prices first, so its steps have the quantity of the smaller leg in all.
    The implied book has one level a price, and a later step replaces an earlier one there: nothing
    is lost exactly where no two pairs of leg levels that meet in the walk come out at one price. -/

namespace Matching.Md

variable {h : Half} {leg1 leg2 walk : List (ℤ × ℕ)} {implied : BookMap} {outright : BasicBook}
  {ip : ℤ → ℤ → ℤ → ℤ} {tick : ℤ}
  {best : Option ℤ}

/-! ### The walk -/

/-- The quantity of a list of levels or steps. -/
def quantity (xs : List (ℤ × ℕ)) : ℕ := (xs.map Prod.snd).sum

/-- The quantity of the steps whose price is `limit` or better. -/
def quantityTo (h : Half) (limit : ℤ) (xs : List (ℤ × ℕ)) : ℕ :=
  quantity (xs.filter fun x => !h.better limit x.1)

/-- The price a pair of leg prices comes out at. -/
def impliedPrice (h : Half) (ip : ℤ → ℤ → ℤ → ℤ) (best : Option ℤ) (tick : ℤ) (x : ℤ × ℤ) : ℤ :=
  clamp h best tick (ip x.1 x.2 tick)

theorem impliedWalk_eq : ∀ (n : ℕ) (leg1 leg2 : List (ℤ × ℕ)),
    impliedWalk h ip best tick n leg1 leg2 = (Runs.zipRuns n leg1 leg2).map fun x =>
      (impliedPrice h ip best tick x.1, x.2)
  | 0, _, _ => by simp [impliedWalk, Runs.zipRuns]
  | _ + 1, [], _ => by simp [impliedWalk, Runs.zipRuns]
  | _ + 1, _ :: _, [] => by simp [impliedWalk, Runs.zipRuns]
  | n + 1, (p1, q1) :: leg1, (p2, q2) :: leg2 => by
    simp only [impliedWalk, Runs.zipRuns, List.map_cons]
    rw [impliedWalk_eq n]
    rfl

/-- The steps have the quantity of the smaller leg. -/
theorem quantity_walk (leg1 leg2 : List (ℤ × ℕ)) :
    quantity (impliedWalk h ip best tick (leg1.length + leg2.length) leg1 leg2) =
      min (quantity leg1) (quantity leg2) := by
  have hzip :=
    congrArg List.length (Runs.expand_zipRuns (leg1.length + leg2.length) leg1 leg2 le_rfl)
  rw [List.length_zip, Runs.length_expand, Runs.length_expand, Runs.length_expand] at hzip
  rw [impliedWalk_eq, quantity, List.map_map]
  exact hzip

/-- No two pairs of leg levels that meet, when the units of the legs are paired best first,
    come out at one price. -/
def OneStep (h : Half) (ip : ℤ → ℤ → ℤ → ℤ) (best : Option ℤ) (tick : ℤ)
    (leg1 leg2 : List (ℤ × ℕ)) : Prop :=
  ∀ x ∈ (Runs.expand leg1).zip (Runs.expand leg2), ∀ y ∈ (Runs.expand leg1).zip (Runs.expand leg2),
    impliedPrice h ip best tick x = impliedPrice h ip best tick y → x = y

instance : Decidable (OneStep h ip best tick leg1 leg2) :=
  inferInstanceAs (Decidable (∀ x ∈ (Runs.expand leg1).zip (Runs.expand leg2),
    ∀ y ∈ (Runs.expand leg1).zip (Runs.expand leg2),
      impliedPrice h ip best tick x = impliedPrice h ip best tick y → x = y))

theorem nodup_walk_iff (h1 : ∀ x ∈ leg1, 0 < x.2) (h2 : ∀ x ∈ leg2, 0 < x.2)
    (hn1 : (leg1.map Prod.fst).Nodup) (hn2 : (leg2.map Prod.fst).Nodup) :
    ((impliedWalk h ip best tick (leg1.length + leg2.length) leg1 leg2).map Prod.fst).Nodup ↔
      OneStep h ip best tick leg1 leg2 := by
  set n := leg1.length + leg2.length with hn
  have hkeys : (impliedWalk h ip best tick n leg1 leg2).map Prod.fst =
      ((Runs.zipRuns n leg1 leg2).map Prod.fst).map (impliedPrice h ip best tick) := by
    rw [impliedWalk_eq, List.map_map, List.map_map]
    rfl
  have hmem : ∀ x, x ∈ (Runs.zipRuns n leg1 leg2).map Prod.fst ↔
      x ∈ (Runs.expand leg1).zip (Runs.expand leg2) := fun x => by
    rw [← Runs.expand_zipRuns n leg1 leg2 le_rfl,
      Runs.mem_expand fun z hz => (Runs.mem_zipRuns hz h1 h2).2.2]
  rw [hkeys, List.nodup_map_iff_inj_on (Runs.nodup_zipRuns h1 h2 hn1 hn2), OneStep]
  simp only [hmem]

/-! ### The implied book -/

/-- The quantity of an implied book, and that at `limit` or better. -/
def BookMap.depth (m : BookMap) : ℕ := m.total fun _ v => v.quantity

def BookMap.depthTo (h : Half) (limit : ℤ) (m : BookMap) : ℕ :=
  m.total fun p v => if h.better limit p then 0 else v.quantity

/-- The level of a step. -/
def stepItem (h : Half) (x : ℤ × ℕ) : BookItem := ⟨x.1, x.2, h.side, 0⟩

theorem total_newImplied_concat (f : ℤ → BookItem → ℕ) (h : Half) (walk : List (ℤ × ℕ))
    (x : ℤ × ℕ) :
    (newImplied h (walk ++ [x])).total f + (newImplied h walk).share f x.1 =
      (newImplied h walk).total f + f x.1 (stepItem h x) := by
  rw [newImplied_concat]
  exact OrdMap.total_insert f _ _ _

/-- A step at a price of its own is in the book. -/
theorem total_newImplied (f : ℤ → BookItem → ℕ) (h : Half) {walk : List (ℤ × ℕ)}
    (hnd : (walk.map Prod.fst).Nodup) :
    (newImplied h walk).total f = (walk.map fun x => f x.1 (stepItem h x)).sum := by
  induction walk using List.reverseRecOn with
  | nil => rfl
  | append_singleton walk x ih =>
    rw [List.map_append, List.nodup_append] at hnd
    have hstep := total_newImplied_concat f h walk x
    have hnone : (newImplied h walk).find? x.1 = none := by
      by_contra hne
      exact hnd.2.2 x.1 ((newImplied_find_iff h).mp hne) x.1 (by simp) rfl
    rw [OrdMap.share, hnone] at hstep
    rw [List.map_append, List.sum_append, ← ih hnd.1, List.map_singleton, List.sum_singleton]
    exact hstep

/-- Of two steps at one price the first is lost. -/
theorem depth_newImplied_lt (h : Half) {walk : List (ℤ × ℕ)} (hpos : ∀ x ∈ walk, 0 < x.2)
    (hnd : ¬(walk.map Prod.fst).Nodup) :
    (newImplied h walk).depth < quantity walk := by
  induction walk using List.reverseRecOn with
  | nil => exact absurd List.nodup_nil hnd
  | append_singleton walk x ih =>
    have hstep := total_newImplied_concat (fun _ v => v.quantity) h walk x
    have hsum : quantity (walk ++ [x]) = quantity walk + x.2 := by
      rw [quantity, List.map_append, List.sum_append, List.map_singleton, List.sum_singleton]
      rfl
    have hposw : ∀ y ∈ walk, 0 < y.2 := fun y hy => hpos y (List.mem_append_left _ hy)
    rw [hsum]
    by_cases hw : (walk.map Prod.fst).Nodup
    · -- the price of the last step is there already, with a quantity
      have hx : x.1 ∈ walk.map Prod.fst := by
        by_contra hx
        refine hnd ?_
        rw [List.map_append, List.nodup_append]
        refine ⟨hw, List.nodup_singleton _, fun a ha b hb => ?_⟩
        rintro rfl
        exact hx (List.mem_singleton.mp hb ▸ ha)
      have hall := total_newImplied (fun _ v => v.quantity) h hw
      have hshare : 0 < (newImplied h walk).share (fun _ v => v.quantity) x.1 := by
        obtain ⟨f, hf⟩ := newImplied_shows h hposw
        obtain ⟨v, hv⟩ := Option.ne_none_iff_exists'.mp ((newImplied_find_iff h).mpr hx)
        obtain ⟨hve, h0⟩ := hf.level hv
        rw [OrdMap.share, hv, Option.map_some, Option.getD_some, hve]
        exact Nat.pos_of_ne_zero h0
      have hq : (newImplied h walk).total (fun _ v => v.quantity) = quantity walk := hall
      change (newImplied h (walk ++ [x])).total (fun _ v => v.quantity) < _
      change _ = (newImplied h walk).total (fun _ v => v.quantity) + x.2 at hstep
      omega
    · have hlt := ih hposw hw
      change (newImplied h (walk ++ [x])).total (fun _ v => v.quantity) < _
      change (newImplied h walk).total (fun _ v => v.quantity) < _ at hlt
      change _ = (newImplied h walk).total (fun _ v => v.quantity) + x.2 at hstep
      omega

theorem sum_depthTo (h : Half) (limit : ℤ) : ∀ walk : List (ℤ × ℕ),
    (walk.map fun x => if h.better limit x.1 then 0 else (stepItem h x).quantity).sum =
      quantityTo h limit walk
  | [] => rfl
  | x :: walk => by
    rw [List.map_cons, List.sum_cons, sum_depthTo h limit walk, quantityTo, quantityTo,
      List.filter_cons]
    cases hb : h.better limit x.1
    · simp [quantity, stepItem]
    · simp [quantity]

/-- For any legs with quantities, implier, tick and outright book: the implied book has the quantity
    of the smaller leg, and at every limit or better that of the steps there, exactly where no two
    pairs of leg levels that meet come out at one price. -/
theorem implied_conserves_iff (h1 : ∀ x ∈ leg1, 0 < x.2) (h2 : ∀ x ∈ leg2, 0 < x.2)
    (hn1 : (leg1.map Prod.fst).Nodup) (hn2 : (leg2.map Prod.fst).Nodup) :
    ((handleImplied h leg1 leg2 implied outright ip tick).2.1.depth =
      min (quantity leg1) (quantity leg2) ∧
      ∀ limit, (handleImplied h leg1 leg2 implied outright ip tick).2.1.depthTo h limit =
        quantityTo h limit
          (impliedWalk h ip (outright.best? h.opp) tick (leg1.length + leg2.length) leg1 leg2)) ↔
    OneStep h ip (outright.best? h.opp) tick leg1 leg2 := by
  set walk :=
    impliedWalk h ip (outright.best? h.opp) tick (leg1.length + leg2.length) leg1 leg2 with hwalk
  have hbook : (handleImplied h leg1 leg2 implied outright ip tick).2.1 = newImplied h walk := rfl
  have htotal : quantity walk = min (quantity leg1) (quantity leg2) := quantity_walk leg1 leg2
  rw [hbook, ← nodup_walk_iff h1 h2 hn1 hn2, ← htotal]
  constructor
  · rintro ⟨hall, -⟩
    by_contra hnd
    exact (depth_newImplied_lt h (impliedWalk_pos _ _ _ h1 h2) hnd).ne hall
  · intro hnd
    refine ⟨total_newImplied _ h hnd, fun limit => ?_⟩
    rw [BookMap.depthTo, total_newImplied _ h hnd, sum_depthTo]

/-- The implied bid of two bids. -/
def sumBid (a b tick : ℤ) : ℤ := floorTo tick (a + b)

theorem implied_conserves_iff_tickOne :
    ((handleImplied .bid [(11, 1), (10, 1)] [(10, 2)] .empty .empty sumBid 1).2.1.depth = 2 ∧
      ∀ limit,
        (handleImplied .bid [(11, 1), (10, 1)] [(10, 2)] .empty .empty sumBid 1).2.1.depthTo .bid
          limit = quantityTo .bid limit [(21, 1), (20, 1)]) ↔
          OneStep .bid sumBid none 1 [(11, 1), (10, 1)] [(10, 2)] :=
  implied_conserves_iff (by decide) (by decide) (by decide) (by decide)

/-- With a tick of 5 both pairs come out at 20, and one unit is lost. -/
theorem tickFive_loses :
    (handleImplied .bid [(11, 1), (10, 1)] [(10, 2)] .empty .empty sumBid 5).2.1.depth = 1 ∧
    min (quantity [(11, 1), (10, 1)]) (quantity [(10, 2)]) = 2 := by decide +kernel

end Matching.Md
