import Matching.Md.Pass

/-! When implied depth is stale. The tables of `handle_a` and `handle_b` name every type that reads
    the half that changed, so an implied half is always what its legs and the best outright price at
    its last pass make of it (`Reach.current`). It is stale where that best price has moved since
    and the move matters. -/

namespace Matching.Md

variable {g : ImpliedBook} {h h1 h2 : Half} {best : Option ℤ} {ip : ℤ → ℤ → ℤ → ℤ} {tick : ℤ}

/-! ### The walk and the best price -/

/-- The best price of the opposite half leaves the price alone. -/
def Free (h : Half) (best : Option ℤ) (price : ℤ) : Prop := ∀ b, best = some b → h.better b price

theorem clamp_of_free {price : ℤ} (hf : Free h best price) : clamp h best tick price = price := by
  cases best with
  | none => cases h <;> rfl
  | some b =>
    have hb := hf b rfl
    cases h with
    | bid =>
      simp only [Half.better, decide_eq_true_eq] at hb
      exact if_neg (by omega)
    | ask =>
      simp only [Half.better, decide_eq_true_eq] at hb
      exact if_neg (by omega)

/-- The best price plays no part in the steps of the walk. -/
theorem impliedWalk_clamp : ∀ (n : ℕ) (leg1 leg2 : List (ℤ × ℕ)),
    impliedWalk h ip best tick n leg1 leg2 =
      (impliedWalk h ip none tick n leg1 leg2).map (fun x => (clamp h best tick x.1, x.2))
  | 0, _, _ => rfl
  | _ + 1, [], _ => rfl
  | _ + 1, _ :: _, [] => rfl
  | n + 1, (p1, q1) :: leg1, (p2, q2) :: leg2 => by
    have hnone : ∀ p, clamp h none tick p = p := fun p => by cases h <;> rfl
    simp only [impliedWalk, List.map_cons, hnone]
    rw [impliedWalk_clamp n]

theorem impliedWalk_of_free {n : ℕ} {leg1 leg2 : List (ℤ × ℕ)}
    (hf : ∀ x ∈ impliedWalk h ip none tick n leg1 leg2, Free h best x.1) :
    impliedWalk h ip best tick n leg1 leg2 = impliedWalk h ip none tick n leg1 leg2 := by
  rw [impliedWalk_clamp]
  exact List.map_congr_left (g := id) (fun x hx => by rw [clamp_of_free (hf x hx)]; rfl)
    |>.trans (List.map_id _)

/-- A price of the walk leaves the best price alone, when moving that by a
    tick does not wrap round. -/
theorem clamp_free (htick : 0 < tick) {price : ℤ}
    (hroom : ∀ b, best = some b → toI64 (b - tick) = b - tick ∧ toI64 (b + tick) = b + tick) :
    Free h best (clamp h best tick price) := by
  rintro b rfl
  obtain ⟨hsub, hadd⟩ := hroom b rfl
  cases h with
  | bid =>
    simp only [clamp, hsub, Half.better, decide_eq_true_eq]
    split_ifs <;> omega
  | ask =>
    simp only [clamp, hadd, Half.better, decide_eq_true_eq]
    split_ifs <;> omega

/-! ### What an implied half is made of -/

namespace ImpliedBook

/-- The implied book of the legs `h1` and `h2`, made with the best opposite price `best`. -/
def implies (g : ImpliedBook) (tick : ℤ) (h h1 h2 : Half) (ip : ℤ → ℤ → ℤ → ℤ) (best : Option ℤ) :
    BookMap :=
  newImplied h
    (impliedWalk h ip best tick ((g.a.levels h1).length + (g.b.levels h2).length) (g.a.levels h1)
    (g.b.levels h2))

/-- What `handle_implied` would compute for half `h`, when the half has legs and an implier. -/
def afresh (g : ImpliedBook) (tick : ℤ) (h : Half) (outright : BasicBook) : Option BookMap :=
  match (g.implieType h).legs, g.implier h with
  | some (h1, h2), some ip =>
    some (handleImplied h (g.a.levels h1) (g.b.levels h2) (g.implied h) outright ip tick).2.1
  | _, _ => none

/-- The prices and quantities the implier makes of the legs, before any is moved
    off the outright book. -/
def combined (g : ImpliedBook) (tick : ℤ) (h : Half) : List (ℤ × ℕ) :=
  match (g.implieType h).legs, g.implier h with
  | some (h1, h2), some ip =>
    impliedWalk h ip none tick ((g.a.levels h1).length + (g.b.levels h2).length) (g.a.levels h1)
      (g.b.levels h2)
  | _, _ => []

/-- Half `h` is made of the legs as they are and of the best price its last pass saw. -/
def CurrentAt (g : ImpliedBook) (tick : ℤ) (h : Half) : Prop :=
  ∀ h1 h2 ip, (g.implieType h).legs = some (h1, h2) → g.implier h = some ip →
    g.implied h = g.implies tick h h1 h2 ip (g.seen h)

theorem afresh_eq (hl : (g.implieType h).legs = some (h1, h2)) (hi : g.implier h = some ip)
    (outright : BasicBook) :
    g.afresh tick h outright = some (g.implies tick h h1 h2 ip (outright.best? h.opp)) := by
  rw [afresh, hl, hi]
  rfl

theorem combined_eq (hl : (g.implieType h).legs = some (h1, h2)) (hi : g.implier h = some ip) :
    g.combined tick h = impliedWalk h ip none tick ((g.a.levels h1).length + (g.b.levels h2).length)
      (g.a.levels h1)
      (g.b.levels h2) := by rw [combined, hl, hi]

theorem CurrentAt.setA {a : BasicBook} (hc : g.CurrentAt tick h)
    (hlev : ∀ h1 h2, (g.implieType h).legs = some (h1, h2) → a.levels h1 = g.a.levels h1) :
    ({ g with a := a } : ImpliedBook).CurrentAt tick h := by
  intro h1 h2 ip hl hi
  have hl' : (g.implieType h).legs = some (h1, h2) := by cases h <;> exact hl
  have hcur := hc h1 h2 ip hl' (by cases h <;> exact hi)
  rw [implies, ← hlev h1 h2 hl'] at hcur
  cases h <;> exact hcur

theorem CurrentAt.setB {b : BasicBook} (hc : g.CurrentAt tick h)
    (hlev : ∀ h1 h2, (g.implieType h).legs = some (h1, h2) → b.levels h2 = g.b.levels h2) :
    ({ g with b := b } : ImpliedBook).CurrentAt tick h := by
  intro h1 h2 ip hl hi
  have hl' : (g.implieType h).legs = some (h1, h2) := by cases h <;> exact hl
  have hcur := hc h1 h2 ip hl' (by cases h <;> exact hi)
  rw [implies, ← hlev h1 h2 hl'] at hcur
  cases h <;> exact hcur

/-- A price the legs' combinations do not reach plays no part. -/
theorem implies_of_free (hl : (g.implieType h).legs = some (h1, h2)) (hi : g.implier h = some ip)
    (hf : ∀ x ∈ g.combined tick h, Free h best x.1) :
    g.implies tick h h1 h2 ip best = g.implies tick h h1 h2 ip none := by
  rw [combined_eq hl hi] at hf
  rw [implies, implies, impliedWalk_of_free hf]

end ImpliedBook

/-- An implied book keeps off the best price it was made with. -/
theorem ImpliedBook.implies_free (htick : 0 < tick)
    (hroom : ∀ b, best = some b → toI64 (b - tick) = b - tick ∧ toI64 (b + tick) = b + tick) {p : ℤ}
    (hp : (g.implies tick h h1 h2 ip best).find? p ≠ none) : Free h best p := by
  obtain ⟨x, hx, rfl⟩ := List.mem_map.mp ((newImplied_find_iff h).mp hp)
  rw [impliedWalk_clamp] at hx
  obtain ⟨y, _, rfl⟩ := List.mem_map.mp hx
  exact clamp_free htick hroom

/-! ### The tables -/

/-- `handle_odr` tells the half it changed. -/
theorem BasicBook.handleOdr_half (b : BasicBook) (o : Order) (h : Half) :
    (b.handleOdr o).2.side = h.side ∨ (b.handleOdr o).1.half h = b.half h := by
  by_cases hskip : o.price = stopPrice ∨ o.bookHalf = none
  · rw [handleOdr_skip b hskip]
    exact Or.inr rfl
  obtain ⟨hp, hn⟩ := not_or.mp hskip
  obtain ⟨h', hh⟩ := Option.ne_none_iff_exists'.mp hn
  rw [handleOdr_eq b hp hh]
  set moved := b.moveQuantity h' o.price (b.recordOf o.orderId) o.calcRemainQuantity with hmoved
  have hhalf : ({ moved.1 with orders := b.record o } : BasicBook).half h = moved.1.half h := by
    cases h <;> rfl
  rw [hhalf]
  rcases Half.eq_or_opp h' h with rfl | rfl
  · -- the half of the order: a move that tells nothing does nothing
    rw [hmoved]
    unfold moveQuantity addQuantity reduceQuantity
    split_ifs
    · exact Or.inl rfl
    · split
      · exact Or.inr (by cases h <;> rfl)
      · exact Or.inl rfl
    · exact Or.inr rfl
  · exact Or.inr (moveQuantity_within b h' _ _ _).other

theorem MdBook.mem_typesOfA {t : ImplierType} (hl : t.legs = some (h1, h2)) :
    t ∈ typesOfA h1.side := by
  cases t <;> simp only [ImplierType.legs, Option.some.injEq, Prod.mk.injEq, reduceCtorEq] at hl <;>
    obtain ⟨rfl, rfl⟩ := hl <;> decide

theorem MdBook.mem_typesOfB {t : ImplierType} (hl : t.legs = some (h1, h2)) :
    t ∈ typesOfB h2.side := by
  cases t <;> simp only [ImplierType.legs, Option.some.injEq, Prod.mk.injEq, reduceCtorEq] at hl <;>
    obtain ⟨rfl, rfl⟩ := hl <;> decide

namespace MdBook

variable {s : Part} {types : List ImplierType} {m : MdBook} {o : Order} {i : ℕ}
  {ok : MdBook → Call → Prop}

@[simp] theorem Part.implieType_refresh (tick : ℤ) (h h' : Half) (types : List ImplierType)
    (s : Part) :
    (s.refresh tick h types).book.implieType h' = s.book.implieType h' := by
  rcases s.refresh_cases tick h types with heq | ⟨_, _, _, _, _, _, heq⟩
  · rw [heq]
  · rw [heq, ImpliedBook.implieType_setImplied]

/-- A pass makes its half current and leaves the other half as it is. -/
theorem Part.refresh_currentAt {h' : Half}
    (hc : (h' = h ∧ s.book.implieType h' ∈ types) ∨ s.book.CurrentAt tick h') :
    (s.refresh tick h types).book.CurrentAt tick h' := by
  rcases s.refresh_cases tick h types with heq | ⟨h1, h2, ip, ht, hl, hi, heq⟩
  · rw [heq]
    rcases hc with ⟨rfl, ht⟩ | hc
    · -- no pass although the type is named: there is nothing to compute
      intro h1 h2 ip hl hi
      have hseen := congrArg (fun s : Part => s.book) heq
      rw [Part.refresh, if_pos ht, hl, hi] at hseen
      have him : (s.book.setImplied h' _ _).implied h' = s.book.implied h' :=
        congrArg (fun g => g.implied h') hseen
      have hsn : (s.book.setImplied h' _ _).seen h' = s.book.seen h' :=
        congrArg (fun g => g.seen h') hseen
      rw [ImpliedBook.implied_setImplied] at him
      rw [ImpliedBook.seen_setImplied] at hsn
      rw [← him, ← hsn]
      rfl
    · exact hc
  · rw [heq]
    intro k1 k2 ip' hl' hi'
    rw [ImpliedBook.implieType_setImplied] at hl'
    rw [ImpliedBook.implier_setImplied] at hi'
    simp only [ImpliedBook.implies, ImpliedBook.a_setImplied, ImpliedBook.b_setImplied]
    rcases Half.eq_or_opp h h' with rfl | rfl
    · rw [hl] at hl'
      rw [hi] at hi'
      obtain ⟨rfl, rfl⟩ := Prod.mk.inj (Option.some.inj hl')
      obtain rfl := Option.some.inj hi'
      rw [ImpliedBook.implied_setImplied, ImpliedBook.seen_setImplied]
      rfl
    · have hc' := hc.resolve_left (fun hn => Half.opp_ne h hn.1)
      rw [ImpliedBook.implied_opp_setImplied, ImpliedBook.seen_opp_setImplied]
      exact hc' k1 k2 ip' hl' hi'

/-- The passes over both halves, for the types a leg's change concerns. -/
theorem Part.refresh_both (hc : ∀ h, s.book.implieType h ∈ types ∨ s.book.CurrentAt tick h)
    (h : Half) :
    ((s.refresh tick .bid types).refresh tick .ask types).book.CurrentAt tick h := by
  cases h with
  | bid =>
    refine Part.refresh_currentAt (Or.inr (Part.refresh_currentAt ?_))
    exact (hc .bid).imp (fun ht => ⟨rfl, ht⟩) id
  | ask =>
    rcases hc .ask with ht | hcur
    · exact Part.refresh_currentAt (Or.inl ⟨rfl, by rw [Part.implieType_refresh]; exact ht⟩)
    · exact Part.refresh_currentAt (Or.inr (Part.refresh_currentAt (Or.inr hcur)))

theorem Part.handleA_current (o : Order) (hc : ∀ h, s.book.CurrentAt tick h) (h : Half) :
    (s.handleA tick o).book.CurrentAt tick h := by
  refine Part.refresh_both (fun h' => ?_) h
  by_cases ht : s.book.implieType h' ∈ typesOfA (s.book.a.handleOdr o).2.side
  · exact Or.inl ht
  · -- the type does not read the half that changed, so its legs are the same
    refine Or.inr ((hc h').setA fun h1 h2 hl => ?_)
    have hsame := (s.book.a.handleOdr_half o h1).resolve_left (fun hs => ht (hs ▸ mem_typesOfA hl))
    have hlevels : (s.book.a.handleOdr o).1.levels h1 = s.book.a.levels h1 := by
      rw [BasicBook.levels, BasicBook.levels, hsame]
    exact hlevels

theorem Part.handleB_current (o : Order) (hc : ∀ h, s.book.CurrentAt tick h) (h : Half) :
    (s.handleB tick o).book.CurrentAt tick h := by
  refine Part.refresh_both (fun h' => ?_) h
  by_cases ht : s.book.implieType h' ∈ typesOfB (s.book.b.handleOdr o).2.side
  · exact Or.inl ht
  · refine Or.inr ((hc h').setB fun h1 h2 hl => ?_)
    have hsame := (s.book.b.handleOdr_half o h2).resolve_left (fun hs => ht (hs ▸ mem_typesOfB hl))
    have hlevels : (s.book.b.handleOdr o).1.levels h2 = s.book.b.levels h2 := by
      rw [BasicBook.levels, BasicBook.levels, hsame]
    exact hlevels

/-! ### Runs -/

theorem onBook_all {P : ImpliedBook → Prop} {f : Part → Part}
    (hf : ∀ s : Part, P s.book → P (f s).book) (hm : ∀ g ∈ m.impliedBooks, P g) :
    (m.onBook i f).miniTick = m.miniTick ∧ ∀ g ∈ (m.onBook i f).impliedBooks, P g := by
  rcases m.onBook_cases i f with ⟨_, heq⟩ | ⟨l1, g, l2, s, hl, hg, rfl, heq⟩
  · rw [heq]
    exact ⟨rfl, hm⟩
  · rw [heq]
    refine ⟨rfl, fun g' hg' => ?_⟩
    rw [hl] at hm
    rcases List.mem_append.mp hg' with hg' | hg'
    · exact hm g' (List.mem_append_left _ hg')
    · rcases List.mem_cons.mp hg' with rfl | hg'
      · exact hf _ (hm g (by simp))
      · exact hm g' (List.mem_append_right _ (List.mem_cons_of_mem _ hg'))

theorem onBooks_all {P : ImpliedBook → Prop} {f : Part → Part}
    (hf : ∀ s : Part, P s.book → P (f s).book) (hm : ∀ g ∈ m.impliedBooks, P g) :
    (m.onBooks f).miniTick = m.miniTick ∧ ∀ g ∈ (m.onBooks f).impliedBooks, P g := by
  have hfold : ∀ (l : List ℕ) (m : MdBook), (∀ g ∈ m.impliedBooks, P g) →
      (l.foldl (fun m i => m.onBook i f) m).miniTick = m.miniTick ∧
        ∀ g ∈ (l.foldl (fun m i => m.onBook i f) m).impliedBooks, P g := by
    intro l
    induction l with
    | nil => exact fun m hm => ⟨rfl, hm⟩
    | cons i l ih =>
      intro m hm
      obtain ⟨ht, hm⟩ := onBook_all (i := i) hf hm
      obtain ⟨ht', hm'⟩ := ih _ hm
      exact ⟨ht'.trans ht, hm'⟩
  exact hfold _ m hm

/-- In every state every implied half is made of its legs as they are. -/
theorem Reach.current (hr : Reach tick ok m) :
    m.miniTick = tick ∧ ∀ g ∈ m.impliedBooks, ∀ h, g.CurrentAt tick h := by
  induction hr with
  | start books hb =>
    refine ⟨rfl, fun g hg h h1 h2 ip hl hi => ?_⟩
    obtain ⟨bt, at', bi, ai, rfl⟩ := hb g hg
    cases h <;> cases h1 <;> cases h2 <;> rfl
  | @call m c _ _ ih =>
    obtain ⟨rfl, hm⟩ := ih
    cases c with
    | outright o =>
      simp only [step, handleOutright]
      generalize (if o.side = .buy then m.outright.bestPrice .bid
        else if o.side = .sell then m.outright.bestPrice .ask else 0) = old
      have hpass : ∀ (h' : Half) (types : List ImplierType) (s : Part),
          (∀ h, s.book.CurrentAt m.miniTick h) →
          ∀ h, (s.refresh m.miniTick h' types).book.CurrentAt m.miniTick h :=
        fun h' types s hs h => Part.refresh_currentAt (Or.inr (hs h))
      split_ifs
      · exact ⟨rfl, hm⟩
      · exact onBooks_all (hpass _ _) hm
      · exact onBooks_all (hpass _ _) hm
      · exact ⟨rfl, hm⟩
    | a o i => exact onBook_all (fun s hs => Part.handleA_current o hs) hm
    | b o i => exact onBook_all (fun s hs => Part.handleB_current o hs) hm

/-- In every state a book reaches: where the best price of the opposite outright half is the one the
    last pass over an implied half saw, or no combined price of its legs reaches either of the two,
    that half is what `handle_implied` would compute afresh; and where the tick is positive and
    moving that price by it does not wrap round, none of its levels reaches the best price. -/
theorem implied_never_stale (hr : Reach tick ok m) (hg : g ∈ m.impliedBooks)
    (hcond : g.seen h = m.outright.best? h.opp ∨ ∀ x ∈ g.combined tick h, Free h (g.seen h) x.1 ∧
      Free h (m.outright.best? h.opp) x.1)
    {fresh : BookMap} (hfresh : g.afresh tick h m.outright = some fresh) :
    g.implied h = fresh ∧ (0 < tick →
      (∀ b, m.outright.best? h.opp = some b → toI64 (b - tick) = b - tick ∧
        toI64 (b + tick) = b + tick) →
        ∀ p, (g.implied h).find? p ≠ none → Free h (m.outright.best? h.opp) p) := by
  rcases hl : (g.implieType h).legs with _ | ⟨h1, h2⟩
  · rw [ImpliedBook.afresh, hl] at hfresh
    cases hfresh
  rcases hi : g.implier h with _ | ip
  · rw [ImpliedBook.afresh, hl, hi] at hfresh
    cases hfresh
  rw [ImpliedBook.afresh_eq hl hi] at hfresh
  obtain rfl := Option.some.inj hfresh
  have hcur : g.implied h = g.implies tick h h1 h2 ip (m.outright.best? h.opp) := by
    rw [hr.current.2 g hg h h1 h2 ip hl hi]
    rcases hcond with hseen | hfree
    · rw [hseen]
    · rw [ImpliedBook.implies_of_free hl hi (fun x hx => (hfree x hx).1),
        ImpliedBook.implies_of_free hl hi (fun x hx => (hfree x hx).2)]
  exact ⟨hcur, fun htick hroom p hp => ImpliedBook.implies_free htick hroom (hcur ▸ hp)⟩

/-! ### Small runs -/

/-- Bids of the two legs imply bids of the sum. -/
def twoLegBids : MdBook :=
  ((start 1 [.attach .aBidBBid .aAskBAsk (some fun a b _ => a + b) (some fun a b _ => a + b)]).step
    (.a (.resting 2 .buy 50 1) 0)).step (.b (.resting 3 .buy 50 1) 0)

theorem implied_never_stale_twoLegBids : ∃ g fresh, g ∈ twoLegBids.impliedBooks ∧
    g.afresh 1 .bid twoLegBids.outright = some fresh ∧ g.implied .bid = fresh ∧
      fresh.find? 100 = some ⟨100, 1, .bid, 0⟩ ∧
      ∀ p, (g.implied .bid).find? p ≠ none → Free .bid none p := by
  have hr : Reach 1 (fun _ _ => True) twoLegBids :=
    Reach.call _
      (Reach.call _ (Reach.start _ fun g hg => ⟨_, _, _, _, List.mem_singleton.mp hg⟩) trivial)
      trivial
  have hbest : twoLegBids.outright.best? (Half.opp .bid) = none := by decide +kernel
  obtain ⟨hfresh, hfree⟩ :=
    implied_never_stale (g := twoLegBids.impliedBooks.head (by decide +kernel)) (h := .bid) hr
    (List.head_mem _) (Or.inl (by decide +kernel)) rfl
  rw [hbest] at hfree
  exact ⟨_, _, List.head_mem _, rfl, hfresh, by decide +kernel, hfree (by decide) nofun⟩

/-- Asks implied by two bids: the best bid at 100 puts them at 101. When that bid goes, nothing
    computes them again, although afresh they would be at 100. -/
theorem cancelledBid_stale : ∃ m g, Reach 1 (fun _ _ => True) m ∧ g ∈ m.impliedBooks ∧
    (g.implied .ask).find? 101 = some ⟨101, 1, .ask, 0⟩ ∧
    (g.afresh 1 .ask m.outright).map (fun fresh => (fresh.find? 101, fresh.find? 100)) =
      some (none, some ⟨100, 1, .ask, 0⟩) := by
  refine ⟨((((start 1
    [.attach .aAskBAsk .aBidBBid (some fun a b _ => a + b) (some fun a b _ => a + b)]).step
    (.outright (.resting 1 .buy 100 1))).step (.a (.resting 2 .buy 50 1) 0)).step
    (.b (.resting 3 .buy 50 1) 0)).step
    (.outright { Order.resting 1 .buy 100 1 with orderState := .canceledByUser }), _, ?_,
    List.head_mem (by decide +kernel),
    by decide +kernel, by decide +kernel⟩
  exact Reach.call _
    (Reach.call _
    (Reach.call _
    (Reach.call _ (Reach.start _ fun g hg => ⟨_, _, _, _, List.mem_singleton.mp hg⟩) trivial)
    trivial) trivial) trivial

end MdBook
end Matching.Md
