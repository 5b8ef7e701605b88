import Mathlib.Algebra.BigOperators.Group.List.Basic
import Matching.Md.Pass

/-! Published depth is bookkeeping. In every state an `md_book` reaches, as long as no addition to a
    level has come to 2^64, a level of the outright book is the sum of the orders on record there
    and of the implied quantities of the attached books, every reduction found what it took away,
    and a listener who keeps the last item of each side and price has the outright book. -/

namespace Matching.Md

open BasicBook

/-! ### The bookkeeping -/

/-- The implied quantity of a list of books at a price. -/
def impliedSum (books : List ImpliedBook) (h : Half) (p : ℤ) : ℕ :=
  (books.map (fun g => BookMap.qty (g.implied h) p)).sum

/-- The implied levels have quantities, and the legs show the orders on record. -/
structure ImpliedBook.Exact (g : ImpliedBook) : Prop where
  implied : ∀ h, Shows (g.implied h) h (BookMap.qty (g.implied h))
  a : g.a.Sums (fun _ _ => 0)
  b : g.b.Sums (fun _ _ => 0)

/-- The outright book shows its orders on record and the implied quantities of all attached books,
    and so does whoever listens. -/
structure MdBook.Exact (m : MdBook) : Prop where
  outright : m.outright.Sums (impliedSum m.impliedBooks)
  books : ∀ g ∈ m.impliedBooks, g.Exact
  heard : ∀ h : Half, Shows (m.outright.half h) h (fun p => replay m.published (h.side, p))

/-- No addition in any of the books has come to 2^64. -/
def MdBook.NoCarry (m : MdBook) : Prop :=
  m.outright.NoCarry ∧ ∀ g ∈ m.impliedBooks, g.a.NoCarry ∧ g.b.NoCarry

instance (m : MdBook) : Decidable m.NoCarry :=
  inferInstanceAs (Decidable (m.outright.NoCarry ∧ ∀ g ∈ m.impliedBooks, g.a.NoCarry ∧ g.b.NoCarry))

namespace MdBook

/-- `Exact` for one implied book, where `others` is the implied quantity of the other ones. -/
structure Part.Exact (others : Half → ℤ → ℕ) (s : Part) : Prop where
  book : s.book.Exact
  outright : s.outright.Sums (fun h p => others h p + BookMap.qty (s.book.implied h) p)
  heard : ∀ h : Half, Shows (s.outright.half h) h (fun p => replay s.published (h.side, p))

def Part.NoCarry (s : Part) : Prop := s.outright.NoCarry ∧ s.book.a.NoCarry ∧ s.book.b.NoCarry

/-- From `s` to `s'` the bookkeeping is kept, unless an addition has carried. -/
def Part.Sound (s s' : Part) : Prop :=
  s'.NoCarry → s.NoCarry ∧ ∀ others, s.Exact others → s'.Exact others

/-- From `m` to `m'` the bookkeeping is kept, unless an addition has carried. -/
def Sound (m m' : MdBook) : Prop := m'.NoCarry → m.NoCarry ∧ (m.Exact → m'.Exact)

theorem Part.Sound.trans {s s1 s2 : Part} (h1 : s.Sound s1) (h2 : s1.Sound s2) : s.Sound s2 := by
  intro hc
  obtain ⟨hc1, hx2⟩ := h2 hc
  obtain ⟨hc0, hx1⟩ := h1 hc1
  exact ⟨hc0, fun others hx => hx2 others (hx1 others hx)⟩

theorem Sound.refl (m : MdBook) : m.Sound m := fun hc => ⟨hc, id⟩

theorem Sound.trans {m m1 m2 : MdBook} (h1 : m.Sound m1) (h2 : m1.Sound m2) : m.Sound m2 := by
  intro hc
  obtain ⟨hc1, hx2⟩ := h2 hc
  obtain ⟨hc0, hx1⟩ := h1 hc1
  exact ⟨hc0, fun hx => hx2 (hx1 hx)⟩

end MdBook

/-! ### One implied book -/

namespace MdBook

variable {tick : ℤ} {h : Half} {types : List ImplierType} {s : Part} {m : MdBook} {o : Order}
  {i : ℕ}

theorem Part.refresh_sound (tick : ℤ) (h : Half) (types : List ImplierType) (s : Part) :
    s.Sound (s.refresh tick h types) := by
  rcases s.refresh_cases tick h types with heq | ⟨h1, h2, ip, _, _, _, heq⟩
  · rw [heq]
    exact fun hc => ⟨hc, fun _ => id⟩
  rw [heq]
  set r :=
    handleImplied h (s.book.a.levels h1) (s.book.b.levels h2)
      (s.book.implied h) s.outright ip tick with hr
  rintro ⟨hc, hca, hcb⟩
  rw [ImpliedBook.a_setImplied] at hca
  rw [ImpliedBook.b_setImplied] at hcb
  refine ⟨⟨NoCarry.of_within (handleImplied_within ..) hc, hca, hcb⟩, fun others hx => ?_⟩
  have hbase : Shows (s.outright.half h) h
      (fun p => (s.outright.recorded h p + others h p) + BookMap.qty (s.book.implied h) p) :=
    (hx.outright.shows h).congr fun p => by omega
  obtain ⟨new, hnew, hpass⟩ :=
    handleImplied_passes (hx.book.implied h) hbase (levels_pos (hx.book.a.shows h1))
    (levels_pos (hx.book.b.shows h2)) hc
  have hrec : r.1.recorded = s.outright.recorded := recorded_congr hpass.orders
  refine ⟨⟨fun h' => ?_, ?_, ?_⟩, ⟨fun h' => ?_, hpass.backed hx.outright.backed⟩,
    hpass.told.replay hx.heard⟩
  · rcases Half.eq_or_opp h h' with rfl | rfl
    · rw [ImpliedBook.implied_setImplied]
      exact hnew.self
    · rw [ImpliedBook.implied_opp_setImplied]
      exact hx.book.implied _
  · rw [ImpliedBook.a_setImplied]
    exact hx.book.a
  · rw [ImpliedBook.b_setImplied]
    exact hx.book.b
  · rw [hrec]
    rcases Half.eq_or_opp h h' with rfl | rfl
    · refine hpass.shows.congr fun p => ?_
      rw [ImpliedBook.implied_setImplied, hnew.qty_eq]
      omega
    · rw [hpass.other, ImpliedBook.implied_opp_setImplied]
      exact hx.outright.shows _

/-- The same book with another first leg. -/
theorem Part.setA_sound (hst : s.book.a.Steady o) :
    s.Sound { s with book := { s.book with a := (s.book.a.handleOdr o).1 } } := by
  rintro ⟨hc, hca, hcb⟩
  obtain ⟨ha, hw⟩ := handleOdr_within s.book.a o
  refine ⟨⟨hc, NoCarry.of_within hw hca, hcb⟩, fun others hx => ?_⟩
  exact ⟨⟨hx.book.implied, (hx.book.a.handleOdr hst hca).1, hx.book.b⟩, hx.outright, hx.heard⟩

/-- The same book with another second leg. -/
theorem Part.setB_sound (hst : s.book.b.Steady o) :
    s.Sound { s with book := { s.book with b := (s.book.b.handleOdr o).1 } } := by
  rintro ⟨hc, hca, hcb⟩
  obtain ⟨hb, hw⟩ := handleOdr_within s.book.b o
  refine ⟨⟨hc, hca, NoCarry.of_within hw hcb⟩, fun others hx => ?_⟩
  exact ⟨⟨hx.book.implied, hx.book.a, (hx.book.b.handleOdr hst hcb).1⟩, hx.outright, hx.heard⟩

theorem Part.handleA_sound (tick : ℤ) (hst : s.book.a.Steady o) : s.Sound (s.handleA tick o) :=
  (Part.setA_sound hst).trans
    (Part.Sound.trans (Part.refresh_sound _ _ _ _) (Part.refresh_sound _ _ _ _))

theorem Part.handleB_sound (tick : ℤ) (hst : s.book.b.Steady o) : s.Sound (s.handleB tick o) :=
  (Part.setB_sound hst).trans
    (Part.Sound.trans (Part.refresh_sound _ _ _ _) (Part.refresh_sound _ _ _ _))

/-! ### All implied books -/

theorem impliedSum_split (l1 l2 : List ImpliedBook) (g : ImpliedBook) (h : Half) (p : ℤ) :
    impliedSum (l1 ++ g :: l2) h p = (impliedSum l1 h p + impliedSum l2 h p) + BookMap.qty
      (g.implied h) p := by
  simp only [impliedSum, List.map_append, List.map_cons, List.sum_append, List.sum_cons]
  omega

theorem onBook_sound (f : Part → Part)
    (hf : ∀ g, m.impliedBooks[i]? = some g →
      Part.Sound ⟨g, m.outright, m.published⟩ (f ⟨g, m.outright, m.published⟩)) :
    m.Sound (m.onBook i f) := by
  rcases m.onBook_cases i f with ⟨_, heq⟩ | ⟨l1, g, l2, s, hl, hg, rfl, heq⟩
  · rw [heq]
    exact Sound.refl m
  rw [heq]
  have hsound := hf g hg
  set s := f ⟨g, m.outright, m.published⟩
  rintro ⟨hc, hcb⟩
  have hmem : ∀ g', g' ∈ l1 ++ s.book :: l2 ↔ g' ∈ l1 ∨ g' = s.book ∨ g' ∈ l2 := fun g' => by
    rw [List.mem_append, List.mem_cons]
  obtain ⟨⟨hc0, hca0, hcb0⟩, hx⟩ := hsound ⟨hc, hcb s.book ((hmem _).mpr (Or.inr (Or.inl rfl)))⟩
  refine ⟨⟨hc0, fun g' hg' => ?_⟩, fun hexact => ?_⟩
  · rw [hl, List.mem_append, List.mem_cons] at hg'
    rcases hg' with hg' | rfl | hg'
    · exact hcb g' ((hmem g').mpr (Or.inl hg'))
    · exact ⟨hca0, hcb0⟩
    · exact hcb g' ((hmem g').mpr (Or.inr (Or.inr hg')))
  · have hpart := hx (fun h p => impliedSum l1 h p + impliedSum l2 h p)
      ⟨hexact.books g (by rw [hl]; simp),
        hexact.outright.congr fun h p => by rw [hl, impliedSum_split], hexact.heard⟩
    refine ⟨hpart.outright.congr fun h p => (impliedSum_split l1 l2 s.book h p).symm,
      fun g' hg' => ?_, hpart.heard⟩
    rcases (hmem g').mp hg' with hg' | rfl | hg'
    · exact hexact.books g' (by rw [hl]; exact List.mem_append_left _ hg')
    · exact hpart.book
    · exact hexact.books g' (by rw [hl]; exact List.mem_append_right _ (List.mem_cons_of_mem _ hg'))

theorem onBooks_sound (f : Part → Part) (hf : ∀ s, Part.Sound s (f s)) (m : MdBook) :
    m.Sound (m.onBooks f) := by
  have hfold : ∀ (l : List ℕ) (m : MdBook), m.Sound (l.foldl (fun m i => m.onBook i f) m) := by
    intro l
    induction l with
    | nil => exact Sound.refl
    | cons i l ih => exact fun m => (onBook_sound f (fun _ _ => hf _)).trans (ih _)
  exact hfold _ m

/-! ### Runs -/

/-- The call keeps the price and the half of an order on record in the book it is for. -/
def Steady (m : MdBook) : Call → Prop
  | .outright o => m.outright.Steady o
  | .a o i => ∀ g, m.impliedBooks[i]? = some g → g.a.Steady o
  | .b o i => ∀ g, m.impliedBooks[i]? = some g → g.b.Steady o

theorem handleOutright_sound (hst : m.outright.Steady o) : m.Sound (m.handleOutright o) := by
  have hfirst : m.Sound { m with
      outright := (m.outright.handleOdr o).1, published := m.published ++ nodeItems
        (m.outright.handleOdr o).2 } := by
    rintro ⟨hc, hcb⟩
    obtain ⟨h, hw⟩ := handleOdr_within m.outright o
    refine ⟨⟨NoCarry.of_within hw hc, hcb⟩, fun hx => ?_⟩
    obtain ⟨hsum, htold⟩ := hx.outright.handleOdr hst hc
    exact ⟨hsum, hx.books, htold.replay hx.heard⟩
  simp only [handleOutright]
  by_cases hnone : (m.outright.handleOdr o).2.side = .none
  · rw [if_pos hnone]
    rw [show nodeItems (m.outright.handleOdr o).2 = [] from if_pos hnone, List.append_nil] at hfirst
    exact hfirst
  · rw [if_neg hnone]
    rw [show nodeItems (m.outright.handleOdr o).2 =
      [(m.outright.handleOdr o).2] from if_neg hnone] at hfirst
    refine hfirst.trans ?_
    generalize (if o.side = .buy then m.outright.bestPrice .bid
      else if o.side = .sell then m.outright.bestPrice .ask else 0) = old
    split_ifs
    · exact onBooks_sound _ (Part.refresh_sound _ _ _) _
    · exact onBooks_sound _ (Part.refresh_sound _ _ _) _
    · exact Sound.refl _

theorem step_sound {c : Call} (hst : m.Steady c) : m.Sound (m.step c) := by
  cases c with
  | outright o => exact handleOutright_sound hst
  | a o i => exact onBook_sound _ fun g hg => Part.handleA_sound _ (hst g hg)
  | b o i => exact onBook_sound _ fun g hg => Part.handleB_sound _ (hst g hg)

theorem start_exact (books : List ImpliedBook)
    (h : ∀ g ∈ books, ∃ bt at' bi ai, g = .attach bt at' bi ai) :
    (start tick books).Exact := by
  have hzero : ∀ (h : Half) p, impliedSum books h p = 0 := by
    intro h' p
    refine List.sum_eq_zero fun x hx => ?_
    obtain ⟨g, hg, rfl⟩ := List.mem_map.mp hx
    obtain ⟨bt, at', bi, ai, rfl⟩ := h g hg
    cases h' <;> rfl
  refine ⟨Sums.empty.congr fun h p => (hzero h p).symm, fun g hg => ?_, fun h' => ?_⟩
  · obtain ⟨bt, at', bi, ai, rfl⟩ := h g hg
    exact ⟨fun h => by cases h <;> exact Shows.empty _, Sums.empty, Sums.empty⟩
  · cases h' <;> exact Shows.empty _

theorem Reach.exact (hr : Reach tick Steady m) (hc : m.NoCarry) : m.Exact := by
  induction hr with
  | start books h => exact start_exact books h
  | call c _ hst ih =>
    obtain ⟨hc', hx⟩ := step_sound hst hc
    exact hx (ih hc')

/-- In every state a book with any attached implied books reaches through reports that keep price
    and half while they are on record, unless an addition has come to 2^64: the levels are the sums,
    with no level for 0; no reduction missed its level or asked for more than it held; the replayed
    items are the outright book; and a pass never changes the other half. -/
theorem published_depth_exact (hr : Reach tick Steady m) (hc : m.NoCarry) :
    (∀ (h : Half) p, (m.outright.half h).find? p =
      levelAt h p (m.outright.recorded h p + impliedSum m.impliedBooks h p)) ∧
    (m.outright.Backed ∧ ∀ g ∈ m.impliedBooks, g.a.Backed ∧ g.b.Backed) ∧
    (∀ (h : Half) leg1 leg2 implied outright ip tick,
      (handleImplied h leg1 leg2 implied outright ip tick).1.half h.opp = outright.half h.opp) ∧
    ∀ (h : Half) p, (m.outright.half h).find? p = levelAt h p (replay m.published (h.side, p)) := by
  have hx := hr.exact hc
  exact ⟨hx.outright.shows,
    ⟨hx.outright.backed, fun g hg => ⟨(hx.books g hg).a.backed, (hx.books g hg).b.backed⟩⟩,
    fun h leg1 leg2 implied outright ip tick =>
      (handleImplied_within h leg1 leg2 implied outright ip tick).other,
    hx.heard⟩

/-! ### Small runs -/

/-- Three orders: one in the outright book and one in each leg of an attached book. -/
def threeOrders : MdBook :=
  (((start 1 [.attach .aBidBAsk .aNoneBNone (some fun a b _ => a + b) none]).step
    (.outright (.resting 1 .buy 100 5))).step (.a (.resting 2 .buy 60 2) 0)).step
    (.b (.resting 3 .sell 40 3) 0)

theorem threeOrders_reach : Reach 1 Steady threeOrders := by
  have hnew : ∀ {b : BasicBook} {o : Order}, b.orders.find? o.orderId = none → b.Steady o :=
    fun hnone _ _ _ x hx => by rw [hnone] at hx; cases hx
  refine Reach.call _ (Reach.call _ (Reach.call _ (Reach.start _ fun g hg => ?_) ?_) fun g hg => ?_)
    fun g hg => ?_
  · exact ⟨_, _, _, _, List.mem_singleton.mp hg⟩
  · exact hnew rfl
  · obtain rfl := Option.some.inj hg
    exact hnew rfl
  · obtain rfl := Option.some.inj hg
    exact hnew rfl

theorem published_depth_exact_threeOrders :
    (threeOrders.outright.half .bid).find? 100 = some ⟨100, 7, .bid, 0⟩ ∧
    replay threeOrders.published (.bid, 100) = 7 := by
  have h := published_depth_exact threeOrders_reach (by decide +kernel)
  have hlevel : (threeOrders.outright.half .bid).find? 100 = some ⟨100, 7, .bid, 0⟩ := h.1 .bid 100
  refine ⟨hlevel, ?_⟩
  have hheard := h.2.2.2 .bid 100
  rw [hlevel, levelAt] at hheard
  split_ifs at hheard with h0
  exact (congrArg BookItem.quantity (Option.some.inj hheard)).symm

/-- Two orders of 2^63 at one price: the level wraps round to a quantity of 0,
    and goes on standing. -/
theorem twoHalves_wrap : ∃ m : MdBook, Reach 1 Steady m ∧
    (m.outright.half .bid).find? 100 = some ⟨100, 0, .bid, 0⟩ ∧
    m.outright.recorded .bid 100 + impliedSum m.impliedBooks .bid 100 = 2 ^ 64 := by
  refine ⟨((start 1 []).step (.outright (.resting 1 .buy 100 (2 ^ 63)))).step
    (.outright (.resting 2 .buy 100 (2 ^ 63))), ?_, by decide +kernel, by decide +kernel⟩
  refine Reach.call _ (Reach.call _ (Reach.start _ fun g hg => (nomatch hg)) ?_) ?_
  · exact fun _ _ _ _ hx => nomatch hx
  · exact fun _ _ _ _ hx => nomatch hx

end MdBook
end Matching.Md
