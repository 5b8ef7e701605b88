import Matching.Engine.Loop

/-! `fok_match` counts on books it does not change. `Shadow v w` says that the books of `w`
    are what is left of those of `v` once some fills consumed orders from the front: then
    the shadow iterators over `v` are the fresh iterators of `w`, and one `match` on `v` is
    the next step in `w`. -/

namespace Matching

/-- The books the matcher reads in `w` are rests of those in `v`, and behind the front order the
    orders are still those of `v`. -/
structure Shadow (v w : World) (e : ℕ) (s : Side) : Prop where
  conf : ∀ l, w.conf l = v.conf l
  own : (w.store e).book s.opp = (v.store e).book s.opp
  tail : ∀ x ∈ (v.conf e).sources e s, Ladder.Tail ((w.store x.1).book x.2) ((v.store x.1).book x.2)
  find : ∀ x ∈ (v.conf e).sources e s, ∀ j ∈ ((w.store x.1).book x.2).ids.tail,
    (w.store x.1).odrMap.find? j = (v.store x.1).odrMap.find? j
  live : ∀ x ∈ (v.conf e).sources e s, ∀ j ∈ ((w.store x.1).book x.2).ids,
    (w.store x.1).odrMap.find? j ≠ none → (v.store x.1).odrMap.find? j ≠ none

variable {v w w' : World} {l e : ℕ} {s t : Side} {r : Ref} {m n o : Order} {p : ℤ} {q : ℕ}

theorem Shadow.refl (v : World) (e : ℕ) (s : Side) : Shadow v v e s :=
  ⟨fun _ => rfl, rfl, fun _ _ => Ladder.Tail.refl _, fun _ _ _ _ => rfl, fun _ _ _ _ h => h⟩

theorem Shadow.bumpId (h : Shadow v w e s) : Shadow v w.bumpId e s :=
  ⟨h.conf, h.own, h.tail, h.find, h.live⟩

/-- A fill at the front of a source. -/
theorem Shadow.fillMaker (h : Shadow v w e s) (hok : w.Ok) (hm : Front w l t m)
    (hid : n.orderId = m.orderId) (hown : (l, t) ≠ (e, s.opp)) :
    Shadow v (w.fillMaker l t n) e s := by
  obtain ⟨is, b, hb⟩ := hm.book
  have hbook : ∀ x : ℕ × Side, x ≠ (l, t) →
      ((w.fillMaker l t n).store x.1).book x.2 = (w.store x.1).book x.2 := by
    intro x hx
    rw [World.book_fillMaker, if_neg]
    rintro ⟨h1, h2, _⟩
    exact hx (Prod.ext h1 h2)
  have hself : ((w.fillMaker l t n).store l).book t = (w.store l).book t ∨
      ((w.fillMaker l t n).store l).book t = ((w.store l).book t).pop := by
    rw [World.book_fillMaker]
    split_ifs
    · exact Or.inr rfl
    · exact Or.inl rfl
  have hsub : ∀ x : ℕ × Side, ∀ j ∈ (((w.fillMaker l t n).store x.1).book x.2).ids.tail,
      j ∈ ((w.store x.1).book x.2).ids.tail := by
    intro x j hj
    by_cases hx : x = (l, t)
    · subst hx
      rcases hself with hs | hs
      · rw [hs] at hj; exact hj
      · rw [hs, Ladder.ids_pop _ ((hok l).wf t).full] at hj
        exact List.mem_of_mem_tail hj
    · rw [hbook x hx] at hj; exact hj
  have hsub' : ∀ x : ℕ × Side, ∀ j ∈ (((w.fillMaker l t n).store x.1).book x.2).ids,
      j ∈ ((w.store x.1).book x.2).ids := by
    intro x j hj
    by_cases hx : x = (l, t)
    · subst hx
      rcases hself with hs | hs
      · rw [hs] at hj; exact hj
      · rw [hs, Ladder.ids_pop _ ((hok l).wf t).full] at hj
        exact List.mem_of_mem_tail hj
    · rw [hbook x hx] at hj; exact hj
  refine ⟨fun l' => by rw [World.conf_fillMaker]; exact h.conf l', ?_, fun x hx => ?_,
    fun x hx j hj => ?_, fun x hx j hj hne => ?_⟩
  · rw [hbook (e, s.opp) hown.symm]; exact h.own
  · by_cases hxl : x = (l, t)
    · subst hxl
      rcases hself with hs | hs
      · rw [hs]; exact h.tail _ hx
      · rw [hs]; exact (h.tail _ hx).pop
    · rw [hbook x hxl]; exact h.tail x hx
  · have hj' := hsub x j hj
    rw [← h.find x hx j hj', World.find_fillMaker, if_neg]
    rintro ⟨hl, hjn⟩
    have hjm : j = m.orderId := hjn.trans hid
    by_cases hxl : x = (l, t)
    · subst hxl
      exact (hok _).front_notMem hb (hjm ▸ hj')
    · have ht : x.2 ≠ t := fun he => hxl (Prod.ext hl he)
      have hmem := List.mem_of_mem_tail hj'
      rw [hl, Side.eq_opp_of_ne ht, hjm] at hmem
      exact (hok _).apart hm.at_book.mem_ids hmem
  · refine h.live x hx j (hsub' x j hj) (fun hnone => hne ?_)
    rw [World.find_fillMaker]
    split_ifs with hc hq
    · rfl
    · rw [hc.1, hc.2, hid, hm.find] at hnone
      cases hnone
    · exact hnone

theorem Shadow.fillTaker (h : Shadow v w e s) (hoff : OffBook w e r) :
    Shadow v (w.fillTaker e r n) e s := by
  have hfind : ∀ x : ℕ × Side, ∀ j ∈ ((w.store x.1).book x.2).ids,
      ((w.fillTaker e r n).store x.1).odrMap.find? j = (w.store x.1).odrMap.find? j := by
    intro x j hj
    rw [World.find_fillTaker, if_neg]
    rintro ⟨hx1, hr⟩
    exact hoff j hr x.2 (hx1 ▸ hj)
  refine ⟨fun l' => by rw [World.conf_fillTaker]; exact h.conf l', ?_, fun x hx => ?_,
    fun x hx j hj => ?_, fun x hx j hj hne => ?_⟩
  · rw [World.book_fillTaker]; exact h.own
  · rw [World.book_fillTaker]; exact h.tail x hx
  · rw [World.book_fillTaker] at hj
    rw [hfind x j (List.mem_of_mem_tail hj), h.find x hx j hj]
  · rw [World.book_fillTaker] at hj
    rw [hfind x j hj] at hne
    exact h.live x hx j hj hne

theorem Shadow.fillLeg1 {i : Implier} {m1 m2 : Order} (h : Shadow v w e s) (hw : Ready w e s r)
    (hi : i ∈ (w.conf e).impliers s) (hm1 : Front w i.leg1.1 i.leg1.2 m1) :
    Shadow v (w.fillLeg1 i m1 m2 o q) e s :=
  h.bumpId.fillMaker (World.ok_bumpId hw.ok) hm1.bumpId (engineMakerMatch_orderId ..)
    (fun he => (hw.legs.outside_of_mem hi).1 (congrArg Prod.fst he))

theorem Shadow.fill (h : Shadow v w e s) (hw : Ready w e s r) (hf : Fill e s r w w') :
    Shadow v w' e s := by
  cases hf with
  | loc ho hm hq hq0 hacc =>
    exact Shadow.fillTaker
      (h.bumpId.fillMaker (World.ok_bumpId hw.ok) hm.bumpId (engineMakerMatch_orderId ..)
      (fun he => Side.ne_opp s (congrArg Prod.snd he)))
      (World.offBook_fillMaker (w := w.bumpId) hw.off hm.bumpId hw.ok)
  | @imp i m1 m2 o price q hi ho hm1 hm2 hq hq0 hp hacc =>
    have hm2' : Front (w.fillLeg1 i m1 m2 o q) i.leg2.1 i.leg2.2 m2 :=
      hm1.fillLeg1 hw.ok (hw.legs.leg_ne hi) hm2
    exact Shadow.fillTaker ((h.fillLeg1 hw hi hm1).fillMaker (World.ok_fillLeg1 hw.ok hm1) hm2'
      (engineMakerMatch_orderId ..)
        (fun he => (hw.legs.outside_of_mem hi).2 (congrArg Prod.fst he)))
      (World.offBook_fillMaker (World.offBook_fillLeg1 hw.ok hw.off hm1) hm2'
        (World.ok_fillLeg1 hw.ok hm1))

/-! ### One `match` on the untouched books -/

/-- Stepping a shadow iterator from the front of what is left finds what a reset finds
    once the front is gone. -/
theorem Iter.next_shadow (hv : BooksOk (v.store l)) (hok : w.Ok) (hm : Front w l t m)
    (htail : Ladder.Tail ((w.store l).book t) ((v.store l).book t))
    (hfind : ∀ j ∈ ((w.store l).book t).ids.tail, (w.store l).odrMap.find? j =
      (v.store l).odrMap.find? j)
    (hid : n.orderId = m.orderId) (hn : n.remainQuantity = 0) (c : ℕ) :
    (⟨l, t, some ⟨m.price, m.orderId, c⟩⟩ : Iter).next v = reset (w.fillMaker l t n) l t := by
  obtain ⟨is, b, hb⟩ := hm.book
  have hbook : ((w.fillMaker l t n).store l).book t = ((w.store l).book t).pop := by
    rw [World.book_fillMaker]; simp [hn]
  have hsucc : ((v.store l).book t).succ m.price m.orderId =
      Ladder.first ((w.store l).book t).pop := by
    rw [hb] at htail ⊢
    exact Ladder.succ_of_tail (hv.wf t) htail
  simp only [next, reset, World.book, hsucc, ← hbook]
  rcases hb' : ((w.fillMaker l t n).store l).book t with _ | ⟨⟨p', _ | ⟨j, js⟩⟩, bs⟩
  · rfl
  · rfl
  · have hmem : j ∈ ((w.store l).book t).ids.tail := by
      rw [← Ladder.ids_pop _ ((hok l).wf t).full, ← hbook, hb']
      simp
    have hne : j ≠ n.orderId := fun he => (hok l).front_notMem hb (hid ▸ he ▸ hmem)
    have hf : (v.store l).odrMap.find? j = ((w.fillMaker l t n).store l).odrMap.find? j := by
      rw [World.find_fillMaker, if_neg (fun h => hne h.2), hfind j hmem]
    simp only [Ladder.first, orUb, load, World.deref, World.order?, hf, ok_bind]

/-- The shadow of a leg after `match` took `q` from it. -/
theorem Matcher.stepLeg_shadow (hv : BooksOk (v.store l)) (hok : w.Ok) (hm : Front w l t m)
    (htail : Ladder.Tail ((w.store l).book t) ((v.store l).book t))
    (hfind : ∀ j ∈ ((w.store l).book t).ids.tail, (w.store l).odrMap.find? j =
      (v.store l).odrMap.find? j)
    (hq : q ≤ m.remainQuantity) (mid a b : ℕ) :
    stepLeg v ((w.front l t).reduceMatching q) =
      Iter.reset (w.fillMaker l t (engineMakerMatch m mid q a b)) l t := by
  have hred : (w.front l t).reduceMatching q =
      ⟨l, t, some ⟨m.price, m.orderId, m.remainQuantity - q⟩⟩ := by
    simp [Iter.reduceMatching, World.front, hm.cursor, subU64_of_le hq]
  have hn : (engineMakerMatch m mid q a b).remainQuantity = m.remainQuantity - q := by
    rw [engineMakerMatch_remainQuantity, subU64_of_le hq]
  rw [hred, stepLeg]
  by_cases h0 : m.remainQuantity - q = 0
  · have hnext := Iter.next_shadow (n := engineMakerMatch m mid q a b) hv hok hm htail hfind rfl
      (hn.trans h0) (m.remainQuantity - q)
    simp only [Iter.topMatchingQuantity, Option.map_some, Option.getD_some, h0, if_true]
    rw [h0] at hnext
    exact hnext
  · have hfront := hm.fillSelf (n := engineMakerMatch m mid q a b) rfl rfl (hn ▸ h0)
    rw [Iter.reset_eq (Or.inr ⟨_, hfront⟩), hfront.front]
    simp only [Iter.topMatchingQuantity, Option.map_some, Option.getD_some, h0, if_false, hn,
      engineMakerMatch_price, engineMakerMatch_orderId]

theorem Shadow.resolves (h : Shadow v w e s) (hf : Fronts w e s) {x : ℕ × Side}
    (hx : x ∈ (v.conf e).sources e s) : (w.front x.1 x.2).InBook v := by
  intro c hc
  obtain ⟨hat, hne⟩ := (hf.src x (by rw [h.conf]; exact hx)).inBook c hc
  exact ⟨(h.tail x hx).at hat, h.live x hx c.id hat.mem_ids hne⟩

theorem World.matcher_inShadow (h : Shadow v w e s) (hf : Fronts w e s) :
    (w.matcher e s).InBook v := by
  refine ⟨h.resolves hf (x := (e, s)) (List.mem_cons_self ..), fun L hL => ?_⟩
  obtain ⟨i, hi, rfl⟩ := List.mem_map.mp hL
  rw [h.conf] at hi
  obtain ⟨h1, h2⟩ := Config.mem_sources (e := e) hi
  exact ⟨h.resolves hf h1, h.resolves hf h2⟩

/-- `top` over the untouched books offers what the shrunk books offer. -/
theorem Shadow.top (h : Shadow v w e s) (hv : v.Ok) (hfv : Fronts v e s) (hf : Fronts w e s) :
    (w.matcher e s).top v = .ok (w.offer e s) := by
  have hown : v.ownPrice e s = w.ownPrice e s := by simp only [World.ownPrice, h.own]
  rw [Matcher.top_eq hv (World.matcher_inShadow h hf) hfv.own, World.offer, h.conf e, ← hown]
  rfl

theorem Shadow.matchOne_none (h : Shadow v w e s) (hv : v.Ok) (hfv : Fronts v e s)
    (hf : Fronts w e s) (h0 : o.remainQuantity ≠ 0) (hnone : w.nextRec e s o = none) :
    (w.matcher e s).matchOne v o.price o.remainQuantity = .ok (none, w.matcher e s) := by
  simp only [Matcher.matchOne, h.top hv hfv hf, ok_bind]
  rcases (World.nextRec_eq_none hf).mp hnone with hz | hp | ⟨hlim, hcmp⟩
  · exact absurd hz h0
  · simp [hp, pure, Except.pure]
  · have hside : (w.matcher e s).side = s := rfl
    simp [hlim, hside, hcmp, pure, Except.pure]

/-- Where a local step uses up its maker, the local iterator moves on to what the step leaves. -/
theorem Shadow.next_local (h : Shadow v w e s) (hv : v.Ok)
    (hw : Ready w e s r) (hm : Front w e s m) (hfull : q = m.remainQuantity) :
    (w.front e s).next v = Iter.reset (w.fillLocal e s r m o m.price q) e s := by
  rw [hm.front, Iter.next_shadow (n := engineMakerMatch m w.nextId q o.orderId 0) (hv e)
    (World.ok_bumpId hw.ok) hm.bumpId (h.tail (e, s) (List.mem_cons_self ..))
    (h.find (e, s) (List.mem_cons_self ..)) rfl (by simp [hfull, subU64]) m.remainQuantity,
    World.fillLocal,
    World.reset_fillTaker (World.offBook_fillMaker (w := w.bumpId) hw.off hm.bumpId hw.ok)]

/-- A maker that is not used up stays at the front: there the local `reset` succeeds. -/
theorem Ready.reset_fillLocal (hw : Ready w e s r) (hm : Front w e s m)
    (hq : q ≤ m.remainQuantity)
    (hub : Iter.reset (w.fillLocal e s r m o m.price q) e s = .error .ub) :
    q = m.remainQuantity := by
  by_contra hne
  have hz : (engineMakerMatch m w.nextId q o.orderId 0).remainQuantity ≠ 0 := by
    rw [engineMakerMatch_remainQuantity, subU64_of_le hq]; omega
  have hfr := hm.bumpId.fillSelf (n := engineMakerMatch m w.nextId q o.orderId 0) rfl rfl hz
  rw [World.fillLocal, World.reset_fillTaker
    (World.offBook_fillMaker (w := w.bumpId) hw.off hm.bumpId hw.ok),
    Iter.reset_eq (Or.inr ⟨_, hfr⟩)] at hub
  cases hub

/-- The leg iterators of an implied step move on to what the step leaves of the two books. -/
theorem Shadow.stepLegs {i : Implier} {m1 m2 : Order} (h : Shadow v w e s) (hv : v.Ok)
    (hw : Ready w e s r) (hmem : i ∈ (w.conf e).impliers s)
    (hm1 : Front w i.leg1.1 i.leg1.2 m1) (hm2 : Front w i.leg2.1 i.leg2.2 m2)
    (hq1 : q ≤ m1.remainQuantity) (hq2 : q ≤ m2.remainQuantity) :
    Matcher.stepLeg v ((w.front i.leg1.1 i.leg1.2).reduceMatching q) =
      Iter.reset (w.fillImplied e r i m1 m2 o p q) i.leg1.1 i.leg1.2 ∧
    Matcher.stepLeg v ((w.front i.leg2.1 i.leg2.2).reduceMatching q) =
      Iter.reset (w.fillImplied e r i m1 m2 o p q) i.leg2.1 i.leg2.2 := by
  have hne := hw.legs.leg_ne hmem
  obtain ⟨hsrc1, hsrc2⟩ := Config.mem_sources (e := e) (h.conf e ▸ hmem)
  have hok1 : (w.fillLeg1 i m1 m2 o q).Ok := World.ok_fillLeg1 hw.ok hm1
  have hm2' : Front (w.fillLeg1 i m1 m2 o q) i.leg2.1 i.leg2.2 m2 := hm1.fillLeg1 hw.ok hne hm2
  have hoff1 : OffBook (w.fillLeg1 i m1 m2 o q) e r := World.offBook_fillLeg1 hw.ok hw.off hm1
  have hoff2 := World.offBook_fillMaker (n := engineMakerMatch m2 w.nextId q o.orderId m1.orderId)
    hoff1 hm2' hok1
  have hsh1 : Shadow v (w.fillLeg1 i m1 m2 o q) e s := h.fillLeg1 hw hmem hm1
  constructor
  · rw [World.fillImplied, World.reset_fillTaker hoff2,
      Iter.reset_fillMaker_ne hne hok1 hm2' (engineMakerMatch_orderId ..)]
    exact Matcher.stepLeg_shadow (hv _) (World.ok_bumpId hw.ok) hm1.bumpId (h.tail i.leg1 hsrc1)
      (h.find i.leg1 hsrc1) hq1 w.nextId o.orderId m2.orderId
  · have hfront : (w.fillLeg1 i m1 m2 o q).front i.leg2.1 i.leg2.2 = w.front i.leg2.1 i.leg2.2 :=
      World.front_fillLeg1 hw.ok hm1 (Ne.symm hne)
    rw [World.fillImplied, World.reset_fillTaker hoff2, ← hfront]
    exact Matcher.stepLeg_shadow (hv _) hok1 hm2' (hsh1.tail i.leg2 hsrc2)
      (hsh1.find i.leg2 hsrc2) hq2 w.nextId o.orderId m1.orderId

/-- One `match` records the next step and, unless the step uses up the taker, leaves the fresh
    iterators of the world after it; it fails where the step fails. -/
theorem Shadow.matchOne_some {rec : MatchedRecord} (h : Shadow v w e s) (hv : v.Ok)
    (hfv : Fronts v e s) (hw : Ready w e s r) (ho : w.readRef e r = .ok o)
    (hrec : w.nextRec e s o = some rec) :
    (∀ w1 x, executeStep w e r rec = .ok (w1, x) →
      ∃ m, (w.matcher e s).matchOne v o.price o.remainQuantity = .ok (some rec, m) ∧
        (m = w1.matcher e s ∨ rec.matchedQuantity = o.remainQuantity)) ∧
    (executeStep w e r rec = .error .ub →
      (w.matcher e s).matchOne v o.price o.remainQuantity = .error .ub) := by
  obtain ⟨h0, hp, hacc, hcase⟩ := World.nextRec_cases hw.fronts hrec
  have hlim := hacc.not_beyond
  have hmin :
      (if (w.offer e s).quantity > o.remainQuantity then o.remainQuantity
        else (w.offer e s).quantity) =
      min (w.offer e s).quantity o.remainQuantity := by split_ifs <;> omega
  have hside : (w.matcher e s).side = s := rfl
  simp only [Matcher.matchOne, h.top hv hfv hw.fronts, ok_bind, hp, if_false, hside, hlim, hmin]
  rcases hcase with ⟨m, hm, hoffer, rfl⟩ | ⟨k, i, m1, m2, hi, hm1, hm2, hsrc, hq, rfl⟩
  · have hloc : (w.matcher e s).loc = w.front e s := rfl
    have htop : (w.front e s).topMatchingQuantity = m.remainQuantity := by
      simp [Iter.topMatchingQuantity, World.front, hm.cursor]
    set q := min m.remainQuantity o.remainQuantity with hqdef
    set w1 := w.fillLocal e s r m o m.price q with hw1
    -- the local iterator moves on exactly when the maker is used up
    have hnext : q = m.remainQuantity → (w.front e s).next v = Iter.reset w1 e s :=
      h.next_local hv hw hm
    have hex := executeStep_local (p := m.price) (q := q) hw.ok hw.off hm ho
    simp only [hoffer, hloc, htop, ← hqdef]
    refine ⟨fun w2 x h2 => ?_, fun hub => ?_⟩
    · obtain ⟨rfl, _, hf1⟩ := executeStep_local_ok hw hm ho h2
      by_cases hfull : q = m.remainQuantity
      · rw [if_pos hfull, hnext hfull, hw1, Iter.reset_eq hf1.loc]
        exact ⟨_, rfl, Or.inl (World.matcher_fillLocal hw.ok hw.off hm hw.legs).symm⟩
      · simp only [if_neg hfull, pure, Except.pure]
        exact ⟨_, rfl, Or.inr (by omega)⟩
    · rw [hex] at hub
      rcases Iter.reset_cases (World.ok_fillLocal hw.ok hw.off hm e) s with hr | ⟨hub', _⟩
      · rw [Iter.reset_eq hr] at hub; cases hub
      · have hfull : q = m.remainQuantity := hw.reset_fillLocal hm (by omega) hub'
        rw [if_pos hfull, hnext hfull, hw1, hub']
        rfl
  · have hmem : i ∈ (w.conf e).impliers s := List.mem_of_getElem? hi
    have hne := hw.legs.leg_ne hmem
    have hL : (w.matcher e s).impliers[k]? =
        some ⟨i, w.front i.leg1.1 i.leg1.2, w.front i.leg2.1 i.leg2.2⟩ := by
          simp [World.matcher, hi]
    set q := min (min m1.remainQuantity m2.remainQuantity) o.remainQuantity with hqdef
    obtain ⟨hs1, hs2⟩ := h.stepLegs (o := o) (p := (w.offer e s).price) (q := q) hv hw hmem hm1 hm2
      (by omega) (by omega)
    set w1 := w.fillImplied e r i m1 m2 o (w.offer e s).price q with hw1
    have hex := executeStep_implied (p := (w.offer e s).price) (q := q) hw.ok hw.off hne hm1 hm2 ho
    simp only [hsrc, hL, hq, ← hqdef, hs1, hs2]
    refine ⟨fun w2 x h2 => ?_, fun hub => ?_⟩
    · obtain ⟨rfl, _, hf1⟩ := executeStep_implied_ok hw hmem hm1 hm2 ho h2
      have hmem1 : i ∈ (w1.conf e).impliers s := by rw [hw1, World.conf_fillImplied]; exact hmem
      obtain ⟨hr1, hr2⟩ := hf1.leg hmem1
      simp only [hw1, Iter.reset_eq hr1, Iter.reset_eq hr2, ok_bind, pure, Except.pure]
      refine ⟨_, rfl, Or.inl ?_⟩
      rw [World.matcher_fillImplied hw.ok hw.off hw.legs hi hm1 hm2]
      rfl
    · rw [hex] at hub
      simp only [hw1]
      revert hub
      rcases Iter.reset
        (w.fillImplied e r i m1 m2 o (w.offer e s).price q) i.leg1.1 i.leg1.2 with f | it1
      · exact fun hub => congrArg Except.error (Except.error.inj hub)
      · rcases Iter.reset
          (w.fillImplied e r i m1 m2 o (w.offer e s).price q) i.leg2.1 i.leg2.2 with f | it2
        · exact fun hub => congrArg Except.error (Except.error.inj hub)
        · intro hub
          cases hub

/-! ### `fok_match` -/

/-- The counting loop finds the walk to the point where there is no next step, or runs
    into a dangling entry. -/
theorem fokLoop_walk :
    ∀ (n : ℕ) {w : World} {o : Order}, v.Ok → Fronts v e s → Shadow v w e s → Ready w e s r →
    w.readRef e r = .ok o → o.remainQuantity < n →
    (∃ recs w' o', fokLoop v o.price n (w.matcher e s) o.remainQuantity =
      .ok (recs, o'.remainQuantity) ∧
      Walk e s r w recs w' ∧ w'.readRef e r = .ok o' ∧ w'.nextRec e s o' = none) ∨
    (fokLoop v o.price n (w.matcher e s) o.remainQuantity = .error .ub ∧ ¬w.Live)
  | 0, _, _, _, _, _, _, _, hlt => absurd hlt (Nat.not_lt_zero _)
  | n + 1, w, o, hv, hfv, hs, hw, ho, hlt => by
    rcases hrec : w.nextRec e s o with _ | rec
    · refine Or.inl ⟨[], w, o, ?_, Walk.nil w, ho, hrec⟩
      by_cases h0 : o.remainQuantity = 0
      · simp [fokLoop, h0, pure, Except.pure]
      · simp [fokLoop, h0, hs.matchOne_none hv hfv hw.fronts h0 hrec, pure, Except.pure]
    obtain ⟨hmok, hmub⟩ := hs.matchOne_some hv hfv hw ho hrec
    obtain ⟨⟨hq0, hq⟩, ⟨w1, x, mid, a, b, hstep, hfill, hw1, ho1⟩ | ⟨hub, hl⟩⟩ :=
      World.nextRec_step hw ho hrec
    · obtain ⟨m, hm, hmcase⟩ := hmok w1 x hstep
      have h0 : o.remainQuantity ≠ 0 := by omega
      set o1 := engineMatch o .taker mid rec.matchedPrice rec.matchedQuantity a b with ho1def
      have hremain : subU64 o.remainQuantity rec.matchedQuantity = o1.remainQuantity := rfl
      have hlt' : o1.remainQuantity < n := by
        rw [← hremain, subU64_of_le hq]
        omega
      have hrest : fokLoop v o.price n m o1.remainQuantity =
          fokLoop v o1.price n (w1.matcher e s) o1.remainQuantity := by
        rcases hmcase with rfl | hall
        · rfl
        · -- the taker is used up: both loops stop whatever the iterators are
          have hz : o1.remainQuantity = 0 := by rw [← hremain, subU64_of_le hq]; omega
          obtain ⟨k, rfl⟩ : ∃ k, n = k + 1 := ⟨n - 1, by omega⟩
          simp only [fokLoop, hz, if_true]
      simp only [fokLoop, h0, if_false, hm, ok_bind, hremain, hrest]
      rcases fokLoop_walk n hv hfv (hs.fill hw hfill) hw1 ho1 hlt' with
        ⟨recs, w', o', hloop, hwalk, ho', hnone⟩ | ⟨hub, hl⟩
      · refine Or.inl ⟨rec :: recs, w', o', ?_, Walk.cons ho hrec hstep hwalk, ho', hnone⟩
        simp only [hloop, ok_bind, pure, Except.pure]
      · exact Or.inr ⟨by rw [hub]; rfl, fun hlive => hl (hfill.live hw hlive)⟩
    · have h0 : o.remainQuantity ≠ 0 := by omega
      refine Or.inr ⟨?_, hl⟩
      simp only [fokLoop, h0, if_false, hmub hub]
      rfl

/-- Replaying the recorded steps walks where the counting loop went. -/
theorem fokExecute_walk {recs : List MatchedRecord} (h : Walk e s r w recs w') :
    fokExecute e r w recs = .ok w' := by
  induction h with
  | nil w => rfl
  | cons ho hrec hstep _ ih => simp only [fokExecute, hstep, ok_bind, ih]

/-- A walk is determined by its first and last world being stuck. -/
theorem Walk.unique {recs recs' : List MatchedRecord} {w'' : World} {o' o'' : Order}
    (h : Walk e s r w recs w') (ho' : w'.readRef e r = .ok o') (hn : w'.nextRec e s o' = none)
    (h' : Walk e s r w recs' w'') (ho'' : w''.readRef e r = .ok o'')
    (hn' : w''.nextRec e s o'' = none) :
    recs = recs' ∧ w' = w'' := by
  induction h generalizing recs' with
  | nil w =>
    cases h' with
    | nil => exact ⟨rfl, rfl⟩
    | cons ho hrec hstep h' =>
      obtain rfl := Except.ok.inj (ho'.symm.trans ho)
      rw [hn] at hrec
      cases hrec
  | cons ho hrec hstep _ ih =>
    cases h' with
    | nil =>
      obtain rfl := Except.ok.inj (ho''.symm.trans ho)
      rw [hn'] at hrec
      cases hrec
    | cons ho1 hrec1 hstep1 h' =>
      obtain rfl := Except.ok.inj (ho.symm.trans ho1)
      obtain rfl := Option.some.inj (hrec.symm.trans hrec1)
      obtain ⟨rfl, -⟩ := Prod.mk.inj (Except.ok.inj (hstep.symm.trans hstep1))
      obtain ⟨rfl, rfl⟩ := ih ho' hn h'
      exact ⟨rfl, rfl⟩

end Matching
