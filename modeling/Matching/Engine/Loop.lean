import Mathlib.Data.List.GetD
import Matching.Engine.Fill

/-! The matching loops as walks. `nextRec` is the step a loop takes at fresh iterators, a pure
    function of the world and the taker. `normal_match` takes these steps until there is none
    (`normalLoop_walk`); the counting loop of `fok_match` finds the same steps on the untouched
    books with its shadow quantities (`fokLoop_walk`, by `Shadow`), and its executing loop replays
    them (`fokExecute_walk`). -/

namespace Matching

/-- What a matching loop of engine `e` and side `s` relies on: books in order, the taker outside the
    books, no source of liquidity used twice, and fronts that resolve. -/
structure Ready (w : World) (e : ℕ) (s : Side) (r : Ref) : Prop where
  ok : w.Ok
  off : OffBook w e r
  legs : LegsApart w e s
  fronts : Fronts w e s

/-- The next step against or for the taker `o`, if there is one. -/
def World.nextRec (w : World) (e : ℕ) (s : Side) (o : Order) : Option MatchedRecord :=
  let t := w.offer e s
  if o.remainQuantity = 0 ∨ t.price = marketPrice ∨
      (o.price ≠ marketPrice ∧ s.cmp o.price t.price = true) then
    none
  else
    match t.src with
    | none => some ⟨t.price, min t.quantity o.remainQuantity, w.front e s, none⟩
    | some k =>
      ((w.conf e).impliers s)[k]?.map (fun i =>
        ⟨t.price, min t.quantity o.remainQuantity, w.front i.leg1.1 i.leg1.2,
          some (w.front i.leg2.1 i.leg2.2)⟩)

/-- A sequence of execution steps, each the next one in its world. -/
inductive Walk (e : ℕ) (s : Side) (r : Ref) : World → List MatchedRecord → World → Prop
  | nil (w : World) : Walk e s r w [] w
  | cons {w w1 w2 : World} {o : Order} {rec : MatchedRecord} {recs : List MatchedRecord}
      {x : Iter × Option Iter} (ho : w.readRef e r = .ok o) (hrec : w.nextRec e s o = some rec)
      (hstep : executeStep w e r rec = .ok (w1, x)) (h : Walk e s r w1 recs w2) :
        Walk e s r w (rec :: recs) w2

variable {w w' v : World} {l e : ℕ} {s : Side} {r : Ref} {m o : Order} {p : ℤ} {q : ℕ}

/-! ### Offers -/

theorem World.price_of_cursor_none (h : w.cursor e s = none) :
    (((w.matcher e s).loc.cur.map Cursor.price).getD marketPrice) = marketPrice := by
  simp [World.matcher, World.front, h]

/-- An offer with a price is the front order of the opposite book, or an implier whose legs both
    have a front order. -/
theorem World.offer_cases (hf : Fronts w e s) (hp : (w.offer e s).price ≠ marketPrice) :
    (∃ m, Front w e s m ∧ w.offer e s = ⟨none, m.price, m.remainQuantity⟩) ∨
    ∃ k i m1 m2, ((w.conf e).impliers s)[k]? = some i ∧ Front w i.leg1.1 i.leg1.2 m1 ∧
      Front w i.leg2.1 i.leg2.2 m2 ∧ (w.offer e s).src = some k ∧
      (w.offer e s).quantity = min m1.remainQuantity m2.remainQuantity := by
  rcases Matcher.pureLoop_cases (s := s) (w.conf e).miniTick (w.ownPrice e s)
    (w.matcher e s).impliers 0
    ⟨none, ((w.matcher e s).loc.cur.map Cursor.price).getD marketPrice,
    (w.matcher e s).loc.topMatchingQuantity⟩
    with h | ⟨k, L, c1, c2, hL, hc1, hc2, hsrc, hq⟩
  · left
    have hoffer : w.offer e s = ⟨none, ((w.matcher e s).loc.cur.map Cursor.price).getD marketPrice,
        (w.matcher e s).loc.topMatchingQuantity⟩ := h
    rcases hc : w.cursor e s with _ | c
    · rw [hoffer] at hp
      exact absurd (World.price_of_cursor_none hc) hp
    · obtain ⟨m, hm, rfl⟩ := hf.loc.front_of_cursor hc
      refine ⟨m, hm, ?_⟩
      rw [hoffer]
      simp [World.matcher, World.front, hc, Iter.topMatchingQuantity]
  · right
    simp only [World.matcher, List.getElem?_map, Option.map_eq_some_iff] at hL
    obtain ⟨i, hi, rfl⟩ := hL
    obtain ⟨hr1, hr2⟩ := hf.leg (List.mem_of_getElem? hi)
    obtain ⟨m1, hm1, rfl⟩ := hr1.front_of_cursor hc1
    obtain ⟨m2, hm2, rfl⟩ := hr2.front_of_cursor hc2
    rw [Nat.zero_add] at hsrc
    exact ⟨k, i, m1, m2, hi, hm1, hm2, hsrc, hq⟩

/-! ### The next step -/

/-- Everything a `nextRec` says: a local step or a step through an implier. -/
theorem World.nextRec_cases {rec : MatchedRecord} (hf : Fronts w e s)
    (h : w.nextRec e s o = some rec) :
    0 < o.remainQuantity ∧ (w.offer e s).price ≠ marketPrice ∧ Accepts s o (w.offer e s).price ∧
    ((∃ m, Front w e s m ∧ w.offer e s = ⟨none, m.price, m.remainQuantity⟩ ∧
        rec = ⟨m.price, min m.remainQuantity o.remainQuantity, w.front e s, none⟩) ∨
      ∃ k i m1 m2, ((w.conf e).impliers s)[k]? = some i ∧ Front w i.leg1.1 i.leg1.2 m1 ∧
        Front w i.leg2.1 i.leg2.2 m2 ∧ (w.offer e s).src = some k ∧
        (w.offer e s).quantity = min m1.remainQuantity m2.remainQuantity ∧
        rec = ⟨(w.offer e s).price, min (min m1.remainQuantity m2.remainQuantity) o.remainQuantity,
          w.front i.leg1.1 i.leg1.2, some (w.front i.leg2.1 i.leg2.2)⟩) := by
  unfold World.nextRec at h
  simp only at h
  split_ifs at h with hc
  simp only [not_or, not_and, Bool.not_eq_true] at hc
  obtain ⟨h0, hp, hacc⟩ := hc
  refine ⟨Nat.pos_of_ne_zero h0, hp, ?_, ?_⟩
  · by_cases hlim : o.price = marketPrice
    · exact Or.inl hlim
    · exact Or.inr (hacc hlim)
  · rcases World.offer_cases hf hp with ⟨m, hm, hoffer⟩ | ⟨k, i, m1, m2, hi, hm1, hm2, hsrc, hq⟩
    · left
      refine ⟨m, hm, hoffer, ?_⟩
      rw [hoffer] at h
      exact (Option.some.inj h).symm
    · right
      refine ⟨k, i, m1, m2, hi, hm1, hm2, hsrc, hq, ?_⟩
      rw [hsrc] at h
      simp only [hi, Option.map_some, hq] at h
      exact (Option.some.inj h).symm

/-- There is no next step exactly when the taker is filled, nothing is offered or the price is
    beyond the limit. -/
theorem World.nextRec_eq_none (hf : Fronts w e s) : w.nextRec e s o = none ↔
    o.remainQuantity = 0 ∨ (w.offer e s).price = marketPrice ∨
      (o.price ≠ marketPrice ∧ s.cmp o.price (w.offer e s).price = true) := by
  refine ⟨fun h => ?_, fun h => if_pos h⟩
  by_contra hc
  have hp : (w.offer e s).price ≠ marketPrice := fun hp => hc (Or.inr (Or.inl hp))
  simp only [World.nextRec, if_neg hc] at h
  rcases World.offer_cases hf hp with ⟨m, hm, hoffer⟩ | ⟨k, i, m1, m2, hi, hm1, hm2, hsrc, hq⟩
  · rw [hoffer] at h
    exact absurd h (by simp)
  · rw [hsrc] at h
    simp [hi] at h

/-! ### One step -/

theorem Fill.conf (h : Fill e s r w w') (l : ℕ) : w'.conf l = w.conf l := by
  cases h with
  | loc => simp
  | imp => simp

theorem Fill.legs (hl : LegsApart w e s) (h : Fill e s r w w') : LegsApart w' e s := by
  refine ⟨?_, ?_⟩
  · rw [h.conf]; exact hl.nodup
  · rw [h.conf]; exact hl.outside

theorem Fill.ok (hw : Ready w e s r) (h : Fill e s r w w') : w'.Ok := by
  cases h with
  | loc ho hm => exact World.ok_fillLocal hw.ok hw.off hm
  | imp hi ho hm1 hm2 => exact World.ok_fillImplied hw.ok hw.off (hw.legs.leg_ne hi) hm1 hm2

theorem Fill.off (hw : Ready w e s r) (h : Fill e s r w w') : OffBook w' e r := by
  cases h with
  | loc ho hm => exact World.offBook_fillLocal hw.ok hw.off hm
  | imp hi ho hm1 hm2 => exact World.offBook_fillImplied hw.ok hw.off (hw.legs.leg_ne hi) hm1 hm2

theorem Fill.live (hw : Ready w e s r) (h : Fill e s r w w') (hl : w.Live) : w'.Live := by
  cases h with
  | loc ho hm => exact World.live_fillLocal hl hw.ok hw.off hm
  | imp hi ho hm1 hm2 => exact World.live_fillImplied hw.ok hw.off (hw.legs.leg_ne hi) hm1 hm2 hl

/-- A local step that returns: where it goes and the iterator it leaves. -/
theorem executeStep_local_ok {x : Iter × Option Iter} (hw : Ready w e s r) (hm : Front w e s m)
    (ho : w.readRef e r = .ok o)
    (hstep : executeStep w e r ⟨p, q, w.front e s, none⟩ = .ok (w', x)) :
    w' = w.fillLocal e s r m o p q ∧ x = (w'.front e s, none) ∧ Fronts w' e s := by
  rw [executeStep_local hw.ok hw.off hm ho] at hstep
  simp only [bind_ok, pure_ok, Prod.mk.injEq] at hstep
  obtain ⟨it, hit, rfl, rfl⟩ := hstep
  obtain ⟨hres, rfl⟩ := Iter.reset_ok (World.ok_fillLocal hw.ok hw.off hm e) hit
  refine ⟨rfl, rfl,
    Resolves.fillLocal hw.ok hw.off hm
    (fun he => Side.opp_ne s (congrArg Prod.snd he)) hw.fronts.own, fun y hy => ?_⟩
  rw [World.conf_fillLocal] at hy
  by_cases hys : y = (e, s)
  · subst hys; exact hres
  · exact Resolves.fillLocal hw.ok hw.off hm hys (hw.fronts.src y hy)

theorem executeStep_implied_ok {x : Iter × Option Iter} {i : Implier} {m1 m2 : Order}
    (hw : Ready w e s r) (hi : i ∈ (w.conf e).impliers s) (hm1 : Front w i.leg1.1 i.leg1.2 m1)
    (hm2 : Front w i.leg2.1 i.leg2.2 m2) (ho : w.readRef e r = .ok o)
    (hstep : executeStep w e r
      ⟨p, q, w.front i.leg1.1 i.leg1.2, some (w.front i.leg2.1 i.leg2.2)⟩ = .ok (w', x)) :
    w' = w.fillImplied e r i m1 m2 o p q ∧
      x = (w'.front i.leg1.1 i.leg1.2, some (w'.front i.leg2.1 i.leg2.2)) ∧ Fronts w' e s := by
  have hne := hw.legs.leg_ne hi
  rw [executeStep_implied hw.ok hw.off hne hm1 hm2 ho] at hstep
  simp only [bind_ok, pure_ok, Prod.mk.injEq] at hstep
  obtain ⟨it1, hit1, it2, hit2, rfl, rfl⟩ := hstep
  have hok' := World.ok_fillImplied (o := o) (p := p) (q := q) hw.ok hw.off hne hm1 hm2
  obtain ⟨hres1, rfl⟩ := Iter.reset_ok (hok' _) hit1
  obtain ⟨hres2, rfl⟩ := Iter.reset_ok (hok' _) hit2
  obtain ⟨hout1, hout2⟩ := hw.legs.outside_of_mem hi
  refine ⟨rfl, rfl, ?_, fun y hy => ?_⟩
  · exact Resolves.fillImplied (x := (e, s.opp)) hw.ok hw.off hne hm1 hm2
      (fun he => hout1 (congrArg Prod.fst he).symm)
        (fun he => hout2 (congrArg Prod.fst he).symm) hw.fronts.own
  · rw [World.conf_fillImplied] at hy
    by_cases h1 : y = i.leg1
    · subst h1; exact hres1
    by_cases h2 : y = i.leg2
    · subst h2; exact hres2
    exact Resolves.fillImplied hw.ok hw.off hne hm1 hm2 h1 h2 (hw.fronts.src y hy)

/-- A `nextRec` step returns, and is a `Fill` that takes its quantity from the taker, or it runs
    into a dangling entry. -/
theorem World.nextRec_step {rec : MatchedRecord} (hw : Ready w e s r) (ho : w.readRef e r = .ok o)
    (h : w.nextRec e s o = some rec) :
    (0 < rec.matchedQuantity ∧ rec.matchedQuantity ≤ o.remainQuantity) ∧
    ((∃ w1 x mid a b, executeStep w e r rec = .ok (w1, x) ∧ Fill e s r w w1 ∧ Ready w1 e s r ∧
        w1.readRef e r = .ok (engineMatch o .taker mid rec.matchedPrice rec.matchedQuantity a b)) ∨
      (executeStep w e r rec = .error .ub ∧ ¬w.Live)) := by
  obtain ⟨h0, hp, hacc, ⟨m, hm, hoffer, rfl⟩ | ⟨k, i, m1, m2, hi, hm1, hm2, hsrc, hq, rfl⟩⟩ :=
    World.nextRec_cases hw.fronts h
  · rw [hoffer] at hacc
    have hpos := hm.remain
    have hq0 : 0 < min m.remainQuantity o.remainQuantity := by omega
    refine ⟨⟨hq0, min_le_right _ _⟩, ?_⟩
    have hfill : Fill e s r w
        (w.fillLocal e s r m o m.price (min m.remainQuantity o.remainQuantity)) :=
      Fill.loc ho hm rfl hq0 hacc
    rcases hex : executeStep w e r
      ⟨m.price, min m.remainQuantity o.remainQuantity, w.front e s, none⟩ with f | ⟨w1, x⟩
    · right
      rw [executeStep_local hw.ok hw.off hm ho] at hex
      rcases Iter.reset_cases (hfill.ok hw e) s with hr | ⟨hub, hl⟩
      · rw [Iter.reset_eq hr] at hex; cases hex
      · rw [hub] at hex
        exact ⟨by rw [← hex]; rfl, fun hlive => hl (hfill.live hw hlive e)⟩
    · obtain ⟨rfl, _, hf⟩ := executeStep_local_ok hw hm ho hex
      exact Or.inl ⟨_, x, _, _, _, rfl, hfill, ⟨hfill.ok hw, hfill.off hw, hfill.legs hw.legs, hf⟩,
        World.readRef_fillTaker ..⟩
  · have hmem : i ∈ (w.conf e).impliers s := List.mem_of_getElem? hi
    have hpos1 := hm1.remain
    have hpos2 := hm2.remain
    have hq0 : 0 < min (min m1.remainQuantity m2.remainQuantity) o.remainQuantity := by omega
    refine ⟨⟨hq0, min_le_right _ _⟩, ?_⟩
    have hfill : Fill e s r w (w.fillImplied e r i m1 m2 o (w.offer e s).price
        (min (min m1.remainQuantity m2.remainQuantity) o.remainQuantity)) :=
      Fill.imp hmem ho hm1 hm2 rfl hq0 hp hacc
    rcases hex : executeStep w e r ⟨(w.offer e s).price,
      min (min m1.remainQuantity m2.remainQuantity) o.remainQuantity, w.front i.leg1.1 i.leg1.2,
      some (w.front i.leg2.1 i.leg2.2)⟩ with f | ⟨w1, x⟩
    · right
      rw [executeStep_implied hw.ok hw.off (hw.legs.leg_ne hmem) hm1 hm2 ho] at hex
      rcases Iter.reset_cases (hfill.ok hw i.leg1.1) i.leg1.2 with hr1 | ⟨hub, hl⟩
      · rw [Iter.reset_eq hr1] at hex
        rcases Iter.reset_cases (hfill.ok hw i.leg2.1) i.leg2.2 with hr2 | ⟨hub, hl⟩
        · rw [Iter.reset_eq hr2] at hex; cases hex
        · rw [hub] at hex
          exact ⟨by rw [← hex]; rfl, fun hlive => hl (hfill.live hw hlive _)⟩
      · rw [hub] at hex
        exact ⟨by rw [← hex]; rfl, fun hlive => hl (hfill.live hw hlive _)⟩
    · obtain ⟨rfl, _, hf⟩ := executeStep_implied_ok hw hmem hm1 hm2 ho hex
      exact Or.inl ⟨_, x, _, _, _, rfl, hfill, ⟨hfill.ok hw, hfill.off hw, hfill.legs hw.legs, hf⟩,
        World.readRef_fillTaker ..⟩

/-- The same, of a step that is known to return. -/
theorem World.nextRec_fill {rec : MatchedRecord} {x : Iter × Option Iter} (hw : Ready w e s r)
    (ho : w.readRef e r = .ok o) (h : w.nextRec e s o = some rec)
    (hstep : executeStep w e r rec = .ok (w', x)) :
    Fill e s r w w' ∧ Ready w' e s r ∧ 0 < rec.matchedQuantity ∧
      rec.matchedQuantity ≤ o.remainQuantity ∧
      ∃ mid a b, w'.readRef e r =
        .ok (engineMatch o .taker mid rec.matchedPrice rec.matchedQuantity a b) := by
  obtain ⟨⟨hq0, hq⟩, ⟨w1, x1, mid, a, b, hex, hfill, hready, hread⟩ | ⟨hub, _⟩⟩ :=
    World.nextRec_step hw ho h
  · obtain ⟨rfl, -⟩ := Prod.mk.inj (Except.ok.inj (hex.symm.trans hstep))
    exact ⟨hfill, hready, hq0, hq, mid, a, b, hread⟩
  · rw [hub] at hstep; cases hstep

/-- A walk is a chain of fills. -/
theorem Walk.ready {recs : List MatchedRecord} (h : Walk e s r w recs w') (hw : Ready w e s r) :
    Ready w' e s r := by
  induction h with
  | nil w => exact hw
  | cons ho hrec hstep _ ih => exact ih (World.nextRec_fill hw ho hrec hstep).2.1

/-- What every fill preserves, every walk preserves. -/
theorem Walk.induct {P : World → Prop}
    (hfill : ∀ {w w'}, Ready w e s r → Ready w' e s r → Fill e s r w w' → P w → P w')
    {recs : List MatchedRecord} (h : Walk e s r w recs w') (hw : Ready w e s r) (hP : P w) :
    P w' := by
  induction h with
  | nil w => exact hP
  | cons ho hrec hstep _ ih =>
    obtain ⟨hf, hw1, _⟩ := World.nextRec_fill hw ho hrec hstep
    exact ih hw1 (hfill hw hw1 hf hP)

/-- The taker along a walk. -/
theorem Walk.taker {recs : List MatchedRecord} (h : Walk e s r w recs w') (hw : Ready w e s r)
    (ho : w.readRef e r = .ok o) : ∃ o', w'.readRef e r = .ok o' ∧ Filled o o' := by
  induction h generalizing o with
  | nil w => exact ⟨o, ho, Filled.refl o⟩
  | cons ho₀ hrec hstep _ ih =>
    obtain rfl := Except.ok.inj (ho₀.symm.trans ho)
    obtain ⟨_, hw1, _, hq, mid, a, b, ho1⟩ := World.nextRec_fill hw ho₀ hrec hstep
    obtain ⟨o', ho', hf⟩ := ih hw1 ho1
    exact ⟨o', ho', (Filled.engineMatch _ hq).trans hf⟩

/-! ### `normal_match` -/

theorem normalLoop_none (tick : ℤ) (n : ℕ) (hw : Ready w e s r) (ho : w.readRef e r = .ok o)
    (h : w.nextRec e s o = none) :
    normalLoop e s r tick (n + 1) w (w.matcher e s) = .ok (w, false) := by
  simp only [normalLoop, ho, ok_bind, World.top_matcher hw.ok hw.fronts]
  rcases (World.nextRec_eq_none hw.fronts).mp h with h0 | hp | hlim
  · simp [h0, pure, Except.pure]
  · simp [hp, pure, Except.pure]
  · simp [hlim.1, hlim.2, pure, Except.pure]

theorem Accepts.not_beyond (h : Accepts s o p) :
    ¬(o.price ≠ marketPrice ∧ s.cmp o.price p = true) := by
  rintro ⟨hne, hcmp⟩
  rcases h with hm | hm
  · exact hne hm
  · rw [hm] at hcmp; cases hcmp

/-- The loop in front of its next step, for a taker that may take: it executes the step and goes on
    with fresh iterators, or the step fails and the loop with it. -/
theorem normalLoop_some (tick : ℤ) (n : ℕ) {rec : MatchedRecord} (hw : Ready w e s r)
    (ho : w.readRef e r = .ok o) (h : w.nextRec e s o = some rec)
    (h1 : o.timeCondition ≠ .makerOnly) (h2 : o.timeCondition ≠ .makerOnlyReprice) :
    normalLoop e s r tick (n + 1) w (w.matcher e s) = (do
      let (w1, _) ← executeStep w e r rec
      normalLoop e s r tick n w1 (w1.matcher e s)) := by
  obtain ⟨h0, hp, hacc, hcase⟩ := World.nextRec_cases hw.fronts h
  have hlim := hacc.not_beyond
  have hmin :
      (if (w.offer e s).quantity < o.remainQuantity then (w.offer e s).quantity
        else o.remainQuantity) =
      min (w.offer e s).quantity o.remainQuantity := by split_ifs <;> omega
  simp only [normalLoop, ho, ok_bind, World.top_matcher hw.ok hw.fronts, h0.ne', hp, hlim, h1, h2,
    if_false, hmin]
  rcases hcase with ⟨m, hm, hoffer, rfl⟩ | ⟨k, i, m1, m2, hi, hm1, hm2, hsrc, hq, rfl⟩
  · have hloc : (w.matcher e s).loc = w.front e s := rfl
    simp only [hoffer, hloc]
    rcases hex : executeStep w e r
      ⟨m.price, min m.remainQuantity o.remainQuantity, w.front e s, none⟩ with f | ⟨w1, x⟩
    · rfl
    · obtain ⟨rfl, rfl, _⟩ := executeStep_local_ok hw hm ho hex
      simp only [ok_bind]
      rw [World.matcher_fillLocal hw.ok hw.off hm hw.legs]
  · have hmem : i ∈ (w.conf e).impliers s := List.mem_of_getElem? hi
    have hL : (w.matcher e s).impliers[k]? =
        some ⟨i, w.front i.leg1.1 i.leg1.2, w.front i.leg2.1 i.leg2.2⟩ := by
          simp [World.matcher, hi]
    simp only [hsrc, hL, hq]
    rcases hex : executeStep w e r ⟨(w.offer e s).price,
      min (min m1.remainQuantity m2.remainQuantity) o.remainQuantity, w.front i.leg1.1 i.leg1.2,
      some (w.front i.leg2.1 i.leg2.2)⟩ with f | ⟨w1, x⟩
    · rfl
    · obtain ⟨rfl, rfl, _⟩ := executeStep_implied_ok hw hmem hm1 hm2 ho hex
      simp only [ok_bind, Option.getD_some]
      rw [World.matcher_fillImplied hw.ok hw.off hw.legs hi hm1 hm2]

/-- The loop of `normal_match`, for a taker that may take, walks until there is no next step or
    until it runs into a dangling entry. -/
theorem normalLoop_walk (tick : ℤ) :
    ∀ (n : ℕ) {w : World} {o : Order}, Ready w e s r → w.readRef e r = .ok o →
    o.remainQuantity < n → o.timeCondition ≠ .makerOnly → o.timeCondition ≠ .makerOnlyReprice →
    (∃ recs w' o', normalLoop e s r tick n w (w.matcher e s) = .ok (w', false) ∧
      Walk e s r w recs w' ∧
      w'.readRef e r = .ok o' ∧ w'.nextRec e s o' = none) ∨
    (normalLoop e s r tick n w (w.matcher e s) = .error .ub ∧ ¬w.Live)
  | 0, _, _, _, _, hlt, _, _ => absurd hlt (Nat.not_lt_zero _)
  | n + 1, w, o, hw, ho, hlt, h1, h2 => by
    rcases hrec : w.nextRec e s o with _ | rec
    · exact Or.inl ⟨[], w, o, normalLoop_none tick n hw ho hrec, Walk.nil w, ho, hrec⟩
    rw [normalLoop_some tick n hw ho hrec h1 h2]
    obtain ⟨⟨hq0, hq⟩, ⟨w1, x, mid, a, b, hstep, hfill, hw1, ho1⟩ | ⟨hub, hl⟩⟩ :=
      World.nextRec_step hw ho hrec
    · have hlt' :
        (engineMatch o .taker mid rec.matchedPrice rec.matchedQuantity a b).remainQuantity < n := by
        rw [engineMatch_remainQuantity, subU64_of_le hq]
        omega
      simp only [hstep, ok_bind]
      rcases normalLoop_walk tick n hw1 ho1 hlt' h1 h2 with
        ⟨recs, w', o', hloop, hwalk, ho', hnone⟩ | ⟨hub, hl⟩
      · exact Or.inl ⟨rec :: recs, w', o', hloop, Walk.cons ho hrec hstep hwalk, ho', hnone⟩
      · exact Or.inr ⟨hub, fun hlive => hl (hfill.live hw hlive)⟩
    · exact Or.inr ⟨by rw [hub]; rfl, hl⟩

end Matching
