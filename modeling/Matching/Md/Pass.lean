import Mathlib.Data.List.Induction
import Matching.Md.ImpliedBook
import Matching.Md.Levels

/-! One `handle_implied` pass. Its three loops together move the level of every price once, from the
    old implied quantity to the new one (`handleImplied_eq`, `moveAll`). So a half that showed
    something and the old implied book on top shows the same thing and the new implied book on top
    afterwards (`handleImplied_spec`), and the items tell the levels that changed. -/

namespace Matching.Md

open BasicBook

variable {h : Half} {old new f base : ℤ → ℕ}

/-- Move the levels at the prices `ps` from what they have in `old` to what they have in `new`. -/
def moveAll (h : Half) (old new : ℤ → ℕ) : BasicBook → List ℤ → BasicBook × List BookItem
  | b, [] => (b, [])
  | b, p :: ps =>
    let moved := b.moveQuantity h p (old p) (new p)
    let rest := moveAll h old new moved.1 ps
    (rest.1, nodeItems moved.2 ++ rest.2)

theorem Publishing.push_eq (rt : List BookItem) (node : BookItem) :
    push rt node = rt ++ nodeItems node := by
  unfold push nodeItems
  split_ifs
  · rw [List.append_nil]
  · rfl

/-! ### The loops -/

/-- A level of the old implied book is moved to its quantity in the new one, and
    taken off the new one. -/
theorem Publishing.replace_eq {s : Publishing} {x : ℤ × BookItem} (hp : x.2.price = x.1)
    (hold : old x.1 = x.2.quantity) (hpos : 0 < x.2.quantity) (hnew : new x.1 = s.fresh.qty x.1) :
    replace h s x =
      ⟨(s.outright.moveQuantity h x.1 (old x.1) (new x.1)).1, s.fresh.erase x.1,
        s.items ++ nodeItems (s.outright.moveQuantity h x.1 (old x.1) (new x.1)).2⟩ := by
  rcases hx : s.fresh.find? x.1 with _ | item
  · have h0 : new x.1 = 0 := by rw [hnew, BookMap.qty, hx]; rfl
    simp only [replace, hx, hp, hold, h0, moveQuantity, Nat.not_lt_zero, if_false, gt_iff_lt, hpos,
      if_true, Nat.sub_zero, OrdMap.erase_none hx, push_eq]
  · have hq : new x.1 = item.quantity := by rw [hnew, BookMap.qty, hx]; rfl
    simp only [replace, hx, hp, hold, hq, push_eq]

theorem replace_foldl (h : Half) (old new : ℤ → ℕ) :
    ∀ (L : List (ℤ × BookItem)) (s : Publishing), (L.map Prod.fst).Nodup →
    (∀ x ∈ L, x.2.price = x.1 ∧ old x.1 = x.2.quantity ∧ 0 < x.2.quantity) →
      (∀ x ∈ L, new x.1 = s.fresh.qty x.1) →
    L.foldl (Publishing.replace h) s =
      ⟨(moveAll h old new s.outright (L.map Prod.fst)).1, L.foldl (fun m x => m.erase x.1) s.fresh,
        s.items ++ (moveAll h old new s.outright (L.map Prod.fst)).2⟩
  | [], s, _, _, _ => by simp [moveAll]
  | x :: L, s, hnd, hL, hnew => by
    obtain ⟨hx, hnd⟩ := List.nodup_cons.mp hnd
    obtain ⟨hp, hold, hpos⟩ := hL x (List.mem_cons_self ..)
    have hnext : ∀ y ∈ L, new y.1 = BookMap.qty (s.fresh.erase x.1) y.1 := by
      intro y hy
      have hne : y.1 ≠ x.1 := fun he => hx (he ▸ List.mem_map_of_mem hy)
      rw [hnew y (List.mem_cons_of_mem _ hy), BookMap.qty, BookMap.qty,
        OrdMap.find?_erase, if_neg hne]
    rw [List.foldl_cons, Publishing.replace_eq hp hold hpos (hnew x (List.mem_cons_self ..)),
      replace_foldl h old new L _ hnd (fun y hy => hL y (List.mem_cons_of_mem _ hy)) hnext]
    simp only [List.map_cons, moveAll, List.foldl_cons, List.append_assoc]

theorem insert_foldl (h : Half) (old new : ℤ → ℕ) : ∀ (L : List (ℤ × BookItem)) (s : Publishing),
    (∀ x ∈ L, x.2.price = x.1 ∧ old x.1 = 0 ∧ new x.1 = x.2.quantity ∧ 0 < x.2.quantity) →
    L.foldl (Publishing.insert h) s =
      ⟨(moveAll h old new s.outright (L.map Prod.fst)).1, s.fresh,
        s.items ++ (moveAll h old new s.outright (L.map Prod.fst)).2⟩
  | [], s, _ => by simp [moveAll]
  | x :: L, s, hL => by
    obtain ⟨hp, hold, hnew, hpos⟩ := hL x (List.mem_cons_self ..)
    have hins : Publishing.insert h s x =
        ⟨(s.outright.moveQuantity h x.1 (old x.1) (new x.1)).1, s.fresh,
          s.items ++ nodeItems (s.outright.moveQuantity h x.1 (old x.1) (new x.1)).2⟩ := by
      simp only [Publishing.insert, hp, hold, hnew, moveQuantity_zero _ h x.1 hpos,
        Publishing.push_eq]
    rw [List.foldl_cons, hins,
      insert_foldl h old new L _ (fun y hy => hL y (List.mem_cons_of_mem _ hy))]
    simp only [List.map_cons, moveAll, List.append_assoc]

theorem moveAll_append (b : BasicBook) : ∀ ps qs : List ℤ, moveAll h old new b (ps ++ qs) =
    ((moveAll h old new (moveAll h old new b ps).1 qs).1,
      (moveAll h old new b ps).2 ++ (moveAll h old new (moveAll h old new b ps).1 qs).2)
  | [], qs => rfl
  | p :: ps, qs => by
    simp only [List.cons_append, moveAll, moveAll_append _ ps qs, List.append_assoc]

theorem find?_foldl_erase : ∀ (L : List (ℤ × BookItem)) (m : BookMap) (p : ℤ),
    (L.foldl (fun m x => m.erase x.1) m).find? p = if p ∈ L.map Prod.fst then none else m.find? p
  | [], m, p => by simp
  | x :: L, m, p => by
    rw [List.foldl_cons, find?_foldl_erase L, OrdMap.find?_erase, List.map_cons]
    by_cases hL : p ∈ L.map Prod.fst
    · rw [if_pos hL, if_pos (List.mem_cons_of_mem _ hL)]
    · rw [if_neg hL]
      exact if_congr (by simp [hL]) rfl rfl

theorem keys_scan_nodup (h : Half) (m : BookMap) : ((h.scan m).map Prod.fst).Nodup := by
  rw [List.Nodup, List.pairwise_map]
  exact (Half.scan_ranked h m).imp fun {x y} hab he => by
    have hirr : h.better y.1 y.1 = false := StrictLt.irrefl y.1
    rw [he, hirr] at hab
    cases hab

theorem mem_keys_scan {m : BookMap} {p : ℤ} : p ∈ (h.scan m).map Prod.fst ↔ m.find? p ≠ none := by
  rw [List.mem_map]
  constructor
  · rintro ⟨⟨p', x⟩, hx, rfl⟩
    rw [Half.mem_scan.mp hx]
    exact Option.some_ne_none x
  · intro hne
    obtain ⟨x, hx⟩ := Option.ne_none_iff_exists'.mp hne
    exact ⟨(p, x), Half.mem_scan.mpr hx, rfl⟩

theorem Shows.find_ne_none {m : BookMap} (hs : Shows m h f) (p : ℤ) :
    m.find? p ≠ none ↔ f p ≠ 0 := by
  rw [hs p, levelAt]
  split_ifs with h0
  · exact iff_of_false (fun hn => hn rfl) (fun hn => hn h0)
  · exact iff_of_true (Option.some_ne_none _) h0

/-- The pass moves every price of the old and of the new implied book once. -/
theorem handleImplied_eq {leg1 leg2 : List (ℤ × ℕ)} {implied : BookMap} {outright : BasicBook}
    {ip : ℤ → ℤ → ℤ → ℤ} {tick : ℤ} (hold : Shows implied h old)
    (hnew : Shows (handleImplied h leg1 leg2 implied outright ip tick).2.1 h new) :
    ∃ ps : List ℤ, ps.Nodup ∧ (∀ p, p ∈ ps ↔ old p ≠ 0 ∨ new p ≠ 0) ∧
      (handleImplied h leg1 leg2 implied outright ip tick).1 = (moveAll h old new outright ps).1 ∧
      ∀ x, x ∈ (handleImplied h leg1 leg2 implied outright ip tick).2.2 ↔
        x ∈ (moveAll h old new outright ps).2 := by
  set fresh :=
    newImplied h
      (impliedWalk h ip (outright.best? h.opp) tick
      (leg1.length + leg2.length) leg1 leg2) with hfresh
  replace hnew : Shows fresh h new := hnew
  set left := (h.scan implied).foldl (fun m x => m.erase x.1) fresh with hleft
  have hleftfind : ∀ p, left.find? p = if old p ≠ 0 then none else fresh.find? p := fun p => by
    rw [hleft, find?_foldl_erase]
    exact if_congr (by rw [mem_keys_scan, hold.find_ne_none]) rfl rfl
  have hleftmem : ∀ x ∈ h.scan left, old x.1 = 0 ∧ fresh.find? x.1 = some x.2 := by
    intro x hx
    have hf := hleftfind x.1
    rw [Half.mem_scan.mp hx] at hf
    split_ifs at hf with h0
    exact ⟨not_not.mp h0, hf.symm⟩
  have h1 := replace_foldl h old new (h.scan implied) ⟨outright, fresh, []⟩
    (keys_scan_nodup h implied) (fun x hx => by
      obtain ⟨hxe, h0⟩ := hold.level (Half.mem_scan.mp hx)
      rw [hxe]
      exact ⟨rfl, rfl, Nat.pos_of_ne_zero h0⟩) (fun x _ => (hnew.qty_eq x.1).symm)
  have h2 := insert_foldl h old new (h.scan left)
    ⟨(moveAll h old new outright ((h.scan implied).map Prod.fst)).1, left,
      [] ++ (moveAll h old new outright ((h.scan implied).map Prod.fst)).2⟩ (fun x hx => by
      obtain ⟨h0, hx'⟩ := hleftmem x hx
      obtain ⟨hxe, hne⟩ := hnew.level hx'
      refine ⟨by rw [hxe], h0, by rw [hxe], ?_⟩
      rw [hxe]
      exact Nat.pos_of_ne_zero hne)
  simp only [List.nil_append] at h1 h2
  refine ⟨(h.scan implied).map Prod.fst ++ (h.scan left).map Prod.fst, ?_, fun p => ?_,
    ?_, fun x => ?_⟩
  · refine List.Nodup.append (keys_scan_nodup h implied) (keys_scan_nodup h left) fun p hp hp' => ?_
    obtain ⟨x, hx, rfl⟩ := List.mem_map.mp hp'
    exact (hold.find_ne_none x.1).mp (mem_keys_scan.mp hp) (hleftmem x hx).1
  · rw [List.mem_append, mem_keys_scan, mem_keys_scan, hold.find_ne_none, hleftfind]
    by_cases h0 : old p = 0
    · rw [if_neg (fun hne => hne h0), hnew.find_ne_none]
    · exact iff_of_true (Or.inl h0) (Or.inl h0)
  · simp only [handleImplied, ← hfresh, h1, ← hleft, h2, moveAll_append]
  · simp only [handleImplied, ← hfresh, h1, ← hleft, h2, moveAll_append, List.mem_mergeSort]

/-! ### What the pass does to the book -/

/-- From `b` to `b'` the levels of half `h` have changed from `f` to `g`, and the items tell. -/
structure Passes (b b' : BasicBook) (items : List BookItem) (h : Half) (g : ℤ → ℕ) : Prop where
  shows : Shows (b'.half h) h g
  other : b'.half h.opp = b.half h.opp
  orders : b'.orders = b.orders
  backed : b.Backed → b'.Backed
  told : Told b b' items

theorem moveAll_within (h : Half) (old new : ℤ → ℕ) :
    ∀ (ps : List ℤ) (b : BasicBook), Within h b (moveAll h old new b ps).1
  | [], b => Within.refl h b
  | p :: ps, b => (moveQuantity_within b h p (old p) (new p)).trans (moveAll_within h old new ps _)

theorem Told.trans {b b1 b2 : BasicBook} {l1 l2 : List BookItem} (h1 : Told b b1 l1)
    (h2 : Told b1 b2 l2)
    (hkeep : ∀ x ∈ l1, ∀ h : Half, x.side = h.side →
      (b2.half h).find? x.price = (b1.half h).find? x.price) :
    Told b b2 (l1 ++ l2) := by
  refine ⟨fun x hx => ?_, fun h p hnot => ?_⟩
  · rcases List.mem_append.mp hx with hx | hx
    · obtain ⟨h, hside, hlev⟩ := h1.level x hx
      exact ⟨h, hside, (hkeep x hx h hside).trans hlev⟩
    · exact h2.level x hx
  · rw [h2.silent h p (fun x hx => hnot x (List.mem_append_right _ hx)),
      h1.silent h p (fun x hx => hnot x (List.mem_append_left _ hx))]

theorem moveAll_passes :
    ∀ (ps : List ℤ) (b : BasicBook) (f : ℤ → ℕ), ps.Nodup → Shows (b.half h) h f →
    (∀ p ∈ ps, old p ≤ f p) → (moveAll h old new b ps).1.NoCarry →
    Passes b (moveAll h old new b ps).1 (moveAll h old new b ps).2 h
      (fun p => if p ∈ ps then f p - old p + new p else f p)
  | [], b, f, _, hs, _, _ => ⟨hs.congr (fun p => by simp), rfl, rfl, id, Told.refl b⟩
  | p :: ps, b, f, hnd, hs, hle, hc => by
    obtain ⟨hp, hnd⟩ := List.nodup_cons.mp hnd
    have hc1 : (b.moveQuantity h p (old p) (new p)).1.NoCarry :=
      NoCarry.of_within (moveAll_within h old new ps _) hc
    have hm := moveQuantity_moves hs (hle p (List.mem_cons_self ..)) hc1
    set moved := b.moveQuantity h p (old p) (new p) with hmoved
    have hrest := moveAll_passes ps moved.1 _ hnd hm.shows (fun p' hp' => by
      rw [Function.update_of_ne (fun he : p' = p => hp (he ▸ hp'))]
      exact hle p' (List.mem_cons_of_mem _ hp')) (by rw [moveAll, ← hmoved] at hc; exact hc)
    have hdef : moveAll h old new b (p :: ps) =
        ((moveAll h old new moved.1 ps).1, nodeItems moved.2 ++ (moveAll h old new moved.1 ps).2) :=
          rfl
    rw [hdef]
    refine ⟨hrest.shows.congr fun p' => ?_, hrest.other.trans hm.other,
      hrest.orders.trans hm.orders, fun hb => hrest.backed (hm.backed hb),
      (hm.toldItem hs).trans hrest.told fun x hx h' hside => ?_⟩
    · by_cases he : p' = p
      · subst he
        simp [hp]
      · simp [he]
    · -- the level just told is not among those still to be moved
      rcases hm.told with ⟨_, hitem⟩ | hitem
      · rw [hitem] at hx
        exact nomatch hx
      · have hone : nodeItems moved.2 = [moved.2] := by rw [hitem]; exact if_neg h.side_ne_none
        rw [hone] at hx
        obtain rfl := List.mem_singleton.mp hx
        rw [hitem] at hside ⊢
        obtain rfl := Half.side_inj hside
        have hkeep := hrest.shows p
        simp only [if_neg hp] at hkeep
        exact hkeep.trans (hm.shows p).symm

/-! ### The implied levels -/

theorem impliedWalk_pos {ip : ℤ → ℤ → ℤ → ℤ} {best : Option ℤ} {tick : ℤ} :
    ∀ (n : ℕ) (leg1 leg2 : List (ℤ × ℕ)),
    (∀ x ∈ leg1, 0 < x.2) → (∀ x ∈ leg2, 0 < x.2) →
      ∀ x ∈ impliedWalk h ip best tick n leg1 leg2, 0 < x.2
  | 0, _, _, _, _, x, hx => by simp [impliedWalk] at hx
  | _ + 1, [], _, _, _, x, hx => by simp [impliedWalk] at hx
  | _ + 1, _ :: _, [], _, _, x, hx => by simp [impliedWalk] at hx
  | n + 1, (p1, q1) :: leg1, (p2, q2) :: leg2, h1, h2, x, hx => by
    have hq1 : 0 < q1 := h1 _ (List.mem_cons_self ..)
    have hq2 : 0 < q2 := h2 _ (List.mem_cons_self ..)
    simp only [impliedWalk] at hx
    set q := if q1 < q2 then q1 else q2 with hq
    have hqpos : 0 < q := by rw [hq]; split_ifs <;> omega
    have hnext : ∀ {p : ℤ} {q' : ℕ} {leg : List (ℤ × ℕ)}, (∀ y ∈ (p, q') :: leg, 0 < y.2) →
        ∀ y ∈ (if q' - q = 0 then leg else (p, q' - q) :: leg), 0 < y.2 := by
      intro p q' leg hleg y hy
      split_ifs at hy with h0
      · exact hleg y (List.mem_cons_of_mem _ hy)
      · rcases List.mem_cons.mp hy with rfl | hy
        · exact Nat.pos_of_ne_zero h0
        · exact hleg y (List.mem_cons_of_mem _ hy)
    rcases List.mem_cons.mp hx with rfl | hx
    · exact hqpos
    · exact impliedWalk_pos n _ _ (hnext h1) (hnext h2) x hx

theorem newImplied_concat (h : Half) (walk : List (ℤ × ℕ)) (x : ℤ × ℕ) :
    newImplied h (walk ++ [x]) = (newImplied h walk).insert x.1 ⟨x.1, x.2, h.side, 0⟩ := by
  rw [newImplied, List.foldl_append]
  rfl

/-- An implied book has the prices of the walk. -/
theorem newImplied_find_iff (h : Half) {walk : List (ℤ × ℕ)} {p : ℤ} :
    (newImplied h walk).find? p ≠ none ↔ p ∈ walk.map Prod.fst := by
  induction walk using List.reverseRecOn with
  | nil => simp [newImplied]
  | append_singleton walk x ih =>
    rw [newImplied_concat, OrdMap.find?_insert, List.map_append, List.mem_append, ← ih]
    split_ifs with hp
    · exact iff_of_true (Option.some_ne_none _) (.inr (List.mem_singleton.mpr hp))
    · exact ⟨.inl, fun hm => hm.resolve_right fun hx => hp (List.mem_singleton.mp hx)⟩

/-- The levels of an implied book are a function of the walk. -/
theorem newImplied_shows (h : Half) {walk : List (ℤ × ℕ)} (hpos : ∀ x ∈ walk, 0 < x.2) :
    ∃ g, Shows (newImplied h walk) h g := by
  have hgen : ∀ (walk : List (ℤ × ℕ)) (m : BookMap) (f : ℤ → ℕ),
      (∀ x ∈ walk, 0 < x.2) → Shows m h f →
      ∃ g, Shows (walk.foldl (fun m x => m.insert x.1 ⟨x.1, x.2, h.side, 0⟩) m) h g := by
    intro walk
    induction walk with
    | nil => exact fun m f _ hs => ⟨f, hs⟩
    | cons x walk ih =>
      intro m f hw hs
      exact ih _ _ (fun y hy => hw y (List.mem_cons_of_mem _ hy))
        (hs.insert (Nat.pos_iff_ne_zero.mp (hw x (List.mem_cons_self ..))))
  exact hgen walk _ _ hpos (Shows.empty h)

/-- The levels of a half that shows something have quantities. -/
theorem levels_pos {b : BasicBook} (hs : Shows (b.half h) h f) : ∀ x ∈ b.levels h, 0 < x.2 := by
  intro x hx
  obtain ⟨y, hy, rfl⟩ := List.mem_map.mp hx
  obtain ⟨hye, h0⟩ := hs.level (Half.mem_scan.mp hy)
  rw [hye]
  exact Nat.pos_of_ne_zero h0

section Pass

variable {leg1 leg2 : List (ℤ × ℕ)} {implied : BookMap} {outright : BasicBook} {ip : ℤ → ℤ → ℤ → ℤ}
  {tick : ℤ}

/-- Where the outright book showed `base` and the old implied book, it shows `base` and
    the new implied book. -/
theorem handleImplied_passes (hold : Shows implied h old)
    (hbase : Shows (outright.half h) h (fun p => base p + old p)) (h1 : ∀ x ∈ leg1, 0 < x.2)
    (h2 : ∀ x ∈ leg2, 0 < x.2)
    (hc : (handleImplied h leg1 leg2 implied outright ip tick).1.NoCarry) :
    ∃ new, Shows (handleImplied h leg1 leg2 implied outright ip tick).2.1 h new ∧
      Passes outright (handleImplied h leg1 leg2 implied outright ip tick).1
        (handleImplied h leg1 leg2 implied outright ip tick).2.2 h (fun p => base p + new p) := by
  obtain ⟨new, hnew⟩ : ∃ new,
      Shows (handleImplied h leg1 leg2 implied outright ip tick).2.1 h new :=
    newImplied_shows h (impliedWalk_pos _ _ _ h1 h2)
  obtain ⟨ps, hnd, hps, hout, hitems⟩ := handleImplied_eq hold hnew
  rw [hout] at hc ⊢
  have hpass := moveAll_passes ps outright _ hnd hbase (fun p _ => Nat.le_add_left _ _) hc
  refine ⟨new, hnew, hpass.shows.congr fun p => ?_, hpass.other, hpass.orders, hpass.backed, ?_⟩
  · by_cases hp : p ∈ ps
    · simp [hp]
    · obtain ⟨h0, h0'⟩ := not_or.mp (fun h => hp ((hps p).mpr h))
      simp only [if_neg hp, not_not.mp h0, not_not.mp h0']
  · exact ⟨fun x hx => hpass.told.level x ((hitems x).mp hx),
      fun h p hnot => hpass.told.silent h p fun x hx => hnot x ((hitems x).mpr hx)⟩

/-- A pass changes only the half it is asked for. -/
theorem handleImplied_within (h : Half) (leg1 leg2 : List (ℤ × ℕ)) (implied : BookMap)
    (outright : BasicBook) (ip : ℤ → ℤ → ℤ → ℤ) (tick : ℤ) :
    Within h outright (handleImplied h leg1 leg2 implied outright ip tick).1 := by
  have hfold : ∀ F : Publishing → ℤ × BookItem → Publishing,
      (∀ s x, Within h s.outright (F s x).outright) →
      ∀ (L : List (ℤ × BookItem)) (s : Publishing), Within h s.outright (L.foldl F s).outright := by
    intro F hF L
    induction L with
    | nil => exact fun s => Within.refl h _
    | cons x L ih => exact fun s => (hF s x).trans (ih (F s x))
  have hreplace := hfold (Publishing.replace h) fun s x => by
    unfold Publishing.replace
    split
    · exact reduceQuantity_within ..
    · exact moveQuantity_within ..
  have hinsert := hfold (Publishing.insert h) fun s x => addQuantity_within ..
  exact (hreplace (h.scan implied) ⟨outright, _, []⟩).trans (hinsert _ _)

end Pass

/-! ### Passes of an implied book -/

namespace ImpliedBook

variable (g : ImpliedBook) (h : Half) (m : BookMap) (seen' : Option ℤ)

@[simp] theorem implied_setImplied : (g.setImplied h m seen').implied h = m := by cases h <;> rfl

@[simp] theorem implied_opp_setImplied : (g.setImplied h m seen').implied h.opp = g.implied h.opp :=
  by cases h <;> rfl

@[simp] theorem a_setImplied : (g.setImplied h m seen').a = g.a := by cases h <;> rfl

@[simp] theorem b_setImplied : (g.setImplied h m seen').b = g.b := by cases h <;> rfl

@[simp] theorem seen_setImplied : (g.setImplied h m seen').seen h = seen' := by cases h <;> rfl

@[simp] theorem seen_opp_setImplied : (g.setImplied h m seen').seen h.opp = g.seen h.opp := by
  cases h <;> rfl

@[simp] theorem implieType_setImplied (h' : Half) :
    (g.setImplied h m seen').implieType h' = g.implieType h' := by
  cases h <;> cases h' <;> rfl

@[simp] theorem implier_setImplied (h' : Half) :
    (g.setImplied h m seen').implier h' = g.implier h' := by
  cases h <;> cases h' <;> rfl

end ImpliedBook

namespace MdBook

/-- `refresh` does nothing or one pass. -/
theorem Part.refresh_cases (tick : ℤ) (h : Half) (types : List ImplierType) (s : Part) :
    s.refresh tick h types = s ∨
      ∃ h1 h2 ip, s.book.implieType h ∈ types ∧ (s.book.implieType h).legs = some (h1, h2) ∧
        s.book.implier h = some ip ∧
        s.refresh tick h types =
          ⟨s.book.setImplied h
            (handleImplied h (s.book.a.levels h1) (s.book.b.levels h2)
            (s.book.implied h) s.outright ip tick).2.1
              (s.outright.best? h.opp),
            (handleImplied h (s.book.a.levels h1) (s.book.b.levels h2)
              (s.book.implied h) s.outright ip tick).1,
            s.published ++
              (handleImplied h (s.book.a.levels h1) (s.book.b.levels h2)
                (s.book.implied h) s.outright ip tick).2.2⟩ := by
  unfold Part.refresh
  by_cases ht : s.book.implieType h ∈ types
  · rw [if_pos ht]
    rcases hl : (s.book.implieType h).legs with _ | ⟨h1, h2⟩
    · exact Or.inl rfl
    rcases hi : s.book.implier h with _ | ip
    · exact Or.inl rfl
    · exact Or.inr ⟨h1, h2, ip, ht, rfl, rfl, rfl⟩
  · rw [if_neg ht]
    exact Or.inl rfl

/-- `onBook` works on one of the attached books, if there is one at its place. -/
theorem onBook_cases (m : MdBook) (i : ℕ) (f : Part → Part) :
    (m.impliedBooks[i]? = none ∧ m.onBook i f = m) ∨
      ∃ l1 g l2 s, m.impliedBooks = l1 ++ g :: l2 ∧ m.impliedBooks[i]? = some g ∧
        s = f ⟨g, m.outright, m.published⟩ ∧
        m.onBook i f = ⟨m.miniTick, s.outright, l1 ++ s.book :: l2, s.published⟩ := by
  unfold onBook
  rcases hg : m.impliedBooks[i]? with _ | g
  · exact Or.inl ⟨rfl, rfl⟩
  obtain ⟨hi, rfl⟩ := List.getElem?_eq_some_iff.mp hg
  refine Or.inr ⟨m.impliedBooks.take i, m.impliedBooks[i], m.impliedBooks.drop (i + 1),
    _, by simp, rfl, rfl, ?_⟩
  simp only [List.set_eq_take_append_cons_drop, if_pos hi]

end MdBook
end Matching.Md
