import Matching.Engine.Entries

/-! Where the orders of an engine without impliers are. Between two small steps every order of the
    map is active or in hand, a waiting order is on all its sides, and an order in a price book is
    where `handle_cancel` is going to look for it (`Placed`). An execution keeps this when its taker
    lands well (`Exec.Lands`): an order that waited for one leg comes to rest, and whoever comes to
    rest does so where it is looked for. -/

namespace Matching

variable {T : ℕ → Terms → Prop} {g g' : Store} {w w' w1 : World} {n : ℕ} {e : ℕ} {s : Side}
  {r : Ref} {hs hs' : List Held}
  {o o' q : Order}

theorem Order.stopSides_congr (ht : o'.terms = o.terms) : o'.stopSides = o.stopSides := by
  rw [stopSides, stopSides, terms_side ht]

theorem Order.lookup_congr (hp : o'.price = o.price) (ht : o'.terms = o.terms) :
    o'.lookup = o.lookup := by
  have hlimit : o'.buyStopLimitPrice = o.buyStopLimitPrice := terms_stopLimit ht .buy
  rw [lookup, lookup, hp, terms_side ht, hlimit]

/-- Where the orders of a store are, with the ids `hs` in hand. -/
structure Placed (g : Store) (hs : List Held) : Prop where
  active : ∀ {id o}, g.odrMap.find? id = some o → o.Active ∨ ⟨none, id⟩ ∈ hs
  sides : ∀ {id o s}, g.odrMap.find? id = some o → g.Waiting hs id → s ∈ o.stopSides →
    id ∈ (g.stops s).ids ∨ ⟨some s, id⟩ ∈ hs
  found : ∀ {id o t p}, (g.book t).At p id → g.odrMap.find? id = some o → o.lookup = .inl t

/-- The taker of the execution ends as the books need it. -/
structure Exec.Lands (z : Exec) : Prop where
  oneLeg : z.OneLeg
  rests : z.ref ≠ .arg → ∃ p, z.fate = .rested p
  found : ∀ p, z.fate = .rested p → ({ z.taker with price := p } : Order).lookup = .inl z.side.opp

/-- Where the taker comes to rest. -/
def Fate.rest? : Fate → Option ℤ
  | .rested p => some p
  | _ => none

theorem Fate.mem_rest? {f : Fate} {p : ℤ} : p ∈ f.rest? ↔ f = .rested p := by
  cases f <;> simp [rest?, eq_comm]

instance (z : Exec) : Decidable z.OneLeg := inferInstanceAs (Decidable (_ → _))

theorem Exec.lands_iff {z : Exec} : z.Lands ↔ z.OneLeg ∧ (z.ref ≠ .arg → z.fate.rest? ≠ none) ∧
    ∀ p ∈ z.fate.rest?, ({ z.taker with price := p } : Order).lookup = .inl z.side.opp := by
  have hrests : (∃ p, z.fate = .rested p) ↔ z.fate.rest? ≠ none := by
    simp only [← Fate.mem_rest?, Option.mem_def, Option.ne_none_iff_exists']
  simp only [Fate.mem_rest?, ← hrests]
  exact ⟨fun h => ⟨h.oneLeg, h.rests, h.found⟩, fun ⟨h1, h2, h3⟩ => ⟨h1, h2, h3⟩⟩

instance (z : Exec) : Decidable z.Lands := decidable_of_iff _ Exec.lands_iff.symm

namespace Placed

theorem empty : Placed ⟨.empty, [], [], [], []⟩ [] := by
  refine ⟨fun h => (by cases h), fun h => (by cases h), fun {id o t p} h => ?_⟩
  cases t <;> exact absurd h (by simp [Store.book])

/-- Entries may leave the price books and orders the map; what is still waiting is where it was. -/
theorem frame (h : Placed g hs) (hids : ∀ {t p j}, (g'.book t).At p j → (g.book t).At p j)
    (hfind : ∀ {j o'}, g'.odrMap.find? j = some o' → (o'.Active ∨ ⟨none, j⟩ ∈ hs') ∧
      ∃ o, g.odrMap.find? j = some o ∧ o'.terms = o.terms ∧
      ((∃ t, j ∈ (g'.book t).ids) → o'.price = o.price))
    (hwait : ∀ {j}, g'.Waiting hs' j → g.Waiting hs j ∧ ∀ s, j ∈ (g.stops s).ids ∨
      ⟨some s, j⟩ ∈ hs → j ∈ (g'.stops s).ids ∨ ⟨some s, j⟩ ∈ hs') : Placed g' hs' where
  active ho := (hfind ho).1
  sides ho hw hside := by
    obtain ⟨_, o, ho1, hterms, _⟩ := hfind ho
    obtain ⟨hold, hstay⟩ := hwait hw
    exact hstay _ (h.sides ho1 hold (Order.stopSides_congr hterms ▸ hside))
  found hat ho := by
    obtain ⟨_, o, ho1, hterms, hprice⟩ := hfind ho
    rw [Order.lookup_congr (hprice ⟨_, hat.mem_ids⟩) hterms]
    exact h.found (hids hat) ho1

/-- The same where no stop book and no hand changes. -/
theorem frame_stops (h : Placed g hs) (hids : ∀ {t p j}, (g'.book t).At p j → (g.book t).At p j)
    (hstops : ∀ s, g'.stops s = g.stops s)
    (hfind : ∀ {j o'}, g'.odrMap.find? j = some o' → (o'.Active ∨ ⟨none, j⟩ ∈ hs) ∧
      ∃ o, g.odrMap.find? j = some o ∧ o'.terms = o.terms ∧
      ((∃ t, j ∈ (g'.book t).ids) → o'.price = o.price)) : Placed g' hs := by
  refine h.frame hids hfind fun {j} hw => ⟨?_, fun s hm => by rwa [hstops]⟩
  obtain ⟨s, hm⟩ := hw
  exact ⟨s, by rwa [hstops] at hm⟩

/-- The trades of an execution. -/
theorem traded {ms : List Order} {m : ℕ} (h : Placed (w.store e) (r.hand ++ hs))
    (hok : StoreOk T (w.store e) n (r.hand ++ hs)) (ho : w.readRef e r = .ok o)
    (hid : ∀ id, r = .entry id → o.orderId = id) (hms : ms.Sublist ((w.store e).queue s))
    (hoff : OffBook w1 e r) (htr : Traded w e s r o (trades m o ms) w1) :
    Placed (w1.store e) (r.hand ++ hs) := by
  refine h.frame_stops (fun {t p j} hat => ?_) (fun s => htr.stops e s) fun {j o'} ho' => ?_
  · by_cases ht : t = s
    · subst ht
      rw [htr.book, Ladder.at_without] at hat
      exact hat.1
    · rwa [htr.bookOther e t (fun he => ht (congrArg Prod.snd he))] at hat
  · by_cases hr : r = .entry j
    · subst hr
      have hf : (w.store e).odrMap.find? j = some o := by
        simpa [World.readRef, World.deref] using ho
      have hf1 : (w1.store e).odrMap.find? j = some (afterTrades o (trades m o ms)) := by
        simpa [World.readRef, World.deref] using htr.taker
      obtain rfl := Option.some.inj (ho'.symm.trans hf1)
      exact ⟨Or.inr (List.mem_append_left _ (Ref.mem_hand.mpr rfl)), o, hf,
        (filled_afterTrades m o ms).terms, fun hc => hc.elim fun t hm => absurd hm (hoff j rfl t)⟩
    · rw [htr.find j hr] at ho'
      cases hmk : (trades m o ms).find? (fun t => t.maker.orderId = j) with
      | none =>
        rw [hmk] at ho'
        exact ⟨h.active ho', o', ho', rfl, fun _ => rfl⟩
      | some t =>
        rw [hmk] at ho'
        simp only at ho'
        split_ifs at ho' with hz
        obtain rfl := Option.some.inj ho'
        have hmaker : t.maker.orderId = j := by simpa using List.find?_some hmk
        obtain ⟨i, _, hi⟩ :=
          Store.mem_queue.mp (hms.subset (mem_makers (List.mem_of_find?_eq_some hmk)))
        obtain rfl : i = j := (hok.key hi).1.symm.trans hmaker
        exact ⟨Or.inl (Order.active_engineMatch.mpr hz), t.maker, hi, rfl, fun _ => rfl⟩

end Placed

theorem Order.active_afterTrades {T : List Trade} (ho : o.Active)
    (h0 : (afterTrades o T).remainQuantity ≠ 0) :
    (afterTrades o T).Active := by
  unfold afterTrades at *
  cases hl : T.getLast? with
  | none => exact ho
  | some t =>
    rw [hl] at h0
    exact Order.active_engineMatch.mpr h0

/-- The end of an execution: its taker leaves the hand. -/
theorem Placed.ends {f : Fate} {o1 : Order} (h : Placed (w1.store e) (r.hand ++ hs))
    (hfree : w1.Free e r o1) (hoff : OffBook w1 e r)
    (hwait : ¬(w1.store e).Waiting (r.hand ++ hs) o1.orderId)
    (hact : o1.remainQuantity ≠ 0 → o1.Active) (hrests : r ≠ .arg → ∃ p, f = .rested p)
    (hfound : ∀ p, f = .rested p → ({ o1 with price := p } : Order).lookup = .inl s.opp)
    (hends : Ends w1 e s r o1 f w') : Placed (w'.store e) hs := by
  cases hends with
  | filled h0 =>
    cases r with
    | arg => exact h
    | entry id =>
      obtain ⟨p, hp⟩ := hrests (by simp)
      cases hp
  | killed h0 p st =>
    cases r with
    | arg =>
      have hstore : (w1.kill e .arg { o1 with price := p, orderState := st }).store e =
        w1.store e := World.store_callback ..
      rw [hstore]
      exact h
    | entry id =>
      obtain ⟨p, hp⟩ := hrests (by simp)
      cases hp
  | rested h0 p =>
    have hfree' : w1.Free e r { o1 with price := p } := ⟨hfree.entry, hfree.arg⟩
    have hfind : ∀ j, ((w1.rest e s r { o1 with price := p }).store e).odrMap.find? j =
        if j = o1.orderId then some { o1 with price := p }
        else (w1.store e).odrMap.find? j := fun j => by
      rw [World.find_rest w1 e s r _ e hfree'.entry (fun hr => (hfree'.arg hr).1)]
      simp
    have hstops : ∀ t, ((w1.rest e s r { o1 with price := p }).store e).stops t =
      (w1.store e).stops t := fun t => World.stops_rest ..
    refine ⟨fun {j o'} ho' => ?_, fun {j o' t} ho' hw hside => ?_, fun {j o' t c} hat ho' => ?_⟩
    · rw [hfind] at ho'
      split_ifs at ho' with hj
      · obtain rfl := Option.some.inj ho'
        exact Or.inl (hact h0)
      · refine (h.active ho').imp id fun hin => ?_
        rcases List.mem_append.mp hin with hm | hm
        · exact absurd (hfree.entry j (Ref.mem_hand.mp hm)).symm hj
        · exact hm
    · have hw1 : (w1.store e).Waiting (r.hand ++ hs) j := by
        obtain ⟨u, hm⟩ := hw
        rw [hstops] at hm
        exact ⟨u, hm.imp id (List.mem_append_right _)⟩
      have hj : j ≠ o1.orderId := fun he => hwait (he ▸ hw1)
      rw [hfind, if_neg hj] at ho'
      rw [hstops]
      refine (h.sides ho' hw1 hside).imp id fun hm => ?_
      rcases List.mem_append.mp hm with hm | hm
      · exact absurd hm Ref.some_notMem_hand
      · exact hm
    · rw [hfind] at ho'
      rw [World.book_rest] at hat
      split_ifs at ho' with hj
      · obtain rfl := Option.some.inj ho'
        split_ifs at hat with ht
        · rw [ht.2]
          exact hfound p rfl
        · exact absurd (hj ▸ hat.mem_ids) (hfree.notMem hoff t)
      · split_ifs at hat with ht
        · rcases (Ladder.at_insert _ _ _ _ _).mp hat with ⟨_, he⟩ | hat
          · exact absurd he hj
          · rw [ht.2]
            exact h.found hat ho'
        · exact h.found hat ho'

/-- Under its id a taker may still come to rest after its trades. -/
theorem Traded.free {ms : List Order} {m : ℕ} (htr : Traded w e s r o (trades m o ms) w1)
    (hok : StoreOk T (w.store e) n hs') (hms : ms.Sublist ((w.store e).queue s))
    (h : w.Free e r o) : w1.Free e r (afterTrades o (trades m o ms)) := by
  have hid : (afterTrades o (trades m o ms)).orderId = o.orderId :=
    (filled_afterTrades m o ms).orderId
  refine ⟨fun id hr => hid.trans (h.entry id hr), fun hr => ?_⟩
  obtain ⟨hnone, hbook⟩ := h.arg hr
  subst hr
  rw [hid]
  refine ⟨?_, fun t hm => hbook t ?_⟩
  · rw [htr.find o.orderId (by simp)]
    cases hmk : (trades m o ms).find? (fun t => t.maker.orderId = o.orderId) with
    | none => exact hnone
    | some t =>
      have hmaker : t.maker.orderId = o.orderId := by simpa using List.find?_some hmk
      obtain ⟨i, _, hi⟩ :=
        Store.mem_queue.mp (hms.subset (mem_makers (List.mem_of_find?_eq_some hmk)))
      obtain rfl : i = o.orderId := (hok.key hi).1.symm.trans hmaker
      rw [hnone] at hi
      cases hi
  · by_cases ht : t = s
    · subst ht
      obtain ⟨p, hat⟩ := Ladder.mem_ids.mp hm
      rw [htr.book, Ladder.at_without] at hat
      exact hat.1.mem_ids
    · rwa [htr.bookOther e t (fun he => ht (congrArg Prod.snd he))] at hm

theorem LegsApart.of_nil (hi : ∀ t, (w.conf e).impliers t = []) (s : Side) : LegsApart w e s := by
  have hnil : (w.conf e).legs s = [] := by
    rw [Config.legs, hi]
    rfl
  exact ⟨by rw [hnil]; exact List.nodup_nil, by rw [hnil]; exact fun x hx => by cases hx⟩

/-- An execution whose taker lands well. -/
theorem execute_placed (h : Placed (w.store e) (r.hand ++ hs))
    (hsnd : w.SoundAt T n e (r.hand ++ hs)) (hoff : OffBook w e r)
    (hi : ∀ t, (w.conf e).impliers t = []) (ho : w.readRef e r = .ok o)
    (h0 : o.remainQuantity ≠ 0) (hact : o.Active) (htk : TakerOk T n (r.hand ++ hs) s r o)
    (hex : execute w e s r = .ok w') (hland : Exec.Lands ⟨e, s, r, o, w.engines e⟩) :
    Placed (w'.store e) hs := by
  rcases execute_reference ⟨hsnd.ok, hoff, LegsApart.of_nil hi s⟩ hi ho h0 with
    ⟨v, hv, w1, hw1, htr, hends⟩ | ⟨hub, _⟩
  · obtain rfl := Except.ok.inj (hv.symm.trans hex)
    have hfree0 : (w.logExec e s r o).Free e r o := ⟨(hsnd.free htk).entry, (hsnd.free htk).arg⟩
    have hread : (w.logExec e s r o).readRef e r = .ok o := by rw [World.readRef_logExec, ho]
    rw [Store.plan_eq] at htr hends
    have hms := ((w.logExec e s r o).store e).takes_sublist s o
    have hplaced :=
      Placed.traded (w := w.logExec e s r o) h hsnd.self hread
        (fun id hr => (htk.entry id hr).1) hms hw1.off htr
    have hfree := Traded.free htr hsnd.self hms hfree0
    have hfill :=
      filled_afterTrades (w.logExec e s r o).nextId o (((w.logExec e s r o).store e).takes s o)
    have hact1 : _ →
        (afterTrades o
        (trades (w.logExec e s r o).nextId o (((w.logExec e s r o).store e).takes s o))).Active :=
      Order.active_afterTrades hact
    generalize afterTrades o
      (trades (w.logExec e s r o).nextId o (((w.logExec e s r o).store e).takes s o)) = o1 at *
    refine hplaced.ends hfree hw1.off (fun hw => ?_) hact1 hland.rests (fun p hp => ?_) hends
    · rw [hfill.orderId] at hw
      obtain ⟨u, hm⟩ := hw
      rw [htr.stops e u] at hm
      cases r with
      | arg => exact (hsnd.self.unused (htk.arg rfl).ge).2.2 ⟨u, hm⟩
      | entry id =>
        obtain ⟨rfl, hin⟩ := htk.entry id rfl
        exact hm.elim ((hsnd.self.taken hin).2 u).1 ((hsnd.self.taken hin).2 u).2
    · have hterms : ({ o1 with price := p } : Order).terms =
        ({ o with price := p } : Order).terms := hfill.terms
      have hlook : ({ o1 with price := p } : Order).lookup =
        ({ o with price := p } : Order).lookup := Order.lookup_congr rfl hterms
      exact hlook.trans (hland.found p hp)
  · rw [hub] at hex
    cases hex

/-! ### Small steps -/

namespace Placed

variable {k : ℕ}

/-- Stops are collected: they are in hand instead. -/
theorem collect (h : Placed g hs) (s : Side) (hit : ℤ × List ℕ → Bool) :
    Placed (g.setStops s ((g.stops s).filter (fun l => !hit l)))
      ((Ladder.ids ((g.stops s).filter hit)).map (fun id => ⟨some s, id⟩) ++ hs) := by
  have hsplit : ∀ {j}, j ∈ Ladder.ids (g.stops s) ↔
      j ∈ Ladder.ids ((g.stops s).filter hit) ∨
        j ∈ Ladder.ids ((g.stops s).filter fun l => !hit l) := fun {j} => by
    rw [← (Ladder.ids_filter_perm hit (g.stops s)).mem_iff, List.mem_append]
  refine h.frame (fun {t p j} hat => by rwa [Store.book_setStops] at hat)
    (fun {j o'} ho' => ?_) fun {j} hw => ⟨?_, fun u hm => ?_⟩
  · rw [Store.odrMap_setStops] at ho'
    exact ⟨(h.active ho').imp id (List.mem_append_right _), o', ho', rfl, fun _ => rfl⟩
  · obtain ⟨u, hm | hm⟩ := hw
    · rw [Store.stops_setStops] at hm
      split_ifs at hm with hu
      · exact ⟨s, Or.inl (hsplit.mpr (Or.inr hm))⟩
      · exact ⟨u, Or.inl hm⟩
    · rcases List.mem_append.mp hm with hm | hm
      · obtain ⟨i, hi, he⟩ := List.mem_map.mp hm
        cases he
        exact ⟨s, Or.inl (hsplit.mpr (Or.inl hi))⟩
      · exact ⟨u, Or.inr hm⟩
  · rw [Store.stops_setStops]
    rcases hm with hm | hm
    · split_ifs with hu
      · subst hu
        exact (hsplit.mp hm).symm.imp id fun hm => List.mem_append_left _ (List.mem_map_of_mem hm)
      · exact Or.inl hm
    · exact Or.inr (List.mem_append_right _ hm)

/-- A collected order of one leg becomes a taker. -/
theorem take (h : Placed g (⟨some s, k⟩ :: hs)) (ho : g.odrMap.find? k = some o)
    (hoff : ∀ t, k ∉ (g.book t).ids) (halone : ∀ t, k ∉ (g.stops t).ids ∧ ⟨some t, k⟩ ∉ hs)
    (ht : o'.terms = o.terms) :
    Placed (g.withMap (g.odrMap.insert k o')) (⟨none, k⟩ :: hs) := by
  refine h.frame (fun {t p j} hat => by rwa [Store.book_withMap] at hat)
    (fun {j o1} ho1 => ?_) fun {j} hw => ?_
  · rw [Store.odrMap_withMap, OrdMap.find?_insert] at ho1
    split_ifs at ho1 with hj
    · obtain rfl := Option.some.inj ho1
      subst hj
      refine ⟨Or.inr List.mem_cons_self, o, ho, ht, fun ⟨t, hm⟩ => absurd hm ?_⟩
      rw [Store.book_withMap]
      exact hoff t
    · refine ⟨(h.active ho1).imp id fun hm => ?_, o1, ho1, rfl, fun _ => rfl⟩
      rcases List.mem_cons.mp hm with he | hm
      · cases he
      · exact List.mem_cons_of_mem _ hm
  · simp only [Store.Waiting, Store.stops_withMap, List.mem_cons, Held.mk.injEq, reduceCtorEq,
      false_and, false_or] at hw ⊢
    refine ⟨hw.imp fun u hm => hm.imp id Or.inr, fun u hm => hm.imp id fun hm => hm.resolve_left ?_⟩
    rintro ⟨he, rfl⟩
    obtain ⟨v, hm | hm⟩ := hw
    · exact (halone v).1 hm
    · exact (halone v).2 hm

/-- A new order waits on all its sides. -/
theorem register (h : Placed g hs) (hact : o.Active) (hnew : ∀ t, o.orderId ∉ (g.book t).ids)
    (hbook : ∀ t, g'.book t = g.book t)
    (hstops : ∀ s, g'.stops s = if s ∈ o.stopSides then (g.stops s).insert s.cmp
      (o.stopTrigger s) o.orderId else g.stops s)
    (hfind : ∀ j, g'.odrMap.find? j = if j = o.orderId then some o else g.odrMap.find? j) :
    Placed g' hs := by
  refine ⟨fun {j o'} ho' => ?_, fun {j o' s} ho' hw hside => ?_, fun {j o' t p} hat ho' => ?_⟩
  · rw [hfind] at ho'
    split_ifs at ho' with hj
    · obtain rfl := Option.some.inj ho'
      exact Or.inl hact
    · exact h.active ho'
  · rw [hfind] at ho'
    rw [hstops]
    split_ifs at ho' with hj
    · obtain rfl := Option.some.inj ho'
      rw [if_pos hside, hj]
      exact Or.inl (Ladder.mem_ids.mpr ⟨_, (Ladder.at_insert ..).mpr (Or.inl ⟨rfl, rfl⟩)⟩)
    · have hold : g.Waiting hs j := by
        obtain ⟨u, hm⟩ := hw
        refine ⟨u, hm.imp (fun hm => ?_) id⟩
        rw [hstops] at hm
        split_ifs at hm
        · obtain ⟨p, hat⟩ := Ladder.mem_ids.mp hm
          exact ((Ladder.at_insert ..).mp hat).elim
            (fun he => absurd he.2 hj) fun hat => hat.mem_ids
        · exact hm
      refine (h.sides ho' hold hside).imp (fun hm => ?_) id
      split_ifs
      · obtain ⟨p, hat⟩ := Ladder.mem_ids.mp hm
        exact Ladder.mem_ids.mpr ⟨p, (Ladder.at_insert ..).mpr (Or.inr hat)⟩
      · exact hm
  · rw [hbook] at hat
    have hj : j ≠ o.orderId := fun he => hnew t (he ▸ hat.mem_ids)
    rw [hfind, if_neg hj] at ho'
    exact h.found hat ho'

/-- The order in hand leaves the map. -/
theorem drop (h : Placed g (⟨none, k⟩ :: hs)) : Placed (g.withMap (g.odrMap.erase k)) hs := by
  refine h.frame (fun {t p j} hat => by rwa [Store.book_withMap] at hat)
    (fun {j o'} ho' => ?_) fun {j} hw => ⟨?_, fun u hm => ?_⟩
  · rw [Store.odrMap_withMap, OrdMap.find?_erase] at ho'
    split_ifs at ho' with hj
    refine ⟨(h.active ho').imp id fun hm => ?_, o', ho', rfl, fun _ => rfl⟩
    rcases List.mem_cons.mp hm with he | hm
    · cases he
      exact absurd rfl hj
    · exact hm
  · obtain ⟨u, hm⟩ := hw
    rw [Store.stops_withMap] at hm
    exact ⟨u, hm.imp id (List.mem_cons_of_mem _)⟩
  · rw [Store.stops_withMap]
    refine hm.imp id fun hm => ?_
    rcases List.mem_cons.mp hm with he | hm
    · cases he
    · exact hm

end Placed

theorem Step.placed {x y : World × List Held} (h : Step e q x y) (hT : T x.1.nextId q.terms)
    (hgood : ∀ z ∈ y.1.execs, z.Lands) (hx : Lone T e x) (hp : Placed (x.1.store e) x.2) :
    Placed (y.1.store e) y.2 := by
  have hsnd := hx.sound.stores
  cases h with
  | arg o => exact hp
  | bump => exact hp
  | reject =>
    rw [World.store_callback]
    exact hp
  | @taker w w' hs o s ho ht hex =>
    have hread : (w.bumpId.setArg o).readRef e .arg = .ok o := rfl
    have hpos := ho.whole
    have hstart : (w.bumpId.setArg o).SoundAt T w.nextId e hs := hsnd.congr fun _ => rfl
    have hland : Exec.Lands ⟨e, s, .arg, o, w.engines e⟩ := hgood _ (by
      rw [execute_logged hex hread]
      exact List.mem_append_right _ (List.mem_singleton_self _))
    have hput : Placed ((w.bumpId.setArg o).store e) hs := hp
    have hi : ∀ t, ((w.bumpId.setArg o).conf e).impliers t = [] := hx.alone
    exact execute_placed (r := .arg) hput hstart (OffBook.arg _ _) hi hread (by omega)
      (Or.inl ho.opened) (ho.takerOk ht hT) hex hland
  | @fire w w' hs o s id ho hex =>
    have hfi := hx.sound.fires ho hex fun z hz _ => (hgood z hz).oneLeg
    obtain ⟨t, hw⟩ := hfi.waits
    have hi : ∀ t,
        ((w.putOrder e id { o with price := o.stopLimit s }).conf e).impliers t = [] := fun t => by
      rw [← hx.alone t]
      exact congrArg (Config.impliers · t) (World.conf_writeRef w e e (.entry id) _)
    have hland : Exec.Lands ⟨e, s, .entry id, { o with price := o.stopLimit s },
        (w.putOrder e id { o with price := o.stopLimit s }).engines e⟩ := hgood _ (by
      rw [execute_logged hex hfi.read]
      exact List.mem_append_right _ (List.mem_singleton_self _))
    have hput : Placed ((w.putOrder e id { o with price := o.stopLimit s }).store e)
        (⟨none, id⟩ :: hs) := by
      rw [World.putOrder_eq, World.store_upd, if_pos rfl]
      exact hp.take ho hfi.off (fun t => ((hsnd.self.alone ho hfi.oneLeg).1 t).2) rfl
    exact execute_placed (r := .entry id) hput hfi.stores hfi.offBook hi hfi.read hfi.remain
      (Or.inl hw.opened) hfi.taker hex hland
  | @collect w hs s hit =>
    rw [World.setStops_eq, World.store_upd, if_pos rfl]
    exact hp.collect s hit
  | @register w hs o ho hpr hne hl =>
    obtain ⟨hnone, hnew, _⟩ := hsnd.self.unused (show w.nextId ≤ o.orderId from ho.orderId.ge)
    have hreg := World.registered (w := w.bumpId.setArg o) e hnone rfl o.stopSides o.stopSides_nodup
    rw [World.store_callback]
    refine hp.register (Or.inl ho.opened) hnew hreg.book hreg.stops fun j => ?_
    rw [hreg.find]
    simp only [hne, ne_eq, not_false_eq_true, and_true]
    rfl
  | @drop w hs id =>
    rw [World.eraseOrder_eq, World.store_upd, if_pos rfl]
    exact hp.drop

/-- An order that was reported as taken out is in hand; the others are as they were. -/
theorem Placed.taken_out {P : ℕ → Prop} {k j : ℕ} {a : OrderAction} {st : OrderStatus}
    (h : Placed g []) (ho : g.odrMap.find? k = some o)
    (ho' : (if j = k then some { o with orderAction := a, orderState := st }
      else g.odrMap.find? j) = some o') :
    (o'.Active ∨ (⟨none, j⟩ : Held) ∈ [⟨none, k⟩]) ∧
      ∃ o, g.odrMap.find? j = some o ∧ o'.terms = o.terms ∧ (P j → o'.price = o.price) := by
  split_ifs at ho' with hj
  · obtain rfl := Option.some.inj ho'
    exact ⟨Or.inr (by rw [hj]; exact List.mem_singleton_self _), o, hj ▸ ho, rfl, fun _ => rfl⟩
  · exact ⟨Or.inl ((h.active ho').resolve_right (by simp)), o', ho', rfl, fun _ => rfl⟩

/-- The order a request names is amended in place, or reported and taken out. -/
theorem Opening.placed {y : World × List Held} (h : Opening e q w y)
    (hsnd : StoreOk T (w.store e) w.nextId []) (hy : Sound T e y) (hp : Placed (w.store e) []) :
    Placed (y.1.store e) y.2 := by
  cases h with
  | same => exact hp
  | refused =>
    rw [World.store_callback]
    exact hp
  | @amended o a hfo hc hpos =>
    rw [World.store_callback, World.putOrder_eq, World.store_upd, if_pos rfl]
    refine hp.frame_stops (fun {t p j} hat => by rwa [Store.book_withMap] at hat)
      (fun s => Store.stops_withMap ..) fun {j o'} ho' => ?_
    rw [Store.odrMap_withMap, OrdMap.find?_insert] at ho'
    split_ifs at ho' with hj
    · obtain rfl := Option.some.inj ho'
      subst hj
      refine ⟨(hp.active hfo).imp id fun hm => hm, o, hfo, rfl, fun _ => rfl⟩
    · exact ⟨hp.active ho', o', ho', rfl, fun _ => rfl⟩
  | @unbooked o a st u is hfo hst hl hlev =>
    rw [World.setBook_eq, World.store_upd, if_pos rfl]
    refine hp.frame (fun {t p j} hat => ?_) (fun {j o'} ho' => ?_) fun {j} hw =>
      ⟨?_, fun s hm => ?_⟩
    · rw [Store.book_setBook, World.book_ackCancel] at hat
      split_ifs at hat with ht
      · rw [ht]
        exact ((Ladder.at_eraseAt (hsnd.books.wf u)).mp hat).1
      · exact hat
    · rw [Store.odrMap_setBook, World.find_ackCancel] at ho'
      exact hp.taken_out (P := fun _ => _) hfo ho'
    · obtain ⟨s, hm | hm⟩ := hw
      · rw [Store.stops_setBook, World.stops_ackCancel] at hm
        exact ⟨s, Or.inl hm⟩
      · cases List.mem_singleton.mp hm
    · rw [Store.stops_setBook, World.stops_ackCancel]
      exact hm.imp id fun hm => by cases hm
  | @unstopped o a st ss hfo hst hl hlev =>
    have hdrop :=
      World.dropped e o ss (w.ackCancel e q.orderId { o with orderAction := a } st)
        (Order.lookup_nodup hl)
    have hid : o.orderId = q.orderId := (hsnd.key hfo).1
    refine hp.frame (fun {t p j} hat => ?_) (fun {j o'} ho' => ?_) fun {j} hw =>
      ⟨?_, fun s hm => ?_⟩
    · rwa [hdrop.book, World.book_ackCancel] at hat
    · rw [hdrop.find, World.find_ackCancel] at ho'
      exact hp.taken_out (P := fun _ => _) hfo ho'
    · obtain ⟨s, hm | hm⟩ := hw
      · rw [hdrop.stops, World.stops_ackCancel] at hm
        split_ifs at hm
        · obtain ⟨p, hat⟩ := Ladder.mem_ids.mp hm
          exact ⟨s, Or.inl ((Ladder.at_eraseAt (hsnd.stopsWf s)).mp hat).1.mem_ids⟩
        · exact ⟨s, Or.inl hm⟩
      · cases List.mem_singleton.mp hm
    · have hne : j ≠ o.orderId := fun he => by
        obtain rfl : j = q.orderId := he.trans hid
        obtain ⟨u, hmu⟩ := hw
        have hout := (hy.stores.self.taken List.mem_cons_self).2 u
        exact hmu.elim hout.1 hout.2
      refine Or.inl ?_
      rw [hdrop.stops, World.stops_ackCancel]
      rcases hm with hm | hm
      · split_ifs
        · obtain ⟨p, hat⟩ := Ladder.mem_ids.mp hm
          exact ((Ladder.at_eraseAt (hsnd.stopsWf s)).mpr ⟨hat, fun hc => hne hc.2⟩).mem_ids
        · exact hm
      · cases hm

end Matching
