import Matching.Engine.Auction
import Matching.Engine.Quiet
import Matching.Engine.Reference
import Matching.Lib.Choose

/-! Requests that make no waiting stop a taker. Whether a stop comes due is read off the
    store before the request: an auction order that is not filled leaves the first order
    beyond its limit at the front (`Store.SleepsThroughTaker`), and a cancellation looks for
    stops only where it empties the first level (`Store.SleepsThroughCancel`). There the
    stop triggers change nothing. -/

namespace Matching

namespace Store

variable (g : Store) (s : Side) (o : Order)

/-- The first order of the queue that is beyond the limit of the taker `o`. -/
def firstBeyond : Option Order := ((g.queue s).dropWhile fun m => Accepts s o m.price).head?

/-- The auction order `o` leaves no stop due: it is filled, so that no trigger runs, or neither the
    first price of its own side nor the first one beyond its limit has reached a stop. -/
def SleepsThroughTaker : Prop :=
  g.leftover s o = 0 ∨
    (g.Quiet s.opp ∧ ∀ m ∈ g.firstBeyond s o, ∀ l ∈ g.stops s, s.reached m.price l.1 = false)

instance : Decidable (g.SleepsThroughTaker s o) := inferInstanceAs (Decidable (_ ∨ _))

/-- The order `o` is the only one of the first level. -/
def TopsAlone : Prop := ∃ l ∈ (g.book s).head?, l.2.length = 1 ∧ o.price = l.1

instance : Decidable (g.TopsAlone s o) :=
  decidable_of_iff ((g.book s).head?.any fun l => l.2.length = 1 ∧ o.price = l.1)
    (by simp [TopsAlone, Option.any_eq_true])

/-- The store without the entry of the resting order `o`. -/
def unbooked : Store := g.setBook s ((g.book s).eraseAt o.price o.orderId)

/-- The cancellation of `o` leaves no stop due: it does not rest, or not alone at the top, or the
    next price has reached none. -/
def SleepsThroughCancel : Prop :=
  ∀ t, o.lookup = .inl t → g.TopsAlone t o → (g.unbooked t o).Quiet t

end Store

/-- The store without the entries of the waiting order `o`. -/
def Store.unstopped (g : Store) (o : Order) : List Side → Store
  | [] => g
  | s :: ss => (g.setStops s ((g.stops s).eraseAt (o.stopTrigger s) o.orderId)).unstopped o ss

/-- The store without the order `o`, which is under the id `id`. -/
def Store.withdrawn (g : Store) (id : ℕ) (o : Order) : Store :=
  (match o.lookup with
    | .inl t => g.unbooked t o
    | .inr ss => g.unstopped o ss).withMap (g.odrMap.erase id)

/-- No stop waits, or the price books are in order and `P` says that none comes due. -/
def World.Sleeps (w : World) (e : ℕ) (P : Prop) : Prop :=
  (∀ t, (w.store e).stops t = []) ∨ (w.Ok ∧ P)

variable {w w' v : World} {e : ℕ} {s t : Side} {o q m : Order}

/-! ### Triggers that find nothing -/

theorem triggerStop_asleep (hi : (w.conf e).impliers s = [])
    (hq : (w.store e).stops s = [] ∨ (w.Ok ∧ (w.store e).Quiet s))
    (h : triggerStop w e s = .ok w') : w' = w := by
  rcases hq with hnil | ⟨hok, hq⟩
  · rw [triggerStop_nil hnil] at h
    obtain ⟨_, _, h⟩ := bind_ok.mp h
    exact (pure_ok.mp h).symm
  · simp only [triggerStop, triggerLoop, bind_ok] at h
    obtain ⟨best, hbest, v, hv, h⟩ := h
    -- nothing is reached at the best price
    have hhit : ∀ l ∈ (w.store e).stops s,
        (best ≠ marketPrice && s.reached best l.1) = false := fun l hl => by
      rcases bestPrice_first hok hi hbest with ⟨_, rfl⟩ | ⟨hfirst, _⟩
      · simp
      · rw [hq best hfirst l hl, Bool.and_false]
    have hcol : collectStops w e s best = (w, []) := by
      have hkeep : ((w.store e).stops s).filter
          (fun l => !(best ≠ marketPrice && s.reached best l.1)) = (w.store e).stops s :=
        List.filter_eq_self.mpr fun l hl => by rw [hhit l hl]; rfl
      have hnone : ((w.store e).stops s).filter
          (fun l => best ≠ marketPrice && s.reached best l.1) = [] :=
        List.filter_eq_nil_iff.mpr fun l hl => by rw [hhit l hl]; exact Bool.false_ne_true
      simp only [collectStops, World.stops, hkeep, hnone, Ladder.ids_nil, w.setStops_self e s]
    rw [hcol] at hv h
    obtain rfl := Except.ok.inj hv
    exact (pure_ok.mp h).symm

/-! ### What an auction order leaves -/

/-- A taker for whom a queue is not enough trades with all of it, and fills all of it. -/
theorem trades_all :
    ∀ (n : ℕ) (o : Order) (ms : List Order), (ms.map Order.remainQuantity).sum < o.remainQuantity →
    (trades n o ms).map Trade.maker = ms ∧ ∀ t ∈ trades n o ms, t.makerAfter.remainQuantity = 0
  | _, _, [], _ => ⟨rfl, fun _ ht => nomatch ht⟩
  | n, o, m :: ms, h => by
    rw [List.map_cons, List.sum_cons] at h
    have hmin : min m.remainQuantity o.remainQuantity = m.remainQuantity := min_eq_left (by omega)
    rw [trades_cons n m ms (by omega), hmin]
    set t : Trade := ⟨m, o, m.remainQuantity, n⟩ with ht
    have hrest : t.takerAfter.remainQuantity = o.remainQuantity - m.remainQuantity := by
      rw [Trade.takerAfter, engineMatch_remainQuantity,
        subU64_of_le (by show m.remainQuantity ≤ o.remainQuantity; omega)]
    obtain ⟨hmakers, hfull⟩ := trades_all (n + 1) t.takerAfter ms (by omega)
    refine ⟨by rw [List.map_cons, hmakers], fun u hu => ?_⟩
    rcases List.mem_cons.mp hu with rfl | hu
    · rw [Trade.makerAfter, engineMakerMatch_remainQuantity, subU64_of_le le_rfl, Nat.sub_self]
    · exact hfull u hu

theorem Store.at_of_queue {g : Store} (h : BooksOk g) (hm : m ∈ g.queue s) :
    (g.book s).At m.price m.orderId := by
  obtain ⟨id, hid, hfind⟩ := Store.mem_queue.mp hm
  obtain ⟨p, hat⟩ := Ladder.mem_ids.mp hid
  rwa [(h.restsAt hat hfind).price, (h.restsAt hat hfind).orderId]

/-- A taker that is not filled leaves the first order beyond its limit in front, or nothing. -/
theorem Traded.front_beyond {w1 : World} (hok : w.Ok) (hw1 : Ready w1 e s .arg)
    (htr : Traded w e s .arg o (trades w.nextId o ((w.store e).eligible s o)) w1)
    (hleft : (w.store e).leftover s o ≠ 0) {p : ℤ} (hp : p ∈ (w1.store e).firstPrice s) :
    ∃ m ∈ (w.store e).firstBeyond s o, s.cmp m.price p = false := by
  have hlt : (((w.store e).eligible s o).map Order.remainQuantity).sum < o.remainQuantity := by
    rw [Store.leftover] at hleft
    omega
  obtain ⟨hmakers, hfull⟩ := trades_all w.nextId o _ hlt
  set T := trades w.nextId o ((w.store e).eligible s o) with hT
  have hgone : ∀ {id : ℕ}, id ∈ filledMakers T ↔
      ∃ x ∈ (w.store e).eligible s o, x.orderId = id := by
    intro id
    rw [filledMakers, List.filter_eq_self.mpr fun t ht => by simpa using hfull t ht]
    conv_rhs => rw [← hmakers]
    simp
  -- the front order was in the queue, and no trade was with it
  obtain ⟨f, hf⟩ : ∃ f, Front w1 e s f := by
    rcases hw1.fronts.src (e, s) List.mem_cons_self with hnil | hf
    · rw [Store.firstPrice, hnil] at hp
      cases hp
    · exact hf
  obtain ⟨is, b, hb⟩ := hf.book
  obtain rfl : f.price = p := by
    rw [Store.firstPrice, hb] at hp
    exact Option.some.inj hp
  have hat : ((w.store e).book s).At f.price f.orderId ∧ f.orderId ∉ filledMakers T := by
    rw [← Ladder.at_without, ← htr.book]
    exact hf.at_book
  have hfind : (w.store e).odrMap.find? f.orderId = some f := by
    have hafter := htr.find f.orderId (fun hc => by cases hc)
    rw [hf.find, List.find?_eq_none.mpr fun t ht he =>
      hat.2 (hgone.mpr ⟨t.maker, ?_, by simpa using he⟩)] at hafter
    · exact hafter.symm
    · rw [← hmakers]
      exact List.mem_map_of_mem ht
  have hqueue : f ∈ (w.store e).queue s := Store.mem_queue.mpr ⟨f.orderId, hat.1.mem_ids, hfind⟩
  have hsplit : (w.store e).eligible s o ++ ((w.store e).queue s).dropWhile
      (fun m => Accepts s o m.price) = (w.store e).queue s :=
    List.takeWhile_append_dropWhile
  rw [← hsplit] at hqueue
  have hbeyond :=
    (List.mem_append.mp hqueue).resolve_left fun hel => hat.2 (hgone.mpr ⟨f, hel, rfl⟩)
  obtain ⟨m, ms, hm⟩ := List.exists_cons_of_ne_nil (List.ne_nil_of_mem hbeyond)
  refine ⟨m, by rw [Store.firstBeyond, hm]; rfl, ?_⟩
  -- the first order beyond the limit is still there, so the front is no worse
  have hsorted := Store.queue_sorted (hok e) s
  rw [← hsplit, hm, List.pairwise_append] at hsorted
  have hmq : m ∈ (w.store e).queue s := by
    rw [← hsplit, hm]
    simp
  have hatm := Store.at_of_queue (hok e) hmq
  have hstays : ((w1.store e).book s).At m.price m.orderId := by
    rw [htr.book, Ladder.at_without]
    refine ⟨hatm, fun hin => ?_⟩
    obtain ⟨x, hx, hxid⟩ := hgone.mp hin
    rcases hsorted.2.2 x hx m List.mem_cons_self with hlt | ⟨_, hlt⟩
    · have hatx := Store.at_of_queue (hok e) ((List.takeWhile_sublist _).subset hx)
      rw [hxid] at hatx
      have hself : s.cmp m.price m.price = true := (hok e).price_unique hatx hatm ▸ hlt
      exact absurd (hself.symm.trans (StrictLt.irrefl _)) (by decide)
    · omega
  rw [hb] at hstays
  have hwf := (hw1.ok e).wf s
  rw [hb] at hwf
  rcases (Ladder.at_cons ..).mp hstays with ⟨heq, _⟩ | hin
  · rw [show f.price = m.price from heq]
    exact StrictLt.irrefl _
  · exact StrictLt.asymm (hwf.lt_of_at hin)

/-- What the execution of an auction order does: its trades with the eligible orders and, if they
    leave something of it, its cancellation. -/
structure Auctioned (w : World) (e : ℕ) (s : Side) (w' : World) : Prop where
  kept : ∃ o : Order, Filled w.arg o ∧ o.remainQuantity = (w.store e).leftover s w.arg ∧
    w'.arg = { o with orderState := w'.arg.orderState }
  emits : Emits w w' (tradeReports e (trades w.nextId w.arg ((w.store e).eligible s w.arg)) ++
    if (w.store e).leftover s w.arg = 0 then [] else [(e, w'.arg)])
  ends : (w.store e).leftover s w.arg ≠ 0 → w'.arg.orderState.EndsAuction ∧
    w'.arg =
      { afterTrades w.arg (trades w.nextId w.arg ((w.store e).eligible s w.arg)) with
        orderState := w'.arg.orderState }
  ok : w'.Ok
  conf : ∀ l, w'.conf l = w.conf l
  quiet : (w.store e).leftover s w.arg ≠ 0 → (w.store e).SleepsThroughTaker s w.arg →
    ∀ t, (w'.store e).Quiet t

theorem execute_auctioned (hok : w.Ok) (hi : ∀ t, (w.conf e).impliers t = [])
    (htc : w.arg.timeCondition = .auction) (h0 : w.arg.remainQuantity ≠ 0)
    (h : execute w e s .arg = .ok w') : Auctioned w e s w' := by
  have hlegs : LegsApart w e s := ⟨by simp [Config.legs, hi s], by simp [Config.legs, hi s]⟩
  have hread : w.readRef e .arg = .ok w.arg := rfl
  have hm : ¬w.arg.MakerOnly := by simp [Order.MakerOnly, htc]
  obtain ⟨y, hy, w1, hw1, htr, hends⟩ : ∃ y, execute w e s .arg = .ok y ∧
      Executed (w.logExec e s .arg w.arg) e s .arg w.arg y := by
    rcases execute_reference ⟨hok, OffBook.arg _ _, hlegs⟩ hi hread h0 with hex | ⟨hub, _⟩
    · exact hex
    · rw [hub] at h
      cases h
  obtain rfl := Except.ok.inj (h.symm.trans hy)
  have hplan : (w.store e).plan s w.nextId w.arg =
      trades w.nextId w.arg ((w.store e).eligible s w.arg) :=
    Store.plan_of_takes hm fun hf => by rw [htc] at hf; cases hf
  rw [World.store_logExec, World.nextId_logExec, hplan] at htr hends
  set T := trades w.nextId w.arg ((w.store e).eligible s w.arg) with hT
  have hrem : (afterTrades w.arg T).remainQuantity = (w.store e).leftover s w.arg :=
    Store.remain_afterTrades_eligible ..
  have hfilled : Filled w.arg (afterTrades w.arg T) := filled_afterTrades ..
  have hem : Emits w w1 (tradeReports e T) := (Emits.logExec w e s .arg w.arg).trans htr.emits
  rw [Store.fate_of_takes hm] at hends
  -- filled, or cancelled with what is left; only then do the triggers run
  by_cases hleft : (w.store e).leftover s w.arg = 0
  · rw [if_pos hleft] at hends
    cases hends
    have harg : w'.arg = afterTrades w.arg T := Except.ok.inj htr.taker
    exact ⟨⟨_, hfilled, hrem, by rw [harg]⟩, by rw [if_pos hleft, List.append_nil]; exact hem,
      fun hne => absurd hleft hne, hw1.ok, htr.conf, fun hne => absurd hleft hne⟩
  · rw [if_neg hleft] at hends
    simp only [Store.residualFate, htc] at hends
    generalize hst :
      (if w.arg.quantity = (w.store e).leftover s w.arg then OrderStatus.canceledAllByAuction
      else .canceledPartialByAuction) = st at hends
    have hsame : { afterTrades w.arg T with price := w.arg.price, orderState := st } =
        { afterTrades w.arg T with orderState := st } := by
      rw [hfilled.eq]
    obtain rfl : w1.kill e .arg { afterTrades w.arg T with orderState := st } = w' := by
      rw [← hsame]
      cases hends
      rfl
    have harg : (w1.kill e .arg { afterTrades w.arg T with orderState := st }).arg =
        { afterTrades w.arg T with orderState := st } :=
      World.arg_callback ..
    refine ⟨⟨_, hfilled, hrem, by rw [harg]⟩, ?_, fun _ => ⟨?_, by rw [harg]⟩,
      World.ok_kill hw1.ok hw1.off, fun l => by rw [World.conf_kill, htr.conf, World.conf_logExec],
      fun _ hsleep t => ?_⟩
    · rw [if_neg hleft, harg]
      exact hem.trans (Emits.kill ..)
    · rw [harg, ← hst]
      split_ifs
      · exact Or.inl rfl
      · exact Or.inr rfl
    · obtain ⟨hopp, hown⟩ := hsleep.resolve_left hleft
      have hstops : ((w1.kill e .arg { afterTrades w.arg T with orderState := st }).store e).stops
          t = (w.store e).stops t := by
        rw [World.stops_kill, htr.stops]
        rfl
      rcases eq_or_ne t s with rfl | hne
      · intro p hp l hl
        rw [Store.firstPrice, World.book_kill] at hp
        obtain ⟨m, hm, hle⟩ :=
          Traded.front_beyond (w := w.logExec e t .arg w.arg) hok hw1 htr hleft hp
        rw [hstops] at hl
        exact Side.reached_of_better hle (hown m hm l hl)
      · obtain rfl := Side.eq_opp_of_ne hne
        refine hopp.congr ?_ hstops
        rw [World.book_kill, htr.bookOther e s.opp fun he => Side.opp_ne s (congrArg Prod.snd he)]
        rfl

/-- The execution of an auction order that leaves no stop due runs no trigger that finds one. -/
theorem executeArg_asleep (hi : ∀ t, (w.conf e).impliers t = [])
    (htc : w.arg.timeCondition = .auction) (h0 : w.arg.remainQuantity ≠ 0)
    (hsleep : w.Sleeps e ((w.store e).SleepsThroughTaker s w.arg)) (h : executeArg w e s = .ok w') :
    execute w e s .arg = .ok w' := by
  obtain ⟨y, hy, h⟩ := bind_ok.mp h
  obtain ⟨_, _, hkeeps⟩ := Keeps.execute hy
  have hyi : ∀ t, (y.conf e).impliers t = [] := fun t => by
    rw [hkeeps.conf]
    exact hi t
  suffices hstill : 0 < y.arg.remainQuantity → ∀ t, (y.store e).stops t = [] ∨
      (y.Ok ∧ (y.store e).Quiet t) by
    split at h
    · rename_i hpos
      obtain ⟨u, hu, hlast⟩ := bind_ok.mp h
      obtain rfl := triggerStop_asleep (hyi _) (hstill hpos _) hu
      obtain rfl := triggerStop_asleep (hyi _) (hstill hpos _) hlast
      exact hy
    · obtain rfl := pure_ok.mp h
      exact hy
  intro hpos t
  rcases hsleep with hnil | ⟨hok, hsleep⟩
  · exact Or.inl ((execute_stops hy e t).trans (hnil t))
  · have hauc := execute_auctioned hok hi htc h0 hy
    obtain ⟨o, _, hrem, harg⟩ := hauc.kept
    refine Or.inr ⟨hauc.ok, hauc.quiet ?_ hsleep t⟩
    rw [harg] at hpos
    rw [← hrem]
    exact hpos.ne'

/-! ### Cancellations -/

theorem World.ok_unbooked (hok : w.Ok) :
    (w.setBook e t (((w.store e).book t).eraseAt o.price o.orderId)).Ok := fun l => by
  rw [World.setBook_eq, World.store_upd]
  split_ifs with hl
  · subst hl
    exact (hok l).unlist (s := t) (fun u => by rw [Store.book_setBook]) fun j => by
      rw [Store.odrMap_setBook]
  · exact hok l

theorem World.store_dropStops (e : ℕ) (o : Order) : ∀ (ss : List Side) (w : World),
    (w.dropStops e o ss).store e = (w.store e).unstopped o ss
  | [], _ => rfl
  | s :: ss, w => by
    have ih :=
      World.store_dropStops e o ss
        (w.setStops e s ((w.stops e s).eraseAt (o.stopTrigger s) o.orderId))
    rw [World.setStops_eq, World.store_upd, if_pos rfl] at ih
    exact ih

/-- A cancellation takes the order out, and makes no stop a taker where it leaves none due. -/
theorem unlist_asleep (id : ℕ) (hi : ∀ t, (w.conf e).impliers t = [])
    (hsleep : w.Sleeps e ((w.store e).SleepsThroughCancel o)) (h : unlist w e o = .ok v) :
    Emits w v [] ∧ v.arg = w.arg ∧ v.nextId = w.nextId ∧ (∀ l, v.conf l = w.conf l) ∧
      (v.store e).withMap ((v.store e).odrMap.erase id) = (w.store e).withdrawn id o ∧ ∀ l, l ≠ e →
        v.store l = w.store l := by
  rw [unlist_eq] at h
  rcases hl : o.lookup with t | ss
  · simp only [hl, unrest, bind_ok] at h
    obtain ⟨b, hb, h⟩ := h
    obtain ⟨-, rfl⟩ := eraseFound_ok hb
    set u := w.setBook e t (((w.store e).book t).eraseAt o.price o.orderId) with hu
    have hself : u.store e = (w.store e).unbooked t o := by
      rw [hu, World.setBook_eq, World.store_upd, if_pos rfl]
      rfl
    obtain rfl : u = v := by
      change (if _ then triggerStop u e t else pure u) = _ at h
      split_ifs at h with htop
      · refine (triggerStop_asleep ?_ ?_ h).symm
        · rw [hu, World.setBook_eq, World.conf_upd]
          exact hi t
        rcases hsleep with hnil | ⟨hok, hsleep⟩
        · left
          rw [hself, Store.unbooked, Store.stops_setBook, hnil]
        · refine Or.inr ⟨World.ok_unbooked hok, hself ▸ hsleep t hl ?_⟩
          rcases hbk : (w.store e).book t with _ | ⟨x, b⟩
          · simp [World.book, hbk] at htop
          · exact ⟨x, by rw [hbk]; rfl, by simpa [World.book, hbk] using htop⟩
      · exact pure_ok.mp h
    refine ⟨Emits.upd .., rfl, rfl, fun l => World.conf_upd .., ?_,
      fun l hne => World.store_upd_ne hne⟩
    rw [hself]
    simp only [Store.withdrawn, hl]
    cases t <;> rfl
  · simp only [hl] at h
    obtain ⟨-, rfl⟩ := unstops_ok ss (Order.lookup_nodup hl) h
    have hdrop := World.dropped e o ss w (Order.lookup_nodup hl)
    refine ⟨Emits.dropStops .., World.arg_dropStops .., hdrop.nextId, ?_, ?_, hdrop.other⟩
    · exact (Calm.dropStops o e ss w).conf
    · have hmap : ((w.dropStops e o ss).store e).odrMap = (w.store e).odrMap :=
        OrdMap.ext_find hdrop.find
      simp only [hmap, Store.withdrawn, hl]
      rw [World.store_dropStops]

/-- What `handle_cancel` does with an order it finds: one report of it, in the given
    state, and it is gone. -/
structure TakenOut (w : World) (e id : ℕ) (o c : Order) (w' : World) : Prop where
  emits : Emits w w' [(e, c)]
  arg : w'.arg = w.arg
  nextId : w'.nextId = w.nextId
  conf : ∀ l, w'.conf l = w.conf l
  self : w'.store e = (w.store e).withdrawn id o
  other : ∀ l, l ≠ e → w'.store l = w.store l

theorem Store.book_unstopped (t : Side) :
    ∀ (ss : List Side) (g : Store), (g.unstopped o ss).book t = g.book t
  | [], _ => rfl
  | _ :: ss, _ => (Store.book_unstopped t ss _).trans (Store.book_setStops ..)

theorem Store.unstopped_withMap (o : Order) (n : OrdMap ℕ Order) : ∀ (ss : List Side) (g : Store),
    (g.withMap n).unstopped o ss = (g.unstopped o ss).withMap n
  | [], _ => rfl
  | s :: ss, g => by
    rw [Store.unstopped, Store.unstopped, ← Store.unstopped_withMap o n ss]
    cases s <;> rfl

theorem Store.unstopped_congr {o' : Order} (hid : o'.orderId = o.orderId)
    (ht : ∀ t, o'.stopTrigger t = o.stopTrigger t) :
    ∀ (ss : List Side) (g : Store), g.unstopped o' ss = g.unstopped o ss
  | [], _ => rfl
  | s :: ss, g => by rw [Store.unstopped, Store.unstopped, hid, ht, Store.unstopped_congr hid ht ss]

/-- The mark of a cancellation does not matter. -/
theorem Store.withdrawn_marked (g : Store) (id : ℕ) (a : OrderAction) (st : OrderStatus) :
    g.withdrawn id { o with orderAction := a, orderState := st } = g.withdrawn id o := by
  have hlook : ({ o with orderAction := a, orderState := st } : Order).lookup = o.lookup := rfl
  have hsame : ({ o with orderAction := a, orderState := st } : Order).orderId = o.orderId := rfl
  have htrigger : ∀ t, ({ o with orderAction := a, orderState := st } : Order).stopTrigger t =
    o.stopTrigger t := fun t => by cases t <;> rfl
  rcases hl : o.lookup with t | ss
  · simp only [Store.withdrawn, hlook, hl]
    rfl
  · simp only [Store.withdrawn, hlook, hl, Store.unstopped_congr hsame htrigger ss g]

/-- What the map has under the id does not matter. -/
theorem Store.withdrawn_withMap {g : Store} {n : OrdMap ℕ Order} {id : ℕ}
    (hn : n.erase id = g.odrMap.erase id) :
    (g.withMap n).withdrawn id o = g.withdrawn id o := by
  rcases hl : o.lookup with t | ss
  · simp only [Store.withdrawn, hl, Store.odrMap_withMap, hn]
    cases t <;> rfl
  · simp only [Store.withdrawn, hl, Store.odrMap_withMap, hn, Store.unstopped_withMap]
    rfl

/-- The books stay in order. -/
theorem BooksOk.withdrawn {g : Store} {id : ℕ} (h : BooksOk g) : BooksOk (g.withdrawn id o) := by
  have hbook : ∀ t, ((g.withdrawn id o).book t).WF t.cmp ∧
      ∀ {p j}, ((g.withdrawn id o).book t).At p j → (g.book t).At p j := by
    intro t
    rcases hl : o.lookup with u | ss
    · simp only [Store.withdrawn, hl, Store.book_withMap, Store.unbooked, Store.book_setBook]
      split_ifs with ht
      · subst ht
        exact ⟨Ladder.wf_eraseAt _ _ (h.wf _), fun hat => ((Ladder.at_eraseAt (h.wf _)).mp hat).1⟩
      · exact ⟨h.wf t, fun hat => hat⟩
    · simp only [Store.withdrawn, hl, Store.book_withMap, Store.book_unstopped]
      exact ⟨h.wf t, fun hat => hat⟩
  refine h.shrink (fun t => (hbook t).1) (fun hat => (hbook _).2 hat) fun {t p j x} _ hx => ?_
  rw [Store.withdrawn, Store.odrMap_withMap, OrdMap.find?_erase] at hx
  split_ifs at hx
  exact hx

theorem TakenOut.ok {id : ℕ} {c : Order} (h : TakenOut w e id o c w') (hok : w.Ok) :
    w'.Ok := fun l => by
  rcases eq_or_ne l e with rfl | hne
  · rw [h.self]
    exact (hok l).withdrawn
  · rw [h.other l hne]
    exact hok l

theorem handleCancel_asleep {b : Bool} {st : OrderStatus} (a : OrderAction) (hq : w.arg = q)
    (hi : ∀ t, (w.conf e).impliers t = []) (hst : cancelState q.orderAction = some st)
    (hf : (w.store e).odrMap.find? q.orderId = some o)
    (hsleep : w.Sleeps e ((w.store e).SleepsThroughCancel o))
    (h : handleCancel (w.putOrder e q.orderId { o with orderAction := a }) e = .ok (w', b)) :
    b = true ∧ TakenOut w e q.orderId o { o with orderAction := a, orderState := st } w' := by
  set o' : Order := { o with orderAction := a } with ho'
  set x := w.putOrder e q.orderId o' with hxw
  have hxarg : x.arg = q := hq
  have hfx : x.order? e x.arg.orderId = some o' := by
    rw [World.order?, hxarg, hxw, World.putOrder_eq, World.store_upd, if_pos rfl,
      Store.odrMap_withMap, OrdMap.find?_insert, if_pos rfl]
  have hack : x.ackCancel e x.arg.orderId o' st = w.ackCancel e q.orderId o' st := by
    rw [hxarg, World.ackCancel, World.ackCancel, hxw, World.putOrder_putOrder]
  rw [handleCancel_unlist hfx (by rw [hxarg]; exact hst), hack] at h
  obtain ⟨u, hu, h⟩ := bind_ok.mp h
  obtain ⟨rfl, rfl⟩ := Prod.mk.inj (pure_ok.mp h)
  rw [hxarg]
  set y := w.ackCancel e q.orderId o' st with hy
  have hem : Emits w y [(e, { o' with orderState := st })] := Emits.ackCancel ..
  have hyarg : y.arg = w.arg := World.arg_callback ..
  have hconf : ∀ l, y.conf l = w.conf l := (Calm.ackCancel ..).conf
  have hbook : ∀ t, (y.store e).book t = (w.store e).book t := World.book_ackCancel w e _ _ _
  have hstops : ∀ t, (y.store e).stops t = (w.store e).stops t := World.stops_ackCancel w e _ _ _
  have hsleep' : y.Sleeps e ((y.store e).SleepsThroughCancel { o' with orderState := st }) := by
    rcases hsleep with hnil | ⟨hok, hsleep⟩
    · exact Or.inl fun t => (hstops t).trans (hnil t)
    · refine Or.inr ⟨?_, fun t hl htop => ?_⟩
      · intro l
        rcases eq_or_ne l e with rfl | hne
        · refine (hok l).touch hbook (World.find_ackCancel w l _ _ _) fun t p hat => ?_
          have hrest := (hok l).restsAt hat hf
          exact ⟨hrest.orderId, hrest.price, hrest.remain, hrest.limit⟩
        · rw [hy, World.store_ackCancel_ne hne]
          exact hok l
      · have hquiet := hsleep t hl (by rwa [Store.TopsAlone, hbook] at htop)
        refine hquiet.congr ?_ ?_
        · simp only [Store.unbooked, Store.book_setBook, hbook]
          rfl
        · simp only [Store.unbooked, Store.stops_setBook, hstops]
  obtain ⟨hem', harg, hnext, hconf', hself, hother⟩ :=
    unlist_asleep q.orderId (fun t => by rw [hconf]; exact hi t) hsleep' hu
  have hgone : Emits u (u.eraseOrder e q.orderId) [] := Emits.upd ..
  refine ⟨rfl, (hem.trans hem').trans hgone, harg.trans hyarg,
    hnext.trans (World.nextId_ackCancel ..), fun l => ?_, ?_, fun l hne => ?_⟩
  · rw [(Calm.eraseOrder u e q.orderId).conf, hconf', hconf]
  · have hmap : y.store e =
      (w.store e).withMap ((w.store e).odrMap.insert q.orderId { o' with orderState := st }) := by
      rw [hy, World.ackCancel, World.store_callback, World.putOrder_eq, World.store_upd, if_pos rfl]
    rw [World.eraseOrder_eq, World.store_upd, if_pos rfl, hself, hmap]
    refine (Store.withdrawn_marked (o := o) _ _ a st).trans
      (Store.withdrawn_withMap (OrdMap.ext_find fun j => ?_))
    simp only [OrdMap.find?_erase, OrdMap.find?_insert]
    split_ifs <;> rfl
  · rw [World.eraseOrder_eq, World.store_upd_ne hne, hother l hne, hy, World.store_ackCancel_ne hne]

end Matching
