import Matching.Engine.Quiet
import Matching.Props.CancelUndo

/-! Stop quiescence. In a run whose executions rouse every stop they may have made due, no stop is
    due after a call: none that waits has its trigger reached by the first price of the book it
    watches. The engine does not look at its stops when the order of a request is filled, and looks
    at one side only after the other; so the condition on the executions is that the first does not
    happen and that no stop comes to rest alone on its side of the book. -/

namespace Matching

variable {w w' w0 : World} {e : ℕ} {q : Order}

theorem quiet_dispatch (hx : Lone (fun _ _ => True) e (w, [])) (harg : w.arg = q) (ht : q.IsTrade)
    (h : dispatch w e = .ok w') (hgood : ∀ z ∈ w'.execs, z.Rouses) (hq : ∀ s, (w.store e).Quiet s) :
    ∀ s, (w'.store e).Quiet s := by
  subst harg
  rcases ht with ha | ha | ha
  · simp only [dispatch, ha] at h
    exact quiet_handleNew hx ⟨rfl⟩ ha h hgood hq
  · simp only [dispatch, ha] at h
    obtain ⟨⟨v, b⟩, hv, h⟩ := bind_ok.mp h
    obtain rfl := pure_ok.mp h
    have hst : cancelState w.arg.orderAction = some .canceledByUser := by rw [ha]; rfl
    rcases hf : (w.store e).odrMap.find? w.arg.orderId with _ | o
    · obtain ⟨u, o, hu, hsame, -⟩ := handleCancel_unknown ha hf
      obtain rfl : u = v := congrArg Prod.fst (Except.ok.inj (hu.symm.trans hv))
      intro s
      rw [hsame]
      exact hq s
    · have hself : w.putOrder e w.arg.orderId { o with orderAction := o.orderAction } = w :=
        World.putOrder_self hf
      exact (quiet_cancelFound o.orderAction hx rfl hst hf (by rw [hself]; exact hv) hgood hq).1
  · simp only [dispatch, ha] at h
    exact quiet_handleAmend hx rfl ha h hgood hq

theorem quiet_handle (ht : q.IsTrade) (h : handle w e q = .ok w')
    (hgood : ∀ z ∈ w'.execs, z.Rouses)
    (hx : Lone (fun _ _ => True) e (w, []) ∧ ∀ s, (w.store e).Quiet s) :
    Lone (fun _ _ => True) e (w', []) ∧ ∀ s, (w'.store e).Quiet s := by
  refine ⟨handle_induct (I := Lone (fun _ _ => True) e) ht (fun hst hc hn hv => hv.congr hst hc hn)
    (fun ho hv => ho.lone hv)
    (fun hstep hz hv => hstep.lone trivial (fun z hzm _ => (hz z hzm).oneLeg) hv) h hgood hx.1, ?_⟩
  obtain ⟨held, _, ⟨_, rfl⟩ | ⟨_, v, hv, rfl⟩⟩ := handle_cases h
  · exact hx.2
  · have hent : Lone (fun _ _ => True) e (w.enter e q held, []) :=
      hx.1.congr (fun l => World.store_enter ..) (fun l => World.conf_enter ..)
        (World.nextId_enter ..)
    have hquiet := quiet_dispatch hent (World.arg_enter ..) ht hv (by simpa using hgood) fun s => by
      rw [World.store_enter]
      exact hx.2 s
    intro s
    rw [World.store_unlock, World.store_flush]
    exact hquiet s

/-- After every call of such a run on an engine without impliers, no stop that waits is due. -/
theorem run_quiet (h0 : w0.Fresh) (hi : ∀ t, (w0.conf e).impliers t = []) (qs : List Order)
    (hqs : ∀ q ∈ qs, q.IsTrade) (h : run w0 (qs.map (Prod.mk e)) = .ok w)
    (hrouse : ∀ z ∈ w.execs, z.Rouses) : ∀ s, (w.store e).Quiet s := by
  have hself : RunsAlong World.call (fun _ x => x.1 = e) w0 (qs.map (Prod.mk e)) :=
    RunsAlong.of_forall _ fun x hx _ => by
      obtain ⟨q, _, rfl⟩ := List.mem_map.mp hx
      rfl
  have htrade : ∀ x ∈ qs.map (Prod.mk e), x.2.IsTrade := fun x hx => by
    obtain ⟨q, hq, rfl⟩ := List.mem_map.mp hx
    exact hqs q hq
  have hstart : ∀ s, (w0.store e).Quiet s := fun s p hp => by
    rw [h0.store] at hp
    cases s <;> cases hp
  have hend := run_along (I := fun v => Lone (fun _ _ => True) e (v, []) ∧ ∀ s, (v.store e).Quiet s)
    (fun {v v' l q} ht hl hv hgood hI => by
      obtain rfl : l = e := hl
      exact quiet_handle ht hv hgood hI)
    _ htrade hself h hrouse ⟨(h0.ordered _).lone hi, hstart⟩
  exact hend.2

/-- Sellers at 100 and 104, a buyer at 90, a stop of either side, and the
    cancellation of the best seller. -/
def bothStops : List Order :=
  [{ Order.default with side := .sell, price := 100, quantity := 5 },
    { Order.default with side := .sell, price := 104, quantity := 5 },
    { Order.default with side := .buy, price := 90, quantity := 5 },
    { Order.default with
      side := .buyStop, quantity := 7, buyStopTriggerPrice := 103, buyStopLimitPrice := 110 },
    { Order.default with
      side := .sellStop, quantity := 2, sellStopTriggerPrice := 85, sellStopLimitPrice := 80 },
    { Order.default with orderAction := .cancel, orderId := 1000 }]

/-- The stop to buy is set off, takes all that is offered and rests beside the buyer; the stop to
    sell goes on waiting. -/
theorem run_quiet_bothStops :
    ∃ w, run (World.start 1 1000) (bothStops.map (Prod.mk 0)) = .ok w ∧ (w.store 0).askBook = [] ∧
      (w.store 0).bidBook = [(110, [1003]), (90, [1002])] ∧ (w.store 0).bidStopBook = [] ∧
      (w.store 0).askStopBook = [(85, [1004])] ∧ ∀ s, (w.store 0).Quiet s := by
  have hcall : (do
      let w ← run (World.start 1 1000) (bothStops.map (Prod.mk 0))
      return (decide (∀ z ∈ w.execs, z.Rouses),
        [(w.store 0).askBook, (w.store 0).bidBook, (w.store 0).bidStopBook,
          (w.store 0).askStopBook]) : Except Fault (Bool × List Book)) =
          .ok (true, [[], [(110, [1003]), (90, [1002])], [], [(85, [1004])]]) := by decide +kernel
  obtain ⟨w, hrun, hcall⟩ := bind_ok.mp hcall
  simp only [pure_ok, Prod.mk.injEq, List.cons.injEq, and_true] at hcall
  obtain ⟨hrouse, hask, hbid, hbidStop, haskStop⟩ := hcall
  exact ⟨w, hrun, hask, hbid, hbidStop, haskStop,
    run_quiet (World.start_fresh 1 1000) (fun t => by cases t <;> rfl) bothStops (by decide) hrun
      (of_decide_eq_true hrouse)⟩

end Matching
