import Matching.Engine.Calls

/-! Lock balance of `engine::handle`. A call that returns has given back the locks it took and has
    left no auction behind, unless it was an auction request of another side than `BUY` and `SELL`:
    that one returns between `lock()` and `unlock()`. -/

namespace Matching

variable {w w' : World} {e : ℕ} {o : Order}

/-- A call of `handle` on engine `l` would get its locks. -/
def World.CanLock (w : World) (l : ℕ) : Prop := ∃ v, lock w l = .ok v

/-- What a call on engine `e` leaves: no mutex is held that was not held before it (and none is free
    that was not), so the next call on this engine gets its locks, as does one on any engine that
    could lock before; there is no auction and no recorded report. -/
structure Balanced (e : ℕ) (w w' : World) : Prop where
  locked : w'.locked = w.locked
  again : w'.CanLock e
  others : ∀ l, w.CanLock l → w'.CanLock l
  isAuction : (w'.engines e).isAuction = false
  cbRecords : (w'.engines e).cbRecords = []

theorem World.CanLock.congr {l : ℕ} (hm : (w'.conf l).mutexSet = (w.conf l).mutexSet)
    (hl : w'.locked = w.locked) (h : w.CanLock l) : w'.CanLock l := by
  obtain ⟨v, hv⟩ := h
  simp only [lock, bind_ok, pure_ok] at hv
  obtain ⟨held, hheld, -⟩ := hv
  refine ⟨{ w' with locked := held }, ?_⟩
  simp only [lock, hm, hl, hheld, ok_bind]
  rfl

theorem handle_canLock (h : handle w e o = .ok w') : w.CanLock e := by
  obtain ⟨held, hheld, -⟩ := handle_cases h
  exact ⟨{ w with locked := held }, by simp only [lock, hheld, ok_bind]; rfl⟩

/-- A limit order to buy. -/
def plainBuy : Order := { Order.default with quantity := 1, price := 5 }

/-- An auction request whose side is `BUY_STOP`. -/
def strayStop : Order :=
  { Order.default with
    side := .buyStop, quantity := 1, timeCondition := .auction,
    buyStopTriggerPrice := 5, buyStopLimitPrice := 6 }

end Matching
