import Matching.Lib.Fault
import Matching.Lib.Rounding

/-! `matchd_price` of the impliers and the arithmetic it is made of (`round_down`, `round_up`,
    `handle_pips`). An overflow of `long long` and a remainder by 0 are undefined behaviour. The
    repo impliers compute in `double`: here that is exact, up to the conversion to `long long`. -/

namespace Matching

/-- A `long long` result. -/
def fitI64 (x : ℤ) : Except Fault ℤ := if -2 ^ 63 ≤ x ∧ x < 2 ^ 63 then .ok x else .error .ub

/-- `a % b` of two `long long`s. -/
def remI64 (a b : ℤ) : Except Fault ℤ :=
  if b = 0 ∨ (a = -2 ^ 63 ∧ b = -1) then .error .ub else .ok (a.tmod b)

/-- `round_down(price, mini_tick)`. -/
def roundDown (price miniTick : ℤ) : Except Fault ℤ := do
  let mod ← remI64 price miniTick
  if mod ≥ 0 then fitI64 (price - mod)
  else fitI64 ((← fitI64 (price - mod)) - miniTick)

/-- `round_up(price, mini_tick)`. -/
def roundUp (price miniTick : ℤ) : Except Fault ℤ := do
  let mod ← remI64 price miniTick
  if mod = 0 then return price
  else if mod > 0 then fitI64 ((← fitI64 (price + miniTick)) - mod)
  else fitI64 (price - mod)

/-- `handle_pips(price, pips)`. -/
def handlePips (price pips : ℤ) : Except Fault ℤ := do
  let commission ← (if price < 0 then fitI64 (0 - price) else .ok price : Except Fault ℤ)
  let commission ← fitI64 (commission * pips)
  return commission.tdiv 10000

/-- `leg1 op leg2 op' handle_pips(leg1) op' handle_pips(leg2)`, from left to right. -/
def combineLegs (op op' : ℤ → ℤ → ℤ) (pips leg1Price leg2Price : ℤ) : Except Fault ℤ := do
  let commission1 ← handlePips leg1Price pips
  let commission2 ← handlePips leg2Price pips
  let price ← fitI64 (op leg1Price leg2Price)
  let price ← fitI64 (op' price commission1)
  fitI64 (op' price commission2)

/-- `add_ask_implier::matchd_price`. -/
def AddAskImplier.matchdPrice (pips leg1Price leg2Price miniTick : ℤ) : Except Fault ℤ := do
  roundUp (← combineLegs (· + ·) (· + ·) pips leg1Price leg2Price) miniTick

/-- `add_bid_implier::matchd_price`. -/
def AddBidImplier.matchdPrice (pips leg1Price leg2Price miniTick : ℤ) : Except Fault ℤ := do
  roundDown (← combineLegs (· + ·) (· - ·) pips leg1Price leg2Price) miniTick

/-- `minus_ask_implier::matchd_price`. -/
def MinusAskImplier.matchdPrice (pips leg1Price leg2Price miniTick : ℤ) : Except Fault ℤ := do
  roundUp (← combineLegs (· - ·) (· + ·) pips leg1Price leg2Price) miniTick

/-- `minus_bid_implier::matchd_price`. -/
def MinusBidImplier.matchdPrice (pips leg1Price leg2Price miniTick : ℤ) : Except Fault ℤ := do
  roundDown (← combineLegs (· - ·) (· - ·) pips leg1Price leg2Price) miniTick

/-- The conversion of a `double` to `long long`. -/
def toLongLong (q : ℚ) : Except Fault ℤ := fitI64 (truncQ q)

/-- `leg1 * (factor + leg2) / factor`, before anything is rounded. -/
def repoValue (factor : ℕ) (leg1Price leg2Price : ℤ) : ℚ :=
  leg1Price * (factor + leg2Price) / factor

/-- `repo_out_ask_implier::matchd_price`: the inner `round_up` gets a value that is
    a `long long` already. -/
def RepoOutAskImplier.matchdPrice (pips : ℤ) (factor : ℕ) (leg1Price leg2Price miniTick : ℤ) :
    Except Fault ℤ := do
  let value ← roundUp (← toLongLong (repoValue factor leg1Price leg2Price)) 1
  let commission ← handlePips leg1Price pips
  roundUp (← fitI64 (value + commission)) miniTick

/-- `repo_out_bid_implier::matchd_price`. -/
def RepoOutBidImplier.matchdPrice (pips : ℤ) (factor : ℕ) (leg1Price leg2Price miniTick : ℤ) :
    Except Fault ℤ := do
  let commission ← handlePips leg1Price pips
  roundDown (← toLongLong (repoValue factor leg1Price leg2Price - commission)) miniTick

/-! ### What they compute -/

variable {price miniTick pips p c : ℤ}

@[simp] theorem fitI64_ok {x y : ℤ} : fitI64 x = .ok y ↔ (-2 ^ 63 ≤ x ∧ x < 2 ^ 63) ∧ x = y := by
  unfold fitI64
  split_ifs with h
  · rw [Except.ok.injEq]
    exact ⟨fun he => ⟨h, he⟩, And.right⟩
  · exact ⟨fun he => (nomatch he), fun he => absurd he.1 h⟩

theorem roundDown_ok (ht : 0 < miniTick) (h : roundDown price miniTick = .ok p) :
    p = floorTo miniTick price := by
  rw [floorTo_of_tmod ht]
  simp only [roundDown, remI64, bind_ok] at h
  obtain ⟨mod, hmod, h⟩ := h
  split_ifs at hmod
  obtain rfl := Except.ok.inj hmod
  split_ifs at h ⊢ with h0
  · exact (fitI64_ok.mp h).2.symm
  · simp only [bind_ok, fitI64_ok] at h
    obtain ⟨_, ⟨_, rfl⟩, _, rfl⟩ := h
    rfl

theorem roundUp_ok (ht : 0 < miniTick) (h : roundUp price miniTick = .ok p) :
    p = ceilTo miniTick price := by
  rw [ceilTo_of_tmod ht]
  simp only [roundUp, remI64, bind_ok] at h
  obtain ⟨mod, hmod, h⟩ := h
  split_ifs at hmod
  obtain rfl := Except.ok.inj hmod
  split_ifs at h ⊢ with h0 h1
  · exact (pure_ok.mp h).symm
  · simp only [bind_ok, fitI64_ok] at h
    obtain ⟨_, ⟨_, rfl⟩, _, rfl⟩ := h
    rfl
  · exact (fitI64_ok.mp h).2.symm

theorem roundUp_one (price : ℤ) : roundUp price 1 = .ok price := by
  simp only [roundUp, remI64, Int.tmod_one]
  simp [pure, Except.pure]

/-- The commission on a price. -/
def commission (pips price : ℤ) : ℤ := |price| * pips / 10000

theorem commission_nonneg (hp : 0 ≤ pips) (price : ℤ) : 0 ≤ commission pips price :=
  Int.ediv_nonneg (mul_nonneg (abs_nonneg price) hp) (by decide)

theorem handlePips_ok (hp : 0 ≤ pips) (h : handlePips price pips = .ok c) :
    c = commission pips price := by
  simp only [handlePips, bind_ok, fitI64_ok, pure_ok] at h
  obtain ⟨a, ha, _, ⟨_, rfl⟩, rfl⟩ := h
  have habs : a = |price| := by
    split_ifs at ha with h0
    · rw [fitI64_ok] at ha
      rw [abs_of_neg h0]
      omega
    · rw [abs_of_nonneg (not_lt.mp h0)]
      exact (Except.ok.inj ha).symm
  rw [habs, commission]
  exact Int.tdiv_eq_ediv_of_nonneg (mul_nonneg (abs_nonneg price) hp)

theorem combineLegs_ok {op op' : ℤ → ℤ → ℤ} {a b : ℤ} (hp : 0 ≤ pips)
    (h : combineLegs op op' pips a b = .ok p) :
    p = op' (op' (op a b) (commission pips a)) (commission pips b) := by
  simp only [combineLegs, bind_ok, fitI64_ok] at h
  obtain ⟨c1, h1, c2, h2, _, ⟨_, rfl⟩, _, ⟨_, rfl⟩, _, rfl⟩ := h
  rw [handlePips_ok hp h1, handlePips_ok hp h2]

end Matching
