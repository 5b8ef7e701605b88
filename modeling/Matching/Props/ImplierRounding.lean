import Matching.Implier.Price

/-! Which way the impliers round. The integer impliers round the combined legs against the taker,
    after a commission that is never negative; their prices rise with the legs as long as a
    commission does not outgrow its price. The repo impliers convert a fraction to `long long`
    before they round it, which is toward zero: the price is on the wrong side of the legs exactly
    where the decimals that are lost are made up for by neither the commission nor the tick. -/

namespace Matching

variable {pips tick a b a' b' p p' x y : ℤ}

/-! ### Integer impliers -/

/-- The integer impliers, by what they combine. -/
inductive Legs where | add | minus
  deriving DecidableEq, Repr

namespace Legs

def ask : Legs → ℤ → ℤ → ℤ → ℤ → Except Fault ℤ
  | .add => AddAskImplier.matchdPrice
  | .minus => MinusAskImplier.matchdPrice

def bid : Legs → ℤ → ℤ → ℤ → ℤ → Except Fault ℤ
  | .add => AddBidImplier.matchdPrice
  | .minus => MinusBidImplier.matchdPrice

/-- What the second leg adds to the first. -/
def second : Legs → ℤ → ℤ
  | .add, b => b
  | .minus, b => -b

/-- The combined legs. -/
def combined (k : Legs) (a b : ℤ) : ℤ := a + k.second b

/-- The commission on both legs. -/
def fee (pips a b : ℤ) : ℤ := commission pips a + commission pips b

theorem ask_ok (k : Legs) (ht : 0 < tick) (hp : 0 ≤ pips) (h : k.ask pips a b tick = .ok p) :
    p = ceilTo tick (k.combined a b + fee pips a b) := by
  cases k <;>
    simp only [ask, AddAskImplier.matchdPrice, MinusAskImplier.matchdPrice, bind_ok] at h <;>
    obtain ⟨c, hc, h⟩ := h <;> rw [roundUp_ok ht h, combineLegs_ok hp hc, combined, second, fee] <;>
    congr 1 <;> ring

theorem bid_ok (k : Legs) (ht : 0 < tick) (hp : 0 ≤ pips) (h : k.bid pips a b tick = .ok p) :
    p = floorTo tick (k.combined a b - fee pips a b) := by
  cases k <;>
    simp only [bid, AddBidImplier.matchdPrice, MinusBidImplier.matchdPrice, bind_ok] at h <;>
    obtain ⟨c, hc, h⟩ :=
    h <;> rw [roundDown_ok ht h, combineLegs_ok hp hc, combined, second, fee] <;> congr 1 <;> ring

end Legs

theorem commission_neg (pips x : ℤ) : commission pips (-x) = commission pips x := by
  rw [commission, commission, abs_neg]

theorem Legs.commission_second (k : Legs) (b : ℤ) :
    commission pips (k.second b) = commission pips b := by
  cases k
  · rfl
  · exact commission_neg pips b

/-- `y` is above `x`, and if the commission is more than the price itself then both are positive. -/
def Rises (pips x y : ℤ) : Prop := x ≤ y ∧ (pips ≤ 10000 ∨ 0 ≤ x ∨ x = y)

/-- A price with its commission rises with it. -/
theorem Rises.add_commission (hp : 0 ≤ pips) (h : Rises pips x y) :
    x + commission pips x ≤ y + commission pips y := by
  obtain ⟨hle, hpips | hpos | rfl⟩ := h
  · -- the commission falls by at most what the price rises by
    have habs : |x| ≤ |y| + (y - x) := by
      rcases abs_cases x with ⟨hx, _⟩ | ⟨hx, _⟩ <;>
        rcases abs_cases y with ⟨hy, _⟩ | ⟨hy, _⟩ <;> omega
    have hmul : |x| * pips ≤ |y| * pips + (y - x) * 10000 := calc
      |x| * pips ≤ (|y| + (y - x)) * pips := mul_le_mul_of_nonneg_right habs hp
      _ = |y| * pips + (y - x) * pips := by ring
      _ ≤ |y| * pips + (y - x) * 10000 := by gcongr
    have hdiv : |x| * pips / 10000 ≤ |y| * pips / 10000 + (y - x) := by
      rw [← Int.add_mul_ediv_right _ _ (by decide : (10000 : ℤ) ≠ 0)]
      exact Int.ediv_le_ediv (by decide) hmul
    rw [commission, commission]
    omega
  · have habs : |x| ≤ |y| := abs_le_abs_of_nonneg hpos hle
    have hdiv : |x| * pips / 10000 ≤ |y| * pips / 10000 :=
      Int.ediv_le_ediv (by decide) (mul_le_mul_of_nonneg_right habs hp)
    rw [commission, commission]
    omega
  · exact le_rfl

/-- For all integer impliers, legs of either sign, ticks and commissions: the ask price is the least
    multiple of the tick that is at least the combined legs and the commission, the bid price the
    greatest one that is at most the combined legs less the commission; the combined legs are
    between them; and both prices rise with the legs. -/
theorem implied_price_directed (k : Legs) (ht : 0 < tick) (hp : 0 ≤ pips) :
    (∀ p, k.ask pips a b tick = .ok p →
      IsLeast {m | tick ∣ m ∧ k.combined a b + Legs.fee pips a b ≤ m} p) ∧
    (∀ p, k.bid pips a b tick = .ok p →
      IsGreatest {m | tick ∣ m ∧ m ≤ k.combined a b - Legs.fee pips a b} p) ∧
    (∀ p p', k.bid pips a b tick = .ok p → k.ask pips a b tick = .ok p' →
      p ≤ k.combined a b ∧ k.combined a b ≤ p') ∧
    (∀ p p', Rises pips a a' → Rises pips (k.second b) (k.second b') → k.ask pips a b tick = .ok p →
      k.ask pips a' b' tick = .ok p' → p ≤ p') ∧
    ∀ p p', Rises pips (-a') (-a) → Rises pips (-k.second b') (-k.second b) →
      k.bid pips a b tick = .ok p → k.bid pips a' b' tick = .ok p' → p ≤ p' := by
  have hfee : 0 ≤ Legs.fee pips a b := add_nonneg (commission_nonneg hp a) (commission_nonneg hp b)
  refine ⟨fun p h => ?_, fun p h => ?_, fun p p' h h' => ?_, fun p p' ha hb h h' => ?_,
    fun p p' ha hb h h' => ?_⟩
  · exact k.ask_ok ht hp h ▸ isLeast_ceilTo ht _
  · exact k.bid_ok ht hp h ▸ isGreatest_floorTo ht _
  · have hlo := floorTo_le (x := k.combined a b - Legs.fee pips a b) ht
    have hhi := le_ceilTo (x := k.combined a b + Legs.fee pips a b) ht
    rw [← k.bid_ok ht hp h] at hlo
    rw [← k.ask_ok ht hp h'] at hhi
    omega
  · rw [k.ask_ok ht hp h, k.ask_ok ht hp h']
    refine ceilTo_mono ht ?_
    have h1 := ha.add_commission hp
    have h2 := hb.add_commission hp
    rw [k.commission_second, k.commission_second] at h2
    simp only [Legs.combined, Legs.fee]
    omega
  · rw [k.bid_ok ht hp h, k.bid_ok ht hp h']
    refine floorTo_mono ht ?_
    have h1 := ha.add_commission hp
    have h2 := hb.add_commission hp
    simp only [commission_neg, k.commission_second] at h1 h2
    simp only [Legs.combined, Legs.fee]
    omega

/-- A spread of -143 in 100ths, at a tick of 10 and a commission of 25. -/
theorem implied_price_directed_spread :
    IsLeast {m | (10 : ℤ) ∣ m ∧ -14300 + 35 ≤ m} (-14260) ∧
      IsGreatest {m | (10 : ℤ) ∣ m ∧ m ≤ -14300 - 35} (-14340) := by
  have h := @implied_price_directed 25 10 (-10300) 4000 (-10300) 4000 .minus (by decide) (by decide)
  exact ⟨h.1 (-14260) (by decide), h.2.1 (-14340) (by decide)⟩

/-- A commission of twice the price: a higher leg gives a lower ask price. -/
theorem doubleFee_falls :
    Legs.add.ask 20000 (-10) 0 1 = .ok 10 ∧ Legs.add.ask 20000 (-9) 0 1 = .ok 9 := by decide

/-! ### Repo impliers -/

/-- The fraction without its decimals is the C++ quotient. -/
theorem truncQ_div (n : ℤ) (d : ℕ) : truncQ ((n : ℚ) / d) = n.tdiv d := by
  rcases Nat.eq_zero_or_pos d with rfl | hd
  · simp [truncQ]
  have hd' : (0 : ℚ) < d := by exact_mod_cast hd
  rw [truncQ]
  split_ifs with h
  · have hn : 0 ≤ n := by
      by_contra hneg
      have hlt : (n : ℚ) / d < 0 := div_neg_of_neg_of_pos (by exact_mod_cast not_le.mp hneg) hd'
      exact absurd h (not_le.mpr hlt)
    rw [Rat.floor_intCast_div_natCast, Int.tdiv_eq_ediv_of_nonneg hn]
  · have hn : 0 ≤ -n := by
      by_contra hpos
      have hle : 0 ≤ (n : ℚ) / d := div_nonneg (by exact_mod_cast (by omega : 0 ≤ n)) hd'.le
      exact h hle
    rw [Rat.ceil_intCast_div_natCast, ← Int.tdiv_eq_ediv_of_nonneg hn, Int.neg_tdiv, neg_neg]

/-- `leg1 * (factor + leg2)`. -/
def repoNumerator (factor : ℕ) (a b : ℤ) : ℤ := a * (factor + b)

/-- Decimals are lost, nothing is added as commission, and what is left is on tick. -/
def LosesDecimals (pips tick : ℤ) (factor : ℕ) (a b : ℤ) : Prop :=
  ¬(factor : ℤ) ∣ repoNumerator factor a b ∧ |a| * pips < 10000 ∧
    tick ∣ (repoNumerator factor a b).tdiv factor

instance (pips tick : ℤ) (factor : ℕ) (a b : ℤ) : Decidable (LosesDecimals pips tick factor a b) :=
  inferInstanceAs (Decidable (_ ∧ _ ∧ _))

section Repo

variable {factor : ℕ}

theorem repoValue_eq (factor : ℕ) (a b : ℤ) :
    repoValue factor a b = (repoNumerator factor a b : ℚ) / factor := by
  rw [repoValue, repoNumerator]
  push_cast
  rfl

theorem truncQ_repoValue (factor : ℕ) (a b : ℤ) :
    truncQ (repoValue factor a b) = (repoNumerator factor a b).tdiv factor := by
  rw [repoValue_eq, truncQ_div]

theorem repoValue_pos_iff (hf : 0 < factor) :
    0 < repoValue factor a b ↔ 0 < repoNumerator factor a b := by
  have hf' : (0 : ℚ) < factor := by exact_mod_cast hf
  rw [repoValue_eq, div_pos_iff_of_pos_right hf']
  exact_mod_cast Iff.rfl

theorem repoValue_neg_iff (hf : 0 < factor) :
    repoValue factor a b < 0 ↔ repoNumerator factor a b < 0 := by
  have hf' : (0 : ℚ) < factor := by exact_mod_cast hf
  rw [repoValue_eq, div_lt_iff₀ hf', zero_mul]
  exact_mod_cast Iff.rfl

/-- Nothing is lost exactly where the factor divides. -/
theorem truncQ_eq_repoValue_iff (hf : 0 < factor) :
    (truncQ (repoValue factor a b) : ℚ) = repoValue factor a b ↔
      (factor : ℤ) ∣ repoNumerator factor a b := by
  have hf' : (factor : ℚ) ≠ 0 := by exact_mod_cast hf.ne'
  rw [truncQ_repoValue, repoValue_eq, eq_div_iff hf']
  constructor
  · intro h
    exact ⟨_, by rw [mul_comm]; exact_mod_cast h.symm⟩
  · intro h
    exact_mod_cast Int.tdiv_mul_cancel h

theorem commission_eq_zero_iff (hp : 0 ≤ pips) : commission pips a = 0 ↔ |a| * pips < 10000 := by
  have hnn : 0 ≤ |a| * pips := mul_nonneg (abs_nonneg a) hp
  rw [commission]
  omega

theorem repoAsk_ok (ht : 0 < tick) (hp : 0 ≤ pips)
    (h : RepoOutAskImplier.matchdPrice pips factor a b tick = .ok p) :
    p = ceilTo tick (truncQ (repoValue factor a b) + commission pips a) := by
  simp only [RepoOutAskImplier.matchdPrice, toLongLong, bind_ok, fitI64_ok] at h
  obtain ⟨_, ⟨_, rfl⟩, v, hv, c, hc, _, ⟨_, rfl⟩, h⟩ := h
  rw [roundUp_one] at hv
  rw [roundUp_ok ht h, handlePips_ok hp hc, Except.ok.inj hv]

theorem repoBid_ok (ht : 0 < tick) (hp : 0 ≤ pips)
    (h : RepoOutBidImplier.matchdPrice pips factor a b tick = .ok p) :
    p = floorTo tick (truncQ (repoValue factor a b - commission pips a)) := by
  simp only [RepoOutBidImplier.matchdPrice, toLongLong, bind_ok, fitI64_ok] at h
  obtain ⟨c, hc, _, ⟨_, rfl⟩, h⟩ := h
  rw [roundDown_ok ht h, handlePips_ok hp hc]

/-- The price is never further from the value of the legs than the tick and the commission. -/
theorem repoAsk_near (ht : 0 < tick) (hp : 0 ≤ pips)
    (h : RepoOutAskImplier.matchdPrice pips factor a b tick = .ok p) :
    |(p : ℚ) - repoValue factor a b| < tick + commission pips a := by
  set v := repoValue factor a b with hv
  have hfee := commission_nonneg hp a
  have hlo : truncQ v + commission pips a ≤ p := repoAsk_ok ht hp h ▸ le_ceilTo ht
  have hhi : p + 1 ≤ truncQ v + commission pips a + tick := repoAsk_ok ht hp h ▸ ceilTo_lt_add ht
  have hlo' : (truncQ v : ℚ) + commission pips a ≤ p := by exact_mod_cast hlo
  have hhi' : (p : ℚ) + 1 ≤ truncQ v + commission pips a + tick := by exact_mod_cast hhi
  have htick : (1 : ℚ) ≤ tick := by exact_mod_cast ht
  have hfee' : (0 : ℚ) ≤ commission pips a := by exact_mod_cast hfee
  have h1 := truncQ_lt_add_one v
  have h2 := lt_truncQ_add_one v
  rw [abs_lt]
  constructor <;> linarith

theorem repoBid_near (ht : 0 < tick) (hp : 0 ≤ pips)
    (h : RepoOutBidImplier.matchdPrice pips factor a b tick = .ok p) :
    |(p : ℚ) - repoValue factor a b| < tick + commission pips a := by
  set v := repoValue factor a b with hv
  have hfee := commission_nonneg hp a
  have hhi : p ≤ truncQ (v - commission pips a) := repoBid_ok ht hp h ▸ floorTo_le ht
  have hlo : truncQ (v - commission pips a) + 1 ≤ p + tick := repoBid_ok ht hp h ▸ lt_floorTo_add ht
  have hhi' : (p : ℚ) ≤ truncQ (v - commission pips a) := by exact_mod_cast hhi
  have hlo' : (truncQ (v - commission pips a) : ℚ) + 1 ≤ p + tick := by exact_mod_cast hlo
  have htick : (1 : ℚ) ≤ tick := by exact_mod_cast ht
  have hfee' : (0 : ℚ) ≤ commission pips a := by exact_mod_cast hfee
  have h1 := truncQ_lt_add_one (v - commission pips a)
  have h2 := lt_truncQ_add_one (v - commission pips a)
  rw [abs_lt]
  constructor <;> linarith

theorem repoAsk_le_iff (hf : 0 < factor) (ht : 0 < tick) (hp : 0 ≤ pips)
    (h : RepoOutAskImplier.matchdPrice pips factor a b tick = .ok p) :
    repoValue factor a b ≤ p ↔
      ¬(0 < repoNumerator factor a b ∧ LosesDecimals pips tick factor a b) := by
  set v := repoValue factor a b with hv
  have hp' := repoAsk_ok ht hp h
  have hlo : truncQ v + commission pips a ≤ p := hp' ▸ le_ceilTo ht
  have hnext := lt_truncQ_add_one v
  rw [← repoValue_pos_iff hf, LosesDecimals, ← truncQ_eq_repoValue_iff hf, ← truncQ_repoValue,
    ← commission_eq_zero_iff hp, ← hv]
  constructor
  · rintro hle ⟨hpos, hne, hfee, hdvd⟩
    -- the price is the value without its decimals
    rw [hfee, add_zero, (ceilTo_eq_iff ht).mpr hdvd] at hp'
    rw [hp'] at hle
    exact hne (le_antisymm (truncQ_le hpos.le) hle)
  · intro hcond
    by_cases hpos : 0 < v
    · by_cases hint : (truncQ v : ℚ) = v
      · have hle : truncQ v ≤ p := by
          have hfee := commission_nonneg hp a
          omega
        rw [← hint]
        exact_mod_cast hle
      · have hup : truncQ v + 1 ≤ p := by
          have hfee := commission_nonneg hp a
          rcases hfee.lt_or_eq with hfee | hfee
          · omega
          · have hne : p ≠ truncQ v := fun he =>
              hcond ⟨hpos, hint, hfee.symm,
                (ceilTo_eq_iff ht).mp (by rw [← hfee, add_zero] at hp'; rw [← hp', he])⟩
            omega
        have hup' : (truncQ v : ℚ) + 1 ≤ p := by exact_mod_cast hup
        linarith
    · have hle := le_truncQ (not_lt.mp hpos)
      have hfee : (0 : ℚ) ≤ commission pips a := by exact_mod_cast commission_nonneg hp a
      have hlo' : (truncQ v : ℚ) + commission pips a ≤ p := by exact_mod_cast hlo
      linarith

theorem repoBid_le_iff (hf : 0 < factor) (ht : 0 < tick) (hp : 0 ≤ pips)
    (h : RepoOutBidImplier.matchdPrice pips factor a b tick = .ok p) :
    p ≤ repoValue factor a b ↔
      ¬(repoNumerator factor a b < 0 ∧ LosesDecimals pips tick factor a b) := by
  set v := repoValue factor a b with hv
  have hp' := repoBid_ok ht hp h
  have hfee := commission_nonneg hp a
  have hhi : p ≤ truncQ (v - commission pips a) := hp' ▸ floorTo_le ht
  have hhi' : (p : ℚ) ≤ truncQ (v - commission pips a) := by exact_mod_cast hhi
  have hnext := truncQ_lt_add_one (v - commission pips a)
  rw [← repoValue_neg_iff hf, LosesDecimals, ← truncQ_eq_repoValue_iff hf, ← truncQ_repoValue,
    ← commission_eq_zero_iff hp, ← hv]
  rcases hfee.lt_or_eq with hfee | hfee
  · have hfee' : (1 : ℚ) ≤ commission pips a := by exact_mod_cast hfee
    exact iff_of_true (by linarith) fun hc => hfee.ne' hc.2.2.1
  rw [← hfee, Int.cast_zero, sub_zero] at hp' hhi' hnext
  rw [← hfee, Int.cast_zero, sub_zero] at hhi
  constructor
  · rintro hle ⟨hneg, hne, -, hdvd⟩
    rw [(floorTo_eq_iff ht).mpr hdvd] at hp'
    rw [hp'] at hle
    exact hne (le_antisymm hle (le_truncQ hneg.le))
  · intro hcond
    by_cases hneg : v < 0
    · by_cases hint : (truncQ v : ℚ) = v
      · rw [← hint]
        exact hhi'
      · have hne : p ≠ truncQ v :=
          fun he => hcond ⟨hneg, hint, hfee.symm, (floorTo_eq_iff ht).mp (by rw [← hp', he])⟩
        have hdown : p + 1 ≤ truncQ v := by omega
        have hdown' : (p : ℚ) + 1 ≤ truncQ v := by exact_mod_cast hdown
        linarith
    · exact hhi'.trans (truncQ_le (not_lt.mp hneg))

/-- For all legs, factors, ticks and commissions: the repo ask price is at least the value of the
    legs, and within the tick and the commission of it, unless that value is positive and loses
    decimals that neither the commission nor the tick makes up for; so is the bid price on the other
    side, unless it is negative. -/
theorem repo_price_safe_iff (hf : 0 < factor) (ht : 0 < tick) (hp : 0 ≤ pips) :
    (∀ p, RepoOutAskImplier.matchdPrice pips factor a b tick = .ok p →
      (repoValue factor a b ≤ p ∧ |(p : ℚ) - repoValue factor a b| ≤ tick + commission pips a ↔
        ¬(0 < repoNumerator factor a b ∧ LosesDecimals pips tick factor a b))) ∧
    ∀ p, RepoOutBidImplier.matchdPrice pips factor a b tick = .ok p →
      (p ≤ repoValue factor a b ∧ |(p : ℚ) - repoValue factor a b| ≤ tick + commission pips a ↔
        ¬(repoNumerator factor a b < 0 ∧ LosesDecimals pips tick factor a b)) := by
  constructor
  · intro p h
    rw [← repoAsk_le_iff hf ht hp h]
    exact and_iff_left (repoAsk_near ht hp h).le
  · intro p h
    rw [← repoBid_le_iff hf ht hp h]
    exact and_iff_left (repoBid_near ht hp h).le

end Repo

theorem repo_price_safe_iff_halves :
    (repoValue 2 (-1) 1 ≤ (-1 : ℤ) ∧
      |((-1 : ℤ) : ℚ) - repoValue 2 (-1) 1| ≤ (1 : ℤ) + commission 0 (-1) ↔
      ¬(0 < repoNumerator 2 (-1) 1 ∧ LosesDecimals 0 1 2 (-1) 1)) :=
  (repo_price_safe_iff (by decide) (by decide) (by decide)).1 (-1) (by decide +kernel)

/-- A half is lost on the way up, and on the way down below zero. -/
theorem halves_unsafe : RepoOutAskImplier.matchdPrice 0 2 1 1 1 = .ok 1 ∧ ¬repoValue 2 1 1 ≤ 1 ∧
    RepoOutBidImplier.matchdPrice 0 2 (-1) 1 1 = .ok (-1) ∧ ¬(-1 : ℚ) ≤ repoValue 2 (-1) 1 := by
  refine ⟨by decide +kernel, by decide +kernel, by decide +kernel, by decide +kernel⟩

end Matching
