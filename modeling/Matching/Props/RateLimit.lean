import Mathlib.Algebra.Order.BigOperators.Group.List
import Matching.Common.RateLimit

/-! What the token bucket promises as long as the count of ticks does not overflow, which times and
    amounts far from 64 bits rule out: over any window it grants no more than it holds and what
    fills meanwhile, and a caller that was refused a token is granted one when a call comes a
    token's time after the one before it, and not sooner. -/

namespace Matching.Common.TokenBucket

variable {r : Rate} {b b' : TokenBucket} {now n m : ℤ}

/-! ### What a call does -/

theorem tick_ok {x y : ℤ} : tick x = .ok y ↔ (-2 ^ 63 ≤ x ∧ x < 2 ^ 63) ∧ x = y := by
  unfold tick
  split <;> simp_all

/-- What `avail` computes. -/
def left (r : Rate) (b : TokenBucket) (now : ℤ) : ℤ := min (now - b.ref) (r.max * r.token)

theorem avail_ok {a : ℤ} : b.avail r now = .ok a ↔
    ((-2 ^ 63 ≤ now - b.ref ∧ now - b.ref < 2 ^ 63) ∧ -2 ^ 63 ≤ r.max * r.token ∧
      r.max * r.token < 2 ^ 63) ∧
      b.left r now = a := by
  simp only [avail, bind_ok, pure_ok, tick_ok]
  constructor
  · rintro ⟨_, ⟨hsince, rfl⟩, _, ⟨hcap, rfl⟩, rfl⟩
    exact ⟨⟨hsince, hcap⟩, rfl⟩
  · rintro ⟨⟨hsince, hcap⟩, rfl⟩
    exact ⟨_, ⟨hsince, rfl⟩, _, ⟨hcap, rfl⟩, rfl⟩

theorem new_ok {fill : ℤ} (h : new r now fill = .ok b) : b.ref = now - fill * r.token := by
  simp only [new, bind_ok, pure_ok, tick_ok] at h
  obtain ⟨_, ⟨-, rfl⟩, _, ⟨-, rfl⟩, rfl⟩ := h
  rfl

/-- A call finds the bucket empty, or takes the tokens that were asked for or all there is. -/
theorem take_ok (h : b.take r now n = .ok (m, b')) : (b.left r now ≤ 0 ∧ m = 0 ∧ b' = b) ∨
    (0 < b.left r now ∧ m = (min (n * r.token) (b.left r now)).tdiv r.token ∧
      b'.ref = now - b.left r now + min (n * r.token) (b.left r now)) := by
  obtain ⟨a, havail, h⟩ := bind_ok.mp h
  obtain ⟨-, rfl⟩ := avail_ok.mp havail
  rcases Int.lt_or_le 0 (b.left r now) with hpos | hempty
  · simp only [if_neg (not_le.mpr hpos), bind_ok, pure_ok, tick_ok] at h
    obtain ⟨_, ⟨-, rfl⟩, _, ⟨-, rfl⟩, _, ⟨-, rfl⟩, heq⟩ := h
    cases heq
    exact .inr ⟨hpos, rfl, rfl⟩
  · rw [if_pos hempty] at h
    cases h
    exact .inl ⟨hempty, rfl, rfl⟩

theorem overdraw_ok (h : b.overdraw r now n = .ok b') :
    b'.ref = now - b.left r now + n * r.token := by
  simp only [overdraw, bind_ok, pure_ok, tick_ok, avail_ok] at h
  obtain ⟨_, ⟨-, rfl⟩, _, ⟨-, rfl⟩, _, ⟨-, rfl⟩, _, ⟨-, rfl⟩, rfl⟩ := h
  rfl

/-! ### What can still be taken -/

/-- What can be taken at `now`, if anything. -/
def credit (r : Rate) (b : TokenBucket) (now : ℤ) : ℤ := max (b.left r now) 0

/-- Credit grows no faster than time passes. -/
theorem credit_later {t : ℤ} (h : t ≤ now) : b.credit r now ≤ b.credit r t + (now - t) := by
  simp only [credit, left]
  omega

theorem credit_le (hmax : 0 ≤ r.max * r.token) : b.credit r now ≤ r.max * r.token :=
  max_le (min_le_right _ _) hmax

/-- Tokens are granted out of the credit. -/
theorem take_credit (hr : 0 < r.token) (hn : 0 ≤ n) (h : b.take r now n = .ok (m, b')) :
    m * r.token + b'.credit r now ≤ b.credit r now := by
  have hamount : 0 ≤ n * r.token := Int.mul_nonneg hn hr.le
  rcases take_ok h with ⟨-, rfl, rfl⟩ | ⟨hpos, rfl, href⟩
  · rw [Int.zero_mul, Int.zero_add]
  · have hcap : b.left r now ≤ r.max * r.token := min_le_right _ _
    have htaken : 0 ≤ min (n * r.token) (b.left r now) := le_min hamount hpos.le
    have hpaid : (min (n * r.token) (b.left r now)).tdiv r.token * r.token ≤
        min (n * r.token) (b.left r now) := by
      rw [Int.tdiv_eq_ediv_of_nonneg htaken]
      exact Int.ediv_mul_le _ hr.ne'
    have hleft : b'.left r now = min (b.left r now - min (n * r.token) (b.left r now))
        (r.max * r.token) := by
      rw [left, href]
      congr 1
      omega
    rw [credit, credit, hleft]
    omega

/-- What is overdrawn is no longer there. -/
theorem overdraw_credit (hr : 0 < r.token) (hn : 0 ≤ n) (h : b.overdraw r now n = .ok b') :
    b'.credit r now ≤ b.credit r now := by
  have hamount : 0 ≤ n * r.token := Int.mul_nonneg hn hr.le
  have href := overdraw_ok h
  simp only [credit, left] at href ⊢
  omega

theorem step_credit {c : Call} (hr : 0 < r.token) (hn : 0 ≤ c.amount)
    (h : b.step r c = .ok (m, b')) :
    m * r.token + b'.credit r c.now ≤ b.credit r c.now := by
  cases c with
  | take now n => exact take_credit hr hn h
  | overdraw now n =>
    obtain ⟨v, hv, heq⟩ := bind_ok.mp h
    cases heq
    rw [Int.zero_mul, Int.zero_add]
    exact overdraw_credit hr hn hv

/-! ### Every window -/

/-- The calls from `t` on are granted the credit at `t` and what fills after it. -/
theorem grants_le_credit (hr : 0 < r.token) :
    ∀ (cs : List Call) {b : TokenBucket} {t : ℤ} {gs : List ℤ}, Steady t cs →
    (∀ c ∈ cs, 0 ≤ c.amount) → b.grants r cs = .ok gs →
      gs.sum * r.token ≤ b.credit r t + (lastNow t cs - t)
  | [], b, t, gs, _, _, h => by
    obtain rfl := Except.ok.inj h
    have hcredit : 0 ≤ b.credit r t := le_max_right _ _
    simp only [List.sum_nil, lastNow]
    omega
  | c :: cs, b, t, gs, hs, hn, h => by
    obtain ⟨⟨m, v⟩, hstep, h⟩ := bind_ok.mp h
    obtain ⟨gs, hgrants, heq⟩ := bind_ok.mp h
    cases heq
    obtain ⟨ht, hs⟩ := hs
    have hrest := grants_le_credit hr cs hs (fun x hx => hn x (List.mem_cons_of_mem _ hx)) hgrants
    have hlater : b.credit r c.now ≤ b.credit r t + (c.now - t) := credit_later ht
    have hcredit := step_credit hr (hn c List.mem_cons_self) hstep
    simp only [List.sum_cons, lastNow, Int.add_mul]
    omega

/-! ### Calls that do not overflow -/

/-- The times, `Max` and all amounts together stay far from 64 bits. -/
structure Fits (r : Rate) (b : TokenBucket) (cs : List Call) : Prop where
  cap : r.max * r.token ≤ 2 ^ 61
  now : ∀ c ∈ cs, 0 ≤ c.now ∧ c.now ≤ 2 ^ 61
  low : -2 ^ 61 ≤ b.ref
  high : max b.ref (2 ^ 61) + (cs.map Call.amount).sum * r.token ≤ 2 ^ 62

/-- A call of a list that fits returns, and what is left of the list fits. -/
theorem Fits.step {c : Call} {cs : List Call} (hr : 0 < r.token) (hmax : 0 ≤ r.max)
    (hn : ∀ x ∈ c :: cs, 0 ≤ x.amount) (h : Fits r b (c :: cs)) :
    ∃ m b', b.step r c = .ok (m, b') ∧ Fits r b' cs := by
  obtain ⟨hcap, hnow, hlow, hhigh⟩ := h
  have hcapped : 0 ≤ r.max * r.token := Int.mul_nonneg hmax hr.le
  have hamount : 0 ≤ c.amount * r.token := Int.mul_nonneg (hn c List.mem_cons_self) hr.le
  have hrest : 0 ≤ (cs.map Call.amount).sum * r.token := by
    refine Int.mul_nonneg (List.sum_nonneg ?_) hr.le
    simpa using fun x hx => hn x (List.mem_cons_of_mem _ hx)
  obtain ⟨hpos, hsmall⟩ := hnow c List.mem_cons_self
  rw [List.map_cons, List.sum_cons, Int.add_mul] at hhigh
  have havail : b.avail r c.now = .ok (b.left r c.now) := avail_ok.mpr ⟨⟨by omega, by omega⟩, rfl⟩
  have hleft : b.left r c.now = min (c.now - b.ref) (r.max * r.token) := rfl
  have hfits : ∀ {v : TokenBucket}, b.ref ≤ v.ref → v.ref ≤ max b.ref c.now + c.amount * r.token →
      Fits r v cs :=
    fun hge hle => ⟨hcap, fun x hx => hnow x (List.mem_cons_of_mem _ hx), by omega, by omega⟩
  cases c with
  | take now n =>
    simp only [Call.now, Call.amount] at *
    rcases Int.lt_or_le 0 (b.left r now) with hgrants | hempty
    · have htake : b.take r now n = .ok ((min (n * r.token) (b.left r now)).tdiv r.token,
          ⟨now - b.left r now + min (n * r.token) (b.left r now)⟩) := by
        refine bind_ok.mpr ⟨_, havail, ?_⟩
        simp only [if_neg (not_le.mpr hgrants), bind_ok, pure_ok, tick_ok]
        exact ⟨_, ⟨by omega, rfl⟩, _, ⟨by omega, rfl⟩, _, ⟨by omega, rfl⟩, rfl⟩
      exact ⟨_, _, htake, hfits (by simp only; omega) (by simp only; omega)⟩
    · have htake : b.take r now n = .ok (0, b) :=
        bind_ok.mpr ⟨_, havail, by rw [if_pos hempty]; rfl⟩
      exact ⟨_, _, htake, hfits le_rfl (by omega)⟩
  | overdraw now n =>
    simp only [Call.now, Call.amount] at *
    have hover : b.overdraw r now n = .ok ⟨now - b.left r now + n * r.token⟩ := by
      refine bind_ok.mpr ⟨_, havail, ?_⟩
      simp only [bind_ok, pure_ok, tick_ok]
      exact ⟨_, ⟨by omega, rfl⟩, _, ⟨by omega, rfl⟩, _, ⟨by omega, rfl⟩, rfl⟩
    exact ⟨0, _, bind_ok.mpr ⟨_, hover, rfl⟩, hfits (by simp only; omega) (by simp only; omega)⟩

theorem Fits.grants (hr : 0 < r.token) (hmax : 0 ≤ r.max) : ∀ {cs : List Call} {b : TokenBucket},
    (∀ x ∈ cs, 0 ≤ x.amount) → Fits r b cs → ∃ gs, b.grants r cs = .ok gs
  | [], _, _, _ => ⟨[], rfl⟩
  | c :: cs, _, hn, h => by
    obtain ⟨m, v, hstep, hrest⟩ := h.step hr hmax hn
    obtain ⟨gs, hgrants⟩ := Fits.grants hr hmax (fun x hx => hn x (List.mem_cons_of_mem _ hx)) hrest
    exact ⟨m :: gs, bind_ok.mpr ⟨_, hstep, bind_ok.mpr ⟨_, hgrants, rfl⟩⟩⟩

/-- However a bucket was used before: the calls of any window are granted no more than `Max` tokens
    and one for every token's time between the first call and the last; where what is asked for
    fits, they all return. -/
theorem grants_le (r : Rate) (b : TokenBucket) (c : Call) (cs : List Call) (hr : 0 < r.token)
    (hmax : 0 ≤ r.max) (hsteady : Steady c.now cs) (hn : ∀ x ∈ c :: cs, 0 ≤ x.amount) :
    (∀ gs, b.grants r (c :: cs) = .ok gs → gs.sum ≤ r.max + (lastNow c.now cs - c.now) / r.token) ∧
      (Fits r b (c :: cs) → ∃ gs, b.grants r (c :: cs) = .ok gs) := by
  refine ⟨fun gs hgrants => ?_, Fits.grants hr hmax hn⟩
  have hle := grants_le_credit hr (c :: cs) ⟨le_refl c.now, hsteady⟩ hn hgrants
  have hcap : b.credit r c.now ≤ r.max * r.token := credit_le (Int.mul_nonneg hmax hr.le)
  rw [Int.add_comm, ← Int.add_mul_ediv_right _ _ hr.ne', Int.le_ediv_iff_mul_le hr]
  simp only [lastNow] at hle
  omega

/-- A token every ten ticks and at most ten: those that are there, one that filled meanwhile, and
    none for the next who asks after two were overdrawn. -/
theorem grants_le_info :
    ∃ gs, (TokenBucket.mk 0).grants ⟨10, 10⟩
        [.take 100 12, .take 110 1, .overdraw 111 2, .take 115 5] = .ok gs ∧
      gs = [10, 1, 0, 0] ∧ gs.sum ≤ 10 + (115 - 100) / 10 := by
  obtain ⟨hle, hreturns⟩ :=
    grants_le ⟨10, 10⟩ ⟨0⟩ (.take 100 12) [.take 110 1, .overdraw 111 2, .take 115 5]
      (by decide) (by decide)
    (by decide) (by decide)
  obtain ⟨gs, hgs⟩ := hreturns ⟨by decide, by decide, by decide, by decide⟩
  refine ⟨gs, hgs, ?_, hle gs hgs⟩
  have hruns : (TokenBucket.mk 0).grants ⟨10, 10⟩
      [.take 100 12, .take 110 1, .overdraw 111 2, .take 115 5] = .ok [10, 1, 0, 0] := by
    decide
  exact Except.ok.inj (hgs.symm.trans hruns)

/-! ### After a refusal -/

/-- A bucket from which nothing was overdrawn: it was empty some time ago. -/
def Paid (b : TokenBucket) (now : ℤ) : Prop := b.ref ≤ now

theorem new_paid {fill : ℤ} (hr : 0 < r.token) (hfill : 0 ≤ fill) (h : new r now fill = .ok b) :
    b.Paid now := by
  have hnonneg := Int.mul_nonneg hfill hr.le
  rw [Paid, new_ok h]
  omega

theorem take_paid {t : ℤ} (hpaid : b.Paid t) (ht : t ≤ now) (h : b.take r now n = .ok (m, b')) :
    b'.Paid now := by
  rcases take_ok h with ⟨-, -, rfl⟩ | ⟨-, -, href⟩
  · exact le_trans hpaid ht
  · rw [Paid, href]
    omega

theorem cap_ge (hr : 0 < r.token) (hmax : 1 ≤ r.max) : r.token ≤ r.max * r.token := by
  have hle := Int.mul_le_mul_of_nonneg_right hmax hr.le
  rwa [Int.one_mul] at hle

/-- A refused call for one token finds less than one, and leaves nothing. -/
theorem take_one_refused (hr : 0 < r.token) (hmax : 1 ≤ r.max) (hpaid : b.Paid now)
    (h : b.take r now 1 = .ok (0, b')) :
    b'.ref = now := by
  have hcap := cap_ge hr hmax
  have hleft : b.left r now = min (now - b.ref) (r.max * r.token) := rfl
  rw [Paid] at hpaid
  rcases take_ok h with ⟨hempty, -, rfl⟩ | ⟨-, hzero, href⟩
  · omega
  · rw [Int.one_mul] at hzero href
    rcases Int.lt_or_le (b.left r now) r.token with hlt | hge
    · rw [href, min_eq_right hlt.le]
      omega
    · rw [min_eq_left hge, Int.tdiv_self hr.ne'] at hzero
      cases hzero

/-- Calls for one token each, at these times. -/
def ones (ts : List ℤ) : List Call := ts.map fun t => .take t 1

/-- From `t` on, each call comes sooner after the one before it than a token takes to fill. -/
def Hasty (r : Rate) : ℤ → List ℤ → Prop
  | _, [] => True
  | t, u :: us => (t ≤ u ∧ u - t < r.token) ∧ Hasty r u us

instance : ∀ t us, Decidable (Hasty r t us)
  | _, [] => isTrue trivial
  | t, u :: us =>
    have : Decidable (Hasty r u us) := instDecidableHasty u us
    inferInstanceAs (Decidable ((t ≤ u ∧ u - t < r.token) ∧ Hasty r u us))

/-- A call for one token of a bucket that was empty at `t` is granted it if a
    token's time has passed. -/
theorem take_one_empty {t : ℤ} (hr : 0 < r.token) (hmax : 1 ≤ r.max)
    (hcap : r.max * r.token < 2 ^ 63) (ht0 : 0 ≤ t) (ht : t ≤ now) (hnow : now < 2 ^ 63) :
    (now - t < r.token → (TokenBucket.mk t).take r now 1 = .ok (0, ⟨now⟩)) ∧
    (r.token ≤ now - t → ∃ b', (TokenBucket.mk t).take r now 1 = .ok (1, b')) := by
  have hone := cap_ge hr hmax
  have hleft : (TokenBucket.mk t).left r now = min (now - t) (r.max * r.token) := rfl
  have havail : (TokenBucket.mk t).avail r now = .ok ((TokenBucket.mk t).left r now) :=
    avail_ok.mpr ⟨⟨by simp only; omega, by omega⟩, rfl⟩
  have htake : 0 < (TokenBucket.mk t).left r now → (TokenBucket.mk t).take r now 1 =
      .ok ((min r.token ((TokenBucket.mk t).left r now)).tdiv r.token,
        ⟨now - (TokenBucket.mk t).left r now + min r.token ((TokenBucket.mk t).left r now)⟩) := by
    intro hpos
    refine bind_ok.mpr ⟨_, havail, ?_⟩
    simp only [if_neg (not_le.mpr hpos), Int.one_mul, bind_ok, pure_ok, tick_ok]
    exact ⟨_, ⟨by omega, rfl⟩, _, ⟨by omega, rfl⟩, _, ⟨by omega, rfl⟩, rfl⟩
  constructor
  · intro hlt
    have hwait : (TokenBucket.mk t).left r now = now - t := by omega
    rcases Int.lt_or_le 0 ((TokenBucket.mk t).left r now) with hpos | hempty
    · rw [htake hpos, hwait, min_eq_right hlt.le, Int.tdiv_eq_ediv_of_nonneg (by omega),
        Int.ediv_eq_zero_of_lt (by omega) hlt, Int.sub_add_cancel]
    · obtain rfl : t = now := by omega
      exact bind_ok.mpr ⟨_, havail, by rw [if_pos hempty]; rfl⟩
  · intro hge
    have hgranted := htake (by omega)
    rw [min_eq_left (by omega), Int.tdiv_self hr.ne'] at hgranted
    exact ⟨_, hgranted⟩

/-- Hasty calls to an empty bucket are refused and leave it empty, and it is the wait
    before a call that decides. -/
theorem grants_hasty (hr : 0 < r.token) (hmax : 1 ≤ r.max) (hcap : r.max * r.token < 2 ^ 63)
    {v : ℤ} (hv : v < 2 ^ 63) :
    ∀ (us : List ℤ) {t : ℤ}, 0 ≤ t → Hasty r t us → lastNow t (ones us) ≤ v →
      (TokenBucket.mk t).grants r (ones (us ++ [v])) =
      .ok (List.replicate us.length 0 ++ [if r.token ≤ v - lastNow t (ones us) then 1 else 0])
  | [], t, ht, _, hlast => by
    obtain ⟨hrefused, hgranted⟩ := take_one_empty hr hmax hcap ht hlast hv
    rcases Int.lt_or_le (v - t) r.token with hlt | hge
    · exact bind_ok.mpr
        ⟨_, hrefused hlt, by simp [grants, ones, lastNow, pure, Except.pure, not_le.mpr hlt]⟩
    · obtain ⟨b', htake⟩ := hgranted hge
      exact bind_ok.mpr ⟨_, htake, by simp [grants, ones, lastNow, pure, Except.pure, if_pos hge]⟩
  | u :: us, t, ht, hh, hlast => by
    obtain ⟨⟨htu, hgap⟩, hh⟩ := hh
    have hu : u ≤ v := le_trans (hasty_last us hh) hlast
    obtain ⟨hrefused, -⟩ := take_one_empty hr hmax hcap ht htu (by omega)
    have hrest := grants_hasty hr hmax hcap hv us (ht.trans htu) hh hlast
    exact bind_ok.mpr ⟨_, hrefused hgap, bind_ok.mpr ⟨_, hrest, rfl⟩⟩
where
  hasty_last : ∀ (us : List ℤ) {t : ℤ}, Hasty r t us → t ≤ lastNow t (ones us)
    | [], _, _ => le_rfl
    | _ :: us, _, h => le_trans h.1.1 (hasty_last us h.2)

theorem after_paid :
    ∀ (cs : List Call) {b b' : TokenBucket} {t now : ℤ}, b.Paid t → Steady t (cs ++ [.take now 1]) →
    (∀ c ∈ cs, ∃ u n, c = .take u n) → b.after r cs = .ok b' → b'.Paid now
  | [], _, _, _, _, hpaid, hs, _, h => by
    obtain rfl := Except.ok.inj h
    exact le_trans hpaid hs.1
  | c :: cs, b, b', t, now, hpaid, hs, htakes, h => by
    obtain ⟨u, n, rfl⟩ := htakes c List.mem_cons_self
    obtain ⟨w, hstep, h⟩ := bind_ok.mp h
    obtain ⟨⟨m, w⟩, htake, heq⟩ := bind_ok.mp hstep
    cases heq
    exact after_paid cs (take_paid hpaid hs.1 htake) hs.2
      (fun x hx => htakes x (List.mem_cons_of_mem _ hx)) h

/-- Whatever was taken from a bucket before: once a call for one token is refused, so is every later
    one for as long as each comes sooner after the one before it than a token takes to fill; and the
    call after these is granted a token exactly when it does not. -/
theorem refused_until (r : Rate) {b0 b b' : TokenBucket} (built fill : ℤ) (cs : List Call) (t : ℤ)
    (us : List ℤ) (v : ℤ) (hr : 0 < r.token) (hmax : 1 ≤ r.max) (hfill : 0 ≤ fill)
    (htakes : ∀ c ∈ cs, ∃ u n, c = .take u n) (hsteady : Steady built (cs ++ [.take t 1]))
    (hnew : new r built fill = .ok b0) (hafter : b0.after r cs = .ok b)
    (hrefused : b.take r t 1 = .ok (0, b')) (ht : 0 ≤ t) (hhasty : Hasty r t us)
    (hlast : lastNow t (ones us) ≤ v) (hv : v < 2 ^ 63) :
    b'.grants r (ones (us ++ [v])) =
      .ok (List.replicate us.length 0 ++ [if r.token ≤ v - lastNow t (ones us) then 1 else 0]) := by
  have hpaid : b.Paid t := after_paid cs (new_paid hr hfill hnew) hsteady htakes hafter
  obtain ⟨a, havail, -⟩ := bind_ok.mp hrefused
  obtain ⟨⟨-, -, hcap⟩, -⟩ := avail_ok.mp havail
  obtain ⟨ref⟩ := b'
  obtain rfl : ref = t := take_one_refused hr hmax hpaid hrefused
  exact grants_hasty hr hmax hcap hv us ht hhasty hlast

/-- A token takes ten ticks. One is granted at 100, those who ask at 109, 118 and 127 are refused,
    and the one who asks ten ticks after that is granted. -/
theorem refused_until_polling :
    ∃ b0 b b' : TokenBucket, new ⟨10, 1⟩ 100 1 = .ok b0 ∧ b0.take ⟨10, 1⟩ 100 1 = .ok (1, b) ∧
      b.take ⟨10, 1⟩ 109 1 = .ok (0, b') ∧
      b'.grants ⟨10, 1⟩ (ones ([118, 127] ++ [137])) = .ok [0, 0, 1] := by
  have hbuilt : new ⟨10, 1⟩ 100 1 = .ok ⟨90⟩ := by decide
  have hafter : (TokenBucket.mk 90).after ⟨10, 1⟩ [.take 100 1] = .ok ⟨100⟩ := by decide
  have hrefused : (TokenBucket.mk 100).take ⟨10, 1⟩ 109 1 = .ok (0, ⟨109⟩) := by decide
  refine ⟨⟨90⟩, ⟨100⟩, ⟨109⟩, hbuilt, by decide, hrefused, ?_⟩
  exact refused_until ⟨10, 1⟩ 100 1 [.take 100 1] 109 [118, 127] 137 (by decide) (by decide)
    (by decide) (by simp) (by decide) hbuilt hafter hrefused (by decide) (by decide)
    (by decide) (by decide)

end Matching.Common.TokenBucket
