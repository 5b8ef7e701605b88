import Matching.Lib.Machine
import Matching.Ring.Waiters

/-! What several threads that wait for one `ring_buffer_barrier_mt` publish. A scan of the flags
    follows blocks that are set only as long as `ready_` stays where the scan began, and the
    compare-and-swap at its end is to find that out. But its expected value is `ready_cache_` as
    another waiter may have written it since: then what a scan from an old position found takes the
    place of a newer one. -/

namespace Matching.Ring

variable {ι : Type} {SIZE : ℕ} {b b' : BarrierMt}

/-- What a waiter knows of the barrier: a scan from where `ready_` is has
    followed blocks that are set. -/
def Waiter.Knows (SIZE : ℕ) (b : BarrierMt) (w : Waiter) : Prop :=
  match w.look with
  | .enter | .load | .begin => True
  | .store v | .missed v => sizeToPow2 SIZE ≤ v ∧ v ≤ b.ready
  | .test pre | .walk pre | .expect pre | .swap pre _ =>
    w.began ≤ b.ready ∧
      (b.ready = w.began → w.began ≤ pre ∧ b.tickets.Reached (sizeToPow2 SIZE) pre)
  | .keep pre => sizeToPow2 SIZE ≤ pre ∧ pre ≤ b.ready ∧ w.began = pre
  | .judge pre => w.tries = true ∧ pre ≤ b.ready ∧ w.began = pre
  | .result => w.min ≤ b.ready

/-- The cached position was published, and so is what it says. -/
structure BarrierMt.Shared (SIZE told : ℕ) (b : BarrierMt) : Prop where
  roomy : b.tickets.Roomy (sizeToPow2 SIZE) told
  ready : b.tickets.Reached (sizeToPow2 SIZE) b.ready
  told : told ≤ b.ready
  cache : sizeToPow2 SIZE ≤ b.readyCache ∧ b.readyCache ≤ b.ready

/-- What was known stays right when `ready_` grows and blocks are set. -/
theorem Waiter.Knows.mono {w : Waiter} (h : w.Knows SIZE b) (hready : b.ready ≤ b'.ready)
    (hreached : ∀ p, b.tickets.Reached (sizeToPow2 SIZE) p →
      b'.tickets.Reached (sizeToPow2 SIZE) p) : w.Knows SIZE b' := by
  have hscan : ∀ pre,
      (w.began ≤ b.ready ∧
      (b.ready = w.began → w.began ≤ pre ∧ b.tickets.Reached (sizeToPow2 SIZE) pre)) →
      w.began ≤ b'.ready ∧
      (b'.ready = w.began → w.began ≤ pre ∧ b'.tickets.Reached (sizeToPow2 SIZE) pre) := by
    rintro pre ⟨hle, hpre⟩
    refine ⟨hle.trans hready, fun heq => ?_⟩
    obtain ⟨hpast, hset⟩ := hpre (by omega)
    exact ⟨hpast, hreached pre hset⟩
  unfold Knows at h ⊢
  cases hlook : w.look with
  | enter => trivial
  | load => trivial
  | begin => trivial
  | store v =>
    rw [hlook] at h
    exact ⟨h.1, h.2.trans hready⟩
  | missed v =>
    rw [hlook] at h
    exact ⟨h.1, h.2.trans hready⟩
  | test pre =>
    rw [hlook] at h
    exact hscan pre h
  | walk pre =>
    rw [hlook] at h
    exact hscan pre h
  | expect pre =>
    rw [hlook] at h
    exact hscan pre h
  | swap pre seen =>
    rw [hlook] at h
    exact hscan pre h
  | keep pre =>
    rw [hlook] at h
    exact ⟨h.1, h.2.1.trans hready, h.2.2⟩
  | judge pre =>
    rw [hlook] at h
    exact ⟨h.1, h.2.1.trans hready, h.2.2⟩
  | result =>
    rw [hlook] at h
    exact h.trans hready

/-- Where a scan begins or goes on from the position it has published, nothing
    is to be followed yet. -/
theorem Waiter.scan_start {began pre : ℕ} (h : b.tickets.Reached (sizeToPow2 SIZE) b.ready)
    (hle : pre ≤ b.ready) (heq : began = pre) :
    began ≤ b.ready ∧ (b.ready = began → began ≤ pre ∧ b.tickets.Reached (sizeToPow2 SIZE) pre) :=
  ⟨heq.trans_le hle, fun hready => ⟨heq.le, (hready.trans heq) ▸ h⟩⟩

/-- A step of a wait: the published position grows, to the end of blocks that are set, and the
    blocks stay; a wait that is over has seen what it waits for, or is a try that gives up. -/
theorem BarrierMt.Shared.look {told : ℕ} {w : Waiter} {weak : Bool} (h : b.Shared SIZE told)
    (hw : w.Knows SIZE b) (hcurrent : weak = false → w.current b.ready = true) :
    let r := b.look SIZE w.tries w.min weak w.look
    b.ready ≤ r.1.ready ∧ r.1.tickets = b.tickets ∧ r.1.Shared SIZE told ∧
      Sum.elim (fun look => (w.next look).Knows SIZE r.1)
        (fun got => (w.tries = true ∧ got = 0) ∨ w.min ≤ r.1.ready) r.2 := by
  obtain ⟨hroomy, hready, htold, hlow, hle⟩ := id h
  obtain ⟨tries, min, look, began⟩ := w
  cases look with
  | enter =>
    refine ⟨le_refl _, rfl, h, ?_⟩
    simp only [BarrierMt.look]
    split
    · exact show min ≤ b.ready by omega
    · trivial
  | load => exact ⟨le_refl _, rfl, h, hlow.trans hle, le_refl _⟩
  | store v => exact ⟨le_refl _, rfl, ⟨hroomy, hready, htold, hw⟩, trivial⟩
  | begin => exact ⟨le_refl _, rfl, h, Waiter.scan_start hready hle rfl⟩
  | test pre =>
    refine ⟨le_refl _, rfl, h, ?_⟩
    simp only [BarrierMt.look]
    split
    · exact hw
    · exact show min ≤ b.ready by omega
  | walk pre =>
    obtain ⟨hbegan, hpre⟩ := hw
    refine ⟨le_refl _, rfl, h, ?_⟩
    simp only [BarrierMt.look, mode_eq]
    split
    · exact ⟨hbegan, hpre⟩
    · next hflag =>
      refine ⟨hbegan, fun heq => ?_⟩
      obtain ⟨hpast, hset⟩ := hpre heq
      have hroom : told ≤ pre := (htold.trans heq.le).trans hpast
      exact ⟨hpast.trans (Nat.lt_of_not_le hflag).le,
        hroomy.follow hset hroom (Nat.lt_of_not_le hflag)⟩
  | expect pre => exact ⟨le_refl _, rfl, h, hw⟩
  | swap pre seen =>
    obtain ⟨hbegan, hpre⟩ := hw
    simp only [BarrierMt.look]
    split
    · next hswap =>
      -- the scan is from where `ready_` is
      have hsame : seen = began := of_decide_eq_true (hcurrent hswap.2) hswap.1
      obtain ⟨hpast, hset⟩ := hpre (hswap.1.trans hsame)
      have hgrows : b.ready ≤ pre := (hswap.1.trans hsame).trans_le hpast
      exact ⟨hgrows, rfl, ⟨hroomy, hset, htold.trans hgrows, hlow, hle.trans hgrows⟩,
        (hlow.trans hle).trans hgrows, le_refl _, rfl⟩
    · exact ⟨le_refl _, rfl, h, hlow.trans hle, le_refl _⟩
  | keep pre =>
    obtain ⟨hlowPre, hlePre, heq⟩ := hw
    refine ⟨le_refl _, rfl, ⟨hroomy, hready, htold, hlowPre, hlePre⟩, ?_⟩
    cases tries with
    | true => exact ⟨rfl, hlePre, heq⟩
    | false => exact Waiter.scan_start hready hlePre heq
  | judge pre =>
    obtain ⟨htries, hlePre, heq⟩ := hw
    refine ⟨le_refl _, rfl, h, ?_⟩
    simp only [BarrierMt.look]
    split
    · exact .inl ⟨htries, rfl⟩
    · exact Waiter.scan_start hready hlePre heq
  | missed v => exact ⟨le_refl _, rfl, ⟨hroomy, hready, htold, hw⟩, trivial⟩
  | result => exact ⟨le_refl _, rfl, h, .inr hw⟩

namespace Waiters

variable {s : Waiters ι}

/-- What holds of a barrier and its waiters when no stale scan is published. -/
structure Sound (SIZE : ℕ) (s : Waiters ι) : Prop where
  shared : s.barrier.Shared SIZE s.told
  knows : ∀ w, ∀ x ∈ s.waits w, x.Knows SIZE s.barrier

theorem start_sound : (start SIZE : Waiters ι).Sound SIZE where
  shared :=
    ⟨Tickets.fresh_roomy, fun _ hlo hhi => absurd hhi (Nat.not_lt_of_le hlo), le_refl _,
      le_refl _, le_refl _⟩
  knows := fun _ _ h => nomatch h

variable [DecidableEq ι]

/-- The other waiters know what they knew. -/
theorem Sound.others {w : ι} {next : Option Waiter} {b' : BarrierMt} {told : ℕ} (h : s.Sound SIZE)
    (hshared : b'.Shared SIZE told) (hready : s.barrier.ready ≤ b'.ready)
    (hsame : b'.tickets = s.barrier.tickets) (hnext : ∀ x ∈ next, x.Knows SIZE b') :
    (Waiters.move { s with barrier := b', told := told } w next).Sound SIZE where
  shared := hshared
  knows := by
    intro v x hx
    simp only [move, Function.update_apply] at hx
    split at hx
    · exact hnext x hx
    · exact (h.knows v x hx).mono hready fun p hp => hsame ▸ hp

theorem looks_sound {w : ι} {weak : Bool} (h : s.Sound SIZE)
    (hcurrent : weak = false → s.undisturbed (.looks w false) = true) :
    s.barrier.ready ≤ (s.looks SIZE w weak).barrier.ready ∧ (s.looks SIZE w weak).Sound SIZE := by
  rcases hx : s.waits w with _ | x
  · simp only [looks, hx]
    exact ⟨le_refl _, h⟩
  · have hcur : weak = false → x.current s.barrier.ready = true := fun hweak => by
      simpa [undisturbed, hx] using hcurrent hweak
    obtain ⟨hready, hsame, hshared, hnext⟩ := h.shared.look (h.knows w x hx) hcur
    simp only [looks, hx]
    generalize s.barrier.look SIZE x.tries x.min weak x.look = r at hready hsame hshared hnext ⊢
    obtain ⟨b', look | got⟩ := r
    · exact ⟨hready, h.others hshared hready hsame fun y hy => Option.some.inj hy ▸ hnext⟩
    · refine ⟨hready, h.others ?_ hready hsame nofun⟩
      split
      · exact hshared
      · next hover =>
        have hmin : x.min ≤ b'.ready := hnext.resolve_left hover
        obtain ⟨hroomy, hreached, htold, hcache⟩ := hshared
        exact ⟨hroomy.mono (Nat.le_max_left _ _), hreached, Nat.max_le.mpr ⟨htold, hmin⟩, hcache⟩

theorem step_sound {a : WaitersAct ι} (h : s.Sound SIZE) (hcalled : s.Called SIZE a)
    (hcurrent : s.undisturbed a = true) :
    s.barrier.ready ≤ (s.step SIZE a).barrier.ready ∧ (s.step SIZE a).Sound SIZE := by
  obtain ⟨hroomy, hready, htold, hcache⟩ := h.shared
  cases a with
  | reserves size =>
    obtain ⟨hpos, hlt⟩ := hcalled
    have htake := BarrierMt.reserve_tickets hlt
    have hreached : ∀ p, s.barrier.tickets.Reached (sizeToPow2 SIZE) p →
        (s.barrier.reserve size).2.tickets.Reached (sizeToPow2 SIZE) p :=
          fun p hp => htake ▸ hp.take hroomy
    refine ⟨le_refl _, ⟨htake ▸ hroomy.take hpos, hreached _ hready, htold, hcache⟩,
      fun w x hx => ?_⟩
    exact (h.knows w x hx).mono (le_refl _) hreached
  | sets base =>
    obtain ⟨hends, hwin⟩ := hcalled
    have hfinish : (s.barrier.set base (mode SIZE base) (s.barrier.ends base)).tickets =
        s.barrier.tickets.finish (sizeToPow2 SIZE) base := BarrierMt.set_tickets rfl
    have hreached : ∀ p, s.barrier.tickets.Reached (sizeToPow2 SIZE) p →
        (s.barrier.set base (mode SIZE base) (s.barrier.ends base)).tickets.Reached
          (sizeToPow2 SIZE) p := fun p hp => hfinish ▸ hp.finish
    refine ⟨le_refl _, ⟨hfinish ▸ hroomy.finish hends hwin, hreached _ hready, htold, hcache⟩,
      fun w x hx => ?_⟩
    exact (h.knows w x hx).mono (le_refl _) hreached
  | begins w tries min =>
    simp only [step]
    split
    · exact ⟨le_refl _, h.others h.shared (le_refl _) rfl fun x hx => Option.some.inj hx ▸ trivial⟩
    · exact ⟨le_refl _, h⟩
  | looks w weak =>
    refine looks_sound h fun hweak => ?_
    subst hweak
    exact hcurrent

/-- In every interleaving of any number of waiters in which no compare-and-swap succeeds but where
    `ready_` is the position its caller's scan began from: the published position never goes back,
    and what is published, and what a wait was over for, is set. -/
theorem waits_advance (SIZE : ℕ) (acts : List (WaitersAct ι))
    (hok : Along (step SIZE) (fun s a => s.Called SIZE a ∧ s.undisturbed a = true)
      (start SIZE) acts) :
    Along (step SIZE) (Advances SIZE) (start SIZE) acts := by
  refine Along.gives (fun {s a} hok h => ?_) acts hok start_sound
  obtain ⟨hready, hsound⟩ := step_sound h hok.1 hok.2
  exact ⟨hsound, hready, hsound.shared.ready,
    fun i hlo hhi => hsound.shared.ready i hlo (hhi.trans_le hsound.shared.told)⟩

/-- Two waiters scan from one position; the one whose compare-and-swap fails begins
    again from the new one. -/
def sameScan : List (WaitersAct Bool) :=
  [.reserves 1, .reserves 1, .sets 4, .sets 5, .begins false false 6] ++
    List.replicate 10 (.looks false false) ++ .begins true true 6 ::
    List.replicate 11 (.looks true false) ++ List.replicate 5 (.looks false false) ++
    List.replicate 8 (.looks true false)

theorem waits_advance_sameScan : Along (step 4) (Advances 4) (start 4) sameScan ∧
    (sameScan.foldl (step 4) (start 4)).told = 6 ∧
      ∀ w, (sameScan.foldl (step 4) (start 4)).waits w = none :=
  ⟨waits_advance 4 sameScan (by decide +kernel), by decide +kernel, by decide +kernel⟩

/-- A waiter has found one block set when another publishes two; it swaps the cached position the
    other wrote for its own. -/
def staleScan : List (WaitersAct Bool) :=
  [.reserves 1, .reserves 1, .sets 4, .begins false false 6] ++
    List.replicate 8 (.looks false false) ++ [.sets 5, .begins true false 6] ++
    List.replicate 15 (.looks true false) ++ [.looks false false]

theorem staleScan_goes_back :
    Along (step 4) (Called 4) (start 4) (staleScan ++ [.looks false false]) ∧
    ¬Along (step 4) (Advances 4) (start 4) (staleScan ++ [.looks false false]) := by
  refine ⟨by decide +kernel, fun h => ?_⟩
  have hback : ¬(staleScan.foldl (step 4) (start 4)).barrier.ready ≤
      ((staleScan.foldl (step 4) (start 4)).step 4 (.looks false false)).barrier.ready := by
        decide +kernel
  exact hback ((Along.append staleScan).mp h).2.1.1

end Waiters

end Matching.Ring
