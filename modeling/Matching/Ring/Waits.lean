import Matching.Ring.Barrier

/-! `wait` and `try_wait` of the two barriers where `ready_cache_` may be shared: one step is one
    read or write of `ready_cache_`, `ready_` or a flag. What a waiting thread has seen is `Room.Ok`
    for the single-thread barrier, any number of threads waiting, and `Look.Ok` for the multi-thread
    barrier with one thread waiting. -/

namespace Matching.Ring

/-! ### `ring_buffer_barrier_st` -/

/-- Where a thread is in `wait` or `try_wait` of a single-thread barrier: about to compare
    `ready_cache_`, to read `ready_`, to write what it read to `ready_cache_`, to compare for the
    result, to read the result. -/
inductive Room where
  | test
  | load
  | store (v : ℕ)
  | judge
  | result
  deriving DecidableEq, Repr

/-- One step of `wait(min)` or `try_wait(min)`: the wait goes on, or returns a position. -/
def BarrierSt.look (b : BarrierSt) (tries : Bool) (min : ℕ) : Room → BarrierSt × (Room ⊕ ℕ)
  | .test => (b, .inl (if b.readyCache < min then .load else if tries then .judge else .result))
  | .load => (b, .inl (.store b.ready))
  | .store v => ({ b with readyCache := v }, .inl (if tries then .judge else .test))
  | .judge => (b, if b.readyCache < min then .inr 0 else .inl .result)
  | .result => (b, .inr b.readyCache)

/-- What a waiting thread has seen of a barrier that began at `start` and has reached `ready`. -/
def Room.Ok (start min ready : ℕ) (tries : Bool) : Room → Prop
  | .test | .load => True
  | .store v => start ≤ v ∧ v ≤ ready
  | .judge => tries = true
  | .result => min ≤ ready

theorem Room.Ok.mono {start min ready ready' : ℕ} {tries : Bool} {room : Room}
    (h : room.Ok start min ready tries) (hle : ready ≤ ready') :
    room.Ok start min ready' tries := by
  cases room with
  | test => trivial
  | load => trivial
  | store v => exact ⟨h.1, h.2.trans hle⟩
  | judge => exact h
  | result => exact h.trans hle

/-- A step of a wait changes only the cached position, to one that was reached; a wait that is over
    has seen what it waits for, or is a try that gives up. -/
theorem BarrierSt.look_spec {b : BarrierSt} {tries : Bool} {start min : ℕ} {room : Room}
    (hstart : 0 < start) (hcache : start ≤ b.readyCache ∧ b.readyCache ≤ b.ready)
    (hroom : room.Ok start min b.ready tries) :
    let r := b.look tries min room
    r.1 = { b with readyCache := r.1.readyCache } ∧
      (start ≤ r.1.readyCache ∧ r.1.readyCache ≤ b.ready) ∧
      Sum.elim (Room.Ok start min b.ready tries)
      (fun got => (tries = true ∧ got = 0) ∨ (min ≤ b.ready ∧ got ≠ 0)) r.2 := by
  cases room with
  | test =>
    refine ⟨rfl, hcache, ?_⟩
    simp only [look]
    split
    · trivial
    · cases tries with
      | true => exact rfl
      | false => exact show min ≤ b.ready by omega
  | load => exact ⟨rfl, hcache, hcache.1.trans hcache.2, le_refl _⟩
  | store v =>
    refine ⟨rfl, hroom, ?_⟩
    cases tries with
    | true => exact rfl
    | false => trivial
  | judge =>
    refine ⟨rfl, hcache, ?_⟩
    simp only [look]
    split
    · exact .inl ⟨hroom, rfl⟩
    · exact show min ≤ b.ready by omega
  | result => exact ⟨rfl, hcache, .inr ⟨hroom, show b.readyCache ≠ 0 by omega⟩⟩

/-! ### `ring_buffer_barrier_mt` -/

/-- Where a thread is in `wait` or `try_wait` of a multi-thread barrier. It compares `ready_cache_`,
    reads `ready_` into it and `pre_ready` from it; the loop compares `ready_cache_`, reads the flag
    of `pre_ready` and, at the end of the flags, calls `compare_exchange_weak` with `ready_cache_`
    as the expected value. -/
inductive Look where
  | enter
  | load
  | store (v : ℕ)
  | begin
  | test (pre : ℕ)
  | walk (pre : ℕ)
  | expect (pre : ℕ)
  | swap (pre seen : ℕ)
  | keep (pre : ℕ)
  | judge (pre : ℕ)
  | missed (v : ℕ)
  | result
  deriving DecidableEq, Repr

/-- One step of `wait(min)` or `try_wait(min)`: the wait goes on, or returns a position. `weak` says
    that `compare_exchange_weak` fails although the values agree. -/
def BarrierMt.look (SIZE : ℕ) (b : BarrierMt) (tries : Bool) (min : ℕ) (weak : Bool) :
    Look → BarrierMt × (Look ⊕ ℕ)
  | .enter => (b, .inl (if b.readyCache > min then .result else .load))
  | .load => (b, .inl (.store b.ready))
  | .store v => ({ b with readyCache := v }, .inl .begin)
  | .begin => (b, .inl (.test b.readyCache))
  | .test pre => (b, .inl (if b.readyCache < min then .walk pre else .result))
  | .walk pre =>
    let nextReady := b.flags (mode SIZE pre)
    (b, .inl (if nextReady ≤ pre then .expect pre else .test nextReady))
  | .expect pre => (b, .inl (.swap pre b.readyCache))
  | .swap pre seen =>
    if b.ready = seen ∧ weak = false then ({ b with ready := pre }, .inl (.keep pre))
    else (b, .inl (.missed b.ready))
  | .keep pre => ({ b with readyCache := pre }, .inl (if tries then .judge pre else .test pre))
  | .judge pre => (b, if b.readyCache < min then .inr 0 else .inl (.test pre))
  | .missed v => ({ b with readyCache := v }, .inl .load)
  | .result => (b, .inr b.readyCache)

/-- A wait reserves and finishes nothing. -/
theorem BarrierMt.look_tickets (SIZE : ℕ) (b : BarrierMt) (tries : Bool) (min : ℕ) (weak : Bool)
    (look : Look) :
    (b.look SIZE tries min weak look).1.tickets = b.tickets := by
  cases look with
  | swap pre seen =>
    simp only [BarrierMt.look]
    split <;> rfl
  | _ => rfl

/-- What the only thread that waits has seen: it alone changes `ready_cache_` and `ready_`, and it
    follows the flags of finished blocks. -/
def Look.Ok (b : BarrierMt) (tries : Bool) (min : ℕ) : Look → Prop
  | .enter | .load => True
  | .store v | .missed v => v = b.ready
  | .begin => b.readyCache = b.ready
  | .test pre | .walk pre | .expect pre =>
    b.readyCache = b.ready ∧ b.ready ≤ pre ∧ b.tickets.Prefix pre
  | .swap pre seen => seen = b.ready ∧ b.readyCache = b.ready ∧ b.ready ≤ pre ∧ b.tickets.Prefix pre
  | .keep pre => b.ready = pre
  | .judge pre => tries = true ∧ b.readyCache = b.ready ∧ b.ready = pre
  | .result => min ≤ b.readyCache

/-- What was seen stays right when blocks are taken and finished. -/
theorem Look.Ok.mono {b b' : BarrierMt} {tries : Bool} {min : ℕ} {look : Look}
    (h : look.Ok b tries min) (hready : b'.ready = b.ready)
    (hcache : b'.readyCache = b.readyCache) (hpre : ∀ p, b.tickets.Prefix p → b'.tickets.Prefix p) :
    look.Ok b' tries min := by
  cases look with
  | enter => trivial
  | load => trivial
  | store v => exact h.trans hready.symm
  | missed v => exact h.trans hready.symm
  | begin => exact (hcache.trans h).trans hready.symm
  | test pre => exact ⟨(hcache.trans h.1).trans hready.symm, hready ▸ h.2.1, hpre pre h.2.2⟩
  | walk pre => exact ⟨(hcache.trans h.1).trans hready.symm, hready ▸ h.2.1, hpre pre h.2.2⟩
  | expect pre => exact ⟨(hcache.trans h.1).trans hready.symm, hready ▸ h.2.1, hpre pre h.2.2⟩
  | swap pre seen =>
      exact ⟨h.1.trans hready.symm, (hcache.trans h.2.1).trans hready.symm, hready ▸ h.2.2.1,
        hpre pre h.2.2.2⟩
  | keep pre => exact hready.trans h
  | judge pre => exact ⟨h.1, (hcache.trans h.2.1).trans hready.symm, hready.trans h.2.2⟩
  | result => exact h.trans hcache.ge

/-- What holds of a multi-thread barrier one thread waits for. -/
structure BarrierMt.Wf (SIZE : ℕ) (b : BarrierMt) : Prop where
  tickets : b.tickets.Wf (sizeToPow2 SIZE) (sizeToPow2 SIZE) b.ready
  cache : sizeToPow2 SIZE ≤ b.readyCache ∧ b.readyCache ≤ b.ready

/-- A step of a wait leaves the blocks alone and the published position only grows, to the end of
    finished blocks; a wait that is over has seen what it waits for, or is a try that gives up. -/
theorem BarrierMt.look_spec {SIZE : ℕ} {b : BarrierMt} {tries : Bool} {min : ℕ} {look : Look}
    (weak : Bool) (h : b.Wf SIZE) (hlook : look.Ok b tries min) :
    let r := b.look SIZE tries min weak look
    b.ready ≤ r.1.ready ∧ r.1.Wf SIZE ∧
      Sum.elim (Look.Ok r.1 tries min)
        (fun got => (tries = true ∧ got = 0) ∨ (min ≤ r.1.ready ∧ got ≠ 0)) r.2 := by
  obtain ⟨hwf, hlow, hle⟩ := h
  have hpos := sizeToPow2_pos SIZE
  cases look with
  | enter =>
    refine ⟨le_refl _, ⟨hwf, hlow, hle⟩, ?_⟩
    simp only [look]
    split
    · exact show min ≤ b.readyCache by omega
    · trivial
  | load => exact ⟨le_refl _, ⟨hwf, hlow, hle⟩, rfl⟩
  | store v =>
    obtain rfl : v = b.ready := hlook
    exact ⟨le_refl _, ⟨hwf, hlow.trans hle, le_refl _⟩, rfl⟩
  | begin => exact ⟨le_refl _, ⟨hwf, hlow, hle⟩, hlook, hlook.ge, hlook ▸ hwf.ready⟩
  | test pre =>
    refine ⟨le_refl _, ⟨hwf, hlow, hle⟩, ?_⟩
    simp only [look]
    split
    · exact hlook
    · exact show min ≤ b.readyCache by omega
  | walk pre =>
    obtain ⟨hsame, hpast, hpre⟩ := hlook
    refine ⟨le_refl _, ⟨hwf, hlow, hle⟩, ?_⟩
    simp only [look, mode_eq]
    split
    · exact ⟨hsame, hpast, hpre⟩
    · next hflag => exact ⟨hsame, by omega, hwf.follow hpre hpast (Nat.lt_of_not_le hflag)⟩
  | expect pre => exact ⟨le_refl _, ⟨hwf, hlow, hle⟩, hlook.1, hlook⟩
  | swap pre seen =>
    obtain ⟨-, hsame, hpast, hpre⟩ := hlook
    simp only [look]
    split
    · exact ⟨hpast, ⟨hwf.publish hpre hpast, hlow, hle.trans hpast⟩, rfl⟩
    · exact ⟨le_refl _, ⟨hwf, hlow, hle⟩, rfl⟩
  | keep pre =>
    obtain rfl : b.ready = pre := hlook
    refine ⟨le_refl _, ⟨hwf, hlow.trans hle, le_refl _⟩, ?_⟩
    cases tries with
    | true => exact ⟨rfl, rfl, rfl⟩
    | false => exact ⟨rfl, le_refl _, hwf.ready⟩
  | judge pre =>
    obtain ⟨htries, hsame, rfl⟩ := hlook
    refine ⟨le_refl _, ⟨hwf, hlow, hle⟩, ?_⟩
    simp only [look]
    split
    · exact .inl ⟨htries, rfl⟩
    · exact ⟨hsame, le_refl _, hwf.ready⟩
  | missed v =>
    obtain rfl : v = b.ready := hlook
    exact ⟨le_refl _, ⟨hwf, hlow.trans hle, le_refl _⟩, trivial⟩
  | result =>
    exact ⟨le_refl _, ⟨hwf, hlow, hle⟩, .inr ⟨hlook.trans hle, show b.readyCache ≠ 0 by omega⟩⟩

end Matching.Ring
