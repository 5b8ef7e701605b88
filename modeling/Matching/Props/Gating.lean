import Matching.Lib.Machine
import Matching.Ring.Disruptor

/-! Disruptor producers overrun no consumer where the gated consumers cover the graph, and they
    cover it exactly when every consumer that none depends on is on the highest level. A
    multi-thread barrier of a consumer has to be waited for by one thread: its `ready_cache_` is the
    expected value of the exchange that publishes. -/

namespace Matching.Ring

open Graph

variable {κ τ : Type}

/-! ### What a setup has to promise -/

namespace Setup

/-- Only one thread waits for `u`. -/
def Sole (S : Setup κ τ) (u : κ) : Prop :=
  ∀ t t', u ∈ S.config.uppers (S.node t) → u ∈ S.config.uppers (S.node t') → t = t'

/-- `x` is a consumer with a multi-thread barrier. -/
def Many (S : Setup κ τ) (x : κ) : Prop := S.config.Consumer x ∧ S.multi x = true

/-- A single-thread barrier belongs to one thread. One thread waits for a consumer with a
    multi-thread barrier, and then for the disruptor if that has one too. -/
structure Fit (S : Setup κ τ) : Prop where
  single : ∀ t t', S.node t = S.node t' → S.multi (S.node t) = false → t = t'
  sole : ∀ x, S.Many x → S.Sole x ∧ (S.multi S.config.root = true → S.Sole S.config.root)

/-- What `configure` sees to: consumers wait for what they depend on, and the producers for
    consumers that cover the graph. -/
structure Gated (S : Setup κ τ) : Prop where
  rootless : S.config.linkSet S.config.root = []
  uppers : ∀ x, x ≠ S.config.root → S.config.uppers x = S.config.linkSet x
  gated : ∀ g ∈ S.config.uppers S.config.root, S.config.Consumer g
  rooted : ∀ x, S.config.Consumer x → Reaches S.config.linkSet x S.config.root
  covers : ∀ x, S.config.Consumer x → S.config.Covers x

/-- The barrier of `u` is kept track of: all but the disruptor's, when that is a multi-thread one
    that several threads may wait for, and those of pointers that are no consumers. -/
def Kept (S : Setup κ τ) (u : κ) : Prop :=
  S.multi u = true → S.config.Consumer u ∨ u = S.config.root ∧ ∃ x, S.Many x

variable {S : Setup κ τ}

theorem Gated.consumer_ne (h : S.Gated) {x : κ} (hx : S.config.Consumer x) : x ≠ S.config.root := by
  rintro rfl
  exact hx h.rootless

theorem kept_of_consumer {x : κ} (hx : S.config.Consumer x) : S.Kept x := fun _ => .inl hx

theorem Fit.sole_of_kept (h : S.Fit) {u : κ} (hu : S.Kept u) (hmulti : S.multi u = true) :
    S.Sole u := by
  rcases hu hmulti with hcons | ⟨rfl, x, hx⟩
  · exact (h.sole u ⟨hcons, hmulti⟩).1
  · exact (h.sole x hx).2 hmulti

end Setup

/-! ### What a barrier and a call promise -/

section Promises
variable (SIZE : ℕ)

/-- A barrier that is kept track of, of the kind its node has. -/
def Barrier.Ok (multi : Bool) (kept : Prop) : Barrier → Prop
  | .st b => multi = false ∧ sizeToPow2 SIZE ≤ b.readyCache ∧ b.readyCache ≤ b.ready
  | .mt b => multi = true ∧ sizeToPow2 SIZE ≤ b.reserved ∧ (kept → b.Wf SIZE)

/-- What a waiting thread has seen of the barrier. -/
def Phase.Ok (kept : Prop) (tries : Bool) (min : ℕ) : Phase → Barrier → Prop
  | .room r, .st b => r.Ok (sizeToPow2 SIZE) min b.ready tries
  | .look l, .mt b => kept → l.Ok b tries min
  | _, _ => False

/-- The block of `size` numbers at `base` is reserved and not set. -/
def Barrier.Holds (size base : ℕ) : Barrier → Prop
  | .st b => base = b.ready ∧ b.reserved = base + size
  | .mt b => b.ends base = base + size ∧ b.finished base = false ∧ 0 < size

/-- Nothing is reserved that is not set; in a try operation, `base` is the next number. -/
def Barrier.Open (base : ℕ) : Barrier → Prop
  | .st b => base = b.ready ∧ b.reserved = b.ready
  | .mt _ => True

/-- A block the calls are made for. -/
def Block (size base : ℕ) : Prop :=
  0 < size ∧ size ≤ sizeToPow2 SIZE ∧ sizeToPow2 SIZE ≤ base ∧ base + size < 2 ^ 64

variable [DecidableEq κ] (S : Setup κ τ)

/-- What node `x` needs from the barriers it waits for, to get to `p`. -/
def Setup.need (x : κ) (p : ℕ) : ℕ := if x = S.config.root then p - sizeToPow2 SIZE else p

/-- The barriers `us` have reached what node `x` needs to get to `p`. -/
def Setup.Seen (bs : κ → Barrier) (x : κ) (p : ℕ) (us : List κ) : Prop :=
  ∀ v ∈ us, S.Kept v → S.need SIZE x p ≤ (bs v).ready

/-- The number at which a block is reserved for the call. -/
def Call.base : Call κ → Option ℕ
  | .waits false _ base _ _ _ => some base
  | .copies _ base _ => some base
  | _ => none

/-- A call for node `x` holds its block, or has none yet, and what it has waited
    for has been reached. -/
def Call.Ok (bs : κ → Barrier) (x : κ) : Call κ → Prop
  | .idle => S.Kept x → ∃ base, (bs x).Open base
  | .waits tries size base rt us phase => Block SIZE size base ∧
      (S.Kept x → if tries then (bs x).Open base else (bs x).Holds size base) ∧
      ∃ passed u rest, us = u :: rest ∧ S.config.uppers x = passed ++ us ∧
        ((tries = true ∧ rt = 0) ∨ S.Seen SIZE bs x (base + size) passed) ∧
        phase.Ok SIZE (S.Kept u) tries (S.need SIZE x (base + size)) (bs u)
  | .swaps size base => Block SIZE size base ∧ (S.Kept x → (bs x).Open base) ∧
      S.Seen SIZE bs x (base + size) (S.config.uppers x)
  | .copies size base k => Block SIZE size base ∧ k ≤ size ∧ (S.Kept x → (bs x).Holds size base) ∧
      S.Seen SIZE bs x (base + size) (S.config.uppers x)

end Promises

section Mono
variable [DecidableEq κ] {SIZE : ℕ} {S : Setup κ τ} {bs bs' : κ → Barrier} {x : κ}

theorem Setup.Seen.mono {p : ℕ} {us : List κ} (h : S.Seen SIZE bs x p us)
    (hready : ∀ v, S.Kept v → (bs v).ready ≤ (bs' v).ready) : S.Seen SIZE bs' x p us :=
  fun v hv hk => (h v hv hk).trans (hready v hk)

/-- A call stays right when positions grow, its own block is left alone, and what it has seen of the
    barrier it waits for stays right. -/
theorem Call.Ok.mono {call : Call κ} (h : call.Ok SIZE S bs x)
    (hready : ∀ v, S.Kept v → (bs v).ready ≤ (bs' v).ready)
    (hopen : ∀ base, S.Kept x → (bs x).Open base → (bs' x).Open base)
    (hholds : ∀ size base, call.base = some base → S.Kept x → (bs x).Holds size base →
      (bs' x).Holds size base)
    (hphase : ∀ u ∈ S.config.uppers x, ∀ tries min (phase : Phase),
      phase.Ok SIZE (S.Kept u) tries min (bs u) → phase.Ok SIZE (S.Kept u) tries min (bs' u)) :
    call.Ok SIZE S bs' x := by
  cases call with
  | idle =>
    intro hk
    obtain ⟨base, hb⟩ := h hk
    exact ⟨base, hopen base hk hb⟩
  | waits tries size base rt us phase =>
    obtain ⟨hblock, hown, passed, u, rest, hus, hup, hseen, hph⟩ := h
    refine ⟨hblock, fun hk => ?_, passed, u, rest, hus, hup, hseen.imp id fun hs => hs.mono hready,
      hphase u ?_ _ _ _ hph⟩
    · cases tries with
      | true => exact hopen base hk (hown hk)
      | false => exact hholds size base rfl hk (hown hk)
    · rw [hup, hus]
      exact List.mem_append_right _ List.mem_cons_self
  | swaps size base =>
    obtain ⟨hblock, hown, hseen⟩ := h
    exact ⟨hblock, fun hk => hopen base hk (hown hk), hseen.mono hready⟩
  | copies size base k =>
    obtain ⟨hblock, hk, hown, hseen⟩ := h
    exact ⟨hblock, hk, fun hkept => hholds size base rfl hkept (hown hkept), hseen.mono hready⟩

/-- A call with a block holds it. -/
theorem Call.Ok.holds {call : Call κ} (h : call.Ok SIZE S bs x) {base : ℕ}
    (hbase : call.base = some base) (hk : S.Kept x) :
    ∃ size, (bs x).Holds size base := by
  cases call with
  | idle => cases hbase
  | waits tries size c rt us phase =>
    cases tries with
    | true => cases hbase
    | false =>
      cases hbase
      exact ⟨size, h.2.1 hk⟩
  | swaps => cases hbase
  | copies size c k =>
    cases hbase
    exact ⟨size, h.2.2.1 hk⟩

end Mono

theorem Barrier.Ok.open_of_multi {SIZE base : ℕ} {kept : Prop} {b : Barrier}
    (h : b.Ok SIZE true kept) : b.Open base := by
  cases b with
  | st b => exact nomatch h.1
  | mt b => trivial

theorem Barrier.open_tryReserve {b : Barrier} (h : ∃ base, b.Open base) : b.Open b.tryReserve := by
  obtain ⟨base, hb⟩ := h
  cases b with
  | st b => exact ⟨hb.2, hb.2⟩
  | mt b => trivial

theorem Barrier.Ok.low {SIZE : ℕ} {multi : Bool} {kept : Prop} {b : Barrier}
    (h : b.Ok SIZE multi kept) (hopen : multi = false → ∃ base, b.Open base) :
    sizeToPow2 SIZE ≤ b.tryReserve := by
  cases b with
  | st b =>
    obtain ⟨_, -, hres⟩ := hopen h.1
    exact (h.2.1.trans h.2.2).trans hres.ge
  | mt b => exact h.2.1

/-- Where `set_reserve` of a try operation returns true, it reserves the next numbers. -/
theorem Barrier.Ok.setReserve {SIZE : ℕ} {multi weak : Bool} {kept : Prop} {b b' : Barrier}
    {size base : ℕ} (h : b.Ok SIZE multi kept) (hopen : multi = false → b.Open base)
    (hset : b.setReserve base size weak = some b') :
    b' = (b.reserve size).2 ∧ base = b.tryReserve := by
  cases b with
  | st b =>
    obtain ⟨rfl, hres⟩ := hopen h.1
    cases hset
    exact ⟨by simp only [Barrier.reserve, BarrierSt.reserve, BarrierSt.setReserve, hres], hres.symm⟩
  | mt b =>
    simp only [Barrier.setReserve] at hset
    split at hset
    · next hsame =>
      cases hset
      exact ⟨rfl, hsame.1.symm⟩
    · cases hset

theorem Barrier.reserve_fst (b : Barrier) (size : ℕ) : (b.reserve size).1 = b.tryReserve := by
  cases b <;> rfl

theorem Barrier.reserve_enter (b : Barrier) (size : ℕ) : (b.reserve size).2.enter = b.enter := by
  cases b <;> rfl

theorem Setup.kept_of_single {S : Setup κ τ} {x : κ} (h : S.multi x = false) : S.Kept x :=
  fun hmulti => absurd (h.symm.trans hmulti) Bool.false_ne_true

namespace Disruptor

section
variable [DecidableEq κ] (SIZE : ℕ) (S : Setup κ τ)

structure Sound (s : Disruptor κ τ) : Prop where
  barriers : ∀ u, (s.barriers u).Ok SIZE (S.multi u) (S.Kept u)
  flow : ∀ u, S.Kept u → S.Seen SIZE s.barriers u (s.barriers u).ready (S.config.uppers u)
  finished : ∀ u b, S.Kept u → s.barriers u = .mt b → ∀ base, b.finished base = true →
    S.Seen SIZE s.barriers u (b.ends base) (S.config.uppers u)
  calls : ∀ t, (s.calls t).Ok SIZE S s.barriers (S.node t)
  apart : ∀ t t' base, S.node t = S.node t' → S.Kept (S.node t) → (s.calls t).base = some base →
    (s.calls t').base = some base → t = t'

/-- Calls for 1 to `buffer_size` slots, with sequence numbers that `uint64_t` holds. -/
def Clean (s : Disruptor κ τ) : DisruptorAct τ → Prop
  | .begins t _ size =>
    0 < size ∧ size ≤ sizeToPow2 SIZE ∧ (s.barriers (S.node t)).tryReserve + size < 2 ^ 64
  | .advances _ _ => True

instance (s : Disruptor κ τ) (r : DisruptorAct τ) : Decidable (s.Clean SIZE S r) := by
  cases r <;> unfold Clean <;> infer_instance

end

variable [DecidableEq κ] {SIZE : ℕ} {S : Setup κ τ} {s : Disruptor κ τ}

theorem start_sound : (start SIZE S).Sound SIZE S := by
  have hready : ∀ u, ((start SIZE S).barriers u).ready = sizeToPow2 SIZE := by
    intro u
    simp only [start, Barrier.reset]
    split <;> rfl
  refine ⟨fun u => ?_, fun u _ v hv _ => ?_, fun u b _ hb base hfin => ?_,
    fun t _ => ⟨sizeToPow2 SIZE, ?_⟩, fun _ _ _ _ _ h => nomatch h⟩
  · simp only [start, Barrier.reset]
    split
    · next h => exact ⟨h, le_refl _, fun _ => ⟨Tickets.fresh_wf, le_refl _, le_refl _⟩⟩
    · next h => exact ⟨Bool.eq_false_iff.mpr h, le_refl _, le_refl _⟩
  · rw [hready, hready, Setup.need]
    split <;> omega
  · simp only [start, Barrier.reset] at hb
    split at hb
    · cases hb
      cases hfin
    · cases hb
  · simp only [start, Barrier.reset]
    split
    · trivial
    · exact ⟨rfl, rfl⟩

omit [DecidableEq κ] in
theorem enter_ok {kept : Prop} {tries : Bool} {min : ℕ} (b : Barrier) :
    b.enter.Ok SIZE kept tries min b := by
  cases b with
  | st b => trivial
  | mt b => exact fun _ => trivial

/-- A call goes on to the next barrier, or past the last one. -/
theorem goesOn_ok (passed : List κ) {bs : κ → Barrier} {x : κ} {tries : Bool} {size base rt : ℕ}
    {us : List κ} (henter : ∀ u, (s.barriers u).enter = (bs u).enter)
    (hblock : Block SIZE size base)
    (hown : S.Kept x → if tries then (bs x).Open base else (bs x).Holds size base)
    (hup : S.config.uppers x = passed ++ us)
    (hseen : (tries = true ∧ rt = 0) ∨ S.Seen SIZE bs x (base + size) passed) :
    (s.goesOn tries size base rt us).Ok SIZE S bs x := by
  cases us with
  | cons u us =>
    simp only [goesOn, henter]
    exact ⟨hblock, hown, passed, u, us, rfl, hup, hseen, enter_ok _⟩
  | nil =>
    rw [List.append_nil] at hup
    simp only [goesOn]
    cases tries with
    | true =>
      simp only [if_true] at hown ⊢
      split
      · exact fun hk => ⟨base, hown hk⟩
      · next hrt => exact ⟨hblock, hown, hup ▸ hseen.resolve_left fun hfail => hrt hfail.2⟩
    | false =>
        exact ⟨hblock, Nat.zero_le _, hown,
          hup ▸ hseen.resolve_left fun hfail => Bool.false_ne_true hfail.1⟩

omit [DecidableEq κ] in
theorem goesOn_base {tries : Bool} {size base rt : ℕ} {us : List κ} {c : ℕ}
    (hc : (s.goesOn tries size base rt us).base = some c) : tries = false ∧ c = base := by
  cases us with
  | cons u us =>
    cases tries with
    | true => cases hc
    | false => exact ⟨rfl, (Option.some.inj hc).symm⟩
  | nil =>
    cases tries with
    | true =>
      simp only [goesOn, if_true] at hc
      split at hc <;> cases hc
    | false => exact ⟨rfl, (Option.some.inj hc).symm⟩

/-- Every barrier that is kept track of is at its start or further. -/
theorem Sound.start_le (h : s.Sound SIZE S) {u : κ} (hk : S.Kept u) :
    sizeToPow2 SIZE ≤ (s.barriers u).ready := by
  have hb := h.barriers u
  cases hu : s.barriers u with
  | st b =>
    rw [hu] at hb
    exact hb.2.1.trans hb.2.2
  | mt b =>
    rw [hu] at hb
    exact (hb.2.2 hk).tickets.start_le

/-! ### Reserving -/

omit [DecidableEq κ] in
/-- Reserving keeps a barrier right, its position where it is, and what waiting
    threads have seen of it. -/
theorem reserve_ok {multi : Bool} {kept : Prop} {b : Barrier} {size : ℕ}
    (hb : b.Ok SIZE multi kept) (hpos : 0 < size) (hsize : size ≤ sizeToPow2 SIZE)
    (hfits : b.tryReserve + size < 2 ^ 64) :
    (b.reserve size).2.Ok SIZE multi kept ∧ (b.reserve size).2.ready = b.ready ∧
      (∀ tries min (phase : Phase), phase.Ok SIZE kept tries min b →
        phase.Ok SIZE kept tries min (b.reserve size).2) := by
  cases b with
  | st b => exact ⟨hb, rfl, fun tries min phase hph => by cases phase <;> exact hph⟩
  | mt b =>
    obtain ⟨hmulti, hlow, hwf⟩ := hb
    have htickets : (b.reserve size).2.tickets = b.tickets.take size :=
      BarrierMt.reserve_tickets hfits
    have hadd : add64 b.reserved size = b.reserved + size := add64_eq hfits
    refine ⟨⟨hmulti, ?_, fun hkept => ⟨?_, (hwf hkept).cache⟩⟩, rfl, fun tries min phase hph => ?_⟩
    · simp only [BarrierMt.reserve, hadd]
      omega
    · rw [htickets]
      exact (hwf hkept).tickets.take hpos hsize
    · cases phase with
      | room r => exact hph
      | look l =>
        intro hkept
        refine (hph hkept).mono rfl rfl fun p hp => ?_
        rw [htickets]
        exact (hwf hkept).tickets.take_prefix hpos hp

omit [DecidableEq κ] in
/-- What was reserved is held, and no other call had it. -/
theorem reserve_holds {multi : Bool} {kept : Prop} {b : Barrier} {size base : ℕ}
    (hb : b.Ok SIZE multi kept) (hk : kept) (hopen : b.Open base) (hpos : 0 < size)
    (hfits : b.tryReserve + size < 2 ^ 64) :
    (b.reserve size).2.Holds size b.tryReserve ∧ (multi = true → ∀ n, ¬ b.Holds n b.tryReserve) ∧
      (multi = true → ∀ n c, b.Holds n c → (b.reserve size).2.Holds n c) := by
  cases b with
  | st b =>
    obtain ⟨hmulti, -, -⟩ := hb
    obtain ⟨-, hres⟩ := hopen
    exact ⟨⟨hres, add64_eq hfits⟩, fun h => absurd (hmulti.symm.trans h) Bool.false_ne_true,
      fun h => absurd (hmulti.symm.trans h) Bool.false_ne_true⟩
  | mt b =>
    obtain ⟨-, -, hwf⟩ := hb
    have hwf := (hwf hk).tickets
    have htickets : (b.reserve size).2.tickets = b.tickets.take size :=
      BarrierMt.reserve_tickets hfits
    have hfresh : b.ends b.reserved = 0 := by
      by_contra hne
      exact lt_irrefl _ (hwf.lt_next hne)
    refine ⟨⟨?_, ?_, hpos⟩, fun _ n hn => ?_, fun _ n c hc => ?_⟩
    · simp only [BarrierMt.reserve, Barrier.tryReserve, BarrierMt.tryReserve, Function.update_self]
      exact add64_eq hfits
    · by_contra hfin
      exact hwf.taken b.reserved (Bool.eq_true_of_not_eq_false hfin) hfresh
    · have hends : b.ends b.reserved = b.reserved + n := hn.1
      have hn0 := hn.2.2
      omega
    · obtain ⟨hends, hfin, hn⟩ := hc
      have hold : (b.tickets.take size).ends c = b.tickets.ends c :=
        hwf.take_old (show b.ends c ≠ 0 by omega)
      rw [← htickets] at hold
      exact ⟨hold.trans hends, hfin, hn⟩

omit [DecidableEq κ] in
theorem reserve_finished {multi : Bool} {kept : Prop} {b : Barrier} {size : ℕ} {m : BarrierMt}
    (hb : b.Ok SIZE multi kept) (hk : kept) (hfits : b.tryReserve + size < 2 ^ 64)
    (hm : (b.reserve size).2 = .mt m) :
    ∃ m₀, b = .mt m₀ ∧ ∀ base, m.finished base = true → m₀.finished base = true ∧
      m.ends base = m₀.ends base := by
  cases b with
  | st b => cases hm
  | mt b =>
    cases hm
    have htickets : (b.reserve size).2.tickets = b.tickets.take size :=
      BarrierMt.reserve_tickets hfits
    have hwf := (hb.2.2 hk).tickets
    refine ⟨b, rfl, fun base hfin => ⟨hfin, ?_⟩⟩
    have hold : (b.tickets.take size).ends base = b.tickets.ends base :=
      hwf.take_old (hwf.taken base hfin)
    rw [← htickets] at hold
    exact hold

/-! ### Waiting -/

omit [DecidableEq κ] in
/-- A step of a wait on a barrier leaves its blocks alone, and its position only grows where it is
    kept track of; a wait that is over has seen what it waits for, or is a try that gives up. -/
theorem wait_ok {multi : Bool} {kept : Prop} {b : Barrier} {tries : Bool} {min : ℕ}
    {phase : Phase} (weak : Bool) (hb : b.Ok SIZE multi kept)
    (hphase : phase.Ok SIZE kept tries min b) :
    let r := b.wait SIZE tries min weak phase
    r.1.Ok SIZE multi kept ∧ r.1.enter = b.enter ∧ (kept → b.ready ≤ r.1.ready) ∧
      (∀ base, b.Open base → r.1.Open base) ∧ (∀ n base, b.Holds n base → r.1.Holds n base) ∧
      (∀ m', r.1 = .mt m' → ∃ m, b = .mt m ∧ m'.tickets = m.tickets) ∧
        (multi = false → r.1.ready = b.ready) ∧
      Sum.elim (fun phase' => phase'.Ok SIZE kept tries min r.1)
        (fun got => (tries = true ∧ got = 0) ∨ (kept → min ≤ r.1.ready)) r.2 := by
  cases b with
  | st b =>
    cases phase with
    | look l => exact hphase.elim
    | room r =>
      obtain ⟨hmulti, hcache⟩ := hb
      obtain ⟨heq, hcache', hret⟩ := BarrierSt.look_spec (sizeToPow2_pos SIZE) hcache hphase
      simp only [Barrier.wait]
      generalize b.look tries min r = out at *
      obtain ⟨b', r' | got⟩ := out
      all_goals
        simp only at heq hcache' hret ⊢
        rw [heq]
        refine ⟨⟨hmulti, hcache'⟩, rfl, fun _ => le_refl _, fun _ h => h, fun _ _ h => h, nofun,
          fun _ => rfl, ?_⟩
      · exact hret
      · exact hret.imp id fun hgot _ => hgot.1
  | mt b =>
    cases phase with
    | room r => exact hphase.elim
    | look l =>
      obtain ⟨hmulti, hlow, hwf⟩ := hb
      have htickets := BarrierMt.look_tickets SIZE b tries min weak l
      have hspec : kept → _ := fun hk => BarrierMt.look_spec weak (hwf hk) (hphase hk)
      simp only [Barrier.wait]
      generalize b.look SIZE tries min weak l = out at *
      obtain ⟨b', hout⟩ := out
      simp only at htickets hspec ⊢
      have hnext : b'.reserved = b.reserved := congrArg Tickets.next htickets
      have hends : b'.ends = b.ends := congrArg Tickets.ends htickets
      have hfin : b'.finished = b.finished := congrArg Tickets.finished htickets
      refine ⟨⟨hmulti, hnext ▸ hlow, fun hk => (hspec hk).2.1⟩, rfl, fun hk => (hspec hk).1,
        fun _ _ => trivial, ?_, ?_, ?_, ?_⟩
      · rintro n base ⟨h1, h2, h3⟩
        exact ⟨hends ▸ h1, hfin ▸ h2, h3⟩
      · intro m' hm'
        cases hm'
        exact ⟨b, rfl, htickets⟩
      · exact fun hsingle => absurd (hsingle.symm.trans hmulti) Bool.false_ne_true
      · cases hout with
        | inl l' => exact fun hk => (hspec hk).2.2
        | inr got =>
          by_cases hfail : tries = true ∧ got = 0
          · exact .inl hfail
          · exact .inr fun hk => ((hspec hk).2.2.resolve_left hfail).1

omit [DecidableEq κ] in
/-- What a thread has seen of a barrier that others only wait for stays right: it is a single-thread
    one, or not kept track of. -/
theorem phase_ok {multi : Bool} {kept : Prop} {b b' : Barrier} (hb : b.Ok SIZE multi kept)
    (hb' : b'.Ok SIZE multi kept) (hready : multi = false → b'.ready = b.ready)
    (hnot : multi = true → ¬ kept) {tries : Bool} {min : ℕ} {phase : Phase}
    (hphase : phase.Ok SIZE kept tries min b) : phase.Ok SIZE kept tries min b' := by
  cases b with
  | st b =>
    cases b' with
    | mt b' => exact absurd (hb.1.symm.trans hb'.1) Bool.false_ne_true
    | st b' =>
      cases phase with
      | look l => exact hphase.elim
      | room r =>
        have hsame : b'.ready = b.ready := hready hb.1
        simp only [Phase.Ok, hsame]
        exact hphase
  | mt b =>
    cases b' with
    | st b' => exact absurd (hb'.1.symm.trans hb.1) Bool.false_ne_true
    | mt b' =>
      cases phase with
      | room r => exact hphase.elim
      | look l => exact fun hk => absurd hk (hnot hb.1)

/-- A barrier whose position grew to the end of finished blocks has what it needs
    from those it waits for. -/
theorem Sound.flow_of_wait (h : s.Sound SIZE S) {u : κ} {b : Barrier} (hk : S.Kept u)
    (hb : b.Ok SIZE (S.multi u) (S.Kept u))
    (htickets : ∀ m', b = .mt m' → ∃ m, s.barriers u = .mt m ∧ m'.tickets = m.tickets)
    (hsingle : S.multi u = false → b.ready = (s.barriers u).ready) :
    S.Seen SIZE s.barriers u b.ready (S.config.uppers u) := by
  cases b with
  | st b => exact hsingle hb.1 ▸ h.flow u hk
  | mt m' =>
    obtain ⟨m, hm, hsame⟩ := htickets m' rfl
    have hfins : m'.finished = m.finished := congrArg Tickets.finished hsame
    have hends : m'.ends = m.ends := congrArg Tickets.ends hsame
    show S.Seen SIZE s.barriers u m'.ready (S.config.uppers u)
    rcases (hb.2.2 hk).tickets.ready_end with hstart | ⟨c, hfin, hend⟩
    · intro v hv hkv
      have hlow := h.start_le hkv
      rw [hstart, Setup.need]
      split <;> omega
    · rw [← hend, show m'.tickets.ends c = m.ends c from congrFun hends c]
      exact h.finished u m hk hm c ((congrFun hfins c).symm.trans hfin)

variable [DecidableEq τ]

/-- One thread moves on and one barrier changes: what the others rely on is left alone. -/
theorem Sound.put (h : s.Sound SIZE S) {x : κ} {b : Barrier} {t : τ} {call : Call κ}
    (hb : b.Ok SIZE (S.multi x) (S.Kept x)) (hready : S.Kept x → (s.barriers x).ready ≤ b.ready)
    (hflow : S.Kept x → S.Seen SIZE s.barriers x b.ready (S.config.uppers x))
    (hfinished : ∀ m, S.Kept x → b = .mt m → ∀ base, m.finished base = true →
      S.Seen SIZE s.barriers x (m.ends base) (S.config.uppers x))
    (hopen : ∀ t', t' ≠ t → S.node t' = x → ∀ base, S.Kept x →
      (s.barriers x).Open base → b.Open base)
    (hholds : ∀ t', t' ≠ t → S.node t' = x → ∀ size base, (s.calls t').base = some base → S.Kept x →
      (s.barriers x).Holds size base → b.Holds size base)
    (hphase : ∀ t', t' ≠ t → x ∈ S.config.uppers (S.node t') → ∀ tries min (phase : Phase),
      phase.Ok SIZE (S.Kept x) tries min (s.barriers x) → phase.Ok SIZE (S.Kept x) tries min b)
    (hcall : call.Ok SIZE S (Function.update s.barriers x b) (S.node t))
    (hbase : ∀ base, call.base = some base → S.Kept (S.node t) → ∀ t', t' ≠ t →
      S.node t' = S.node t → (s.calls t').base ≠ some base) :
    (s.put x b t call).Sound SIZE S := by
  have hat : ∀ v, (s.put x b t call).barriers v = if v = x then b else s.barriers v :=
    fun v => Function.update_apply _ _ _ _
  have hcalls : ∀ t', (s.put x b t call).calls t' = if t' = t then call else s.calls t' :=
    fun t' => Function.update_apply _ _ _ _
  have hgrows : ∀ v, S.Kept v → (s.barriers v).ready ≤ ((s.put x b t call).barriers v).ready := by
    intro v hk
    rw [hat]
    split
    · next heq =>
      subst heq
      exact hready hk
    · exact le_refl _
  refine ⟨fun u => ?_, fun u hk => ?_, fun u m hk hm base hfin => ?_, fun t' => ?_,
    fun t₁ t₂ base hnode hk h₁ h₂ => ?_⟩
  · rw [hat]
    split
    · next heq => exact heq ▸ hb
    · exact h.barriers u
  · rw [hat]
    split
    · next heq =>
      subst heq
      exact (hflow hk).mono hgrows
    · exact (h.flow u hk).mono hgrows
  · rw [hat] at hm
    split at hm
    · next heq =>
      subst heq
      exact (hfinished m hk hm base hfin).mono hgrows
    · exact (h.finished u m hk hm base hfin).mono hgrows
  · rw [hcalls]
    split
    · next heq => exact heq ▸ hcall
    · next hne =>
      refine (h.calls t').mono hgrows (fun base hk hop => ?_) (fun size base hcb hk hho => ?_)
        (fun u hu tries min phase hph => ?_)
      · rw [hat]
        split
        · next heq => exact hopen t' hne heq base (heq ▸ hk) (heq ▸ hop)
        · exact hop
      · rw [hat]
        split
        · next heq => exact hholds t' hne heq size base hcb (heq ▸ hk) (heq ▸ hho)
        · exact hho
      · rw [hat]
        split
        · next heq =>
          subst heq
          exact hphase t' hne hu tries min phase hph
        · exact hph
  · rw [hcalls] at h₁ h₂
    split at h₁ <;> split at h₂
    · next e₁ e₂ => rw [e₁, e₂]
    · next e₁ e₂ => subst e₁; exact absurd h₂ (hbase base h₁ hk t₂ e₂ hnode.symm)
    · next e₁ e₂ => subst e₂; exact absurd h₁ (hbase base h₂ (hnode ▸ hk) t₁ e₁ hnode)
    · exact h.apart t₁ t₂ base hnode hk h₁ h₂

/-- A thread moves on and its barrier stays as it is. -/
theorem Sound.move (h : s.Sound SIZE S) {x : κ} {t : τ} {call : Call κ}
    (hcall : call.Ok SIZE S s.barriers (S.node t))
    (hbase : ∀ base, call.base = some base → (s.calls t).base = some base) :
    (s.put x (s.barriers x) t call).Sound SIZE S := by
  refine h.put (h.barriers x) (fun _ => le_refl _) (h.flow x) (h.finished x)
    (fun _ _ _ _ _ hop => hop) (fun _ _ _ _ _ _ _ hho => hho) (fun _ _ _ _ _ _ hph => hph) ?_ ?_
  · rwa [Function.update_eq_self]
  · exact fun base hb hk t' hne hnode hb' =>
      hne (h.apart t' t base hnode (hnode ▸ hk) hb' (hbase base hb))

/-- A thread reserves a block on its barrier, and its call goes on with it. -/
theorem Sound.reserve (h : s.Sound SIZE S) (hfit : S.Fit) {t : τ} {size : ℕ} {call : Call κ}
    (hpos : 0 < size) (hsize : size ≤ sizeToPow2 SIZE)
    (hfits : (s.barriers (S.node t)).tryReserve + size < 2 ^ 64)
    (hopen : S.Kept (S.node t) → ∃ base, (s.barriers (S.node t)).Open base)
    (hcall :
      (S.Kept (S.node t) →
        ((s.barriers (S.node t)).reserve size).2.Holds size (s.barriers (S.node t)).tryReserve) →
        call.Ok SIZE S
        (Function.update s.barriers (S.node t) ((s.barriers (S.node t)).reserve size).2) (S.node t))
    (hbase : ∀ c, call.base = some c → c = (s.barriers (S.node t)).tryReserve) :
    (s.put (S.node t) ((s.barriers (S.node t)).reserve size).2 t call).Sound SIZE S := by
  obtain ⟨hb, hready, hphase⟩ := reserve_ok (h.barriers (S.node t)) hpos hsize hfits
  -- the thread of a single-thread barrier is the only one
  have hmulti : ∀ t', t' ≠ t → S.node t' = S.node t → S.multi (S.node t) = true := by
    intro t' hne hnode
    by_contra hsingle
    exact hne (hfit.single t' t hnode (by rw [hnode]; exact Bool.eq_false_iff.mpr hsingle))
  have hholds : S.Kept (S.node t) → _ :=
    fun hk => reserve_holds (h.barriers (S.node t)) hk (hopen hk).choose_spec hpos hfits
  refine h.put hb (fun _ => hready.ge) (fun hk => hready ▸ h.flow _ hk) ?_ ?_ ?_ ?_
    (hcall fun hk => (hholds hk).1) ?_
  · intro m hk hm base hfin
    obtain ⟨m₀, hm₀, hsame⟩ := reserve_finished (h.barriers (S.node t)) hk hfits hm
    obtain ⟨hfin₀, hends⟩ := hsame base hfin
    exact hends ▸ h.finished _ m₀ hk hm₀ base hfin₀
  · exact fun t' hne hnode base _ _ => Barrier.Ok.open_of_multi (hmulti t' hne hnode ▸ hb)
  · intro t' hne hnode n base _ hk hho
    exact (hholds hk).2.2 (hmulti t' hne hnode) n base hho
  · exact fun t' _ _ tries min phase hph => hphase tries min phase hph
  · intro c hc hk t' hne hnode hc'
    obtain ⟨n, hn⟩ := (h.calls t').holds hc' (hnode ▸ hk)
    rw [hnode, hbase c hc] at hn
    exact (hholds hk).2.1 (hmulti t' hne hnode) n hn

theorem begins_sound (h : s.Sound SIZE S) (hfit : S.Fit) {t : τ} {tries : Bool} {size : ℕ}
    (hok : s.Clean SIZE S (.begins t tries size)) : (s.begins S t tries size).Sound SIZE S := by
  obtain ⟨hpos, hsize, hfits⟩ := hok
  have hcall := h.calls t
  unfold begins
  simp only [Barrier.reserve_fst]
  split
  · next hidle =>
    rw [hidle] at hcall
    have hlow := (h.barriers (S.node t)).low fun hmulti => hcall (Setup.kept_of_single hmulti)
    refine h.move
      (goesOn_ok [] (fun _ => rfl) ⟨hpos, hsize, hlow, hfits⟩ (fun hk => ?_) rfl (.inr nofun)) ?_
    · exact Barrier.open_tryReserve (hcall hk)
    · exact fun base hb => absurd (goesOn_base hb).1 nofun
  · next hidle =>
    rw [hidle] at hcall
    have hlow := (h.barriers (S.node t)).low fun hmulti => hcall (Setup.kept_of_single hmulti)
    refine h.reserve hfit hpos hsize hfits hcall (fun hholds => ?_) fun c hc => (goesOn_base hc).2
    refine goesOn_ok [] (fun u => ?_) ⟨hpos, hsize, hlow, hfits⟩ (fun hk => ?_) rfl (.inr nofun)
    · rw [Function.update_apply]
      split
      · next heq => rw [heq, Barrier.reserve_enter]
      · rfl
    · rw [Function.update_self]
      exact hholds hk
  · exact h

/-- `set_reserve` of a try operation reserves what the call has waited for. -/
theorem swaps_sound (h : s.Sound SIZE S) (hfit : S.Fit) {t : τ} {size base : ℕ} (weak : Bool)
    (hc : s.calls t = .swaps size base) :
    (s.advances SIZE S t weak).Sound SIZE S := by
  have hcall := h.calls t
  rw [hc] at hcall
  obtain ⟨hblock, hopen, hseen⟩ := hcall
  unfold advances
  simp only [hc]
  split
  · next b hb =>
    obtain ⟨rfl, rfl⟩ :=
      (h.barriers (S.node t)).setReserve (fun hsingle => hopen (Setup.kept_of_single hsingle)) hb
    obtain ⟨hpos, hsize, hlow, hfits⟩ := hblock
    obtain ⟨-, hready, -⟩ := reserve_ok (h.barriers (S.node t)) hpos hsize hfits
    refine h.reserve hfit hpos hsize hfits (fun hk => ⟨_, hopen hk⟩) (fun hholds => ?_) ?_
    · refine ⟨⟨hpos, hsize, hlow, hfits⟩, Nat.zero_le _, fun hk => ?_, hseen.mono fun v _ => ?_⟩
      · rw [Function.update_self]
        exact hholds hk
      · rw [Function.update_apply]
        split
        · next heq => rw [heq, hready]
        · exact le_refl _
    · exact fun c hc => (Option.some.inj hc).symm
  · exact h.move (fun hk => ⟨base, hopen hk⟩) nofun

omit [DecidableEq τ] in
/-- A call waits for what its node needs. -/
theorem least_eq {x : κ} {size base : ℕ} (h : Block SIZE size base) :
    least SIZE S x size base = S.need SIZE x (base + size) := by
  obtain ⟨-, -, hlow, hfits⟩ := h
  simp only [least, Setup.need, add64_eq hfits]
  split
  · exact sub64_eq hfits (by omega)
  · rfl

theorem waits_sound (h : s.Sound SIZE S) (hfit : S.Fit) {t : τ} {tries : Bool} {size base rt : ℕ}
    {us : List κ} {phase : Phase} (weak : Bool)
    (hc : s.calls t = .waits tries size base rt us phase) :
    (s.advances SIZE S t weak).Sound SIZE S := by
  have hcall := h.calls t
  rw [hc] at hcall
  obtain ⟨hblock, hown, passed, u, rest, rfl, hup, hseen, hphase⟩ := hcall
  have hmin := least_eq (S := S) (x := S.node t) hblock
  obtain ⟨hb, henter, hgrows, hopen, hholds, htickets, hsingle, hret⟩ :=
    wait_ok weak (h.barriers u) hphase
  unfold advances
  simp only [hc, hmin]
  generalize (s.barriers u).wait SIZE tries
    (S.need SIZE (S.node t) (base + size)) weak phase = out at *
  obtain ⟨b, hout⟩ := out
  simp only at hb henter hgrows hopen hholds htickets hsingle hret
  -- only the barrier `u` changes, and what the other threads know of it stays true
  have hput : ∀ call : Call κ, call.Ok SIZE S (Function.update s.barriers u b) (S.node t) →
      (∀ c, call.base = some c → (s.calls t).base = some c) → (s.put u b t call).Sound SIZE S := by
    intro call hcall hbase
    refine h.put hb hgrows ?_ ?_ (fun t' _ _ base _ => hopen base)
      (fun t' _ _ n base _ _ => hholds n base) ?_ hcall ?_
    · exact fun hk => h.flow_of_wait hk hb htickets hsingle
    · intro m' hk hm' c hfin
      obtain ⟨m, hm, hsame⟩ := htickets m' hm'
      have hfins : m'.finished = m.finished := congrArg Tickets.finished hsame
      have hends : m'.ends = m.ends := congrArg Tickets.ends hsame
      rw [hends]
      exact h.finished u m hk hm c ((congrFun hfins c).symm.trans hfin)
    · intro t' hne hu' tries' min' phase'
      refine phase_ok (h.barriers u) hb hsingle fun hmulti hk => hne ?_
      exact hfit.sole_of_kept hk hmulti t' t hu'
        (by rw [hup]; exact List.mem_append_right _ List.mem_cons_self)
    · exact fun c hc' hk t' hne hnode hb' =>
        hne (h.apart t' t c hnode (hnode ▸ hk) hb' (hbase c hc'))
  have hready : ∀ v, S.Kept v →
      (s.barriers v).ready ≤ (Function.update s.barriers u b v).ready := by
    intro v hk
    rw [Function.update_apply]
    split
    · next heq =>
      subst heq
      exact hgrows hk
    · exact le_refl _
  have hown' : S.Kept (S.node t) →
      if tries = true then (Function.update s.barriers u b (S.node t)).Open base
      else (Function.update s.barriers u b (S.node t)).Holds size base := by
    intro hk
    have hmine := hown hk
    simp only [Function.update_apply]
    by_cases heq : S.node t = u
    · rw [heq] at hmine
      simp only [heq, if_true]
      cases tries with
      | true => exact hopen base hmine
      | false => exact hholds size base hmine
    · simp only [heq, if_false]
      exact hmine
  cases hout with
  -- it waits on, at the same barrier
  | inl phase' =>
    refine hput _
      ⟨hblock, hown', passed, u, rest, rfl, hup, hseen.imp id fun hs => hs.mono hready, ?_⟩ ?_
    · rw [Function.update_self]
      exact hret
    · intro c hc'
      rw [hc]
      cases tries with
      | true => cases hc'
      | false => exact hc'
  -- it has passed this barrier, and goes to the next one or to its block
  | inr got =>
    refine hput _
      (goesOn_ok (passed ++ [u]) (fun v => ?_) hblock hown'
      (by rw [hup, List.append_assoc]; rfl) ?_) ?_
    · rw [Function.update_apply]
      split
      · next heq => rw [heq, henter]
      · rfl
    · rcases hseen with ⟨htries, rfl⟩ | hseen
      · exact .inl ⟨htries, by simp⟩
      · rcases hret with ⟨htries, rfl⟩ | hgot
        · refine .inl ⟨htries, ?_⟩
          split <;> omega
        · refine .inr fun v hv hk => ?_
          rcases List.mem_append.mp hv with hv | hv
          · exact (hseen v hv hk).trans (hready v hk)
          · obtain rfl := List.mem_singleton.mp hv
            rw [Function.update_self]
            exact hgot hk
    · intro c hc'
      obtain ⟨rfl, rfl⟩ := goesOn_base hc'
      rw [hc]
      rfl

/-! ### Setting -/

omit [DecidableEq τ] in
/-- Along a dependency the positions only grow. -/
theorem Sound.ready_le (h : s.Sound SIZE S) (hgated : S.Gated) {a b : κ}
    (hreach : Reaches S.config.linkSet a b) (hb : S.Kept b) :
    (s.barriers a).ready ≤ (s.barriers b).ready := by
  induction hreach using Relation.ReflTransGen.head_induction_on with
  | refl => exact le_refl _
  | @head a c hlink hrest ih =>
    have hcons : ∀ {z w : κ}, Linked S.config.linkSet z w → S.config.Consumer z :=
      fun hzw => List.ne_nil_of_mem hzw
    have hroot := hgated.consumer_ne (hcons hlink)
    have hc : S.Kept c := by
      rcases Relation.ReflTransGen.cases_head hrest with rfl | ⟨d, hnext, -⟩
      · exact hb
      · exact Setup.kept_of_consumer (hcons hnext)
    have hflow :=
      h.flow a (Setup.kept_of_consumer (hcons hlink)) c
        (by rw [hgated.uppers a hroot]; exact hlink) hc
    rw [Setup.need, if_neg hroot] at hflow
    exact hflow.trans ih

omit [DecidableEq τ] in
/-- A consumer is no further behind what the producers have waited for than the buffer is long. -/
theorem Sound.covered (h : s.Sound SIZE S) (hgated : S.Gated) {x : κ} (hx : S.config.Consumer x)
    {p : ℕ} (hseen : S.Seen SIZE s.barriers S.config.root p (S.config.uppers S.config.root)) :
    p ≤ (s.barriers x).ready + sizeToPow2 SIZE := by
  obtain ⟨g, hg, hreach⟩ := hgated.covers x hx
  have hpos := hseen g hg (Setup.kept_of_consumer (hgated.gated g hg))
  have hle := h.ready_le hgated hreach (Setup.kept_of_consumer hx)
  rw [Setup.need, if_pos rfl] at hpos
  omega

omit [DecidableEq τ] in
/-- A block that is finished lies within one buffer of the position of its multi-thread barrier. -/
theorem Sound.window (h : s.Sound SIZE S) (hgated : S.Gated) {x : κ} (hk : S.Kept x)
    (hmulti : S.multi x = true) {p : ℕ} (hseen : S.Seen SIZE s.barriers x p (S.config.uppers x)) :
    p ≤ (s.barriers x).ready + sizeToPow2 SIZE := by
  have hrooted : ∀ {y}, S.Many y → S.Kept S.config.root := fun hy _ => .inr ⟨rfl, _, hy⟩
  rcases hk hmulti with hx | ⟨rfl, y, hy⟩
  · -- what it depends on is behind the producers, which wait for it
    have hroot := hgated.consumer_ne hx
    have hkroot := hrooted ⟨hx, hmulti⟩
    obtain heq | ⟨v, hlink, hrest⟩ := Relation.ReflTransGen.cases_head (hgated.rooted x hx)
    · exact absurd heq hroot
    · have hv : S.Kept v := by
        rcases Relation.ReflTransGen.cases_head hrest with rfl | ⟨w, hnext, -⟩
        · exact hkroot
        · exact Setup.kept_of_consumer (List.ne_nil_of_mem hnext)
      have hpos := hseen v (by rw [hgated.uppers x hroot]; exact hlink) hv
      rw [Setup.need, if_neg hroot] at hpos
      have hle := h.ready_le hgated hrest hkroot
      have hroom := h.covered hgated hx (h.flow S.config.root hkroot)
      omega
  · have hroom := h.covered hgated hy.1 hseen
    have hle := h.ready_le hgated (hgated.rooted y hy.1) (hrooted hy)
    omega

/-- Every position a thread sees of a single-thread barrier is still there when it has moved on. -/
theorem copies_sound (h : s.Sound SIZE S) (hgated : S.Gated) (hfit : S.Fit) {t : τ}
    {size base k : ℕ} (weak : Bool) (hc : s.calls t = .copies size base k) :
    (s.advances SIZE S t weak).Sound SIZE S := by
  have hcall := h.calls t
  rw [hc] at hcall
  obtain ⟨hblock, hk, hown, hseen⟩ := hcall
  obtain ⟨hpos, hsize, hlow, hfits⟩ := hblock
  have hb := h.barriers (S.node t)
  unfold advances
  simp only [hc]
  split
  · next hlt =>
    refine h.move ⟨⟨hpos, hsize, hlow, hfits⟩, hlt, hown, hseen⟩ fun c hc' => ?_
    rw [hc]
    exact hc'
  · rw [add64_eq hfits]
    cases hx : s.barriers (S.node t) with
    | st b =>
      rw [hx] at hb hown
      have hkept : S.Kept (S.node t) := Setup.kept_of_single hb.1
      obtain ⟨rfl, hres⟩ := hown hkept
      have hgrows : b.ready ≤ b.ready + size := Nat.le_add_right _ _
      -- a single-thread barrier belongs to this thread alone
      have hone : ∀ t', t' ≠ t → S.node t' ≠ S.node t := fun t' hne hnode =>
        hne (hfit.single t' t hnode (hnode ▸ hb.1))
      refine h.put ⟨hb.1, hb.2.1, hb.2.2.trans hgrows⟩ (fun _ => ?_) (fun _ => hseen) nofun
        ?_ ?_ ?_ ?_ nofun
      · rw [hx]
        exact hgrows
      · exact fun t' hne hnode => absurd hnode (hone t' hne)
      · exact fun t' hne hnode => absurd hnode (hone t' hne)
      · intro t' _ _ tries min phase hph
        rw [hx] at hph
        cases phase with
        | room r => exact hph.mono hgrows
        | look l => exact hph.elim
      · intro _
        rw [Function.update_self]
        exact ⟨_, rfl, hres⟩
    | mt b =>
      rw [hx] at hb hown
      obtain ⟨hmulti, hstart, hwf⟩ := hb
      have htickets : S.Kept (S.node t) → (b.set base (mode SIZE base) (base + size)).tickets =
          b.tickets.finish (sizeToPow2 SIZE) base :=
        fun hkept => BarrierMt.set_tickets (hown hkept).1
      refine h.put ⟨hmulti, hstart, fun hkept => ⟨?_, (hwf hkept).cache⟩⟩
        (fun _ => by rw [hx]; exact le_refl _) (fun hkept => ?_) ?_
        (fun _ _ _ _ _ _ => trivial) ?_ ?_
        (fun _ => ?_) nofun
      · rw [htickets hkept]
        have hwin := h.window hgated hkept hmulti hseen
        rw [hx] at hwin
        refine (hwf hkept).tickets.finish ?_ ?_
        · show b.ends base ≠ 0
          rw [(hown hkept).1]
          omega
        · show b.ends base ≤ _
          rw [(hown hkept).1]
          exact hwin
      · have hflow := h.flow (S.node t) hkept
        rw [hx] at hflow
        exact hflow
      · intro m hkept hm c hfin
        cases hm
        show S.Seen SIZE s.barriers (S.node t) (b.ends c) (S.config.uppers (S.node t))
        by_cases hsame : c = base
        · subst hsame
          rw [(hown hkept).1]
          exact hseen
        · refine h.finished (S.node t) b hkept hx c ?_
          simpa [BarrierMt.set, Function.update_of_ne hsame] using hfin
      · intro t' hne hnode n c hc' hkept hho
        rw [hx] at hho
        obtain ⟨hends, hfin, hn⟩ := hho
        have hother : c ≠ base := by
          rintro rfl
          exact hne (h.apart t' t c hnode (hnode ▸ hkept) hc' (by rw [hc]; rfl))
        refine ⟨hends, ?_, hn⟩
        simpa [BarrierMt.set, Function.update_of_ne hother] using hfin
      · intro t' _ _ tries min phase hph
        rw [hx] at hph
        cases phase with
        | room r => exact hph.elim
        | look l =>
          intro hkept
          refine (hph hkept).mono rfl rfl fun p hp => ?_
          rw [htickets hkept]
          exact Tickets.finish_prefix hp
      · rw [Function.update_self]
        exact ⟨0, trivial⟩

/-! ### Runs -/

/-- Every step keeps the disruptor sound. -/
theorem step_sound (hgated : S.Gated) (hfit : S.Fit) {r : DisruptorAct τ} (hok : s.Clean SIZE S r)
    (h : s.Sound SIZE S) :
    (s.step SIZE S r).Sound SIZE S := by
  cases r with
  | begins t tries size => exact begins_sound h hfit hok
  | advances t weak =>
    show (s.advances SIZE S t weak).Sound SIZE S
    cases hc : s.calls t with
    | idle =>
      simp only [advances, hc]
      exact h
    | waits tries size base rt us phase => exact waits_sound h hfit weak hc
    | swaps size base => exact swaps_sound h hfit weak hc
    | copies size base k => exact copies_sound h hgated hfit weak hc

/-- Of every earlier sequence number in the slot a producer is about to write, every
    consumer has set its block. -/
def NoOverrun (SIZE : ℕ) (S : Setup κ τ) (s : Disruptor κ τ) : Prop :=
  ∀ t size base k, S.node t = S.config.root → s.calls t = .copies size base k → k < size →
    ∀ x, S.config.Consumer x → ∀ i, sizeToPow2 SIZE ≤ i → i < base + k →
      i % sizeToPow2 SIZE = (base + k) % sizeToPow2 SIZE → (s.barriers x).Finished i

omit [DecidableEq τ] in
theorem Sound.noOverrun (h : s.Sound SIZE S) (hgated : S.Gated) : NoOverrun SIZE S s := by
  intro t size base k hnode hc hk x hx i hlo hi hslot
  have hcall := h.calls t
  rw [hc, hnode] at hcall
  obtain ⟨-, -, -, hseen⟩ := hcall
  have hlap : i + sizeToPow2 SIZE ≤ base + k := by
    by_contra hlt
    exact absurd (eq_of_same_slot hslot (by omega) (by omega)) (by omega)
  have hroom := h.covered hgated hx hseen
  have hready : i < (s.barriers x).ready := by omega
  have hb := h.barriers x
  cases hbx : s.barriers x with
  | st b =>
    rw [hbx] at hready
    exact hready
  | mt b =>
    rw [hbx] at hready hb
    exact (hb.2.2 (Setup.kept_of_consumer hx)).tickets.done hlo hready

end Disruptor

/-! ### Cover -/

/-- What `commit` leaves, where the consumers it gates cover the graph. -/
theorem Configure.Good.gated [DecidableEq κ] {c : Configure κ} (h : c.Good) (htop : c.SinksOnTop)
    {S : Setup κ τ} (hc : c.commit = (S.config, none)) : S.Gated := by
  obtain ⟨hlinks, hroot, huppers⟩ := Configure.commit_links hc
  have hcons : ∀ x, S.config.Consumer x ↔ c.Consumer x :=
    fun x => by rw [Configure.Consumer, Configure.Consumer, hlinks]
  refine ⟨?_, fun x hx => ?_, fun g hg => ?_, fun x hx => ?_, (h.covers_iff hc).mpr htop⟩
  · rw [hlinks, hroot]
    exact h.rootless
  · rw [hroot] at hx
    rw [huppers x hx, hlinks, h.uppers]
  · exact (hcons g).mpr ((h.mem_gated hc g).mp hg).1
  · rw [hlinks, hroot]
    exact h.rooted ((hcons x).mp hx)

/-- The consumers that `commit` makes the producers wait for cover the graph exactly when every
    consumer that none depends on is on the highest level; then no run overruns a consumer. -/
theorem gated_covers [DecidableEq κ] [DecidableEq τ] (root : κ) (calls : List (κ × κ))
    {c : Configure κ} (hc : (Configure.configured root calls).commit = (c, none)) :
    ((∀ x, c.Consumer x → c.Covers x) ↔ (Configure.configured root calls).SinksOnTop) ∧
      ((Configure.configured root calls).SinksOnTop →
        ∀ (node : τ → κ) (multi : κ → Bool), Setup.Fit ⟨c, node, multi⟩ →
        ∀ (SIZE : ℕ) (rs : List (DisruptorAct τ)), Along (Disruptor.step SIZE ⟨c, node, multi⟩)
          (Disruptor.Clean SIZE ⟨c, node, multi⟩) (Disruptor.start SIZE ⟨c, node, multi⟩) rs →
        Disruptor.NoOverrun SIZE ⟨c, node, multi⟩
          (rs.foldl (Disruptor.step SIZE ⟨c, node, multi⟩)
            (Disruptor.start SIZE ⟨c, node, multi⟩))) := by
  have hgood := Configure.configured_good root calls
  refine ⟨hgood.covers_iff hc, fun htop node multi hfit SIZE rs hrun => ?_⟩
  have hgated : Setup.Gated ⟨c, node, multi⟩ := hgood.gated htop hc
  have hsound :=
    Along.preserves
      (fun hok h => Disruptor.step_sound hgated hfit hok h) rs hrun Disruptor.start_sound
  exact hsound.noOverrun hgated

/-- Two consumers, one with a multi-thread barrier, depend on a third; the producer fills a buffer
    of one slot a second time. -/
theorem gated_covers_second_lap :
    let c := (Configure.configured (0 : Fin 4) [(1, 0), (2, 1), (3, 1)]).commit.1
    let pass :=
      fun (t : Fin 4) (n : ℕ) => DisruptorAct.begins t false 1 :: List.replicate n
        (.advances t false)
    let rs := pass 0 16 ++ pass 1 7 ++ pass 2 7 ++ pass 3 7 ++ pass 0 18
    let s := rs.foldl (Disruptor.step 1 ⟨c, id, (· = 3)⟩) (Disruptor.start 1 ⟨c, id, (· = 3)⟩)
    (∀ x, c.Consumer x → c.Covers x) ∧ s.calls 0 = .copies 1 2 0 ∧ (s.barriers 2).Finished 1 ∧
      (s.barriers 3).Finished 1 := by
  intro c pass rs s
  have hc : (Configure.configured (0 : Fin 4) [(1, 0), (2, 1), (3, 1)]).commit = (c, none) :=
    Prod.ext rfl (by decide +kernel)
  have htop : (Configure.configured (0 : Fin 4) [(1, 0), (2, 1), (3, 1)]).SinksOnTop := by
    unfold Configure.SinksOnTop Configure.Consumer Linked
    decide +kernel
  have hfit : Setup.Fit ⟨c, id, (· = 3)⟩ := by
    have honly : ∀ t, 3 ∈ c.uppers t → t = 0 := by decide +kernel
    refine ⟨fun _ _ h _ => h,
      fun x ⟨_, hx⟩ => ⟨fun t t' ht ht' => ?_, fun h => absurd h (by decide +kernel)⟩⟩
    obtain rfl : x = 3 := of_decide_eq_true hx
    exact (honly t ht).trans (honly t' ht').symm
  obtain ⟨hcover, hruns⟩ := gated_covers (τ := Fin 4) (0 : Fin 4) [(1, 0), (2, 1), (3, 1)] hc
  have hcalls : s.calls 0 = .copies 1 2 0 := by decide +kernel
  have hclean : Along (Disruptor.step 1 ⟨c, id, (· = 3)⟩) (Disruptor.Clean 1 ⟨c, id, (· = 3)⟩)
      (Disruptor.start 1 ⟨c, id, (· = 3)⟩) rs := by
    decide +kernel
  have hroot : 0 = c.root := by decide +kernel
  have hcons : ∀ x : Fin 4, x ≠ 0 → c.linkSet x ≠ [] := by decide +kernel
  clear_value c rs
  have hfree := hruns htop id (· = 3) hfit 1 rs hclean
  exact ⟨hcover.mpr htop, hcalls,
    hfree 0 1 2 0 hroot hcalls Nat.one_pos 2 (hcons 2 (by decide)) 1 (by decide)
    (by decide) (by decide),
    hfree 0 1 2 0 hroot hcalls Nat.one_pos 3 (hcons 3 (by decide)) 1 (by decide)
    (by decide) (by decide)⟩

/-- Consumer 2 depends on the disruptor as 1 does, and 3 on 1: the producer waits for 3 alone and
    writes over what 2 has not read. -/
theorem shallow_sink_overrun :
    let c := (Configure.configured (0 : Fin 4) [(1, 0), (2, 0), (3, 1)]).commit.1
    let pass :=
      fun (t : Fin 4) (n : ℕ) => DisruptorAct.begins t false 1 :: List.replicate n
        (.advances t false)
    let rs := pass 0 4 ++ pass 1 7 ++ pass 3 7 ++ pass 0 5
    (Configure.configured (0 : Fin 4) [(1, 0), (2, 0), (3, 1)]).commit.2 = none ∧ c.Consumer 2 ∧
      ¬ c.Covers 2 ∧
        Along (Disruptor.step 1 ⟨c, id, fun _ => false⟩) (Disruptor.Clean 1 ⟨c, id, fun _ => false⟩)
        (Disruptor.start 1 ⟨c, id, fun _ => false⟩) rs ∧
      ¬ Disruptor.NoOverrun 1 ⟨c, id, fun _ => false⟩
        (rs.foldl (Disruptor.step 1 ⟨c, id, fun _ => false⟩)
        (Disruptor.start 1 ⟨c, id, fun _ => false⟩)) := by
  intro c pass rs
  have hcons : c.linkSet 2 ≠ [] := by decide +kernel
  refine ⟨by decide +kernel, hcons, ?_, by decide +kernel, ?_⟩
  · rintro ⟨g, hg, hreach⟩
    have honly : ∀ g ∈ c.uppers c.root, g = 3 := by decide +kernel
    obtain rfl := honly g hg
    exact Configure.not_reaches_of_checkRing 5 3 (by decide +kernel) hreach
  · generalize hs : rs.foldl (Disruptor.step 1 ⟨c, id, fun _ => false⟩)
      (Disruptor.start 1 ⟨c, id, fun _ => false⟩) = s
    have hcalls : s.calls 0 = .copies 1 2 0 := by
      rw [← hs]
      decide +kernel
    have hunread :
        (match s.barriers 2 with | .st b => decide (1 < b.ready) | .mt _ => true) = false := by
      rw [← hs]
      decide +kernel
    have hroot : 0 = c.root := by decide +kernel
    clear_value c
    intro h
    have hfin := h 0 1 2 0 hroot hcalls Nat.one_pos 2 hcons 1 (by decide) (by decide) (by decide)
    cases hb : s.barriers 2 with
    | st b =>
      rw [hb] at hfin hunread
      exact of_decide_eq_false hunread hfin
    | mt b =>
      rw [hb] at hunread
      cases hunread

end Matching.Ring
