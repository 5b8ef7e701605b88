import Matching.Lib.Machine
import Matching.Ring.Mpsc

/-! The multi-producer single-consumer queue loses, duplicates and exposes nothing: in every
    interleaving of clean calls the consumer copies finished slots only, the published position ends
    a run of finished blocks, and what was dequeued is what was reserved first, in order. -/

namespace Matching.Ring

variable {ι α : Type}

/-! ### The invariant -/

/-- The block of `items` at `base` is reserved, logged and not finished. -/
structure BarrierMt.Owns (SIZE : ℕ) (b : BarrierMt) (log items : List α) (base : ℕ) : Prop where
  ends : b.ends base = base + items.length
  unfinished : b.finished base = false
  low : sizeToPow2 SIZE ≤ base
  nonempty : 0 < items.length
  logged : ∀ k v, items[k]? = some v → log[base - sizeToPow2 SIZE + k]? = some v

/-- The sequence number at which a block is reserved for the call. -/
def Hand.base : Hand α → Option ℕ
  | .waits false _ base _ => some base
  | .copies _ base _ => some base
  | _ => none

/-- The call works on a block of its own, and copies only into slots the consumer has released. -/
def Hand.Ok (SIZE : ℕ) (b : BarrierMt) (log : List α) (released : ℕ) : Hand α → Prop
  | .idle => True
  | .waits tries items base room => 0 < items.length ∧ items.length ≤ sizeToPow2 SIZE ∧
      sizeToPow2 SIZE ≤ base ∧ base + items.length < 2 ^ 64 ∧
      (tries = false → b.Owns SIZE log items base) ∧
      room.Ok (sizeToPow2 SIZE) (base + items.length - sizeToPow2 SIZE) released tries
  | .swaps items base => 0 < items.length ∧ items.length ≤ sizeToPow2 SIZE ∧
      base + items.length < 2 ^ 64 ∧ base + items.length ≤ released + sizeToPow2 SIZE
  | .copies items base k =>
    k ≤ items.length ∧ base + items.length < 2 ^ 64 ∧ b.Owns SIZE log items base ∧
    base + items.length ≤ released + sizeToPow2 SIZE

/-- The consumer's call works on the numbers that follow the released ones, and copies
    only published items. -/
def Reader.Ok (SIZE : ℕ) (b : BarrierMt) (reserved ready : ℕ) : Reader → Prop
  | .idle => reserved = ready
  | .waits tries how size base look =>
    base = ready ∧ how.Offered tries size ∧ how.Fits SIZE size base ∧
    look.Ok b tries (base + size) ∧ reserved = if tries then base else base + size
  | .copies how size base k => base = ready ∧ k ≤ size ∧ (∃ tries, how.Offered tries size) ∧
      how.Fits SIZE size base ∧ base + size ≤ b.ready ∧ reserved = base + size

namespace Mpsc

/-- The slot of `i` has been written for `i`. -/
def Written (s : Mpsc ι α) (i : ℕ) : Prop :=
  s.writeBarrier.tickets.Done i ∨ ∃ p items base k, s.prods p = .copies items base k ∧
    base ≤ i ∧ i < base + k

section
variable (SIZE : ℕ)

structure Sound (s : Mpsc ι α) : Prop where
  write : s.writeBarrier.Wf SIZE
  readCache : sizeToPow2 SIZE ≤ s.readBarrier.readyCache ∧
    s.readBarrier.readyCache ≤ s.readBarrier.ready
  released : s.readBarrier.ready ≤ s.writeBarrier.ready
  log : s.writeBarrier.reserved = sizeToPow2 SIZE + s.reserved.length
  prods : ∀ p, (s.prods p).Ok SIZE s.writeBarrier s.reserved s.readBarrier.ready
  apart : ∀ p q base, (s.prods p).base = some base → (s.prods q).base = some base → p = q
  cons : s.cons.Ok SIZE s.writeBarrier s.readBarrier.reserved s.readBarrier.ready
  laid : ∀ i, s.cons.next s.readBarrier.ready ≤ i → s.Written i →
    s.reserved[i - sizeToPow2 SIZE]? = some (s.slots (i % sizeToPow2 SIZE))
  lap : ∀ i, s.Written i → i < s.readBarrier.ready + sizeToPow2 SIZE
  dequeued : s.dequeued = s.reserved.take (s.cons.next s.readBarrier.ready - sizeToPow2 SIZE)

/-- The calls the class has, with blocks of 1 to `buffer_size` items. -/
def Called : MpscAct ι α → Prop
  | .enqueues _ _ items => 0 < items.length ∧ items.length ≤ sizeToPow2 SIZE
  | .dequeues tries how size => how.Offered tries size ∧ 0 < size ∧ size ≤ sizeToPow2 SIZE
  | _ => True

instance (a : MpscAct ι α) : Decidable (Called SIZE a) := by
  unfold Called
  split <;> infer_instance

/-- Such a call, with sequence numbers that `uint64_t` holds and no reader that passes
    the end of the buffer. -/
def Clean (s : Mpsc ι α) : MpscAct ι α → Prop
  | .enqueues _ _ items => 0 < items.length ∧ items.length ≤ sizeToPow2 SIZE ∧
      s.writeBarrier.reserved + items.length < 2 ^ 64
  | .dequeues tries how size => how.Offered tries size ∧ how.Fits SIZE size s.readBarrier.reserved
  | _ => True

instance (s : Mpsc ι α) (a : MpscAct ι α) : Decidable (s.Clean SIZE a) := by
  unfold Clean
  split <;> infer_instance

end

variable {SIZE : ℕ} {moved : α → α} {s : Mpsc ι α}

theorem start_sound (slots : ℕ → α) : (start SIZE slots : Mpsc ι α).Sound SIZE where
  write := ⟨Tickets.fresh_wf, le_refl _, le_refl _⟩
  readCache := ⟨le_refl _, le_refl _⟩
  released := le_refl _
  log := rfl
  prods := fun _ => trivial
  apart := fun _ _ _ h => nomatch h
  cons := rfl
  laid := by
    rintro i - (⟨b, hb, -⟩ | ⟨p, items, base, k, hp, -⟩)
    · cases hb
    · cases hp
  lap := by
    rintro i (⟨b, hb, -⟩ | ⟨p, items, base, k, hp, -⟩)
    · cases hb
    · cases hp
  dequeued := by simp [start]

/-- What the consumer has copied out lies between what it has released and what is published. -/
theorem Sound.taken (h : s.Sound SIZE) :
    s.readBarrier.ready ≤ s.taken ∧ s.taken ≤ s.writeBarrier.ready := by
  have hc := h.cons
  have hr := h.released
  unfold Mpsc.taken
  cases hcons : s.cons with
  | idle => exact ⟨le_refl _, hr⟩
  | waits => exact ⟨le_refl _, hr⟩
  | copies how size base k =>
    rw [hcons] at hc
    obtain ⟨hbase, hk, -, -, hpub, -⟩ := hc
    simp only [Reader.next]
    omega

end Mpsc

/-! ### What a call relies on is kept -/

section Mono
variable {SIZE released released' : ℕ} {b b' : BarrierMt} {log log' items : List α} {base : ℕ}

theorem BarrierMt.Owns.mono (h : b.Owns SIZE log items base) (hends : b'.ends base = b.ends base)
    (hfin : b'.finished base = b.finished base) (hlog : log <+: log') :
    b'.Owns SIZE log' items base := by
  refine { h with ends := hends.trans h.ends, unfinished := hfin.trans h.unfinished, logged := ?_ }
  intro k v hv
  obtain ⟨more, rfl⟩ := hlog
  have hlogged := h.logged k v hv
  rw [List.getElem?_append_left (List.getElem?_eq_some_iff.mp hlogged).1, hlogged]

theorem BarrierMt.Owns.ends_ne (h : b.Owns SIZE log items base) : b.ends base ≠ 0 := by
  have hpos := h.nonempty
  rw [h.ends]
  omega

/-- A call stays right when blocks of others are taken and finished, and when more is released. -/
theorem Hand.Ok.mono {hand : Hand α} (h : hand.Ok SIZE b log released)
    (hends : ∀ c, b.ends c ≠ 0 → b'.ends c = b.ends c)
    (hfin : ∀ c, hand.base = some c → b'.finished c = b.finished c) (hlog : log <+: log')
    (hle : released ≤ released') :
    hand.Ok SIZE b' log' released' := by
  cases hand with
  | idle => trivial
  | waits tries items base room =>
    obtain ⟨hpos, hsize, hlow, hfits, howns, hroom⟩ := h
    refine ⟨hpos, hsize, hlow, hfits, fun htries => ?_, hroom.mono hle⟩
    subst htries
    have hown := howns rfl
    exact hown.mono (hends base hown.ends_ne) (hfin base rfl) hlog
  | swaps items base =>
    obtain ⟨hpos, hsize, hfits, hfree⟩ := h
    exact ⟨hpos, hsize, hfits, hfree.trans (Nat.add_le_add_right hle _)⟩
  | copies items base k =>
    obtain ⟨hk, hfits, hown, hfree⟩ := h
    exact ⟨hk, hfits, hown.mono (hends base hown.ends_ne) (hfin base rfl) hlog,
      hfree.trans (Nat.add_le_add_right hle _)⟩

/-- A block that was reserved for a call is unfinished. -/
theorem Hand.Ok.owns {hand : Hand α} (h : hand.Ok SIZE b log released)
    (hbase : hand.base = some base) :
    ∃ items, b.Owns SIZE log items base := by
  cases hand with
  | idle => cases hbase
  | waits tries items c room =>
    cases tries with
    | true => cases hbase
    | false =>
      cases hbase
      exact ⟨items, h.2.2.2.2.1 rfl⟩
  | swaps => cases hbase
  | copies items c k =>
    cases hbase
    exact ⟨items, h.2.2.1⟩

/-- The consumer's walk stays right when blocks are taken and finished. -/
theorem Reader.Ok.mono {reserved ready : ℕ} {c : Reader} (h : c.Ok SIZE b reserved ready)
    (hready : b'.ready = b.ready) (hcache : b'.readyCache = b.readyCache)
    (hpre : ∀ p, b.tickets.Prefix p → b'.tickets.Prefix p) : c.Ok SIZE b' reserved ready := by
  cases c with
  | idle => exact h
  | waits tries how size base look =>
    obtain ⟨hbase, hoff, hfits, hlook, hres⟩ := h
    exact ⟨hbase, hoff, hfits, hlook.mono hready hcache hpre, hres⟩
  | copies how size base k =>
    obtain ⟨hbase, hk, hoff, hfits, hpub, hres⟩ := h
    exact ⟨hbase, hk, hoff, hfits, hready ▸ hpub, hres⟩

end Mono

namespace Mpsc

variable {SIZE : ℕ} {moved : α → α} {s : Mpsc ι α}

/-! ### Reserving a block -/

/-- A block is reserved: the numbers are new, so no call is affected. -/
theorem Sound.reserve (h : s.Sound SIZE) {items : List α} (hpos : 0 < items.length)
    (hsize : items.length ≤ sizeToPow2 SIZE)
    (hfits : s.writeBarrier.reserved + items.length < 2 ^ 64) : (s.reserve items).Sound SIZE := by
  have hlog := h.log
  have htickets : (s.reserve items).writeBarrier.tickets =
    s.writeBarrier.tickets.take items.length := BarrierMt.reserve_tickets hfits
  have hends : ∀ b, s.writeBarrier.ends b ≠ 0 →
      (s.reserve items).writeBarrier.ends b = s.writeBarrier.ends b := by
    intro b hb
    have hold : (s.writeBarrier.tickets.take items.length).ends b = s.writeBarrier.tickets.ends b :=
      h.write.tickets.take_old hb
    rw [← htickets] at hold
    exact hold
  have hwritten : ∀ i, (s.reserve items).Written i → s.Written i := by
    rintro i (⟨b, hfin, hlo, hhi⟩ | hcopy)
    · have hlt : i < (s.reserve items).writeBarrier.ends b := hhi
      rw [hends b (h.write.tickets.taken b hfin)] at hlt
      exact .inl ⟨b, hfin, hlo, hlt⟩
    · exact .inr hcopy
  refine { h with
    write := ⟨?_, h.write.cache⟩, log := ?_, prods := ?_, cons := ?_, laid := ?_, lap := ?_,
    dequeued := ?_ }
  · rw [htickets]
    exact h.write.tickets.take hpos hsize
  · simp only [Mpsc.reserve, BarrierMt.reserve, add64_eq hfits, List.length_append]
    omega
  · exact fun q => (h.prods q).mono hends (fun _ _ => rfl) (List.prefix_append _ _) (le_refl _)
  · refine h.cons.mono rfl rfl fun p hp => ?_
    rw [htickets]
    exact h.write.tickets.take_prefix hpos hp
  · intro i hlo hi
    have hitem := h.laid i hlo (hwritten i hi)
    simp only [Mpsc.reserve]
    rw [List.getElem?_append_left (List.getElem?_eq_some_iff.mp hitem).1, hitem]
  · exact fun i hi => h.lap i (hwritten i hi)
  · have htaken := h.taken
    have hle : s.writeBarrier.ready ≤ s.writeBarrier.reserved := h.write.tickets.ready.le
    unfold Mpsc.taken at htaken
    have hprefix : s.cons.next s.readBarrier.ready - sizeToPow2 SIZE ≤ s.reserved.length := by omega
    simp only [Mpsc.reserve]
    rw [List.take_append_of_le_length hprefix, h.dequeued]

/-- The block that was just reserved belongs to its call, and to no other. -/
theorem Sound.reserve_owns (h : s.Sound SIZE) {items : List α} (hpos : 0 < items.length)
    (hfits : s.writeBarrier.reserved + items.length < 2 ^ 64) :
    (s.reserve items).writeBarrier.Owns SIZE
      (s.reserve items).reserved items s.writeBarrier.reserved ∧
      ∀ q, (s.prods q).base ≠ some s.writeBarrier.reserved := by
  have hlog := h.log
  refine ⟨⟨?_, ?_, by omega, hpos, ?_⟩, ?_⟩
  · simp only [Mpsc.reserve, BarrierMt.reserve, Function.update_self, add64_eq hfits]
  · by_contra hfin
    have hlt :=
      h.write.tickets.lt_next (h.write.tickets.taken _ (Bool.eq_true_of_not_eq_false hfin))
    exact lt_irrefl _ hlt
  · intro k v hv
    simp only [Mpsc.reserve]
    rw [hlog, Nat.add_sub_cancel_left, List.getElem?_append_right (by omega),
      Nat.add_sub_cancel_left, hv]
  · intro q hq
    obtain ⟨items', hown⟩ := (h.prods q).owns hq
    exact lt_irrefl _ (h.write.tickets.lt_next hown.ends_ne)

end Mpsc

namespace Mpsc

variable {SIZE : ℕ} {moved : α → α} {s : Mpsc ι α}

/-! ### Steps of the consumer -/

/-- The consumer begins a call. -/
theorem dequeues_sound (h : s.Sound SIZE) {tries : Bool} {how : Taking} {size : ℕ}
    (hok : s.Clean SIZE (.dequeues tries how size)) : (s.dequeues tries how size).Sound SIZE := by
  obtain ⟨hoff, hfits⟩ := hok
  have hcons := h.cons
  have hlaid := h.laid
  have hdequeued := h.dequeued
  unfold dequeues
  split
  · next hidle =>
    rw [hidle] at hcons hlaid hdequeued
    exact { h with
      cons := ⟨hcons, hoff, hfits, trivial, rfl⟩, dequeued := hdequeued, laid := hlaid }
  · next hidle =>
    rw [hidle] at hcons hlaid hdequeued
    exact { h with
      cons := ⟨hcons, hoff, hfits, trivial, add64_eq hfits.2.1⟩, dequeued := hdequeued,
      laid := hlaid }
  · exact h

/-- The consumer has looked at the write barrier, and its call goes on, without
    having taken anything. -/
theorem Sound.looked (h : s.Sound SIZE) {b : BarrierMt} {r : BarrierSt} {c : Reader}
    (hsame : b.tickets = s.writeBarrier.tickets) (hgrows : s.writeBarrier.ready ≤ b.ready)
    (hwf : b.Wf SIZE)
    (hr : r.ready = s.readBarrier.ready ∧ r.readyCache = s.readBarrier.readyCache)
    (hc : c.Ok SIZE b r.reserved r.ready)
    (hnext : c.next r.ready = s.cons.next s.readBarrier.ready) :
    Sound SIZE { s with writeBarrier := b, readBarrier := r, cons := c } := by
  obtain ⟨hready, hrcache⟩ := hr
  have hwritten : ∀ i,
      ({ s with writeBarrier := b, readBarrier := r, cons := c } : Mpsc ι α).Written i →
      s.Written i := by
    rintro i (hdone | hcopy)
    · exact .inl (hsame ▸ hdone)
    · exact .inr hcopy
  have hres : b.reserved = s.writeBarrier.reserved := congrArg Tickets.next hsame
  refine { h with
    write := hwf
    readCache := by rw [hrcache, hready]; exact h.readCache
    released := by rw [hready]; exact h.released.trans hgrows
    log := hres.trans h.log
    prods := fun p => ?_
    cons := hc
    laid := ?_
    lap := ?_
    dequeued := by rw [hnext]; exact h.dequeued }
  · rw [hready]
    exact (h.prods p).mono (fun c _ => congrFun (congrArg Tickets.ends hsame) c)
      (fun c _ => congrFun (congrArg Tickets.finished hsame) c) (List.prefix_refl _) (le_refl _)
  · intro i hlo hi
    rw [hnext] at hlo
    exact h.laid i hlo (hwritten i hi)
  · intro i hi
    rw [hready]
    exact h.lap i (hwritten i hi)

/-- The consumer makes a step. -/
theorem consumes_sound (h : s.Sound SIZE) (weak : Bool) :
    (s.consumes SIZE moved weak).Sound SIZE := by
  have hcons := h.cons
  have hlaid := h.laid
  have hdequeued := h.dequeued
  have hlow := h.readCache.1.trans h.readCache.2
  unfold consumes
  split
  · exact h
  · next tries how size base look hc =>
    rw [hc] at hcons hlaid hdequeued
    obtain ⟨rfl, hoff, hfits, hlook, hres⟩ := hcons
    obtain ⟨hgrows, hwf, hret⟩ := BarrierMt.look_spec weak h.write hlook
    have hsame :=
      BarrierMt.look_tickets SIZE s.writeBarrier tries (s.readBarrier.ready + size) weak look
    simp only [add64_eq hfits.2.1]
    generalize s.writeBarrier.look SIZE tries (s.readBarrier.ready + size) weak look = r at *
    obtain ⟨b, look' | got⟩ := r
    · exact h.looked hsame hgrows hwf ⟨rfl, rfl⟩ ⟨rfl, hoff, hfits, hret, hres⟩ (by rw [hc]; rfl)
    · simp only
      split
      · next hfail =>
        obtain ⟨rfl, -⟩ := hfail
        exact h.looked hsame hgrows hwf ⟨rfl, rfl⟩ hres (by rw [hc]; rfl)
      · next hgo =>
        obtain ⟨hthere, -⟩ : s.readBarrier.ready + size ≤ b.ready ∧ got ≠ 0 := hret.resolve_left hgo
        have hread :
            (if tries = true then s.readBarrier.setReserve (s.readBarrier.ready + size)
              else s.readBarrier) =
            { s.readBarrier with reserved := s.readBarrier.ready + size } := by
          cases tries with
          | true => rfl
          | false =>
            simp only [Bool.false_eq_true, if_false] at hres ⊢
            rw [← hres]
        rw [hread]
        exact h.looked hsame hgrows hwf ⟨rfl, rfl⟩
          ⟨rfl, Nat.zero_le _, ⟨tries, hoff⟩, hfits, hthere, rfl⟩ (by rw [hc]; rfl)
  · next how size base k hc =>
    rw [hc] at hcons hlaid hdequeued
    obtain ⟨rfl, hk, ⟨tries, hoff⟩, hfits, hthere, hres⟩ := hcons
    simp only [Reader.next] at hlaid hdequeued
    split
    · next hlt =>
      simp only [Taking.slot_eq hoff hfits hlt]
      obtain ⟨b, hfin, hlo, hhi⟩ :=
        h.write.tickets.done (i := s.readBarrier.ready + k) (by omega) (by omega)
      have hitem := hlaid (s.readBarrier.ready + k) (le_refl _) (.inl ⟨b, hfin, hlo, hhi⟩)
      refine { h with
        cons := ⟨rfl, hlt, ⟨tries, hoff⟩, hfits, hthere, hres⟩, laid := ?_, dequeued := ?_ }
      · intro i hi hw
        simp only [Reader.next] at hi ⊢
        have hlap := h.lap i hw
        rw [Function.update_of_ne fun hsame =>
          absurd (eq_of_same_slot hsame (by omega) (by omega)) (by omega)]
        exact hlaid i (by omega) hw
      · have hsucc : s.readBarrier.ready + (k + 1) - sizeToPow2 SIZE =
          s.readBarrier.ready + k - sizeToPow2 SIZE + 1 := by omega
        simp only [Reader.next, hsucc]
        rw [List.take_add_one, ← hdequeued, hitem]
        rfl
    · next hnot =>
      obtain rfl : k = size := by omega
      have hset : s.readBarrier.set (add64 s.readBarrier.ready k) =
          { s.readBarrier with ready := s.readBarrier.ready + k } := by
        rw [BarrierSt.set, add64_eq hfits.2.1]
      rw [hset]
      exact { h with
        readCache := ⟨h.readCache.1, h.readCache.2.trans (Nat.le_add_right _ _)⟩
        released := hthere
        prods := fun p => (h.prods p).mono (fun _ _ => rfl) (fun _ _ => rfl) (List.prefix_refl _)
          (Nat.le_add_right _ _)
        cons := hres
        laid := hlaid
        lap := fun i hi => (h.lap i hi).trans_le (by simp only; omega)
        dequeued := hdequeued }

/-! ### What the invariant says -/

/-- The consumer copies an item only when its block is finished, and takes what was
    reserved under its number. -/
theorem Sound.copies (h : s.Sound SIZE) {how : Taking} {size base k : ℕ}
    (hc : s.cons = .copies how size base k) (hk : k < size) :
    s.writeBarrier.tickets.Done (base + k) ∧
      s.reserved[base + k - sizeToPow2 SIZE]? =
        some (s.slots (how.slot SIZE (mode SIZE base) size k)) := by
  have hcons := h.cons
  have hlaid := h.laid
  have hlow := h.readCache.1.trans h.readCache.2
  rw [hc] at hcons hlaid
  obtain ⟨rfl, -, ⟨tries, hoff⟩, hfits, hthere, -⟩ := hcons
  have hdone := h.write.tickets.done (i := s.readBarrier.ready + k) (by omega) (by omega)
  refine ⟨hdone, ?_⟩
  rw [Taking.slot_eq hoff hfits hk]
  exact hlaid _ (le_refl _) (.inl hdone)

/-- A producer writes no slot of an item that is published and not copied out. -/
theorem Sound.overwrites (h : s.Sound SIZE) {p : ι} {items : List α} {base k : ℕ}
    (hp : s.prods p = .copies items base k) (hk : k < items.length) (i : ℕ) (hlo : s.taken ≤ i)
    (hhi : i < s.writeBarrier.ready) :
    blockSlot SIZE (mode SIZE base) items.length k ≠ i % sizeToPow2 SIZE := by
  have hok := h.prods p
  rw [hp] at hok
  obtain ⟨-, -, hown, hfree⟩ := hok
  have htaken := h.taken
  have hbehind :=
    h.write.tickets.ready_le (p := base) hown.ends_ne (by simp [BarrierMt.tickets, hown.unfinished])
  have hsize : items.length ≤ sizeToPow2 SIZE := by
    have hb := (h.write.tickets.bounds base hown.ends_ne).2.2.1
    have he : s.writeBarrier.tickets.ends base = base + items.length := hown.ends
    omega
  have hlap := h.lap i (.inl (h.write.tickets.done (by have := h.readCache; omega) hhi))
  rw [blockSlot_eq hk hsize]
  exact fun hsame => absurd (eq_of_same_slot hsame (by omega) (by omega)) (by omega)

/-! ### Steps of a producer -/

/-- The block a producer works on is not that of another. -/
theorem Sound.own_base (h : s.Sound SIZE) {p : ι} {hand : Hand α}
    (hsame : ∀ base, hand.base = some base → (s.prods p).base = some base) :
    ∀ base, hand.base = some base → ∀ q, q ≠ p → (s.prods q).base ≠ some base :=
  fun base hb q hq hqb => hq (h.apart q p base hqb (hsame base hb))

variable [DecidableEq ι] {p : ι}

theorem move_prods (hand : Hand α) (q : ι) :
    (s.move p hand).prods q = if q = p then hand else s.prods q := by
  simp only [move, Function.update_apply]

/-- Every call is right after one producer has moved on rightly. -/
theorem move_ok {hand : Hand α} {b : BarrierMt} {log : List α} {released : ℕ}
    (hok : hand.Ok SIZE b log released) (h : ∀ q, q ≠ p → (s.prods q).Ok SIZE b log released)
    (q : ι) : ((s.move p hand).prods q).Ok SIZE b log released := by
  rw [move_prods]
  split
  · exact hok
  · next hne => exact h q hne

/-- The blocks of two calls stay apart when one moves on with a block that no other has. -/
theorem Sound.move_apart (h : s.Sound SIZE) {hand : Hand α}
    (hbase : ∀ base, hand.base = some base → ∀ q, q ≠ p → (s.prods q).base ≠ some base) (q r : ι)
    (base : ℕ) (hq : ((s.move p hand).prods q).base = some base)
    (hr : ((s.move p hand).prods r).base = some base) : q = r := by
  rw [move_prods] at hq hr
  split at hq <;> split at hr
  · next h1 h2 => rw [h1, h2]
  · next h1 h2 => exact absurd hr (hbase base hq r h2)
  · next h1 h2 => exact absurd hq (hbase base hr q h1)
  · exact h.apart q r base hq hr

/-- A producer moves on without having written anything. -/
theorem Sound.move (h : s.Sound SIZE) {hand : Hand α}
    (hok : hand.Ok SIZE s.writeBarrier s.reserved s.readBarrier.ready)
    (hbase : ∀ base, hand.base = some base → ∀ q, q ≠ p → (s.prods q).base ≠ some base)
    (hwritten : ∀ i, (s.move p hand).Written i → s.Written i) : (s.move p hand).Sound SIZE :=
  { h with
    prods := move_ok hok fun q _ => h.prods q
    apart := h.move_apart hbase
    laid := fun i hlo hi => h.laid i hlo (hwritten i hi)
    lap := fun i hi => h.lap i (hwritten i hi) }

/-- Nothing of the block that a producer is about to copy is written. -/
theorem move_written {hand : Hand α} (hk : ∀ items base k, hand = .copies items base k → k = 0)
    (i : ℕ) (hi : (s.move p hand).Written i) : s.Written i := by
  rcases hi with hdone | ⟨q, items, base, k, hq, hlo, hhi⟩
  · exact .inl hdone
  · rw [move_prods] at hq
    split at hq
    · obtain rfl := hk items base k hq
      omega
    · exact .inr ⟨q, items, base, k, hq, hlo, hhi⟩

/-- A producer begins a call. -/
theorem enqueues_sound (h : s.Sound SIZE) {tries : Bool} {items : List α}
    (hok : s.Clean SIZE (.enqueues p tries items)) :
    (s.enqueues p tries items).Sound SIZE := by
  obtain ⟨hpos, hsize, hfits⟩ := hok
  have hlow : sizeToPow2 SIZE ≤ s.writeBarrier.reserved := by rw [h.log]; omega
  unfold enqueues
  split
  · exact h.move ⟨hpos, hsize, hlow, hfits, nofun, trivial⟩ nofun (move_written nofun)
  · obtain ⟨hown, hnew⟩ := h.reserve_owns hpos hfits
    refine (h.reserve hpos hsize hfits).move ⟨hpos, hsize, hlow, hfits, fun _ => hown, trivial⟩ ?_
      (move_written nofun)
    rintro base hbase q -
    cases hbase
    exact hnew q
  · exact h

/-- A producer writes an item into its slot: no item still to be read is there. -/
theorem Sound.write_item (h : s.Sound SIZE) {items : List α} {base k : ℕ} {v : α}
    (hp : s.prods p = .copies items base k) (hv : items[k]? = some v) :
    (Mpsc.move
      { s with slots := Function.update s.slots (blockSlot SIZE (mode SIZE base) items.length k) v }
      p (.copies items base (k + 1))).Sound SIZE := by
  have hok := h.prods p
  rw [hp] at hok
  obtain ⟨-, hfits, hown, hfree⟩ := hok
  have hk := (List.getElem?_eq_some_iff.mp hv).1
  have hlow := hown.low
  have htaken := h.taken
  have hbehind :=
    h.write.tickets.ready_le (p := base) hown.ends_ne (by simp [BarrierMt.tickets, hown.unfinished])
  unfold Mpsc.taken at htaken
  have hsize : items.length ≤ sizeToPow2 SIZE := by
    have hb := (h.write.tickets.bounds base hown.ends_ne).2.2.1
    have he : s.writeBarrier.tickets.ends base = base + items.length := hown.ends
    omega
  have hslot : blockSlot SIZE (mode SIZE base) items.length k = (base + k) % sizeToPow2 SIZE :=
    blockSlot_eq hk hsize
  have hitem : s.reserved[base + k - sizeToPow2 SIZE]? = some v := by
    have hlogged := hown.logged k v hv
    rwa [show base - sizeToPow2 SIZE + k = base + k - sizeToPow2 SIZE by omega] at hlogged
  -- what is written afterwards was written before, or is the item of `base + k`
  have hwritten : ∀ i,
      (Mpsc.move
      { s with slots := Function.update s.slots (blockSlot SIZE (mode SIZE base) items.length k) v }
      p (.copies items base (k + 1))).Written i → i = base + k ∨ s.Written i := by
    rintro i (hdone | ⟨q, items', base', k', hq, hlo, hhi⟩)
    · exact .inr (.inl hdone)
    · rw [move_prods] at hq
      split at hq
      · cases hq
        rcases Nat.lt_or_ge i (base + k) with hlt | hge
        · exact .inr (.inr ⟨p, items, base, k, hp, hlo, hlt⟩)
        · exact .inl (by omega)
      · exact .inr (.inr ⟨q, items', base', k', hq, hlo, hhi⟩)
  have hlap : base + k < s.readBarrier.ready + sizeToPow2 SIZE := by omega
  refine { h with
    prods := move_ok ⟨hk, hfits, hown, hfree⟩ fun q _ => h.prods q
    apart := h.move_apart (h.own_base fun _ hb => by rw [hp]; exact hb)
    laid := ?_
    lap := ?_ }
  · intro i hlo hi
    simp only [Mpsc.move] at hlo ⊢
    rw [hslot]
    by_cases heq : i = base + k
    · rw [heq, Function.update_self, hitem]
    · have hi' := (hwritten i hi).resolve_left heq
      have hilap := h.lap i hi'
      rw [Function.update_of_ne fun hsame => heq (eq_of_same_slot hsame (by omega) (by omega))]
      exact h.laid i hlo hi'
  · intro i hi
    rcases hwritten i hi with rfl | hi'
    · exact hlap
    · exact h.lap i hi'

/-- A producer finishes its block. -/
theorem Sound.set (h : s.Sound SIZE) {items : List α} {base : ℕ}
    (hp : s.prods p = .copies items base items.length) :
    (Mpsc.move { s with
      writeBarrier := s.writeBarrier.set base (mode SIZE base) (base + items.length) }
        p .idle).Sound SIZE := by
  have hok := h.prods p
  rw [hp] at hok
  obtain ⟨-, hfits, hown, hfree⟩ := hok
  have hreleased := h.released
  have htickets : (s.writeBarrier.set base (mode SIZE base) (base + items.length)).tickets =
      s.writeBarrier.tickets.finish (sizeToPow2 SIZE) base := BarrierMt.set_tickets hown.ends
  have hwin : s.writeBarrier.tickets.ends base ≤ s.writeBarrier.ready + sizeToPow2 SIZE := by
    have he : s.writeBarrier.tickets.ends base = base + items.length := hown.ends
    omega
  have hwritten : ∀ i,
      (Mpsc.move { s with
        writeBarrier := s.writeBarrier.set base (mode SIZE base) (base + items.length) }
      p .idle).Written i → s.Written i := by
    rintro i (⟨b, hfin, hlo, hhi⟩ | ⟨q, items', base', k', hq, hlo, hhi⟩)
    · have hfin' : (s.writeBarrier.tickets.finish (sizeToPow2 SIZE) base).finished b = true := by
        rw [← htickets]; exact hfin
      rcases (Tickets.finish_finished b).mp hfin' with rfl | hb
      · have hlt : i < s.writeBarrier.ends b := hhi
        rw [hown.ends] at hlt
        exact .inr ⟨p, items, b, items.length, hp, hlo, hlt⟩
      · exact .inl ⟨b, hb, hlo, hhi⟩
    · rw [move_prods] at hq
      split at hq
      · cases hq
      · exact .inr ⟨q, items', base', k', hq, hlo, hhi⟩
  refine { h with
    write := ⟨?_, h.write.cache⟩
    prods := move_ok trivial ?_
    apart := h.move_apart nofun
    cons := ?_
    laid := fun i hlo hi => h.laid i hlo (hwritten i hi)
    lap := fun i hi => h.lap i (hwritten i hi) }
  · exact htickets ▸ h.write.tickets.finish hown.ends_ne hwin
  · intro q hq
    refine (h.prods q).mono (fun _ _ => rfl) ?_ (List.prefix_refl _) (le_refl _)
    intro c hc
    have hne : c ≠ base := fun heq => hq (h.apart q p c hc (by rw [hp, heq]; rfl))
    exact Function.update_of_ne hne _ _
  · refine h.cons.mono rfl rfl fun pre hpre => ?_
    exact htickets ▸ Tickets.finish_prefix hpre

/-- A producer makes a step. -/
theorem produces_sound (h : s.Sound SIZE) (weak : Bool) : (s.produces SIZE p weak).Sound SIZE := by
  have hok := h.prods p
  unfold produces
  split
  · exact h
  · next tries items base room hp =>
    rw [hp] at hok
    obtain ⟨hpos, hsize, hlow, hfits, hown, hroom⟩ := hok
    rw [add64_eq hfits, sub64_eq hfits (by omega)]
    obtain ⟨heq, hcache, hret⟩ := BarrierSt.look_spec (sizeToPow2_pos SIZE) h.readCache hroom
    generalize s.readBarrier.look tries (base + items.length - sizeToPow2 SIZE) room = r at *
    obtain ⟨b, room' | got⟩ := r
    -- looking for room changes the cached position of the reader only
    all_goals
      simp only at heq hcache hret ⊢
      have hs : ({ s with readBarrier := b } : Mpsc ι α).Sound SIZE := by
        rw [heq]
        exact { h with readCache := hcache }
      have hready : b.ready = s.readBarrier.ready := by rw [heq]
    · refine hs.move ⟨hpos, hsize, hlow, hfits, hown, hready ▸ hret⟩ (hs.own_base fun c hc => ?_)
        (move_written nofun)
      rw [hp]
      cases tries with
      | true => cases hc
      | false => exact hc
    · refine hs.move ?_ ?_ (move_written ?_)
      · cases tries with
        | true =>
          simp only [Bool.true_eq_false, if_false]
          split
          · trivial
          · next hgot =>
            obtain ⟨hroom', -⟩ := hret.resolve_left fun hfail => hgot hfail.2
            have hfree : base + items.length ≤ b.ready + sizeToPow2 SIZE := by omega
            exact ⟨hpos, hsize, hfits, hfree⟩
        | false =>
          obtain ⟨hroom', -⟩ := hret.resolve_left fun hfail => Bool.false_ne_true hfail.1
          have hfree : base + items.length ≤ b.ready + sizeToPow2 SIZE := by omega
          exact ⟨Nat.zero_le _, hfits, hown rfl, hfree⟩
      · refine hs.own_base fun c hc => ?_
        rw [hp]
        cases tries with
        | true =>
          simp only [Bool.true_eq_false, if_false] at hc
          split at hc <;> cases hc
        | false => exact hc
      · rintro _ _ _ hcopy
        split at hcopy
        · cases hcopy
          rfl
        · split at hcopy <;> cases hcopy
  · next items base hp =>
    rw [hp] at hok
    obtain ⟨hpos, hsize, hfits, hfree⟩ := hok
    split
    -- the exchange succeeds: from here on the block is this producer's
    · next hswap =>
      obtain ⟨rfl, -⟩ := hswap
      obtain ⟨hown', hnew⟩ := h.reserve_owns hpos hfits
      refine (h.reserve hpos hsize hfits).move ⟨Nat.zero_le _, hfits, hown', hfree⟩ ?_
        (move_written ?_)
      · rintro c hc q -
        cases hc
        exact hnew q
      · rintro _ _ _ heq
        cases heq
        rfl
    · exact h.move trivial nofun (move_written nofun)
  · next items base k hp =>
    split
    · next v hv => exact h.write_item hp hv
    · next hnone =>
      rw [hp] at hok
      obtain ⟨hk, hfits, -, -⟩ := hok
      obtain rfl : k = items.length := by
        have hle := List.getElem?_eq_none_iff.mp hnone
        omega
      rw [add64_eq hfits]
      exact h.set hp

theorem step_sound {a : MpscAct ι α} (h : s.Sound SIZE) (hok : s.Clean SIZE a) :
    (s.step SIZE moved a).Sound SIZE := by
  cases a with
  | enqueues p tries items => exact enqueues_sound h hok
  | produces p weak => exact produces_sound h weak
  | dequeues tries how size => exact dequeues_sound h hok
  | consumes weak => exact consumes_sound h weak

/-! ### Every run -/

/-- In every interleaving of clean calls: the consumer copies finished blocks only, and what was
    reserved under the number it copies; no producer overwrites what is published and not copied
    out; the published position is the end of a run of finished blocks; and what was dequeued is the
    first part of what was reserved. -/
theorem mpsc_fifo (SIZE : ℕ) (moved : α → α) (slots : ℕ → α) (acts : List (MpscAct ι α))
    (hok : Along (step SIZE moved) (Clean SIZE) (start SIZE slots) acts) (s : Mpsc ι α)
    (hs : s = acts.foldl (step SIZE moved) (start SIZE slots)) :
    (∀ how size base k, s.cons = .copies how size base k → k < size →
      s.writeBarrier.tickets.Done (base + k) ∧
      s.reserved[base + k - sizeToPow2 SIZE]? =
        some (s.slots (how.slot SIZE (mode SIZE base) size k))) ∧
    (∀ p items base k, s.prods p = .copies items base k → k < items.length → ∀ i, s.taken ≤ i →
      i < s.writeBarrier.ready →
      blockSlot SIZE (mode SIZE base) items.length k ≠ i % sizeToPow2 SIZE) ∧
    (∀ i, sizeToPow2 SIZE ≤ i → i < s.writeBarrier.ready → s.writeBarrier.tickets.Done i) ∧
    (s.writeBarrier.ready = sizeToPow2 SIZE ∨
      ∃ base, s.writeBarrier.finished base = true ∧
        s.writeBarrier.ends base = s.writeBarrier.ready) ∧
    s.dequeued = s.reserved.take (s.taken - sizeToPow2 SIZE) ∧ s.taken ≤ s.writeBarrier.ready := by
  have h : s.Sound SIZE :=
    hs ▸ Along.preserves (fun hok h => step_sound h hok) acts hok (start_sound slots)
  exact ⟨fun how size base k => h.copies, fun p items base k => h.overwrites,
    fun i => h.write.tickets.done, h.write.tickets.ready_end, h.dequeued, h.taken.2⟩

/-- Two producers on a ring of four slots finish out of order, and then a block of the second passes
    the end of the buffer and is read through a reader. -/
def outOfOrder : List (MpscAct Bool ℕ) :=
  [.enqueues false false [1, 2], .enqueues true false [3]] ++
    List.replicate 6 (.produces true false) ++ List.replicate 6 (.produces false false) ++
    .dequeues false .copy 3 :: List.replicate 20 (.consumes false) ++
    .enqueues true false [4, 5] :: List.replicate 10 (.produces true false) ++
    .dequeues true .reader 2 :: List.replicate 20 (.consumes false)

theorem mpsc_fifo_blocks :
    (fun s : Mpsc Bool ℕ => s.dequeued = s.reserved.take (s.taken - sizeToPow2 4))
    ((outOfOrder.take 46).foldl (step 4 id) (start 4 fun _ => 0)) :=
  (mpsc_fifo 4 id (fun _ => 0) (outOfOrder.take 46) (by decide +kernel) _ rfl).2.2.2.2.1

/-- The reader gives the block's first item twice and loses the second. -/
theorem outOfOrder_repeats : (∀ a ∈ outOfOrder, Called 4 a) ∧
    (fun s : Mpsc Bool ℕ => s.reserved = [1, 2, 3, 4, 5] ∧ s.dequeued = [1, 2, 3, 4, 4])
      (outOfOrder.foldl (step 4 id) (start 4 fun _ => 0)) := by
  decide +kernel

end Mpsc

end Matching.Ring
