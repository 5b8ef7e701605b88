import Matching.Ring.Spsc

/-! The single-producer single-consumer queue is a bounded first-in first-out queue: in every
    interleaving, what was dequeued and what is stored are together what was accepted, in order. The
    exceptions are a reader whose block passes the end of the buffer (it is indexed through its
    first part twice) and sequence numbers past `uint64_t`. -/

namespace Matching.Ring

open BarrierSt

variable {α : Type}

/-! ### The invariant -/

/-- The items of the block that is being copied in. -/
def Producer.offer : Producer α → List α
  | .copies items _ _ => items
  | _ => []

/-- The sequence number of the next slot to be written, where the numbers before
    `ready` are published. -/
def Producer.next (ready : ℕ) : Producer α → ℕ
  | .copies _ base k => base + k
  | _ => ready

/-- The producer's call works on the numbers that follow the published ones, and copies only into
    slots the consumer has released. -/
def Producer.Ok (SIZE reserved ready released : ℕ) : Producer α → Prop
  | .idle => reserved = ready
  | .waits tries items base =>
    base = ready ∧ items.length ≤ sizeToPow2 SIZE ∧ base + items.length < 2 ^ 64 ∧
    reserved = if tries then base else base + items.length
  | .copies items base k => base = ready ∧ k ≤ items.length ∧ base + items.length < 2 ^ 64 ∧
      base + items.length ≤ released + sizeToPow2 SIZE ∧ reserved = base + items.length

/-- The consumer's call works on the numbers that follow the released ones, and copies
    only published items. -/
def Consumer.Ok (SIZE reserved ready published : ℕ) : Consumer → Prop
  | .idle => reserved = ready
  | .waits tries how size base => base = ready ∧ how.Offered tries size ∧ how.Fits SIZE size base ∧
      reserved = if tries then base else base + size
  | .copies how size base k => base = ready ∧ k ≤ size ∧ (∃ tries, how.Offered tries size) ∧
      how.Fits SIZE size base ∧ base + size ≤ published ∧ reserved = base + size

/-- The consumer stays right when more is published. -/
theorem Consumer.Ok.mono {SIZE reserved ready published published' : ℕ} {c : Consumer}
    (h : c.Ok SIZE reserved ready published) (hle : published ≤ published') :
    c.Ok SIZE reserved ready published' := by
  cases c with
  | idle => exact h
  | waits => exact h
  | copies how size base k =>
    obtain ⟨hbase, hk, hoff, hfits, hthere, hres⟩ := h
    exact ⟨hbase, hk, hoff, hfits, hthere.trans hle, hres⟩

/-- The producer stays right when more is released. -/
theorem Producer.Ok.mono {SIZE reserved ready released released' : ℕ} {p : Producer α}
    (h : p.Ok SIZE reserved ready released) (hle : released ≤ released') :
    p.Ok SIZE reserved ready released' := by
  cases p with
  | idle => exact h
  | waits => exact h
  | copies items base k =>
    obtain ⟨hbase, hk, hfits, hfree, hres⟩ := h
    exact ⟨hbase, hk, hfits, hfree.trans (Nat.add_le_add_right hle _), hres⟩

/-- What is written lies between what is published and a lap past what is released. -/
theorem Producer.Ok.next_between {SIZE reserved ready released : ℕ} {p : Producer α}
    (h : p.Ok SIZE reserved ready released) (hroom : ready ≤ released + sizeToPow2 SIZE) :
    ready ≤ p.next ready ∧ p.next ready ≤ released + sizeToPow2 SIZE := by
  cases p with
  | idle => exact ⟨le_refl _, hroom⟩
  | waits => exact ⟨le_refl _, hroom⟩
  | copies items base k =>
    obtain ⟨hbase, hk, -, hfree, -⟩ := h
    simp only [Producer.next]
    omega

namespace Spsc

section
variable (SIZE : ℕ)

structure Sound (s : Spsc α) : Prop where
  prod : s.prod.Ok SIZE s.writeBarrier.reserved s.writeBarrier.ready s.readBarrier.ready
  cons : s.cons.Ok SIZE s.readBarrier.reserved s.readBarrier.ready s.writeBarrier.ready
  readCache : sizeToPow2 SIZE ≤ s.readBarrier.readyCache ∧
    s.readBarrier.readyCache ≤ s.readBarrier.ready
  writeCache : sizeToPow2 SIZE ≤ s.writeBarrier.readyCache ∧
    s.writeBarrier.readyCache ≤ s.writeBarrier.ready
  accepted : s.writeBarrier.ready = sizeToPow2 SIZE + s.accepted.length
  dequeued : s.dequeued = s.accepted.take (s.cons.next s.readBarrier.ready - sizeToPow2 SIZE)
  room : s.writeBarrier.ready ≤ s.readBarrier.ready + sizeToPow2 SIZE
  published : s.readBarrier.ready ≤ s.writeBarrier.ready
  laid : Laid (sizeToPow2 SIZE) (sizeToPow2 SIZE) (s.accepted ++ s.prod.offer) s.slots
    (s.cons.next s.readBarrier.ready) (s.prod.next s.writeBarrier.ready)

/-- The calls the class has, with sizes up to the capacity. -/
def Called : Act α → Prop
  | .enqueues _ items => items.length ≤ sizeToPow2 SIZE
  | .dequeues tries how size => how.Offered tries size ∧ size ≤ sizeToPow2 SIZE
  | _ => True

instance (a : Act α) : Decidable (Called SIZE a) := by
  unfold Called
  split <;> infer_instance

/-- Such a call, with sequence numbers that `uint64_t` holds and no reader that passes
    the end of the buffer. -/
def Clean (s : Spsc α) : Act α → Prop
  | .enqueues _ items =>
    items.length ≤ sizeToPow2 SIZE ∧ s.writeBarrier.reserved + items.length < 2 ^ 64
  | .dequeues tries how size => how.Offered tries size ∧ how.Fits SIZE size s.readBarrier.reserved
  | _ => True

instance (s : Spsc α) (a : Act α) : Decidable (s.Clean SIZE a) := by
  unfold Clean
  split <;> infer_instance

end

variable {SIZE : ℕ} {moved : α → α} {s : Spsc α}

theorem start_sound (slots : ℕ → α) : (start SIZE slots).Sound SIZE where
  prod := rfl
  cons := rfl
  readCache := ⟨le_refl _, le_refl _⟩
  writeCache := ⟨le_refl _, le_refl _⟩
  accepted := rfl
  dequeued := by simp [start]
  room := Nat.le_add_right _ _
  published := le_refl _
  laid := Laid.empty (le_refl _)

/-- What the consumer has copied out lies between what it has released and what is published. -/
theorem Sound.taken (h : s.Sound SIZE) :
    s.readBarrier.ready ≤ s.taken ∧ s.taken ≤ s.writeBarrier.ready := by
  have hc := h.cons
  have hp := h.published
  unfold Spsc.taken
  cases hcons : s.cons with
  | idle => exact ⟨le_refl _, hp⟩
  | waits => exact ⟨le_refl _, hp⟩
  | copies how size base k =>
    rw [hcons] at hc
    obtain ⟨hbase, hk, -, -, hpub, -⟩ := hc
    simp only [Consumer.next]
    omega

/-! ### One step -/

theorem enqueues_sound (h : s.Sound SIZE) {tries : Bool} {items : List α}
    (hok : s.Clean SIZE (.enqueues tries items)) :
    (s.enqueues tries items).Sound SIZE := by
  obtain ⟨hsize, hfits⟩ := hok
  have hprod := h.prod
  have hlaid := h.laid
  unfold enqueues
  split
  · next hidle =>
    rw [hidle] at hprod hlaid
    exact { h with prod := ⟨hprod, hsize, hfits, rfl⟩, laid := hlaid }
  · next hidle =>
    rw [hidle] at hprod hlaid
    exact { h with prod := ⟨hprod, hsize, hfits, add64_eq hfits⟩, laid := hlaid }
  · exact h

theorem produces_sound (h : s.Sound SIZE) : (s.produces SIZE).Sound SIZE := by
  have hprod := h.prod
  have hlaid := h.laid
  have htaken := h.taken
  have hpublished := h.accepted
  unfold produces
  split
  · exact h
  -- it waits: there is room by the position of the reader it has seen, which is not ahead of it
  · next tries items base hp =>
    rw [hp] at hprod hlaid
    obtain ⟨rfl, hsize, hfits, hres⟩ := hprod
    have hstored : Laid (sizeToPow2 SIZE)
        (sizeToPow2 SIZE) s.accepted s.slots s.taken s.writeBarrier.ready := by
      simpa only [Producer.offer, List.append_nil, Producer.next, Spsc.taken] using hlaid
    have hmin : sub64 (add64 s.writeBarrier.ready items.length) (sizeToPow2 SIZE) =
        s.writeBarrier.ready + items.length - sizeToPow2 SIZE := by
      rw [add64_eq hfits, sub64_eq hfits (by omega)]
    simp only [hmin]
    rw [refresh_eq]
    have hcache :=
      refresh_between h.readCache (s.writeBarrier.ready + items.length - sizeToPow2 SIZE)
    split
    · next hpass =>
      have hroom := (le_of_passes hpass).trans hcache.2
      have hfree : s.writeBarrier.ready + items.length ≤
        s.readBarrier.ready + sizeToPow2 SIZE := by omega
      have hwrite :
          (if tries = true then s.writeBarrier.setReserve (add64 s.writeBarrier.ready items.length)
            else s.writeBarrier) =
          { s.writeBarrier with reserved := s.writeBarrier.ready + items.length } := by
        cases tries with
        | true => simp only [if_true, setReserve, add64_eq hfits]
        | false =>
          simp only [Bool.false_eq_true, if_false] at hres ⊢
          rw [← hres]
      rw [hwrite]
      exact { h with
        prod := ⟨rfl, Nat.zero_le _, hfits, hfree, rfl⟩
        readCache := hcache
        laid := hstored.append }
    · next hpass =>
      cases tries with
      | true => exact { h with prod := hres, readCache := hcache, laid := hlaid }
      | false =>
        exact { h with prod := ⟨rfl, hsize, hfits, hres⟩, readCache := hcache, laid := hlaid }
  -- it copies the item `k`, or publishes the block behind the last one
  · next items base k hp =>
    rw [hp] at hprod hlaid
    obtain ⟨rfl, hk, hfits, hfree, hres⟩ := hprod
    simp only [Producer.offer, Producer.next] at hlaid
    split
    · next v hv =>
      have hlt := (List.getElem?_eq_some_iff.mp hv).1
      have hitem : (s.accepted ++ items)[s.writeBarrier.ready + k - sizeToPow2 SIZE]? = some v := by
        rw [hpublished, Nat.add_assoc, Nat.add_sub_cancel_left,
          List.getElem?_append_right (by omega), Nat.add_sub_cancel_left, hv]
      rw [blockSlot_eq hlt (by omega)]
      exact { h with
        prod := ⟨rfl, hlt, hfits, hfree, hres⟩
        laid := hlaid.extend (sizeToPow2_pos SIZE) (by unfold Spsc.taken at htaken; omega) hitem }
    · next hnone =>
      obtain rfl : k = items.length := by
        have hle := List.getElem?_eq_none_iff.mp hnone
        omega
      have hset : s.writeBarrier.set (add64 s.writeBarrier.ready items.length) =
          { s.writeBarrier with ready := s.writeBarrier.ready + items.length } := by
            rw [BarrierSt.set, add64_eq hfits]
      have hdequeued : s.dequeued = (s.accepted ++ items).take
          (s.cons.next s.readBarrier.ready - sizeToPow2 SIZE) := by
        unfold Spsc.taken at htaken
        rw [h.dequeued, List.take_append_of_le_length (by omega)]
      rw [hset]
      exact { h with
        prod := hres
        cons := h.cons.mono (Nat.le_add_right _ _)
        writeCache := ⟨h.writeCache.1, h.writeCache.2.trans (Nat.le_add_right _ _)⟩
        accepted := by simp only [List.length_append]; omega
        dequeued := hdequeued
        room := hfree
        published := h.published.trans (Nat.le_add_right _ _)
        laid := by simpa only [Producer.offer, List.append_nil, Producer.next] using hlaid }

theorem dequeues_sound (h : s.Sound SIZE) {tries : Bool} {how : Taking} {size : ℕ}
    (hok : s.Clean SIZE (.dequeues tries how size)) : (s.dequeues tries how size).Sound SIZE := by
  obtain ⟨hoff, hfits⟩ := hok
  have hcons := h.cons
  have hlaid := h.laid
  have hdequeued := h.dequeued
  unfold dequeues
  split
  · next hidle =>
    rw [hidle] at hcons hlaid hdequeued
    exact { h with cons := ⟨hcons, hoff, hfits, rfl⟩, dequeued := hdequeued, laid := hlaid }
  · next hidle =>
    rw [hidle] at hcons hlaid hdequeued
    exact { h with
      cons := ⟨hcons, hoff, hfits, add64_eq hfits.2.1⟩, dequeued := hdequeued, laid := hlaid }
  · exact h

theorem consumes_sound (h : s.Sound SIZE) : (s.consumes SIZE moved).Sound SIZE := by
  have hcons := h.cons
  have hlaid := h.laid
  have hdequeued := h.dequeued
  have hpublished := h.accepted
  unfold consumes
  split
  · exact h
  -- it waits for what is published
  · next tries how size base hc =>
    rw [hc] at hcons hlaid hdequeued
    obtain ⟨rfl, hoff, hfits, hres⟩ := hcons
    simp only [add64_eq hfits.2.1]
    rw [refresh_eq]
    have hcache := refresh_between h.writeCache (s.readBarrier.ready + size)
    split
    · next hpass =>
      have hthere := (le_of_passes hpass).trans hcache.2
      have hread :
          (if tries = true then s.readBarrier.setReserve (s.readBarrier.ready + size)
            else s.readBarrier) =
          { s.readBarrier with reserved := s.readBarrier.ready + size } := by
        cases tries with
        | true => rfl
        | false =>
          simp only [Bool.false_eq_true, if_false] at hres ⊢
          rw [← hres]
      rw [hread]
      exact { h with
        cons := ⟨rfl, Nat.zero_le _, ⟨tries, hoff⟩, hfits, hthere, rfl⟩
        writeCache := hcache
        dequeued := hdequeued
        laid := hlaid }
    · next hpass =>
      cases tries with
      | true =>
        exact { h with cons := hres, writeCache := hcache, dequeued := hdequeued, laid := hlaid }
      | false =>
        exact { h with
          cons := ⟨rfl, hoff, hfits, hres⟩, writeCache := hcache, dequeued := hdequeued,
          laid := hlaid }
  -- it copies the item `k`, or gives the block back
  · next how size base k hc =>
    rw [hc] at hcons hlaid hdequeued
    obtain ⟨rfl, hk, ⟨tries, hoff⟩, hfits, hthere, hres⟩ := hcons
    simp only [Consumer.next] at hlaid hdequeued
    split
    · next hlt =>
      have hlow := h.readCache.1.trans h.readCache.2
      rw [Taking.slot_eq hoff hfits hlt]
      have hnext := h.prod.next_between h.room
      have hitem := hlaid (s.readBarrier.ready + k) (le_refl _) (by omega)
      have hpos := sizeToPow2_pos SIZE
      have hindex : s.readBarrier.ready + k - sizeToPow2 SIZE < s.accepted.length := by omega
      rw [List.getElem?_append_left hindex] at hitem
      refine { h with
        cons := ⟨rfl, hlt, ⟨tries, hoff⟩, hfits, hthere, hres⟩, dequeued := ?_, laid := ?_ }
      · have hsucc : s.readBarrier.ready + (k + 1) - sizeToPow2 SIZE =
          s.readBarrier.ready + k - sizeToPow2 SIZE + 1 := by omega
        simp only [Consumer.next, hsucc]
        rw [List.take_add_one, ← hdequeued, hitem]
        rfl
      · exact (hlaid.mono (Nat.le_succ _) (le_refl _)).write
          (fun i hlo hhi => ⟨by omega, by omega, by omega⟩)
    · next hnot =>
      obtain rfl : k = size := by omega
      have hset : s.readBarrier.set (add64 s.readBarrier.ready k) =
          { s.readBarrier with ready := s.readBarrier.ready + k } := by
        rw [BarrierSt.set, add64_eq hfits.2.1]
      have hroom : s.writeBarrier.ready ≤ s.readBarrier.ready + k + sizeToPow2 SIZE :=
        h.room.trans (by omega)
      rw [hset]
      exact { h with
        prod := h.prod.mono (Nat.le_add_right _ _)
        cons := hres
        readCache := ⟨h.readCache.1, h.readCache.2.trans (Nat.le_add_right _ _)⟩
        dequeued := hdequeued
        room := hroom
        published := hthere
        laid := hlaid }

theorem step_sound {a : Act α} (h : s.Sound SIZE) (hok : s.Clean SIZE a) :
    (s.step SIZE moved a).Sound SIZE := by
  cases a with
  | enqueues tries items => exact enqueues_sound h hok
  | produces => exact produces_sound h
  | dequeues tries how size => exact dequeues_sound h hok
  | consumes => exact consumes_sound h

/-! ### What the invariant says -/

/-- What was copied out and what is stored are together what was accepted, in order. -/
theorem Sound.dequeued_append_stored (h : s.Sound SIZE) :
    s.dequeued ++ s.stored SIZE = s.accepted := by
  have htaken := h.taken
  have hlow := h.readCache.1.trans h.readCache.2
  have hacc := h.accepted
  have hlaid : Laid (sizeToPow2 SIZE)
      (sizeToPow2 SIZE) s.accepted s.slots s.taken s.writeBarrier.ready := by
    intro i hlo hhi
    have hnext := h.prod.next_between h.room
    have hitem := h.laid i hlo (by omega)
    rwa [List.getElem?_append_left (by omega)] at hitem
  have hstored : s.stored SIZE = s.accepted.drop (s.taken - sizeToPow2 SIZE) := by
    simp only [stored, mode_eq]
    exact hlaid.read (by omega) (by omega) htaken.2
  rw [h.dequeued, hstored]
  exact List.take_append_drop _ _

theorem Sound.size_eq (h : s.Sound SIZE) (hSIZE : SIZE ≤ 2 ^ 63) :
    s.size = s.writeBarrier.ready - s.readBarrier.ready := by
  have hB := sizeToPow2_lt hSIZE
  have hroom := h.room
  have hpub := h.published
  rw [size, sub64, show s.writeBarrier.ready + 2 ^ 64 - s.readBarrier.ready =
    s.writeBarrier.ready - s.readBarrier.ready + 2 ^ 64 by omega, Nat.add_mod_right,
    Nat.mod_eq_of_lt (by omega)]

/-- A try to enqueue that gives up found too little room. -/
theorem Sound.refuses_enqueue (h : s.Sound SIZE) {items : List α} {base : ℕ}
    (hp : s.prod = .waits true items base) (hidle : (s.produces SIZE).prod = .idle) :
    sizeToPow2 SIZE < s.writeBarrier.ready - s.readBarrier.ready + items.length := by
  have hprod := h.prod
  rw [hp] at hprod
  obtain ⟨rfl, hsize, hfits, -⟩ := hprod
  have hacc := h.accepted
  have hpub := h.published
  have hpos := sizeToPow2_pos SIZE
  simp only [produces, hp] at hidle
  rw [add64_eq hfits, sub64_eq hfits (by omega)] at hidle
  split at hidle
  · cases hidle
  · next hpass =>
    have hshort :=
      short_of_not_passes (hpos.trans_le h.readCache.1) h.readCache.2 (Bool.eq_false_iff.mpr hpass)
    omega

/-- A try to dequeue that gives up found too few items. -/
theorem Sound.refuses_dequeue (h : s.Sound SIZE) {how : Taking} {n base : ℕ}
    (hc : s.cons = .waits true how n base) (hidle : (s.consumes SIZE moved).cons = .idle) :
    s.writeBarrier.ready - s.readBarrier.ready < n := by
  have hcons := h.cons
  rw [hc] at hcons
  obtain ⟨rfl, -, hfits, -⟩ := hcons
  have hpos := sizeToPow2_pos SIZE
  simp only [consumes, hc] at hidle
  rw [add64_eq hfits.2.1] at hidle
  split at hidle
  · cases hidle
  · next hpass =>
    have hshort :=
      short_of_not_passes (hpos.trans_le h.writeCache.1) h.writeCache.2
        (Bool.eq_false_iff.mpr hpass)
    have hpub := h.published
    omega

/-! ### Every run -/

/-- In every interleaving of clean calls: what was copied out and what is stored are together what
    was accepted, in order; the buffer size bounds what is stored; a try operation gives up only
    when the ring has too little room, or too few items, in the state it looks at. -/
theorem spsc_fifo (hSIZE : SIZE ≤ 2 ^ 63) (moved : α → α) (slots : ℕ → α) (acts : List (Act α))
    (hok : Along (step SIZE moved) (Clean SIZE) (start SIZE slots) acts) (s : Spsc α)
    (hs : s = acts.foldl (step SIZE moved) (start SIZE slots)) :
    s.dequeued ++ s.stored SIZE = s.accepted ∧ (s.stored SIZE).length ≤ s.size ∧
      s.size ≤ sizeToPow2 SIZE ∧
    (∀ items base, s.prod = .waits true items base → (s.produces SIZE).prod = .idle →
      sizeToPow2 SIZE < s.size + items.length) ∧
    (∀ how n base, s.cons = .waits true how n base → (s.consumes SIZE moved).cons = .idle →
      s.size < n) := by
  have h : s.Sound SIZE :=
    hs ▸ Along.preserves (fun hok h => step_sound h hok) acts hok (start_sound slots)
  have hroom := h.room
  have htaken := h.taken
  rw [h.size_eq hSIZE]
  refine ⟨h.dequeued_append_stored, ?_, by omega, ?_, ?_⟩
  · simp only [stored, List.length_map, List.length_range]
    omega
  · exact fun items base hp hidle => h.refuses_enqueue hp hidle
  · exact fun how n base hc hidle => h.refuses_dequeue hc hidle

/-- Three items through a ring of four slots, and a block of two that passes the end,
    read through a reader. -/
def wrappedRead : List (Act ℕ) :=
  [.blockEnqueue [1, 2, 3], .produces, .produces, .produces, .produces, .produces,
   .blockDequeue 3, .consumes, .consumes, .consumes, .consumes, .consumes,
   .blockEnqueue [4, 5], .produces, .produces, .produces, .produces,
   .readBlock 2, .consumes, .consumes, .consumes]

theorem spsc_fifo_blocks : (fun s : Spsc ℕ => s.dequeued ++ s.stored 4 = s.accepted)
    ((wrappedRead.take 17).foldl (step 4 id) (start 4 fun _ => 0)) :=
  (spsc_fifo (by decide) id (fun _ => 0) (wrappedRead.take 17) (by decide) _ rfl).1

/-- The reader gives the block's first item twice and loses the second. -/
theorem wrappedRead_repeats : (∀ a ∈ wrappedRead, Called 4 a) ∧
    (fun s : Spsc ℕ => s.accepted = [1, 2, 3, 4, 5] ∧ s.dequeued = [1, 2, 3, 4, 4] ∧
      s.dequeued ++ s.stored 4 ≠ s.accepted)
      (wrappedRead.foldl (step 4 id) (start 4 fun _ => 0)) := by
  decide

end Spsc

end Matching.Ring
