import Matching.Lib.Custody
import Matching.Ring.MpscMoves
import Matching.Ring.ObjectPool

/-! The object pool over the multi-producer queue keeps its objects: in every interleaving of
    callers that release what they hold, the objects that are held and those in the queue are the
    objects of the buffer, each once, and a release never finds the queue full. -/

namespace Matching.Ring

variable {ι : Type}

namespace MpscPool

/-! ### A pool that is built -/

/-- A release that is under way is of one pointer, which its caller holds as long as
    nothing is reserved for it. -/
def Releases (held : List Ptr) (next : ℕ) : Hand Ptr → Prop
  | .idle => True
  | .waits tries items base _ => ∃ ptr, items = [ptr] ∧ (tries = true → ptr ∈ held ∧ base ≤ next)
  | .swaps items base => ∃ ptr, items = [ptr] ∧ ptr ∈ held ∧ base ≤ next
  | .copies items _ _ => ∃ ptr, items = [ptr]

/-- What is being released stays so while its caller holds it. -/
theorem Releases.mono {held held' : List Ptr} {next next' : ℕ} {hand : Hand Ptr}
    (h : Releases held next hand) (hheld : ∀ ptr ∈ hand.offers, ptr ∈ held → ptr ∈ held')
    (hnext : next ≤ next') : Releases held' next' hand := by
  cases hand with
  | idle => trivial
  | waits tries items base room =>
    obtain ⟨ptr, rfl, htries⟩ := h
    refine ⟨ptr, rfl, ?_⟩
    rintro rfl
    obtain ⟨hptr, hbase⟩ := htries rfl
    exact ⟨hheld ptr (List.mem_singleton_self ptr) hptr, hbase.trans hnext⟩
  | swaps items base =>
    obtain ⟨ptr, rfl, hptr, hbase⟩ := h
    exact ⟨ptr, rfl, hheld ptr (List.mem_singleton_self ptr) hptr, hbase.trans hnext⟩
  | copies items base k => exact h

/-- A release that moves on without reserving anything is of what it was of. -/
theorem Releases.goes {held : List Ptr} {next : ℕ} {hand hand' : Hand Ptr}
    (h : Releases held next hand) (hgo : hand.Goes hand') :
    Releases held next hand' ∧ ∀ ptr ∈ hand'.offers, ptr ∈ hand.offers := by
  rcases hgo with rfl | ⟨tries, items, base, room, rfl,
    ⟨room', rfl⟩ | ⟨rfl, rfl⟩ | ⟨rfl, rfl⟩⟩ | ⟨items, base, k, rfl, rfl⟩
  · exact ⟨trivial, nofun⟩
  · refine ⟨h, fun ptr hptr => ?_⟩
    cases tries with
    | true => exact hptr
    | false => cases hptr
  · obtain ⟨ptr, rfl, htries⟩ := h
    exact ⟨⟨ptr, rfl, htries rfl⟩, fun _ hptr => hptr⟩
  · obtain ⟨ptr, rfl, -⟩ := h
    exact ⟨⟨ptr, rfl⟩, nofun⟩
  · exact ⟨h, nofun⟩

/-- A call of the consumer is for one pointer. -/
def Gets : Reader → Prop
  | .idle => True
  | .waits _ how size _ _ => how = .move ∧ size = 1
  | .copies how size _ _ => how = .move ∧ size = 1

variable {SIZE : ℕ}

/-- A pool in use: the objects are held or in the queue, each once, and what is
    being released is held. -/
structure Open (SIZE : ℕ) (s : MpscPool ι) : Prop where
  sound : s.queue.Sound SIZE
  gets : Gets s.queue.cons
  custody : Custody (objects SIZE) s.held (s.waiting SIZE)
  hands : ∀ p, Releases s.held s.queue.writeBarrier.reserved (s.queue.prods p)
  apart : ∀ p q ptr, ptr ∈ (s.queue.prods p).offers → ptr ∈ (s.queue.prods q).offers → p = q

/-- A step that reserves nothing takes nothing from the callers. -/
theorem give_same {s : MpscPool ι} {q : Mpsc ι Ptr} (hlog : q.reserved = s.queue.reserved) :
    s.give q = { s with queue := q } := by
  simp only [give, hlog, List.drop_length, List.diff_nil]

/-- A step that reserves a slot for a pointer takes the pointer from its caller. -/
theorem give_one {s : MpscPool ι} {q : Mpsc ι Ptr} {ptr : Ptr}
    (hlog : q.reserved = s.queue.reserved ++ [ptr]) :
    s.give q = { s with queue := q, held := s.held.erase ptr } := by
  simp only [give, hlog, List.drop_left, List.diff_cons, List.diff_nil]

theorem length_objects : (objects SIZE).length = sizeToPow2 SIZE := by
  rw [objects, List.length_map, List.length_range]

theorem nodup_objects : (objects SIZE).Nodup := List.nodup_range.map (Option.some_injective ℕ)

namespace Open

variable {s : MpscPool ι}

/-- What the consumer has released was reserved, and there is as much again
    in the queue as waits. -/
theorem released_le (h : s.Open SIZE) : sizeToPow2 SIZE ≤ s.queue.readBarrier.ready ∧
    s.queue.writeBarrier.reserved = s.queue.readBarrier.ready + (s.waiting SIZE).length := by
  have hlow := h.sound.readCache.1.trans h.sound.readCache.2
  have hle : s.queue.writeBarrier.ready ≤ s.queue.writeBarrier.reserved :=
    h.sound.write.tickets.ready.le
  have hlog := h.sound.log
  have hreleased := h.sound.released
  refine ⟨hlow, ?_⟩
  rw [waiting, List.length_drop]
  omega

/-- The numbers reserved and not released are no more than the buffer has slots. -/
theorem reserved_le (h : s.Open SIZE) :
    s.queue.writeBarrier.reserved ≤ s.queue.readBarrier.ready + sizeToPow2 SIZE := by
  have hwait := h.released_le.2
  have hlen := h.custody.length_add
  rw [length_objects] at hlen
  omega

/-- The slot a release waits for is free already. -/
theorem room (h : s.Open SIZE) {p : ι} {tries : Bool} {items : List Ptr} {base : ℕ} {room : Room}
    (hp : s.queue.prods p = .waits tries items base room) :
    base + items.length ≤ s.queue.readBarrier.ready + sizeToPow2 SIZE := by
  have hhand := h.hands p
  have hok := h.sound.prods p
  rw [hp] at hhand hok
  obtain ⟨ptr, rfl, htries⟩ := hhand
  obtain ⟨-, -, -, -, hown, -⟩ := hok
  simp only [List.length_singleton]
  cases tries with
  | true =>
    obtain ⟨hheld, hbase⟩ := htries rfl
    have hlt := h.custody.waiting_lt hheld
    have hwait := h.released_le.2
    rw [length_objects] at hlt
    omega
  | false =>
    have hb := (h.sound.write.tickets.bounds base (hown rfl).ends_ne).2.2.2
    have he : s.queue.writeBarrier.tickets.ends base = base + 1 := (hown rfl).ends
    have hnext : s.queue.writeBarrier.tickets.next = s.queue.writeBarrier.reserved := rfl
    have hle := h.reserved_le
    omega

/-! ### Steps of a pool in use -/

/-- The consumer moves on without releasing anything. -/
theorem consumer (h : s.Open SIZE) {q : Mpsc ι Ptr} (hsound : q.Sound SIZE) (hgets : Gets q.cons)
    (hlog : q.reserved = s.queue.reserved) (hprods : q.prods = s.queue.prods)
    (hnext : q.writeBarrier.reserved = s.queue.writeBarrier.reserved)
    (hready : q.readBarrier.ready = s.queue.readBarrier.ready) :
    Open SIZE { s with queue := q } where
  sound := hsound
  gets := hgets
  custody := by
    simp only [waiting, hlog, hready]
    exact h.custody
  hands := by
    simp only [hprods, hnext]
    exact h.hands
  apart := by
    simp only [hprods]
    exact h.apart

/-- A call of the consumer begins. -/
theorem getObj (h : s.Open SIZE) (tries : Bool)
    (hfits : s.queue.readBarrier.reserved + 1 < 2 ^ 64) :
    (s.getObj tries).Open SIZE := by
  have hclean : s.queue.Clean SIZE (.dequeues tries .move 1) :=
    ⟨rfl, sizeToPow2_pos SIZE, hfits, nofun⟩
  have hgets : Gets (s.queue.dequeues tries .move 1).cons := by
    rcases s.queue.dequeues_cons tries .move 1 with ⟨-, hc⟩ | hsame
    · rw [hc]
      exact ⟨rfl, rfl⟩
    · rw [hsame]
      exact h.gets
  obtain ⟨hlog, hprods, hwrite, hready⟩ := s.queue.dequeues_frame tries .move 1
  exact h.consumer (Mpsc.dequeues_sound h.sound hclean) hgets hlog hprods
    (congrArg BarrierMt.reserved hwrite) hready

/-- The consumer's call stays one for one pointer. -/
theorem gets_consumes (h : s.Open SIZE) (weak : Bool) :
    Gets (s.queue.consumes SIZE id weak).cons := by
  have hgets := h.gets
  rcases Mpsc.consumes_cons weak with hc | ⟨tries, how, size, base, look, hc,
    ⟨look', hc'⟩ | hc'⟩ | ⟨how, size, base, k, hc, hc'⟩
  · rw [hc]
    trivial
  all_goals
    rw [hc] at hgets
    rw [hc']
    exact hgets

/-- What the consumer returns was the first pointer that waited. -/
theorem returned (h : s.Open SIZE) {how : Taking} {size base k : ℕ}
    (hc : s.queue.cons = .copies how size base k) (hk : size ≤ k) :
    add64 base size = s.queue.readBarrier.ready + 1 ∧
      ∃ ptr, s.queue.dequeued.getLast? = some ptr ∧
        s.waiting SIZE = ptr :: s.queue.reserved.drop
          (s.queue.readBarrier.ready + 1 - sizeToPow2 SIZE) := by
  have hgets := h.gets
  have hok := h.sound.cons
  have hdequeued := h.sound.dequeued
  rw [hc] at hgets hok hdequeued
  obtain ⟨rfl, rfl⟩ := hgets
  obtain ⟨rfl, hk', -, ⟨-, hfits, -⟩, hthere, -⟩ := hok
  obtain rfl : k = 1 := Nat.le_antisymm hk' hk
  obtain ⟨hlow, hwait⟩ := h.released_le
  have hle : s.queue.writeBarrier.ready ≤ s.queue.writeBarrier.reserved :=
    h.sound.write.tickets.ready.le
  have hlog := h.sound.log
  refine ⟨add64_eq hfits, ?_⟩
  have hlt : s.queue.readBarrier.ready - sizeToPow2 SIZE < s.queue.reserved.length := by omega
  have hsucc : s.queue.readBarrier.ready + 1 - sizeToPow2 SIZE =
    s.queue.readBarrier.ready - sizeToPow2 SIZE + 1 := by omega
  refine ⟨s.queue.reserved[s.queue.readBarrier.ready - sizeToPow2 SIZE], ?_, ?_⟩
  · rw [hdequeued, Reader.next, hsucc, List.take_succ_eq_append_getElem hlt, List.getLast?_concat]
  · rw [waiting, hsucc, List.drop_eq_getElem_cons hlt]

/-- A step of the consumer hands out nothing, or a pointer that waited. -/
theorem gets_held (h : s.Open SIZE) (weak : Bool) : (s.gets SIZE weak).held = s.held ∨
    ∃ ptr ∈ objects SIZE, ptr ∉ s.held ∧ (s.gets SIZE weak).held = s.held ++ [ptr] := by
  unfold MpscPool.gets
  split
  · next how size base k hc =>
    split
    · exact .inl rfl
    · next hnot =>
      obtain ⟨-, ptr, hlast, hwait⟩ := h.returned hc (Nat.le_of_not_lt hnot)
      have hmem : ptr ∈ s.waiting SIZE := by
        rw [hwait]
        exact List.mem_cons_self
      obtain ⟨hobj, hnew⟩ := h.custody.fresh hmem
      exact .inr ⟨ptr, hobj, hnew, by simp only [hlast, Option.toList_some]⟩
  · exact .inl rfl

/-- The consumer makes a step. -/
theorem consume (h : s.Open SIZE) (weak : Bool) : (s.gets SIZE weak).Open SIZE := by
  have hsound : (s.queue.consumes SIZE id weak).Sound SIZE := Mpsc.consumes_sound h.sound weak
  have hgets := h.gets_consumes weak
  obtain ⟨hlog, hprods, hnext⟩ : (s.queue.consumes SIZE id weak).reserved = s.queue.reserved ∧
    _ ∧ _ := Mpsc.consumes_frame weak
  have hstay := fun hready => h.consumer hsound hgets hlog hprods hnext hready
  rcases @Mpsc.consumes_ready _ _ SIZE id s.queue weak with
    ⟨hk, hready⟩ | ⟨how, size, base, k, hc, hk, heq⟩
  · unfold MpscPool.gets
    split
    · next how size base k hc =>
      rw [if_pos (hk how size base k hc)]
      exact hstay hready
    · exact hstay hready
  · obtain ⟨hbase, ptr, hlast, hwait⟩ := h.returned hc hk
    have hcust := h.custody
    rw [hwait] at hcust
    unfold MpscPool.gets
    simp only [hc, if_neg (Nat.not_lt.mpr hk), hlast, Option.toList_some]
    refine ⟨hsound, hgets, ?_, fun p => ?_, ?_⟩
    · simp only [waiting, heq, BarrierSt.set, hbase]
      exact hcust.lend
    · simp only [hprods, hnext]
      exact (h.hands p).mono (fun x _ hx => List.mem_append_left _ hx) (le_refl _)
    · simp only [hprods]
      exact h.apart

/-- A producer moves on, and what its call takes from its callers is given back. -/
theorem producer (h : s.Open SIZE) {q : Mpsc ι Ptr} {p : ι} {held : List Ptr}
    (hsound : q.Sound SIZE) (hready : q.readBarrier.ready = s.queue.readBarrier.ready)
    (hcons : q.cons = s.queue.cons) (hothers : ∀ r, r ≠ p → q.prods r = s.queue.prods r)
    (hnext : s.queue.writeBarrier.reserved ≤ q.writeBarrier.reserved)
    (hcust :
      Custody (objects SIZE) held (q.reserved.drop (s.queue.readBarrier.ready - sizeToPow2 SIZE)))
    (hheld : ∀ r, r ≠ p → ∀ ptr ∈ (s.queue.prods r).offers, ptr ∈ s.held → ptr ∈ held)
    (hhand : Releases held q.writeBarrier.reserved (q.prods p))
    (hoffers : ∀ ptr ∈ (q.prods p).offers, ∀ r, r ≠ p → ptr ∉ (s.queue.prods r).offers) :
    Open SIZE { s with queue := q, held := held } where
  sound := hsound
  gets := by
    simp only [hcons]
    exact h.gets
  custody := by
    simp only [waiting, hready]
    exact hcust
  hands := by
    intro r
    by_cases hr : r = p
    · exact hr ▸ hhand
    · simp only [hothers r hr]
      exact (h.hands r).mono (hheld r hr) hnext
  apart := by
    intro r t ptr hptr hptr'
    by_cases hr : r = p <;> by_cases ht : t = p
    · exact hr.trans ht.symm
    · simp only [hr, hothers t ht] at hptr hptr'
      exact absurd hptr' (hoffers ptr hptr t ht)
    · simp only [ht, hothers r hr] at hptr hptr'
      exact absurd hptr (hoffers ptr hptr' r hr)
    · simp only [hothers r hr, hothers t ht] at hptr hptr'
      exact h.apart r t ptr hptr hptr'

/-- The pointer for which a slot is reserved joins those that wait. -/
theorem reserved (h : s.Open SIZE) {ptr : Ptr} (hptr : ptr ∈ s.held) :
    Custody (objects SIZE) (s.held.erase ptr)
      ((s.queue.reserved ++ [ptr]).drop (s.queue.readBarrier.ready - sizeToPow2 SIZE)) := by
  have hwait := h.released_le
  have hlog := h.sound.log
  rw [List.drop_append_of_le_length (by omega)]
  exact h.custody.giveBack hptr

variable [DecidableEq ι]

/-- A release begins. -/
theorem releaseObj (h : s.Open SIZE) {p : ι} {tries : Bool} {ptr : Ptr} (hptr : ptr ∈ s.held)
    (halone : ∀ r, ptr ∉ (s.queue.prods r).offers)
    (hfits : s.queue.writeBarrier.reserved + 1 < 2 ^ 64) :
    (s.releaseObj p tries ptr).Open SIZE := by
  have hclean : s.queue.Clean SIZE (.enqueues p tries [ptr]) :=
    ⟨Nat.one_pos, sizeToPow2_pos SIZE, hfits⟩
  have hsound := Mpsc.enqueues_sound h.sound hclean
  unfold MpscPool.releaseObj
  rcases s.queue.enqueues_cases p tries [ptr] with ⟨rfl, heq⟩ | ⟨rfl, heq⟩ | heq
  · rw [heq] at hsound ⊢
    rw [give_same (q := s.queue.move p _) rfl]
    refine h.producer (p := p) hsound rfl rfl (fun r hr => ?_) (le_refl _) h.custody
      (fun _ _ _ _ hx => hx) ?_ ?_
    · rw [Mpsc.move_prods, if_neg hr]
    · rw [Mpsc.move_prods, if_pos rfl]
      exact ⟨ptr, rfl, fun _ => ⟨hptr, le_refl _⟩⟩
    · rw [Mpsc.move_prods, if_pos rfl]
      rintro x hx r -
      obtain rfl := List.mem_singleton.mp hx
      exact halone r
  · rw [heq] at hsound ⊢
    rw [give_one (q := (s.queue.reserve [ptr]).move p _) rfl]
    refine h.producer (p := p) hsound rfl rfl (fun r hr => ?_) ?_ (h.reserved hptr)
      (fun r _ x hx hheld => ?_) ?_ ?_
    · rw [Mpsc.move_prods, if_neg hr]
      rfl
    · exact (Nat.le_succ _).trans_eq (add64_eq hfits).symm
    · refine Custody.still_held hheld ?_
      rintro rfl
      exact halone r hx
    · rw [Mpsc.move_prods, if_pos rfl]
      exact ⟨ptr, rfl, nofun⟩
    · rw [Mpsc.move_prods, if_pos rfl]
      exact nofun
  · rw [heq, give_same rfl]
    exact h

/-- A release makes a step. -/
theorem releases (h : s.Open SIZE) (p : ι) (weak : Bool) : (s.releases SIZE p weak).Open SIZE := by
  have hsound : (s.queue.produces SIZE p weak).Sound SIZE := Mpsc.produces_sound h.sound weak
  obtain ⟨hready, -, hcons, hothers⟩ : (s.queue.produces SIZE p weak).readBarrier.ready =
      _ ∧ _ ∧ _ ∧ _ :=
    Mpsc.produces_frame weak
  have hhand := h.hands p
  unfold MpscPool.releases
  rcases @Mpsc.produces_log _ _ _ SIZE s.queue p weak with ⟨hlog, hnext, hgo⟩ | ⟨items, hp, heq⟩
  · obtain ⟨hrel, hoffers⟩ := hhand.goes hgo
    rw [give_same hlog]
    refine h.producer hsound hready hcons hothers hnext.ge ?_ (fun _ _ _ _ hx => hx)
      (hnext ▸ hrel) ?_
    · rw [hlog]
      exact h.custody
    · intro x hx r hr hother
      exact hr (h.apart r p x hother (hoffers x hx))
  · have hok := h.sound.prods p
    rw [hp] at hhand hok
    obtain ⟨ptr, rfl, hptr, -⟩ := hhand
    obtain ⟨-, -, hfits, -⟩ := hok
    have hmine : ptr ∈ (s.queue.prods p).offers := by
      rw [hp]
      exact List.mem_singleton_self ptr
    rw [heq] at hsound hothers ⊢
    rw [give_one (q := (s.queue.reserve [ptr]).move p _) rfl]
    refine h.producer hsound rfl rfl hothers ?_ (h.reserved hptr) (fun r hr x hx hheld => ?_) ?_ ?_
    · exact (Nat.le_succ _).trans_eq (add64_eq hfits).symm
    · refine Custody.still_held hheld ?_
      rintro rfl
      exact hr (h.apart r p x hx hmine)
    · rw [Mpsc.move_prods, if_pos rfl]
      exact ⟨ptr, rfl⟩
    · rw [Mpsc.move_prods, if_pos rfl]
      exact nofun

end Open

/-! ### The constructor -/

/-- What the constructor has put into the queue. -/
def logged (SIZE : ℕ) : Building → List Ptr
  | .warm i => List.replicate i none
  | .warming i | .cool i | .cooling i => List.replicate (i + 1) none
  | .fill i => List.replicate (sizeToPow2 SIZE) none ++ (List.range i).map some
  | .filling i => List.replicate (sizeToPow2 SIZE) none ++ (List.range (i + 1)).map some
  | .done => List.replicate (sizeToPow2 SIZE) none ++ objects SIZE

/-- How often the constructor has called `dequeue`. -/
def asked (SIZE : ℕ) : Building → ℕ
  | .warm i | .warming i | .cool i => i
  | .cooling i => i + 1
  | .fill _ | .filling _ | .done => sizeToPow2 SIZE

/-- The round the constructor is in is one there is. -/
def InRange (SIZE : ℕ) : Building → Prop
  | .warm i | .fill i => i ≤ sizeToPow2 SIZE
  | .warming i | .cool i | .cooling i | .filling i => i < sizeToPow2 SIZE
  | .done => True

/-- The producer's call blocks until it has room. -/
def Blocks : Hand Ptr → Prop
  | .waits tries _ _ _ => tries = false
  | .swaps _ _ => False
  | _ => True

theorem Blocks.goes {hand hand' : Hand Ptr} (h : Blocks hand) (hgo : hand.Goes hand') :
    Blocks hand' := by
  rcases hgo with rfl | ⟨tries, items, base, room, rfl,
    ⟨room', rfl⟩ | ⟨rfl, rfl⟩ | ⟨rfl, rfl⟩⟩ | ⟨items, base, k, rfl, rfl⟩
  · trivial
  · exact h
  · cases h
  · trivial
  · trivial

/-- The consumer's call blocks until it has an item. -/
def Waits : Reader → Prop
  | .waits tries _ _ _ _ => tries = false
  | _ => True

/-- The constructor's thread enqueues in the rounds that have an `enqueue` under way. -/
def Puts : Building → Hand Ptr → Prop
  | .warming _, hand | .filling _, hand => Blocks hand
  | _, hand => hand = .idle

/-- It dequeues in the rounds that have a `dequeue` under way. -/
def Takes : Building → Reader → Prop
  | .cooling _, cons => Waits cons
  | _, cons => cons = .idle

/-- The constructor runs alone. -/
structure Rising (SIZE : ℕ) (owner : ι) (q : Mpsc ι Ptr) (b : Building) : Prop where
  sound : q.Sound SIZE
  range : InRange SIZE b
  log : q.reserved = logged SIZE b
  asked : q.readBarrier.reserved = sizeToPow2 SIZE + asked SIZE b
  puts : Puts b (q.prods owner)
  takes : Takes b q.cons
  alone : ∀ p, p ≠ owner → q.prods p = .idle

namespace Rising

variable {owner : ι} {q : Mpsc ι Ptr} {b b' : Building}

/-- The constructor goes to another line, between two steps of the queue. -/
theorem moves (h : Rising SIZE owner q b) (hrange : InRange SIZE b')
    (hlog : logged SIZE b' = logged SIZE b)
    (hasked : MpscPool.asked SIZE b' = MpscPool.asked SIZE b) (hputs : Puts b' (q.prods owner))
    (htakes : Takes b' q.cons) :
    Rising SIZE owner q b' :=
  { h with
    range := hrange, log := hlog ▸ h.log, asked := hasked ▸ h.asked, puts := hputs,
    takes := htakes }

/-- What the constructor leaves: every object is in the queue, and nothing else that waits. -/
theorem finished (h : Rising SIZE owner q .done) : Open SIZE ⟨q, .done, []⟩ := by
  have hcons : q.cons = .idle := h.takes
  have hprods : ∀ p, q.prods p = .idle := by
    intro p
    by_cases hp : p = owner
    · exact hp ▸ h.puts
    · exact h.alone p hp
  have hready := h.sound.cons
  rw [hcons] at hready
  have hreleased : q.readBarrier.ready - sizeToPow2 SIZE = sizeToPow2 SIZE := by
    have hasked := h.asked
    simp only [Reader.Ok, MpscPool.asked] at hready hasked
    omega
  refine ⟨h.sound, by rw [hcons]; trivial, ?_, fun p => by rw [hprods p]; trivial,
    fun p r ptr hp => ?_⟩
  · have hwait : q.reserved.drop (q.readBarrier.ready - sizeToPow2 SIZE) = objects SIZE := by
      rw [h.log, hreleased, logged, List.drop_left' List.length_replicate]
    refine ⟨nodup_objects, ?_⟩
    rw [waiting, hwait]
    exact List.Perm.refl _
  · rw [hprods p] at hp
    cases hp

/-- The constructor goes on with a `dequeue`. -/
theorem consume {i : ℕ} (h : Rising SIZE owner q (.cooling i)) (weak : Bool) :
    Rising SIZE owner (q.consumes SIZE id weak) (.cooling i) := by
  have hsound : (q.consumes SIZE id weak).Sound SIZE := Mpsc.consumes_sound h.sound weak
  have htakes : Waits q.cons := h.takes
  obtain ⟨hlog, hprods, -⟩ : (q.consumes SIZE id weak).reserved = _ ∧ _ ∧ _ :=
    Mpsc.consumes_frame weak
  have hasked : (q.consumes SIZE id weak).readBarrier.reserved = q.readBarrier.reserved := by
    refine Mpsc.consumes_reserved weak fun how size base look hc => ?_
    rw [hc] at htakes
    cases htakes
  refine ⟨hsound, h.range, hlog.trans h.log, hasked.trans h.asked, hprods ▸ h.puts, ?_,
    hprods ▸ h.alone⟩
  rcases @Mpsc.consumes_cons _ _ SIZE id q weak with
    hc | ⟨tries, how, size, base, look, hc, ⟨look', hc'⟩ | hc'⟩ | ⟨how, size, base, k, hc, hc'⟩
  · rw [hc]
    trivial
  · rw [hc] at htakes
    rw [hc']
    exact htakes
  · rw [hc']
    trivial
  · rw [hc']
    trivial

variable [DecidableEq ι]

/-- The constructor begins to enqueue a pointer. -/
theorem enqueue (h : Rising SIZE owner q b) {ptr : Ptr} (hidle : q.prods owner = .idle)
    (hrange : InRange SIZE b') (hlog : logged SIZE b' = logged SIZE b ++ [ptr])
    (hasked : MpscPool.asked SIZE b' = MpscPool.asked SIZE b)
    (hputs : ∀ room, Puts b' (.waits false [ptr] q.writeBarrier.reserved room))
    (htakes : Takes b' q.cons) (hfits : q.writeBarrier.reserved + 1 < 2 ^ 64) :
    Rising SIZE owner (q.enqueues owner false [ptr]) b' := by
  have hclean : q.Clean SIZE (.enqueues owner false [ptr]) :=
    ⟨Nat.one_pos, sizeToPow2_pos SIZE, hfits⟩
  have hsound := Mpsc.enqueues_sound h.sound hclean
  have heq : q.enqueues owner false [ptr] = (q.reserve [ptr]).move owner
      (.waits false [ptr] q.writeBarrier.reserved .test) := by
    simp only [Mpsc.enqueues, hidle, BarrierMt.reserve]
  rw [heq] at hsound ⊢
  refine ⟨hsound, hrange, ?_, hasked ▸ h.asked, ?_, htakes, fun p hp => ?_⟩
  · rw [hlog, ← h.log]
    rfl
  · rw [Mpsc.move_prods, if_pos rfl]
    exact hputs .test
  · rw [Mpsc.move_prods, if_neg hp]
    exact h.alone p hp

/-- The constructor goes on with an `enqueue`. -/
theorem produce (h : Rising SIZE owner q b) (weak : Bool)
    (hputs : ∀ hand, Puts b hand ↔ Blocks hand) :
    Rising SIZE owner (q.produces SIZE owner weak) b := by
  have hsound : (q.produces SIZE owner weak).Sound SIZE := Mpsc.produces_sound h.sound weak
  have hblocks : Blocks (q.prods owner) := (hputs _).mp h.puts
  obtain ⟨-, hasked, hcons, hothers⟩ : _ ∧ _ ∧ (q.produces SIZE owner weak).cons = _ ∧ _ :=
    Mpsc.produces_frame weak
  rcases @Mpsc.produces_log _ _ _ SIZE q owner weak with ⟨hlog, -, hgo⟩ | ⟨items, hp, -⟩
  · exact ⟨hsound, h.range, hlog.trans h.log, hasked.trans h.asked,
      (hputs _).mpr (hblocks.goes hgo), hcons ▸ h.takes,
      fun p hp => (hothers p hp).trans (h.alone p hp)⟩
  · rw [hp] at hblocks
    cases hblocks

/-- One step of the constructor. -/
theorem builds {s : MpscPool ι} (h : Rising SIZE owner s.queue s.building) (weak : Bool)
    (hfits : s.queue.writeBarrier.reserved + 1 < 2 ^ 64 ∧
      s.queue.readBarrier.reserved + 1 < 2 ^ 64) :
    Rising SIZE owner (s.builds SIZE owner weak).queue (s.builds SIZE owner weak).building ∧
      (s.builds SIZE owner weak).held = s.held := by
  have hrange := h.range
  have hputs := h.puts
  have htakes := h.takes
  unfold MpscPool.builds
  split
  -- the warm-up enqueues a null pointer
  · next i hb =>
    rw [hb] at h hrange hputs htakes
    split
    · next hlt =>
        exact ⟨h.enqueue hputs hlt List.replicate_succ' rfl (fun _ => rfl) htakes hfits.1, rfl⟩
    · next hnot =>
      obtain rfl : i = sizeToPow2 SIZE := Nat.le_antisymm hrange (Nat.le_of_not_lt hnot)
      exact ⟨h.moves (Nat.zero_le _) (List.append_nil _) rfl hputs htakes, rfl⟩
  · next i hb =>
    rw [hb] at h hrange htakes
    split
    · next hidle => exact ⟨h.moves hrange rfl rfl hidle htakes, rfl⟩
    · exact ⟨hb ▸ h.produce weak fun _ => Iff.rfl, rfl⟩
  -- and dequeues it
  · next i hb =>
    rw [hb] at h hrange hputs htakes
    have hcons : s.queue.cons = .idle := htakes
    have hclean : s.queue.Clean SIZE (.dequeues false .move 1) :=
      ⟨rfl, sizeToPow2_pos SIZE, hfits.2, nofun⟩
    have hsound := Mpsc.dequeues_sound h.sound hclean
    obtain ⟨hlog, hprods, -, -⟩ := s.queue.dequeues_frame false .move 1
    have hasked : (s.queue.dequeues false .move 1).readBarrier.reserved =
        s.queue.readBarrier.reserved + 1 := by
      simp only [Mpsc.dequeues, hcons, BarrierSt.reserve, add64_eq hfits.2]
    refine ⟨⟨hsound, hrange, hlog.trans h.log, ?_, ?_, ?_, ?_⟩, rfl⟩
    · rw [hasked, h.asked]
      rfl
    · rw [hprods]
      exact hputs
    · rcases s.queue.dequeues_cons false .move 1 with ⟨-, hc⟩ | hsame
      · rw [hc]
        exact rfl
      · rw [hsame, hcons]
        trivial
    · rw [hprods]
      exact h.alone
  · next i hb =>
    rw [hb] at h hrange hputs
    split
    · next hidle => exact ⟨h.moves hrange rfl rfl hputs hidle, rfl⟩
    · exact ⟨hb ▸ h.consume weak, rfl⟩
  -- then the objects are enqueued
  · next i hb =>
    rw [hb] at h hrange hputs htakes
    split
    · next hlt =>
      refine ⟨h.enqueue hputs hlt ?_ rfl (fun _ => rfl) htakes hfits.1, rfl⟩
      rw [logged, logged, List.range_succ, List.map_append, List.append_assoc]
      rfl
    · next hnot =>
      obtain rfl : i = sizeToPow2 SIZE := Nat.le_antisymm hrange (Nat.le_of_not_lt hnot)
      exact ⟨h.moves trivial rfl rfl hputs htakes, rfl⟩
  · next i hb =>
    rw [hb] at h hrange htakes
    split
    · next hidle => exact ⟨h.moves hrange rfl rfl hidle htakes, rfl⟩
    · exact ⟨hb ▸ h.produce weak fun _ => Iff.rfl, rfl⟩
  · exact ⟨h, rfl⟩

end Rising

/-! ### Every run -/

variable {owner : ι}

/-- A pool that is being built, and then one in use. -/
def Kept (SIZE : ℕ) (owner : ι) (s : MpscPool ι) : Prop :=
  (s.building = .done → s.Open SIZE) ∧
    (s.building ≠ .done → s.held = [] ∧ Rising SIZE owner s.queue s.building)

theorem Kept.opened {s : MpscPool ι} (h : s.Open SIZE) (hdone : s.building = .done) :
    s.Kept SIZE owner :=
  ⟨fun _ => h, fun hnot => absurd hdone hnot⟩

theorem start_kept (slots : ℕ → Ptr) : (start SIZE slots : MpscPool ι).Kept SIZE owner :=
  ⟨nofun, fun _ => ⟨rfl, Mpsc.start_sound slots, Nat.zero_le _, rfl, rfl, rfl, rfl, fun _ _ => rfl⟩⟩

variable [DecidableEq ι]

theorem step_kept {s : MpscPool ι} {a : PoolAct ι} (hok : s.Used a) (h : s.Kept SIZE owner) :
    (s.step SIZE owner a).Kept SIZE owner := by
  cases a with
  | builds weak =>
    by_cases hdone : s.building = .done
    · have hsame : s.builds SIZE owner weak = s := by
        unfold MpscPool.builds
        rw [hdone]
      simp only [step, hsame]
      exact h
    · obtain ⟨hheld, hrising⟩ := h.2 hdone
      obtain ⟨hrising', hheld'⟩ := hrising.builds weak hok
      refine ⟨fun hdone' => ?_, fun _ => ⟨hheld'.trans hheld, hrising'⟩⟩
      simp only [step] at hdone' ⊢
      rw [hdone'] at hrising'
      have hopen := hrising'.finished
      rwa [← hdone', ← hheld, ← hheld'] at hopen
  | getObj tries => exact ⟨fun _ => (h.1 hok.1).getObj tries hok.2, fun hnot => absurd hok.1 hnot⟩
  | gets weak =>
    refine .opened ((h.1 hok).consume weak) ?_
    simp only [step, MpscPool.gets]
    split
    · split <;> exact hok
    · exact hok
  | releaseObj p tries ptr =>
    exact .opened ((h.1 hok.1).releaseObj hok.2.1 hok.2.2.1 hok.2.2.2) hok.1
  | releases p weak => exact .opened ((h.1 hok).releases p weak) hok

/-- In every interleaving of callers that release what they hold: the pointers that are held and
    those in the queue are the objects of the buffer, each once; a get returns an object that nobody
    holds, and never `nullptr`; and the slot that a release waits for is free whenever it looks. -/
theorem pool_keeps (SIZE : ℕ) (owner : ι) (slots : ℕ → Ptr) (acts : List (PoolAct ι))
    (hok : Along (step SIZE owner) Used (start SIZE slots) acts) (s : MpscPool ι)
    (hs : s = acts.foldl (step SIZE owner) (start SIZE slots)) (hdone : s.building = .done) :
    (s.held ++ s.waiting SIZE).Perm (objects SIZE) ∧ (objects SIZE).Nodup ∧
    (∀ weak, (s.gets SIZE weak).held = s.held ∨
      ∃ ptr ∈ objects SIZE, ptr ∉ s.held ∧ (s.gets SIZE weak).held = s.held ++ [ptr]) ∧
    ∀ p tries items base room, s.queue.prods p = .waits tries items base room →
      base + items.length ≤ s.queue.readBarrier.ready + sizeToPow2 SIZE := by
  have h : s.Open SIZE :=
    (hs ▸ Along.preserves step_kept acts hok (start_kept slots) : s.Kept SIZE owner).1 hdone
  exact ⟨h.custody.perm, nodup_objects, h.gets_held, fun p tries items base room => h.room⟩

/-- The constructor of a pool of two, both objects are got, and two threads release them at the same
    time: the one that tries loses the race for the slot and keeps its object. -/
def bothRelease : List (PoolAct Bool) :=
  List.replicate 64 (.builds false) ++ .getObj false :: List.replicate 20 (.gets false) ++
    .getObj true :: List.replicate 20 (.gets false) ++
    [.releaseObj true true (some 1), .releaseObj false false (some 0)] ++
    List.replicate 8 (.releases true false) ++ List.replicate 8 (.releases false false)

theorem pool_keeps_bothRelease :
    (fun s : MpscPool Bool => s.held = [some 1] ∧ s.waiting 2 = [some 0] ∧
      (s.held ++ s.waiting 2).Perm (objects 2))
      (bothRelease.foldl (step 2 false) (start 2 fun _ => none)) :=
  ⟨by decide +kernel, by decide +kernel,
    (pool_keeps 2 false (fun _ => none) bothRelease
      (by decide +kernel) _ rfl (by decide +kernel)).1⟩

end MpscPool

end Matching.Ring
