import Mathlib.Algebra.Order.BigOperators.Group.Finset
import Mathlib.Data.List.TakeWhile
import Matching.Lib.Machine
import Matching.Lib.Measure
import Matching.Proxy.Replies

/-! Every session is sent its messages in the order in which they were queued, none lost and none
    twice: no wake-up is lost between the threads that send and the service thread. A message that
    does not fit the buffer is cut. The proof is about queues that are lists; any other queue is
    seen through the list of what it holds. -/

namespace Matching.Replies

/-- The state where the queues are lists, and its step. -/
abbrev Listed (S E : Type) : Type := State S E (List Text) (List S)

variable {S E Q R : Type}

/-- Nothing has been sent. -/
abbrev Listed.init : Listed S E := State.init (.list Text) (.list S)

abbrev Listed.step [DecidableEq S] [DecidableEq E] (s : Listed S E) (a : Act S E) : Listed S E :=
  State.step (.list Text) (.list S) s a

variable {s : Listed S E} {w : S} {e : E} {text : Text}

@[simp] theorem list_tryDequeue_nil (α : Type) : (UMPSCQueue.list α).tryDequeue [] = none := rfl

@[simp] theorem list_tryDequeue_cons {α : Type} (a : α) (q : List α) :
    (UMPSCQueue.list α).tryDequeue (a :: q) = some (a, q) := rfl

@[simp] theorem list_enqueue {α : Type} (q : List α) (a : α) :
    (UMPSCQueue.list α).enqueue q a = q ++ [a] := rfl

@[simp] theorem list_size {α : Type} (q : List α) : (UMPSCQueue.list α).size q = q.length := rfl

theorem list_fifo (α : Type) : (UMPSCQueue.list α).Fifo id where
  empty := rfl
  enqueue _ _ := rfl
  tryDequeue q := by cases q <;> rfl
  size q := by simp

/-! ### The invariant -/

/-- Somebody is going to ask for a `SERVER_WRITEABLE` of the session, or has asked. -/
def Awaits (s : Listed S E) (w : S) : Prop :=
  s.writable w = true ∨ w ∈ s.wsiQueue ∨ (∃ e, s.sender e = .replied w) ∨ s.service = .wrote w

structure Sound (s : Listed S E) : Prop where
  fifo : ∀ w, s.written w ++ s.replyQueue w = s.sent w
  awaits : ∀ w, s.replyQueue w ≠ [] → Awaits s w
  cancels : s.wsiQueue ≠ [] → s.cancel = true ∨ s.service = .cancelled ∨ ∃ e, s.sender e = .queued

theorem init_sound : Sound (Listed.init : Listed S E) :=
  ⟨fun _ => rfl, fun _ hne => absurd rfl hne, fun hne => absurd rfl hne⟩

section

variable [DecidableEq E]

/-- Another thread stays where it is. -/
theorem others {x y : Sender S} (hx : s.sender e ≠ x) (h : ∃ e', s.sender e' = x) :
    ∃ e', Function.update s.sender e y e' = x := by
  obtain ⟨e', he'⟩ := h
  have hne : e' ≠ e := by
    rintro rfl
    exact hx he'
  exact ⟨e', by rw [Function.update_of_ne hne, he']⟩

/-- A thread goes on that had not put a message for the session on its queue. -/
theorem Awaits.moves {s' : Listed S E} {y : Sender S} (h : Awaits s w)
    (he : s.sender e ≠ .replied w) (hwritable : s'.writable = s.writable)
    (hqueue : s.wsiQueue ⊆ s'.wsiQueue) (hsender : s'.sender = Function.update s.sender e y)
    (hservice : s'.service = s.service) : Awaits s' w := by
  rcases h with hwrite | hmem | hsend | hserve
  · exact .inl (by rw [hwritable, hwrite])
  · exact .inr (.inl (hqueue hmem))
  · refine .inr (.inr (.inl ?_))
    rw [hsender]
    exact others he hsend
  · exact .inr (.inr (.inr (by rw [hservice, hserve])))

/-! ### Steps -/

variable [DecidableEq S]

theorem reply_sound (h : Sound s) (he : s.sender e = .idle) (w : S) (text : Text) :
    Sound (Listed.step s (.reply e w text)) := by
  refine ⟨fun w' => ?_, fun w' hne => ?_, fun hne => ?_⟩
  · rcases eq_or_ne w' w with rfl | hw
    · simp only [State.step, Function.update_self, list_enqueue]
      rw [← List.append_assoc, h.fifo w']
    · simp only [State.step, Function.update_of_ne hw]
      exact h.fifo w'
  · rcases eq_or_ne w' w with rfl | hw
    · exact .inr (.inr (.inl ⟨e, Function.update_self ..⟩))
    · simp only [State.step, Function.update_of_ne hw] at hne
      exact (h.awaits w' hne).moves (by rw [he]; simp) rfl (List.Subset.refl _) rfl rfl
  · rcases h.cancels hne with hcancel | hserve | hsend
    · exact .inl hcancel
    · exact .inr (.inl hserve)
    · exact .inr (.inr (others (by rw [he]; simp) hsend))

theorem enqueue_sound (h : Sound s) (he : s.sender e = .replied w) :
    Sound (Listed.step s (.enqueue e)) := by
  simp only [State.step, he]
  refine ⟨h.fifo, fun w' hne => ?_, fun _ => .inr (.inr ⟨e, Function.update_self ..⟩)⟩
  rcases eq_or_ne w' w with rfl | hw
  · exact .inr (.inl (List.mem_append_right _ List.mem_cons_self))
  · exact (h.awaits w' hne).moves
      (by rw [he]; simpa using hw.symm) rfl (List.subset_append_left _ _) rfl rfl

theorem cancel_sound (h : Sound s) (he : s.sender e = .queued) :
    Sound (Listed.step s (.cancel e)) := by
  refine ⟨h.fifo, fun w' hne => ?_, fun _ => .inl rfl⟩
  exact (h.awaits w' hne).moves (by rw [he]; simp) rfl (List.Subset.refl _) rfl rfl

omit [DecidableEq S] [DecidableEq E] in
/-- The service thread goes on from where it had written nothing. -/
theorem Awaits.goes {x : Service S} {c : Bool} (h : Awaits s w) (hs : s.service ≠ .wrote w) :
    Awaits { s with service := x, cancel := c } w := by
  rcases h with hwrite | hmem | hsend | hserve
  · exact .inl hwrite
  · exact .inr (.inl hmem)
  · exact .inr (.inr (.inl hsend))
  · exact absurd hserve hs

theorem dequeue_sound (h : Sound s) (hs : s.service = .cancelled) :
    Sound (Listed.step s .dequeue) := by
  cases hq : s.wsiQueue with
  | nil =>
    simp only [State.step, hq, list_tryDequeue_nil]
    refine ⟨h.fifo, fun w' hne => ?_, fun hne => absurd rfl hne⟩
    have hawaits := (h.awaits w' hne).goes (x := .polls) (c := s.cancel) (by simp [hs])
    rwa [hq] at hawaits
  | cons w rest =>
    simp only [State.step, hq, list_tryDequeue_cons]
    refine ⟨h.fifo, fun w' hne => ?_, fun _ => .inr (.inl hs)⟩
    rcases eq_or_ne w' w with rfl | hw
    · exact .inl (Function.update_self ..)
    · rcases h.awaits w' hne with hwrite | hmem | hsend | hserve
      · exact .inl (by simp only [Function.update_of_ne hw, hwrite])
      · rw [hq] at hmem
        exact .inr (.inl ((List.mem_cons.mp hmem).resolve_left hw))
      · exact .inr (.inr (.inl hsend))
      · exact .inr (.inr (.inr hserve))

omit [DecidableEq E] in
theorem write_sound (h : Sound s) (hs : s.service = .polls) (w : S) :
    Sound (s.write (.list Text) w) := by
  -- the session that is written is looked at once more
  have hawaits : ∀ w', (w' ≠ w → s.replyQueue w' ≠ []) → w' = w ∨
      Function.update s.writable w false w' = true ∨ w' ∈ s.wsiQueue ∨
        ∃ e, s.sender e = .replied w' := by
    intro w' hne
    rcases eq_or_ne w' w with rfl | hw
    · exact .inl rfl
    · rcases h.awaits w' (hne hw) with hwrite | hmem | hsend | hserve
      · exact .inr (.inl (by rw [Function.update_of_ne hw, hwrite]))
      · exact .inr (.inr (.inl hmem))
      · exact .inr (.inr (.inr hsend))
      · rw [hs] at hserve
        cases hserve
  have hcancels : s.wsiQueue ≠ [] → s.cancel = true ∨ ∃ e, s.sender e = .queued := by
    intro hne
    rcases h.cancels hne with hcancel | hserve | hsend
    · exact .inl hcancel
    · rw [hs] at hserve
      cases hserve
    · exact .inr hsend
  cases hr : s.replyQueue w with
  | nil =>
    simp only [State.write, hr, list_tryDequeue_nil]
    refine ⟨h.fifo, fun w' hne => ?_, fun hne => (hcancels hne).imp id .inr⟩
    rcases hawaits w' (fun _ => hne) with rfl | hwrite | hmem | hsend
    · exact .inr (.inr (.inr rfl))
    · exact .inl hwrite
    · exact .inr (.inl hmem)
    · exact .inr (.inr (.inl hsend))
  | cons text rest =>
    simp only [State.write, hr, list_tryDequeue_cons]
    refine ⟨fun w' => ?_, fun w' hne => ?_, fun hne => (hcancels hne).imp id .inr⟩
    · rcases eq_or_ne w' w with rfl | hw
      · simp only [Function.update_self]
        rw [List.append_assoc, List.singleton_append, ← hr, h.fifo w']
      · simp only [Function.update_of_ne hw]
        exact h.fifo w'
    · rcases hawaits w'
        (fun hw => by
          simpa only [Function.update_of_ne hw] using hne) with rfl | hwrite | hmem | hsend
      · exact .inr (.inr (.inr rfl))
      · exact .inl hwrite
      · exact .inr (.inl hmem)
      · exact .inr (.inr (.inl hsend))

/-- What `reply_queue.size()` leads to. -/
theorem size_step (hs : s.service = .wrote w) : Listed.step s .size =
    { s with
      writable := if (s.replyQueue w).isEmpty then s.writable else Function.update s.writable w true
      service := .sized } := by
  simp only [State.step, hs]
  cases s.replyQueue w <;> rfl

theorem size_sound (h : Sound s) (hs : s.service = .wrote w) : Sound (Listed.step s .size) := by
  rw [size_step hs]
  refine ⟨h.fifo, fun w' hne => ?_, fun hne => ?_⟩
  · rcases eq_or_ne w' w with rfl | hw
    · refine .inl ?_
      have hempty : (s.replyQueue w').isEmpty = false := by simpa using hne
      simp only [hempty, Bool.false_eq_true, if_false, Function.update_self]
    · rcases h.awaits w' hne with hwrite | hmem | hsend | hserve
      · refine .inl ?_
        dsimp only
        split
        · exact hwrite
        · rw [Function.update_of_ne hw, hwrite]
      · exact .inr (.inl hmem)
      · exact .inr (.inr (.inl hsend))
      · rw [hs] at hserve
        exact absurd (Service.wrote.inj hserve).symm hw
  · rcases h.cancels hne with hcancel | hserve | hsend
    · exact .inl hcancel
    · rw [hs] at hserve
      cases hserve
    · exact .inr (.inr hsend)

theorem step_sound {a : Act S E} (ha : s.Enabled a) (h : Sound s) : Sound (Listed.step s a) := by
  cases a with
  | reply e w text => exact reply_sound h ha w text
  | enqueue e =>
    obtain ⟨w, hw⟩ := ha
    exact enqueue_sound h hw
  | cancel e => exact cancel_sound h ha
  | wake =>
      exact ⟨h.fifo, fun w hne => (h.awaits w hne).goes (by simp [ha.1]), fun _ => .inr (.inl rfl)⟩
  | dequeue => exact dequeue_sound h ha
  | writeable w => exact write_sound h ha.1 w
  | size =>
    obtain ⟨w, hw⟩ := ha
    exact size_sound h hw
  | again =>
    have hs : s.service = .sized := ha
    exact ⟨h.fifo, fun w hne => (h.awaits w hne).goes (by simp [hs]), fun _ => .inl rfl⟩
  | receive => exact ⟨h.fifo, fun w hne => h.awaits w hne, fun _ => .inl rfl⟩

end

/-! ### To the end -/

/-- How far a thread is from the end of its call. -/
def Sender.rank : Sender S → ℕ
  | .idle => 0
  | .queued => 3
  | .replied _ => 10

/-- How far the service thread is from the end of its callback, and of what it asks for there. -/
def State.serviceRank (s : Listed S E) : ℕ :=
  match s.service with
  | .polls => 0
  | .cancelled => 1
  | .sized => 3
  | .wrote w => if (s.replyQueue w).isEmpty then 4 else 9

section

variable [Fintype S] [Fintype E]

/-- How many steps can be made without a further call. -/
def left (s : Listed S E) : ℕ :=
  5 * ∑ w, (s.replyQueue w).length + 5 * ∑ w, (s.writable w).toNat + 6 * s.wsiQueue.length +
    ∑ e, (s.sender e).rank + 2 * s.cancel.toNat + s.serviceRank

/-- Every such step comes closer to the end, and sends nothing. -/
theorem own_step [DecidableEq S] [DecidableEq E] {a : Act S E} (ha : s.Own a) :
    left (Listed.step s a) < left s ∧ (Listed.step s a).sent = s.sent := by
  obtain ⟨ha, hown⟩ := ha
  cases a with
  | reply e w text => cases hown
  | receive => cases hown
  | enqueue e =>
    obtain ⟨w, he⟩ := ha
    have hsender := sum_update s.sender Sender.rank e .queued
    rw [he] at hsender
    have hservice : (Listed.step s (.enqueue e)).serviceRank = s.serviceRank := by
      simp only [State.step, he]
      rfl
    simp only [left, hservice]
    simp only [State.step, he, Sender.rank, list_enqueue, List.length_append,
      List.length_singleton] at hsender ⊢
    exact ⟨by omega, trivial⟩
  | cancel e =>
    have he : s.sender e = .queued := ha
    have hsender := sum_update s.sender Sender.rank e .idle
    rw [he] at hsender
    have hservice : (Listed.step s (.cancel e)).serviceRank = s.serviceRank := rfl
    refine ⟨?_, rfl⟩
    simp only [left, hservice]
    simp only [State.step, Sender.rank, Bool.toNat_true] at hsender ⊢
    omega
  | wake =>
    refine ⟨?_, rfl⟩
    simp only [State.step, left, State.serviceRank, ha.1, ha.2, Bool.toNat_true, Bool.toNat_false]
    omega
  | dequeue =>
    have hs : s.service = .cancelled := ha
    cases hq : s.wsiQueue with
    | nil =>
      simp only [State.step, hq, list_tryDequeue_nil]
      refine ⟨?_, trivial⟩
      simp only [left, State.serviceRank, hs, hq]
      omega
    | cons w rest =>
      have hwritable := sum_update s.writable Bool.toNat w true
      simp only [State.step, hq, list_tryDequeue_cons]
      refine ⟨?_, trivial⟩
      simp only [left, State.serviceRank, hs, hq, List.length_cons, Bool.toNat_true] at hwritable ⊢
      omega
  | writeable w =>
    have hwritable := sum_update s.writable Bool.toNat w false
    rw [ha.2] at hwritable
    cases hr : s.replyQueue w with
    | nil =>
      simp only [State.step, State.write, hr, list_tryDequeue_nil]
      refine ⟨?_, trivial⟩
      simp only [left, State.serviceRank, ha.1, hr, List.isEmpty_nil, if_true, Bool.toNat_true,
        Bool.toNat_false] at hwritable ⊢
      omega
    | cons text rest =>
      have hreply := sum_update s.replyQueue List.length w rest
      simp only [State.step, State.write, hr, list_tryDequeue_cons]
      refine ⟨?_, trivial⟩
      rw [hr] at hreply
      simp only [List.length_cons, Bool.toNat_true, Bool.toNat_false] at hwritable hreply
      simp only [left, State.serviceRank, ha.1, Function.update_self]
      split <;> omega
  | size =>
    obtain ⟨w, hs⟩ := ha
    have hwritable := sum_update s.writable Bool.toNat w true
    rw [size_step hs]
    refine ⟨?_, rfl⟩
    simp only [left, State.serviceRank, hs]
    rcases hempty : (s.replyQueue w).isEmpty with _ | _
    · simp only [Bool.false_eq_true, if_false, Bool.toNat_true] at hwritable ⊢
      omega
    · simp only [if_true]
      omega
  | again =>
    have hs : s.service = .sized := ha
    refine ⟨?_, rfl⟩
    simp only [State.step, left, State.serviceRank, hs, Bool.toNat_true]
    omega

/-- A run of these steps. -/
theorem own_run [DecidableEq S] [DecidableEq E] :
    ∀ (own : List (Act S E)) {s : Listed S E}, Along Listed.step State.Own s own →
    own.length + left (own.foldl Listed.step s) ≤ left s ∧ (own.foldl Listed.step s).sent = s.sent
  | [], _, _ => ⟨by simp, rfl⟩
  | a :: own, s, hown => by
    obtain ⟨ha, hrest⟩ := hown
    obtain ⟨hless, hsent⟩ := own_step ha
    obtain ⟨hlen, hsent'⟩ := own_run own hrest
    refine ⟨?_, hsent'.trans hsent⟩
    simp only [List.length_cons, List.foldl_cons]
    omega

theorem left_le (s : Listed S E) : left s ≤
    5 * ∑ w, (s.replyQueue w).length + 6 * s.wsiQueue.length + 5 * Fintype.card S +
      10 * Fintype.card E + 11 := by
  have hwritable : ∑ w, (s.writable w).toNat ≤ Fintype.card S • 1 :=
    Finset.sum_le_card_nsmul _ _ _ fun w _ => by cases s.writable w <;> decide
  have hsender : ∑ e, (s.sender e).rank ≤ Fintype.card E • 10 :=
    Finset.sum_le_card_nsmul _ _ _ fun e _ => by cases s.sender e <;> simp [Sender.rank]
  have hservice : s.serviceRank ≤ 9 := by
    unfold State.serviceRank
    split
    · omega
    · omega
    · omega
    · split <;> omega
  have hcancel : s.cancel.toNat ≤ 1 := Bool.toNat_le _
  rw [Nat.nsmul_eq_mul] at hwritable hsender
  rw [left]
  omega

end

/-- When no step can be made without a further call, everything is written. -/
theorem Sound.stuck (h : Sound s) (hstuck : ∀ a, ¬ s.Own a) (w : S) : s.written w = s.sent w := by
  have hsender : ∀ e, s.sender e = .idle := fun e => by
    cases he : s.sender e with
    | idle => rfl
    | replied w => exact absurd ⟨⟨w, he⟩, trivial⟩ (hstuck (.enqueue e))
    | queued => exact absurd ⟨he, trivial⟩ (hstuck (.cancel e))
  have hservice : s.service = .polls := by
    cases hs : s.service with
    | polls => rfl
    | cancelled => exact absurd ⟨hs, trivial⟩ (hstuck .dequeue)
    | wrote w => exact absurd ⟨⟨w, hs⟩, trivial⟩ (hstuck .size)
    | sized => exact absurd ⟨hs, trivial⟩ (hstuck .again)
  have hqueue : s.wsiQueue = [] := by
    by_contra hne
    rcases h.cancels hne with hcancel | hs | ⟨e, he⟩
    · exact hstuck .wake ⟨⟨hservice, hcancel⟩, trivial⟩
    · rw [hservice] at hs
      cases hs
    · rw [hsender e] at he
      cases he
  have hempty : s.replyQueue w = [] := by
    by_contra hne
    rcases h.awaits w hne with hwrite | hmem | ⟨e, he⟩ | hs
    · exact hstuck (.writeable w) ⟨⟨hservice, hwrite⟩, trivial⟩
    · rw [hqueue] at hmem
      cases hmem
    · rw [hsender e] at he
      cases he
    · rw [hservice] at hs
      cases hs
  rw [← h.fifo w, hempty, List.append_nil]

/-! ### What the peer is sent -/

/-- A message arrives as it is if it fits the buffer with its terminating zero,
    and has no zero inside. -/
theorem frame_eq_iff (text : Text) : frame text = text ↔ text.length < bufferSize ∧ 0 ∉ text := by
  have hnonzero : 0 ∉ text.takeWhile (· ≠ 0) := fun hmem => by
    simpa using List.mem_takeWhile_imp hmem
  unfold frame
  constructor
  · intro heq
    by_cases hfits : (text.takeWhile (· ≠ 0)).length < bufferSize
    · simp only [if_pos hfits] at heq
      rw [heq] at hfits hnonzero
      exact ⟨hfits, hnonzero⟩
    · simp only [if_neg hfits] at heq
      -- the text is as long as the buffer, so it is all in front of its first zero
      have hlen : text.length = bufferSize := by
        rw [← heq, List.length_append, List.length_take, List.length_singleton]
        simp only [bufferSize] at hfits ⊢
        omega
      have hall : text.takeWhile (· ≠ 0) = text :=
        (List.takeWhile_prefix _).eq_of_length_le (by omega)
      rw [hall] at hnonzero
      refine absurd ?_ hnonzero
      rw [← heq]
      simp
  · rintro ⟨hfits, hzero⟩
    have hall : text.takeWhile (· ≠ 0) = text := List.takeWhile_eq_self_iff.mpr fun x hx => by
      simpa using fun h : x = 0 => hzero (h ▸ hx)
    simp only [hall, if_pos hfits]

theorem frames_eq_iff (s : State S E Q R) (w : S) :
    s.frames w = s.written w ↔ ∀ text ∈ s.written w, text.length < bufferSize ∧ 0 ∉ text := by
  have hmap : s.frames w = s.written w ↔ (s.written w).map frame = (s.written w).map id := by
    rw [List.map_id, State.frames]
  rw [hmap, List.map_inj_left]
  exact forall₂_congr fun text _ => frame_eq_iff text

/-- Of a message that does not fit, what does is sent, and a zero. -/
theorem frame_long {text : Text} (hzero : 0 ∉ text) (hlong : bufferSize ≤ text.length) :
    frame text = text.take (bufferSize - 1) ++ [0] := by
  have hall : text.takeWhile (· ≠ 0) = text := List.takeWhile_eq_self_iff.mpr fun x hx => by
    simpa using fun h : x = 0 => hzero (h ▸ hx)
  simp only [frame, hall, if_neg (Nat.not_lt.mpr hlong)]

/-! ### Every run -/

theorem listed_in_order [Fintype S] [Fintype E] [DecidableEq S] [DecidableEq E]
    (acts : List (Act S E)) (hok : Along Listed.step State.Enabled Listed.init acts)
    (s : Listed S E) (hs : s = acts.foldl Listed.step Listed.init) :
    (∀ w, s.written w <+: s.sent w) ∧ (s.written ≠ s.sent → ∃ a, s.Own a) ∧
    ∀ own, Along Listed.step State.Own s own →
      own.length ≤ 5 * ∑ w, (s.replyQueue w).length + 6 * s.wsiQueue.length + 5 * Fintype.card S +
        10 * Fintype.card E + 11 ∧
      ((∀ a, ¬ (own.foldl Listed.step s).Own a) → (own.foldl Listed.step s).written = s.sent) := by
  have h : Sound s := hs ▸ Along.preserves step_sound acts hok init_sound
  refine ⟨fun w => ⟨_, h.fifo w⟩, fun hopen => ?_, fun own hown => ?_⟩
  · by_contra hnone
    exact hopen (funext (h.stuck (not_exists.mp hnone)))
  · obtain ⟨hlen, hsent⟩ := own_run own hown
    have hleft := left_le s
    have hsound : Sound (own.foldl Listed.step s) :=
      Along.preserves (fun ha h => step_sound ha.1 h) own hown h
    refine ⟨by omega, fun hstuck => ?_⟩
    rw [← hsent]
    exact funext (hsound.stuck hstuck)

/-! ### Queues seen as lists -/

/-- The state with the lists that the queues hold. -/
def State.view (items : Q → List Text) (waiting : R → List S) (s : State S E Q R) : Listed S E where
  replyQueue w := items (s.replyQueue w)
  wsiQueue := waiting s.wsiQueue
  cancel := s.cancel
  writable := s.writable
  sender := s.sender
  service := s.service
  sent := s.sent
  written := s.written

section

variable {replies : UMPSCQueue Q Text} {wsis : UMPSCQueue R S} {items : Q → List Text}
  {waiting : R → List S}

theorem init_view (hreplies : replies.Fifo items) (hwsis : wsis.Fifo waiting) :
    (State.init replies wsis : State S E Q R).view items waiting = Listed.init := by
  simp [State.view, State.init, UMPSCQueue.list, hreplies.empty, hwsis.empty]

theorem view_enabled {s : State S E Q R} {a : Act S E} :
    (s.view items waiting).Enabled a ↔ s.Enabled a := by
  cases a <;> rfl

theorem view_own {s : State S E Q R} {a : Act S E} : (s.view items waiting).Own a ↔ s.Own a := by
  cases a <;> rfl

/-- One queue of several changes, and so does its list. -/
theorem view_update [DecidableEq S] (f : S → Q) (w : S) (q : Q) :
    (fun w' => items (Function.update f w q w')) =
      Function.update (fun w' => items (f w')) w (items q) :=
  Function.comp_update items f w q

/-- A step on queues is the step on the lists that they hold. -/
theorem step_view [DecidableEq S] [DecidableEq E] (hreplies : replies.Fifo items)
    (hwsis : wsis.Fifo waiting) (s : State S E Q R) (a : Act S E) :
    (s.step replies wsis a).view items waiting = Listed.step (s.view items waiting) a := by
  cases a with
  | reply e w text =>
    simp only [State.step, State.view, view_update, hreplies.enqueue]
    rfl
  | enqueue e =>
    simp only [State.step, State.view]
    cases s.sender e with
    | replied w => simp only [hwsis.enqueue]; rfl
    | _ => rfl
  | cancel e => rfl
  | wake => rfl
  | dequeue =>
    have hlist : (UMPSCQueue.list S).tryDequeue (waiting s.wsiQueue) = _ :=
      (hwsis.tryDequeue s.wsiQueue).symm
    simp only [State.step, State.view, hlist]
    cases wsis.tryDequeue s.wsiQueue <;> rfl
  | writeable w =>
    have hlist : (UMPSCQueue.list Text).tryDequeue (items (s.replyQueue w)) = _ :=
      (hreplies.tryDequeue (s.replyQueue w)).symm
    simp only [State.step, State.write, State.view, hlist]
    cases replies.tryDequeue (s.replyQueue w) with
    | none => rfl
    | some x => simp only [view_update, Option.map_some]
  | size =>
    cases hs : s.service with
    | wrote w =>
      rw [size_step (s := s.view items waiting) hs]
      simp only [State.step, State.view, hs, Nat.pos_iff_ne_zero, Ne, hreplies.size]
      cases items (s.replyQueue w) <;> rfl
    | _ => simp only [State.step, State.view, hs]
  | again => rfl
  | receive => rfl

/-- In every interleaving of threads that send with the service thread, with queues that are
    first in, first out: what was written to a session is what was sent to it first, in that
    order; its peer is sent the messages as they are exactly if each fits the buffer, and of
    one that does not what fits and a zero; while something is not written, a step is to be
    made without a further call; and such steps come to an end, with everything written,
    after a number that what there is to do bounds. -/
theorem replies_in_order [Fintype S] [Fintype E] [DecidableEq S] [DecidableEq E]
    (hreplies : replies.Fifo items) (hwsis : wsis.Fifo waiting) (acts : List (Act S E))
    (hok : Along (State.step replies wsis) State.Enabled (State.init replies wsis) acts)
    (s : State S E Q R) (hs : s = acts.foldl (State.step replies wsis) (State.init replies wsis)) :
    (∀ w, s.written w <+: s.sent w ∧
      (s.frames w = s.written w ↔ ∀ text ∈ s.written w, text.length < bufferSize ∧ 0 ∉ text) ∧
      ∀ text ∈ s.written w, 0 ∉ text → bufferSize ≤ text.length →
        frame text = text.take (bufferSize - 1) ++ [0]) ∧
    (s.written ≠ s.sent → ∃ a, s.Own a) ∧
    ∀ own, Along (State.step replies wsis) State.Own s own →
      own.length ≤ 5 * ∑ w, (items (s.replyQueue w)).length +
        6 * (waiting s.wsiQueue).length + 5 * Fintype.card S + 10 * Fintype.card E + 11 ∧
      ((∀ a, ¬ (own.foldl (State.step replies wsis) s).Own a) →
        (own.foldl (State.step replies wsis) s).written = s.sent) := by
  have hview := step_view (E := E) hreplies hwsis
  obtain ⟨hlisted, hlast⟩ := Along.view hview view_enabled.mpr acts hok
  rw [init_view hreplies hwsis] at hlisted hlast
  obtain ⟨hbegun, hopen, hown⟩ := listed_in_order acts hlisted (s.view items waiting) (hs ▸ hlast)
  refine ⟨fun w => ⟨hbegun w, frames_eq_iff s w, fun text _ => frame_long⟩, fun hne => ?_,
    fun own halong => ?_⟩
  · obtain ⟨a, ha⟩ := hopen hne
    exact ⟨a, view_own.mp ha⟩
  · obtain ⟨hruns, hend⟩ := Along.view hview view_own.mpr own halong
    obtain ⟨hlen, hwritten⟩ := hown own hruns
    refine ⟨hlen, fun hstuck => ?_⟩
    rw [← hend] at hwritten
    exact hwritten fun a ha => hstuck a (view_own.mp ha)

end

/-- Two threads send to one session; both messages wait when it can be
    written for the first time. -/
def bothSend : List (Act Unit Bool) :=
  [.reply false () [1], .reply true () [2], .enqueue true, .cancel true, .wake, .dequeue, .dequeue,
    .writeable (), .size, .enqueue false]

theorem replies_in_order_bothSend :
    (fun s : Listed Unit Bool => s.frames () = [[1]] ∧ s.written () <+: s.sent () ∧ ∃ a, s.Own a)
    (bothSend.foldl Listed.step Listed.init) := by
  have h := replies_in_order (list_fifo Text) (list_fifo Unit) bothSend ?_ _ rfl
  · refine ⟨by decide, (h.1 ()).1, h.2.1 fun heq => ?_⟩
    have hunit := congrFun heq ()
    revert hunit
    decide
  · simp [bothSend, Along, State.Enabled, State.step, State.init, State.write, UMPSCQueue.list]

end Matching.Replies
