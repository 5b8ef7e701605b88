import Mathlib.Algebra.Order.BigOperators.Group.Finset
import Matching.Lib.Machine
import Matching.Lib.Measure
import Matching.Lib.Stream
import Matching.Proxy.Transceiver

/-! The engine's reports reach the sessions: however the stream is cut on its way and whichever
    threads read it, the reports are queued whole, in the engine's order and once each, for every
    session from when it began. One thread reads at a time, and no wake-up is lost. -/

namespace Matching.Transceiver

variable {S T β : Type} [DecidableEq S] [DecidableEq T] {n : ℕ} {s : State S T β} {t : T} {w : S}

/-! ### The invariant -/

structure Sound (n : ℕ) (s : State S T β) : Prop where
  bytes : s.reports.flatten ++ s.recvBuf ++ s.arrived = s.incoming
  whole : ∀ r ∈ s.reports, r.length = n
  rest : (∀ t, s.pump t ≠ .receiving) → s.recvBuf.length < n
  alone : ∀ t t', s.pump t ≠ .selecting → s.pump t' ≠ .selecting → t' = t
  watched : s.readable = true ↔ ∀ t, s.pump t = .selecting
  queued : ∀ w ∈ s.sessions, s.queued w = s.reports.drop (s.joined w)
  joined : ∀ w ∈ s.sessions, s.joined w ≤ s.reports.length

omit [DecidableEq S] [DecidableEq T] in
theorem init_sound (hn : 0 < n) : Sound n (State.init : State S T β) :=
  ⟨rfl, by simp [State.init], fun _ => hn,
    fun _ _ h => absurd rfl h, by simp [State.init], by simp [State.init], by simp [State.init]⟩

/-! ### Steps -/

omit [DecidableEq S] [DecidableEq T] in
/-- While one thread is at work, the others wait. -/
theorem Sound.others (h : Sound n s) (ht : s.pump t ≠ .selecting) {t' : T} (hne : t' ≠ t) :
    s.pump t' = .selecting := by
  by_contra ht'
  exact hne (h.alone t t' ht ht')

theorem alone_update {pump : T → Pump} (hothers : ∀ t', t' ≠ t → pump t' = .selecting) (x : Pump) :
    ∀ t₁ t₂, Function.update pump t x t₁ ≠ .selecting →
      Function.update pump t x t₂ ≠ .selecting → t₂ = t₁ := by
  have hwork : ∀ t', Function.update pump t x t' ≠ .selecting → t' = t := by
    intro t' ht'
    by_contra hne
    rw [Function.update_of_ne hne] at ht'
    exact ht' (hothers t' hne)
  intro t₁ t₂ h₁ h₂
  exact (hwork t₂ h₂).trans (hwork t₁ h₁).symm

omit [DecidableEq S] in
/-- The thread that is at work goes on. -/
theorem Sound.goes (h : Sound n s) (ht : s.pump t ≠ .selecting) {x : Pump} (hx : x ≠ .selecting) :
    (∀ t₁ t₂, Function.update s.pump t x t₁ ≠ .selecting →
      Function.update s.pump t x t₂ ≠ .selecting → t₂ = t₁) ∧
      (s.readable = true ↔ ∀ t', Function.update s.pump t x t' = .selecting) := by
  refine ⟨alone_update (fun t' hne => h.others ht hne) x, ?_⟩
  refine iff_of_false (fun hread => ht (h.watched.mp hread t)) fun hall => hx ?_
  rw [← hall t, Function.update_self]

omit [DecidableEq S] [DecidableEq T] in
/-- While one thread is at work, no other is in the loop over the reports. -/
theorem Sound.rest_of (h : Sound n s) (ht : s.pump t ≠ .selecting) (hrecv : s.pump t ≠ .receiving) :
    s.recvBuf.length < n := by
  refine h.rest fun t' => ?_
  rcases eq_or_ne t' t with rfl | hne
  · exact hrecv
  · rw [h.others ht hne]
    simp

theorem select_sound (h : Sound n s) (hread : s.readable = true) (t : T) :
    Sound n (s.step n (.select t)) := by
  have hall := h.watched.mp hread
  have halone := alone_update (t := t) (fun t' _ => hall t') .selected
  refine ⟨h.bytes, h.whole, fun _ => h.rest fun t' => by rw [hall t']; simp, halone, ?_,
    h.queued, h.joined⟩
  refine iff_of_false Bool.false_ne_true fun hsel => ?_
  have hself := hsel t
  simp only [State.step, Function.update_self] at hself
  cases hself

theorem recv_sound (h : Sound n s) (ht : s.pump t = .selected) (k : ℕ) :
    Sound n (s.step n (.recv t k)) := by
  obtain ⟨halone, hwatched⟩ := h.goes (t := t) (x := .receiving) (by rw [ht]; simp) (by simp)
  refine ⟨?_, h.whole, fun hnone => ?_, halone, hwatched, h.queued, h.joined⟩
  · simp only [State.step]
    rw [← h.bytes, List.append_assoc, List.append_assoc, List.take_append_drop, List.append_assoc]
  · exact absurd (Function.update_self ..) (hnone t)

theorem receiveMessage_sound (h : Sound n s) (ht : s.pump t = .receiving) :
    Sound n (s.receiveMessage n t) := by
  unfold State.receiveMessage
  by_cases hshort : s.recvBuf.length < n
  · simp only [if_pos hshort]
    obtain ⟨halone, hwatched⟩ := h.goes (t := t) (x := .selected) (by rw [ht]; simp) (by simp)
    exact ⟨h.bytes, h.whole, fun _ => hshort, halone, hwatched, h.queued, h.joined⟩
  · simp only [if_neg hshort, State.multicast]
    refine ⟨?_, fun r hr => ?_, fun hnone => absurd ht (hnone t), h.alone, h.watched,
      fun w hw => ?_, fun w hw => ?_⟩
    · rw [← h.bytes, List.flatten_append, List.flatten_singleton,
        List.append_assoc s.reports.flatten, List.take_append_drop]
    · rcases List.mem_append.mp hr with hr | hr
      · exact h.whole r hr
      · rw [List.mem_singleton.mp hr, List.length_take]
        omega
    · have hin : w ∈ s.sessions := hw
      simp only [if_pos hin]
      rw [h.queued w hin, List.drop_append_of_le_length (h.joined w hin)]
    · have hjoined := h.joined w hw
      simp only [List.length_append]
      omega

theorem block_sound (h : Sound n s) (ht : s.pump t = .selected) :
    Sound n (s.step n (.block t)) := by
  obtain ⟨halone, hwatched⟩ := h.goes (t := t) (x := .blocked) (by rw [ht]; simp) (by simp)
  have hrest := h.rest_of (t := t) (by rw [ht]; simp) (by rw [ht]; simp)
  exact ⟨h.bytes, h.whole, fun _ => hrest, halone, hwatched, h.queued, h.joined⟩

theorem modify_sound (h : Sound n s) (ht : s.pump t = .blocked) :
    Sound n (s.step n (.modify t)) := by
  have hall : ∀ t', Function.update s.pump t .selecting t' = .selecting := by
    intro t'
    rcases eq_or_ne t' t with rfl | hne
    · rw [Function.update_self]
    · rw [Function.update_of_ne hne]
      exact h.others (by rw [ht]; simp) hne
  have hrest := h.rest_of (t := t) (by rw [ht]; simp) (by rw [ht]; simp)
  refine ⟨h.bytes, h.whole, fun _ => hrest, fun t₁ _ h₁ => ?_, ?_, h.queued, h.joined⟩
  · exact absurd (hall t₁) h₁
  · exact iff_of_true rfl hall

theorem establish_sound (h : Sound n s) (hw : w ∉ s.sessions) :
    Sound n (s.step n (.establish w)) := by
  refine ⟨h.bytes, h.whole, h.rest, h.alone, h.watched, fun w' hw' => ?_, fun w' hw' => ?_⟩
  · rcases eq_or_ne w' w with rfl | hne
    · simp only [State.step, Function.update_self, List.drop_length]
    · simp only [State.step, Function.update_of_ne hne]
      exact h.queued w'
        ((List.mem_append.mp hw').resolve_right fun hmem => hne (List.mem_singleton.mp hmem))
  · rcases eq_or_ne w' w with rfl | hne
    · simp only [State.step, Function.update_self, le_refl]
    · simp only [State.step, Function.update_of_ne hne]
      exact h.joined w'
        ((List.mem_append.mp hw').resolve_right fun hmem => hne (List.mem_singleton.mp hmem))

theorem step_sound {a : Act S T β} (ha : s.Enabled a) (h : Sound n s) : Sound n (s.step n a) := by
  cases a with
  | arrive bytes =>
    refine ⟨?_, h.whole, h.rest, h.alone, h.watched, h.queued, h.joined⟩
    simp only [State.step]
    rw [← h.bytes, List.append_assoc _ s.arrived]
  | select t => exact select_sound h ha.2.1 t
  | recv t k => exact recv_sound h ha.1 k
  | receiveMessage t => exact receiveMessage_sound h ha
  | block t => exact block_sound h ha.1
  | modify t => exact modify_sound h ha
  | establish w => exact establish_sound h ha
  | close w =>
    exact ⟨h.bytes, h.whole, h.rest, h.alone, h.watched,
      fun w' hw' => h.queued w' (List.mem_of_mem_filter hw'),
      fun w' hw' => h.joined w' (List.mem_of_mem_filter hw')⟩

/-! ### To the end -/

section

variable [Fintype T]

/-- How far a thread is from `select`. -/
def Pump.rank : Pump → ℕ
  | .selecting => 0
  | .blocked => 1
  | .selected => 2
  | .receiving => 3

/-- Bytes wait for which a thread has yet to be woken. -/
def Unseen (s : State S T β) : Prop :=
  s.arrived ≠ [] ∧ ∀ t, s.pump t = .selecting ∨ s.pump t = .blocked

open Classical in
/-- How many steps the threads can make before something else happens. -/
noncomputable def left (s : State S T β) : ℕ :=
  3 * s.arrived.length + s.recvBuf.length + ∑ t, (s.pump t).rank + if Unseen s then 3 else 0

omit [DecidableEq S] [DecidableEq T] [Fintype T] in
/-- A thread that reads has seen what waits. -/
theorem seen (ht : s.pump t = .selected ∨ s.pump t = .receiving) : ¬ Unseen s := by
  intro hunseen
  rcases hunseen.2 t with hsel | hblocked
  · rw [hsel] at ht
    simp at ht
  · rw [hblocked] at ht
    simp at ht

/-- Every such step comes closer to the end, and nothing arrives in it. -/
theorem own_step (hn : 0 < n) (h : Sound n s) {a : Act S T β} (ha : s.Own a) :
    left (s.step n a) < left s ∧ (s.step n a).incoming = s.incoming := by
  obtain ⟨ha, hown⟩ := ha
  cases a with
  | arrive bytes => cases hown
  | establish w => cases hown
  | close w => cases hown
  | select t =>
    obtain ⟨ht, hread, harrived⟩ := ha
    have hsum := sum_update s.pump Pump.rank t .selected
    have hbefore : Unseen s := ⟨harrived, fun t' => .inl (h.watched.mp hread t')⟩
    have hafter : ¬ Unseen (s.step n (.select t)) := seen (t := t) (.inl (Function.update_self ..))
    refine ⟨?_, rfl⟩
    rw [ht] at hsum
    rw [left, left, if_pos hbefore, if_neg hafter]
    simp only [State.step, Pump.rank] at hsum ⊢
    omega
  | recv t k =>
    obtain ⟨ht, hpos, hk⟩ := ha
    have hsum := sum_update s.pump Pump.rank t .receiving
    have hbefore : ¬ Unseen s := seen (t := t) (.inl ht)
    have hafter : ¬ Unseen (s.step n (.recv t k)) := seen (t := t) (.inr (Function.update_self ..))
    refine ⟨?_, rfl⟩
    rw [ht] at hsum
    rw [left, left, if_neg hbefore, if_neg hafter]
    simp only [State.step, Pump.rank, List.length_drop, List.length_append,
      List.length_take] at hsum ⊢
    omega
  | receiveMessage t =>
    have ht : s.pump t = .receiving := ha
    have hbefore : ¬ Unseen s := seen (t := t) (.inr ht)
    simp only [State.step, State.receiveMessage]
    by_cases hshort : s.recvBuf.length < n
    · have hsum := sum_update s.pump Pump.rank t .selected
      rw [if_pos hshort]
      have hafter : ¬ Unseen { s with pump := Function.update s.pump t .selected } :=
        seen (t := t) (.inl (Function.update_self ..))
      refine ⟨?_, rfl⟩
      rw [ht] at hsum
      rw [left, left, if_neg hbefore, if_neg hafter]
      simp only [Pump.rank] at hsum ⊢
      omega
    · rw [if_neg hshort]
      have hafter : ¬ Unseen { s.multicast (s.recvBuf.take n) with recvBuf := s.recvBuf.drop n } :=
        seen (t := t) (.inr ht)
      refine ⟨?_, rfl⟩
      rw [left, left, if_neg hbefore, if_neg hafter]
      simp only [State.multicast, List.length_drop]
      omega
  | block t =>
    obtain ⟨ht, harrived⟩ := ha
    have hsum := sum_update s.pump Pump.rank t .blocked
    have hbefore : ¬ Unseen s := fun hunseen => hunseen.1 harrived
    have hafter : ¬ Unseen (s.step n (.block t)) := fun hunseen => hunseen.1 harrived
    refine ⟨?_, rfl⟩
    rw [ht] at hsum
    rw [left, left, if_neg hbefore, if_neg hafter]
    simp only [State.step, Pump.rank] at hsum ⊢
    omega
  | modify t =>
    have ht : s.pump t = .blocked := ha
    have hsum := sum_update s.pump Pump.rank t .selecting
    -- the others wait, so what was unseen stays so, and nothing else becomes so
    have hunseen : Unseen (s.step n (.modify t)) → Unseen s := by
      rintro ⟨harrived, -⟩
      refine ⟨harrived, fun t' => ?_⟩
      rcases eq_or_ne t' t with rfl | hne
      · exact .inr ht
      · exact .inl (h.others (by rw [ht]; simp) hne)
    refine ⟨?_, rfl⟩
    rw [ht] at hsum
    by_cases hafter : Unseen (s.step n (.modify t))
    · rw [left, left, if_pos hafter, if_pos (hunseen hafter)]
      simp only [State.step, Pump.rank] at hsum ⊢
      omega
    · rw [left, left, if_neg hafter]
      simp only [State.step, Pump.rank] at hsum ⊢
      omega

/-- A run of these steps. -/
theorem own_run (hn : 0 < n) :
    ∀ (own : List (Act S T β)) {s : State S T β}, Sound n s → Along (State.step n) State.Own s own →
    own.length + left (own.foldl (State.step n) s) ≤ left s ∧
      (own.foldl (State.step n) s).incoming = s.incoming
  | [], _, _, _ => ⟨by simp, rfl⟩
  | a :: own, s, h, hown => by
    obtain ⟨ha, hrest⟩ := hown
    obtain ⟨hless, hsame⟩ := own_step hn h ha
    obtain ⟨hlen, hsame'⟩ := own_run hn own (step_sound ha.1 h) hrest
    refine ⟨?_, hsame'.trans hsame⟩
    simp only [List.length_cons, List.foldl_cons]
    omega

omit [DecidableEq S] [DecidableEq T] in
theorem left_le (s : State S T β) :
    left s ≤ 3 * s.arrived.length + s.recvBuf.length + 3 * Fintype.card T + 3 := by
  have hpump : ∑ t, (s.pump t).rank ≤ Fintype.card T • 3 :=
    Finset.sum_le_card_nsmul _ _ _ fun t _ => by cases s.pump t <;> decide
  rw [Nat.nsmul_eq_mul] at hpump
  rw [left]
  split <;> omega

end

omit [DecidableEq S] [DecidableEq T] in
/-- What was multicast is the beginning of what the engine sent, cut into reports. -/
theorem Sound.blocks_eq (hn : 0 < n) (h : Sound n s) :
    blocks n s.incoming = s.reports ++ blocks n (s.recvBuf ++ s.arrived) := by
  rw [← h.bytes, List.append_assoc, blocks_flatten_append hn _ _ h.whole]

omit [DecidableEq S] [DecidableEq T] in
/-- When no thread can make a step, every whole report was multicast. -/
theorem Sound.stuck [Nonempty T] (hn : 0 < n) (h : Sound n s) (hstuck : ∀ a, ¬ s.Own a) :
    s.reports = blocks n s.incoming := by
  have hsel : ∀ t, s.pump t = .selecting := fun t => by
    cases ht : s.pump t with
    | selecting => rfl
    | selected =>
      by_cases harrived : s.arrived = []
      · exact absurd ⟨⟨ht, harrived⟩, trivial⟩ (hstuck (.block t))
      · exact absurd ⟨⟨ht, Nat.one_pos, List.length_pos_of_ne_nil harrived⟩, trivial⟩
          (hstuck (.recv t 1))
    | receiving => exact absurd ⟨ht, trivial⟩ (hstuck (.receiveMessage t))
    | blocked => exact absurd ⟨ht, trivial⟩ (hstuck (.modify t))
  have harrived : s.arrived = [] := by
    by_contra hne
    exact hstuck (.select (Classical.arbitrary T)) ⟨⟨hsel _, h.watched.mpr hsel, hne⟩, trivial⟩
  have hrest : s.recvBuf.length < n := h.rest fun t => by rw [hsel t]; simp
  rw [h.blocks_eq hn, harrived, List.append_nil, blocks_of_lt hrest, List.append_nil]

/-! ### Every run -/

/-- However the engine's bytes arrive and whichever threads read them, with sessions that begin and
    end at any time: what was multicast is the engine's reports from the first on, whole and in
    order; for every session all reports since it began were queued, once each and in that order;
    one thread reads at a time; while a whole report is not multicast, a thread has a step to take;
    and such steps come to an end, with every whole report multicast, after a number that what there
    is to read bounds. -/
theorem reports_arrive [Nonempty T] [Fintype T] (hn : 0 < n) (acts : List (Act S T β))
    (hok : Along (State.step n) State.Enabled State.init acts) (s : State S T β)
    (hs : s = acts.foldl (State.step n) State.init) :
    s.reports <+: blocks n s.incoming ∧
      (∀ w ∈ s.sessions, s.queued w = s.reports.drop (s.joined w)) ∧
    (∀ t t', s.pump t ≠ .selecting → s.pump t' ≠ .selecting → t' = t) ∧
    (s.reports ≠ blocks n s.incoming → ∃ a, s.Own a) ∧
    ∀ own, Along (State.step n) State.Own s own →
      own.length ≤ 3 * s.arrived.length + s.recvBuf.length + 3 * Fintype.card T + 3 ∧
      ((∀ a, ¬ (own.foldl (State.step n) s).Own a) →
        (own.foldl (State.step n) s).reports = blocks n s.incoming) := by
  have h : Sound n s := hs ▸ Along.preserves (fun ha h => step_sound ha h) acts hok (init_sound hn)
  refine ⟨⟨_, (h.blocks_eq hn).symm⟩, h.queued, h.alone, fun hopen => ?_, fun own hown => ?_⟩
  · by_contra hnone
    exact hopen (h.stuck hn (not_exists.mp hnone))
  · obtain ⟨hlen, hsame⟩ := own_run hn own h hown
    have hleft := left_le s
    have hsound : Sound n (own.foldl (State.step n) s) :=
      Along.preserves (fun ha h => step_sound ha.1 h) own hown h
    refine ⟨by omega, fun hstuck => ?_⟩
    rw [hsound.stuck hn hstuck, hsame]

/-- Reports of two bytes. The second session begins between the first report and the second. -/
def twoReports : List (Act Bool Unit UInt8) :=
  [.establish false, .arrive [1, 2, 3], .select (), .recv () 3, .receiveMessage (), .establish true,
    .receiveMessage (), .arrive [4, 5], .recv () 2, .receiveMessage ()]

theorem reports_arrive_twoReports : (fun s : State Bool Unit UInt8 => s.reports = [[1, 2], [3, 4]] ∧
    s.queued true = s.reports.drop (s.joined true) ∧ s.queued true = [[3, 4]] ∧
      s.reports <+: blocks 2 s.incoming)
      (twoReports.foldl (State.step 2) (State.init : State Bool Unit UInt8)) := by
  have h := reports_arrive (n := 2) (by decide) twoReports ?_ _ rfl
  · exact ⟨by decide, h.2.1 true (by decide), by decide, h.1⟩
  · simp [twoReports, Along, State.Enabled, State.step, State.init, State.receiveMessage,
      State.multicast]

end Matching.Transceiver
