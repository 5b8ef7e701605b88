import Matching.Net.OrderHandler
import Matching.Proxy.Uplink

/-! The orders a proxy sends: whatever the socket takes of each write, the engine is given
    the accepted orders, whole, in the order of their acceptance and once each. Nothing
    stays behind in `send_buf` with nobody to write it, unless a connection was given up
    while `send_buf` held bytes. -/

namespace Matching.Uplink

variable {β : Type} {s : State β} {msg : List β} {n w w' : ℕ} {force : Bool}

namespace State

@[simp] theorem write_sendBuf (s : State β) (bytes : List β) :
    (s.write bytes).sendBuf = s.sendBuf := rfl

@[simp] theorem write_wire (s : State β) (bytes : List β) :
    (s.write bytes).line.wire = s.line.wire ++ bytes := rfl

/-! ### `send_message` -/

/-- What a call does: the bytes of an accepted message join what is sent and what waits, those of a
    refused one do not; if something waits afterwards, something waited before or the selector
    watches the socket. -/
structure Sends (s s' : State β) (msg : List β) (sent : Bool) : Prop where
  bytes : s'.line.wire ++ s'.sendBuf = s.line.wire ++ s.sendBuf ++ if sent then msg else []
  accepted : s'.line.accepted = s.line.accepted
  earlier : s'.earlier = s.earlier
  pump : s'.pump = s.pump
  connected : s'.connected = s.connected
  waits : s'.sendBuf ≠ [] → s'.writable = true ∨ s.sendBuf ≠ [] ∧ s'.writable = s.writable

theorem writeMessage_sends (hbuf : s.sendBuf = []) : Sends s (s.writeMessage msg w) msg true := by
  unfold writeMessage
  by_cases hw : w < msg.length
  · simp only [if_pos hw]
    exact ⟨by simp [hbuf], rfl, rfl, rfl, rfl, fun _ => .inl rfl⟩
  · have htake : msg.take w = msg := List.take_of_length_le (by omega)
    simp only [if_neg hw, htake]
    exact ⟨by simp [hbuf], rfl, rfl, rfl, rfl, fun h => absurd hbuf h⟩

theorem sendMessage_sends (s : State β) (msg : List β) (force : Bool) (w w' : ℕ) :
    Sends s (s.sendMessage msg force w w').1 msg (s.sendMessage msg force w w').2 := by
  unfold sendMessage
  by_cases hw : w < s.sendBuf.length
  · have hne : s.sendBuf ≠ [] := List.ne_nil_of_length_pos (by omega)
    simp only [if_pos hw]
    cases force
    · exact ⟨by simp, rfl, rfl, rfl, rfl, fun _ => .inr ⟨hne, rfl⟩⟩
    · refine ⟨?_, rfl, rfl, rfl, rfl, fun _ => .inr ⟨hne, rfl⟩⟩
      simp only [if_true, write_wire]
      rw [List.append_assoc, ← List.append_assoc (s.sendBuf.take w), List.take_append_drop,
        List.append_assoc]
  · simp only [if_neg hw]
    have hsends : Sends { s.write s.sendBuf with sendBuf := [] }
        (writeMessage { s.write s.sendBuf with sendBuf := [] } msg w') msg true :=
        writeMessage_sends rfl
    refine ⟨?_, hsends.accepted, hsends.earlier, hsends.pump, hsends.connected, fun h => ?_⟩
    · rw [hsends.bytes]
      simp
    · exact (hsends.waits h).imp id fun hbuf => absurd rfl hbuf.1

/-- `send_message(nullptr, 0)` takes out of `send_buf` what the socket takes. -/
theorem flush_sendBuf (s : State β) (w : ℕ) :
    (s.sendMessage [] false w 0).1.sendBuf = s.sendBuf.drop w := by
  unfold sendMessage
  by_cases hw : w < s.sendBuf.length
  · simp [if_pos hw]
  · rw [if_neg hw, List.drop_eq_nil_of_le (by omega)]
    rfl

/-- `send_message(nullptr, 0)` comes back with `false` when it leaves something in `send_buf`. -/
theorem sendMessage_nil (s : State β) (w : ℕ) :
    (s.sendMessage [] false w 0).2 = true ↔ (s.sendMessage [] false w 0).1.sendBuf = [] := by
  unfold sendMessage
  by_cases hw : w < s.sendBuf.length
  · simp only [if_pos hw, Bool.false_eq_true, if_false, false_iff, List.drop_eq_nil_iff]
    omega
  · simp only [if_neg hw, true_iff]
    rfl

/-- What is written of `send_buf` alone counts for no message. -/
theorem flush_sends (s : State β) (w : ℕ) : Sends s (s.sendMessage [] false w 0).1 [] false := by
  have hsends := sendMessage_sends s [] false w 0
  refine ⟨?_, hsends.accepted, hsends.earlier, hsends.pump, hsends.connected, hsends.waits⟩
  rw [hsends.bytes]
  simp

/-! ### The bytes -/

theorem stream_eq (s : State β) :
    s.stream = s.earlier.reverse.flatMap Line.wire ++ s.line.wire := by
  simp [stream, lines]

theorem accepted_eq (s : State β) :
    s.accepted = s.earlier.reverse.flatMap Line.accepted ++ s.line.accepted := by
  simp [State.accepted, lines]

theorem accept_accepted (s : State β) (msg : List β) :
    (s.accept msg).accepted = s.accepted ++ [msg] := by
  rw [accepted_eq s, List.append_assoc]
  exact accepted_eq _

theorem Sends.all_accepted {s' : State β} {sent : Bool} (h : Sends s s' msg sent) :
    s'.accepted = s.accepted := by
  rw [accepted_eq, accepted_eq, h.earlier, h.accepted]

theorem connect_stream (s : State β) : (s.next .connect).stream = s.stream := by
  rw [stream_eq s]
  simp [stream_eq, next]

theorem connect_accepted (s : State β) : (s.next .connect).accepted = s.accepted := by
  rw [accepted_eq s]
  simp [accepted_eq, next]

/-- Between what was accepted, which are orders of `n` bytes, and what the connections
    took there is what waits. -/
structure Kept (n : ℕ) (s : State β) : Prop where
  bytes : s.stream ++ s.sendBuf = s.accepted.flatten
  orders : ∀ m ∈ s.accepted, m.length = n

theorem Kept.sends {s' : State β} (h : s.Kept n) {sent : Bool} (hs : Sends s s' msg sent)
    (hmsg : sent = true → msg.length = n) : (if sent then s'.accept msg else s').Kept n := by
  have hkept := h.bytes
  rw [stream_eq, List.append_assoc] at hkept
  have hbytes : s'.stream ++ s'.sendBuf = s.accepted.flatten ++ if sent then msg else [] := by
    rw [stream_eq, hs.earlier, List.append_assoc, hs.bytes, ← List.append_assoc, hkept]
  rw [← hs.all_accepted] at hbytes
  have horders : ∀ m ∈ s'.accepted, m.length = n := hs.all_accepted ▸ h.orders
  cases sent
  · refine ⟨?_, horders⟩
    simpa using hbytes
  · refine ⟨?_, ?_⟩
    · have hstream : (s'.accept msg).stream = s'.stream := by rw [stream_eq, stream_eq]; rfl
      rw [if_pos rfl, accept_accepted, hstream, List.flatten_append]
      simpa [accept] using hbytes
    · intro m hm
      rw [if_pos rfl, accept_accepted] at hm
      rcases List.mem_append.mp hm with hm | hm
      · exact horders m hm
      · rw [List.mem_singleton.mp hm]
        exact hmsg rfl

theorem Kept.next (h : s.Kept n) : ∀ {op : Op β}, op.Sized n → (s.next op).Kept n
  | .send msg force w w', hop => h.sends (sendMessage_sends s msg force w w') fun _ => hop
  | .select, _ => ⟨h.bytes, h.orders⟩
  | .flush w, _ => by
    have hkept := h.sends (flush_sends s w) (fun hsent => absurd hsent Bool.false_ne_true)
    exact ⟨hkept.bytes, hkept.orders⟩
  | .modify, _ => ⟨h.bytes, h.orders⟩
  | .disconnect, _ => ⟨h.bytes, h.orders⟩
  | .connect, _ => by
    refine ⟨?_, ?_⟩
    · rw [connect_stream, connect_accepted]
      exact h.bytes
    · rw [connect_accepted]
      exact h.orders

/-! ### The wake-ups -/

/-- Every connection begins with a message, nothing waits between two connections, and what waits is
    written when the socket can take it. -/
structure Tidy (s : State β) : Prop where
  between : s.connected = false → s.sendBuf = []
  line : s.line.wire ++ s.sendBuf = s.line.accepted.flatten
  earlier : ∀ l ∈ s.earlier, l.wire = l.accepted.flatten
  woken : s.sendBuf ≠ [] → s.writable = true ∨ s.pump ≠ .selecting

theorem Tidy.sends {s' : State β} (h : s.Tidy) {sent : Bool} (hs : Sends s s' msg sent)
    (hbetween : s.connected = false → s'.sendBuf = []) :
    (if sent then s'.accept msg else s').Tidy := by
  rw [← hs.connected] at hbetween
  have hwoken : s'.sendBuf ≠ [] → s'.writable = true ∨ s'.pump ≠ .selecting := by
    intro hne
    rcases hs.waits hne with hw | ⟨hne', heq⟩
    · exact .inl hw
    · rw [heq, hs.pump]
      exact h.woken hne'
  have hbytes := hs.bytes
  rw [h.line] at hbytes
  cases sent
  · refine ⟨hbetween, ?_, hs.earlier ▸ h.earlier, hwoken⟩
    simp only [Bool.false_eq_true, if_false, hs.accepted]
    simpa using hbytes
  · refine ⟨hbetween, ?_, hs.earlier ▸ h.earlier, hwoken⟩
    simp only [if_true, accept, hs.accepted]
    simpa using hbytes

/-- A step that returns races with no other. -/
theorem step_ok {s' : State β} {op : Op β} :
    s.step op = .ok s' ↔ s.Races op = false ∧ s.next op = s' := by
  unfold step
  cases s.Races op <;> simp

theorem Tidy.next (h : s.Tidy) : ∀ {op : Op β}, s.Clean op → s.Races op = false → (s.next op).Tidy
  | .send msg force w w', _, hraces =>
    h.sends (sendMessage_sends s msg force w w') fun hdown =>
      absurd hdown (by simpa [Races] using hraces)
  | .select, _, _ => ⟨h.between, h.line, h.earlier, fun _ => .inr (by simp [State.next])⟩
  | .flush w, _, _ => by
    have htidy :=
      h.sends (flush_sends s w) fun hdown => by rw [flush_sendBuf, h.between hdown, List.drop_nil]
    refine ⟨htidy.between, htidy.line, htidy.earlier, fun hne => ?_⟩
    have hsent : (s.sendMessage [] false w 0).2 ≠ true :=
      fun hsent => hne ((sendMessage_nil s w).mp hsent)
    simp [State.next, selected, hsent]
  | .modify, _, _ => ⟨h.between, h.line, h.earlier, fun _ => .inl rfl⟩
  | .disconnect, hc, _ => by
    have hbuf : s.sendBuf = [] := hc.2
    exact ⟨fun _ => hbuf, h.line, h.earlier, fun hne => absurd hbuf hne⟩
  | .connect, hc, _ => by
    have hbuf : s.sendBuf = [] := h.between hc.1
    have hline := h.line
    rw [hbuf, List.append_nil] at hline
    refine ⟨fun _ => hbuf, by simp [State.next, hbuf], ?_, fun hne => absurd hbuf hne⟩
    rintro l hl
    rcases List.mem_cons.mp hl with rfl | hl
    · exact hline
    · exact h.earlier l hl

end State

/-! ### The engine -/

/-- What the engine is given when the stream arrives in `chunks`. -/
def engineOrders (n : ℕ) (chunks : List (List β)) : List (List β) :=
  ((chunks.map (MatchingTcpService.Event.chunk ())).foldl
    (MatchingTcpService.Service.step n) .start).orders

/-- The engine cuts the stream into orders, wherever it was cut on its way. -/
theorem engineOrders_eq (hn : 0 < n) (chunks : List (List β)) :
    engineOrders n chunks = blocks n chunks.flatten := by
  have hall : ∀ (chunks : List (List β)) (t : MatchingTcpService.Service Unit β),
      t.buff.length < n →
        ((chunks.map (MatchingTcpService.Event.chunk ())).foldl
        (MatchingTcpService.Service.step n) t).orders =
        t.orders ++ blocks n (t.buff ++ chunks.flatten) := by
    intro chunks
    induction chunks with
    | nil =>
      intro t ht
      simp [blocks_of_lt ht]
    | cons c cs ih =>
      intro t ht
      obtain ⟨hb, -⟩ := blocks_append hn (t.buff ++ c) cs.flatten
      rw [List.map_cons, List.foldl_cons, ih]
      · simp only [MatchingTcpService.Service.step, MatchingTcpService.handle_eq hn ht]
        rw [List.flatten_cons, ← List.append_assoc, hb, List.append_assoc]
      · simp only [MatchingTcpService.Service.step, MatchingTcpService.handle_eq hn ht]
        exact length_remainder_lt hn _
  rw [engineOrders, hall chunks .start hn]
  rfl

namespace State

theorem kept_init (n : ℕ) : (init : State β).Kept n := ⟨rfl, by simp [State.accepted, lines, init]⟩

theorem tidy_init : (init : State β).Tidy := ⟨nofun, rfl, by simp [init], fun hne => absurd rfl hne⟩

theorem Kept.run {ops : List (Op β)} (hsized : ∀ op ∈ ops, op.Sized n) {s s' : State β}
    (hrun : runs State.step s ops = .ok s') (h : s.Kept n) : s'.Kept n := by
  induction ops generalizing s with
  | nil =>
    obtain rfl := Except.ok.inj hrun
    exact h
  | cons op ops ih =>
    obtain ⟨t, hstep, hrun⟩ := bind_ok.mp hrun
    obtain ⟨-, rfl⟩ := step_ok.mp hstep
    exact ih (fun o ho => hsized o (List.mem_cons_of_mem _ ho)) hrun
      (h.next (hsized op List.mem_cons_self))

theorem Tidy.run {ops : List (Op β)} (hclean : RunsAlong State.step Clean s ops) {s' : State β}
    (hrun : runs State.step s ops = .ok s') (h : s.Tidy) : s'.Tidy := by
  refine hclean.preserves (I := Tidy) (fun hc hstep hI => ?_) ops hrun h
  obtain ⟨hraces, rfl⟩ := step_ok.mp hstep
  exact hI.next hc hraces

theorem Tidy.lines (h : s.Tidy) : ∀ l ∈ s.lines, l.wire <+: l.accepted.flatten := by
  intro l hl
  rcases List.mem_append.mp hl with hl | hl
  · exact ⟨[], by rw [List.append_nil, h.earlier l (List.mem_reverse.mp hl)]⟩
  · rw [List.mem_singleton.mp hl, ← h.line]
    exact List.prefix_append _ _

/-- A step that writes all of `send_buf` completes the stream. -/
theorem Kept.flushed (h : s.Kept n) :
    (s.next (.flush s.sendBuf.length)).stream = s.accepted.flatten := by
  have hflush := flush_sends s s.sendBuf.length
  have hkept := (h.sends hflush fun hsent => absurd hsent Bool.false_ne_true).bytes
  rw [if_neg Bool.false_ne_true, flush_sendBuf, List.drop_length, List.append_nil,
    hflush.all_accepted] at hkept
  exact hkept

/-- The pump thread takes these steps, each where it can be taken, and none races with another. -/
structure Pumped (s : State β) (ops : List (Op β)) (s' : State β) : Prop where
  pumps : ∀ op ∈ ops, op.Pumps
  along : RunsAlong State.step Enabled s ops
  run : runs State.step s ops = .ok s'

theorem Pumped.cons {op : Op β} {ops : List (Op β)} {s' : State β} (hop : op.Pumps)
    (henabled : s.Enabled op) (hraces : s.Races op = false) (h : (s.next op).Pumped ops s') :
    s.Pumped (op :: ops) s' := by
  have hstep : s.step op = .ok (s.next op) := step_ok.mpr ⟨hraces, rfl⟩
  refine ⟨List.forall_mem_cons.mpr ⟨hop, h.pumps⟩, ⟨henabled, fun t ht => ?_⟩,
    bind_ok.mpr ⟨_, hstep, h.run⟩⟩
  obtain ⟨-, rfl⟩ := step_ok.mp ht
  exact h.along

theorem Pumped.nil (s : State β) : s.Pumped [] s :=
  ⟨fun _ h => absurd h List.not_mem_nil, trivial, rfl⟩

/-- Where bytes wait the socket is open. -/
theorem Tidy.open (h : s.Tidy) (hne : s.sendBuf ≠ []) : (!s.connected) = false := by
  cases hc : s.connected with
  | true => rfl
  | false => exact absurd (h.between hc) hne

/-- While bytes wait, the pump thread has the next step, and if the socket takes what it is offered,
    it has written everything in three. -/
theorem Tidy.pumps (h : s.Tidy) (hkept : s.Kept n) (hne : s.sendBuf ≠ []) :
    ∃ ops s', ops ≠ [] ∧ ops.length ≤ 3 ∧ s.Pumped ops s' ∧ s'.stream = s.accepted.flatten := by
  have hopen := h.open hne
  have htaken : (s.next .select).Kept n := hkept.next (show Op.select.Sized n from trivial)
  have hasked : ((s.next .modify).next .select).Kept n :=
    (hkept.next (show Op.modify.Sized n from trivial)).next (show Op.select.Sized n from trivial)
  rcases hp : s.pump
  case selecting =>
    have hwritable := (h.woken hne).resolve_right fun h => h hp
    exact ⟨[.select, .flush s.sendBuf.length], _, List.cons_ne_nil _ _, by simp,
      .cons trivial ⟨hp, hwritable⟩ rfl <| .cons trivial rfl hopen <| .nil _, htaken.flushed⟩
  case selected =>
    exact ⟨[.flush s.sendBuf.length], _, List.cons_ne_nil _ _, by simp,
      .cons trivial hp hopen <| .nil _, hkept.flushed⟩
  case unsent =>
    exact ⟨[.modify, .select, .flush s.sendBuf.length], _, List.cons_ne_nil _ _, by simp,
      .cons trivial hp hopen <| .cons trivial ⟨rfl, rfl⟩ rfl <| .cons trivial rfl hopen <| .nil _,
      hasked.flushed⟩

end State

/-- The proxy's accepted orders are what is written and what waits in `send_buf`, and they
    reach the engine, whole and in the order in which they were accepted, as far as the
    stream arrived. Where no connection was given up with bytes in `send_buf`, each
    connection begins with an order, and while bytes wait, the pump thread has a step to
    take and writes them all when the socket takes them. -/
theorem orders_arrive (hn : 0 < n) {ops : List (Op β)} (hsized : ∀ op ∈ ops, op.Sized n)
    (hrun : runs State.step .init ops = .ok s) :
    (s.stream ++ s.sendBuf = s.accepted.flatten ∧
      ∀ chunks : List (List β), chunks.flatten <+: s.stream →
        engineOrders n chunks = s.accepted.take (chunks.flatten.length / n)) ∧
    (RunsAlong State.step State.Clean .init ops →
      (∀ l ∈ s.lines, l.wire <+: l.accepted.flatten) ∧ (s.sendBuf ≠ [] →
        ∃ pumps s', pumps ≠ [] ∧ pumps.length ≤ 3 ∧ s.Pumped pumps s' ∧
          s'.stream = s.accepted.flatten)) := by
  have hkept := (State.kept_init n).run hsized hrun
  refine ⟨⟨hkept.bytes, fun chunks harrive => ?_⟩, fun hclean => ?_⟩
  · have hprefix : chunks.flatten <+: s.accepted.flatten := by
      rw [← hkept.bytes]
      exact harrive.trans (List.prefix_append _ _)
    rw [engineOrders_eq hn, blocks_of_prefix hn _ hkept.orders hprefix]
  · have htidy := State.tidy_init.run hclean hrun
    exact ⟨htidy.lines, htidy.pumps hkept⟩

/-- Two orders of two bytes. The socket takes one byte; the second order is refused, and
    accepted when the pump thread has written the first and a new connection is there, of
    which one byte is taken. -/
def twoOrders : List (Op UInt8) :=
  [.send [1, 2] false 0 1, .send [3, 4] false 0 0, .select, .flush 1, .disconnect, .connect,
    .send [3, 4] false 0 1]

theorem orders_arrive_twoOrders : ∃ s s' : State UInt8, runs State.step .init twoOrders = .ok s ∧
    s.accepted = [[1, 2], [3, 4]] ∧ s.stream = [1, 2, 3] ∧
      engineOrders 2 [[(1 : UInt8)], [2, 3]] = [[1, 2]] ∧
      s'.stream = [1, 2, 3, 4] ∧ ∃ pumps, s.Pumped pumps s' := by
  have hsized : ∀ op ∈ twoOrders, op.Sized 2 := by
    rintro op hop
    simp only [twoOrders, List.mem_cons, List.not_mem_nil, or_false] at hop
    rcases hop with rfl | rfl | rfl | rfl | rfl | rfl | rfl <;> trivial
  have hrun : runs State.step .init twoOrders =
      .ok ⟨[4], true, true, .selecting, ⟨[3], [[3, 4]]⟩, [⟨[1, 2], [[1, 2]]⟩]⟩ := by decide
  have hclean : RunsAlong State.step State.Clean .init twoOrders := by decide
  obtain ⟨⟨-, hengine⟩, htidy⟩ := orders_arrive (by decide) hsized hrun
  obtain ⟨pumps, s', -, -, hpumped, hstream⟩ := (htidy hclean).2 (by decide)
  exact ⟨_, s', hrun, rfl, rfl, (hengine [[1], [2, 3]] (by decide)).trans (by decide), hstream,
    pumps, hpumped⟩

end Matching.Uplink
