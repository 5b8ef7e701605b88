import Mathlib.Data.List.Basic
import Matching.Lib.Machine

/-! `net::tcp_client`: the outbound half. `send` writes to the socket at once when nothing
    is queued and queues what the socket does not take; `run` connects, drains the queue and
    receives. The results of the socket calls are inputs. What the socket accepted is kept
    per connection (`wires`, the current connection first), with the messages passed to
    `send` (`sent`); neither is read by the code.

    Callbacks are calls of `send` at the end of the `run` that invokes them: the connect
    callback and the message callback are the last thing `run` does, and what the disconnect
    callback queues is cleared. -/

namespace Matching.TcpClient

variable {α : Type}

/-- `status`. -/
inductive Status where | none | closed | connecting | connected | accepted
  deriving DecidableEq, Repr

/-- What `::send` returns: a positive number of bytes (`n + 1`, or all there are), 0,
    `EAGAIN` or another error. -/
inductive SendResult where
  | took (n : ℕ)
  | zero
  | again
  | error
  deriving DecidableEq, Repr

/-- What the calls of `_connect` (from `CLOSED`) or `_check_connect` (from `CONNECTING`) come to. -/
inductive ConnectResult where | failed | inProgress | connected
  deriving DecidableEq, Repr

/-- `snd_node`. -/
structure Node (α : Type) where
  data : List α
  snd : ℕ
  deriving DecidableEq, Repr

structure Client (α : Type) where
  buffer : List (Node α)
  sta : Status
  wires : List (List α)
  sent : List (List α)
  deriving DecidableEq, Repr

namespace Client

/-- A client that is to connect. -/
def outgoing : Client α := ⟨[], .closed, [], []⟩

/-- A client `tcp_service` accepted. -/
def incoming : Client α := ⟨[], .accepted, [[]], []⟩

/-- The socket took `bytes`. -/
def accept (c : Client α) (bytes : List α) : Client α :=
  { c with wires := match c.wires with
    | w :: ws => (w ++ bytes) :: ws
    | [] => [bytes] }

/-- `close()`. -/
def close (c : Client α) : Client α :=
  match c.sta with
  | .connected | .connecting => { c with sta := .closed, buffer := [] }
  | .accepted => { c with sta := .none, buffer := [] }
  | _ => c

/-- A connection is established. -/
def connect (c : Client α) : Client α := { c with sta := .connected, wires := [] :: c.wires }

/-- The nodes in front that are sent completely leave the queue. -/
def settle (ns : List (Node α)) : List (Node α) := ns.dropWhile (fun n => n.snd = n.data.length)

/-- `_do_send()`; when the results run out, the socket blocks. -/
def doSend : List SendResult → Client α → Client α
  | [], c => { c with buffer := settle c.buffer }
  | r :: rs, c =>
    match settle c.buffer with
    | [] => { c with buffer := [] }
    | first :: rest =>
      match r with
      | .took n =>
        let k := min (n + 1) (first.data.length - first.snd)
        doSend rs { c.accept ((first.data.drop first.snd).take k) with
          buffer := { first with snd := first.snd + k } :: rest }
      | .again => { c with buffer := first :: rest }
      | .zero | .error => close { c with buffer := first :: rest }

/-- A node for bytes the socket did not take. -/
def enqueue (c : Client α) (data : List α) : Client α :=
  { c with buffer := c.buffer ++ [⟨data, 0⟩] }

/-- The direct path of `send`. -/
def sendNow : List SendResult → List α → Client α → Client α
  | _, [], c => c
  | [], data, c => c.enqueue data
  | r :: rs, data, c =>
    match r with
    | .took n => sendNow rs (data.drop (n + 1)) (c.accept (data.take (n + 1)))
    | .again => c.enqueue data
    | .zero | .error => c.close.enqueue data

/-- `send(ptr, size)`. -/
def send (c : Client α) (data : List α) (rs : List SendResult) : Client α :=
  let c := { c with sent := c.sent ++ [data] }
  if data = [] then c
  else if c.buffer ≠ [] ∨ (c.sta ≠ .connected ∧ c.sta ≠ .accepted) then c.enqueue data
  else sendNow rs data c

/-- `run()`; `closes` says whether the call of `::recv` ends the connection. -/
def run (c : Client α) (conn : ConnectResult) (rs : List SendResult) (closes : Bool) : Client α :=
  match c.sta with
  | .closed =>
    match conn with
    | .failed => c.close
    | .inProgress => { c with sta := .connecting }
    | .connected => c.connect
  | .connecting =>
    match conn with
    | .failed => c.close
    | .inProgress => c
    | .connected => c.connect
  | .connected | .accepted =>
    let c := doSend rs c
    if closes then c.close else c
  | .none => c

end Client

/-- The calls of a client, with what the socket does in them. -/
inductive Op (α : Type) where
  | send (data : List α) (rs : List SendResult)
  | run (conn : ConnectResult) (rs : List SendResult) (closes : Bool)

def Client.step (c : Client α) : Op α → Client α
  | .send data rs => c.send data rs
  | .run conn rs closes => c.run conn rs closes

/-- What every connection saw is the beginning of whole messages, in the order of the `send` calls,
    each at most once; in particular its first byte is the first byte of a message. -/
def Client.Intact (c : Client α) : Prop :=
  ∀ w ∈ c.wires, (∃ ms : List (List α), ms.Sublist c.sent ∧ w <+: ms.flatten) ∧
    ∀ x, w.head? = some x → ∃ m ∈ c.sent, m.head? = some x

/-- With `n` bytes left to write, the results end the connection before all are taken. -/
def fails : ℕ → List SendResult → Bool
  | 0, _ => false
  | _, [] => false
  | n, .took k :: rs => fails (n - (k + 1)) rs
  | _, .again :: _ => false
  | _, .zero :: _ => true
  | _, .error :: _ => true

/-- The results take a part of `n` bytes and then end the connection. -/
def failsMidway (n : ℕ) : List SendResult → Bool
  | .took k :: rs => fails (n - (k + 1)) rs
  | _ => false

/-- The call is no direct write on an outgoing connection that breaks in the
    middle of the message. -/
def Client.Whole (c : Client α) : Op α → Prop
  | .send data rs => ¬(c.buffer = [] ∧ c.sta = .connected ∧ failsMidway data.length rs = true)
  | .run _ _ _ => True

/-! ### What is on the line and what is queued -/

/-- The bytes a queue still holds. -/
def rest (ns : List (Node α)) : List α := ns.flatMap (fun n => n.data.drop n.snd)

namespace Client

/-- The client can write. -/
def Active (c : Client α) : Prop := c.sta = .connected ∨ c.sta = .accepted

/-- What the current connection saw. -/
def line (c : Client α) : List α :=
  match c.sta with
  | .connected | .accepted => c.wires.headD []
  | _ => []

/-- What the current connection saw, followed by what is queued, is a sequence of whole messages;
    what any connection saw is the beginning of one. -/
structure Inv (c : Client α) : Prop where
  wires_ne : c.Active → c.wires ≠ []
  line_eq : c.sta ≠ .none → ∃ ms : List (List α), ms.Sublist c.sent ∧
    c.line ++ rest c.buffer = ms.flatten
  intact : ∀ w ∈ c.wires, ∃ ms : List (List α), ms.Sublist c.sent ∧ w <+: ms.flatten

variable {c : Client α} {data : List α} {rs : List SendResult}

@[simp] theorem rest_nil : rest ([] : List (Node α)) = [] := rfl

@[simp] theorem rest_cons (n : Node α) (ns : List (Node α)) :
    rest (n :: ns) = n.data.drop n.snd ++ rest ns := rfl

@[simp] theorem rest_append (ns ns' : List (Node α)) : rest (ns ++ ns') = rest ns ++ rest ns' :=
  List.flatMap_append

theorem rest_settle : ∀ ns : List (Node α), rest (settle ns) = rest ns
  | [] => rfl
  | n :: ns => by
    by_cases h : n.snd = n.data.length
    · have hs : settle (n :: ns) = settle ns := by simp [settle, h]
      rw [hs, rest_settle ns, rest_cons, h]
      simp
    · have hs : settle (n :: ns) = n :: ns := by simp [settle, h]
      rw [hs]

theorem line_of_active (h : c.Active) : c.line = c.wires.headD [] := by
  rcases h with h | h <;> simp [line, h]

theorem line_of_closed (h : ¬c.Active) : c.line = [] := by
  unfold line
  split
  · exact absurd (Or.inl ‹_›) h
  · exact absurd (Or.inr ‹_›) h
  · rfl

theorem not_active (h1 : c.sta ≠ .connected) (h2 : c.sta ≠ .accepted) : ¬c.Active :=
  fun h => h.elim h1 h2

/-- Only the state and the wires matter for the line. -/
theorem line_congr {c' : Client α} (hs : c'.sta = c.sta) (hw : c'.wires = c.wires) :
    c'.line = c.line := by
  simp only [line, hs, hw]

/-! ### Primitive steps -/

theorem Inv.settled (h : c.Inv) : Inv { c with buffer := settle c.buffer } := by
  refine ⟨h.wires_ne, fun hn => ?_, h.intact⟩
  obtain ⟨ms, hsub, heq⟩ := h.line_eq hn
  exact ⟨ms, hsub, by rw [← heq, rest_settle]; rfl⟩

theorem Inv.close (h : c.Inv) : c.close.Inv := by
  unfold Client.close
  split
  · exact ⟨fun ha => absurd ha (not_active (by simp) (by simp)),
      fun _ => ⟨[], List.nil_sublist _, rfl⟩, h.intact⟩
  · exact ⟨fun ha => absurd ha (not_active (by simp) (by simp)),
      fun _ => ⟨[], List.nil_sublist _, rfl⟩, h.intact⟩
  · exact ⟨fun ha => absurd ha (not_active (by simp) (by simp)), fun hn => absurd rfl hn, h.intact⟩
  · exact h

/-- The socket takes the first of the bytes that are to be written. -/
theorem Inv.accept {bytes : List α} (buffer : List (Node α)) (h : c.Inv) (ha : c.Active)
    (hb : rest c.buffer = bytes ++ rest buffer) : Inv { c.accept bytes with buffer := buffer } := by
  obtain ⟨w, ws, hw⟩ := List.exists_cons_of_ne_nil (h.wires_ne ha)
  have hn : c.sta ≠ .none := by rcases ha with ha | ha <;> simp [ha]
  obtain ⟨ms, hsub, heq⟩ := h.line_eq hn
  rw [line_of_active ha, hw, List.headD_cons, hb] at heq
  have hacc : { c.accept bytes with buffer := buffer } =
      { c with wires := (w ++ bytes) :: ws, buffer := buffer } := by
    simp [Client.accept, hw]
  rw [hacc]
  refine ⟨fun _ => by simp, fun _ => ⟨ms, hsub, ?_⟩, fun v hv => ?_⟩
  · have ha' : Active { c with wires := (w ++ bytes) :: ws, buffer := buffer } := ha
    rw [line_of_active ha']
    simpa using heq
  · rcases List.mem_cons.mp hv with rfl | hv
    · exact ⟨ms, hsub, ⟨rest buffer, by simpa using heq⟩⟩
    · exact h.intact v (by rw [hw]; exact List.mem_cons_of_mem _ hv)

theorem Inv.connect (h : c.Inv) (hn : c.sta ≠ .none) (ha : ¬c.Active) : c.connect.Inv := by
  obtain ⟨ms, hsub, heq⟩ := h.line_eq hn
  rw [line_of_closed ha] at heq
  refine ⟨fun _ => by simp [Client.connect], fun _ => ⟨ms, hsub, ?_⟩, fun v hv => ?_⟩
  · rw [line_of_active (Or.inl rfl)]
    exact heq
  · rcases List.mem_cons.mp hv with rfl | hv
    · exact ⟨[], List.nil_sublist _, List.prefix_rfl⟩
    · exact h.intact v hv

/-- A message more was passed to `send`. -/
theorem Inv.sent (h : c.Inv) (m : List α) : Inv { c with sent := c.sent ++ [m] } := by
  have hmono : ∀ {ms : List (List α)}, ms.Sublist c.sent → ms.Sublist (c.sent ++ [m]) := fun hs =>
    hs.trans (List.sublist_append_left _ _)
  refine ⟨h.wires_ne, fun hn => ?_, fun w hw => ?_⟩
  · obtain ⟨ms, hsub, heq⟩ := h.line_eq hn
    exact ⟨ms, hmono hsub, heq⟩
  · obtain ⟨ms, hsub, hpre⟩ := h.intact w hw
    exact ⟨ms, hmono hsub, hpre⟩

/-- A whole message is queued. -/
theorem Inv.queue (h : c.Inv) (m : List α) : Inv (enqueue { c with sent := c.sent ++ [m] } m) := by
  refine ⟨h.wires_ne, fun hn => ?_, (h.sent m).intact⟩
  obtain ⟨ms, hsub, heq⟩ := h.line_eq hn
  refine ⟨ms ++ [m], hsub.append (List.Sublist.refl [m]), ?_⟩
  have hline : (enqueue { c with sent := c.sent ++ [m] } m).line = c.line := rfl
  rw [hline]
  simp [enqueue, ← heq]

/-! ### `_do_send` and `send` -/

theorem Inv.doSend :
    ∀ (rs : List SendResult) {c : Client α}, c.Inv → c.Active → (Client.doSend rs c).Inv
  | [], c, h, _ => h.settled
  | r :: rs, c, h, ha => by
    have hset := h.settled
    rcases hs : settle c.buffer with _ | ⟨first, ns⟩
    · simp only [Client.doSend, hs]
      exact hs ▸ hset
    · rw [hs] at hset
      cases r with
      | took n =>
        simp only [Client.doSend, hs]
        refine Inv.doSend rs ?_ ha
        refine hset.accept ({ first with snd := first.snd + min (n + 1) _ } :: ns) ha ?_
        rw [rest_cons, rest_cons, ← List.append_assoc]
        congr 1
        rw [← List.drop_drop, List.take_append_drop]
      | again => simpa only [Client.doSend, hs] using hset
      | zero => simpa only [Client.doSend, hs] using hset.close
      | error => simpa only [Client.doSend, hs] using hset.close

theorem fails_took {n k : ℕ} (h : fails n (.took k :: rs) = false) :
    fails (n - (k + 1)) rs = false := by
  cases n with
  | zero => cases rs <;> simp [fails]
  | succ n => simpa [fails] using h

/-- The rest of a message that is partly on the line: what the socket does not take is queued behind
    nothing. -/
theorem sendNow_inv :
    ∀ (rs : List SendResult) (data : List α) {c : Client α}, c.Active → c.wires ≠ [] →
    (∃ ms : List (List α), ms.Sublist c.sent ∧ c.line ++ data = ms.flatten) → c.buffer = [] →
    (∀ w ∈ c.wires, ∃ ms : List (List α), ms.Sublist c.sent ∧ w <+: ms.flatten) →
    (c.sta = .connected → fails data.length rs = false) → (sendNow rs data c).Inv
  | rs, [], c, ha, hne, hline, hbuf, hint, _ => by
    have hs : sendNow rs [] c = c := by cases rs <;> rfl
    rw [hs]
    refine ⟨fun _ => hne, fun _ => ?_, hint⟩
    rw [hbuf]
    exact hline
  | [], x :: xs, c, ha, hne, hline, hbuf, hint, _ => by
    refine ⟨fun _ => hne, fun _ => ?_, hint⟩
    obtain ⟨ms, hsub, heq⟩ := hline
    have hq : (c.enqueue (x :: xs)).line = c.line := line_congr rfl rfl
    have hnow : sendNow [] (x :: xs) c = c.enqueue (x :: xs) := rfl
    rw [hnow, hq]
    exact ⟨ms, hsub, by simpa [enqueue, hbuf] using heq⟩
  | r :: rs, x :: xs, c, ha, hne, hline, hbuf, hint, hf => by
    obtain ⟨ms, hsub, heq⟩ := hline
    obtain ⟨w, ws, hw⟩ := List.exists_cons_of_ne_nil hne
    cases r with
    | took n =>
      rw [line_of_active ha, hw, List.headD_cons] at heq
      have hacc : c.accept ((x :: xs).take (n + 1)) =
          { c with wires := (w ++ (x :: xs).take (n + 1)) :: ws } := by
        simp only [Client.accept, hw]
      simp only [sendNow]
      rw [hacc]
      have hsplit : w ++ (x :: xs).take (n + 1) ++ (x :: xs).drop (n + 1) = ms.flatten := by
        rw [List.append_assoc, List.take_append_drop, heq]
      refine sendNow_inv rs _ ha (by simp) ⟨ms, hsub, ?_⟩ hbuf (fun v hv => ?_) (fun hc => ?_)
      · have ha' : Active { c with wires := (w ++ (x :: xs).take (n + 1)) :: ws } := ha
        rw [line_of_active ha']
        exact hsplit
      · rcases List.mem_cons.mp hv with rfl | hv
        · exact ⟨ms, hsub, ⟨_, hsplit⟩⟩
        · exact hint v (by rw [hw]; exact List.mem_cons_of_mem _ hv)
      · rw [List.length_drop]
        exact fails_took (hf hc)
    | again =>
      refine ⟨fun _ => hne, fun _ => ⟨ms, hsub, ?_⟩, hint⟩
      have hq : (c.enqueue (x :: xs)).line = c.line := line_congr rfl rfl
      simp only [sendNow]
      rw [hq]
      simpa [enqueue, hbuf] using heq
    | zero =>
      have hacc : c.sta = .accepted := ha.resolve_left (fun hc => by simpa [fails] using hf hc)
      simp only [sendNow, Client.close, hacc, enqueue]
      exact ⟨fun ha => absurd ha (not_active (by simp) (by simp)), fun hn => absurd rfl hn, hint⟩
    | error =>
      have hacc : c.sta = .accepted := ha.resolve_left (fun hc => by simpa [fails] using hf hc)
      simp only [sendNow, Client.close, hacc, enqueue]
      exact ⟨fun ha => absurd ha (not_active (by simp) (by simp)), fun hn => absurd rfl hn, hint⟩

theorem Inv.send {data : List α} {rs : List SendResult} (h : c.Inv) (hw : c.Whole (.send data rs)) :
    (c.send data rs).Inv := by
  unfold Client.send
  by_cases hd : data = []
  · simp only [hd, if_true]
    exact h.sent []
  by_cases hq : c.buffer ≠ [] ∨ (c.sta ≠ .connected ∧ c.sta ≠ .accepted)
  · simp only [hd, hq, if_false, if_true]
    exact h.queue data
  simp only [hd, hq, if_false]
  rw [not_or, not_not, not_and_or, not_not, not_not] at hq
  obtain ⟨hbuf, ha⟩ := hq
  obtain ⟨x, xs, rfl⟩ := List.exists_cons_of_ne_nil hd
  have hsent := h.sent (x :: xs)
  have hone : [x :: xs].Sublist (c.sent ++ [x :: xs]) := List.sublist_append_right _ _
  -- nothing was taken: the whole message is queued for the next connection
  have hfresh : Inv (enqueue (Client.close { c with sent := c.sent ++ [x :: xs] }) (x :: xs)) := by
    rcases ha with ha | ha
    · simp only [Client.close, ha, enqueue]
      exact ⟨fun ha => absurd ha (not_active (by simp) (by simp)),
        fun _ => ⟨[x :: xs], hone, by simp [line]⟩, hsent.intact⟩
    · simp only [Client.close, ha, enqueue]
      exact ⟨fun ha => absurd ha (not_active (by simp) (by simp)),
        fun hn => absurd rfl hn, hsent.intact⟩
  have hnow : (c.sta = .connected → fails (x :: xs).length rs = false) →
      (sendNow rs (x :: xs) { c with sent := c.sent ++ [x :: xs] }).Inv := by
    intro hf
    obtain ⟨ms, hsub, heq⟩ := h.line_eq (by rcases ha with ha | ha <;> simp [ha])
    rw [hbuf, rest_nil, List.append_nil] at heq
    refine sendNow_inv rs _ ha (h.wires_ne ha)
      ⟨ms ++ [x :: xs], hsub.append (List.Sublist.refl _), ?_⟩ hbuf hsent.intact hf
    rw [List.flatten_append, ← heq]
    simp [line]
  cases rs with
  | nil => exact hnow (fun _ => rfl)
  | cons r rs =>
    cases r with
    | took n =>
      refine hnow (fun hc => ?_)
      have hmid : failsMidway (x :: xs).length (.took n :: rs) ≠ true := fun hm => hw ⟨hbuf, hc, hm⟩
      simpa [fails, failsMidway] using hmid
    | again => exact hnow (fun _ => rfl)
    | zero => exact hfresh
    | error => exact hfresh

theorem Inv.run {conn : ConnectResult} {rs : List SendResult} {closes : Bool} (h : c.Inv) :
    (c.run conn rs closes).Inv := by
  have hdrain : c.Active →
      (if closes then (Client.doSend rs c).close else Client.doSend rs c).Inv := by
    intro ha
    split_ifs
    · exact (h.doSend rs ha).close
    · exact h.doSend rs ha
  unfold Client.run
  rcases hs : c.sta with _ | _ | _ | _ | _
  · exact h
  · cases conn with
    | failed => exact h.close
    | inProgress =>
      refine ⟨fun ha => absurd ha (not_active (by simp) (by simp)), fun _ => ?_, h.intact⟩
      simpa [line, hs] using h.line_eq (by simp [hs])
    | connected => exact h.connect (by simp [hs]) (by simp [Client.Active, hs])
  · cases conn with
    | failed => exact h.close
    | inProgress => exact h
    | connected => exact h.connect (by simp [hs]) (by simp [Client.Active, hs])
  · exact hdrain (Or.inl hs)
  · exact hdrain (Or.inr hs)

theorem Inv.step {op : Op α} (hw : c.Whole op) (h : c.Inv) : (c.step op).Inv := by
  cases op with
  | send data rs => exact h.send hw
  | run conn rs closes => exact h.run

theorem inv_outgoing : (outgoing : Client α).Inv :=
  ⟨fun ha => absurd ha (not_active (by simp [outgoing]) (by simp [outgoing])),
    fun _ => ⟨[], List.nil_sublist _, rfl⟩, by simp [outgoing]⟩

theorem inv_incoming : (incoming : Client α).Inv :=
  ⟨fun _ => by simp [incoming], fun _ => ⟨[], List.nil_sublist _, rfl⟩, by simp [incoming]⟩

theorem Inv.toIntact (h : c.Inv) : c.Intact := by
  intro w hw
  obtain ⟨ms, hsub, hpre⟩ := h.intact w hw
  refine ⟨⟨ms, hsub, hpre⟩, fun x hx => ?_⟩
  have hhead : ms.flatten.head? = some x := by
    obtain ⟨t, ht⟩ := hpre
    rw [← ht, List.head?_append, hx]
    rfl
  rw [List.head?_flatten] at hhead
  obtain ⟨m, hm, hmx⟩ := List.exists_of_findSome?_eq_some hhead
  exact ⟨m, hsub.subset hm, hmx⟩

end Client

/-- As long as no direct write of an outgoing client breaks in the middle of a message, every
    connection sees whole messages in order; a connection `tcp_service` accepted does in any case,
    because it is never followed by another. -/
theorem wires_intact {c : Client α} (hc : c = .outgoing ∨ c = .incoming) (ops : List (Op α))
    (h : Along Client.step Client.Whole c ops) : (ops.foldl Client.step c).Intact := by
  refine (Along.preserves (I := Client.Inv) (fun hw hI => hI.step hw) ops h ?_).toIntact
  rcases hc with rfl | rfl
  · exact Client.inv_outgoing
  · exact Client.inv_incoming

/-- A message is cut by `EAGAIN`, and the rest of it sent by `run`. -/
def cutOnce : List (Op ℕ) :=
  [.run .connected [] false, .send [1, 2, 3, 4] [.took 0, .again], .run .failed [.took 9] false]

theorem wires_intact_cutOnce : (cutOnce.foldl Client.step .outgoing).Intact :=
  wires_intact (Or.inl rfl) cutOnce (by simp [cutOnce, Along, Client.Whole, failsMidway, fails])

/-- A direct write breaks after one byte, and the client reconnects. -/
def brokenMidway : List (Op ℕ) :=
  [.run .connected [] false, .send [1, 2, 3, 4] [.took 0, .error], .run .connected [] false,
    .run .failed [.took 9] false]

/-- The second connection begins inside the message. -/
theorem brokenMidway_not_intact : ¬(brokenMidway.foldl Client.step .outgoing).Intact := by
  have hwires : (brokenMidway.foldl Client.step .outgoing).wires = [[2, 3, 4], [1]] := by decide
  have hsent : (brokenMidway.foldl Client.step .outgoing).sent = [[1, 2, 3, 4]] := by decide
  intro h
  obtain ⟨m, hm, hhead⟩ := (h [2, 3, 4] (by simp [hwires])).2 2 rfl
  rw [hsent, List.mem_singleton] at hm
  subst hm
  cases hhead

end Matching.TcpClient
