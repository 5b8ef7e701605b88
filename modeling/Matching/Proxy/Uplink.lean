import Matching.Lib.Fault

/-! `proxy::Uplink`, the connection of a proxy to the engine, the way out. `send_message` writes
    what `send_buf` still holds and then the message; what the socket does not take of the message
    goes to `send_buf`, and `selector_out` is asked to say when the socket can be written again. The
    selector answers once each time it is asked. How much the socket takes is an input. `reconnect`
    leaves `send_buf` as it is. It takes no lock: a call that uses the socket between its
    `disconnect` and the end of its `connect` races with it, which is undefined. -/

namespace Matching.Uplink

variable {β : Type}

/-- Where the thread is that pumps `selector_out`: in `select`, in `selected` ahead of
    `send_message(nullptr, 0)`, or behind it, when it came back with `false`. -/
inductive Pump where
  | selecting
  | selected
  | unsent
  deriving DecidableEq, Repr

/-- What a connection took, and the messages that `send_message` accepted while
    it was the current one. -/
structure Line (β : Type) where
  wire : List β
  accepted : List (List β)
  deriving DecidableEq, Repr

/-- `send_buf` from `gptr` to `pptr`, whether the socket is open and `selector_out` has it, whether
    `selector_out` watches it for `WRITABLE`, the pump thread, the current connection and the
    earlier ones, the latest first (which the code does not keep). -/
structure State (β : Type) where
  sendBuf : List β
  connected : Bool
  writable : Bool
  pump : Pump
  line : Line β
  earlier : List (Line β)
  deriving DecidableEq, Repr

/-- A thread calls `send_message` with a message; the pump thread is woken, calls
    `send_message(nullptr, 0)`, or asks to be woken again; a thread in `reconnect` calls
    `disconnect`, and `connect`. `w` and `w'` are what the socket would take. -/
inductive Op (β : Type) where
  | send (msg : List β) (force : Bool) (w w' : ℕ)
  | select
  | flush (w : ℕ)
  | modify
  | disconnect
  | connect
  deriving DecidableEq, Repr

/-- A message is as long as an order. -/
def Op.Sized (n : ℕ) : Op β → Prop
  | .send msg .. => msg.length = n
  | _ => True

/-- The pump thread takes the step. -/
def Op.Pumps : Op β → Prop
  | .select | .flush _ | .modify => True
  | _ => False

namespace State

/-- Connected, and nothing sent. -/
def init : State β := ⟨[], true, false, .selecting, ⟨[], []⟩, []⟩

/-- The socket took `bytes`. -/
def write (s : State β) (bytes : List β) : State β :=
  { s with line := { s.line with wire := s.line.wire ++ bytes } }

/-- `send_message` behind the part that is about `send_buf`, which is empty. -/
def writeMessage (s : State β) (msg : List β) (w : ℕ) : State β :=
  let s := s.write (msg.take w)
  if w < msg.length then { s with sendBuf := msg.drop w, writable := true } else s

/-- `send_message(msg, n, force)` and what it returns. -/
def sendMessage (s : State β) (msg : List β) (force : Bool) (w w' : ℕ) : State β × Bool :=
  if w < s.sendBuf.length then
    let s := { s.write (s.sendBuf.take w) with sendBuf := s.sendBuf.drop w }
    if force then ({ s with sendBuf := s.sendBuf ++ msg }, true) else (s, false)
  else (writeMessage { s.write s.sendBuf with sendBuf := [] } msg w', true)

/-- A message for which `send_message` returns `true`. -/
def accept (s : State β) (msg : List β) : State β :=
  { s with line := { s.line with accepted := s.line.accepted ++ [msg] } }

/-- What `selected` does with the result of `send_message(nullptr, 0)`. -/
def selected (s : State β) (w : ℕ) : State β :=
  let (s, sent) := s.sendMessage [] false w 0
  { s with pump := if sent then .selecting else .unsent }

/-- The step of a thread uses the socket while another thread is in `reconnect`. -/
def Races (s : State β) : Op β → Bool
  | .send .. | .flush _ | .modify | .disconnect => !s.connected
  | .select | .connect => false

/-- What a step does that races with no other. -/
def next (s : State β) : Op β → State β
  | .send msg force w w' =>
    let (s, sent) := s.sendMessage msg force w w'
    if sent then s.accept msg else s
  | .select => { s with writable := false, pump := .selected }
  | .flush w => s.selected w
  | .modify => { s with writable := true, pump := .selecting }
  | .disconnect => { s with connected := false, writable := false }
  | .connect => { s with connected := true, line := ⟨[], []⟩, earlier := s.line :: s.earlier }

/-- One step. -/
def step (s : State β) (op : Op β) : Except Fault (State β) :=
  if s.Races op then .error .ub else .ok (s.next op)

/-- Where a step can be taken. -/
def Enabled (s : State β) : Op β → Prop
  | .send .. => True
  | .select => s.pump = .selecting ∧ s.writable = true
  | .flush _ => s.pump = .selected
  | .modify => s.pump = .unsent
  | .disconnect => True
  | .connect => s.connected = false

instance (s : State β) : ∀ op, Decidable (s.Enabled op)
  | .send .. | .disconnect => isTrue trivial
  | .select => inferInstanceAs (Decidable (s.pump = .selecting ∧ s.writable = true))
  | .flush _ => inferInstanceAs (Decidable (s.pump = .selected))
  | .modify => inferInstanceAs (Decidable (s.pump = .unsent))
  | .connect => inferInstanceAs (Decidable (s.connected = false))

/-- A step that can be taken, and no connection is given up while `send_buf` holds bytes. -/
def Clean (s : State β) (op : Op β) : Prop :=
  s.Enabled op ∧ match op with
    | .disconnect => s.sendBuf = []
    | _ => True

instance [DecidableEq β] (s : State β) : ∀ op, Decidable (s.Clean op)
  | .disconnect => inferInstanceAs (Decidable (True ∧ s.sendBuf = []))
  | .send .. | .select | .flush _ | .modify | .connect => inferInstanceAs (Decidable (_ ∧ True))

/-- All connections, in their order. -/
def lines (s : State β) : List (Line β) := s.earlier.reverse ++ [s.line]

/-- What the connections took, one after the other. -/
def stream (s : State β) : List β := s.lines.flatMap Line.wire

/-- All messages that were accepted. -/
def accepted (s : State β) : List (List β) := s.lines.flatMap Line.accepted

end State

end Matching.Uplink
