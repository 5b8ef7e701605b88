import Mathlib.Data.Fintype.BigOperators
import Mathlib.Logic.Function.Basic

/-! `Transceiver::selected` with `Uplink::receive_message`, the way in: the threads that
    pump `selector_in` read what the engine sends, cut it into reports and queue each report
    for every session. The selector answers once each time it is asked, to one of the
    threads. A report is its bytes; `n` is `sizeof(order)`. A session begins or ends between
    two multicasts, though no lock sees to it. -/

namespace Matching.Transceiver

/-- Where a thread is that pumps `selector_in`: in `select`, ahead of `recv`, in the loop over the
    reports, or behind a `recv` that returned nothing. -/
inductive Pump where
  | selecting
  | selected
  | receiving
  | blocked
  deriving DecidableEq, Repr

/-- What waits in the socket, `recv_buf` from `gptr` to `pptr`, whether `selector_in`
    watches for `READABLE`, the threads, the sessions, and what was queued for each. The
    histories record what the engine sent, the reports that were multicast, and how many
    there were when a session began. -/
structure State (S T β : Type) where
  arrived : List β
  recvBuf : List β
  readable : Bool
  pump : T → Pump
  sessions : List S
  queued : S → List (List β)
  incoming : List β
  reports : List (List β)
  joined : S → ℕ

/-- The engine's bytes arrive; a thread is woken, reads `k` of them, takes a report or finds no
    whole one, reads nothing, or asks to be woken again; a session begins or ends. -/
inductive Act (S T β : Type) where
  | arrive (bytes : List β)
  | select (t : T)
  | recv (t : T) (k : ℕ)
  | receiveMessage (t : T)
  | block (t : T)
  | modify (t : T)
  | establish (w : S)
  | close (w : S)
  deriving DecidableEq, Repr

variable {S T β : Type} [DecidableEq S] [DecidableEq T]

namespace State

/-- Connected, without sessions. -/
def init : State S T β where
  arrived := []
  recvBuf := []
  readable := true
  pump _ := .selecting
  sessions := []
  queued _ := []
  incoming := []
  reports := []
  joined _ := 0

/-- `Client::multicast(Client::all_clients, …)`. -/
def multicast (s : State S T β) (report : List β) : State S T β :=
  { s with
    queued := fun w => if w ∈ s.sessions then s.queued w ++ [report] else s.queued w
    reports := s.reports ++ [report] }

/-- A turn of the loop: `receive_message` takes a report if there is a whole one,
    and else the loop ends. -/
def receiveMessage (n : ℕ) (s : State S T β) (t : T) : State S T β :=
  if s.recvBuf.length < n then { s with pump := Function.update s.pump t .selected }
  else { s.multicast (s.recvBuf.take n) with recvBuf := s.recvBuf.drop n }

/-- One step. -/
def step (n : ℕ) (s : State S T β) : Act S T β → State S T β
  | .arrive bytes => { s with arrived := s.arrived ++ bytes, incoming := s.incoming ++ bytes }
  | .select t => { s with readable := false, pump := Function.update s.pump t .selected }
  | .recv t k =>
    { s with
      arrived := s.arrived.drop k
      recvBuf := s.recvBuf ++ s.arrived.take k
      pump := Function.update s.pump t .receiving }
  | .receiveMessage t => s.receiveMessage n t
  | .block t => { s with pump := Function.update s.pump t .blocked }
  | .modify t => { s with readable := true, pump := Function.update s.pump t .selecting }
  | .establish w =>
    { s with
      sessions := s.sessions ++ [w]
      queued := Function.update s.queued w []
      joined := Function.update s.joined w s.reports.length }
  | .close w => { s with sessions := s.sessions.filter (· ≠ w) }

/-- Where a step can be taken. -/
def Enabled (s : State S T β) : Act S T β → Prop
  | .arrive _ => True
  | .select t => s.pump t = .selecting ∧ s.readable = true ∧ s.arrived ≠ []
  | .recv t k => s.pump t = .selected ∧ 0 < k ∧ k ≤ s.arrived.length
  | .receiveMessage t => s.pump t = .receiving
  | .block t => s.pump t = .selected ∧ s.arrived = []
  | .modify t => s.pump t = .blocked
  | .establish w => w ∉ s.sessions
  | .close w => w ∈ s.sessions

/-- A step of a pump thread. -/
def Own (s : State S T β) (a : Act S T β) : Prop :=
  s.Enabled a ∧ match a with
    | .arrive _ | .establish _ | .close _ => False
    | _ => True

end State

end Matching.Transceiver
