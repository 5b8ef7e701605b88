import Mathlib.Data.Fintype.BigOperators
import Mathlib.Logic.Function.Basic

/-! How a message gets from the proxy's threads to a session: `Client::send_message` and
    `Client::multicast` put it on the session's `reply_queue`, the session on `wsi_queue`, and
    cancel the wait of the service thread, which asks for a `SERVER_WRITEABLE` of every session it
    finds there and writes one message in each. A step is one operation on a queue or one call of
    libwebsockets; requests that were not answered yet count once. The queues are folly's, whose
    code is not here, and are known by their operations only. -/

namespace Matching.Replies

/-- The bytes of a message. -/
abbrev Text : Type := List UInt8

/-- `N` of `LWS_CALLBACK_SERVER_WRITEABLE`. -/
def bufferSize : ℕ := 4096

/-- What is written for a message: `lws_snprintf` returns the size of the buffer for a text that
    does not fit, and the last byte there is the terminating zero. -/
def frame (text : Text) : Text :=
  let str := text.takeWhile (· ≠ 0)
  if str.length < bufferSize then str else str.take (bufferSize - 1) ++ [0]

/-- The operations of a `folly::UMPSCQueue` of `α`, each of which takes effect at one moment. -/
structure UMPSCQueue (Q α : Type) where
  empty : Q
  enqueue : Q → α → Q
  tryDequeue : Q → Option (α × Q)
  size : Q → ℕ

/-- What is relied on: the queue holds a list, `enqueue` adds behind it, `try_dequeue` takes its
    first, and fails when there is none, and `size` is then 0, and only then. -/
structure UMPSCQueue.Fifo {Q α : Type} (f : UMPSCQueue Q α) (items : Q → List α) : Prop where
  empty : items f.empty = []
  enqueue : ∀ q a, items (f.enqueue q a) = items q ++ [a]
  tryDequeue : ∀ q, (f.tryDequeue q).map (fun x => (x.1, items x.2)) =
    (items q).head?.map fun a => (a, (items q).tail)
  size : ∀ q, f.size q = 0 ↔ items q = []

/-- The queue that is its list. -/
def UMPSCQueue.list (α : Type) : UMPSCQueue (List α) α where
  empty := []
  enqueue q a := q ++ [a]
  tryDequeue q := q.head?.map fun a => (a, q.tail)
  size := List.length

/-- Where a thread is in `send_message`: in no call, behind `reply_queue.enqueue`, or behind
    `wsi_queue->enqueue`. -/
inductive Sender (S : Type) where
  | idle
  | replied (w : S)
  | queued
  deriving DecidableEq, Repr

/-- Where the service thread is: in `lws_service`, in the loop of `EVENT_WAIT_CANCELLED`, or in
    `SERVER_WRITEABLE`, ahead of `reply_queue.size()` or of `lws_cancel_service`. -/
inductive Service (S : Type) where
  | polls
  | cancelled
  | wrote (w : S)
  | sized
  deriving DecidableEq, Repr

/-- The queues, whether the wait of the service thread is cancelled, which sessions a
    `SERVER_WRITEABLE` is asked for, and where the threads are. The histories record what was sent
    to each session and what was written of it. -/
structure State (S E Q R : Type) where
  replyQueue : S → Q
  wsiQueue : R
  cancel : Bool
  writable : S → Bool
  sender : E → Sender S
  service : Service S
  sent : S → List Text
  written : S → List Text

/-- A thread `e` makes the three calls of `send_message`; the service thread is woken, takes a
    session off `wsi_queue` or finds none, is called back for a session that can be written, looks
    at the size of its queue, and cancels its own next wait; or it is called back for something a
    session received, which ends in the same way. -/
inductive Act (S E : Type) where
  | reply (e : E) (w : S) (text : Text)
  | enqueue (e : E)
  | cancel (e : E)
  | wake
  | dequeue
  | writeable (w : S)
  | size
  | again
  | receive
  deriving DecidableEq, Repr

variable {S E Q R : Type} (replies : UMPSCQueue Q Text) (wsis : UMPSCQueue R S)

namespace State

/-- Nothing has been sent. -/
def init : State S E Q R where
  replyQueue _ := replies.empty
  wsiQueue := wsis.empty
  cancel := false
  writable _ := false
  sender _ := .idle
  service := .polls
  sent _ := []
  written _ := []

/-- `LWS_CALLBACK_SERVER_WRITEABLE` up to `lws_write`. -/
def write [DecidableEq S] (s : State S E Q R) (w : S) : State S E Q R :=
  let s := { s with writable := Function.update s.writable w false, service := .wrote w }
  match replies.tryDequeue (s.replyQueue w) with
  | none => s
  | some (text, rest) =>
    { s with
      replyQueue := Function.update s.replyQueue w rest
      written := Function.update s.written w (s.written w ++ [text]) }

/-- One step. -/
def step [DecidableEq S] [DecidableEq E] (s : State S E Q R) : Act S E → State S E Q R
  | .reply e w text =>
    { s with
      replyQueue := Function.update s.replyQueue w (replies.enqueue (s.replyQueue w) text)
      sender := Function.update s.sender e (.replied w)
      sent := Function.update s.sent w (s.sent w ++ [text]) }
  | .enqueue e =>
    match s.sender e with
    | .replied w =>
      { s with
        wsiQueue := wsis.enqueue s.wsiQueue w, sender := Function.update s.sender e .queued }
    | _ => s
  | .cancel e => { s with cancel := true, sender := Function.update s.sender e .idle }
  | .wake => { s with cancel := false, service := .cancelled }
  | .dequeue =>
    match wsis.tryDequeue s.wsiQueue with
    | none => { s with service := .polls }
    | some (w, rest) => { s with wsiQueue := rest, writable := Function.update s.writable w true }
  | .writeable w => s.write replies w
  | .size =>
    match s.service with
    | .wrote w =>
      { s with
        writable :=
          if 0 < replies.size (s.replyQueue w) then Function.update s.writable w true
          else s.writable
        service := .sized }
    | _ => s
  | .again => { s with cancel := true, service := .polls }
  | .receive => { s with cancel := true }

/-- Where a step can be taken: a thread makes one call at a time, and so does the service thread. -/
def Enabled (s : State S E Q R) : Act S E → Prop
  | .reply e _ _ => s.sender e = .idle
  | .enqueue e => ∃ w, s.sender e = .replied w
  | .cancel e => s.sender e = .queued
  | .wake => s.service = .polls ∧ s.cancel = true
  | .dequeue => s.service = .cancelled
  | .writeable w => s.service = .polls ∧ s.writable w = true
  | .size => ∃ w, s.service = .wrote w
  | .again => s.service = .sized
  | .receive => s.service = .polls

/-- A step that follows from what was sent. -/
def Own (s : State S E Q R) (a : Act S E) : Prop :=
  s.Enabled a ∧ match a with
    | .reply .. | .receive => False
    | _ => True

/-- What the session's peer was sent. -/
def frames (s : State S E Q R) (w : S) : List Text := (s.written w).map frame

end State

end Matching.Replies
