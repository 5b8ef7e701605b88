import Mathlib.Data.List.Basic

/-! `LWS_CALLBACK_RECEIVE`: a session collects the pieces of a message in `msg_buf` and hands the
    message on with the last of them. A piece that does not fit is dropped with what is collected,
    and the pieces behind it are collected again. -/

namespace Matching.SessionReceive

/-- `MSG_BUF_SZ`. -/
def msgBufSz : ℕ := 256

variable {β : Type}

/-- What a callback is called with, and what libwebsockets says of the frame: how much of it is
    still to come, and whether it is the last of its message. -/
structure Piece (β : Type) where
  bytes : List β
  remaining : ℕ
  isFinal : Bool
  deriving DecidableEq, Repr

/-- The message ends with the piece. -/
def Piece.last (p : Piece β) : Prop := p.remaining = 0 ∧ p.isFinal = true

instance (p : Piece β) : Decidable p.last := inferInstanceAs (Decidable (_ ∧ _))

/-- `msg_buf` up to `msg_sz`, and what `received` was called with. -/
structure Session (β : Type) where
  msgBuf : List β
  received : List (List β)
  deriving DecidableEq, Repr

namespace Session

def init : Session β := ⟨[], []⟩

/-- `LWS_CALLBACK_RECEIVE`. -/
def receive (s : Session β) (p : Piece β) : Session β :=
  if p.bytes.length + s.msgBuf.length > msgBufSz then { s with msgBuf := [] }
  else
    let msgBuf := s.msgBuf ++ p.bytes
    if p.last then ⟨[], s.received ++ [msgBuf]⟩ else { s with msgBuf := msgBuf }

end Session

/-- The pieces of one message. -/
structure IsMessage (ps : List (Piece β)) : Prop where
  ne_nil : ps ≠ []
  last : ∀ p ∈ ps.getLast?, p.last
  notLast : ∀ p ∈ ps.dropLast, ¬ p.last

/-- The bytes of a message. -/
def payload (ps : List (Piece β)) : List β := ps.flatMap Piece.bytes

/-- What a session that has collected nothing hands on for the pieces of a message. -/
def handed (ps : List (Piece β)) : List (List β) := (ps.foldl Session.receive .init).received

end Matching.SessionReceive
