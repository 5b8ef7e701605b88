import Matching.Net.Framing

/-! `matching_tcp_client`, the way in: what arrives on a connection goes to the client's one
    `order_handler`, and the orders it hands on to the client's callback. Neither
    `tcp_client::close` nor the client's disconnect callback touches the handler, so it
    outlives the connection. -/

namespace Matching.MatchingTcpClient

open MatchingTcpService (sizeofOrder)

/-- What `tcp_client` calls back: the connection is there, bytes were received,
    the connection is gone. -/
inductive Event where
  | connected
  | msg (bytes : List UInt8)
  | disconnected

/-- The client: its handler, and the orders `_on_order` was called with, connection by connection,
    those of the current one in front (which the code does not keep). -/
structure Client where
  h : OrderHandler
  delivered : List (List (List UInt8))

def Client.start : Client := ⟨.start, []⟩

/-- `_handle_rcv_odr` for the orders of one call. -/
def Client.deliver (c : Client) (orders : List (List UInt8)) : List (List (List UInt8)) :=
  match c.delivered with
  | now :: earlier => (now ++ orders) :: earlier
  | [] => [orders]

/-- The callbacks the constructor sets. -/
def Client.step (c : Client) : Event → Client
  | .connected => { c with delivered := [] :: c.delivered }
  | .msg bytes =>
    let (orders, h) := c.h.handle bytes
    { h, delivered := c.deliver orders }
  | .disconnected => c

/-- A connection: the orders the service sent, and the chunks in which a
    beginning of them arrived. -/
structure Connection where
  sent : List (List UInt8)
  chunks : List (List UInt8)
  whole : ∀ o ∈ sent, o.length = sizeofOrder
  arrived : chunks.flatten <+: sent.flatten

namespace Connection

/-- What arrived. -/
def bytes (k : Connection) : List UInt8 := k.chunks.flatten

/-- The orders that arrived whole. -/
def complete (k : Connection) : List (List UInt8) := k.sent.take (k.bytes.length / sizeofOrder)

def events (k : Connection) : List Event := .connected :: (k.chunks.map .msg ++ [.disconnected])

/-- A connection after others that brought `before`: they ended at the end of an order, or
    the bytes of the order they broke off in are all that the connection brings, over and
    over, and complete no order more. -/
def Undisturbed (before : List UInt8) (k : Connection) : Prop :=
  let left := remainder sizeofOrder before
  left = [] ∨ left.length + k.bytes.length % sizeofOrder < sizeofOrder ∧
    ∀ j < k.bytes.length / sizeofOrder * sizeofOrder, k.bytes[j]? = left[j % left.length]?

end Connection

/-- The client that lives through the connections. -/
def run (ks : List Connection) : Client := (ks.flatMap Connection.events).foldl Client.step .start

/-- On each connection the callback got the orders that arrived whole on it. -/
def Reframed (ks : List Connection) : Prop :=
  (run ks).delivered.reverse = ks.map Connection.complete

/-- No connection is disturbed by those before it. -/
def Undisturbed : List UInt8 → List Connection → Prop
  | _, [] => True
  | before, k :: ks => k.Undisturbed before ∧ Undisturbed (before ++ k.bytes) ks

/-! ### One connection -/

theorem foldl_msg : ∀ (chunks : List (List UInt8)) (h : OrderHandler) (now : List (List UInt8))
    (earlier : List (List (List UInt8))),
    (chunks.map Event.msg).foldl Client.step ⟨h, now :: earlier⟩ =
      ⟨(h.receive chunks).2, (now ++ (h.receive chunks).1) :: earlier⟩
  | [], h, now, earlier => by simp [OrderHandler.receive]
  | chunk :: chunks, h, now, earlier => by
    have hstep : Client.step ⟨h, now :: earlier⟩ (.msg chunk) =
      ⟨(h.handle chunk).2, (now ++ (h.handle chunk).1) :: earlier⟩ := rfl
    rw [List.map_cons, List.foldl_cons, hstep, foldl_msg chunks]
    simp [OrderHandler.receive]

/-- A connection adds what its handler made of its bytes. -/
theorem foldl_connection (k : Connection) (c : Client) :
    k.events.foldl Client.step c =
      ⟨(c.h.receive k.chunks).2, (c.h.receive k.chunks).1 :: c.delivered⟩ := by
  have hconn : c.step .connected = ⟨c.h, [] :: c.delivered⟩ := rfl
  rw [Connection.events, List.foldl_cons, List.foldl_append, hconn, foldl_msg]
  rfl

theorem Connection.complete_eq (k : Connection) : k.complete = blocks sizeofOrder k.bytes :=
  Eq.symm <| blocks_of_prefix (by decide) k.sent k.whole k.arrived

/-- A connection gets its own orders when it is undisturbed, and only then. -/
theorem Connection.undisturbed_iff (before : List UInt8) (k : Connection) :
    blocks sizeofOrder (remainder sizeofOrder before ++ k.bytes) = k.complete ↔
      k.Undisturbed before := by
  rw [k.complete_eq, Connection.Undisturbed]
  by_cases hnil : remainder sizeofOrder before = []
  · simp [hnil]
  · rw [blocks_append_eq_iff (by decide) hnil]
    exact ⟨Or.inr, fun h => h.resolve_left hnil⟩

/-! ### All of them -/

/-- What the handler hands on, connection by connection. -/
def handed (h : OrderHandler) : List Connection → List (List (List UInt8))
  | [] => []
  | k :: ks => (h.receive k.chunks).1 :: handed (h.receive k.chunks).2 ks

theorem foldl_events : ∀ (ks : List Connection) (c : Client),
    ((ks.flatMap Connection.events).foldl Client.step c).delivered.reverse =
      c.delivered.reverse ++ handed c.h ks
  | [], c => by simp [handed]
  | k :: ks, c => by
    rw [List.flatMap_cons, List.foldl_append, foldl_connection, foldl_events ks]
    simp [handed]

theorem handed_iff : ∀ (ks : List Connection) (before : List UInt8) {h : OrderHandler}, h.Ok →
    h.kept = remainder sizeofOrder before →
      (handed h ks = ks.map Connection.complete ↔ Undisturbed before ks)
  | [], _, _, _, _ => by simp [handed, Undisturbed]
  | k :: ks, before, h, hok, hkept => by
    obtain ⟨horders, hlast, hok'⟩ := OrderHandler.receive_spec k.chunks hok
    have hleft := (blocks_append (show 0 < sizeofOrder by decide) before k.bytes).2
    rw [hkept] at horders hlast
    rw [handed, List.map_cons, List.cons_eq_cons, Undisturbed, horders,
      handed_iff ks _ hok' (hlast.trans hleft.symm)]
    exact and_congr_left fun _ => k.undisturbed_iff before

/-- The callback gets on each connection the orders that arrived whole on it if and only if no
    connection breaks off inside an order, except before connections that bring nothing but its
    bytes again, or too little to complete it. -/
theorem reports_reframed_iff (ks : List Connection) : Reframed ks ↔ Undisturbed [] ks := by
  have hnil : Client.start.delivered.reverse = [] := rfl
  rw [Reframed, run, foldl_events, hnil, List.nil_append]
  exact handed_iff ks [] OrderHandler.ok_start rfl

/-- An order of which the first ten bytes arrive. -/
def cut : Connection where
  sent := [List.replicate sizeofOrder 1]
  chunks := [List.replicate 10 1]
  whole := by decide +kernel
  arrived := by decide +kernel

/-- Another order, whole. -/
def after : Connection where
  sent := [List.replicate sizeofOrder 2]
  chunks := [List.replicate sizeofOrder 2]
  whole := by decide +kernel
  arrived := by decide +kernel

/-- The second connection hands on an order nobody sent, and keeps the end of
    the one that was sent. -/
theorem cut_not_reframed : ¬Reframed [cut, after] := by
  have hdelivered : (run [cut, after]).delivered =
    [[List.replicate 10 1 ++ List.replicate 150 2], []] := by decide +kernel
  have hcomplete : [cut, after].map Connection.complete = [[], [List.replicate sizeofOrder 2]] := by
    decide +kernel
  rw [Reframed, hdelivered, hcomplete]
  decide +kernel

end Matching.MatchingTcpClient
