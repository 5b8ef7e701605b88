import Matching.Lib.Memory
import Matching.Lib.OrdMap
import Matching.Lib.Stream
import Matching.Order

/-! `odr_query_service`: `on_msg` of `odr_query_server`, which cuts what a client sends into
    requests, and the store of `odr_query_client`, which the reports of a market's engine go to and
    the requests are answered from. The item a connection has in `_cli_map` is made by its first
    message; other connections have other items. -/

namespace Matching.OdrQuery

/-! ### Requests -/

/-- `odr_query_request`. -/
structure Request where
  accountId : ℕ
  marketId : ℕ
  requestId : ℕ
  deriving DecidableEq, Repr

/-- `odr_query_response_header`. -/
structure Header where
  accountId : ℕ
  marketId : ℕ
  requestId : ℕ
  odrCnt : ℕ
  deriving DecidableEq, Repr

/-- `sizeof(odr_query_request)`. -/
def sizeofRequest : ℕ := 24

/-- `std::memcpy(&req.request, ptr, sizeof(req.request))`. -/
def Request.ofBytes (bytes : List UInt8) : Request where
  accountId := word (bytes.take 8)
  marketId := word ((bytes.drop 8).take 8)
  requestId := word ((bytes.drop 16).take 8)

/-- What is done with a request: it is queued for the client of its market, or answered with no
    orders when there is no such market. -/
inductive Action where
  | enqueue (market : ℕ) (request : Request)
  | send (errorRsp : Header)
  deriving DecidableEq, Repr

/-- `_mkt_map.find`, and what follows. -/
def act (mktMap : ℕ → Bool) (req : Request) : Action :=
  if mktMap req.marketId then .enqueue req.marketId req
  else
    .send { accountId := req.accountId, marketId := req.marketId,
            requestId := req.requestId, odrCnt := 0 }

/-- Different requests are told apart by what is done with them. -/
theorem act_inj {mktMap : ℕ → Bool} {req req' : Request} :
    act mktMap req = act mktMap req' ↔ req = req' := by
  refine ⟨fun h => ?_, fun h => h ▸ rfl⟩
  unfold act at h
  split at h <;> split at h
  · exact (Action.enqueue.inj h).2
  · nomatch h
  · nomatch h
  · obtain ⟨ha, hm, hr, -⟩ := Header.mk.inj (Action.send.inj h)
    cases req
    cases req'
    simp_all

/-- `request_buffer`. -/
structure RequestBuffer where
  buff : List UInt8
  rest : ℕ
  deriving DecidableEq, Repr

namespace RequestBuffer

/-- The constructor. -/
def start : RequestBuffer := ⟨List.replicate sizeofRequest 0, 0⟩

/-- The loop of `on_msg` over the whole requests: what is done, and `ptr` and `size` after it. -/
def loop (mktMap : ℕ → Bool) (item : RequestBuffer) : ℕ → ℕ → ℕ → List Action × ℕ × ℕ
  | 0, ptr, size => ([], ptr, size)
  | msgCnt + 1, ptr, size =>
    -- the request is copied from `item.buff`, not from `ptr`
    let req := Request.ofBytes item.buff
    let (acts, ptr, size) := loop mktMap item msgCnt (ptr + sizeofRequest) (size - sizeofRequest)
    (act mktMap req :: acts, ptr, size)

/-- `on_msg` from the loop on. -/
def finish (mktMap : ℕ → Bool) (item : RequestBuffer) (src : List UInt8) (ptr size : ℕ) :
    List Action × RequestBuffer :=
  let (acts, ptr, size) := loop mktMap item (size / sizeofRequest) ptr size
  (acts, if size > 0 then { buff := memcpy item.buff 0 src ptr size, rest := size } else item)

/-- `on_msg` with the client's item. -/
def onMsg (mktMap : ℕ → Bool) (item : RequestBuffer) (src : List UInt8) :
    List Action × RequestBuffer :=
  let size := src.length
  if item.rest ≠ 0 then
    let need := sizeofRequest - item.rest
    if size < need then
      ([], { buff := memcpy item.buff item.rest src 0 size, rest := item.rest + size })
    else
      let item : RequestBuffer := { buff := memcpy item.buff item.rest src 0 need, rest := 0 }
      let req := Request.ofBytes item.buff
      let (acts, item) := finish mktMap item src need (size - need)
      (act mktMap req :: acts, item)
  else finish mktMap item src 0 size

/-- The messages of a connection. -/
def receive (mktMap : ℕ → Bool) (item : RequestBuffer) :
    List (List UInt8) → List Action × RequestBuffer
  | [] => ([], item)
  | chunk :: chunks =>
    let (acts, item) := item.onMsg mktMap chunk
    let (more, item) := item.receive mktMap chunks
    (acts ++ more, item)

/-- The bytes kept for the next message. -/
def kept (item : RequestBuffer) : List UInt8 := item.buff.take item.rest

end RequestBuffer

/-! ### Reports -/

/-- `_map`. -/
abbrev AccountOrderMap := OrdMap ℕ Order

/-- `handle_odr`; the second operand of its `&&` is the constant `PARTIAL_FILL`, which is 1. -/
def handleOdr (map : AccountOrderMap) (odr : Order) : AccountOrderMap :=
  if .opened ≠ odr.orderState ∧ (1 : ℕ) ≠ 0 then map.insert odr.accountId odr
  else map.erase odr.accountId

/-- The map after the reports of a market's engine. -/
def store (reports : List Order) : AccountOrderMap := reports.foldl handleOdr .empty

/-- `odr_query_response_header`, and the orders that follow it. -/
structure Response where
  header : Header
  orders : List Order

/-- `sizeof(matching::order)` bytes of `resize`, as an order. -/
def zeroOrder : Order := { Order.default with
  price := 0
  lastMatchedOrderId2 := 0
  buyStopLimitPrice := 0
  sellStopLimitPrice := 0 }

/-- `handle_request`, where the loop over `_map` comes to `items` in this order; `ptr`
    stays behind the header. -/
def handleRequest (items : List (ℕ × Order)) (req : Request) : Response where
  header := { accountId := req.accountId, marketId := req.marketId,
              requestId := req.requestId, odrCnt := items.length }
  orders := items.foldl (fun buff item => buff.set 0 item.2) (List.replicate items.length zeroOrder)

end Matching.OdrQuery
