import Matching.Engine.Handle
import Matching.Engine.Frame
import Matching.Engine.Books
import Matching.Engine.Walk
import Matching.Engine.Fill
import Matching.Engine.Loop
import Matching.Engine.Shadow
import Matching.Engine.Exec
import Matching.Props.FillOrKill
import Matching.Engine.Reference
import Matching.Props.PriceTime
import Matching.Engine.Steps
import Matching.Lib.Machine
import Matching.Net.TcpClient
import Matching.Proxy.WorkQueue
import Matching.Lib.Stream
import Matching.Net.OrderHandler
import Matching.Engine.Calls
import Matching.Engine.Hands
import Matching.Engine.Sound
import Matching.Engine.Firm
import Matching.Engine.Entries
import Matching.Props.LockBalance
import Matching.Lib.Ranked
import Matching.Proxy.OrderBook
import Matching.Md.BasicBook
import Matching.Md.ImpliedBook
import Matching.Props.ImpliedPrice
import Matching.Props.ImpliedDepth
import Matching.Props.ImpliedFresh
import Matching.Md.Levels
import Matching.Md.Pass
import Matching.Md.Mirror
import Matching.Md.Depth
import Matching.Md.Trades
import Matching.Md.Listen
import Matching.Props.Mirror
import Matching.Lib.Choose
import Matching.Props.BestSource
import Matching.Props.StopLegs
import Matching.Engine.Acts
import Matching.Engine.Wire
import Matching.Props.LockCoverage
import Matching.Engine.Reports
import Matching.Props.AmendReject
import Matching.Lib.Laps
import Matching.Ring.Barrier
import Matching.Ring.Spsc
import Matching.Props.SpscFifo
import Matching.Lib.Tickets
import Matching.Ring.Waits
import Matching.Ring.Mpsc
import Matching.Props.MpscFifo
import Matching.Lib.Graph
import Matching.Ring.Configure
import Matching.Ring.Disruptor
import Matching.Props.Gating
import Matching.Engine.Every
import Matching.Props.AmendPriority
import Matching.Props.Uncrossed
import Matching.Engine.Ledger
import Matching.Props.Ledger
import Matching.Lib.Rounding
import Matching.Implier.Price
import Matching.Props.ImplierRounding
import Matching.Lib.Runs
import Matching.Props.ImpliedLiquidity
import Matching.Props.BookSums
import Matching.Proxy.Print
import Matching.Props.ProxyTop
import Matching.Props.PostOnly
import Matching.Engine.Sorted
import Matching.Props.CancelUndo
import Matching.Engine.Progress
import Matching.Props.Returns
import Matching.Engine.Auction
import Matching.Props.AuctionPrice
import Matching.Props.AuctionScope
import Matching.Props.LateJoiner
import Matching.Props.Reconnect
import Matching.Net.Framing
import Matching.Props.ClientReports
import Matching.Props.QueryRequests
import Matching.Props.OpenOrders
import Matching.Props.ZeroCopy
import Matching.Ring.Toposort
import Matching.Props.WebSocketSend
import Matching.Props.WebSocketReceive
import Matching.Props.SharedWaits
import Matching.Props.EngineCopy
import Matching.Props.Consistent
import Matching.Engine.Played
import Matching.Props.OneCancels
import Matching.Props.BufferedWrites
import Matching.Props.Delimited
import Matching.Props.Varint
import Matching.Props.Base64
import Matching.Props.Transcode
import Matching.Props.Chunked
import Matching.Props.Json
import Matching.Props.Fp
import Matching.Props.Ecp
import Matching.Props.DumpRestore
import Matching.Props.StopQuiet
import Matching.Memory.ObjectPool
import Matching.Props.PoolKeeps
import Matching.Props.RateLimit
import Matching.Props.Scheduler
import Matching.Props.Sha
import Matching.Props.Ecdsa
import Matching.Props.OneQueue
import Matching.Props.Uplink
import Matching.Props.Replies
import Matching.Props.SessionReceive
import Matching.Props.Transceiver
