import CtpTrade.Library.Execution
import CtpTrade.Library.OrderedMap
import CtpTrade.Library.Segments
import CtpTrade.Library.Monitor
import CtpTrade.Library.Blocks
import CtpTrade.Library.FixedCodec
import CtpTrade.Library.Resumption
import CtpTrade.Library.Tracking
import CtpTrade.Library.Smoothing
import CtpTrade.Library.Loop
import CtpTrade.Library.Simulation
import CtpTrade.Library.Trace
import CtpTrade.Library.LockOrder
import CtpTrade.Library.Incremental
import CtpTrade.CppTools.ReadWriteLock
import CtpTrade.CppTools.Thread
import CtpTrade.CppTools.ObjectPool
import CtpTrade.PublicDataStruct
import CtpTrade.SaveData
import CtpTrade.EfficientMap
import CtpTrade.MdBroadcast.Process
import CtpTrade.MdBroadcast.Conservation
import CtpTrade.MdBroadcast.Volume
import CtpTrade.MdBroadcast.Schedule
import CtpTrade.MdBroadcast.Clock
import CtpTrade.MdBroadcast.Safety
import CtpTrade.MdBroadcast.MinuteBar
import CtpTrade.MdBroadcast.FakeFeed
import CtpTrade.MdBroadcast.Replay
import CtpTrade.MdBroadcast.RecordedTick
import CtpTrade.MdBroadcast.Session
import CtpTrade.CandleBar
import CtpTrade.CandleBar.Conversion
import CtpTrade.CandleBar.Summary
import CtpTrade.CandleBar.MovingAverage
import CtpTrade.MdManager.Basic
import CtpTrade.MdManager.StartUp
import CtpTrade.MdManager.Composition
import CtpTrade.TdTrade.Basic
import CtpTrade.TdTrade.Login
import CtpTrade.TdTrade.Orders
import CtpTrade.TechniqueIndicator.Basic
import CtpTrade.TechniqueIndicator.Virtual
import CtpTrade.TechniqueIndicator.Signals
import CtpTrade.TechniqueIndicator.ReadPosition
import CtpTrade.TechniqueIndicator.Average
import CtpTrade.TechniqueIndicator.Verdict
import CtpTrade.TechniqueIndicator.Trend
import CtpTrade.TechniqueIndicator.Affine
import CtpTrade.TechniqueIndicator.Exponential
import CtpTrade.TechniqueIndicator.Parameters
import CtpTrade.TechniqueIndicator.Readiness
import CtpTrade.Strategy.Basic
import CtpTrade.TradeManager.Basic
import CtpTrade.TradeManager.Agreement
import CtpTrade.Strategy.Config
import CtpTrade.Strategy.DataMap
import CtpTrade.Strategy.Node
import CtpTrade.Strategy.OrderSafety
import CtpTrade.Strategy.Evaluation
import CtpTrade.MdBroadcast.TickBars
import CtpTrade.Strategy.SequentialOrders
import CtpTrade.TradeManager.EndToEnd
import CtpTrade.MdManager.Origin
import CtpTrade.Strategy.TradingRule
import CtpTrade.TradeManager.OneWay
import CtpTrade.TradeManager.Periods
import CtpTrade.TradeManager.Connection
import CtpTrade.TradeManager.Exchange
import CtpTrade.TradeManager.LiveSafety
import CtpTrade.TradeManager.Locks
import CtpTrade.Hiredis.Reader
import CtpTrade.Hiredis.Parser
import CtpTrade.Hiredis.Refinement
import CtpTrade.Hiredis.Replies
import CtpTrade.Hiredis.ReaderSafety
import CtpTrade.Redis.Reply
import CtpTrade.Hiredis.RoundTrip
import CtpTrade.Hiredis.Command
import CtpTrade.Redis.SplitArgs
import CtpTrade.Redis.Query
import CtpTrade.Redis.Requests
import CtpTrade.Redis.Service
import CtpTrade.Redis.Conversation
