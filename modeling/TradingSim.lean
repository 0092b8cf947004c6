import TradingSim.Lib.Machine
import TradingSim.Lib.Chain
import TradingSim.Lib.BitScan
import TradingSim.OrderBook.Types
import TradingSim.OrderBook.Pool
import TradingSim.OrderBook.Engine
import TradingSim.OrderBook.View
import TradingSim.OrderBook.Rep
import TradingSim.OrderBook.Refine
import TradingSim.OrderBook.Invariants
import TradingSim.OrderBook.LinearScan
import TradingSim.OrderBook.Progress
import TradingSim.Lib.Priority
import TradingSim.OrderBook.Textbook
import TradingSim.OrderBook.Simulation
import TradingSim.OrderBook.LimitPrice
import TradingSim.OrderBook.Admission
import TradingSim.Lib.Interleave
import TradingSim.OrderBook.Independence
import TradingSim.OrderBook.Capacity
import TradingSim.OrderBook.Pair
import TradingSim.OrderBook.Conservation
import TradingSim.Lib.Transition
import TradingSim.Lib.Fifo
import TradingSim.Queue.Spsc
import TradingSim.Queue.Size
import TradingSim.Lib.Netting
import TradingSim.Risk.Position
import TradingSim.Risk.Netting
import TradingSim.Lib.OrderedMap
import TradingSim.Lib.Csv
import TradingSim.Risk.VolSurface
import TradingSim.Risk.Var
import TradingSim.Fix.Session
import TradingSim.Lib.Split
import TradingSim.Fix.Fields
import TradingSim.Fix.Reading
import TradingSim.Fix.Quantity
import TradingSim.Fix.Format
import TradingSim.Fix.Framing
import TradingSim.Reference.InstrumentStore
import TradingSim.Reference.Written
import TradingSim.OrderBook.Quotes
import TradingSim.OrderBook.BestQuote
import TradingSim.Fix.Symbols
import TradingSim.MarketData.Dispatcher
import TradingSim.Lib.StopFlag
import TradingSim.MarketData.Subscriber
import TradingSim.Lib.Events
import TradingSim.Metrics.LatencyTracker
import TradingSim.Metrics.Reset
import TradingSim.Metrics.Percentile
import TradingSim.System.Replay
import TradingSim.System.Shutdown
import TradingSim.System.Instruments
import TradingSim.System.StopRequest
import TradingSim.Queue.Lane
import TradingSim.Risk.Prices
import TradingSim.System.Process
import TradingSim.System.Joining
import TradingSim.System.TickPath
import TradingSim.OrderBook.Clock
import TradingSim.System.Session
import TradingSim.System.Report
import TradingSim.Lib.Rounding
import TradingSim.Tools.OrderSimulator
import TradingSim.Metrics.Server
import TradingSim.System.Dashboard
import TradingSim.System.DrainLoop
import TradingSim.System.Signal
import TradingSim.Tools.TickSimulator
import TradingSim.Metrics.Report
import TradingSim.Metrics.Snapshot
