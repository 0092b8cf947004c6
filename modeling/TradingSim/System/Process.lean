import TradingSim.MarketData.Subscriber
import TradingSim.Queue.Lane
import TradingSim.Reference.InstrumentStore
import TradingSim.Risk.Prices
import TradingSim.System.Shutdown

/-!
The process of `main.cpp`: the thread of the UDP feed, which hands ticks to `tickQueue`, the execution
thread, which hands executions to `execQueue`, the main thread, which drains both into the risk engine and
the ledger until the signal comes, and then stops the metrics server and the feed, joins the two threads and
writes the report. Of the metrics server there is only the moment in which its `stop()` returns.

The parts have been looked at alone, and here each is a projection of the whole: the queue of executions
with its threads (`Process.trading`) and the receive loop with its stop flag (`Process.subscriber`). Every
step of the process is a step of the part or leaves it as it is (`exec_trading`, `exec_subscriber`), so
that what holds of a part holds in the process.
-/

namespace TradingSim

open Lib

/-! ### The threads -/

/-- Where the feed thread is in `UDPFeedSubscriber::start`. -/
inductive FeedThread where
  /-- Before `running_ = true`. -/
  | setup
  /-- At `while (running_)`. -/
  | test
  | recvfrom
  | received (buffer : List UInt8)
  /-- In the callbacks of `dispatch`. -/
  | calling
  | ended

/-- The datagram that is received and not yet looked at. -/
def FeedThread.inHand : FeedThread → List (List UInt8)
  | .received buffer => [buffer]
  | _ => []

/-- The phase of the receive loop. -/
def FeedThread.phase : FeedThread → Phase
  | .setup => .starting
  | .test => .testing
  | .recvfrom => .working
  | .received _ => .working
  | .calling => .testing
  | .ended => .ended

/-- Where the thread is in the body of the loop. -/
def FeedThread.work : FeedThread → UDPFeedSubscriber.Receiver
  | .received buffer => .received buffer
  | _ => .recvfrom

/-- Where the main thread is. -/
inductive MainLoop where
  /-- At `while (running)`. -/
  | top
  | drainTicks
  /-- With a tick popped, before `onTick`. -/
  | poppedTick (tick : Tick)
  | drainExecs
  /-- With an execution popped, before `onExecution`. -/
  | poppedExec (exec : Execution)
  /-- Past the loop, in `metricsServer.stop()`. -/
  | stopMetrics
  /-- Before `subscriber.stop()`. -/
  | stopping
  | joinFeed
  | joinExec
  | reported

/-- The tick that is popped and not yet applied. -/
def MainLoop.tickInHand : MainLoop → List Tick
  | .poppedTick tick => [tick]
  | _ => []

/-- The main thread as the queue of executions sees it. -/
def MainLoop.thread : MainLoop → MainThread
  | .top => .top
  | .drainTicks => .drainTicks
  | .poppedTick _ => .drainTicks
  | .drainExecs => .drainExecs
  | .poppedExec exec => .popped exec
  | .stopMetrics => .joining
  | .stopping => .joining
  | .joinFeed => .joining
  | .joinExec => .joining
  | .reported => .reported

/-- `subscriber.stop()` has returned. -/
def MainLoop.stopped : MainLoop → Bool
  | .joinFeed => true
  | .joinExec => true
  | .reported => true
  | _ => false

/-- Where an access of `tickQueue.pop` leads the main thread. -/
def MainLoop.ofTickPop : SpscEvent Tick → MainLoop
  | .done (.pop tick) => .poppedTick tick
  | .done _ => .drainExecs
  | _ => .drainTicks

/-- Where an access of `execQueue.pop` leads the main thread. -/
def MainLoop.ofExecPop : SpscEvent Execution → MainLoop
  | .done (.pop exec) => .poppedExec exec
  | .done _ => .top
  | _ => .drainExecs

namespace MainLoop

@[simp] theorem stopped_ofTickPop (e : SpscEvent Tick) : (ofTickPop e).stopped = false := by
  cases e with
  | done op => cases op <;> rfl
  | _ => rfl

@[simp] theorem stopped_ofExecPop (e : SpscEvent Execution) : (ofExecPop e).stopped = false := by
  cases e with
  | done op => cases op <;> rfl
  | _ => rfl

@[simp] theorem tickInHand_ofExecPop (e : SpscEvent Execution) : (ofExecPop e).tickInHand = [] := by
  cases e with
  | done op => cases op <;> rfl
  | _ => rfl

end MainLoop

/-- The process. -/
structure Process (tickCap execCap : ℕ) where
  feed : FeedThread
  /-- `UDPFeedSubscriber::running_`. -/
  receiving : Bool
  ticks : Lane Tick tickCap
  execs : Lane Execution execCap
  running : Bool
  main : MainLoop
  latestPrices : Except Fault LatestPrices
  positions : Except Fault PositionManager

/-- What a step of the process shows. -/
inductive ProcessEvent where
  /-- A step of the receive loop, or its stop. -/
  | subscriber (e : StopEvent (UDPFeedSubscriber.FeedEvent Unit))
  /-- An access to `tickQueue`. -/
  | ticks (e : SpscEvent Tick)
  /-- `onTick`. -/
  | priced (tick : Tick)
  /-- A step at the queue of executions, or of the main loop around it. -/
  | trading (e : SystemEvent)
  /-- `metricsServer.stop()` returns. -/
  | metricsStopped
  | silent

namespace ProcessEvent

def subscriber? : ProcessEvent → Option (StopEvent (UDPFeedSubscriber.FeedEvent Unit))
  | .subscriber e => some e
  | _ => none

/-- The operation on `tickQueue` that the step completes. -/
def tickOp? : ProcessEvent → Option (FifoOp Tick)
  | .ticks e => e.op?
  | _ => none

def priced? : ProcessEvent → Option Tick
  | .priced tick => some tick
  | _ => none

/-- The main loop goes on from the ticks to the executions when it finds `tickQueue` empty. -/
def trading? : ProcessEvent → Option SystemEvent
  | .trading e => some e
  | .ticks (.done .empty) => some .silent
  | _ => none

/-- The datagram that the step receives. -/
def received? : ProcessEvent → Option (List UInt8)
  | .subscriber (.work (.receive buffer)) => some buffer
  | _ => none

/-- What the step lets `recvfrom` return: a datagram or an error. -/
def returned? : ProcessEvent → Option (Option (List UInt8))
  | .subscriber (.work (.receive buffer)) => some (some buffer)
  | .subscriber (.work .failed) => some none
  | _ => none

/-- The steps of the receive loop. -/
def feedSteps (tr : List ProcessEvent) : List (StopEvent (UDPFeedSubscriber.FeedEvent Unit)) :=
  tr.filterMap subscriber?

/-- The datagrams received, as far as the buffer takes them. -/
def received (tr : List ProcessEvent) : List (List UInt8) := tr.filterMap received?

/-- The returns of `recvfrom`. -/
def returns (tr : List ProcessEvent) : List (Option (List UInt8)) := tr.filterMap returned?

/-- The operations on `tickQueue` that were completed. -/
def tickOps (tr : List ProcessEvent) : List (FifoOp Tick) := tr.filterMap tickOp?

/-- The ticks that were applied to the price cache. -/
def pricedTicks (tr : List ProcessEvent) : List Tick := tr.filterMap priced?

variable (tr : List ProcessEvent) (e : ProcessEvent)

theorem received_snoc : received (tr ++ [e]) = received tr ++ e.received?.toList :=
  Fifo.filterMap_snoc ..

theorem feedSteps_snoc : feedSteps (tr ++ [e]) = feedSteps tr ++ e.subscriber?.toList :=
  Fifo.filterMap_snoc ..

theorem returns_snoc : returns (tr ++ [e]) = returns tr ++ e.returned?.toList := Fifo.filterMap_snoc ..

theorem tickOps_snoc : tickOps (tr ++ [e]) = tickOps tr ++ e.tickOp?.toList := Fifo.filterMap_snoc ..

theorem pricedTicks_snoc : pricedTicks (tr ++ [e]) = pricedTicks tr ++ e.priced?.toList :=
  Fifo.filterMap_snoc ..

end ProcessEvent

namespace Process

/-! ### The feed -/

/-- The symbols that `main` subscribes to, each with the same callback. -/
def symbols : List (List UInt8) :=
  [ascii "AAPL", ascii "MSFT", ascii "GOOGL", ascii "TSLA", ascii "ESZ4", ascii "GBPUSD"]

def dispatcher : MarketDispatcher Unit := .subscribeAll (symbols.map (·, ()))

/-- The ticks that a datagram is dispatched as. -/
def route (double : List UInt8 → ℚ) (buffer : List UInt8) : List Tick :=
  if buffer.length < sizeofTick then []
  else (dispatcher.dispatch (.ofBytes double buffer)).map Prod.snd

/-- **Only ticks of the symbols of `main`** get past the dispatcher, whatever the datagram. -/
theorem mem_symbols_of_dispatch {tick tick' : Tick} (h : ((), tick') ∈ dispatcher.dispatch tick) :
    tick' = tick ∧ tick.symbol.text ∈ symbols ∧ ∃ i, tick.symbol i = 0 := by
  rw [dispatcher, MarketDispatcher.dispatch_eq, List.mem_map] at h
  obtain ⟨callback, hmem, heq⟩ := h
  obtain ⟨-, rfl⟩ := Prod.mk.inj heq
  refine ⟨rfl, ?_⟩
  rw [MarketDispatcher.under, List.mem_map] at hmem
  obtain ⟨sub, hsub, -⟩ := hmem
  rw [List.mem_filter, decide_eq_true_iff] at hsub
  obtain ⟨hsub, -, hfield⟩ := hsub
  obtain ⟨s, hs, rfl⟩ := List.mem_map.mp hsub
  rw [← hfield]
  have hall : ∀ s ∈ symbols, (subscribedField s).text = s ∧ subscribedField s 7 = 0 := by decide
  obtain ⟨htext, hnul⟩ := hall s hs
  exact ⟨htext.symm ▸ hs, 7, hnul⟩

theorem route_text {double : List UInt8 → ℚ} {buffer : List UInt8} {tick : Tick}
    (h : tick ∈ route double buffer) : tick.symbol.text ∈ symbols ∧ ∃ i, tick.symbol i = 0 := by
  unfold route at h
  split at h
  · simp at h
  · obtain ⟨⟨callback, tick'⟩, hcall, rfl⟩ := List.mem_map.mp h
    obtain ⟨rfl, hsym⟩ := mem_symbols_of_dispatch hcall
    exact hsym

theorem dispatch_subscribed {symbol : List UInt8} {tick : Tick} (hs : symbol ∈ symbols)
    (h : tick.symbol = subscribedField symbol) : dispatcher.dispatch tick = [((), tick)] := by
  have hone : ∀ symbol ∈ symbols, MarketDispatcher.under
      (fun u => u ≠ [] ∧ subscribedField u = subscribedField symbol) (symbols.map (·, ())) = [()] := by
    decide
  rw [dispatcher, MarketDispatcher.dispatch_eq, h, hone symbol hs]
  rfl

theorem route_subscribed {double : List UInt8 → ℚ} {buffer symbol : List UInt8}
    (hlong : ¬ buffer.length < sizeofTick) (hs : symbol ∈ symbols)
    (h : (Tick.ofBytes double buffer).symbol = subscribedField symbol) :
    route double buffer = [.ofBytes double buffer] := by
  rw [route, if_neg hlong, dispatch_subscribed hs h]
  rfl

/-! ### The steps -/

variable {tickCap execCap : ℕ} [NeZero tickCap] [NeZero execCap]

/-- The start, with the executions that the replay of the order file will emit. -/
def boot (tickBuffer : Fin tickCap → Tick) (execBuffer : Fin execCap → Execution)
    (execs : List Execution) : Process tickCap execCap where
  feed := .setup
  receiving := false
  ticks := .new tickBuffer []
  execs := .new execBuffer execs
  running := true
  main := .top
  latestPrices := .ok (.ofTicks [])
  positions := .ok .new

/-- One step of one of the threads, or the signal. A set-up of the feed that fails ends the process. -/
inductive Step (double : List UInt8 → ℚ) :
    Process tickCap execCap → ProcessEvent → Process tickCap execCap → Prop
  /-- `handleSignal`, at any moment. -/
  | signal (p : Process tickCap execCap) :
      Step double p (.trading .silent) { p with running := false }
  -- the feed thread
  | launch {p : Process tickCap execCap} : p.feed = .setup →
      Step double p (.subscriber .silent) { p with feed := .test, receiving := true }
  | enter {p : Process tickCap execCap} : p.feed = .test → p.receiving = true →
      Step double p (.subscriber .silent) { p with feed := .recvfrom }
  | exit {p : Process tickCap execCap} : p.feed = .test → p.receiving = false →
      Step double p (.subscriber .silent) { p with feed := .ended }
  | receive {p : Process tickCap execCap} (datagram : List UInt8) : p.feed = .recvfrom →
      Step double p (.subscriber (.work (.receive (datagram.take sizeofTick))))
        { p with feed := .received (datagram.take sizeofTick) }
  /-- "recvfrom failed" -/
  | failed {p : Process tickCap execCap} : p.feed = .recvfrom →
      Step double p (.subscriber (.work .failed)) { p with feed := .ended }
  | malformed {p : Process tickCap execCap} {buffer : List UInt8} : p.feed = .received buffer →
      buffer.length < sizeofTick →
      Step double p (.subscriber (.work .malformed)) { p with feed := .test }
  | dispatch {p : Process tickCap execCap} {buffer : List UInt8} : p.feed = .received buffer →
      ¬ buffer.length < sizeofTick →
      Step double p (.subscriber (.work (.dispatch (dispatcher.dispatch (.ofBytes double buffer)))))
        { p with
          feed := .calling
          ticks := { p.ticks with pending := route double buffer } }
  /-- `tickCallback`, without its latency record and the subtraction of times in it. -/
  | offer {p : Process tickCap execCap} {tick : Tick} {rest : List Tick} : p.feed = .calling →
      p.ticks.pending = tick :: rest →
      Step double p (.ticks (p.ticks.push tick rest).1) { p with ticks := (p.ticks.push tick rest).2 }
  | called {p : Process tickCap execCap} : p.feed = .calling → p.ticks.pending = [] →
      Step double p .silent { p with feed := .test }
  -- the execution thread
  | emit {p : Process tickCap execCap} {exec : Execution} {rest : List Execution} :
      p.execs.pending = exec :: rest →
      Step double p (.trading (.queue (p.execs.push exec rest).1))
        { p with execs := (p.execs.push exec rest).2 }
  -- the main thread
  | cycle {p : Process tickCap execCap} : p.main = .top → p.running = true →
      Step double p (.trading .silent) { p with main := .drainTicks }
  | popTick {p : Process tickCap execCap} : p.main = .drainTicks →
      Step double p (.ticks p.ticks.pop.1) { p with
        ticks := p.ticks.pop.2
        main := .ofTickPop p.ticks.pop.1 }
  | onTick {p : Process tickCap execCap} {tick : Tick} : p.main = .poppedTick tick →
      Step double p (.priced tick) { p with
        latestPrices := p.latestPrices >>= fun latestPrices => latestPrices.onTick tick
        main := .drainTicks }
  | popExec {p : Process tickCap execCap} : p.main = .drainExecs →
      Step double p (.trading (.queue p.execs.pop.1)) { p with
        execs := p.execs.pop.2
        main := .ofExecPop p.execs.pop.1 }
  | onExecution {p : Process tickCap execCap} {exec : Execution} : p.main = .poppedExec exec →
      Step double p (.trading (.booked exec)) { p with
        positions := p.positions >>= fun positions => positions.onExecution exec
        main := .drainExecs }
  | leave {p : Process tickCap execCap} : p.main = .top → p.running = false →
      Step double p (.trading .leave) { p with main := .stopMetrics }
  | metricsStopped {p : Process tickCap execCap} : p.main = .stopMetrics →
      Step double p .metricsStopped { p with main := .stopping }
  | stop {p : Process tickCap execCap} : p.main = .stopping →
      Step double p (.subscriber .stop) { p with receiving := false, main := .joinFeed }
  | joinFeed {p : Process tickCap execCap} : p.main = .joinFeed → p.feed = .ended →
      Step double p .silent { p with main := .joinExec }
  /-- The execution thread has ended, and the report is written. -/
  | report {p : Process tickCap execCap} : p.main = .joinExec → p.execs.pending = [] →
      Step double p (.trading .silent) { p with main := .reported }

variable {double : List UInt8 → ℚ} {p p' : Process tickCap execCap} {e : ProcessEvent}
  {tr : List ProcessEvent} {tickBuffer : Fin tickCap → Tick} {execBuffer : Fin execCap → Execution}
  {execs : List Execution}

/-! ### The parts -/

/-- `execQueue` with the threads on its two sides. -/
def trading (p : Process tickCap execCap) : TradingSystem execCap where
  execQueue := p.execs.queue
  emitting := p.execs.pending
  droppedExecs := p.execs.dropped
  running := p.running
  main := p.main.thread
  positions := p.positions

omit [NeZero tickCap] in
theorem trading_emit (p : Process tickCap execCap) (exec : Execution) (rest : List Execution) :
    p.trading.emit exec rest =
      ((p.execs.push exec rest).1, { p with execs := (p.execs.push exec rest).2 }.trading) := by
  unfold TradingSystem.emit Lane.push trading
  generalize p.execs.queue.push exec = step
  obtain ⟨e, q⟩ := step
  cases e with
  | done op => cases op <;> rfl
  | _ => rfl

omit [NeZero tickCap] in
theorem trading_drain (p : Process tickCap execCap) :
    p.trading.drain = (p.execs.pop.1, { p with
      execs := p.execs.pop.2
      main := .ofExecPop p.execs.pop.1 }.trading) := by
  unfold TradingSystem.drain Lane.pop trading
  generalize p.execs.queue.pop = step
  obtain ⟨e, q⟩ := step
  cases e with
  | done op => cases op <;> rfl
  | _ => rfl

/-- A step of the process is a step of the part, or leaves it as it is. -/
theorem Step.trading (hs : p.Step double e p') :
    (∀ d, e.trading? = some d → p.trading.Step d p'.trading) ∧
      (e.trading? = none → p'.trading = p.trading) := by
  have same : ∀ {main' : MainLoop}, main'.thread = p.main.thread →
      ({ p with main := main' } : Process tickCap execCap).trading = p.trading := by
    intro main' hthread
    simp [Process.trading, hthread]
  cases hs with
  | signal => exact Exec.refine_shown rfl (.signal _)
  | launch _ => exact Exec.refine_hidden rfl rfl
  | enter _ _ => exact Exec.refine_hidden rfl rfl
  | exit _ _ => exact Exec.refine_hidden rfl rfl
  | receive _ _ => exact Exec.refine_hidden rfl rfl
  | failed _ => exact Exec.refine_hidden rfl rfl
  | malformed _ _ => exact Exec.refine_hidden rfl rfl
  | dispatch _ _ => exact Exec.refine_hidden rfl rfl
  | @offer tick rest _ _ =>
    refine Exec.refine_hidden ?_ rfl
    -- a push does not find the queue empty
    have hpush : (p.ticks.push tick rest).1 ≠ .done .empty := Lane.push_ne_empty _ _ _
    generalize (p.ticks.push tick rest).1 = d at hpush ⊢
    cases d with
    | done op =>
      cases op with
      | empty => exact absurd rfl hpush
      | _ => rfl
    | _ => rfl
  | called _ _ => exact Exec.refine_hidden rfl rfl
  | @emit exec rest hnext =>
    have hd := TradingSystem.Step.emit (s := p.trading) hnext
    rw [trading_emit] at hd
    exact Exec.refine_shown rfl hd
  | cycle hmain hrun =>
    exact Exec.refine_shown rfl (.enter (s := p.trading) (congrArg MainLoop.thread hmain) hrun)
  | popTick hmain =>
    have hthread : p.main.thread = .drainTicks := congrArg MainLoop.thread hmain
    rcases p.ticks.pop_event with ⟨x, hpop⟩ | hpop | hpop
    · rw [hpop]
      exact Exec.refine_hidden rfl (same hthread.symm)
    · rw [hpop]
      exact Exec.refine_shown rfl (.ticksDone (s := p.trading) hthread)
    · generalize p.ticks.pop.1 = d at hpop ⊢
      cases d with
      | done op => cases hpop
      | _ => exact Exec.refine_hidden rfl (same hthread.symm)
  | onTick hmain => exact Exec.refine_hidden rfl (same (by rw [hmain]; rfl))
  | popExec hmain =>
    have hd := TradingSystem.Step.drain (s := p.trading) (congrArg MainLoop.thread hmain)
    rw [trading_drain] at hd
    exact Exec.refine_shown rfl hd
  | onExecution hmain =>
    exact Exec.refine_shown rfl (.book (s := p.trading) (congrArg MainLoop.thread hmain))
  | leave hmain hrun =>
    exact Exec.refine_shown rfl (.leave (s := p.trading) (congrArg MainLoop.thread hmain) hrun)
  | metricsStopped hmain => exact Exec.refine_hidden rfl (same (by rw [hmain]; rfl))
  | stop hmain => exact Exec.refine_hidden rfl (same (by rw [hmain]; rfl))
  | joinFeed hmain _ => exact Exec.refine_hidden rfl (same (by rw [hmain]; rfl))
  | report hmain hnil =>
    exact Exec.refine_shown rfl (.report (s := p.trading) (congrArg MainLoop.thread hmain) hnil)

/-- **The executions of the process** are those of the queue with its threads. -/
theorem exec_trading (h : Exec (Step double) (boot tickBuffer execBuffer execs) tr p) :
    Exec TradingSystem.Step (.init execBuffer execs) (tr.filterMap ProcessEvent.trading?) p.trading :=
  (h.refine (I := fun _ => True) (f := Process.trading) trivial fun _ _ _ _ hs => ⟨trivial, hs.trading⟩).2

/-- The receive loop with its stop flag. The callbacks are part of the step that dispatches. -/
def subscriber (p : Process tickCap execCap) : Worker UDPFeedSubscriber.Receiver where
  running := p.receiving
  stopped := p.main.stopped
  phase := p.feed.phase
  work := p.feed.work

theorem Step.subscriber (hs : p.Step double e p') :
    (∀ d, e.subscriber? = some d →
        UDPFeedSubscriber.LaunchedStep dispatcher double p.subscriber d p'.subscriber) ∧
      (e.subscriber? = none → p'.subscriber = p.subscriber) := by
  obtain ⟨feed, receiving, ticks, execs, running, main, latestPrices, positions⟩ := p
  cases hs with
  | launch hfeed =>
    obtain rfl : feed = .setup := hfeed
    exact Exec.refine_shown rfl ⟨.launch rfl trivial, by simp [Process.subscriber, FeedThread.phase]⟩
  | enter hfeed hrun =>
    obtain rfl : feed = .test := hfeed
    exact Exec.refine_shown rfl ⟨.enter rfl hrun trivial, by simp [Process.subscriber, FeedThread.phase]⟩
  | exit hfeed hrun =>
    obtain rfl : feed = .test := hfeed
    exact Exec.refine_shown rfl ⟨.leave rfl (Or.inl hrun), by simp [Process.subscriber, FeedThread.phase]⟩
  | receive datagram hfeed =>
    obtain rfl : feed = .recvfrom := hfeed
    exact Exec.refine_shown rfl ⟨.stay rfl (.receive datagram), by simp [Process.subscriber, FeedThread.phase]⟩
  | failed hfeed =>
    obtain rfl : feed = .recvfrom := hfeed
    exact Exec.refine_shown rfl ⟨.quit rfl .failed, by simp [Process.subscriber, FeedThread.phase]⟩
  | @malformed buffer hfeed hshort =>
    obtain rfl : feed = .received buffer := hfeed
    exact Exec.refine_shown rfl ⟨.again rfl (.malformed hshort), by simp [Process.subscriber, FeedThread.phase]⟩
  | @dispatch buffer hfeed hlong =>
    obtain rfl : feed = .received buffer := hfeed
    exact Exec.refine_shown rfl ⟨.again rfl (.dispatch hlong), by simp [Process.subscriber, FeedThread.phase]⟩
  | stop hmain =>
    obtain rfl : main = .stopping := hmain
    exact Exec.refine_shown rfl ⟨.stop rfl, by cases feed <;> simp [Process.subscriber, FeedThread.phase]⟩
  | called hfeed _ =>
    obtain rfl : feed = .calling := hfeed
    exact Exec.refine_hidden rfl rfl
  | signal => exact Exec.refine_hidden rfl rfl
  | offer _ _ => exact Exec.refine_hidden rfl rfl
  | emit _ => exact Exec.refine_hidden rfl rfl
  | popTick hmain =>
    obtain rfl : main = .drainTicks := hmain
    exact Exec.refine_hidden rfl (by rw [Process.subscriber, MainLoop.stopped_ofTickPop]; rfl)
  | popExec hmain =>
    obtain rfl : main = .drainExecs := hmain
    exact Exec.refine_hidden rfl (by rw [Process.subscriber, MainLoop.stopped_ofExecPop]; rfl)
  | cycle hmain _ =>
    obtain rfl : main = .top := hmain
    exact Exec.refine_hidden rfl rfl
  | @onTick tick hmain =>
    obtain rfl : main = .poppedTick tick := hmain
    exact Exec.refine_hidden rfl rfl
  | @onExecution exec hmain =>
    obtain rfl : main = .poppedExec exec := hmain
    exact Exec.refine_hidden rfl rfl
  | leave hmain _ =>
    obtain rfl : main = .top := hmain
    exact Exec.refine_hidden rfl rfl
  | metricsStopped hmain =>
    obtain rfl : main = .stopMetrics := hmain
    exact Exec.refine_hidden rfl rfl
  | joinFeed hmain _ =>
    obtain rfl : main = .joinFeed := hmain
    exact Exec.refine_hidden rfl rfl
  | report hmain _ =>
    obtain rfl : main = .joinExec := hmain
    exact Exec.refine_hidden rfl rfl

/-- **The steps of the feed thread** are those of the receive loop. -/
theorem exec_subscriber (h : Exec (Step double) p tr p') :
    Exec (UDPFeedSubscriber.LaunchedStep dispatcher double) p.subscriber (ProcessEvent.feedSteps tr)
      p'.subscriber :=
  (h.refine (I := fun _ => True) (f := Process.subscriber) trivial
    fun _ _ _ _ hs => ⟨trivial, hs.subscriber⟩).2

end Process

end TradingSim
