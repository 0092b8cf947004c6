import TradingSim.System.Process

/-!
What becomes of a datagram, from the socket to the price cache, in every run of the process and whoever
sends it (`Process.ticks_delivered`).
-/

namespace TradingSim

open Lib

namespace Process

variable {tickCap execCap : ℕ} [NeZero tickCap] [NeZero execCap] {double : List UInt8 → ℚ}
  {p p' : Process tickCap execCap} {e : ProcessEvent} {tr : List ProcessEvent}
  {tickBuffer : Fin tickCap → Tick} {execBuffer : Fin execCap → Execution} {execs : List Execution}

/-- What is known of the ticks after a run. -/
structure Fed (double : List UInt8 → ℚ) (tr : List ProcessEvent) (p : Process tickCap execCap) :
    Prop where
  /-- Of the datagrams all are handled but the one in hand, and their ticks given to the producer. -/
  lane : ∃ handled, ProcessEvent.received tr = handled ++ p.feed.inHand ∧
    p.ticks.Accounted (handled.flatMap (route double)) (ProcessEvent.tickOps tr)
  /-- Ticks are pushed in the callbacks only. -/
  idle : p.feed ≠ .calling → p.ticks.pending = []
  priced : ProcessEvent.pricedTicks tr ++ p.main.tickInHand = Fifo.pops (ProcessEvent.tickOps tr)
  prices : p.latestPrices = .ok (.ofTicks (ProcessEvent.pricedTicks tr))

theorem fed_boot : Fed double [] (boot tickBuffer execBuffer execs) where
  lane := ⟨[], rfl, Lane.accounted_new tickBuffer []⟩
  idle _ := rfl
  priced := rfl
  prices := rfl

namespace Fed

omit [NeZero execCap] in
theorem text_of_popped (h : Fed double tr p) {tick : Tick}
    (hpop : tick ∈ Fifo.pops (ProcessEvent.tickOps tr)) :
    tick.symbol.text ∈ symbols ∧ ∃ i, tick.symbol i = 0 := by
  obtain ⟨handled, -, hlane⟩ := h.lane
  have hpush : tick ∈ Fifo.pushes (ProcessEvent.tickOps tr) := by
    rw [hlane.history]
    exact List.mem_append_left _ hpop
  obtain ⟨buffer, -, hroute⟩ := List.mem_flatMap.mp (hlane.pushes_sublist.subset hpush)
  exact route_text hroute

omit [NeZero execCap] in
theorem frame (h : Fed double tr p) (hreceived : e.received? = none) (hop : e.tickOp? = none)
    (hpriced : e.priced? = none) (hhand : p'.feed.inHand = p.feed.inHand) (hticks : p'.ticks = p.ticks)
    (hidle : p'.feed ≠ .calling → p.ticks.pending = [])
    (htick : p'.main.tickInHand = p.main.tickInHand) (hprices : p'.latestPrices = p.latestPrices) :
    Fed double (tr ++ [e]) p' := by
  obtain ⟨handled, heq, hlane⟩ := h.lane
  constructor
  · refine ⟨handled, ?_, ?_⟩
    · simpa [ProcessEvent.received_snoc, hreceived, hhand] using heq
    · simpa [ProcessEvent.tickOps_snoc, hop, hticks] using hlane
  · intro hcalling
    rw [hticks]
    exact hidle hcalling
  · simpa [ProcessEvent.pricedTicks_snoc, ProcessEvent.tickOps_snoc, hpriced, hop, htick] using h.priced
  · simpa [ProcessEvent.pricedTicks_snoc, hpriced, hprices] using h.prices

omit [NeZero execCap] in
theorem handle {buffer : List UInt8} (h : Fed double tr p) (hfeed : p.feed = .received buffer)
    (hreceived : e.received? = none) (hop : e.tickOp? = none) (hpriced : e.priced? = none)
    {feed : FeedThread} (hhand : feed.inHand = []) (hidle : feed ≠ .calling → route double buffer = []) :
    Fed double (tr ++ [e])
      { p with feed := feed, ticks := { p.ticks with pending := route double buffer } } := by
  obtain ⟨handled, heq, hlane⟩ := h.lane
  have hpending : p.ticks.pending = [] := h.idle (by simp [hfeed])
  constructor
  · refine ⟨handled ++ [buffer], ?_, ?_⟩
    · rw [ProcessEvent.received_snoc, hreceived, heq, hfeed, hhand]
      simp [FeedThread.inHand]
    · rw [ProcessEvent.tickOps_snoc, hop, List.flatMap_append, List.flatMap_singleton,
        Option.toList_none, List.append_nil]
      exact hlane.give hpending _
  · exact hidle
  · simpa [ProcessEvent.pricedTicks_snoc, ProcessEvent.tickOps_snoc, hpriced, hop] using h.priced
  · simpa [ProcessEvent.pricedTicks_snoc, hpriced] using h.prices

omit [NeZero execCap] in
theorem pop (h : Fed double tr p) (hmain : p.main = .drainTicks) :
    Fed double (tr ++ [.ticks p.ticks.pop.1]) { p with
      ticks := p.ticks.pop.2
      main := .ofTickPop p.ticks.pop.1 } := by
  obtain ⟨handled, heq, hlane⟩ := h.lane
  constructor
  · refine ⟨handled, ?_, ?_⟩
    · simpa [ProcessEvent.received_snoc, ProcessEvent.received?] using heq
    · rw [ProcessEvent.tickOps_snoc]
      exact hlane.pop
  · exact h.idle
  · have hall : ProcessEvent.pricedTicks tr = Fifo.pops (ProcessEvent.tickOps tr) := by
      simpa [hmain, MainLoop.tickInHand] using h.priced
    rw [ProcessEvent.pricedTicks_snoc, ProcessEvent.tickOps_snoc, hall]
    -- the tick in hand is the one that was popped now
    rcases p.ticks.pop_event with ⟨x, hpop⟩ | hpop | hpop
    · simp [hpop, ProcessEvent.priced?, ProcessEvent.tickOp?, SpscEvent.op?, MainLoop.ofTickPop,
        MainLoop.tickInHand, Fifo.pops_snoc, Fifo.popped?]
    · simp [hpop, ProcessEvent.priced?, ProcessEvent.tickOp?, SpscEvent.op?, MainLoop.ofTickPop,
        MainLoop.tickInHand, Fifo.pops_snoc, Fifo.popped?]
    · generalize p.ticks.pop.1 = d at hpop ⊢
      cases d with
      | done op => cases hpop
      | _ => simp [ProcessEvent.priced?, ProcessEvent.tickOp?, SpscEvent.op?, MainLoop.ofTickPop,
          MainLoop.tickInHand]
  · simpa [ProcessEvent.pricedTicks_snoc, ProcessEvent.priced?] using h.prices

omit [NeZero execCap] in
theorem price {tick : Tick} (h : Fed double tr p) (hmain : p.main = .poppedTick tick) :
    Fed double (tr ++ [.priced tick]) { p with
      latestPrices := p.latestPrices >>= fun latestPrices => latestPrices.onTick tick
      main := .drainTicks } := by
  obtain ⟨handled, heq, hlane⟩ := h.lane
  have hpops : ProcessEvent.pricedTicks tr ++ [tick] = Fifo.pops (ProcessEvent.tickOps tr) := by
    have hpriced := h.priced
    rwa [hmain] at hpriced
  have hnul : ∃ i, tick.symbol i = 0 := by
    refine (h.text_of_popped ?_).2
    rw [← hpops]
    exact List.mem_append_right _ (List.mem_singleton_self tick)
  constructor
  · refine ⟨handled, ?_, ?_⟩
    · simpa [ProcessEvent.received_snoc, ProcessEvent.received?] using heq
    · simpa [ProcessEvent.tickOps_snoc, ProcessEvent.tickOp?] using hlane
  · exact h.idle
  · simpa [ProcessEvent.pricedTicks_snoc, ProcessEvent.tickOps_snoc, ProcessEvent.tickOp?,
      ProcessEvent.priced?, MainLoop.tickInHand] using hpops
  · rw [h.prices, ok_bind, LatestPrices.onTick_ofTicks hnul, ProcessEvent.pricedTicks_snoc]
    rfl

/-- **One step** of the process. -/
theorem step (h : Fed double tr p) (hs : p.Step double e p') : Fed double (tr ++ [e]) p' := by
  -- a step of the feed thread, outside the callbacks before and after
  have outside : ∀ {e : ProcessEvent} {feed : FeedThread} {receiving : Bool}, p.feed ≠ .calling →
      p.feed.inHand = [] → feed.inHand = [] → e.received? = none → e.tickOp? = none → e.priced? = none →
      Fed double (tr ++ [e]) { p with feed := feed, receiving := receiving } := by
    intro e feed receiving hcalling hhand hhand' hreceived hop hpriced
    exact h.frame hreceived hop hpriced (hhand'.trans hhand.symm) rfl (fun _ => h.idle hcalling) rfl rfl
  -- a step of another thread
  have elsewhere : ∀ {e : ProcessEvent} {receiving : Bool} {execs : Lane Execution execCap}
      {running : Bool} {main : MainLoop} {positions : Except Fault PositionManager},
      e.received? = none → e.tickOp? = none → e.priced? = none →
      main.tickInHand = p.main.tickInHand →
      Fed double (tr ++ [e]) { p with
        receiving := receiving
        execs := execs
        running := running
        main := main
        positions := positions } := by
    intro e receiving execs running main positions hreceived hop hpriced htick
    exact h.frame hreceived hop hpriced rfl rfl h.idle htick rfl
  cases hs with
  | signal => exact elsewhere rfl rfl rfl rfl
  | launch hfeed => exact outside (by simp [hfeed]) (by rw [hfeed]; rfl) rfl rfl rfl rfl
  | enter hfeed _ => exact outside (by simp [hfeed]) (by rw [hfeed]; rfl) rfl rfl rfl rfl
  | exit hfeed _ => exact outside (by simp [hfeed]) (by rw [hfeed]; rfl) rfl rfl rfl rfl
  | failed hfeed => exact outside (by simp [hfeed]) (by rw [hfeed]; rfl) rfl rfl rfl rfl
  | receive datagram hfeed =>
    obtain ⟨handled, heq, hlane⟩ := h.lane
    refine ⟨⟨handled, ?_, ?_⟩, fun _ => h.idle (by simp [hfeed]), ?_, ?_⟩
    · simpa [ProcessEvent.received_snoc, ProcessEvent.received?, hfeed, FeedThread.inHand] using heq
    · simpa [ProcessEvent.tickOps_snoc, ProcessEvent.tickOp?] using hlane
    · simpa [ProcessEvent.pricedTicks_snoc, ProcessEvent.tickOps_snoc, ProcessEvent.tickOp?,
        ProcessEvent.priced?] using h.priced
    · simpa [ProcessEvent.pricedTicks_snoc, ProcessEvent.priced?] using h.prices
  | @malformed buffer hfeed hshort =>
    have hroute : route double buffer = [] := if_pos hshort
    have hticks : { p.ticks with pending := route double buffer } = p.ticks := by
      rw [hroute, ← h.idle (by simp [hfeed])]
    have hhandle : Fed double (tr ++ [.subscriber (.work .malformed)])
        { p with feed := .test, ticks := { p.ticks with pending := route double buffer } } :=
      h.handle hfeed rfl rfl rfl rfl fun _ => hroute
    rwa [hticks] at hhandle
  | dispatch hfeed _ => exact h.handle hfeed rfl rfl rfl rfl fun hcalling => absurd rfl hcalling
  | @offer tick rest hfeed hnext =>
    obtain ⟨handled, heq, hlane⟩ := h.lane
    refine ⟨⟨handled, ?_, ?_⟩, fun hcalling => absurd hfeed hcalling, ?_, ?_⟩
    · simpa [ProcessEvent.received_snoc, ProcessEvent.received?] using heq
    · rw [ProcessEvent.tickOps_snoc]
      exact hlane.push hnext
    · rw [ProcessEvent.tickOps_snoc, ProcessEvent.pricedTicks_snoc]
      change _ = Fifo.pops (_ ++ (p.ticks.push tick rest).1.op?.toList)
      rw [Lane.pops_push, ← h.priced]
      simp [ProcessEvent.priced?]
    · simpa [ProcessEvent.pricedTicks_snoc, ProcessEvent.priced?] using h.prices
  | called hfeed hnil => exact h.frame rfl rfl rfl (by rw [hfeed]; rfl) rfl (fun _ => hnil) rfl rfl
  | emit _ => exact elsewhere rfl rfl rfl rfl
  | cycle hmain _ => exact elsewhere rfl rfl rfl (by rw [hmain]; rfl)
  | popTick hmain => exact h.pop hmain
  | onTick hmain => exact h.price hmain
  | popExec hmain => exact elsewhere rfl rfl rfl (by rw [hmain, MainLoop.tickInHand_ofExecPop]; rfl)
  | onExecution hmain => exact elsewhere rfl rfl rfl (by rw [hmain]; rfl)
  | leave hmain _ => exact elsewhere rfl rfl rfl (by rw [hmain]; rfl)
  | metricsStopped hmain => exact elsewhere rfl rfl rfl (by rw [hmain]; rfl)
  | stop hmain => exact elsewhere rfl rfl rfl (by rw [hmain]; rfl)
  | joinFeed hmain _ => exact elsewhere rfl rfl rfl (by rw [hmain]; rfl)
  | report hmain _ => exact elsewhere rfl rfl rfl (by rw [hmain]; rfl)

omit [NeZero execCap] in
theorem mem_symbols (h : Fed double tr p) {sym : List UInt8} {price : ℚ}
    (hprice : LatestPrices.ofTicks (ProcessEvent.pricedTicks tr) sym = some price) : sym ∈ symbols := by
  obtain ⟨tick, hmem, rfl, -⟩ := LatestPrices.exists_of_ofTicks hprice
  refine (h.text_of_popped ?_).1
  rw [← h.priced]
  exact List.mem_append_left _ hmem

end Fed

theorem exec_fed (h : Exec (Step double) (boot tickBuffer execBuffer execs) tr p) : Fed double tr p :=
  h.rule (I := Fed double) fed_boot fun _ _ _ _ ih hs => ih.step hs

/-- **What becomes of a datagram**, in every run, whoever sends and whatever is sent. The datagrams are
handled in the order they come in, all but the one in hand. What they are dispatched as is offered to the
queue in that order, up to the ticks of the callbacks in progress, and each offered tick is taken in or
counted as dropped. Those taken in reach the price cache once and in order, but for those still in the
queue and the one in the hand of the main thread. The cache never fails: it has the price of the last tick
of each symbol that reached it, and no symbol but those of `main`. -/
theorem ticks_delivered (h : Exec (Step double) (boot tickBuffer execBuffer execs) tr p) :
    ∃ handled, ProcessEvent.received tr = handled ++ p.feed.inHand ∧
      Fifo.offers (ProcessEvent.tickOps tr) ++ p.ticks.pending = handled.flatMap (route double) ∧
      (Fifo.pushes (ProcessEvent.tickOps tr)).Sublist (Fifo.offers (ProcessEvent.tickOps tr)) ∧
      (Fifo.pushes (ProcessEvent.tickOps tr)).length + p.ticks.dropped =
        (Fifo.offers (ProcessEvent.tickOps tr)).length ∧
      Fifo.pushes (ProcessEvent.tickOps tr) =
        ProcessEvent.pricedTicks tr ++ p.main.tickInHand ++ p.ticks.queue.stored ∧
      p.latestPrices = .ok (.ofTicks (ProcessEvent.pricedTicks tr)) ∧
      ∀ sym price, LatestPrices.ofTicks (ProcessEvent.pricedTicks tr) sym = some price →
        sym ∈ symbols := by
  have hfed := exec_fed h
  obtain ⟨handled, heq, hlane⟩ := hfed.lane
  refine ⟨handled, heq, hlane.offers, Fifo.pushes_sublist_offers _, hlane.dropped, ?_, hfed.prices,
    fun _ _ hprice => hfed.mem_symbols hprice⟩
  rw [hfed.priced]
  exact hlane.history

theorem exec_one_tick (double : List UInt8 → ℚ) (tickBuffer : Fin 2 → Tick)
    (execBuffer : Fin 2 → Execution) {datagram : List UInt8} (hlen : datagram.length = sizeofTick)
    (hroute : route double datagram = [.ofBytes double datagram]) :
    ∃ tr, ∃ p : Process 2 2, Exec (Step double) (boot tickBuffer execBuffer []) tr p ∧
      ProcessEvent.received tr = [datagram] ∧
      ProcessEvent.pricedTicks tr = [.ofBytes double datagram] := by
  have htake : datagram.take sizeofTick = datagram := List.take_of_length_le hlen.le
  have hlong : ¬ (datagram.take sizeofTick).length < sizeofTick := by rw [htake, hlen]; decide
  let tick := Tick.ofBytes double datagram
  let calls := dispatcher.dispatch tick
  let calling : Process 2 2 := { boot tickBuffer execBuffer [] with
    feed := .calling
    receiving := true
    ticks := ⟨.new tickBuffer, [tick], 0⟩ }
  have hreceive : Exec (Step double) (boot tickBuffer execBuffer [])
      [.subscriber .silent, .subscriber .silent, .subscriber (.work (.receive datagram)),
        .subscriber (.work (.dispatch calls))] calling := by
    have hboot : Exec (Step double) (boot tickBuffer execBuffer []) [] (boot tickBuffer execBuffer []) :=
      .nil
    have hrun := hboot |>.snoc (.launch rfl) |>.snoc (.enter rfl rfl) |>.snoc (.receive datagram rfl)
      |>.snoc (.dispatch rfl hlong)
    rw [htake, hroute] at hrun
    exact hrun
  exact ⟨_, _, hreceive |>.snoc (.offer rfl rfl) |>.snoc (.offer rfl rfl) |>.snoc (.offer rfl rfl)
    |>.snoc (.offer rfl rfl) |>.snoc (.called rfl rfl) |>.snoc (.cycle rfl rfl) |>.snoc (.popTick rfl)
    |>.snoc (.popTick rfl) |>.snoc (.popTick rfl) |>.snoc (.popTick rfl) |>.snoc (.onTick rfl), rfl, rfl⟩

/-- A tick of AAPL at 7 reaches the cache. -/
theorem ticks_delivered_one :
    let double : List UInt8 → ℚ := fun _ => 7
    let datagram := ascii "AAPL" ++ List.replicate 36 0
    ∃ tr, ∃ p : Process 2 2,
      Exec (Step double) (boot (fun _ => ⟨0, 0, 0, 0, 0⟩) (fun _ => ⟨0, 0, 0, 0, 0, .buy, 0, 0⟩) []) tr p ∧
      ProcessEvent.received tr = [datagram] ∧
      ∃ latestPrices, p.latestPrices = .ok latestPrices ∧ latestPrices (ascii "AAPL") = some 7 := by
  intro double datagram
  have hsymbol : (Tick.ofBytes double datagram).symbol = subscribedField (ascii "AAPL") := by decide
  have hroute : route double datagram = [.ofBytes double datagram] :=
    route_subscribed (by decide) (by decide) hsymbol
  obtain ⟨tr, p, hexec, hreceived, hpriced⟩ :=
    exec_one_tick double (fun _ => ⟨0, 0, 0, 0, 0⟩) (fun _ => ⟨0, 0, 0, 0, 0, .buy, 0, 0⟩) rfl hroute
  obtain ⟨handled, -, -, -, -, -, hprices, -⟩ := ticks_delivered hexec
  refine ⟨tr, p, hexec, hreceived, _, hprices, ?_⟩
  rw [hpriced]
  have htext : (Tick.ofBytes double datagram).symbol.text = ascii "AAPL" := by
    rw [hsymbol]
    decide
  simp [LatestPrices.ofTicks, htext]
  rfl

end Process

end TradingSim
