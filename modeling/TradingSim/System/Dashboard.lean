import TradingSim.Risk.Var
import TradingSim.System.Report
import TradingSim.System.TickPath

/-!
The figures of the dashboard: `runReport` and `computeVar`, which the main loop calls between two cycles, over
the ledger and the price cache as the threads have left them.

Whatever the interleaving, a line of the report values the trades booked so far at the last tick that has
reached the cache, and the value at risk is computed from the same lines (`Process.risk_report`). A symbol
that `main` has not subscribed to never gets a price: its position is carried at its own entry price, with no
profit or loss but the realised one.
-/

namespace TradingSim

open Lib FixSessionReader

/-! ### A line of the report -/

/-- The line is that of the trades `execs` in the symbol, at the last of the ticks of it. -/
structure ReportRow.Shows (row : ReportRow) (execs : List Execution) (ticks : List Tick)
    (sym : List UInt8) : Prop where
  qty : row.qty = Execution.total .buy (Execution.ofSymbol sym execs) -
    Execution.total .sell (Execution.ofSymbol sym execs)
  price : ∀ price, LatestPrices.ofTicks ticks sym = some price → row.price = price
  pnl : row.realisedPnl + row.unrealisedPnl =
    Execution.cash (Execution.ofSymbol sym execs) + row.qty * row.price
  unmarked : LatestPrices.ofTicks ticks sym = none → row.unrealisedPnl = 0

/-- **The lines** of a ledger and a cache. -/
theorem LatestPrices.runReport_shows {positions : PositionManager} {execs : List Execution}
    (h : positions.Books execs) (ticks : List Tick) (sym : List UInt8) :
    ((ofTicks ticks).runReport positions sym = none ∧ Execution.ofSymbol sym execs = []) ∨
      ∃ row, (ofTicks ticks).runReport positions sym = some row ∧ row.Shows execs ticks sym := by
  rcases h sym with ⟨hnone, hnil⟩ | ⟨position, hpos, -, -, hbooks⟩
  · exact Or.inl ⟨by rw [runReport, hnone]; rfl, hnil⟩
  · refine Or.inr ⟨_, by rw [runReport, hpos]; rfl, hbooks.quantity, ?_, ?_, ?_⟩
    · intro price hprice
      simp [hprice]
    · have hvalue := hbooks.value ((ofTicks ticks sym).getD position.averageEntryPrice)
      rw [Execution.worth_eq, ← hbooks.quantity, Position.value] at hvalue
      rw [← hvalue]
      ring
    · intro hnone
      simp [hnone]

/-- `computeVar` takes the quantities and the prices that `runReport` prints. -/
theorem RiskEngine.computeVar_rows {positions : PositionManager} {prices : LatestPrices}
    {surface : VolatilitySurface} {sqrt252 : ℚ} {vol : ℚ → ℚ} (hsqrt : 0 < sqrt252)
    (hvol : ∀ price, surface.getVol price 30 = .ok (vol price)) {holdings : List Holding}
    (h : ∀ holding ∈ holdings, positions holding.1 = some holding.2) :
    computeVar ⟨prices, surface⟩ sqrt252 holdings =
      .ok (((holdings.filterMap fun holding => prices.runReport positions holding.1).map fun row =>
        row.qty * row.price * (vol row.price / sqrt252)).sum * (1645 / 1000)) := by
  rw [computeVar_eq hsqrt hvol, List.map_filterMap]
  congr 3
  rw [← List.filterMap_eq_map]
  refine List.filterMap_congr fun holding hmem => ?_
  rw [LatestPrices.runReport, h holding hmem]
  rfl

/-! ### The process -/

namespace Process

variable {tickCap execCap : ℕ} [NeZero tickCap] [NeZero execCap] {double : List UInt8 → ℚ}
  {p : Process tickCap execCap} {tr : List ProcessEvent} {tickBuffer : Fin tickCap → Tick}
  {execBuffer : Fin execCap → Execution} {execs : List Execution}

theorem applied_sublist (h : Exec (Step double) (boot tickBuffer execBuffer execs) tr p) :
    (SystemEvent.applied (tr.filterMap ProcessEvent.trading?)).Sublist execs := by
  have hlane := exec_lane h
  have happlied := (TradingSystem.exec_accounted (exec_trading h)).applied
  calc SystemEvent.applied (tr.filterMap ProcessEvent.trading?)
      |>.Sublist (Fifo.pops (SystemEvent.queueOps (tr.filterMap ProcessEvent.trading?))) :=
        happlied ▸ List.sublist_append_left _ _
    _ |>.Sublist (Fifo.pushes (SystemEvent.queueOps (tr.filterMap ProcessEvent.trading?))) :=
        hlane.history ▸ List.sublist_append_left _ _
    _ |>.Sublist execs := hlane.pushes_sublist

/-- **The figures of the dashboard.** Let every order of the file be positive. The replay comes to its end,
and in every run of the process on its executions, whatever the feed sends, whatever is dropped and whenever
one looks: the ledger and the cache have no fault; a symbol has a line exactly if a trade of it is booked,
and the line has the quantity bought less that sold, the price of the last tick of the symbol that has
reached the cache, and a profit and loss that add up to the cash flow plus the market value; a symbol that
`main` did not subscribe to has no unrealised profit or loss; and `computeVar` has a figure, computed from
the quantities and prices of these lines. -/
theorem risk_report {atof : List UInt8 → ℚ} (clock : ℕ → Int64) {file : List UInt8}
    (hpos : ∀ line ∈ lines file, 0 < (readOrder atof 0 line).quantity) (surface : VolatilitySurface)
    {sqrt252 : ℚ} (hsqrt : 0 < sqrt252) :
    ∃ s log, ExecutionThread.replay atof clock file = .ok (s, log) ∧
      ∃ vol : ℚ → ℚ, (∀ price, surface.getVol price 30 = .ok (vol price)) ∧
      ∀ (double : List UInt8 → ℚ) (tickBuffer : Fin tickCap → Tick) (execBuffer : Fin execCap → Execution)
        (tr : List ProcessEvent) (p : Process tickCap execCap),
        Exec (Step double) (boot tickBuffer execBuffer (log.map Trade.exec)) tr p →
        ∃ positions prices, p.positions = .ok positions ∧ p.latestPrices = .ok prices ∧
          (∀ sym, (prices.runReport positions sym = none ∧ Execution.ofSymbol sym
              (SystemEvent.applied (tr.filterMap ProcessEvent.trading?)) = []) ∨
            ∃ row, prices.runReport positions sym = some row ∧
              row.Shows (SystemEvent.applied (tr.filterMap ProcessEvent.trading?))
                (ProcessEvent.pricedTicks tr) sym ∧
              (sym ∉ symbols → row.unrealisedPnl = 0)) ∧
          ∀ holdings : List Holding, (∀ holding ∈ holdings, positions holding.1 = some holding.2) →
            RiskEngine.computeVar ⟨prices, surface⟩ sqrt252 holdings =
              .ok (((holdings.filterMap fun holding => prices.runReport positions holding.1).map fun row =>
                row.qty * row.price * (vol row.price / sqrt252)).sum * (1645 / 1000)) := by
  obtain ⟨s, orders, log, hreplay, -, -, -, hbooked⟩ := ExecutionThread.replay_positive clock hpos
  have hvols : ∀ price, ∃ vol, surface.getVol price 30 = .ok vol := fun price =>
    (surface.getVol_ok price 30).imp fun _ hvol => hvol.1
  choose vol hvol using hvols
  refine ⟨s, log, hreplay, vol, hvol, ?_⟩
  intro double tickBuffer execBuffer tr p hexec
  have hall : ∀ exec ∈ SystemEvent.applied (tr.filterMap ProcessEvent.trading?), exec.Booked := by
    intro exec he
    obtain ⟨trade, htrade, rfl⟩ := List.mem_map.mp ((applied_sublist hexec).subset he)
    exact hbooked trade htrade
  obtain ⟨positions, happly, hbooks⟩ := PositionManager.applyAll_books hall
  have hfed := exec_fed hexec
  refine ⟨positions, _, (TradingSystem.exec_accounted (exec_trading hexec)).positions.trans happly,
    hfed.prices, fun sym => ?_, fun holdings hold => RiskEngine.computeVar_rows hsqrt hvol hold⟩
  refine (LatestPrices.runReport_shows hbooks _ sym).imp_right ?_
  rintro ⟨row, hrow, hshows⟩
  refine ⟨row, hrow, hshows, fun hsym => hshows.unmarked ?_⟩
  rw [Option.eq_none_iff_forall_ne_some]
  exact fun price hprice => hsym (hfed.mem_symbols hprice)

/-- A sell order of five and a buy order of five in the symbol A, which `main` does not subscribe to: whenever
their trade is booked, the report shows no unrealised profit or loss. -/
theorem risk_report_two :
    let file : List UInt8 :=
      [53, 53, 61, 65, 124, 53, 52, 61, 50, 124, 52, 52, 61, 49, 124, 51, 56, 61, 53, 10,
        53, 53, 61, 65, 124, 53, 52, 61, 49, 124, 52, 52, 61, 49, 124, 51, 56, 61, 53, 10]
    (∀ line ∈ lines file, 0 < (readOrder (fun _ => 1) 0 line).quantity) ∧
    ∃ s log, ExecutionThread.replay (fun _ => 1) (fun _ => 0) file = .ok (s, log) ∧
      ∀ (tr : List ProcessEvent) (p : Process 2 2),
        Exec (Step fun _ => 0) (boot (fun _ => ⟨0, 0, 0, 0, 0⟩)
          (fun _ => ⟨0, 0, 0, 0, 0, .buy, 0, 0⟩) (log.map Trade.exec)) tr p →
        ∃ positions prices, p.positions = .ok positions ∧ p.latestPrices = .ok prices ∧
          ∀ row, LatestPrices.runReport prices positions [65] = some row → row.unrealisedPnl = 0 := by
  intro file
  have hpos : ∀ line ∈ lines file, 0 < (readOrder (fun _ => 1) 0 line).quantity := by decide
  obtain ⟨s, log, hreplay, vol, -, hruns⟩ :=
    @risk_report 2 2 _ _ _ (fun _ => 0) file hpos .new 16 (by norm_num)
  refine ⟨hpos, s, log, hreplay, fun tr p hexec => ?_⟩
  obtain ⟨positions, prices, hpositions, hprices, hrows, -⟩ := hruns _ _ _ tr p hexec
  refine ⟨positions, prices, hpositions, hprices, fun row hrow => ?_⟩
  rcases hrows [65] with ⟨hnone, -⟩ | ⟨row', hrow', -, hmarked⟩
  · rw [hnone] at hrow
    cases hrow
  · obtain rfl : row = row' := Option.some.inj (hrow.symm.trans hrow')
    exact hmarked (by decide)

end Process

end TradingSim
