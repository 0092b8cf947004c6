import TradingSim.Fix.Reading
import TradingSim.System.Process
import TradingSim.System.Replay
import TradingSim.System.Session

/-!
From the bytes of the order file to the ledger, through all the threads: the execution thread replays the
file, `execQueue` carries the executions to the main thread, which books them.

Each execution fills one of its two orders, so a file of fewer lines than the queue has cells never fills
it. Then nothing is dropped, and at every moment of every run the fills of the textbook engine are, in their
order, those in the ledger, the one in the hand of the main thread, those in the queue and those still to be
pushed (`Process.executions_accounted`).
-/

namespace TradingSim

open Lib FixSessionReader

/-! ### The replay -/

namespace ExecutionThread

variable {atof : List UInt8 → ℚ} {s s' : OrderBook} {ls : List (List UInt8)} {orders : List Order}
  {log : List Trade}

theorem Streamed.length_orders (h : Streamed atof s ls orders log s') : orders.length = ls.length := by
  induction h with
  | nil => rfl
  | cons _ _ ih => rw [List.length_cons, List.length_cons, ih]

theorem Streamed.exists_line (h : Streamed atof s ls orders log s') :
    ∀ o ∈ orders, ∃ line ∈ ls, ∃ now, o = readOrder atof now line := by
  induction h with
  | nil => simp
  | @cons s s' s'' line ls orders log log' _ _ ih =>
    intro o ho
    rcases List.mem_cons.mp ho with rfl | ho
    · exact ⟨line, by simp, _, rfl⟩
    · obtain ⟨line', hmem, hread⟩ := ih o ho
      exact ⟨line', by simp [hmem], hread⟩

theorem Streamed.exists_readings {clock : ℕ → Int64} {file : List UInt8}
    (h : Streamed atof (.new clock) (lines file) orders log s') :
    (∃ now, start atof now file = .ok orders) ∧
      ∃ clock' s, (OrderBook.new clock').acceptAll orders = .ok (s, log) := by
  constructor
  · refine ⟨fun i => if hi : i < orders.length then orders[i].arrivalNs else 0, ?_⟩
    rw [start_eq, h.ordersFrom_eq]
    intro i hi
    rw [Nat.zero_add, dif_pos hi]
  · refine ⟨fun i => if hi : i < log.length then log[i].exec.arrivalNs else 0, _, h.acceptAll_eq ?_⟩
    intro i hi
    rw [dif_pos hi]

/-- A replay of positive orders: what it reports is what the textbook engine reports, at most one for each
line, and the ledger can book it. -/
theorem replay_positive (clock : ℕ → Int64) {file : List UInt8}
    (hpos : ∀ line ∈ lines file, 0 < (readOrder atof 0 line).quantity) :
    ∃ s orders log, replay atof clock file = .ok (s, log) ∧
      (∃ now, start atof now file = .ok orders) ∧
      log.map (fun tr => tr.exec.fill) = (Textbook.empty.acceptAll (orders.map Order.limit)).2 ∧
      log.length ≤ (lines file).length ∧ ∀ tr ∈ log, tr.exec.Booked := by
  obtain ⟨orders, log, s, v, hstream, hrun, hrep⟩ :=
    exists_streamed (s := OrderBook.new clock) atof (lines file) Rep.new
  have horders : ∀ o ∈ orders, 0 < o.quantity := by
    intro o ho
    obtain ⟨line, hline, now, rfl⟩ := hstream.exists_line o ho
    have hqty := hpos line hline
    rwa [readOrder_quantity] at hqty ⊢
  obtain ⟨hread, clock', s', hall⟩ := hstream.exists_readings
  refine ⟨s, orders, log, replay_eq hstream, hread, ?_, ?_, ?_⟩
  · exact (View.new_models.run View.new_settled
      (fun o ho => Order.limit_quantity_pos.mpr (horders o ho)) hrun).2
  · -- all slots are free at first, and no more than all at last
    have hlog := hrun.length_log View.new_settled
    have hfree := hrep.wf.length_free_le
    have hnew : View.new.free.length = poolCapacity := List.length_finRange
    rw [hstream.length_orders] at hlog
    omega
  · obtain ⟨s₁, v₁, log', L, hall', -, -, hlog, -⟩ :=
      OrderBook.track_new exactness_booked (OrderBook.admits_of_forall (.new clock') horders)
    obtain ⟨-, rfl⟩ := Prod.mk.inj (Except.ok.inj (hall.symm.trans hall'))
    exact fun tr htr => (hlog tr htr).2

end ExecutionThread

/-! ### The queue of executions -/

namespace Process

variable {tickCap execCap : ℕ} [NeZero tickCap] [NeZero execCap] {double : List UInt8 → ℚ}
  {p : Process tickCap execCap} {tr : List ProcessEvent} {tickBuffer : Fin tickCap → Tick}
  {execBuffer : Fin execCap → Execution} {execs : List Execution}

theorem exec_lane (h : Exec (Step double) (boot tickBuffer execBuffer execs) tr p) :
    p.execs.Accounted execs (SystemEvent.queueOps (tr.filterMap ProcessEvent.trading?)) := by
  have hexec := exec_trading h
  have hacct := TradingSystem.exec_accounted hexec
  obtain ⟨hinv, hfifo⟩ := SpscQueue.exec_fifo (TradingSystem.exec_queue hexec)
  exact ⟨hinv, hacct.offers, hacct.current, hacct.dropped, Fifo.history hfifo⟩

theorem dropped_eq_zero (h : Exec (Step double) (boot tickBuffer execBuffer execs) tr p)
    (hroom : execs.length < execCap) : p.execs.dropped = 0 := by
  induction h with
  | nil => rfl
  | snoc hexec hs ih =>
    cases hs with
    | emit hnext => exact (exec_lane hexec).no_drop hnext hroom ih
    | _ => exact ih

/-- **Where the executions are**, when the queue has room for them. -/
theorem execs_eq (h : Exec (Step double) (boot tickBuffer execBuffer execs) tr p)
    (hroom : execs.length < execCap) :
    SystemEvent.applied (tr.filterMap ProcessEvent.trading?) ++ p.main.thread.inHand ++
      p.execs.queue.stored ++ p.execs.pending = execs := by
  have hlane := exec_lane h
  have happlied := (TradingSystem.exec_accounted (exec_trading h)).applied
  have hdropped := hlane.dropped
  rw [dropped_eq_zero h hroom, Nat.add_zero] at hdropped
  have hpushes := (Fifo.pushes_sublist_offers _).eq_of_length hdropped
  have hmain : p.trading.main = p.main.thread := rfl
  rw [← hmain, happlied, ← hlane.history, hpushes]
  exact hlane.offers

/-- **The whole way of an order file.** Let every order of it be positive and its lines fewer than the cells
of `execQueue`. The replay comes to its end, and in every run of the process, whatever the feed does and
whenever the signal comes: no execution is dropped; the fills of the textbook engine for the orders of the
file are those that are booked, the one in the hand of the main thread, those in the queue and those still
to be pushed, in this order; and the ledger is that of the booked ones, without a fault. -/
theorem executions_accounted {atof : List UInt8 → ℚ} (clock : ℕ → Int64) {file : List UInt8}
    (hpos : ∀ line ∈ lines file, 0 < (readOrder atof 0 line).quantity)
    (hlines : (lines file).length < TradingSystem.execQueueCapacity) :
    ∃ s orders log, ExecutionThread.replay atof clock file = .ok (s, log) ∧
      (∃ now, start atof now file = .ok orders) ∧
      ∀ (double : List UInt8 → ℚ) (tickBuffer : Fin tickCap → Tick)
        (execBuffer : Fin TradingSystem.execQueueCapacity → Execution) (tr : List ProcessEvent)
        (p : Process tickCap TradingSystem.execQueueCapacity),
        Exec (Step double) (boot tickBuffer execBuffer (log.map Trade.exec)) tr p →
        p.execs.dropped = 0 ∧
        (SystemEvent.applied (tr.filterMap ProcessEvent.trading?) ++ p.main.thread.inHand ++
            p.execs.queue.stored ++ p.execs.pending).map Execution.fill =
          (Textbook.empty.acceptAll (orders.map Order.limit)).2 ∧
        ∃ positions, p.positions = .ok positions ∧
          positions.Books (SystemEvent.applied (tr.filterMap ProcessEvent.trading?)) := by
  obtain ⟨s, orders, log, hreplay, hread, hfills, hlength, hbooked⟩ :=
    ExecutionThread.replay_positive clock hpos
  refine ⟨s, orders, log, hreplay, hread, ?_⟩
  intro double tickBuffer execBuffer tr p hexec
  have hroom : (log.map Trade.exec).length < TradingSystem.execQueueCapacity := by
    rw [List.length_map]
    omega
  have hexecs := execs_eq hexec hroom
  refine ⟨dropped_eq_zero hexec hroom, ?_, ?_⟩
  · rw [hexecs, ← hfills, List.map_map]
    rfl
  · -- what is booked is among the executions of the replay
    have hall : ∀ exec ∈ SystemEvent.applied (tr.filterMap ProcessEvent.trading?), exec.Booked := by
      intro exec he
      have hmem : exec ∈ log.map Trade.exec := by
        rw [← hexecs]
        simp [he]
      obtain ⟨trade, htrade, rfl⟩ := List.mem_map.mp hmem
      exact hbooked trade htrade
    obtain ⟨positions, happly, hbooks⟩ := PositionManager.applyAll_books hall
    refine ⟨positions, ?_, hbooks⟩
    exact (TradingSystem.exec_accounted (exec_trading hexec)).positions.trans happly

/-- A sell order of five and a buy order of five at the same price: at every moment of every run their one
fill is booked, in hand, queued or still to be pushed. -/
theorem executions_accounted_two :
    let file : List UInt8 :=
      [53, 53, 61, 65, 124, 53, 52, 61, 50, 124, 52, 52, 61, 49, 124, 51, 56, 61, 53, 10,
        53, 53, 61, 65, 124, 53, 52, 61, 49, 124, 52, 52, 61, 49, 124, 51, 56, 61, 53, 10]
    (∀ line ∈ lines file, 0 < (readOrder (fun _ => 1) 0 line).quantity) ∧
    ∃ s log, ExecutionThread.replay (fun _ => 1) (fun _ => 0) file = .ok (s, log) ∧
      ∀ (tr : List ProcessEvent) (p : Process 2 TradingSystem.execQueueCapacity),
        Exec (Step fun _ => 0) (boot (fun _ => ⟨0, 0, 0, 0, 0⟩)
          (fun _ => ⟨0, 0, 0, 0, 0, .buy, 0, 0⟩) (log.map Trade.exec)) tr p → p.execs.dropped = 0 := by
  intro file
  have hpos : ∀ line ∈ lines file, 0 < (readOrder (fun _ => 1) 0 line).quantity := by decide
  have hlines : (lines file).length = 2 := by decide
  obtain ⟨s, orders, log, hreplay, -, hruns⟩ :=
    @executions_accounted 2 _ _ (fun _ => 0) file hpos (by rw [hlines]; norm_num)
  exact ⟨hpos, s, log, hreplay, fun tr p hexec => (hruns _ _ _ tr p hexec).1⟩

end Process

end TradingSim
