import TradingSim.Fix.Framing
import TradingSim.Metrics.LatencyTracker
import TradingSim.OrderBook.Capacity
import TradingSim.OrderBook.Clock
import TradingSim.OrderBook.LimitPrice

/-!
The execution thread of `main`: `FixSessionReader::start` with `OrderBook::acceptNewOrder` as its callback.
Each line is parsed and matched before the next is looked at, and both read the one clock.

The reader alone and the engine alone are in `FixSessionReader.start` and `OrderBook.acceptAll`. The thread
does what the two do one after the other (`ExecutionThread.replay_batch`). What only the thread has is the
order of the readings: on a clock that does not go back no execution is before the order that caused it,
and every level is in the order of the stamps (`ExecutionThread.replay_timely`).
-/

namespace TradingSim

open Lib FixSessionReader

/-! ### The thread -/

/-- What the loop over the lines works on: the rest of the file, and the engine with what it has reported.
The clock of the engine is the clock of the thread. -/
structure ExecutionThread where
  p : List UInt8
  orderBook : OrderBook
  log : List Trade

namespace ExecutionThread

variable (atof : List UInt8 → ℚ)

/-- One round of the loop over the lines. The clock is read for the order before the order is parsed. -/
def round (t : ExecutionThread) : Except Fault (Option ExecutionThread) :=
  match t.p with
  | [] => .ok none
  | p => do
    let (line, rest) := (memchr 10 p).getD (p, [])
    if line.length > 0 then
      let order ← parseFixLine atof (t.orderBook.clock 0) line
      let (orderBook, log) ← OrderBook.acceptNewOrder
        { t.orderBook with clock := fun i => t.orderBook.clock (i + 1) } order
      pure (some { p := rest, orderBook := orderBook, log := t.log ++ log })
    else pure (some { t with p := rest })

/-- The replay of a file: the engine at its end, and the executions reported. -/
def replay (clock : ℕ → Int64) (file : List UInt8) : Except Fault (OrderBook × List Trade) := do
  let t ← loop .outOfRounds (round atof) (file.length + 1)
    { p := file, orderBook := .new clock, log := [] }
  pure (t.orderBook, t.log)

/-! ### Line by line -/

/-- The lines are parsed to `orders` and matched with the executions `log`, one line after the other. -/
inductive Streamed : OrderBook → List (List UInt8) → List Order → List Trade → OrderBook → Prop
  | nil {s : OrderBook} : Streamed s [] [] [] s
  | cons {s s' s'' : OrderBook} {line : List UInt8} {ls : List (List UInt8)} {orders : List Order}
      {log log' : List Trade} :
      OrderBook.acceptNewOrder { s with clock := fun i => s.clock (i + 1) }
        (readOrder atof (s.clock 0) line) = .ok (s', log) →
      Streamed s' ls orders log' s'' →
      Streamed s (line :: ls) (readOrder atof (s.clock 0) line :: orders) (log ++ log') s''

variable {atof} {s s' : OrderBook} {v : View} {ls : List (List UInt8)} {orders : List Order}
  {log : List Trade}

/-- **Every sequence of lines** is parsed and matched without a fault. -/
theorem exists_streamed (atof : List UInt8 → ℚ) (ls : List (List UInt8)) (h : Rep s.pool s.books v) :
    ∃ orders log s' v', Streamed atof s ls orders log s' ∧ v.Run orders log v' ∧
      Rep s'.pool s'.books v' := by
  induction ls generalizing s v with
  | nil => exact ⟨[], [], s, v, .nil, .nil, h⟩
  | cons line ls ih =>
    obtain ⟨s', v', log, haccept, hstep, h'⟩ :=
      OrderBook.acceptNewOrder_spec (s := { s with clock := fun i => s.clock (i + 1) }) h
        (readOrder atof (s.clock 0) line)
    obtain ⟨orders, log', s'', v'', hstream, hrun, h''⟩ := ih h'
    exact ⟨_, _, s'', v'', .cons haccept hstream, .cons hstep hrun, h''⟩

/-- What is left of the file leads to the engine `s'` and the executions `total`. -/
def Leads (atof : List UInt8 → ℚ) (s' : OrderBook) (total : List Trade) (t : ExecutionThread) : Prop :=
  ∃ orders log, Streamed atof t.orderBook (lines t.p) orders log s' ∧ t.log ++ log = total

theorem Leads.round {total : List Trade} {t : ExecutionThread} (h : Leads atof s' total t) :
    (t.round atof = .ok none ∧ t.p = []) ∨
      ∃ t', t.round atof = .ok (some t') ∧ Leads atof s' total t' ∧ t'.p.length < t.p.length := by
  obtain ⟨p, orderBook, log₀⟩ := t
  obtain ⟨orders, log, hstream, rfl⟩ := h
  cases hp : p with
  | nil => exact Or.inl ⟨rfl, rfl⟩
  | cons c cs =>
    right
    obtain ⟨line, rest, hcut, hlines, hlt⟩ := nextLine_spec (p := p) (by simp [hp])
    rw [hlines] at hstream
    rw [hp] at hcut
    unfold ExecutionThread.round
    simp only [hcut]
    by_cases hnil : line = []
    · rw [if_pos hnil] at hstream
      refine ⟨⟨rest, orderBook, log₀⟩, ?_, ⟨orders, log, hstream, rfl⟩, hp ▸ hlt⟩
      simp [hnil]
    · rw [if_neg hnil] at hstream
      cases hstream with
      | @cons _ s₁ _ _ _ orders log log' haccept hrest =>
        have hpos : line.length > 0 := List.length_pos_of_ne_nil hnil
        refine ⟨⟨rest, s₁, log₀ ++ log⟩, ?_, ⟨orders, log', hrest, List.append_assoc ..⟩, hp ▸ hlt⟩
        simp only [hpos, if_true, parseFixLine_eq, haccept, ok_bind, pure_eq_ok]

/-- **The replay** goes through the lines of the file. -/
theorem replay_eq {clock : ℕ → Int64} {file : List UInt8}
    (h : Streamed atof (.new clock) (lines file) orders log s') :
    replay atof clock file = .ok (s', log) := by
  have hround : ∀ t, Leads atof s' log t → (t.round atof = .ok none ∧ t.p = []) ∨
      ∃ t', t.round atof = .ok (some t') ∧ Leads atof s' log t' ∧ t'.p.length < t.p.length :=
    fun t ht => ht.round
  obtain ⟨⟨p, orderBook, log₀⟩, hrun, ⟨orders', log', hstream, hlog⟩, hend⟩ : ∃ t,
      loop Fault.outOfRounds (round atof) (file.length + 1) ⟨file, .new clock, []⟩ = .ok t ∧
        Leads atof s' log t ∧ t.p = [] :=
    loop_rule hround _ _ ⟨orders, log, h, rfl⟩ (Nat.lt_succ_self _)
  obtain rfl : p = [] := hend
  -- nothing is left of the file
  change Streamed atof orderBook [] orders' log' s' at hstream
  cases hstream with
  | nil =>
    rw [List.append_nil] at hlog
    subst hlog
    simp only [replay, hrun, ok_bind, pure_eq_ok]

/-! ### The reader and the engine by themselves -/

theorem readOrder_arrivalNs (atof : List UInt8 → ℚ) (now : Int64) (line : List UInt8) :
    (readOrder atof now line).arrivalNs = now := by
  have hfield : ∀ (order : Order) (tag val : List UInt8),
      (setField atof order tag val).arrivalNs = order.arrivalNs := by
    intro order tag val
    unfold setField
    split_ifs <;> rfl
  have hfields : ∀ (fields : List Field) (order : Order),
      (setFields atof order fields).arrivalNs = order.arrivalNs := by
    intro fields
    induction fields with
    | nil => intro order; rfl
    | cons field fields ih => intro order; exact (ih _).trans (hfield order field.1 field.2)
  exact hfields _ _

theorem Streamed.ordersFrom_eq (h : Streamed atof s ls orders log s') {now : ℕ → Int64} {n : ℕ}
    (hnow : ∀ i (hi : i < orders.length), now (n + i) = orders[i].arrivalNs) :
    ordersFrom atof now n ls = orders := by
  induction h generalizing n with
  | nil => rfl
  | @cons s s' s'' line ls orders log log' haccept hrest ih =>
    have hfirst : now n = s.clock 0 := by
      have hzero := hnow 0 (by simp)
      simpa [readOrder_arrivalNs] using hzero
    have hnext : ∀ i (hi : i < orders.length), now (n + 1 + i) = orders[i].arrivalNs := by
      intro i hi
      have hsucc := hnow (i + 1) (by simpa using hi)
      rw [show n + 1 + i = n + (i + 1) by omega, hsucc, List.getElem_cons_succ]
    rw [ordersFrom_cons, hfirst, ih hnext]

theorem Streamed.acceptAll_eq (h : Streamed atof s ls orders log s') {clock : ℕ → Int64}
    (hclock : ∀ i (hi : i < log.length), clock i = log[i].exec.arrivalNs) :
    OrderBook.acceptAll { s with clock := clock } orders =
      .ok ({ s' with clock := fun i => clock (log.length + i) }, log) := by
  induction h generalizing clock with
  | nil => simp [OrderBook.acceptAll]
  | @cons s s' s'' line ls orders log log' haccept hrest ih =>
    have hfirst : ∀ i < log.length, clock i = s.clock (i + 1) := by
      intro i hi
      rw [hclock i (by simp; omega), List.getElem_append_left hi]
      exact OrderBook.acceptNewOrder_stamp haccept i hi
    have hnext : ∀ i (hi : i < log'.length), clock (log.length + i) = log'[i].exec.arrivalNs := by
      intro i hi
      rw [hclock (log.length + i) (by simp; omega), List.getElem_append_right (by omega)]
      simp
    have hcall := OrderBook.acceptNewOrder_replay haccept hfirst
    simp only [OrderBook.acceptAll, hcall, ih hnext, ok_bind, pure_eq_ok, List.length_append,
      Nat.add_assoc]

theorem Streamed.clock_eq (h : Streamed atof s ls orders log s') :
    s'.clock = fun i => s.clock (orders.length + log.length + i) := by
  induction h with
  | nil => simp
  | @cons s s' s'' line ls orders log log' haccept hrest ih =>
    rw [ih, (OrderBook.acceptNewOrder_clock haccept).1]
    funext i
    simp only [List.length_cons, List.length_append]
    congr 1
    omega

/-- **The thread does what the reader and the engine do by themselves.** The replay of any file comes to
its end, and reads the clock once for each order and once for each execution. Give the reader the readings
of the orders, and it reads the file to these orders; give the engine those of the executions, and it
reports these executions for them and ends with the same books and slots. -/
theorem replay_batch (atof : List UInt8 → ℚ) (clock : ℕ → Int64) (file : List UInt8) :
    ∃ s orders log, replay atof clock file = .ok (s, log) ∧
      (s.clock = fun i => clock (orders.length + log.length + i)) ∧
      (∀ now : ℕ → Int64, (∀ i (hi : i < orders.length), now i = orders[i].arrivalNs) →
        start atof now file = .ok orders) ∧
      ∀ clock' : ℕ → Int64, (∀ i (hi : i < log.length), clock' i = log[i].exec.arrivalNs) →
        (OrderBook.new clock').acceptAll orders =
          .ok ({ s with clock := fun i => clock' (log.length + i) }, log) := by
  obtain ⟨orders, log, s, v, hstream, hrun, hrep⟩ :=
    exists_streamed (s := OrderBook.new clock) atof (lines file) Rep.new
  refine ⟨s, orders, log, replay_eq hstream, hstream.clock_eq, fun now hnow => ?_, fun clock' hclock => ?_⟩
  · rw [start_eq, hstream.ordersFrom_eq fun i hi => by rw [Nat.zero_add]; exact hnow i hi]
  · exact hstream.acceptAll_eq hclock

/-! ### The order of the readings -/

theorem Streamed.timely {since : Int64} (h : Streamed atof s ls orders log s')
    (hrep : Rep s.pool s.books v) (hv : v.Timely since (s.clock 0)) (hsince : since ≤ s.clock 0)
    (hmono : ∀ i j, i ≤ j → s.clock i ≤ s.clock j) :
    (∃ v', Rep s'.pool s'.books v' ∧ v'.Timely since (s'.clock 0)) ∧
      (∀ tr ∈ log, since ≤ tr.exec.orderArrivalNs ∧ tr.exec.orderArrivalNs ≤ tr.exec.arrivalNs) ∧
      (∀ tr ∈ log, s.clock 0 ≤ tr.exec.arrivalNs) ∧
      (log.map fun tr => tr.exec.arrivalNs).Pairwise (· ≤ ·) := by
  induction h generalizing v with
  | nil => exact ⟨⟨v, hrep, hv⟩, by simp, by simp, by simp⟩
  | @cons s s' s'' line ls orders log log' haccept hrest ih =>
    obtain ⟨s₁, v', log₁, haccept', hstep, hrep'⟩ :=
      OrderBook.acceptNewOrder_spec (s := { s with clock := fun i => s.clock (i + 1) }) hrep
        (readOrder atof (s.clock 0) line)
    rw [haccept, Except.ok.injEq, Prod.mk.injEq] at haccept'
    obtain ⟨rfl, rfl⟩ := haccept'
    have hstamp := readOrder_arrivalNs atof (s.clock 0) line
    obtain ⟨hv', hcaused⟩ := hstep.timely hrep.wf hv hsince (by rw [hstamp]; exact Int64.le_refl _)
    rw [hstamp] at hv' hcaused
    -- the readings of this call come between those before and those after it
    have hclock : ∀ i, s'.clock i = s.clock (log.length + i + 1) := by
      intro i
      rw [(OrderBook.acceptNewOrder_clock haccept).1]
    have harrivals := OrderBook.acceptNewOrder_arrivals haccept
    have hreading : ∀ tr ∈ log, s.clock 0 ≤ tr.exec.arrivalNs ∧ tr.exec.arrivalNs ≤ s'.clock 0 := by
      intro tr htr
      have hmem : tr.exec.arrivalNs ∈ log.map fun tr => tr.exec.arrivalNs := List.mem_map_of_mem htr
      rw [harrivals] at hmem
      obtain ⟨i, hi, heq⟩ := List.mem_map.mp hmem
      rw [List.mem_range] at hi
      rw [← heq, hclock]
      exact ⟨hmono _ _ (Nat.zero_le _), hmono _ _ (by omega)⟩
    have hnext : s.clock 0 ≤ s'.clock 0 := by
      rw [hclock]
      exact hmono _ _ (Nat.zero_le _)
    obtain ⟨hend, hcaused', hlater, hordered⟩ := ih hrep' (hv'.mono hnext)
      (Int64.le_trans hsince hnext) fun i j hij => by
        rw [hclock, hclock]
        exact hmono _ _ (by omega)
    refine ⟨hend, ?_, ?_, ?_⟩
    · intro tr htr
      rcases List.mem_append.mp htr with htr | htr
      · exact ⟨(hcaused tr htr).1, Int64.le_trans (hcaused tr htr).2 (hreading tr htr).1⟩
      · exact hcaused' tr htr
    · intro tr htr
      rcases List.mem_append.mp htr with htr | htr
      · exact (hreading tr htr).1
      · exact Int64.le_trans hnext (hlater tr htr)
    · rw [List.map_append, List.pairwise_append]
      refine ⟨?_, hordered, ?_⟩
      · rw [harrivals, List.pairwise_map]
        exact List.pairwise_lt_range.imp fun hij => hmono _ _ (by omega)
      · intro n hn m hm
        obtain ⟨tr, htr, rfl⟩ := List.mem_map.mp hn
        obtain ⟨tr', htr', rfl⟩ := List.mem_map.mp hm
        exact Int64.le_trans (hreading tr htr).2 (hlater tr' htr')

theorem sub_nonneg_of_le {earlier later : Int64} (hzero : 0 ≤ earlier) (hle : earlier ≤ later) :
    ¬ later - earlier < 0 := by
  rw [Int64.lt_iff_toInt_lt, toInt_sub_of_le hzero hle, Int64.toInt_zero]
  rw [Int64.le_iff_toInt_le] at hle
  omega

/-- **Time order.** On a clock that starts at zero or later and does not go back, the replay of any file
reports its executions in the order of their stamps, none before the order that caused it, so that
`matchLatency` discards none of the latencies; and at every level the orders stand in the order of their
stamps, whatever trades there were. -/
theorem replay_timely (atof : List UInt8 → ℚ) {clock : ℕ → Int64} (hzero : 0 ≤ clock 0)
    (hmono : ∀ i j, i ≤ j → clock i ≤ clock j) (file : List UInt8) :
    ∃ s log, replay atof clock file = .ok (s, log) ∧
      (log.map fun tr => tr.exec.arrivalNs).Pairwise (· ≤ ·) ∧
      (∀ tr ∈ log, tr.exec.orderArrivalNs ≤ tr.exec.arrivalNs ∧
        LatencyTracker.record (tr.exec.arrivalNs - tr.exec.orderArrivalNs) ≠ .idle) ∧
      ∀ key σ t, ((s.resting key σ t).map Order.arrivalNs).Pairwise (· ≤ ·) := by
  obtain ⟨orders, log, s, v, hstream, -, -⟩ :=
    exists_streamed (s := OrderBook.new clock) atof (lines file) Rep.new
  obtain ⟨⟨v', hrep, hv'⟩, hcaused, -, hordered⟩ :=
    hstream.timely Rep.new View.new_timely hzero hmono
  refine ⟨s, log, replay_eq hstream, hordered, ?_, ?_⟩
  · intro tr htr
    obtain ⟨hpos, hle⟩ := hcaused tr htr
    refine ⟨hle, ?_⟩
    rw [LatencyTracker.record, if_neg (sub_nonneg_of_le hpos hle)]
    simp
  · intro key σ t
    rw [OrderBook.resting_eq hrep, List.map_map]
    exact hv'.ordered (key, σ, t)

/-- Two orders of five at the price one, the second stamped after the first: whatever is traded, both
latencies are kept. -/
theorem replay_timely_two :
    let clock : ℕ → Int64 := fun i => if i = 0 then 1 else 2
    let file : List UInt8 :=
      [53, 53, 61, 65, 124, 53, 52, 61, 50, 124, 52, 52, 61, 49, 124, 51, 56, 61, 53, 10,
        53, 53, 61, 65, 124, 53, 52, 61, 49, 124, 52, 52, 61, 49, 124, 51, 56, 61, 53, 10]
    0 ≤ clock 0 ∧ ∃ s log, replay (fun _ => 1) clock file = .ok (s, log) ∧
      ∀ tr ∈ log, LatencyTracker.record (tr.exec.arrivalNs - tr.exec.orderArrivalNs) ≠ .idle := by
  intro clock file
  have hmono : ∀ i j, i ≤ j → clock i ≤ clock j := by
    intro i j hij
    by_cases hi : i = 0
    · by_cases hj : j = 0
      · rw [hi, hj]
        exact Int64.le_refl _
      · simp only [clock, hi, hj, if_true, if_false]
        decide
    · have hj : j ≠ 0 := by omega
      simp only [clock, hi, hj, if_false]
      exact Int64.le_refl _
  obtain ⟨s, log, hreplay, -, hlatency, -⟩ :=
    replay_timely (fun _ => 1) (show 0 ≤ clock 0 by decide) hmono file
  exact ⟨by decide, s, log, hreplay, fun tr htr => (hlatency tr htr).2⟩

end ExecutionThread

end TradingSim
