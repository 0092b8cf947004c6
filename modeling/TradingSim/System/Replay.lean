import TradingSim.Fix.Framing
import TradingSim.OrderBook.Pair
import TradingSim.Risk.Position

/-!
The replay of an order file, from its bytes to the ledger: `FixSessionReader::start` hands each order
to `OrderBook::acceptNewOrder`, and the executions go to `PositionManager::onExecution`.

No stage looks at a quantity. When every order that gets a slot has a positive one, the replay is
clean: executions are of at least one unit, orders rest with at least one and at most what they came
with, and the ledger never divides by zero. One order without is enough for it not to be
(`clean_iff_admits`).
-/

namespace TradingSim

open Lib Textbook

/-! ### An order by itself -/

namespace View

variable {v v' : View} {k : UInt64} {σ : OrderType} {t tb ta : ℕ} {b a x : Slot} {o : Order}
  {log : List Trade}

theorem Settled.crosses_of_cross (hv : v.Settled)
    (hc : (v.insert x o (k, σ, t)).Cross k tb ta b a) :
    ∃ u : ℕ, v.queue (k, σ.opp, u) ≠ [] ∧ Crosses σ t u := by
  by_contra hno
  push Not at hno
  have hlt := hv.insert_uncrossed (x := x) (o := o) hno tb ta hc.bid_ne_nil hc.ask_ne_nil
  have := hc.cross
  omega

/-- **What an order came with shows.** If the trades of its call are of at least one unit, and so is
everything that rests after it, then so was the order. -/
theorem Settled.quantity_pos (hv : v.Settled)
    (hs : Sweep k x σ (v.insert x o (k, σ, t)) log v') (hlog : ∀ tr ∈ log, 1 ≤ tr.exec.quantity)
    (hrest : ∀ l, ∀ y ∈ v'.queue l, 0 < (v'.cell y).quantity.toInt) : 0 < o.quantity.toInt := by
  have hself : (v.insert x o (k, σ, t)).cell x = o := Function.update_self _ _ _
  cases hs with
  | done _ =>
    -- it rests as it came
    have hpos := hrest (k, σ, t) x (by simp [insert])
    rwa [hself] at hpos
  | @round _ _ tb ta b a tr log hc htr _ =>
    obtain ⟨u, hu, hcr⟩ := hv.crosses_of_cross hc
    have htop := hv.top_insert (x := x) (o := o) hu hcr
    obtain ⟨-, -, -, -, now, hexec⟩ := htr
    have hq : tr.exec.quantity = ((v.insert x o (k, σ, t)).tradeQty b a).toInt := by
      rw [hexec]
      rfl
    have hone : 1 ≤ ((v.insert x o (k, σ, t)).tradeQty b a).toInt := by
      have hle := hlog tr (by simp)
      rw [hq] at hle
      exact_mod_cast hle
    unfold tradeQty at hone
    rw [toInt_minQty] at hone
    cases σ with
    | buy =>
      obtain ⟨-, rfl⟩ := hc.topBid.unique htop
      rw [hself] at hone
      omega
    | sell =>
      obtain ⟨-, rfl⟩ := hc.topAsk.unique htop
      rw [hself] at hone
      omega

end View

/-! ### The ledger of a run -/

theorem strncpy_text {n : ℕ} (src : CharArray (n + 1)) : ∃ i, strncpy src i = 0 :=
  ⟨Fin.last n, if_neg (by simp)⟩

theorem exactness_booked : Exactness 0 (fun o => 0 < o.quantity) View.Positive
    fun tr => tr.Exact ∧ tr.exec.Booked := by
  refine ⟨exactness_pos.new, exactness_pos.insert, exactness_pos.trade, ?_, exactness_pos.exact⟩
  intro v k tb ta b a x σ tr hv hc htr
  have hexact := hv.exact hc htr
  obtain ⟨-, -, -, -, now, hexec⟩ := htr
  refine ⟨hexact, hexact.pos, ?_⟩
  rw [hexec]
  exact strncpy_text _

theorem Ledger.filled_nonneg {L : Ledger} {i : ℕ} (h : ∀ f ∈ L.fills, 0 ≤ f.trade.quantity.toInt) :
    0 ≤ L.filled i := by
  apply List.sum_nonneg
  intro q hq
  obtain ⟨f, hf, rfl⟩ := List.mem_map.mp hq
  exact h f (List.mem_of_mem_filter hf)

namespace OrderBook

variable {s : OrderBook} {v : View} {os : List Order} {Q : Order → Prop}

theorem Admits.take (h : s.Admits Q os) (n : ℕ) : s.Admits Q (os.take n) := by
  induction os generalizing s n with
  | nil => simpa using h
  | cons o os ih =>
    cases n with
    | zero => trivial
    | succ n => exact ⟨h.1, fun s' log hacc => ih (h.2 s' log hacc) n⟩

/-- The orders have been replayed and nothing in it is degenerate: the executions are of at least one
unit, what rests is between one unit and what its order came with, and the ledger has taken the
executions without a division by zero. -/
def Clean (clock : ℕ → Int64) (os : List Order) : Prop :=
  ∃ s log L positions, (new clock).acceptAll os = .ok (s, log) ∧
    (new clock).track Ledger.empty os = .ok (s, L) ∧
    (∀ tr ∈ log, 1 ≤ tr.exec.quantity) ∧
    (∀ x ∈ s.linkedSlots, ∃ o, os[L.owner x]? = some o ∧
      1 ≤ (s.pool.slab x).quantity ∧ (s.pool.slab x).quantity ≤ o.quantity) ∧
    PositionManager.new.applyAll (log.map Trade.exec) = .ok positions

/-- **Positive orders** are replayed cleanly. -/
theorem clean_of_admits {clock : ℕ → Int64}
    (h : (new clock).Admits (fun o => 0 < o.quantity) os) : Clean clock os := by
  obtain ⟨s, v, log, L, hall, htrack, hfills, hlog, hrep, hacct, hpos⟩ :=
    track_new exactness_booked h
  -- a positive whole number is at least one
  have hamount : ∀ f ∈ L.fills, 1 ≤ f.trade.quantity.toInt := by
    intro f hf
    have hlt := (hacct.fair f hf).2.1.pos
    rw [(hacct.fair f hf).1.amount] at hlt
    exact_mod_cast hlt
  have hbooked : ∀ exec ∈ log.map Trade.exec, exec.Booked := by
    intro exec he
    obtain ⟨tr, htr, rfl⟩ := List.mem_map.mp he
    exact (hlog tr htr).2
  obtain ⟨positions, happly, -⟩ := PositionManager.applyAll_books hbooked
  refine ⟨s, log, L, positions, hall, htrack, ?_, ?_, happly⟩
  · intro tr htr
    rw [← hfills] at htr
    obtain ⟨f, hf, rfl⟩ := List.mem_map.mp htr
    rw [(hacct.fair f hf).1.amount]
    exact_mod_cast hamount f hf
  · intro x hx
    obtain ⟨l, hxl⟩ := (mem_linkedSlots hrep).mp hx
    obtain ⟨-, o, q, ho, hcell, hmod⟩ := hacct.resting l x hxl
    rw [Int.modEq_zero_iff] at hmod
    have hnonneg : 0 ≤ L.filled (L.owner x) :=
      Ledger.filled_nonneg fun f hf => by have := hamount f hf; omega
    have hq : 0 < q.toInt := by
      have hlt : 0 < (v.cell x).quantity.toInt := hpos l x hxl
      rwa [hcell] at hlt
    have hslab : (s.pool.slab x).quantity = q :=
      congrArg Order.quantity ((hrep.cell x).trans hcell)
    rw [hslab]
    refine ⟨o, ho, ?_, ?_⟩
    · exact Int32.le_iff_toInt_le.mpr hq
    · exact Int32.le_iff_toInt_le.mpr (by omega)

/-- **The converse**, from any settled state: if no prefix of the orders leaves a trade or a resting
order of less than one unit, then the orders that got a slot were positive. -/
theorem admits_of_clean (hrep : Rep s.pool s.books v) (hv : v.Settled)
    (h : ∀ n s' log, s.acceptAll (os.take n) = .ok (s', log) →
      (∀ tr ∈ log, 1 ≤ tr.exec.quantity) ∧
        ∀ x ∈ s'.linkedSlots, 0 < (s'.pool.slab x).quantity.toInt) :
    s.Admits (fun o => 0 < o.quantity) os := by
  induction os generalizing s v with
  | nil => trivial
  | cons o os ih =>
    obtain ⟨s₁, v₁, log₁, haccept, hacc, hrep₁⟩ := acceptNewOrder_spec hrep o
    have hfirst : s.acceptAll ((o :: os).take 1) = .ok (s₁, log₁ ++ []) := by
      simp only [List.take_succ_cons, List.take_zero, acceptAll, haccept, ok_bind, pure_eq_ok]
    constructor
    · intro hslot
      rcases slotFor_cases hrep hacc with ⟨hnone, -, -⟩ | ⟨x, ⟨k, σ, t⟩, free, -, -, -, hs⟩
      · exact absurd hnone hslot
      obtain ⟨hlog, hrest⟩ := h 1 s₁ _ hfirst
      have hpos := hv.quantity_pos hs (by simpa using hlog) fun l y hy => by
        rw [← hrep₁.cell y]
        exact hrest y ((mem_linkedSlots hrep₁).mpr ⟨l, hy⟩)
      exact Int32.lt_iff_toInt_lt.mpr hpos
    · intro s' log haccept'
      obtain ⟨rfl, rfl⟩ : s₁ = s' ∧ log₁ = log := by
        rw [haccept] at haccept'
        simpa using haccept'
      apply ih hrep₁ (hacc.settled hv)
      intro n s'' log' hall
      have hprefix : s.acceptAll ((o :: os).take (n + 1)) = .ok (s'', log₁ ++ log') := by
        simp only [List.take_succ_cons, acceptAll, haccept, hall, ok_bind, pure_eq_ok]
      obtain ⟨hlog, hrest⟩ := h (n + 1) s'' _ hprefix
      exact ⟨fun tr htr => hlog tr (List.mem_append_right _ htr), hrest⟩

/-- **A replay is clean, throughout, exactly when the orders that get a slot are positive.** -/
theorem clean_iff_admits (atof : List UInt8 → ℚ) (now clock : ℕ → Int64) (file : List UInt8) :
    ∃ orders, FixSessionReader.start atof now file = .ok orders ∧
      ((∀ n, Clean clock (orders.take n)) ↔
        (new clock).Admits (fun o => 0 < o.quantity) orders) := by
  refine ⟨_, FixSessionReader.start_eq atof now file, ?_, ?_⟩
  · intro hclean
    apply admits_of_clean Rep.new View.new_settled
    intro n s' log hall
    obtain ⟨s, log', L, positions, hall', -, hexec, hrest, -⟩ := hclean n
    obtain ⟨rfl, rfl⟩ : s = s' ∧ log' = log := by
      rw [hall] at hall'
      simpa [eq_comm] using hall'
    refine ⟨hexec, ?_⟩
    intro x hx
    obtain ⟨o, -, hone, -⟩ := hrest x hx
    exact Int32.le_iff_toInt_le.mp hone
  · intro hadm n
    exact clean_of_admits (hadm.take n)

/-! ### Two orders without a quantity -/

/-- `55=A|54=2` and `55=A|54=1`: an order to sell and one to buy, neither with tag 38. -/
def bareOrders : List UInt8 :=
  [53, 53, 61, 65, 124, 53, 52, 61, 50, 10, 53, 53, 61, 65, 124, 53, 52, 61, 49]

/-- The order that such a line is parsed to. -/
def bareOrder (σ : OrderType) (arrivalNs : Int64) : Order :=
  { FixSessionReader.blank arrivalNs with
    symbol := FixSessionReader.copyInto (fun _ => 0) [65]
    orderType := σ }

/-- The symbol key of the two orders. -/
def bareKey : UInt64 := symKey (FixSessionReader.copyInto (fun _ => 0) [65])

theorem bareOrder_at (σ : OrderType) (arrivalNs : Int64) :
    (bareOrder σ arrivalNs).At (bareKey, σ, 0) := by
  refine ⟨rfl, rfl, ?_, ?_⟩
  · norm_num [bareOrder, FixSessionReader.blank, priceToTick, truncate]
  · unfold maxTicks
    norm_num

end OrderBook

/-- A buy of nothing into a flat position divides by zero. -/
theorem PositionManager.onExecution_nothing {exec : Execution} (hside : exec.side = .buy)
    (hq : exec.quantity = 0) (htext : ∃ i, exec.symbol i = 0) :
    PositionManager.new.onExecution exec = .error .divisionByZero := by
  have hsym : exec.symbol.cString = .ok exec.key := if_pos htext
  unfold onExecution
  rw [hsym, ok_bind]
  simp [PositionManager.new, Position.zero, Position.fill, hside, Position.buy, hq, divide]

/-- **A degenerate trade.** The file of two orders without a quantity is replayed to an execution of
nothing, on which the ledger divides by zero. -/
theorem replay_divides_by_zero :
    ∃ orders s tr log,
      FixSessionReader.start (fun _ => 0) (fun _ => 0) OrderBook.bareOrders = .ok orders ∧
      (OrderBook.new fun _ => 0).acceptAll orders = .ok (s, tr :: log) ∧ tr.exec.quantity = 0 ∧
      PositionManager.new.applyAll ((tr :: log).map Trade.exec) = .error .divisionByZero := by
  obtain ⟨s, v, log, hall, hrun, -⟩ := OrderBook.acceptAll_new (fun _ => 0)
    [OrderBook.bareOrder .sell 0, OrderBook.bareOrder .buy 0]
  cases hrun with
  | cons hacc₁ hrun =>
    cases hrun with
    | cons hacc₂ hrun =>
      cases hrun
      -- the order to sell rests, and the order to buy trades with it
      have hvacant := View.new_vacant
      have hwf := View.new_settled.wf
      obtain ⟨x, free, -, hs₁⟩ := hacc₁.sweep_of_at (hvacant.free_ne_nil hwf)
        (OrderBook.bareOrder_at .sell 0)
      obtain ⟨rfl, rfl⟩ := hvacant.sweep_first hwf hs₁
      have hsettled := hacc₁.settled View.new_settled
      obtain ⟨y, free', hfree, hs₂⟩ := hacc₂.sweep_of_at (hvacant.insert_free_ne_nil hsettled.wf)
        (OrderBook.bareOrder_at .buy 0)
      obtain ⟨-, -, tr, rfl, hqty, htr⟩ := hvacant.sweep_second (σ := .buy) rfl hsettled hfree
        (OrderBook.bareOrder_at .buy 0) rfl hs₂
      obtain ⟨now, hexec⟩ := htr.exec
      have hq : tr.exec.quantity = 0 := by
        rw [hexec, ← htr.quantity_eq, hqty]
        rfl
      refine ⟨[OrderBook.bareOrder .sell 0, OrderBook.bareOrder .buy 0], s, tr, [], rfl,
        by simpa using hall, hq, ?_⟩
      have hnothing := PositionManager.onExecution_nothing (by rw [hexec]; rfl) hq
        (by rw [hexec]; exact strncpy_text _)
      rw [List.map_cons, PositionManager.applyAll, hnothing, error_bind]

end TradingSim
