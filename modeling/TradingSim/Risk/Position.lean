import TradingSim.Lib.Machine
import TradingSim.Lib.Netting
import TradingSim.OrderBook.Types

/-!
The ledger of the cold path: `PositionManager::onExecution`, which keeps a position per symbol, and
the rows of `RiskEngine::runReport`.

`onExecution` has two halves, written apart, with seven branches between them; each position is
nevertheless the netting account of its executions (`Position.fill_eq`), except that the average of a
position that is sold out is reset to zero, while one that is bought back keeps its old average. A
position is read off the executions of its symbol (`PositionManager.applyAll_eq`). At every mark price
it is worth what they are worth (`PositionManager.applyAll_books`).
-/

namespace TradingSim

open Lib

/-! ### Positions -/

/-- `std::string(a)`. The constructor looks for the NUL, past the end of the array if need be. -/
def CharArray.cString {n : ℕ} (a : CharArray n) : Except Fault (List UInt8) :=
  if ∃ i, a i = 0 then .ok a.text else .error .outOfRange

/-- `Position`. -/
structure Position where
  symbol : List UInt8
  quantity : ℚ
  averageEntryPrice : ℚ
  realisedPnl : ℚ
  unrealisedPnl : ℚ
  deriving DecidableEq

/-- A quotient of doubles. -/
def divide (a b : ℚ) : Except Fault ℚ := if b = 0 then .error .divisionByZero else .ok (a / b)

theorem divide_eq {a b : ℚ} (h : b ≠ 0) : divide a b = .ok (a / b) := if_neg h

namespace Position

/-- The value-initialised position that `positions_[sym]` makes. -/
def zero : Position := ⟨[], 0, 0, 0, 0⟩

/-- The branch of a `Side::BUY` execution. -/
def buy (position : Position) (exec : Execution) : Except Fault Position :=
  if position.quantity < 0 then
    let coverQty := min exec.quantity (-position.quantity)
    let quantity := position.quantity + exec.quantity
    .ok { position with
      realisedPnl :=
        position.realisedPnl + coverQty * (position.averageEntryPrice - exec.tradePrice)
      quantity := quantity
      averageEntryPrice := if quantity > 0 then exec.tradePrice else position.averageEntryPrice }
  else do
    let newAvg ← divide
      (position.quantity * position.averageEntryPrice + exec.quantity * exec.tradePrice)
      (position.quantity + exec.quantity)
    .ok { position with
      quantity := position.quantity + exec.quantity
      averageEntryPrice := newAvg }

/-- The branch of a `Side::SELL` execution. -/
def sell (position : Position) (exec : Execution) : Except Fault Position :=
  if position.quantity > 0 then
    if exec.quantity ≥ position.quantity then
      let remainder := exec.quantity - position.quantity
      .ok { position with
        realisedPnl := position.realisedPnl +
          position.quantity * (exec.tradePrice - position.averageEntryPrice)
        quantity := -remainder
        averageEntryPrice := if remainder > 0 then exec.tradePrice else 0 }
    else
      .ok { position with
        realisedPnl := position.realisedPnl +
          exec.quantity * (exec.tradePrice - position.averageEntryPrice)
        quantity := position.quantity - exec.quantity }
  else if position.quantity = 0 then
    .ok { position with
      quantity := -exec.quantity
      averageEntryPrice := exec.tradePrice }
  else do
    let existingShort := -position.quantity
    let totalShort := existingShort + exec.quantity
    let averageEntryPrice ← divide
      (existingShort * position.averageEntryPrice + exec.quantity * exec.tradePrice) totalShort
    .ok { position with
      averageEntryPrice := averageEntryPrice
      quantity := position.quantity - exec.quantity }

def fill (position : Position) (exec : Execution) : Except Fault Position :=
  match exec.side with
  | .buy => position.buy exec
  | .sell => position.sell exec

end Position

/-- `PositionManager`: the map `positions_`. -/
abbrev PositionManager := List UInt8 → Option Position

namespace PositionManager

def new : PositionManager := fun _ => none

/-- `PositionManager::onExecution`. -/
def onExecution (positions : PositionManager) (exec : Execution) :
    Except Fault PositionManager := do
  let sym ← exec.symbol.cString
  let position := (positions sym).getD Position.zero
  let position : Position :=
    if position.symbol = [] then { position with symbol := sym } else position
  let position ← position.fill exec
  pure (Function.update positions sym (some position))

/-- `onExecution` for a sequence of executions. -/
def applyAll : PositionManager → List Execution → Except Fault PositionManager
  | positions, [] => .ok positions
  | positions, exec :: execs => do (← positions.onExecution exec).applyAll execs

end PositionManager

/-! ### The risk report -/

/-- `RiskEngine`: the map `latestPrices_`. -/
abbrev LatestPrices := List UInt8 → Option ℚ

/-- A line of the report. -/
structure ReportRow where
  qty : ℚ
  price : ℚ
  unrealisedPnl : ℚ
  realisedPnl : ℚ

/-- The line that `RiskEngine::runReport` prints for a symbol. -/
def LatestPrices.runReport (latestPrices : LatestPrices) (positions : PositionManager)
    (symbol : List UInt8) : Option ReportRow :=
  (positions symbol).map fun pos =>
    let currentPrice := (latestPrices symbol).getD pos.averageEntryPrice
    { qty := pos.quantity
      price := currentPrice
      unrealisedPnl := (currentPrice - pos.averageEntryPrice) * pos.quantity
      realisedPnl := pos.realisedPnl }

/-! ### What a history is worth -/

namespace Execution

/-- What the execution adds to the position. -/
def signed (exec : Execution) : ℚ :=
  match exec.side with
  | .buy => exec.quantity
  | .sell => -exec.quantity

/-- The symbol that the ledger files the execution under. -/
def key (exec : Execution) : List UInt8 := exec.symbol.text

/-- What the ledger asks of an execution: it is of a positive amount, and its symbol is a text. -/
structure Booked (exec : Execution) : Prop where
  pos : 0 < exec.quantity
  text : ∃ i, exec.symbol i = 0

/-- The executions of a symbol. -/
def ofSymbol (sym : List UInt8) (execs : List Execution) : List Execution :=
  execs.filter fun exec => exec.key = sym

/-- The amount traded on a side. -/
def total (side : Side) (execs : List Execution) : ℚ :=
  ((execs.filter fun exec => exec.side = side).map Execution.quantity).sum

/-- The worth of the executions at the mark price `m`. -/
def worth (m : ℚ) (execs : List Execution) : ℚ :=
  (execs.map fun exec => exec.signed * (m - exec.tradePrice)).sum

/-- The cash that the executions brought in. -/
def cash (execs : List Execution) : ℚ := (execs.map fun exec => -exec.signed * exec.tradePrice).sum

variable {exec : Execution} {execs : List Execution} {sym : List UInt8}

theorem ofSymbol_snoc_self : ofSymbol exec.key (execs ++ [exec]) = ofSymbol exec.key execs ++ [exec] := by
  simp [ofSymbol, List.filter_append]

theorem ofSymbol_snoc_other (h : exec.key ≠ sym) :
    ofSymbol sym (execs ++ [exec]) = ofSymbol sym execs := by
  simp [ofSymbol, List.filter_append, h]

theorem worth_snoc (m : ℚ) :
    worth m (execs ++ [exec]) = worth m execs + exec.signed * (m - exec.tradePrice) := by
  simp [worth]

theorem total_snoc : total .buy (execs ++ [exec]) - total .sell (execs ++ [exec]) =
    total .buy execs - total .sell execs + exec.signed := by
  unfold total signed
  cases hside : exec.side <;> simp [List.filter_append, hside] <;> ring

theorem total_sub (execs : List Execution) :
    total .buy execs - total .sell execs = (execs.map signed).sum := by
  induction execs using List.reverseRecOn with
  | nil => simp [total]
  | append_singleton execs exec ih =>
    rw [total_snoc, ih]
    simp

theorem Booked.signed_ne (h : exec.Booked) : exec.signed ≠ 0 := by
  have hpos := h.pos
  unfold signed
  cases exec.side with
  | buy => exact hpos.ne'
  | sell => exact (neg_neg_of_pos hpos).ne

theorem worth_eq (m : ℚ) (execs : List Execution) :
    worth m execs = cash execs + (total .buy execs - total .sell execs) * m := by
  induction execs using List.reverseRecOn with
  | nil => simp [worth, cash, total]
  | append_singleton execs exec ih =>
    have hcash : cash (execs ++ [exec]) = cash execs + -exec.signed * exec.tradePrice := by
      simp [cash]
    rw [worth_snoc, total_snoc, hcash, ih]
    ring

end Execution

/-! ### One execution -/

namespace Position

variable {position : Position} {exec : Execution}

/-- Realised profit plus what the open position would bring at the mark price `m`. -/
def value (position : Position) (m : ℚ) : ℚ :=
  position.realisedPnl + position.quantity * (m - position.averageEntryPrice)

/-- The account that a position keeps. -/
def net (position : Position) : Net ℚ :=
  ⟨position.quantity, position.averageEntryPrice, position.realisedPnl⟩

/-- The position after an execution. -/
def after (position : Position) (exec : Execution) : Position :=
  let n := position.net.trade exec.signed exec.tradePrice
  { position with
    quantity := n.quantity
    averageEntryPrice := if exec.side = .sell ∧ n.quantity = 0 then 0 else n.price
    realisedPnl := n.realised }

theorem buy_eq (hside : exec.side = .buy) (h : 0 < exec.quantity) :
    position.buy exec = .ok (position.after exec) := by
  have hsigned : exec.signed = exec.quantity := by rw [Execution.signed, hside]
  obtain ⟨sym, q, e, r, u⟩ := position
  simp only [after, net, hsigned, hside, reduceCtorEq, false_and, if_false, buy]
  generalize exec.quantity = a at h
  generalize exec.tradePrice = p
  by_cases hshort : q < 0
  · have hopp : q * a < 0 := mul_neg_of_neg_of_pos hshort h
    rw [if_pos hshort]
    by_cases hflip : q + a > 0
    · have htrade : Net.trade ⟨q, e, r⟩ a p = ⟨q + a, p, r + q * (p - e)⟩ :=
        Net.trade_flips hopp (mul_pos h hflip)
      rw [htrade, if_pos hflip, min_eq_right (by linarith)]
      congr 2
      ring
    · have htrade : Net.trade ⟨q, e, r⟩ a p = ⟨q + a, e, r + -a * (p - e)⟩ :=
        Net.trade_takes hopp (mul_nonpos_of_nonneg_of_nonpos h.le (not_lt.mp hflip))
      rw [htrade, if_neg hflip, min_eq_left (by linarith)]
      congr 2
      ring
  · have hsum : q + a ≠ 0 := by linarith
    have htrade : Net.trade ⟨q, e, r⟩ a p = ⟨q + a, (q * e + a * p) / (q + a), r⟩ :=
      Net.trade_adds (mul_nonneg (not_lt.mp hshort) h.le)
    rw [if_neg hshort, divide_eq hsum, ok_bind, htrade]

theorem sell_eq (hside : exec.side = .sell) (h : 0 < exec.quantity) :
    position.sell exec = .ok (position.after exec) := by
  have hsigned : exec.signed = -exec.quantity := by rw [Execution.signed, hside]
  obtain ⟨sym, q, e, r, u⟩ := position
  simp only [after, net, hsigned, hside, Net.quantity_trade, true_and, sell]
  generalize exec.quantity = a at h
  generalize exec.tradePrice = p
  by_cases hlong : q > 0
  · have hopp : q * -a < 0 := mul_neg_of_pos_of_neg hlong (by linarith)
    rw [if_pos hlong]
    by_cases hclose : a ≥ q
    · rw [if_pos hclose]
      by_cases hrem : a - q > 0
      · have hopen : q + -a ≠ 0 := by linarith
        have htrade : Net.trade ⟨q, e, r⟩ (-a) p = ⟨q + -a, p, r + q * (p - e)⟩ :=
          Net.trade_flips hopp (mul_pos_of_neg_of_neg (by linarith) (by dsimp only; linarith))
        rw [if_pos hrem, if_neg hopen, htrade]
        congr 2
        ring
      · -- sold out
        obtain rfl : a = q := by linarith
        have htrade : Net.trade ⟨a, e, r⟩ (-a) p = ⟨a + -a, e, r + - -a * (p - e)⟩ :=
          Net.trade_takes hopp (by simp)
        rw [if_neg hrem, if_pos (add_neg_cancel a), htrade]
        congr 2
        · ring
        · ring
    · have hopen : q + -a ≠ 0 := by linarith
      have htrade : Net.trade ⟨q, e, r⟩ (-a) p = ⟨q + -a, e, r + - -a * (p - e)⟩ :=
        Net.trade_takes hopp (mul_nonpos_of_nonpos_of_nonneg (by linarith) (by dsimp only; linarith))
      rw [if_neg hclose, if_neg hopen, htrade]
      congr 2
      · ring
      · ring
  · have hopen : q + -a ≠ 0 := by linarith
    rw [if_neg hlong, if_neg hopen]
    by_cases hflat : q = 0
    · have htrade : Net.trade ⟨q, e, r⟩ (-a) p = ⟨-a, p, r⟩ := Net.trade_flat hflat (by linarith)
      rw [if_pos hflat, htrade, hflat, zero_add]
    · have hsum : -q + a ≠ 0 := by linarith
      have htrade : Net.trade ⟨q, e, r⟩ (-a) p = ⟨q + -a, (q * e + -a * p) / (q + -a), r⟩ :=
        Net.trade_adds (mul_nonneg_of_nonpos_of_nonpos (not_lt.mp hlong) (by linarith))
      have havg : (-q * e + a * p) / (-q + a) = (q * e + -a * p) / (q + -a) := by
        rw [← neg_div_neg_eq]
        congr 1 <;> ring
      rw [if_neg hflat, divide_eq hsum, ok_bind, htrade, havg, sub_eq_add_neg]

/-- **One execution** of a positive quantity is one trade of the account. -/
theorem fill_eq (h : 0 < exec.quantity) : position.fill exec = .ok (position.after exec) := by
  unfold fill
  cases hside : exec.side with
  | buy => exact buy_eq hside h
  | sell => exact sell_eq hside h

theorem net_after (position : Position) (exec : Execution) :
    (position.after exec).net.Agree (position.net.trade exec.signed exec.tradePrice) :=
  ⟨rfl, rfl, fun hopen => if_neg fun h => hopen h.2⟩

/-- The position after a history. -/
def afterAll (position : Position) (execs : List Execution) : Position := execs.foldl after position

theorem symbol_afterAll (position : Position) (execs : List Execution) :
    (position.afterAll execs).symbol = position.symbol := by
  induction execs generalizing position with
  | nil => rfl
  | cons exec execs ih => exact ih (position.after exec)

theorem net_afterAll (sym : List UInt8) {execs : List Execution}
    (hes : ∀ exec ∈ execs, exec.signed ≠ 0) :
    (({ zero with symbol := sym } : Position).afterAll execs).net.Agree
      (netOf Execution.signed Execution.tradePrice execs) := by
  induction execs using List.reverseRecOn with
  | nil => exact ⟨rfl, rfl, fun _ => rfl⟩
  | append_singleton execs exec ih =>
    have hprev := ih fun e he => hes e (List.mem_append_left _ he)
    rw [netOf_snoc, ← hprev.trade_eq (hes exec (by simp)), afterAll, List.foldl_append]
    exact net_after _ exec

/-- The position is that of the executions. -/
structure Books (position : Position) (execs : List Execution) : Prop where
  quantity : position.quantity = Execution.total .buy execs - Execution.total .sell execs
  value : ∀ m, position.value m = Execution.worth m execs

theorem afterAll_books (sym : List UInt8) {execs : List Execution}
    (hes : ∀ exec ∈ execs, exec.signed ≠ 0) :
    Books (({ zero with symbol := sym } : Position).afterAll execs) execs := by
  have hagree := net_afterAll sym hes
  constructor
  · rw [Execution.total_sub]
    exact hagree.quantity.trans (netOf_quantity _ _ execs)
  · intro m
    exact (hagree.value_eq m).trans (netOf_value hes m)

end Position

/-! ### Histories -/

namespace PositionManager

variable {positions : PositionManager} {exec : Execution} {execs : List Execution}

/-- The ledger is that of the executions: it has a position for every symbol among them, with its
symbol and the trades of the symbol, and no other. -/
def Books (positions : PositionManager) (execs : List Execution) : Prop :=
  ∀ sym, (positions sym = none ∧ Execution.ofSymbol sym execs = []) ∨
    ∃ position, positions sym = some position ∧ position.symbol = sym ∧
      Execution.ofSymbol sym execs ≠ [] ∧ position.Books (Execution.ofSymbol sym execs)

theorem applyAll_snoc (positions : PositionManager) (execs : List Execution) (exec : Execution) :
    positions.applyAll (execs ++ [exec]) =
      positions.applyAll execs >>= fun positions' => positions'.onExecution exec := by
  induction execs generalizing positions with
  | nil =>
    simp only [List.nil_append, applyAll, ok_bind]
    cases positions.onExecution exec with
    | error _ => rw [error_bind]
    | ok _ => rw [ok_bind]
  | cons exec' execs ih =>
    simp only [List.cons_append, applyAll]
    cases positions.onExecution exec' with
    | error _ => simp only [error_bind]
    | ok positions' => simp only [ok_bind, ih]

/-- The position that an execution of the symbol finds. -/
def found (positions : PositionManager) (sym : List UInt8) : Position :=
  let position := (positions sym).getD Position.zero
  if position.symbol = [] then { position with symbol := sym } else position

theorem onExecution_eq (he : exec.Booked) : positions.onExecution exec =
    .ok (Function.update positions exec.key (some ((positions.found exec.key).after exec))) := by
  have hsym : exec.symbol.cString = .ok exec.key := if_pos he.text
  have hfill : (positions.found exec.key).fill exec = .ok ((positions.found exec.key).after exec) :=
    Position.fill_eq he.pos
  rw [found] at hfill ⊢
  simp only [onExecution, hsym, hfill, ok_bind, pure_eq_ok]

/-- **Every history**: a symbol without executions has no position, and one with some has what they
make of the zero position. -/
theorem applyAll_eq (hes : ∀ exec ∈ execs, exec.Booked) : ∃ positions,
    new.applyAll execs = .ok positions ∧ ∀ sym, positions sym =
      if Execution.ofSymbol sym execs = [] then none
      else some (({ Position.zero with symbol := sym } : Position).afterAll
        (Execution.ofSymbol sym execs)) := by
  induction execs using List.reverseRecOn with
  | nil => exact ⟨new, rfl, fun _ => rfl⟩
  | append_singleton execs exec ih =>
    obtain ⟨positions, hall, hpos⟩ := ih fun e he => hes e (List.mem_append_left _ he)
    have he := hes exec (by simp)
    refine ⟨_, by rw [applyAll_snoc, hall, ok_bind, onExecution_eq he], fun sym => ?_⟩
    by_cases hk : exec.key = sym
    · subst hk
      have hfound : positions.found exec.key = ({ Position.zero with symbol := exec.key } :
          Position).afterAll (Execution.ofSymbol exec.key execs) := by
        rw [found, hpos]
        by_cases hnil : Execution.ofSymbol exec.key execs = []
        · rw [if_pos hnil, hnil]
          rfl
        · have hname := Position.symbol_afterAll { Position.zero with symbol := exec.key }
            (Execution.ofSymbol exec.key execs)
          rw [if_neg hnil, Option.getD_some]
          generalize Position.afterAll _ _ = position at hname ⊢
          -- the symbol is set already, or to itself
          obtain ⟨name, q, e, r, u⟩ := position
          obtain rfl : name = exec.key := hname
          split <;> rfl
      rw [Function.update_self, Execution.ofSymbol_snoc_self, if_neg (by simp), hfound,
        Position.afterAll, Position.afterAll, List.foldl_append]
      rfl
    · rw [Function.update_of_ne fun e => hk e.symm, Execution.ofSymbol_snoc_other hk]
      exact hpos sym

/-- **The ledger of a history** is that of its executions. -/
theorem applyAll_books (hes : ∀ exec ∈ execs, exec.Booked) :
    ∃ positions, new.applyAll execs = .ok positions ∧ positions.Books execs := by
  obtain ⟨positions, hall, hpos⟩ := applyAll_eq hes
  refine ⟨positions, hall, ?_⟩
  intro sym
  by_cases hnil : Execution.ofSymbol sym execs = []
  · exact Or.inl ⟨by rw [hpos, if_pos hnil], hnil⟩
  · have hof : ∀ exec ∈ Execution.ofSymbol sym execs, exec.signed ≠ 0 := fun exec he =>
      (hes exec (List.mem_of_mem_filter he)).signed_ne
    refine Or.inr ⟨_, by rw [hpos, if_neg hnil], Position.symbol_afterAll _ _, hnil, ?_⟩
    exact Position.afterAll_books sym hof

/-- **Conservation of profit and loss.** After every history of executions with positive quantities
each traded symbol has a position whose quantity is what was bought less what was sold, and whose
value at every mark price is that of its executions; and whatever the latest prices are, the realised
and unrealised profit that the risk report prints for it add up to the cash flow plus the market
value. -/
theorem pnl_conservation (execs : List Execution) (hes : ∀ exec ∈ execs, exec.Booked) :
    ∃ positions, new.applyAll execs = .ok positions ∧
      ∀ sym, Execution.ofSymbol sym execs ≠ [] →
        ∃ position, positions sym = some position ∧
          position.quantity = Execution.total .buy (Execution.ofSymbol sym execs) -
            Execution.total .sell (Execution.ofSymbol sym execs) ∧
          (∀ m, position.realisedPnl + position.quantity * (m - position.averageEntryPrice) =
            Execution.worth m (Execution.ofSymbol sym execs)) ∧
          ∀ latestPrices : LatestPrices, ∃ row,
            latestPrices.runReport positions sym = some row ∧
            row.realisedPnl + row.unrealisedPnl =
              Execution.cash (Execution.ofSymbol sym execs) + row.qty * row.price := by
  obtain ⟨positions, hall, hbooks⟩ := applyAll_books hes
  refine ⟨positions, hall, ?_⟩
  intro sym htraded
  rcases hbooks sym with ⟨-, hnil⟩ | ⟨position, hpos, -, -, hquantity, hvalue⟩
  · exact absurd hnil htraded
  refine ⟨position, hpos, hquantity, hvalue, ?_⟩
  intro latestPrices
  have hrow := hvalue ((latestPrices sym).getD position.averageEntryPrice)
  refine ⟨_, by rw [LatestPrices.runReport, hpos]; rfl, ?_⟩
  rw [Execution.worth_eq, ← hquantity] at hrow
  rw [← hrow, Position.value]
  ring

/-- A long position of ten turned into a short one of five. -/
theorem pnl_conservation_flip :
    let execs : List Execution :=
      [⟨0, 0, fun _ => 0, 100, 10, .buy, 0, 0⟩, ⟨0, 0, fun _ => 0, 103, 15, .sell, 0, 0⟩]
    (∀ exec ∈ execs, exec.Booked) ∧
      ∃ positions, new.applyAll execs = .ok positions ∧
        ∃ position, positions [] = some position ∧ position.quantity = -5 := by
  intro execs
  have hes : ∀ exec ∈ execs, exec.Booked := by
    intro exec he
    simp only [execs, List.mem_cons, List.not_mem_nil, or_false] at he
    rcases he with rfl | rfl
    · exact ⟨by norm_num, 0, rfl⟩
    · exact ⟨by norm_num, 0, rfl⟩
  obtain ⟨positions, hall, hsym⟩ := pnl_conservation execs hes
  have hof : Execution.ofSymbol [] execs = execs := by decide
  obtain ⟨position, hpos, hquantity, -⟩ := hsym [] (by rw [hof]; simp [execs])
  refine ⟨hes, positions, hall, position, hpos, ?_⟩
  rw [hquantity, hof]
  simp [execs, Execution.total]
  norm_num

end PositionManager

end TradingSim
