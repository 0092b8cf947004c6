import TradingSim.Lib.BitScan
import TradingSim.OrderBook.Types
import TradingSim.OrderBook.Pool

/-!
The matching engine of `order_book.h` and `order_book.cpp`, as the code computes it: levels are
intrusive queues through the slots of one shared slab, a book keeps two arrays of levels, their
occupancy bitsets and the two cached best ticks, and `acceptNewOrder` files an order first and then
runs the symmetric loop `matchOrders`.

What the language leaves undefined is a `Fault`: an index outside its array, a null pointer that is
followed, the scan of an empty word. Three things are not. The overflow of an `int` wraps around, in a
quantity here as in the digit loop of the parser, and the conversion of a price whose tick no `int`
holds gives that tick. The prefetches have no effect and are left out, with the addresses outside the
arrays that they form at the first and the last level.
`steady_clock` is the list of readings it will still give, and the calls of the execution callback are
collected, each with the two orders of its round (`Trade`).
-/

namespace TradingSim

open Lib

/-! ### The slab -/

/-- The `CAPACITY` of `pool_`. -/
@[irreducible] def poolCapacity : ℕ := 65536

/-- An `Order*` into the slab. -/
abbrev Slot := Fin poolCapacity

/-- An `Order` in its slot, with the intrusive link. -/
structure Cell extends Order where
  next : Option Slot

/-- The orders of `slab_`. -/
abbrev Slab := Slot → Cell

/-- `Order{}`. -/
def Order.zero : Order where
  id _ := 0
  symbol _ := 0
  price := 0
  orderType := .buy
  quantity := 0
  arrivalNs := 0

/-- An order of which only the side, the price and the quantity are set. -/
def Order.plain (σ : OrderType) (price : ℚ) (quantity : Int32) : Order :=
  { Order.zero with orderType := σ, price := price, quantity := quantity }

/-- `o->next = p`. -/
def Slab.setNext (slab : Slab) (o : Slot) (p : Option Slot) : Slab :=
  Function.update slab o { slab o with next := p }

/-- `o->quantity -= q`. -/
def Slab.take (slab : Slab) (o : Slot) (q : Int32) : Slab :=
  Function.update slab o { slab o with quantity := (slab o).quantity - q }

/-! ### Price levels -/

/-- `PriceLevel`. -/
structure PriceLevel where
  head : Option Slot
  tail : Option Slot
  count : UInt32

namespace PriceLevel

/-- `PriceLevel{}`. -/
def new : PriceLevel := ⟨none, none, 0⟩

/-- `push`. -/
def push (l : PriceLevel) (slab : Slab) (o : Slot) : Except Fault (PriceLevel × Slab) := do
  let slab := slab.setNext o none
  match l.head with
  | none => return ({ head := some o, tail := some o, count := l.count + 1 }, slab)
  | some _ =>
    let tail ← deref l.tail
    return ({ l with tail := some o, count := l.count + 1 }, slab.setNext tail (some o))

/-- `front`. -/
def front (l : PriceLevel) : Option Slot := l.head

/-- `pop_front`: the level afterwards. -/
def popFront (l : PriceLevel) (slab : Slab) : PriceLevel :=
  match l.head with
  | none => l
  | some o =>
    let head := (slab o).next
    { head := head, tail := if head = none then none else l.tail, count := l.count - 1 }

/-- `empty`. -/
def empty (l : PriceLevel) : Bool := l.head.isNone

end PriceLevel

/-! ### The book of one symbol -/

/-- `SymbolBook`. -/
structure SymbolBook where
  bids : Fin maxTicks → PriceLevel
  asks : Fin maxTicks → PriceLevel
  bidBits : Fin bitsetWords → BitVec 64
  askBits : Fin bitsetWords → BitVec 64
  bestBidTick : ℤ
  bestAskTick : ℤ

namespace SymbolBook

/-- `SymbolBook()`. -/
def new : SymbolBook where
  bids _ := PriceLevel.new
  asks _ := PriceLevel.new
  bidBits _ := 0#64
  askBits _ := 0#64
  bestBidTick := -1
  bestAskTick := maxTicks

/-- `highest_bid`. -/
def highestBid (b : SymbolBook) (fromTick : ℤ) : Except Fault ℤ := highestSet b.bidBits fromTick

/-- `lowest_ask`. -/
def lowestAsk (b : SymbolBook) (fromTick : ℤ) : Except Fault ℤ :=
  lowestSet b.askBits maxTicks fromTick

/-- The two branches of `acceptNewOrder` that file an order on its own side of the book. -/
def rest (b : SymbolBook) (slab : Slab) (o : Slot) (tick : ℤ) :
    Except Fault (SymbolBook × Slab) := do
  match (slab o).orderType with
  | .buy =>
    let level ← load b.bids tick
    let (level, slab) ← level.push slab o
    let bids ← store b.bids tick level
    let bidBits ← setBit b.bidBits tick
    let bestBidTick := if tick > b.bestBidTick then tick else b.bestBidTick
    return ({ b with bids := bids, bidBits := bidBits, bestBidTick := bestBidTick }, slab)
  | .sell =>
    let level ← load b.asks tick
    let (level, slab) ← level.push slab o
    let asks ← store b.asks tick level
    let askBits ← setBit b.askBits tick
    let bestAskTick := if tick < b.bestAskTick then tick else b.bestAskTick
    return ({ b with asks := asks, askBits := askBits, bestAskTick := bestAskTick }, slab)

/-- The bid side after its best level has lost its front order: `pop_front`, and, when the level is
empty, `bid_clear` and the scan for the next one. -/
def popBid (b : SymbolBook) (slab : Slab) : Except Fault SymbolBook := do
  let level ← load b.bids b.bestBidTick
  let level := level.popFront slab
  let bids ← store b.bids b.bestBidTick level
  let b := { b with bids := bids }
  if level.empty then
    let bidBits ← clearBit b.bidBits b.bestBidTick
    let b := { b with bidBits := bidBits }
    let bestBidTick ← b.highestBid b.bestBidTick
    return { b with bestBidTick := bestBidTick }
  return b

/-- The ask side after its best level has lost its front order. -/
def popAsk (b : SymbolBook) (slab : Slab) : Except Fault SymbolBook := do
  let level ← load b.asks b.bestAskTick
  let level := level.popFront slab
  let asks ← store b.asks b.bestAskTick level
  let b := { b with asks := asks }
  if level.empty then
    let askBits ← clearBit b.askBits b.bestAskTick
    let b := { b with askBits := askBits }
    let bestAskTick ← b.lowestAsk b.bestAskTick
    return { b with bestAskTick := bestAskTick }
  return b

end SymbolBook

/-! ### The engine -/

/-- One call of `onExecution_`: the execution, and the two orders it was built from with the slots
they were read from. -/
structure Trade where
  exec : Execution
  bid : Slot
  ask : Slot
  bidOrder : Order
  askOrder : Order

/-- `OrderBook`. The map creates a book for a key at its first use; `clock` holds the readings that
`steady_clock` will still give. -/
structure OrderBook where
  pool : ObjectPool Cell poolCapacity
  books : UInt64 → Option SymbolBook
  clock : ℕ → Int64

/-- What `matchOrders` works on: the pool, the book of the symbol, the clock and the executions
reported so far. -/
structure MatchState where
  pool : ObjectPool Cell poolCapacity
  book : SymbolBook
  clock : ℕ → Int64
  log : List Trade

/-- `std::min` of two quantities. -/
def minQty (a b : Int32) : Int32 := if b < a then b else a

/-- `buildExecution`, at the time `now`. -/
def buildExecution (tradeQty : Int32) (ask bid : Order) (symbol : CharArray 8)
    (aggressor : OrderType) (now : Int64) : Execution where
  side := match aggressor with
    | .buy => .buy
    | .sell => .sell
  buyId := strncpy bid.id
  sellId := strncpy ask.id
  symbol := strncpy symbol
  quantity := tradeQty.toInt
  tradePrice := match aggressor with
    | .buy => ask.price
    | .sell => bid.price
  arrivalNs := now
  orderArrivalNs := match aggressor with
    | .buy => bid.arrivalNs
    | .sell => ask.arrivalNs

namespace MatchState

/-- `if (bid->quantity == 0)`: the bid leaves its level and its slot goes back to the pool. -/
def settleBid (m : MatchState) (bid : Slot) : Except Fault MatchState :=
  if (m.pool.slab bid).quantity = 0 then do
    let book ← m.book.popBid m.pool.slab
    let pool ← m.pool.release bid
    return { m with book := book, pool := pool }
  else .ok m

/-- `if (ask->quantity == 0)`: the ask leaves its level and its slot goes back to the pool. -/
def settleAsk (m : MatchState) (ask : Slot) : Except Fault MatchState :=
  if (m.pool.slab ask).quantity = 0 then do
    let book ← m.book.popAsk m.pool.slab
    let pool ← m.pool.release ask
    return { m with book := book, pool := pool }
  else .ok m

/-- What the two have in common, for the `pop` of the side. -/
def settle (pop : SymbolBook → Slab → Except Fault SymbolBook) (m : MatchState) (o : Slot) :
    Except Fault MatchState :=
  if (m.pool.slab o).quantity = 0 then do
    let book ← pop m.book m.pool.slab
    let pool ← m.pool.release o
    return { m with book := book, pool := pool }
  else .ok m

theorem settleBid_eq (m : MatchState) (bid : Slot) : m.settleBid bid = m.settle SymbolBook.popBid bid :=
  rfl

theorem settleAsk_eq (m : MatchState) (ask : Slot) : m.settleAsk ask = m.settle SymbolBook.popAsk ask :=
  rfl

/-- One round of the loop of `matchOrders`; `none` is its `return`. The symbol is read through the
pointer into the slot `o` of the incoming order, the clock once for the execution. -/
def round (o : Slot) (aggressor : OrderType) (m : MatchState) :
    Except Fault (Option MatchState) := do
  if m.book.bestBidTick = -1 ∨ m.book.bestAskTick = maxTicks then return none
  if m.book.bestBidTick < m.book.bestAskTick then return none
  let bidLevel ← load m.book.bids m.book.bestBidTick
  let askLevel ← load m.book.asks m.book.bestAskTick
  let bid ← deref bidLevel.front
  let ask ← deref askLevel.front
  let bidOrder := (m.pool.slab bid).toOrder
  let askOrder := (m.pool.slab ask).toOrder
  let tradeQty := minQty askOrder.quantity bidOrder.quantity
  let exec := buildExecution tradeQty askOrder bidOrder (m.pool.slab o).symbol aggressor (m.clock 0)
  let m : MatchState := { m with
    pool := { m.pool with slab := Slab.take (Slab.take m.pool.slab bid tradeQty) ask tradeQty }
    clock := fun i => m.clock (i + 1)
    log := m.log ++ [⟨exec, bid, ask, bidOrder, askOrder⟩] }
  let m ← m.settleBid bid
  let m ← m.settleAsk ask
  return some m

end MatchState

/-- `matchOrders`. Every round gives a slot back to the pool, so there are at most as many rounds as
the pool has slots, and one more that returns (`Rep.matchOrders_rounds`: more change nothing). -/
def matchOrders (o : Slot) (aggressor : OrderType) (m : MatchState) : Except Fault MatchState :=
  loop .outOfRounds (MatchState.round o aggressor) (poolCapacity + 1) m

namespace OrderBook

/-- A fresh engine. -/
def new (clock : ℕ → Int64) : OrderBook where
  pool := ObjectPool.new { Order.zero with next := none }
  books _ := none
  clock := clock

/-- `poolAvailable`. -/
def poolAvailable (s : OrderBook) : ℕ := s.pool.available

/-- `books_[key]`. -/
def book (s : OrderBook) (key : UInt64) : SymbolBook := (s.books key).getD SymbolBook.new

/-- `acceptNewOrder`: the engine afterwards, and the executions it reported. -/
def acceptNewOrder (s : OrderBook) (order : Order) : Except Fault (OrderBook × List Trade) := do
  let tick := priceToTick order.price
  if tick < 0 ∨ tick ≥ maxTicks then return (s, [])
  match s.pool.alloc with
  | none =>
    -- "[OrderBook] CRITICAL: pool exhausted — order dropped"
    return (s, [])
  | some (o, pool) =>
    let pool := pool.write o { order with next := none }
    let key := symKey (pool.slab o).symbol
    let (book, slab) ← (s.book key).rest pool.slab o tick
    let m ← matchOrders o (slab o).orderType
      { pool := { pool with slab := slab }, book := book, clock := s.clock, log := [] }
    return ({ pool := m.pool, books := Function.update s.books key (some m.book), clock := m.clock },
      m.log)

/-- The orders of a sequence, one by one; the executions of all of them, in the order reported. -/
def acceptAll : OrderBook → List Order → Except Fault (OrderBook × List Trade)
  | s, [] => .ok (s, [])
  | s, o :: os => do
    let (s, log) ← s.acceptNewOrder o
    let (s, log') ← s.acceptAll os
    return (s, log ++ log')

end OrderBook

end TradingSim
