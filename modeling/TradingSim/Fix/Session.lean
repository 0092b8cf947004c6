import TradingSim.Lib.Machine
import TradingSim.OrderBook.Types

/-!
`FixSessionReader`: the lines of a file, and the order that each is parsed to.

A line is a sequence of `tag=value` fields, cut by the next `=` and the next `|` after it. The reader
knows five tags; a field with another tag, or a line without one of them, leaves the fields of the
order as they are, zero at first. Nothing is checked: every line that is not empty is an order.

`std::atof` is a parameter, and so are the readings of the clock.
-/

namespace TradingSim

open Lib

namespace FixSessionReader

/-- `memchr(s, c, ..)`: the bytes before the first `c` and those after it. -/
def memchr (c : UInt8) (s : List UInt8) : Option (List UInt8 × List UInt8) :=
  if c ∈ s then some (s.takeWhile (· ≠ c), (s.dropWhile (· ≠ c)).tail) else none

/-- `memcpy(dst, val, n); dst[n] = '\0'` with as much of `val` as leaves room for the NUL. The rest of
`dst` stays as it is. -/
def copyInto {size : ℕ} (dst : CharArray size) (val : List UInt8) : CharArray size :=
  let n := min val.length (size - 1)
  fun i => if (i : ℕ) < n then val.getD i 0 else if (i : ℕ) = n then 0 else dst i

/-- The digit loop of tag 38, with no check that a byte is a digit. `char` is signed, and `int32_t`
wraps around. -/
def digits (val : List UInt8) : Int32 :=
  val.foldl (fun qty c => qty * 10 + (c.toInt8.toInt32 - 48)) 0

section

variable (atof : List UInt8 → ℚ) (now : ℕ → Int64)

/-- One field: the dispatch on a tag of two characters. -/
def setField (order : Order) (tag val : List UInt8) : Order :=
  if tag = [49, 49] then { order with id := copyInto order.id val }
  else if tag = [53, 53] then { order with symbol := copyInto order.symbol val }
  else if tag = [53, 52] then
    { order with orderType := if val.head? = some 49 then .buy else .sell }
  else if tag = [52, 52] then { order with price := atof (val.take 31) }
  else if tag = [51, 56] then { order with quantity := digits val }
  else order

/-- `Order order{}` with its arrival time. -/
def blank (arrivalNs : Int64) : Order where
  id _ := 0
  symbol _ := 0
  price := 0
  orderType := .buy
  quantity := 0
  arrivalNs := arrivalNs

/-- One round of the loop over the fields, from `p` on. -/
def parseField : List UInt8 × Order → Except Fault (Option (List UInt8 × Order))
  | ([], _) => .ok none
  | (p, order) =>
    match memchr 61 p with
    | none => .ok none
    | some (tag, after) =>
      match memchr 124 after with
      | none => .ok (some ([], setField atof order tag after))
      | some (val, rest) => .ok (some (rest, setField atof order tag val))

/-- `FixSessionReader::parseFixLine`. -/
def parseFixLine (arrivalNs : Int64) (line : List UInt8) : Except Fault Order := do
  let (_, order) ← loop .outOfRounds (parseField atof) (line.length + 1) (line, blank arrivalNs)
  pure order

/-- One round of the loop over the lines, from `p` on. The orders are those handed to the callback;
the clock is read once for each. -/
def readLine : List UInt8 × List Order → Except Fault (Option (List UInt8 × List Order))
  | ([], _) => .ok none
  | (p, orders) => do
    let (line, rest) := (memchr 10 p).getD (p, [])
    if line.length > 0 then
      let order ← parseFixLine atof (now orders.length) line
      pure (some (rest, orders ++ [order]))
    else pure (some (rest, orders))

/-- `FixSessionReader::start` on the bytes of the file: the orders it calls back with. -/
def start (file : List UInt8) : Except Fault (List Order) := do
  let (_, orders) ← loop .outOfRounds (readLine atof now) (file.length + 1) (file, [])
  pure orders

end

end FixSessionReader

end TradingSim
