import Mathlib.Data.List.GetD
import TradingSim.Lib.Split

/-!
Text files cut with `std::getline`, and what the number parsers of the standard library throw.
-/

namespace TradingSim.Lib

/-- What `stod` and `stoi` throw. -/
inductive ParseError where
  | invalidArgument
  | outOfRange
  deriving DecidableEq

/-- The pieces that `getline` with the separator reads one after the other: nothing is read behind a
separator at the end. -/
def getlines (sep : UInt8) (text : List UInt8) : List (List UInt8) :=
  let pieces := text.splitOn sep
  if pieces.getLast? = some [] then pieces.dropLast else pieces

variable {sep : UInt8} {pieces : List (List UInt8)}

end TradingSim.Lib
