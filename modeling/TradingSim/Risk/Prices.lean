import TradingSim.MarketData.Dispatcher
import TradingSim.Risk.Position

/-!
`RiskEngine::onTick`: the price of the last tick of each symbol, under the text of its symbol field.
-/

namespace TradingSim

open Lib

/-- `RiskEngine::onTick`. -/
def LatestPrices.onTick (latestPrices : LatestPrices) (tick : Tick) : Except Fault LatestPrices := do
  let sym ← tick.symbol.cString
  pure (Function.update latestPrices sym (some tick.last))

/-- The price of the last of the ticks of each symbol. -/
def LatestPrices.ofTicks (ticks : List Tick) : LatestPrices := fun sym =>
  (ticks.filter fun tick => tick.symbol.text = sym).getLast?.map Tick.last

namespace LatestPrices

variable {ticks : List Tick} {tick : Tick} {sym : List UInt8}

theorem onTick_ofTicks (h : ∃ i, tick.symbol i = 0) :
    (ofTicks ticks).onTick tick = .ok (ofTicks (ticks ++ [tick])) := by
  have hsym : tick.symbol.cString = .ok tick.symbol.text := if_pos h
  rw [onTick, hsym, ok_bind, pure_eq_ok]
  congr 1
  funext sym
  by_cases hs : tick.symbol.text = sym
  · subst hs
    simp [ofTicks, List.filter_append]
  · rw [Function.update_of_ne (Ne.symm hs)]
    simp [ofTicks, List.filter_append, hs]

theorem exists_of_ofTicks {price : ℚ} (h : ofTicks ticks sym = some price) :
    ∃ tick ∈ ticks, tick.symbol.text = sym ∧ tick.last = price := by
  obtain ⟨tick, hlast, hprice⟩ := Option.map_eq_some_iff.mp h
  have hmem := List.mem_of_getLast? hlast
  rw [List.mem_filter, decide_eq_true_iff] at hmem
  exact ⟨tick, hmem.1, hmem.2, hprice⟩

end LatestPrices

end TradingSim
