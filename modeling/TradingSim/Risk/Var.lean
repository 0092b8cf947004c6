import TradingSim.Lib.Events
import TradingSim.Risk.Position
import TradingSim.Risk.VolSurface

/-!
`RiskEngine::computeVar`: the value at risk of the positions, as one sum over the portfolio.

Each position adds its quantity times its price times a volatility (`computeVar_eq`). The quantity comes
with its sign, so a short position takes away from the sum what a long one would add. The figure is an
upper bound, not negative and never less than that of a part of the portfolio, exactly if no short
position counts: each has the price zero or the volatility zero (`var_conservative`).
-/

namespace TradingSim

open Lib

/-- An entry of `PositionManager::all()`. -/
abbrev Holding := List UInt8 × Position

/-- `RiskEngine`, with the surface that it refers to. -/
structure RiskEngine where
  latestPrices : LatestPrices
  volSurface : VolatilitySurface

namespace RiskEngine

/-- The latest price of the symbol, the average entry price without one. -/
def currentPrice (r : RiskEngine) (holding : Holding) : ℚ :=
  (r.latestPrices holding.1).getD holding.2.averageEntryPrice

/-- What a position adds to the sum. -/
def component (r : RiskEngine) (sqrt252 : ℚ) (holding : Holding) : Except Fault ℚ := do
  let annualVol ← r.volSurface.getVol (r.currentPrice holding) 30
  let dailyVol ← divide annualVol sqrt252
  pure (holding.2.quantity * r.currentPrice holding * dailyVol)

/-- The loop over the positions. -/
def sumVar (r : RiskEngine) (sqrt252 : ℚ) : ℚ → List Holding → Except Fault ℚ
  | vaR, [] => .ok vaR
  | vaR, holding :: holdings => do
    let add ← r.component sqrt252 holding
    r.sumVar sqrt252 (vaR + add) holdings

/-- `computeVar`: the figure it prints, for the positions in the order of the map. `sqrt252` is
`std::sqrt(252.0)`. -/
def computeVar (r : RiskEngine) (sqrt252 : ℚ) (holdings : List Holding) : Except Fault ℚ := do
  let vaR ← r.sumVar sqrt252 0 holdings
  pure (vaR * (1645 / 1000))

/-! ### The sum -/

section Sum

variable {r : RiskEngine} {sqrt252 : ℚ} {vol : ℚ → ℚ}

/-- What a position adds, `vol` being the volatility at a price. -/
def share (r : RiskEngine) (sqrt252 : ℚ) (vol : ℚ → ℚ) (holding : Holding) : ℚ :=
  holding.2.quantity * r.currentPrice holding * (vol (r.currentPrice holding) / sqrt252)

theorem component_eq (hsqrt : 0 < sqrt252) (hvol : ∀ p, r.volSurface.getVol p 30 = .ok (vol p))
    (holding : Holding) : r.component sqrt252 holding = .ok (r.share sqrt252 vol holding) := by
  rw [component, hvol, ok_bind, divide_eq hsqrt.ne', ok_bind, pure_eq_ok, share]

theorem sumVar_eq (hsqrt : 0 < sqrt252) (hvol : ∀ p, r.volSurface.getVol p 30 = .ok (vol p))
    (vaR : ℚ) (holdings : List Holding) : r.sumVar sqrt252 vaR holdings =
      .ok (vaR + (holdings.map (r.share sqrt252 vol)).sum) := by
  induction holdings generalizing vaR with
  | nil => rw [sumVar, List.map_nil, List.sum_nil, add_zero]
  | cons holding holdings ih =>
    rw [sumVar, component_eq hsqrt hvol, ok_bind, ih, List.map_cons, List.sum_cons, add_assoc]

/-- **The figure** is the sum of the positions' shares. -/
theorem computeVar_eq (hsqrt : 0 < sqrt252) (hvol : ∀ p, r.volSurface.getVol p 30 = .ok (vol p))
    (holdings : List Holding) : r.computeVar sqrt252 holdings =
      .ok ((holdings.map (r.share sqrt252 vol)).sum * (1645 / 1000)) := by
  rw [computeVar, sumVar_eq hsqrt hvol, ok_bind, pure_eq_ok, zero_add]

theorem share_nonneg_iff (hsqrt : 0 < sqrt252) {holding : Holding}
    (hprice : 0 ≤ r.currentPrice holding) (hvol : 0 ≤ vol (r.currentPrice holding)) :
    0 ≤ r.share sqrt252 vol holding ↔ (holding.2.quantity < 0 →
      r.currentPrice holding = 0 ∨ vol (r.currentPrice holding) = 0) := by
  unfold share
  generalize r.currentPrice holding = p at hprice hvol ⊢
  generalize vol p = σ at hvol ⊢
  generalize holding.2.quantity = q
  constructor
  · intro hshare hneg
    by_contra hne
    push Not at hne
    have hp : 0 < p := lt_of_le_of_ne hprice hne.1.symm
    have hσ : 0 < σ := lt_of_le_of_ne hvol hne.2.symm
    have hlt : q * p * (σ / sqrt252) < 0 :=
      mul_neg_of_neg_of_pos (mul_neg_of_neg_of_pos hneg hp) (div_pos hσ hsqrt)
    linarith
  · intro hzero
    rcases lt_or_ge q 0 with hneg | hq
    · rcases hzero hneg with rfl | rfl
      · simp
      · simp
    · exact mul_nonneg (mul_nonneg hq hprice) (div_nonneg hvol hsqrt.le)

end Sum

/-- **Is the figure an upper bound?** With prices and volatilities that are not negative, `computeVar`
has a figure for every portfolio; it is not negative and not less than that of any part of the portfolio,
if and only if every short position has the price zero or the volatility zero. -/
theorem var_conservative (r : RiskEngine) (sqrt252 : ℚ) (hsqrt : 0 < sqrt252)
    (hvols : ∀ K E vol, r.volSurface.vol? K E = some vol → 0 ≤ vol) (holdings : List Holding)
    (hprices : ∀ holding ∈ holdings, 0 ≤ r.currentPrice holding) :
    ∃ vaR, r.computeVar sqrt252 holdings = .ok vaR ∧
      ((0 ≤ vaR ∧ ∀ sub : List Holding, sub.Subperm holdings →
          ∃ vaR', r.computeVar sqrt252 sub = .ok vaR' ∧ vaR' ≤ vaR) ↔
        ∀ holding ∈ holdings, holding.2.quantity < 0 → r.currentPrice holding = 0 ∨
          r.volSurface.getVol (r.currentPrice holding) 30 = .ok 0) := by
  choose vol hvol hgrid using fun p => r.volSurface.getVol_ok p 30
  have hnonneg : ∀ p, 0 ≤ vol p := fun p => by
    rcases hgrid p with hfallback | ⟨K, E, hKE⟩
    · rw [hfallback]
      norm_num
    · exact hvols K E _ hKE
  refine ⟨_, computeVar_eq hsqrt hvol holdings, ?_⟩
  -- the factor is positive, so that it is a matter of the sums
  have hparts : (0 ≤ (holdings.map (r.share sqrt252 vol)).sum * (1645 / 1000) ∧
      ∀ sub : List Holding, sub.Subperm holdings → ∃ vaR', r.computeVar sqrt252 sub = .ok vaR' ∧
        vaR' ≤ (holdings.map (r.share sqrt252 vol)).sum * (1645 / 1000)) ↔
      ∀ sub : List Holding, sub.Subperm holdings →
        (sub.map (r.share sqrt252 vol)).sum ≤ (holdings.map (r.share sqrt252 vol)).sum := by
    constructor
    · rintro ⟨-, hsub⟩ sub hs
      obtain ⟨vaR', hvaR', hle⟩ := hsub sub hs
      obtain rfl : _ = vaR' := Except.ok.inj ((computeVar_eq hsqrt hvol sub).symm.trans hvaR')
      linarith
    · intro hsub
      have hempty := hsub [] List.nil_subperm
      rw [List.map_nil, List.sum_nil] at hempty
      refine ⟨by linarith, fun sub hs => ⟨_, computeVar_eq hsqrt hvol sub, ?_⟩⟩
      have hle := hsub sub hs
      linarith
  rw [hparts, subperm_sum_le_iff]
  refine forall₂_congr fun holding hmem => ?_
  rw [share_nonneg_iff hsqrt (hprices holding hmem) (hnonneg _), hvol, Except.ok.injEq]

/-- Two long positions, and a short one that is worth nothing, on a surface with two strikes: without
one of the long positions the figure is not greater. -/
theorem var_conservative_three :
    let r : RiskEngine :=
      ⟨fun sym => if sym = [67] then some 0 else none, (VolatilitySurface.loadFromCSV
        VolatilitySurface.twoStrikesStod VolatilitySurface.twoStrikesStoi .new
        VolatilitySurface.twoStrikes).1⟩
    let a : Holding := ([65], ⟨[65], 10, 100, 0, 0⟩)
    let b : Holding := ([66], ⟨[66], 5, 200, 0, 0⟩)
    let c : Holding := ([67], ⟨[67], -3, 150, 0, 0⟩)
    ∃ vaR part, r.computeVar (127 / 8) [a, b, c] = .ok vaR ∧ r.computeVar (127 / 8) [c, a] = .ok part ∧
      0 ≤ vaR ∧ part ≤ vaR := by
  intro r a b c
  have hvols : ∀ K E vol, r.volSurface.vol? K E = some vol → 0 ≤ vol := by
    intro K E vol hvol
    simp only [r, VolatilitySurface.loadFromCSV_eq, VolatilitySurface.csvRows_twoStrikes,
      VolatilitySurface.vol?_writeAll] at hvol
    obtain ⟨row, hrow, rfl⟩ := VolRow.mem_of_lastVol hvol
    fin_cases hrow <;> norm_num
  obtain ⟨vaR, hvaR, hiff⟩ := var_conservative r (127 / 8) (by norm_num) hvols [a, b, c]
    (by simp [r, a, b, c, currentPrice])
  obtain ⟨hpos, hsub⟩ := hiff.mpr (by simp [r, a, b, c, currentPrice])
  have hpart : [c, a].Subperm [a, b, c] :=
    ((List.Perm.swap a c []).subperm).trans (List.Sublist.subperm (by simp))
  obtain ⟨part, hvaR', hle⟩ := hsub [c, a] hpart
  exact ⟨vaR, part, hvaR, hvaR', hpos, hle⟩

/-- A short position of ten at 100 has a negative value at risk, less than having no position. -/
theorem var_conservative_fails :
    let r : RiskEngine := ⟨fun _ => none, .new⟩
    let short : Holding := ([65], ⟨[65], -10, 100, 0, 0⟩)
    ∃ vaR, r.computeVar (127 / 8) [short] = .ok vaR ∧ vaR < 0 ∧
      r.computeVar (127 / 8) [] = .ok 0 := by
  intro r short
  have hvol : ∀ p, r.volSurface.getVol p 30 = .ok (1 / 5) := fun p => if_pos rfl
  refine ⟨_, computeVar_eq (by norm_num) hvol [short], ?_, ?_⟩
  · norm_num [share, currentPrice, r, short]
  · rw [computeVar_eq (by norm_num) hvol, List.map_nil, List.sum_nil, zero_mul]

end RiskEngine

end TradingSim
