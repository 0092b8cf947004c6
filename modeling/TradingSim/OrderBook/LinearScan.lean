import TradingSim.OrderBook.Invariants

/-!
`highest_bid` and `lowest_ask` stand in for loops that moved a best price over the empty levels one tick
at a time. Whatever the bits are, they find what such a loop finds, the nearest tick with its bit set
(`SymbolBook.bitset_scan`), and read no word outside the bitset and scan no zero word on the way. In the
books of the engine a bit is set where the level has an order, so there the two functions are the loops
over the levels that they replaced (`OrderBook.acceptAll_scan`).
-/

namespace TradingSim

open Lib

namespace SymbolBook

/-- The ticks whose bit is set. -/
def setTicks (bits : Fin bitsetWords → BitVec 64) : Set ℤ :=
  { t | ∃ u : ℕ, t = u ∧ bitAt bits u = true }

/-- `while (tick >= 0 && !occupied(tick)) --tick;` -/
def linearBid (occupied : ℕ → Bool) (fromTick : ℤ) : ℤ := linearDown occupied (fromTick + 1).toNat

/-- `while (tick < MAX_TICKS && !occupied(tick)) ++tick;` -/
def linearAsk (occupied : ℕ → Bool) (fromTick : ℤ) : ℤ :=
  linearUp occupied (maxTicks - fromTick).toNat fromTick.toNat

variable {b : SymbolBook} {bits : Fin bitsetWords → BitVec 64} {fromTick : ℤ}

theorem setTicks_Iic_eq_empty (h : ∀ u : ℕ, (u : ℤ) ≤ fromTick → bitAt bits u = false) :
    setTicks bits ∩ Set.Iic fromTick = ∅ := by
  rw [Set.eq_empty_iff_forall_notMem]
  rintro _ ⟨⟨u, rfl, hu⟩, hle⟩
  rw [h u hle] at hu
  exact absurd hu Bool.false_ne_true

theorem setTicks_Ici_eq_empty (h : ∀ u : ℕ, fromTick ≤ u → bitAt bits u = false) :
    setTicks bits ∩ Set.Ici fromTick = ∅ := by
  rw [Set.eq_empty_iff_forall_notMem]
  rintro _ ⟨⟨u, rfl, hu⟩, hle⟩
  rw [h u hle] at hu
  exact absurd hu Bool.false_ne_true

theorem isGreatest_setTicks {t : ℕ} (ht : (t : ℤ) ≤ fromTick) (hset : bitAt bits t = true)
    (h : ∀ u : ℕ, t < u → (u : ℤ) ≤ fromTick → bitAt bits u = false) :
    IsGreatest (setTicks bits ∩ Set.Iic fromTick) t := by
  refine ⟨⟨⟨t, rfl, hset⟩, ht⟩, ?_⟩
  rintro _ ⟨⟨u, rfl, hu⟩, hle⟩
  by_contra hlt
  rw [h u (by omega) hle] at hu
  exact absurd hu Bool.false_ne_true

theorem isLeast_setTicks {t : ℕ} (ht : fromTick ≤ t) (hset : bitAt bits t = true)
    (h : ∀ u : ℕ, fromTick ≤ u → u < t → bitAt bits u = false) :
    IsLeast (setTicks bits ∩ Set.Ici fromTick) t := by
  refine ⟨⟨⟨t, rfl, hset⟩, ht⟩, ?_⟩
  rintro _ ⟨⟨u, rfl, hu⟩, hle⟩
  by_contra hlt
  rw [h u hle (by omega)] at hu
  exact absurd hu Bool.false_ne_true

/-- **The bids.** -/
theorem highestBid_spec (hlo : -1 ≤ fromTick) (hhi : fromTick < maxTicks) :
    b.highestBid fromTick = .ok (linearBid (bitAt b.bidBits) fromTick) ∧
      (IsGreatest (setTicks b.bidBits ∩ Set.Iic fromTick) (linearBid (bitAt b.bidBits) fromTick) ∨
        setTicks b.bidBits ∩ Set.Iic fromTick = ∅ ∧ linearBid (bitAt b.bidBits) fromTick = -1) := by
  rcases Int.lt_or_le fromTick 0 with hneg | hpos
  · obtain rfl : fromTick = -1 := by omega
    exact ⟨rfl, Or.inr ⟨setTicks_Iic_eq_empty fun u hu => by omega, rfl⟩⟩
  obtain ⟨f, rfl⟩ := Int.eq_ofNat_of_zero_le hpos
  have hlin : linearBid (bitAt b.bidBits) f = linearDown (bitAt b.bidBits) (f + 1) := rfl
  have hf : f < bitsetWords * 64 := lt_of_lt_of_le (by omega) maxTicks_le_bits
  obtain ⟨r, hr, ⟨rfl, hnone⟩ | ⟨t, rfl, htf, hset, hlast⟩⟩ := highestSet_spec b.bidBits hf
  · have heq : linearBid (bitAt b.bidBits) f = -1 := by
      rw [hlin]
      exact linearDown_of_none fun u hu => hnone u (by omega)
    refine ⟨by rw [heq]; exact hr, Or.inr ⟨?_, heq⟩⟩
    exact setTicks_Iic_eq_empty fun u hu => hnone u (by omega)
  · have heq : linearBid (bitAt b.bidBits) f = t := by
      rw [hlin]
      exact linearDown_of_last (by omega) hset fun u htu hu => hlast u htu (by omega)
    refine ⟨by rw [heq]; exact hr, Or.inl ?_⟩
    rw [heq]
    exact isGreatest_setTicks (by omega) hset fun u htu hu => hlast u htu (by omega)

/-- **The asks.** -/
theorem lowestAsk_spec (hclear : ∀ t, maxTicks ≤ t → bitAt b.askBits t = false) (hlo : 0 ≤ fromTick)
    (hhi : fromTick ≤ maxTicks) :
    b.lowestAsk fromTick = .ok (linearAsk (bitAt b.askBits) fromTick) ∧
      (IsLeast (setTicks b.askBits ∩ Set.Ici fromTick) (linearAsk (bitAt b.askBits) fromTick) ∨
        setTicks b.askBits ∩ Set.Ici fromTick = ∅ ∧
          linearAsk (bitAt b.askBits) fromTick = maxTicks) := by
  obtain ⟨f, rfl⟩ := Int.eq_ofNat_of_zero_le hlo
  obtain ⟨left, hleft⟩ : ∃ left, maxTicks = f + left := ⟨maxTicks - f, by omega⟩
  have hlin : linearAsk (bitAt b.askBits) f = linearUp (bitAt b.askBits) left f := by
    rw [linearAsk, show ((maxTicks : ℤ) - f).toNat = left by omega, Int.toNat_natCast]
  have hempty : (∀ u, f ≤ u → bitAt b.askBits u = false) →
      setTicks b.askBits ∩ Set.Ici (f : ℤ) = ∅ ∧ linearAsk (bitAt b.askBits) f = maxTicks := by
    intro hnone
    refine ⟨setTicks_Ici_eq_empty fun u hu => hnone u (by omega), ?_⟩
    rw [hlin, linearUp_of_none fun u hfu _ => hnone u hfu, hleft]
  by_cases hend : f = maxTicks
  · have hnone := hempty fun u hfu => hclear u (hend ▸ hfu)
    refine ⟨?_, Or.inr hnone⟩
    rw [hnone.2, lowestAsk, lowestSet, if_pos (by omega), pure_eq_ok]
  obtain ⟨r, hr, ⟨rfl, hnone⟩ | ⟨t, rfl, hft, htm, hset, hfirst⟩⟩ :=
    lowestSet_spec b.askBits maxTicks_le_bits (show f < maxTicks by omega) hclear
  · have hnone := hempty hnone
    refine ⟨?_, Or.inr hnone⟩
    rw [hnone.2]
    exact hr
  · have heq : linearAsk (bitAt b.askBits) f = t := by
      rw [hlin]
      exact linearUp_of_first hft (by omega) hset hfirst
    refine ⟨by rw [heq]; exact hr, Or.inl ?_⟩
    rw [heq]
    exact isLeast_setTicks (by omega) hset fun u hfu hu => hfirst u (by omega) hu

/-- **The bitset scans are linear scans of the bits.** Whatever the bits, `highest_bid` returns the
greatest tick up to the start whose bit is set, or `-1`; with the unused bits clear, `lowest_ask` returns
the least from the start on, or `MAX_TICKS`. -/
theorem bitset_scan (b : SymbolBook) :
    (∀ fromTick : ℤ, -1 ≤ fromTick → fromTick < maxTicks →
      ∃ r, b.highestBid fromTick = .ok r ∧ r = linearBid (bitAt b.bidBits) fromTick ∧
        (IsGreatest (setTicks b.bidBits ∩ Set.Iic fromTick) r ∨
          setTicks b.bidBits ∩ Set.Iic fromTick = ∅ ∧ r = -1)) ∧
    ((∀ t, maxTicks ≤ t → bitAt b.askBits t = false) →
      ∀ fromTick : ℤ, 0 ≤ fromTick → fromTick ≤ maxTicks →
        ∃ r, b.lowestAsk fromTick = .ok r ∧ r = linearAsk (bitAt b.askBits) fromTick ∧
          (IsLeast (setTicks b.askBits ∩ Set.Ici fromTick) r ∨
            setTicks b.askBits ∩ Set.Ici fromTick = ∅ ∧ r = maxTicks)) := by
  constructor
  · intro fromTick hlo hhi
    obtain ⟨hrun, hspec⟩ := highestBid_spec hlo hhi
    exact ⟨_, hrun, rfl, hspec⟩
  · intro hclear fromTick hlo hhi
    obtain ⟨hrun, hspec⟩ := lowestAsk_spec hclear hlo hhi
    exact ⟨_, hrun, rfl, hspec⟩

/-! ### The levels -/

/-- The level of the tick has an order. -/
def occupied (levels : Fin maxTicks → PriceLevel) (t : ℕ) : Bool :=
  if h : t < maxTicks then !(levels ⟨t, h⟩).empty else false

theorem occupied_eq_bitAt {slab : Slab} {levels : Fin maxTicks → PriceLevel}
    (h : SideInv slab levels bits) (t : ℕ) : occupied levels t = bitAt bits t := by
  unfold occupied
  split
  · rename_i ht
    rw [Bool.eq_iff_iff, h.bit ⟨t, ht⟩, PriceLevel.empty, Bool.not_eq_true', Option.isNone_eq_false_iff,
      Option.isSome_iff_ne_none]
  · rename_i ht
    exact (h.above t (not_lt.mp ht)).symm

end SymbolBook

/-- **The loops that were replaced.** In every book of the engine, after any orders, the bitset scans
are the loops over the levels. -/
theorem OrderBook.acceptAll_scan (clock : ℕ → Int64) (os : List Order) :
    ∃ s log, (new clock).acceptAll os = .ok (s, log) ∧ ∀ key (fromTick : ℤ),
      (-1 ≤ fromTick → fromTick < maxTicks → (s.book key).highestBid fromTick =
        .ok (SymbolBook.linearBid (SymbolBook.occupied (s.book key).bids) fromTick)) ∧
      (0 ≤ fromTick → fromTick ≤ maxTicks → (s.book key).lowestAsk fromTick =
        .ok (SymbolBook.linearAsk (SymbolBook.occupied (s.book key).asks) fromTick)) := by
  obtain ⟨s, log, hall, hinv⟩ := acceptAll_inv clock os
  refine ⟨s, log, hall, fun key fromTick => ⟨fun hlo hhi => ?_, fun hlo hhi => ?_⟩⟩
  · rw [funext (SymbolBook.occupied_eq_bitAt (hinv key).bids)]
    exact (SymbolBook.highestBid_spec hlo hhi).1
  · rw [funext (SymbolBook.occupied_eq_bitAt (hinv key).asks)]
    exact (SymbolBook.lowestAsk_spec (hinv key).asks.above hlo hhi).1

end TradingSim
