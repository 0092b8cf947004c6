import TradingSim.OrderBook.LimitPrice
import TradingSim.OrderBook.Progress

/-!
Which prices are admitted. `acceptNewOrder` looks at the tick of a price alone, and the tick of a price
is that price in cents, plus one half, truncated toward zero. At and above zero that rounds to the
nearest cent. Just below zero it rounds up: every price between -1.5 cents and zero has the tick `0`,
which the check `tick < 0` lets through.

`price_admission` says for every state of the engine which orders are filed and where, and that an order
is filed as it should be exactly if its price is not of that kind. In a run without such prices, no order
that rests or trades has a negative price, and every order is within half a cent of its level.
-/

namespace TradingSim

open Lib

/-! ### Ticks -/

section Tick

variable {p : ℚ}

theorem priceToTick_nonneg_iff : 0 ≤ priceToTick p ↔ -3 / 200 < p := by
  unfold priceToTick truncate
  split
  · rename_i hx
    exact iff_of_true (Int.floor_nonneg.mpr hx) (by linarith)
  · have hceil : 0 ≤ ⌈p * 100 + 1 / 2⌉ ↔ ((-1 : ℤ) : ℚ) < p * 100 + 1 / 2 := by
      rw [← Int.lt_ceil]
      omega
    rw [hceil]
    push_cast
    constructor
    · intro h
      linarith
    · intro h
      linarith

theorem priceToTick_lt_iff {n : ℕ} (hn : 0 < n) : priceToTick p < n ↔ 100 * p + 1 / 2 < n := by
  have hpos : (0 : ℚ) < n := by exact_mod_cast hn
  unfold priceToTick truncate
  split
  · rw [Int.floor_lt, Int.cast_natCast, mul_comm]
  · rename_i hx
    have hceil : ⌈p * 100 + 1 / 2⌉ ≤ 0 := Int.ceil_le.mpr (by push_cast; linarith)
    exact iff_of_true (by omega) (by linarith)

theorem abs_sub_priceToTick (h : 0 ≤ p) : |100 * p - priceToTick p| ≤ 1 / 2 := by
  have hx : 0 ≤ p * 100 + 1 / 2 := by linarith
  have hle := Int.floor_le (p * 100 + 1 / 2)
  have hlt := Int.lt_floor_add_one (p * 100 + 1 / 2)
  rw [priceToTick, truncate, if_pos hx, abs_le]
  constructor <;> linarith

theorem priceToTick_of_neg (hneg : p < 0) (h : 0 ≤ priceToTick p) : priceToTick p = 0 := by
  have hlt := (priceToTick_lt_iff (p := p) one_pos).mpr (by push_cast; linarith)
  push_cast at hlt
  omega

theorem Order.At.admitted {o : Order} {l : Loc} (h : o.At l) : -3 / 200 < o.price := by
  rw [← priceToTick_nonneg_iff, h.2.2.1]
  exact Int.natCast_nonneg _

end Tick

/-! ### Filing -/

namespace OrderBook

/-- `acceptNewOrder` puts the order into the book of its symbol, at the tick `t`: that is where its
slot is when `matchOrders` is called. -/
def FilesAt (s : OrderBook) (order : Order) (t : ℤ) : Prop :=
  ∃ x m, s.file order = .ok (some (x, m)) ∧ ∃ i : Fin maxTicks, ((i : ℕ) : ℤ) = t ∧
    x ∈ walk (Slab.nx m.pool.slab) poolCapacity (m.level order.orderType i).head

/-- How an order is to be filed: only at a price that is not negative and within half a cent of its
tick, and at every such price that rounds to a tick of the book, as long as there is a slot. -/
def WellFiled (s : OrderBook) (order : Order) : Prop :=
  (∀ t, s.FilesAt order t →
    0 ≤ order.price ∧ 0 ≤ t ∧ t < maxTicks ∧ |100 * order.price - t| ≤ 1 / 2) ∧
  (0 < s.poolAvailable → 0 ≤ order.price → 100 * order.price + 1 / 2 < maxTicks →
    ∃ t, s.FilesAt order t)

variable {s : OrderBook} {v : View}

theorem filesAt_iff (h : Rep s.pool s.books v) (order : Order) (t : ℤ) : s.FilesAt order t ↔
    0 < s.poolAvailable ∧ priceToTick order.price = t ∧ 0 ≤ t ∧ t < maxTicks := by
  rw [poolAvailable_eq h, List.length_pos_iff]
  rcases file_spec h order with ⟨hnot, hfile, -⟩ | ⟨x, m, u, hAt, hfree, hfile, hm, -⟩
  · refine iff_of_false ?_ ?_
    · rintro ⟨x, m, hsome, -⟩
      simp [hfile] at hsome
    · rintro ⟨hfree, htick, h0, hlt⟩
      refine hfree (hnot (symKey order.symbol, order.orderType, t.toNat) ⟨rfl, rfl, ?_, ?_⟩)
      · simp only
        omega
      · simp only
        omega
  · have htick : priceToTick order.price = u := hAt.2.2.1
    have hu : u < maxTicks := hAt.2.2.2
    have hx : x ∈ (v.insert x order (symKey order.symbol, order.orderType, u)).queue
        (symKey order.symbol, order.orderType, u) := View.mem_insert_queue.mpr (Or.inr ⟨rfl, rfl⟩)
    constructor
    · rintro ⟨y, m', hsome, i, rfl, hy⟩
      obtain ⟨rfl, rfl⟩ : x = y ∧ m = m' := by simpa [hfile] using hsome
      rw [hm.level_walk] at hy
      have hloc := hm.wf.loc_unique hy hx
      have hiu : (i : ℕ) = u := by simpa using hloc
      exact ⟨hfree, by omega, by omega, by omega⟩
    · rintro ⟨-, rfl, -, -⟩
      refine ⟨x, m, hfile, ⟨u, hu⟩, htick.symm, ?_⟩
      rw [hm.level_walk]
      exact hx

theorem exists_filesAt_iff (h : Rep s.pool s.books v) (order : Order) : (∃ t, s.FilesAt order t) ↔
    0 < s.poolAvailable ∧ -3 / 200 < order.price ∧ 100 * order.price + 1 / 2 < maxTicks := by
  have hpos : 0 < maxTicks := by
    unfold maxTicks
    norm_num
  simp only [filesAt_iff h, exists_and_left, exists_eq_left']
  rw [priceToTick_nonneg_iff, priceToTick_lt_iff hpos]

theorem wellFiled_iff (h : Rep s.pool s.books v) (order : Order) : s.WellFiled order ↔
    s.poolAvailable = 0 ∨ order.price ≤ -3 / 200 ∨ 0 ≤ order.price := by
  constructor
  · intro ⟨hfiled, _⟩
    by_contra! hnot
    obtain ⟨hfree, hlow, hneg⟩ := hnot
    have htop : 100 * order.price + 1 / 2 < maxTicks := by
      unfold maxTicks
      push_cast
      linarith
    obtain ⟨t, ht⟩ := (exists_filesAt_iff h order).mpr ⟨Nat.pos_of_ne_zero hfree, hlow, htop⟩
    exact absurd (hfiled t ht).1 (not_le.mpr hneg)
  · intro hprice
    refine ⟨fun t ht => ?_, fun hfree h0 htop => ?_⟩
    · obtain ⟨hfree, rfl, hnonneg, hlt⟩ := (filesAt_iff h order t).mp ht
      have hlow : -3 / 200 < order.price := priceToTick_nonneg_iff.mp hnonneg
      have h0 : 0 ≤ order.price :=
        (hprice.resolve_left hfree.ne').resolve_left (not_le.mpr hlow)
      exact ⟨h0, hnonneg, hlt, abs_sub_priceToTick h0⟩
    · exact (exists_filesAt_iff h order).mpr ⟨hfree, by linarith, htop⟩

end OrderBook

/-! ### Runs -/

namespace View

variable {v v' : View} {os : List Order} {log : List Trade}

theorem From.price {l : Loc} {x : Slot} (h : v.From os) (hwf : v.WF) (hx : x ∈ v.queue l) :
    -3 / 200 < (v.cell x).price ∧ ∃ o ∈ os, (v.cell x).price = o.price := by
  obtain ⟨o, ho, q, hq⟩ := h l x hx
  exact ⟨(hwf.filed l x hx).admitted, o, ho, by rw [hq]⟩

theorem From.prices {k : UInt64} {tb ta : ℕ} {x y z : Slot} {σ : OrderType} {tr : Trade}
    (h : v.From os) (hwf : v.WF) (hc : v.Cross k tb ta x y) (htr : v.Reports z σ x y tr) :
    ∀ o' ∈ [tr.bidOrder, tr.askOrder], -3 / 200 < o'.price ∧ ∃ o ∈ os, o'.price = o.price := by
  rw [htr.bidOrder, htr.askOrder]
  refine List.forall_mem_cons.mpr ⟨h.price hwf (List.mem_of_mem_head? hc.bid), ?_⟩
  exact List.forall_mem_singleton.mpr (h.price hwf (List.mem_of_mem_head? hc.ask))

end View

namespace OrderBook

/-- **Price admission.** After every run, an order is filed if there is a slot for it, its price is
above -1.5 cents and it rounds to a tick of the book; a price that is not negative is filed within half
a cent, a negative one at the tick zero. So an order is filed as it should be exactly if there is no
slot for it or its price is not between -1.5 cents and zero. If no order of the run has such a price,
then no order with a negative price rests or has traded, and what rests is within half a cent of its
level. -/
theorem price_admission (clock : ℕ → Int64) (os : List Order) :
    ∃ s log, (new clock).acceptAll os = .ok (s, log) ∧
      (∀ order t, s.FilesAt order t → 0 ≤ t ∧ t < maxTicks ∧
        (0 ≤ order.price → |100 * order.price - t| ≤ 1 / 2) ∧ (order.price < 0 → t = 0)) ∧
      (∀ order, (∃ t, s.FilesAt order t) ↔
        0 < s.poolAvailable ∧ -3 / 200 < order.price ∧ 100 * order.price + 1 / 2 < maxTicks) ∧
      (∀ order, s.WellFiled order ↔
        s.poolAvailable = 0 ∨ order.price ≤ -3 / 200 ∨ 0 ≤ order.price) ∧
      ((∀ o ∈ os, o.price ≤ -3 / 200 ∨ 0 ≤ o.price) →
        (∀ key σ t, ∀ r ∈ s.resting key σ t, 0 ≤ r.price ∧ |100 * r.price - (t : ℕ)| ≤ 1 / 2) ∧
        ∀ tr ∈ log, 0 ≤ tr.bidOrder.price ∧ 0 ≤ tr.askOrder.price) := by
  obtain ⟨s, v, log, hall, hrun, hrep, -⟩ := acceptAll_new clock os
  refine ⟨s, log, hall, ?_, exists_filesAt_iff hrep, wellFiled_iff hrep, ?_⟩
  · intro order t hfiles
    obtain ⟨-, rfl, h0, hlt⟩ := (filesAt_iff hrep order t).mp hfiles
    exact ⟨h0, hlt, abs_sub_priceToTick, fun hneg => priceToTick_of_neg hneg h0⟩
  · intro hos
    have hnonneg : ∀ p : ℚ, (-3 / 200 < p ∧ ∃ o ∈ os, p = o.price) → 0 ≤ p := by
      rintro p ⟨hp, o, ho, rfl⟩
      exact (hos o ho).resolve_left (not_le.mpr hp)
    obtain ⟨hfrom, htrades⟩ := hrun.trades fun _ _ _ _ _ _ _ _ _ hwf hfrom hc htr =>
      hfrom.prices hwf hc htr
    refine ⟨fun key σ t r hr => ?_, fun tr htr => ?_⟩
    · rw [resting_eq hrep] at hr
      obtain ⟨x, hx, rfl⟩ := List.mem_map.mp hr
      have hprice := hnonneg _ (hfrom.price hrep.wf hx)
      have htick : priceToTick (v.cell x).price = ((t : ℕ) : ℤ) := (hrep.wf.filed _ x hx).2.2.1
      have hnear := abs_sub_priceToTick hprice
      rw [htick] at hnear
      exact ⟨hprice, by exact_mod_cast hnear⟩
    · exact ⟨hnonneg _ (htrades tr htr _ (by simp)), hnonneg _ (htrades tr htr _ (by simp))⟩

/-- An order of minus one cent is filed at the tick zero of the empty book, a whole cent away. -/
theorem price_admission_fails :
    (new fun _ => 0).FilesAt (Order.plain .sell (-1 / 100) 10) 0 ∧
      (Order.plain .sell (-1 / 100) 10).price < 0 ∧
      1 / 2 < |100 * (Order.plain .sell (-1 / 100) 10).price - 0| := by
  have hprice : (Order.plain .sell (-1 / 100) 10).price = -1 / 100 := rfl
  have havail : 0 < (new fun _ => 0).poolAvailable := by
    rw [poolAvailable_eq Rep.new]
    simp [View.new, poolCapacity]
  have hnonneg : 0 ≤ priceToTick (-1 / 100) := priceToTick_nonneg_iff.mpr (by norm_num)
  have htick : priceToTick (-1 / 100) = 0 := priceToTick_of_neg (by norm_num) hnonneg
  rw [filesAt_iff Rep.new, hprice]
  refine ⟨⟨havail, htick, le_rfl, ?_⟩, by norm_num, by norm_num⟩
  unfold maxTicks
  norm_num

end OrderBook

end TradingSim
