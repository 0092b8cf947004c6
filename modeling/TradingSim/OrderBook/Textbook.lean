import TradingSim.Lib.Priority
import TradingSim.OrderBook.Types

/-!
The textbook price-time-priority engine: what the matching engine is for, with nothing of how it is
built.

The state is the list of resting orders of each side, over all symbols, in priority order: best tick
first, and earliest arrival first within a tick. An incoming order walks down the opposite list,
trades with the orders of its own symbol while it crosses them, and what is left of it is filed
behind the orders of its tick. Quantities are integers, not machine words.
-/

namespace TradingSim

open Lib

/-- An order with its remaining quantity. -/
structure LimitOrder where
  id : CharArray 16
  symbol : CharArray 8
  side : OrderType
  price : ℚ
  quantity : ℤ
  arrivalNs : Int64
  deriving DecidableEq

/-- The order as the engine is given it. -/
def Order.limit (o : Order) : LimitOrder where
  id := o.id
  symbol := o.symbol
  side := o.orderType
  price := o.price
  quantity := o.quantity.toInt
  arrivalNs := o.arrivalNs

def LimitOrder.tick (o : LimitOrder) : ℤ := priceToTick o.price

/-- The order is of the symbol with key `k` and at tick `t`. -/
def LimitOrder.isAt (k : UInt64) (t : ℤ) (o : LimitOrder) : Bool :=
  decide (symKey o.symbol = k ∧ o.tick = t)

/-- What an execution says about a trade, apart from the time at which it was built. -/
structure Fill where
  buyId : CharArray 16
  sellId : CharArray 16
  symbol : CharArray 8
  quantity : ℚ
  tradePrice : ℚ
  side : Side
  orderArrivalNs : Int64
  deriving DecidableEq

def Execution.fill (e : Execution) : Fill where
  buyId := e.buyId
  sellId := e.sellId
  symbol := e.symbol
  quantity := e.quantity
  tradePrice := e.tradePrice
  side := e.side
  orderArrivalNs := e.orderArrivalNs

/-- The resting orders of each side, in priority order. -/
structure Textbook where
  resting : OrderType → List LimitOrder

namespace Textbook

/-- The rank of a tick on a side of the book: the highest bid and the lowest ask are best. -/
def rank : OrderType → ℤ → ℤ
  | .buy, t => -t
  | .sell, t => t

/-- An order of side `σ` at tick `t` crosses the tick `u` of the other side. -/
def Crosses : OrderType → ℤ → ℤ → Prop
  | .buy, t, u => u ≤ t
  | .sell, t, u => t ≤ u

instance (σ : OrderType) (t u : ℤ) : Decidable (Crosses σ t u) := by
  cases σ <;> unfold Crosses <;> infer_instance

theorem rank_opp (σ : OrderType) (t : ℤ) : rank σ.opp t = -rank σ t := by
  cases σ <;> simp [rank, OrderType.opp]

theorem rank_inj {σ : OrderType} {t u : ℤ} : rank σ t = rank σ u ↔ t = u := by
  cases σ <;> simp [rank]

theorem crosses_iff {σ : OrderType} {t u : ℤ} : Crosses σ t u ↔ rank σ t ≤ rank σ u := by
  cases σ <;> simp [rank, Crosses]

theorem Crosses.of_rank_le {σ : OrderType} {t u u' : ℤ} (h : Crosses σ t u)
    (hle : rank σ.opp u' ≤ rank σ.opp u) : Crosses σ t u' := by
  rw [rank_opp, rank_opp] at hle
  rw [crosses_iff] at h ⊢
  omega

/-- The incoming order `o` trades the quantity `q` with the resting order `r`: at the price of `r`,
stamped with the arrival of `o`. The names are copied as C strings. -/
def fill (o r : LimitOrder) (q : ℤ) : Fill where
  buyId := strncpy (match o.side with
    | .buy => o.id
    | .sell => r.id)
  sellId := strncpy (match o.side with
    | .buy => r.id
    | .sell => o.id)
  symbol := strncpy o.symbol
  quantity := q
  tradePrice := r.price
  side := match o.side with
    | .buy => .buy
    | .sell => .sell
  orderArrivalNs := o.arrivalNs

/-- The walk of the incoming order `o`, of which `n` is left, down the opposite side: the fills, the
orders that stay, and what is left of `o` in the end. -/
def sweep (o : LimitOrder) : ℤ → List LimitOrder → List Fill × List LimitOrder × ℤ
  | n, [] => ([], [], n)
  | n, r :: rs =>
    if r.symbol ≠ o.symbol then
      let (fills, rs', n') := sweep o n rs
      (fills, r :: rs', n')
    else if n = 0 ∨ ¬ Crosses o.side o.tick r.tick then ([], r :: rs, n)
    else
      let q := min n r.quantity
      let (fills, rs', n') := sweep o (n - q) rs
      (fill o r q :: fills,
        if r.quantity = q then rs' else { r with quantity := r.quantity - q } :: rs', n')

/-- How many orders rest. -/
def count (b : Textbook) : ℕ := (b.resting .buy).length + (b.resting .sell).length

/-- After the walk: the orders `rs` stay on the opposite side, and what is left of `o`, if anything,
rests behind the orders of its tick. -/
def file (b : Textbook) (o : LimitOrder) (rs : List LimitOrder) (n : ℤ) : Textbook where
  resting σ :=
    if σ = o.side then
      if n = 0 then b.resting σ
      else enqueue (fun r => rank σ r.tick) { o with quantity := n } (b.resting σ)
    else rs

/-- An incoming order. -/
def accept (b : Textbook) (o : LimitOrder) : Textbook × List Fill :=
  if o.tick < 0 ∨ o.tick ≥ maxTicks ∨ b.count ≥ 65536 then (b, [])
  else
    let (fills, rs, n) := sweep o o.quantity (b.resting o.side.opp)
    (b.file o rs n, fills)

/-- The incoming orders of a sequence. -/
def acceptAll : Textbook → List LimitOrder → Textbook × List Fill
  | b, [] => (b, [])
  | b, o :: os =>
    let (b, fills) := b.accept o
    let (b, fills') := b.acceptAll os
    (b, fills ++ fills')

/-- Nothing rests. -/
def empty : Textbook where
  resting _ := []

/-! ### Filing -/

section File

variable {b : Textbook} {o : LimitOrder} {n : ℤ} {rs : List LimitOrder}

theorem file_own : (b.file o rs n).resting o.side = if n = 0 then b.resting o.side
    else enqueue (fun r => rank o.side r.tick) { o with quantity := n } (b.resting o.side) :=
  if_pos rfl

theorem file_opp : (b.file o rs n).resting o.side.opp = rs := if_neg o.side.opp_ne

theorem count_eq (b : Textbook) (σ : OrderType) :
    b.count = (b.resting σ).length + (b.resting σ.opp).length := by
  cases σ with
  | buy => rfl
  | sell => exact Nat.add_comm _ _

theorem count_file :
    (b.file o rs n).count = (b.resting o.side).length + (if n = 0 then 0 else 1) + rs.length := by
  rw [count_eq _ o.side, file_own, file_opp]
  congr 1
  split
  · rfl
  · exact length_enqueue

theorem file_sorted (h : ∀ σ, Sorted (fun r => rank σ r.tick) (b.resting σ))
    (hrs : Sorted (fun r => rank o.side.opp r.tick) rs) (σ : OrderType) :
    Sorted (fun r => rank σ r.tick) ((b.file o rs n).resting σ) := by
  rcases o.side.eq_or_eq_opp σ with rfl | rfl
  · rw [file_own]
    split
    · exact h _
    · exact enqueue_sorted (h _)
  · rwa [file_opp]

theorem file_tick {P : ℤ → Prop} (h : ∀ σ, ∀ r ∈ b.resting σ, P r.tick) (ho : P o.tick)
    (hrs : ∀ r ∈ rs, P r.tick) (σ : OrderType) : ∀ r ∈ (b.file o rs n).resting σ, P r.tick := by
  intro r hr
  rcases o.side.eq_or_eq_opp σ with rfl | rfl
  · rw [file_own] at hr
    split at hr
    · exact h _ r hr
    · rcases mem_enqueue.mp hr with rfl | hr
      · exact ho
      · exact h _ r hr
  · rw [file_opp] at hr
    exact hrs r hr

end File

/-! ### The walk -/

section Sweep

variable {o : LimitOrder} {n : ℤ} {rs : List LimitOrder}

theorem sweep_cons_other {r : LimitOrder} (hsym : r.symbol ≠ o.symbol) : sweep o n (r :: rs) =
    ((sweep o n rs).1, r :: (sweep o n rs).2.1, (sweep o n rs).2.2) := by
  simp [sweep, hsym]

theorem sweep_cons_cross {r : LimitOrder} (hsym : r.symbol = o.symbol) (hn : n ≠ 0)
    (hc : Crosses o.side o.tick r.tick) : sweep o n (r :: rs) =
    (fill o r (min n r.quantity) :: (sweep o (n - min n r.quantity) rs).1,
      if r.quantity = min n r.quantity then (sweep o (n - min n r.quantity) rs).2.1
      else { r with quantity := r.quantity - min n r.quantity } ::
        (sweep o (n - min n r.quantity) rs).2.1,
      (sweep o (n - min n r.quantity) rs).2.2) := by
  simp [sweep, hsym, hn, hc]

theorem sweep_idle (h : n = 0 ∨ ∀ r ∈ rs, r.symbol = o.symbol → ¬ Crosses o.side o.tick r.tick) :
    sweep o n rs = ([], rs, n) := by
  induction rs with
  | nil => rfl
  | cons r rs ih =>
    have htail : sweep o n rs = ([], rs, n) :=
      ih (h.imp_right fun h r hr => h r (by simp [hr]))
    by_cases hsym : r.symbol = o.symbol
    · have hstop : n = 0 ∨ ¬ Crosses o.side o.tick r.tick := h.imp_right fun h => h r (by simp) hsym
      simp [sweep, hsym, hstop]
    · simp [sweep, hsym, htail]

theorem sweep_filter_other {p : LimitOrder → Bool} (hp : ∀ r, p r = true → r.symbol ≠ o.symbol) :
    (sweep o n rs).2.1.filter p = rs.filter p := by
  induction rs generalizing n with
  | nil => rfl
  | cons r rs ih =>
    by_cases hsym : r.symbol = o.symbol
    · have hskip : ∀ r' : LimitOrder, r'.symbol = o.symbol → p r' = false := fun r' hr' => by
        by_contra hc
        exact hp r' (by simpa using hc) hr'
      unfold sweep
      rw [if_neg (by simpa using hsym)]
      split
      · rfl
      · simp only
        rw [List.filter_cons_of_neg (by simp [hskip r hsym])]
        split
        · exact ih
        · rw [List.filter_cons_of_neg (by
            simpa using hskip { r with quantity := r.quantity - min n r.quantity } hsym)]
          exact ih
    · simp [sweep, hsym, List.filter_cons, ih]

theorem sweep_sublist :
    ((sweep o n rs).2.1.map LimitOrder.price).Sublist (rs.map LimitOrder.price) := by
  induction rs generalizing n with
  | nil => exact List.Sublist.refl _
  | cons r rs ih =>
    by_cases hsym : r.symbol = o.symbol
    · unfold sweep
      rw [if_neg (by simpa using hsym)]
      split
      · exact List.Sublist.refl _
      · simp only
        split
        · exact ih.cons _
        · exact ih.cons_cons _
    · simp only [sweep, hsym, ne_eq, not_false_eq_true, if_true, List.map_cons]
      exact ih.cons_cons _

theorem sweep_sorted {σ : OrderType} (h : Sorted (fun r => rank σ r.tick) rs) :
    Sorted (fun r => rank σ r.tick) (sweep o n rs).2.1 := by
  have hprices : (rs.map LimitOrder.price).Pairwise fun p q =>
      rank σ (priceToTick p) ≤ rank σ (priceToTick q) := List.pairwise_map.mpr h
  have hstay := hprices.sublist (sweep_sublist (o := o) (n := n))
  rw [List.pairwise_map] at hstay
  exact hstay

theorem sweep_tick {P : ℤ → Prop} (h : ∀ r ∈ rs, P r.tick) :
    ∀ r ∈ (sweep o n rs).2.1, P r.tick := by
  intro r hr
  obtain ⟨r', hr', hprice⟩ :=
    List.mem_map.mp ((sweep_sublist (o := o) (n := n)).subset (List.mem_map_of_mem hr))
  have htick : r'.tick = r.tick := congrArg priceToTick hprice
  rw [← htick]
  exact h r' hr'

theorem sum_quantity_nonneg {l : List LimitOrder} (hpos : ∀ r ∈ l, 0 < r.quantity) :
    0 ≤ (l.map LimitOrder.quantity).sum := by
  refine List.sum_nonneg fun q hq => ?_
  obtain ⟨r, hr, rfl⟩ := List.mem_map.mp hq
  exact (hpos r hr).le

theorem crosses_first {r r' : LimitOrder} (hsorted : Sorted (fun r => rank o.side.opp r.tick) (r :: rs))
    (hr' : r' ∈ r :: rs) (hc : Crosses o.side o.tick r'.tick) : Crosses o.side o.tick r.tick := by
  rcases List.mem_cons.mp hr' with rfl | hr'
  · exact hc
  · exact hc.of_rank_le ((List.pairwise_cons.mp hsorted).1 r' hr')

/-- **Whom the walk reaches**: every fill satisfies `W` exactly when each order of the symbol that is
crossed and fails `W` has enough in front of it to use up the incoming order. -/
theorem forall_fills_iff {W : ℚ → Prop} (hsorted : Sorted (fun r => rank o.side.opp r.tick) rs)
    (hpos : ∀ r ∈ rs, 0 < r.quantity) (hn : 0 ≤ n) :
    (∀ f ∈ (sweep o n rs).1, W f.tradePrice) ↔
      ∀ pre r post, rs.filter (fun r => decide (r.symbol = o.symbol)) = pre ++ r :: post →
        Crosses o.side o.tick r.tick → ¬ W r.price → n ≤ (pre.map LimitOrder.quantity).sum := by
  induction rs generalizing n with
  | nil => simp [sweep]
  | cons r rs ih =>
    obtain ⟨-, htail⟩ := List.pairwise_cons.mp hsorted
    obtain ⟨hrpos, hpos'⟩ := List.forall_mem_cons.mp hpos
    by_cases hsym : r.symbol = o.symbol
    swap
    · rw [sweep_cons_other hsym, List.filter_cons_of_neg (by simpa using hsym)]
      exact ih htail hpos' hn
    have hsplit : ∀ {pre r' post}, (r :: rs).filter (fun r => decide (r.symbol = o.symbol)) =
        pre ++ r' :: post → pre ⊆ r :: rs ∧ r' ∈ r :: rs := by
      intro pre r' post he
      have hsub : pre ++ r' :: post ⊆ r :: rs := he ▸ List.filter_subset_self _
      exact ⟨fun y hy => hsub (by simp [hy]), hsub (by simp)⟩
    by_cases hgo : n ≠ 0 ∧ Crosses o.side o.tick r.tick
    swap
    · -- the walk ends here
      have hidle : sweep o n (r :: rs) = ([], r :: rs, n) := by
        refine sweep_idle ?_
        by_cases hn0 : n = 0
        · exact Or.inl hn0
        · exact Or.inr fun r' hr' _ hcr => hgo ⟨hn0, crosses_first hsorted hr' hcr⟩
      rw [hidle]
      refine ⟨fun _ pre r' post he hcr _ => ?_, by simp⟩
      obtain ⟨hpre, hr'⟩ := hsplit he
      by_cases hn0 : n = 0
      · rw [hn0]
        exact sum_quantity_nonneg fun y hy => hpos y (hpre hy)
      · exact absurd ⟨hn0, crosses_first hsorted hr' hcr⟩ hgo
    · obtain ⟨hn0, hcr⟩ := hgo
      have hrest := ih (n := n - min n r.quantity) htail hpos' (by omega)
      rw [sweep_cons_cross hsym hn0 hcr, List.filter_cons_of_pos (by simpa using hsym),
        List.forall_mem_cons, hrest]
      constructor
      · rintro ⟨hW, hall⟩ pre r' post he hcr' hW'
        cases pre with
        | nil =>
          obtain ⟨rfl, -⟩ := List.cons.inj he
          exact absurd hW hW'
        | cons p pre =>
          obtain ⟨rfl, he'⟩ := List.cons.inj he
          have := hall pre r' post he' hcr' hW'
          simp only [List.map_cons, List.sum_cons]
          omega
      · intro hall
        refine ⟨?_, fun pre r' post he hcr' hW' => ?_⟩
        · by_contra hW
          have := hall [] r _ rfl hcr hW
          simp at this
          omega
        · have h1 := hall (r :: pre) r' post (by rw [he]; rfl) hcr' hW'
          have h2 : 0 ≤ (pre.map LimitOrder.quantity).sum := sum_quantity_nonneg fun y hy => by
            have hmem : y ∈ rs.filter (fun r => decide (r.symbol = o.symbol)) := by rw [he]; simp [hy]
            exact hpos' y (List.mem_of_mem_filter hmem)
          simp only [List.map_cons, List.sum_cons] at h1
          omega

end Sweep

end Textbook

end TradingSim
