import TradingSim.OrderBook.Refine
import TradingSim.OrderBook.Textbook

/-!
The matching engine is the textbook engine: a run of the view, with all quantities positive, reports
the fills and leaves the resting orders of the textbook run (`acceptAll_textbook`).

The code never matches "the incoming order": it files it and runs a loop over the two best levels.
The two agree because the book was not crossed before. If the new order crosses anything, it is
alone at its level and that level is the best of its side, so that it is one of the two orders of
every round until it is filled (`Incoming`); the induction is over the opposite list of the
textbook walk. Both sides are treated at once: `σ` is the side of the incoming order.
-/

namespace TradingSim

open Lib Textbook

/-! ### The two sides of a round -/

/-- Of something of the incoming side `σ` and something of the other side, the one that bids. -/
def OrderType.bid {α : Type} (σ : OrderType) (own other : α) : α :=
  match σ with
  | .buy => own
  | .sell => other

/-- The one that asks. -/
def OrderType.ask {α : Type} (σ : OrderType) (own other : α) : α :=
  match σ with
  | .buy => other
  | .sell => own

/-- The order of side `σ` in a trade. -/
def Trade.order (tr : Trade) : OrderType → Order
  | .buy => tr.bidOrder
  | .sell => tr.askOrder

namespace View

variable {v w v' : View} {k : UInt64} {σ : OrderType} {t u : ℕ} {x p : Slot}

theorem uncrossed_iff (σ : OrderType) : v.Uncrossed k ↔ ∀ t u : ℕ, v.queue (k, σ, t) ≠ [] →
    v.queue (k, σ.opp, u) ≠ [] → ¬ Crosses σ t u := by
  cases σ with
  | buy => simp [Uncrossed, Crosses, OrderType.opp]
  | sell =>
    simp only [Uncrossed, Crosses, OrderType.opp, Int.ofNat_le, not_le]
    exact ⟨fun h t u ht hu => h u t hu ht, fun h t u ht hu => h u t hu ht⟩

/-- Nothing on its own side is as good as an order that crosses an occupied level. -/
theorem Settled.empty_of_crosses (hv : v.Settled) (hu : v.queue (k, σ.opp, u) ≠ [])
    (hcr : Crosses σ t u) {s : ℕ} (hs : rank σ s ≤ rank σ t) : v.queue (k, σ, s) = [] := by
  by_contra hne
  apply (uncrossed_iff σ).mp (hv.uncrossed k) s u hne hu
  exact crosses_iff.mpr (hs.trans (crosses_iff.mp hcr))

/-- A book stays uncrossed when the order that is filed crosses no occupied level. -/
theorem Settled.insert_uncrossed {o : Order} (hv : v.Settled)
    (hno : ∀ u : ℕ, v.queue (k, σ.opp, u) ≠ [] → ¬ Crosses σ t u) :
    (v.insert x o (k, σ, t)).Uncrossed k := by
  rw [uncrossed_iff σ]
  intro s u hs hu
  rw [insert_queue_other (by simp [σ.opp_ne])] at hu
  by_cases hst : s = t
  · subst hst
    exact hno u hu
  · rw [insert_queue_other (by simp [hst])] at hs
    exact (uncrossed_iff σ).mp (hv.uncrossed k) s u hs hu

/-- `x` is the front of the best level of its side. -/
structure Top (v : View) (k : UInt64) (σ : OrderType) (t : ℕ) (x : Slot) : Prop where
  front : (v.queue (k, σ, t)).head? = some x
  best : ∀ u : ℕ, rank σ u < rank σ t → v.queue (k, σ, u) = []

theorem Top.ne_nil (h : v.Top k σ t x) : v.queue (k, σ, t) ≠ [] := fun e => by
  have := h.front
  rw [e] at this
  cases this

theorem Top.unique {t' : ℕ} {x' : Slot} (h : v.Top k σ t x) (h' : v.Top k σ t' x') :
    t = t' ∧ x = x' := by
  have h1 : ¬ rank σ t < rank σ t' := fun hlt => h.ne_nil (h'.best t hlt)
  have h2 : ¬ rank σ t' < rank σ t := fun hlt => h'.ne_nil (h.best t' hlt)
  have ht : t = t' := by
    have := rank_inj.mp (le_antisymm (not_lt.mp h2) (not_lt.mp h1))
    omega
  subst ht
  exact ⟨rfl, by simpa using h.front.symm.trans h'.front⟩

theorem Cross.topBid {tb ta : ℕ} {b a : Slot} (h : v.Cross k tb ta b a) : v.Top k .buy tb b :=
  ⟨h.bid, fun u hu => h.bestBid u (by simpa [rank] using hu)⟩

theorem Cross.topAsk {tb ta : ℕ} {b a : Slot} (h : v.Cross k tb ta b a) : v.Top k .sell ta a :=
  ⟨h.ask, fun u hu => h.bestAsk u (by simpa [rank] using hu)⟩

theorem Cross.eq_tops {tb ta : ℕ} {b a : Slot} (h : v.Cross k tb ta b a) (hx : v.Top k σ t x)
    (hp : v.Top k σ.opp u p) :
    tb = σ.bid t u ∧ ta = σ.ask t u ∧ b = σ.bid x p ∧ a = σ.ask x p := by
  have hb := h.topBid
  have ha := h.topAsk
  cases σ with
  | buy =>
    obtain ⟨rfl, rfl⟩ := hb.unique hx
    obtain ⟨rfl, rfl⟩ := ha.unique hp
    exact ⟨rfl, rfl, rfl, rfl⟩
  | sell =>
    obtain ⟨rfl, rfl⟩ := hb.unique hp
    obtain ⟨rfl, rfl⟩ := ha.unique hx
    exact ⟨rfl, rfl, rfl, rfl⟩

/-! ### A round on positive quantities -/

/-- What a round trades, as a number. -/
def fillQty (v : View) (x p : Slot) : ℤ := min (v.cell x).limit.quantity (v.cell p).limit.quantity

/-- `w` is `v` after the incoming order in slot `x` and the resting order in slot `p` have traded. -/
structure Exchange (v w : View) (k : UInt64) (σ : OrderType) (t u : ℕ) (x p : Slot) : Prop where
  own : (w.cell x).limit =
    { (v.cell x).limit with quantity := (v.cell x).limit.quantity - v.fillQty x p }
  other : (w.cell p).limit =
    { (v.cell p).limit with quantity := (v.cell p).limit.quantity - v.fillQty x p }
  cell : ∀ y, y ≠ x → y ≠ p → w.cell y = v.cell y
  ownQueue : w.queue (k, σ, t) = if (v.cell x).limit.quantity = v.fillQty x p
    then (v.queue (k, σ, t)).tail else v.queue (k, σ, t)
  otherQueue : w.queue (k, σ.opp, u) = if (v.cell p).limit.quantity = v.fillQty x p
    then (v.queue (k, σ.opp, u)).tail else v.queue (k, σ.opp, u)
  queue : ∀ l, l ≠ (k, σ, t) → l ≠ (k, σ.opp, u) → w.queue l = v.queue l
  free : w.free.length = v.free.length +
    (if (v.cell x).limit.quantity = v.fillQty x p then 1 else 0) +
    if (v.cell p).limit.quantity = v.fillQty x p then 1 else 0

theorem toInt_tradeQty (σ : OrderType) :
    (v.tradeQty (σ.bid x p) (σ.ask x p)).toInt = v.fillQty x p := by
  unfold tradeQty fillQty
  rw [toInt_minQty]
  cases σ with
  | buy => exact min_comm _ _
  | sell => rfl

theorem exchange (hne : x ≠ p) (hx : 0 < (v.cell x).limit.quantity)
    (hp : 0 < (v.cell p).limit.quantity) :
    Exchange v (v.trade k (σ.bid t u) (σ.ask t u) (σ.bid x p) (σ.ask x p)) k σ t u x p := by
  have hqty := toInt_tradeQty (v := v) (x := x) (p := p) σ
  have hle : v.fillQty x p ≤ (v.cell x).limit.quantity ∧ v.fillQty x p ≤ (v.cell p).limit.quantity ∧
      0 < v.fillQty x p := ⟨min_le_left _ _, min_le_right _ _, lt_min hx hp⟩
  -- the numbers behind the words: a subtraction is exact, and an order is filled when its number is
  have hsub : ∀ y, v.fillQty x p ≤ (v.cell y).limit.quantity → ({ v.cell y with
      quantity := (v.cell y).quantity - v.tradeQty (σ.bid x p) (σ.ask x p) } : Order).limit =
      { (v.cell y).limit with quantity := (v.cell y).limit.quantity - v.fillQty x p } := by
    intro y hy
    have := toInt_sub_of_le (p := (v.cell y).quantity) (by rw [hqty]; exact hle.2.2)
      (by rw [hqty]; exact hy)
    simp only [Order.limit, this, hqty]
  have hfilled : ∀ y, (v.cell y).quantity = v.tradeQty (σ.bid x p) (σ.ask x p) ↔
      (v.cell y).limit.quantity = v.fillQty x p := fun y => by
    rw [← hqty]
    exact Int32.toInt_inj.symm
  cases σ with
  | buy =>
    refine ⟨?_, ?_, fun y hy hy' => trade_cell_other hy hy', ?_, ?_, fun l hl hl' =>
      trade_queue_other hl hl', ?_⟩
    · exact (congrArg Order.limit (trade_cell_bid hne)).trans (hsub x hle.1)
    · exact (congrArg Order.limit (trade_cell_ask hne)).trans (hsub p hle.2.1)
    · exact (trade_queue_bid hne).trans (if_congr (hfilled x) rfl rfl)
    · exact (trade_queue_ask hne).trans (if_congr (hfilled p) rfl rfl)
    · exact (length_trade_free hne).trans (congrArg₂ (v.free.length + · + ·)
        (if_congr (hfilled x) rfl rfl) (if_congr (hfilled p) rfl rfl))
  | sell =>
    refine ⟨?_, ?_, fun y hy hy' => trade_cell_other hy' hy, ?_, ?_, fun l hl hl' =>
      trade_queue_other hl' hl, ?_⟩
    · exact (congrArg Order.limit (trade_cell_ask hne.symm)).trans (hsub x hle.1)
    · exact (congrArg Order.limit (trade_cell_bid hne.symm)).trans (hsub p hle.2.1)
    · exact (trade_queue_ask hne.symm).trans (if_congr (hfilled x) rfl rfl)
    · exact (trade_queue_bid hne.symm).trans (if_congr (hfilled p) rfl rfl)
    · exact (length_trade_free hne.symm).trans ((add_right_comm _ _ _).trans
        (congrArg₂ (v.free.length + · + ·) (if_congr (hfilled x) rfl rfl)
          (if_congr (hfilled p) rfl rfl)))

theorem Reports.fill_eq {tr : Trade} (h : v.Reports x σ (σ.bid x p) (σ.ask x p) tr)
    (hσ : (v.cell x).orderType = σ) :
    tr.exec.fill = fill (v.cell x).limit (v.cell p).limit (v.fillQty x p) ∧
      tr.order σ = v.cell x := by
  obtain ⟨-, -, hb, ha, now, hexec⟩ := h
  have hqty := toInt_tradeQty (v := v) (x := x) (p := p) σ
  cases σ with
  | buy =>
    refine ⟨?_, hb⟩
    simp only [hexec, Execution.fill, buildExecution, fill, Order.limit, hσ, hqty]
    rfl
  | sell =>
    refine ⟨?_, ha⟩
    simp only [hexec, Execution.fill, buildExecution, fill, Order.limit, hσ, hqty]
    rfl

/-! ### What a round leaves -/

/-- The orders queued at a place. -/
def orders (v : View) (l : Loc) : List LimitOrder := (v.queue l).map fun y => (v.cell y).limit

/-- Every queued order has something left. -/
def Positive (v : View) : Prop := ∀ l, ∀ y ∈ v.queue l, 0 < (v.cell y).limit.quantity

theorem orders_congr {l : Loc} (hq : w.queue l = v.queue l)
    (hc : ∀ y ∈ v.queue l, w.cell y = v.cell y) : w.orders l = v.orders l := by
  unfold orders
  rw [hq]
  exact List.map_congr_left fun y hy => by rw [hc y hy]

namespace Exchange

variable {xs ps : List Slot} {l : Loc} {y : Slot}

theorem mem_queue (h : Exchange v w k σ t u x p) (hwf : v.WF) (hx : v.queue (k, σ, t) = x :: xs)
    (hp : v.queue (k, σ.opp, u) = p :: ps) (hy : y ∈ w.queue l) : y ∈ v.queue l ∧
      (y = x → (v.cell x).limit.quantity ≠ v.fillQty x p) ∧
      (y = p → (v.cell p).limit.quantity ≠ v.fillQty x p) := by
  have hne : (k, σ, t) ≠ (k, σ.opp, u) := by simp [σ.opp_ne.symm]
  apply (hwf.mem_popFronts hne ?_ ?_ h.ownQueue h.otherQueue h.queue).mp hy
  · rw [hx, List.head?_cons]
  · rw [hp, List.head?_cons]

theorem ne_nil (h : Exchange v w k σ t u x p) (hwf : v.WF) (hx : v.queue (k, σ, t) = x :: xs)
    (hp : v.queue (k, σ.opp, u) = p :: ps) (hl : w.queue l ≠ []) : v.queue l ≠ [] := by
  obtain ⟨y, ys, hq⟩ := List.exists_cons_of_ne_nil hl
  exact List.ne_nil_of_mem (h.mem_queue hwf hx hp (y := y) (by rw [hq]; simp)).1

theorem positive (h : Exchange v w k σ t u x p) (hwf : v.WF) (hx : v.queue (k, σ, t) = x :: xs)
    (hp : v.queue (k, σ.opp, u) = p :: ps) (hpos : v.Positive) : w.Positive := by
  intro l y hy
  obtain ⟨hmem, hnx, hnp⟩ := h.mem_queue hwf hx hp hy
  have hle : v.fillQty x p ≤ (v.cell x).limit.quantity ∧ v.fillQty x p ≤ (v.cell p).limit.quantity :=
    ⟨min_le_left _ _, min_le_right _ _⟩
  by_cases hyx : y = x
  · have := hnx hyx
    rw [hyx, h.own]
    show 0 < (v.cell x).limit.quantity - v.fillQty x p
    omega
  by_cases hyp : y = p
  · have := hnp hyp
    rw [hyp, h.other]
    show 0 < (v.cell p).limit.quantity - v.fillQty x p
    omega
  · rw [h.cell y hyx hyp]
    exact hpos l y hmem

theorem orders_frame (h : Exchange v w k σ t u x p) (hwf : v.WF) (hx : v.queue (k, σ, t) = x :: xs)
    (hp : v.queue (k, σ.opp, u) = p :: ps) (hlx : l ≠ (k, σ, t)) (hlp : l ≠ (k, σ.opp, u)) :
    w.orders l = v.orders l := by
  refine orders_congr (h.queue l hlx hlp) fun y hy => h.cell y ?_ ?_
  · rintro rfl
    exact hlx (hwf.loc_unique hy (by rw [hx]; simp))
  · rintro rfl
    exact hlp (hwf.loc_unique hy (by rw [hp]; simp))

/-- The level of the resting order: it leaves, or keeps its place with less. -/
theorem orders_other (h : Exchange v w k σ t u x p) (hwf : v.WF) (hx : v.queue (k, σ, t) = x :: xs)
    (hp : v.queue (k, σ.opp, u) = p :: ps) : w.orders (k, σ.opp, u) =
      (if (v.cell p).limit.quantity = v.fillQty x p then []
        else [{ (v.cell p).limit with quantity := (v.cell p).limit.quantity - v.fillQty x p }]) ++
      ps.map fun y => (v.cell y).limit := by
  have hpnd := hwf.nodup (k, σ.opp, u)
  rw [hp] at hpnd
  have hps : ps.map (fun y => (w.cell y).limit) = ps.map fun y => (v.cell y).limit := by
    refine List.map_congr_left fun y hy => congrArg Order.limit (h.cell y ?_ ?_)
    · rintro rfl
      have hown : y ∈ v.queue (k, σ, t) := by rw [hx]; simp
      have hother : y ∈ v.queue (k, σ.opp, u) := by rw [hp]; simp [hy]
      simpa [σ.opp_ne.symm] using hwf.loc_unique hown hother
    · rintro rfl
      exact (List.nodup_cons.mp hpnd).1 hy
  unfold orders
  rw [h.otherQueue, hp]
  split
  · simp [hps]
  · simp [hps, h.other]

end Exchange

/-! ### The incoming order -/

theorem Sweep.eq_of_uncrossed {log : List Trade} (hs : Sweep k x σ v log v') (h : v.Uncrossed k) :
    log = [] ∧ v' = v := by
  cases hs with
  | done _ => exact ⟨rfl, rfl⟩
  | round hc _ _ =>
    have hlt := h _ _ hc.bid_ne_nil hc.ask_ne_nil
    have := hc.cross
    omega

/-- Inside a sweep: `n` is left of the incoming order `o`, in slot `x`. It is alone at the best level
of its side, nothing else of its side crosses, and `rs` is the opposite list of the textbook. -/
structure Incoming (v : View) (k : UInt64) (σ : OrderType) (t : ℕ) (x : Slot) (o : LimitOrder)
    (n : ℤ) (rs : List LimitOrder) : Prop where
  wf : v.WF
  pos : v.Positive
  order : (v.cell x).limit = { o with quantity := n }
  own : v.queue (k, σ, t) = [x]
  best : ∀ u : ℕ, rank σ u < rank σ t → v.queue (k, σ, u) = []
  rest : ∀ s u : ℕ, s ≠ t → v.queue (k, σ, s) ≠ [] → v.queue (k, σ.opp, u) ≠ [] → ¬ Crosses σ s u
  other : ∀ u : ℕ, v.orders (k, σ.opp, u) = rs.filter (LimitOrder.isAt k u)
  sorted : Sorted (fun r => rank σ.opp r.tick) rs
  range : ∀ r ∈ rs, ∃ u : ℕ, r.tick = u

/-- What a sweep from `v` to `v'` comes to, against the result of the textbook walk down `rs`. -/
structure Outcome (v v' : View) (k : UInt64) (σ : OrderType) (t : ℕ) (x : Slot) (o : LimitOrder)
    (rs : List LimitOrder) (log : List Trade) (res : List Fill × List LimitOrder × ℤ) : Prop where
  fills : log.map (fun tr => tr.exec.fill) = res.1
  /-- Every trade is one of the incoming order. -/
  mine : ∀ tr ∈ log, ∃ n, (tr.order σ).limit = { o with quantity := n }
  other : ∀ u : ℕ, v'.orders (k, σ.opp, u) = res.2.1.filter (LimitOrder.isAt k u)
  own : v'.orders (k, σ, t) = if res.2.2 = 0 then [] else [{ o with quantity := res.2.2 }]
  /-- The other levels, and those of the other symbols, keep their orders. -/
  frame : ∀ l, l ≠ (k, σ, t) → (∀ u, l ≠ (k, σ.opp, u)) → v'.orders l = v.orders l
  pos : v'.Positive
  /-- Every slot is accounted for. -/
  count : v'.free.length + res.2.1.length + (if res.2.2 = 0 then 0 else 1) =
    v.free.length + rs.length + 1

theorem Outcome.cons_other {o r : LimitOrder} {n : ℤ} {rs : List LimitOrder} {log : List Trade}
    (h : Outcome v v' k σ t x o rs log (sweep o n rs)) (hat : ∀ u, ¬ r.isAt k u = true)
    (hsym : r.symbol ≠ o.symbol) :
    Outcome v v' k σ t x o (r :: rs) log (sweep o n (r :: rs)) := by
  rw [sweep_cons_other hsym]
  refine ⟨h.fills, h.mine, fun u => ?_, h.own, h.frame, h.pos, ?_⟩
  · rw [h.other u, List.filter_cons_of_neg (hat u)]
  · have := h.count
    simp only [List.length_cons]
    omega

namespace Incoming

variable {o r : LimitOrder} {n : ℤ} {rs : List LimitOrder} {log : List Trade}

theorem mem (h : Incoming v k σ t x o n rs) : x ∈ v.queue (k, σ, t) := by rw [h.own]; simp

theorem left_pos (h : Incoming v k σ t x o n rs) : 0 < n := by
  have := h.pos _ x h.mem
  rwa [h.order] at this

theorem fields (h : Incoming v k σ t x o n rs) : symKey o.symbol = k ∧ o.side = σ ∧ o.tick = t := by
  obtain ⟨hk, hσ, ht, -⟩ := h.wf.filed _ x h.mem
  have h1 : (v.cell x).symbol = o.symbol := congrArg LimitOrder.symbol h.order
  have h2 : (v.cell x).orderType = o.side := congrArg LimitOrder.side h.order
  have h3 : (v.cell x).price = o.price := congrArg LimitOrder.price h.order
  rw [h1] at hk
  rw [h2] at hσ
  rw [h3] at ht
  exact ⟨hk, hσ, ht⟩

theorem crosses (h : Incoming v k σ t x o n rs) {u : ℤ} (hcr : Crosses σ t u) :
    Crosses o.side o.tick u := by
  obtain ⟨-, hσ, ht⟩ := h.fields
  rwa [hσ, ht]

theorem isAt_iff (h : Incoming v k σ t x o n rs) {u : ℤ} :
    r.isAt k u = true ↔ r.symbol = o.symbol ∧ r.tick = u := by
  unfold LimitOrder.isAt
  rw [decide_eq_true_eq, ← h.fields.1]
  exact and_congr_left fun _ => symKey_injective.eq_iff

theorem exists_of_ne_nil (h : Incoming v k σ t x o n rs) (hu : v.queue (k, σ.opp, u) ≠ []) :
    ∃ r ∈ rs, r.symbol = o.symbol ∧ r.tick = u := by
  obtain ⟨y, ys, hq⟩ := List.exists_cons_of_ne_nil hu
  have hmem : (v.cell y).limit ∈ rs.filter (LimitOrder.isAt k u) := by
    rw [← h.other u, orders, hq]
    simp
  obtain ⟨hr, hat⟩ := List.mem_filter.mp hmem
  exact ⟨_, hr, h.isAt_iff.mp hat⟩

theorem uncrossed (h : Incoming v k σ t x o n rs)
    (hn : ∀ r ∈ rs, r.symbol = o.symbol → ¬ Crosses σ t r.tick) : v.Uncrossed k := by
  rw [uncrossed_iff σ]
  intro s u hs hu
  by_cases hst : s = t
  · subst hst
    obtain ⟨r, hr, hsym, htick⟩ := h.exists_of_ne_nil hu
    rw [← htick]
    exact hn r hr hsym
  · exact h.rest s u hst hs hu

theorem idle (h : Incoming v k σ t x o n rs)
    (hn : ∀ r ∈ rs, r.symbol = o.symbol → ¬ Crosses σ t r.tick) (hs : Sweep k x σ v log v') :
    Outcome v v' k σ t x o rs log (sweep o n rs) := by
  obtain ⟨rfl, rfl⟩ := hs.eq_of_uncrossed (h.uncrossed hn)
  have hn0 : n ≠ 0 := h.left_pos.ne'
  obtain ⟨-, hσ, ht⟩ := h.fields
  rw [sweep_idle (Or.inr (by rwa [hσ, ht]))]
  refine ⟨rfl, by simp, h.other, ?_, fun _ _ _ => rfl, h.pos, ?_⟩
  · simp [orders, h.own, hn0, h.order]
  · simp only [if_neg hn0]

theorem skip (h : Incoming v k σ t x o n (r :: rs)) (hsym : r.symbol ≠ o.symbol) :
    Incoming v k σ t x o n rs := by
  refine ⟨h.wf, h.pos, h.order, h.own, h.best, h.rest, fun u => ?_, (List.pairwise_cons.mp h.sorted).2,
    fun r hr => h.range r (by simp [hr])⟩
  rw [h.other u, List.filter_cons_of_neg fun hat => hsym (h.isAt_iff.mp hat).1]

/-- The resting order that the walk has come to: it is in slot `p`, at the front of the best level of
its side. -/
structure Facing (v : View) (k : UInt64) (σ : OrderType) (u : ℕ) (p : Slot) (ps : List Slot)
    (r : LimitOrder) (rs : List LimitOrder) : Prop where
  tick : r.tick = u
  queue : v.queue (k, σ.opp, u) = p :: ps
  order : (v.cell p).limit = r
  behind : ps.map (fun y => (v.cell y).limit) = rs.filter (LimitOrder.isAt k u)
  best : ∀ s : ℕ, rank σ.opp s < rank σ.opp u → v.queue (k, σ.opp, s) = []

theorem facing (h : Incoming v k σ t x o n (r :: rs)) (hsym : r.symbol = o.symbol) :
    ∃ u p ps, Facing v k σ u p ps r rs := by
  obtain ⟨u, hu⟩ := h.range r (by simp)
  have hlevel := h.other u
  rw [List.filter_cons_of_pos (h.isAt_iff.mpr ⟨hsym, hu⟩)] at hlevel
  obtain ⟨p, ps, hq, hp, hps⟩ := List.map_eq_cons_iff.mp hlevel
  refine ⟨u, p, ps, hu, hq, hp, hps, fun s hs => ?_⟩
  -- a better level would hold an order that comes before `r`
  by_contra hne
  obtain ⟨r', hr', -, htick⟩ := h.exists_of_ne_nil hne
  rw [← htick, ← hu] at hs
  rcases List.mem_cons.mp hr' with rfl | hr'
  · exact lt_irrefl _ hs
  · exact absurd ((List.pairwise_cons.mp h.sorted).1 r' hr') (not_le.mpr hs)

section Round

variable {ps : List Slot}

theorem fillQty_eq (h : Incoming v k σ t x o n (r :: rs)) (hf : Facing v k σ u p ps r rs) :
    v.fillQty x p = min n r.quantity := by
  unfold fillQty
  rw [h.order, hf.order]

theorem ownQuantity (h : Incoming v k σ t x o n rs) : (v.cell x).limit.quantity = n := by
  rw [h.order]

theorem advance (h : Incoming v k σ t x o n (r :: rs)) (hf : Facing v k σ u p ps r rs)
    (hex : Exchange v w k σ t u x p) (hw : w.WF) (hlt : r.quantity < n) :
    Incoming w k σ t x o (n - r.quantity) rs := by
  have hfill : v.fillQty x p = r.quantity := (h.fillQty_eq hf).trans (min_eq_right hlt.le)
  have hside : ∀ s u' : ℕ, (k, σ, s) ≠ (k, σ.opp, u') := fun s u' => by simp [σ.opp_ne.symm]
  have hown : ∀ s : ℕ, s ≠ t → w.queue (k, σ, s) = v.queue (k, σ, s) := fun s hs =>
    hex.queue _ (by simp [hs]) (hside s u)
  refine ⟨hw, hex.positive h.wf h.own hf.queue h.pos, ?_, ?_, fun s hs => ?_, fun s u' hst hs hu' => ?_,
    fun u' => ?_, (List.pairwise_cons.mp h.sorted).2, fun r' hr' => h.range r' (by simp [hr'])⟩
  · rw [hex.own, h.order, hfill]
  · rw [hex.ownQueue, h.ownQuantity, hfill, if_neg hlt.ne', h.own]
  · rw [hown s (by rintro rfl; exact lt_irrefl _ hs)]
    exact h.best s hs
  · rw [hown s hst] at hs
    exact h.rest s u' hst hs (hex.ne_nil h.wf h.own hf.queue hu')
  · by_cases hu' : u' = u
    · subst hu'
      rw [hex.orders_other h.wf h.own hf.queue, hf.order, hfill, if_pos rfl, List.nil_append,
        hf.behind]
    · have hat : ¬ r.isAt k u' = true := fun hat => hu' (by
        have := (h.isAt_iff.mp hat).2.symm.trans hf.tick
        omega)
      rw [hex.orders_frame h.wf h.own hf.queue (hside t u').symm (by simp [hu']), h.other u',
        List.filter_cons_of_neg hat]

theorem uncrossed_of_filled (h : Incoming v k σ t x o n (r :: rs)) (hf : Facing v k σ u p ps r rs)
    (hex : Exchange v w k σ t u x p) (hge : n ≤ r.quantity) : w.Uncrossed k := by
  have hfill : v.fillQty x p = n := (h.fillQty_eq hf).trans (min_eq_left hge)
  rw [uncrossed_iff σ]
  intro s u' hs hu'
  by_cases hst : s = t
  · subst hst
    refine absurd ?_ hs
    rw [hex.ownQueue, h.ownQuantity, hfill, if_pos rfl, h.own]
    rfl
  · exact h.rest s u' hst (hex.ne_nil h.wf h.own hf.queue hs) (hex.ne_nil h.wf h.own hf.queue hu')

theorem outcome_advance {tr : Trade} (h : Incoming v k σ t x o n (r :: rs))
    (hf : Facing v k σ u p ps r rs) (hex : Exchange v w k σ t u x p) (hsym : r.symbol = o.symbol)
    (hcr : Crosses σ t r.tick) (hlt : r.quantity < n)
    (hfill : tr.exec.fill = fill { o with quantity := n } r (min n r.quantity))
    (hmine : (tr.order σ).limit = { o with quantity := n })
    (hout : Outcome w v' k σ t x o rs log (sweep o (n - r.quantity) rs)) :
    Outcome v v' k σ t x o (r :: rs) (tr :: log) (sweep o n (r :: rs)) := by
  rw [sweep_cons_cross hsym h.left_pos.ne' (h.crosses hcr)]
  have hmin : min n r.quantity = r.quantity := min_eq_right hlt.le
  have hqty : v.fillQty x p = r.quantity := (h.fillQty_eq hf).trans hmin
  rw [hmin] at hfill ⊢
  rw [if_pos rfl]
  refine ⟨?_, List.forall_mem_cons.mpr ⟨⟨n, hmine⟩, hout.mine⟩, hout.other, hout.own,
    fun l hl hl' => (hout.frame l hl hl').trans (hex.orders_frame h.wf h.own hf.queue hl (hl' u)),
    hout.pos, ?_⟩
  · rw [List.map_cons, hout.fills, hfill]
    rfl
  · have hfree := hex.free
    rw [h.ownQuantity, hf.order, hqty, if_neg hlt.ne', if_pos rfl] at hfree
    have := hout.count
    simp only [List.length_cons]
    omega

theorem outcome_filled {tr : Trade} (h : Incoming v k σ t x o n (r :: rs))
    (hf : Facing v k σ u p ps r rs) (hex : Exchange v w k σ t u x p) (hsym : r.symbol = o.symbol)
    (hcr : Crosses σ t r.tick) (hge : n ≤ r.quantity)
    (hfill : tr.exec.fill = fill { o with quantity := n } r (min n r.quantity))
    (hmine : (tr.order σ).limit = { o with quantity := n }) :
    Outcome v w k σ t x o (r :: rs) [tr] (sweep o n (r :: rs)) := by
  rw [sweep_cons_cross hsym h.left_pos.ne' (h.crosses hcr)]
  have hmin : min n r.quantity = n := min_eq_left hge
  have hqty : v.fillQty x p = n := (h.fillQty_eq hf).trans hmin
  rw [hmin] at hfill ⊢
  rw [sub_self, sweep_idle (Or.inl rfl)]
  have hat : ∀ m : ℤ, ({ r with quantity := m } : LimitOrder).isAt k u = true := fun m =>
    h.isAt_iff.mpr ⟨hsym, hf.tick⟩
  refine ⟨?_, by simpa using ⟨n, hmine⟩, fun u' => ?_, ?_, fun l hl hl' =>
    hex.orders_frame h.wf h.own hf.queue hl (hl' u), hex.positive h.wf h.own hf.queue h.pos, ?_⟩
  · rw [List.map_cons, hfill]
    rfl
  · by_cases hu' : u' = u
    · subst hu'
      rw [hex.orders_other h.wf h.own hf.queue, hf.order, hqty, hf.behind]
      split
      · rfl
      · rw [List.filter_cons_of_pos (hat _)]
        rfl
    · have hat' : ∀ m : ℤ, ¬ ({ r with quantity := m } : LimitOrder).isAt k u' = true := fun m hm =>
        hu' (by
          have := (h.isAt_iff.mp hm).2.symm.trans hf.tick
          omega)
      rw [hex.orders_frame h.wf h.own hf.queue (by simp [σ.opp_ne]) (by simp [hu']), h.other u',
        List.filter_cons_of_neg (hat' r.quantity)]
      split
      · rfl
      · rw [List.filter_cons_of_neg (hat' _)]
  · simp [orders, hex.ownQueue, h.ownQuantity, hqty, h.own]
  · have hfree := hex.free
    rw [h.ownQuantity, hf.order, hqty, if_pos rfl] at hfree
    simp only [List.length_cons, apply_ite List.length, if_true]
    split at hfree
    · rename_i hr
      rw [if_pos hr]
      omega
    · rename_i hr
      rw [if_neg hr]
      omega

end Round

/-- **A sweep is the textbook walk**, by induction on the opposite list. -/
theorem outcome (h : Incoming v k σ t x o n rs) (hs : Sweep k x σ v log v') :
    Outcome v v' k σ t x o rs log (sweep o n rs) := by
  induction rs generalizing v n log with
  | nil => exact h.idle (by simp) hs
  | cons r rs ih =>
    by_cases hsym : r.symbol = o.symbol
    swap
    · exact (ih (h.skip hsym) hs).cons_other (fun u hat => hsym (h.isAt_iff.mp hat).1) hsym
    by_cases hcr : Crosses σ t r.tick
    swap
    · -- what comes later in the list ranks no better
      refine h.idle (fun r' hr' _ hcr' => hcr ?_) hs
      rcases List.mem_cons.mp hr' with rfl | hr'
      · exact hcr'
      · exact hcr'.of_rank_le ((List.pairwise_cons.mp h.sorted).1 r' hr')
    obtain ⟨u, p, ps, hf⟩ := h.facing hsym
    have hx : v.Top k σ t x := ⟨by rw [h.own]; rfl, h.best⟩
    have hp : v.Top k σ.opp u p := ⟨by rw [hf.queue]; rfl, hf.best⟩
    have hpmem : p ∈ v.queue (k, σ.opp, u) := by rw [hf.queue]; simp
    have hne : x ≠ p := by
      rintro rfl
      simpa [σ.opp_ne.symm] using h.wf.loc_unique h.mem hpmem
    cases hs with
    | done hunc =>
      rw [hf.tick] at hcr
      exact absurd hcr ((uncrossed_iff σ).mp hunc t u hx.ne_nil hp.ne_nil)
    | @round _ _ _ _ _ _ tr log hc htr hs' =>
      obtain ⟨rfl, rfl, rfl, rfl⟩ := hc.eq_tops hx hp
      have hw := trade_wf h.wf hc
      have hex : Exchange v _ k σ t u x p := exchange hne (h.pos _ x h.mem) (h.pos _ p hpmem)
      obtain ⟨hfill, hmine⟩ := htr.fill_eq (h.wf.filed _ x h.mem).2.1
      rw [h.fillQty_eq hf, h.order, hf.order] at hfill
      have hmine' : (tr.order σ).limit = { o with quantity := n } := by rw [hmine, h.order]
      rcases lt_or_ge r.quantity n with hlt | hge
      · exact h.outcome_advance hf hex hsym hcr hlt hfill hmine' (ih (h.advance hf hex hw hlt) hs')
      · obtain ⟨rfl, rfl⟩ := hs'.eq_of_uncrossed (h.uncrossed_of_filled hf hex hge)
        exact h.outcome_filled hf hex hsym hcr hge hfill hmine'

end Incoming

/-! ### One call -/

/-- The view and the textbook hold the same orders, level by level. -/
structure Models (v : View) (b : Textbook) : Prop where
  pos : v.Positive
  level : ∀ k σ (t : ℕ), v.orders (k, σ, t) = (b.resting σ).filter (LimitOrder.isAt k t)
  sorted : ∀ σ, Sorted (fun r => rank σ r.tick) (b.resting σ)
  range : ∀ σ, ∀ r ∈ b.resting σ, ∃ u : Fin maxTicks, r.tick = (u : ℕ)
  count : b.count + v.free.length = poolCapacity

theorem Models.exists_mem {b : Textbook} {r : LimitOrder} (h : v.Models b)
    (hr : r ∈ b.resting σ) :
    ∃ u : ℕ, r.tick = u ∧ ∃ y ∈ v.queue (symKey r.symbol, σ, u), (v.cell y).limit = r := by
  obtain ⟨u, hu⟩ := h.range σ r hr
  have hmem : r ∈ v.orders (symKey r.symbol, σ, u) := by
    rw [h.level]
    exact List.mem_filter.mpr ⟨hr, decide_eq_true ⟨rfl, hu⟩⟩
  exact ⟨u, hu, List.mem_map.mp hmem⟩

theorem Models.quantity_pos {b : Textbook} (h : v.Models b) (σ : OrderType) :
    ∀ r ∈ b.resting σ, 0 < r.quantity := by
  intro r hr
  obtain ⟨u, -, y, hy, rfl⟩ := h.exists_mem hr
  exact h.pos _ y hy

theorem new_models : new.Models Textbook.empty where
  pos _ _ h := by simp [new] at h
  level _ _ _ := rfl
  sorted _ := List.Pairwise.nil
  range _ _ h := by simp [Textbook.empty] at h
  count := by simp [Textbook.count, Textbook.empty, new]

section Accept

variable {b : Textbook} {o : Order} {free : List Slot} {log : List Trade}

theorem insert_orders_other {l l' : Loc} (hx : ∀ l, x ∉ v.queue l) (hl : l' ≠ l) :
    (v.insert x o l).orders l' = v.orders l' :=
  orders_congr (insert_queue_other hl) fun _ hy => insert_cell_of_mem hx hy

theorem insert_orders_self {l : Loc} (hx : ∀ l, x ∉ v.queue l) :
    (v.insert x o l).orders l = v.orders l ++ [o.limit] := by
  have hmap : (v.queue l).map (fun y => ((v.insert x o l).cell y).limit) =
      (v.queue l).map fun y => (v.cell y).limit :=
    List.map_congr_left fun y hy => congrArg Order.limit (insert_cell_of_mem hx hy)
  have hself : (v.insert x o l).cell x = o := Function.update_self _ _ _
  have hqueue : (v.insert x o l).queue l = v.queue l ++ [x] := Function.update_self _ _ _
  simp only [orders, hqueue, List.map_append, hmap, List.map_cons, hself, List.map_nil]

theorem insert_positive {l : Loc} (hpos : v.Positive) (hx : ∀ l, x ∉ v.queue l)
    (ho : 0 < o.limit.quantity) : (v.insert x o l).Positive := by
  intro l' y hy
  rcases mem_insert_queue.mp hy with hy | ⟨-, rfl⟩
  · rw [insert_cell_of_mem hx hy]
    exact hpos l' y hy
  · simpa [insert] using ho

/-- What a call that files its order comes to, against the textbook walk. -/
structure Served (v v' : View) (k : UInt64) (σ : OrderType) (t : ℕ) (o : LimitOrder)
    (rs : List LimitOrder) (log : List Trade) (res : List Fill × List LimitOrder × ℤ) : Prop where
  fills : log.map (fun tr => tr.exec.fill) = res.1
  mine : ∀ tr ∈ log, ∃ n, (tr.order σ).limit = { o with quantity := n }
  other : ∀ u : ℕ, v'.orders (k, σ.opp, u) = res.2.1.filter (LimitOrder.isAt k u)
  /-- What is left rests behind the earlier orders of its tick. -/
  own : v'.orders (k, σ, t) =
    v.orders (k, σ, t) ++ if res.2.2 = 0 then [] else [{ o with quantity := res.2.2 }]
  frame : ∀ l, l ≠ (k, σ, t) → (∀ u, l ≠ (k, σ.opp, u)) → v'.orders l = v.orders l
  pos : v'.Positive
  count : v'.free.length + res.2.1.length + (if res.2.2 = 0 then 0 else 1) =
    v.free.length + rs.length

theorem Models.incoming (h : v.Models b) (hv : v.Settled) (ho : 0 < o.limit.quantity)
    (hfree : v.free = free ++ [x]) (hAt : o.At (k, σ, t)) (hu : v.queue (k, σ.opp, u) ≠ [])
    (hcr : Crosses σ t u) :
    Incoming (v.insert x o (k, σ, t)) k σ t x o.limit o.limit.quantity (b.resting σ.opp) := by
  have hx : ∀ l, x ∉ v.queue l := hv.wf.idle x (by rw [hfree]; simp)
  have hempty : ∀ s : ℕ, rank σ s ≤ rank σ t → v.queue (k, σ, s) = [] := fun s hs =>
    hv.empty_of_crosses hu hcr hs
  refine ⟨insert_wf hv.wf hfree hAt, insert_positive h.pos hx ho, by simp [insert], ?_, ?_, ?_, ?_,
    h.sorted _, fun r hr => ?_⟩
  · simp [insert, hempty t le_rfl]
  · intro s hs
    rw [insert_queue_other (by rintro ⟨⟩; exact lt_irrefl _ hs)]
    exact hempty s hs.le
  · intro s u' hst hs hu'
    rw [insert_queue_other (by simp [hst])] at hs
    rw [insert_queue_other (by simp [σ.opp_ne])] at hu'
    exact (uncrossed_iff σ).mp (hv.uncrossed k) s u' hs hu'
  · intro u'
    rw [insert_orders_other hx (by simp [σ.opp_ne]), h.level]
  · obtain ⟨u', hu', -⟩ := h.exists_mem hr
    exact ⟨u', hu'⟩

/-- **One filed order** against the textbook walk. -/
theorem Models.served (h : v.Models b) (hv : v.Settled) (ho : 0 < o.limit.quantity)
    (hfree : v.free = free ++ [x]) (hAt : o.At (k, σ, t))
    (hs : Sweep k x σ (v.insert x o (k, σ, t)) log v') :
    Served v v' k σ t o.limit (b.resting σ.opp) log
      (sweep o.limit o.limit.quantity (b.resting σ.opp)) := by
  have hx : ∀ l, x ∉ v.queue l := hv.wf.idle x (by rw [hfree]; simp)
  have hcount : (v.insert x o (k, σ, t)).free.length + 1 = v.free.length := by
    simp [insert, hfree]
  by_cases hcr : ∃ u : ℕ, v.queue (k, σ.opp, u) ≠ [] ∧ Crosses σ t u
  · -- the order crosses: nothing of its side was as good as it
    obtain ⟨u, hu, hcr⟩ := hcr
    have hout := (h.incoming hv ho hfree hAt hu hcr).outcome hs
    refine ⟨hout.fills, hout.mine, hout.other, ?_, fun l hl hl' => ?_, hout.pos, ?_⟩
    · rw [hout.own, orders, hv.empty_of_crosses hu hcr le_rfl]
      rfl
    · rw [hout.frame l hl hl', insert_orders_other hx hl]
    · have := hout.count
      omega
  · -- it does not: the book stays as it is, with the order filed
    push Not at hcr
    obtain ⟨rfl, rfl⟩ := hs.eq_of_uncrossed (hv.insert_uncrossed hcr)
    obtain ⟨hk, hσ, ht, -⟩ := hAt
    have hnone : ∀ r ∈ b.resting σ.opp, r.symbol = o.limit.symbol →
        ¬ Crosses o.limit.side o.limit.tick r.tick := by
      intro r hr hsym
      obtain ⟨u, hu, y, hy, -⟩ := h.exists_mem hr
      rw [show symKey r.symbol = k by rw [hsym]; exact hk] at hy
      rw [hu, show o.limit.side = σ from hσ, show o.limit.tick = (t : ℤ) from ht]
      exact hcr u (List.ne_nil_of_mem hy)
    rw [sweep_idle (Or.inr hnone)]
    refine ⟨rfl, by simp, fun u => ?_, ?_, fun l hl _ => insert_orders_other hx hl,
      insert_positive h.pos hx ho, ?_⟩
    · rw [insert_orders_other hx (by simp [σ.opp_ne]), h.level]
    · rw [if_neg ho.ne', insert_orders_self hx]
    · simp only [if_neg ho.ne']
      omega

theorem isAt_false {r : LimitOrder} (hk : symKey o.symbol = k) (hsym : r.symbol = o.symbol)
    {k' : UInt64} {t' : ℤ} (hne : k' ≠ k ∨ r.tick ≠ t') : r.isAt k' t' = false := by
  refine decide_eq_false fun hat => ?_
  rcases hne with hne | hne
  · exact hne (by rw [← hk, ← hsym, hat.1])
  · exact hne hat.2

theorem Served.level_own {rs : List LimitOrder} {res : List Fill × List LimitOrder × ℤ}
    (hsv : Served v v' k o.orderType t o.limit rs log res) (h : v.Models b)
    (hk : symKey o.symbol = k) (ht : o.limit.tick = t) (k' : UInt64) (t' : ℕ) :
    v'.orders (k', o.orderType, t') =
      ((b.file o.limit res.2.1 res.2.2).resting o.orderType).filter (LimitOrder.isAt k' t') := by
  rw [show (b.file o.limit res.2.1 res.2.2).resting o.orderType = _ from file_own]
  by_cases hl : (k', o.orderType, t') = (k, o.orderType, t)
  · obtain ⟨rfl, rfl⟩ : k' = k ∧ t' = t := by simpa using hl
    rw [hsv.own, h.level]
    split
    · simp only [List.append_nil]
      rfl
    · refine (filter_enqueue_of_pos (h.sorted _) (decide_eq_true ⟨hk, ht⟩) ?_).symm
      intro r _ hat
      show rank _ r.tick = rank _ o.limit.tick
      rw [(of_decide_eq_true hat).2, ht]
  · rw [hsv.frame _ hl (fun u => by simp [o.orderType.opp_ne.symm]), h.level]
    have hne : k' ≠ k ∨ o.limit.tick ≠ (t' : ℤ) := by
      by_contra hc
      push Not at hc
      exact hl (by rw [hc.1, show t' = t by omega])
    split
    · rfl
    · refine (filter_enqueue_of_neg ?_).symm
      exact isAt_false hk rfl hne

theorem Served.level_opp (h : v.Models b) (hk : symKey o.symbol = k)
    (hsv : Served v v' k o.orderType t o.limit (b.resting o.orderType.opp) log
      (sweep o.limit o.limit.quantity (b.resting o.orderType.opp))) (k' : UInt64) (t' : ℕ) :
    v'.orders (k', o.orderType.opp, t') =
      (sweep o.limit o.limit.quantity (b.resting o.orderType.opp)).2.1.filter
        (LimitOrder.isAt k' t') := by
  by_cases hkk : k' = k
  · rw [hkk]
    exact hsv.other t'
  · rw [hsv.frame _ (by simp [hkk]) (fun u => by simp [hkk]), h.level]
    refine (sweep_filter_other fun r hat hsym => ?_).symm
    rw [isAt_false hk hsym (Or.inl hkk)] at hat
    cases hat

theorem Models.of_served (h : v.Models b) (hk : symKey o.symbol = k) (ht : o.limit.tick = t)
    (hlt : t < maxTicks)
    (hsv : Served v v' k o.orderType t o.limit (b.resting o.orderType.opp) log
      (sweep o.limit o.limit.quantity (b.resting o.orderType.opp))) :
    v'.Models (b.file o.limit (sweep o.limit o.limit.quantity (b.resting o.orderType.opp)).2.1
      (sweep o.limit o.limit.quantity (b.resting o.orderType.opp)).2.2) := by
  refine ⟨hsv.pos, ?_, ?_, ?_, ?_⟩
  · intro k' σ t'
    rcases o.orderType.eq_or_eq_opp σ with rfl | rfl
    · exact hsv.level_own h hk ht k' t'
    · rw [hsv.level_opp h hk]
      exact congrArg _ file_opp.symm
  · exact file_sorted h.sorted (sweep_sorted (h.sorted _))
  · apply file_tick (P := fun t => ∃ u : Fin maxTicks, t = (u : ℕ)) h.range
    · exact ⟨⟨t, hlt⟩, ht⟩
    · exact sweep_tick (P := fun t => ∃ u : Fin maxTicks, t = (u : ℕ)) (h.range _)
  · have hcount := h.count
    have hafter := hsv.count
    rw [count_eq b o.orderType] at hcount
    rw [count_file, show o.limit.side = o.orderType from rfl]
    omega

/-- **One call** of the view is one call of the textbook. -/
theorem Models.accept (h : v.Models b) (hv : v.Settled) (ho : 0 < o.limit.quantity)
    (hacc : v.Accept o log v') :
    v'.Models (b.accept o.limit).1 ∧ log.map (fun tr => tr.exec.fill) = (b.accept o.limit).2 ∧
      ∀ tr ∈ log, ∃ n, (tr.order o.orderType).limit = { o.limit with quantity := n } := by
  have hcap : poolCapacity = 65536 := by unfold poolCapacity; rfl
  have hcnt := h.count
  unfold Textbook.accept
  cases hacc with
  | outOfRange hout =>
    have hrange : o.limit.tick < 0 ∨ o.limit.tick ≥ maxTicks := by
      by_contra hin
      refine hout (symKey o.symbol, o.orderType, o.limit.tick.toNat) ⟨rfl, rfl, ?_, ?_⟩
      · show o.limit.tick = (o.limit.tick.toNat : ℤ)
        omega
      · show o.limit.tick.toNat < maxTicks
        omega
    rw [if_pos (hrange.imp_right Or.inl)]
    exact ⟨h, rfl, by simp⟩
  | exhausted hnil =>
    rw [hnil, List.length_nil] at hcnt
    rw [if_pos (Or.inr (Or.inr (by omega)))]
    exact ⟨h, rfl, by simp⟩
  | @sweep x l free log v' hfree hAt hs =>
    obtain ⟨k, σ, t⟩ := l
    have hsv := h.served hv ho hfree hAt hs
    obtain ⟨hk, rfl, ht, hlt⟩ := hAt
    have htick : o.limit.tick = t := ht
    have hlen : v.free.length = free.length + 1 := by rw [hfree]; simp
    rw [if_neg (by simp only at hlt; omega)]
    refine ⟨h.of_served hk htick hlt hsv, hsv.fills, hsv.mine⟩

/-- **A whole run** of the view is a run of the textbook. -/
theorem Models.run {os : List Order} (h : v.Models b) (hv : v.Settled)
    (hpos : ∀ o ∈ os, 0 < o.limit.quantity) (hrun : v.Run os log v') :
    v'.Models (b.acceptAll (os.map Order.limit)).1 ∧
      log.map (fun tr => tr.exec.fill) = (b.acceptAll (os.map Order.limit)).2 := by
  induction hrun generalizing b with
  | nil => exact ⟨h, rfl⟩
  | cons hacc _ ih =>
    obtain ⟨hhead, htail⟩ := List.forall_mem_cons.mp hpos
    obtain ⟨h', hfills, -⟩ := h.accept hv hhead hacc
    obtain ⟨hend, hfills'⟩ := ih h' (hacc.settled hv) htail
    refine ⟨hend, ?_⟩
    rw [List.map_append, hfills, hfills']
    rfl

end Accept

end View

theorem Order.limit_quantity_pos {o : Order} : 0 < o.limit.quantity ↔ 0 < o.quantity := by
  rw [Int32.lt_iff_toInt_lt]
  rfl

namespace OrderBook

theorem acceptAll_models (clock : ℕ → Int64) {os : List Order} (hpos : ∀ o ∈ os, 0 < o.quantity) :
    ∃ s v log, (new clock).acceptAll os = .ok (s, log) ∧ View.new.Run os log v ∧
      Rep s.pool s.books v ∧ v.Settled ∧
      v.Models (Textbook.empty.acceptAll (os.map Order.limit)).1 ∧
      log.map (fun tr => tr.exec.fill) = (Textbook.empty.acceptAll (os.map Order.limit)).2 := by
  obtain ⟨s, v, log, hall, hrun, hrep, hv⟩ := acceptAll_new clock os
  obtain ⟨hmod, hfills⟩ := View.new_models.run View.new_settled
    (fun o ho => Order.limit_quantity_pos.mpr (hpos o ho)) hrun
  exact ⟨s, v, log, hall, hrun, hrep, hv, hmod, hfills⟩

/-- **The engine is the textbook engine.** From an empty book, with positive quantities and whatever
symbols, sides and prices, it reports the fills of the textbook engine, in the same order, and the
same orders rest at every level, in the same order; and every fill involves the incoming order. -/
theorem acceptAll_textbook (clock : ℕ → Int64) (os : List Order)
    (hpos : ∀ o ∈ os, 0 < o.quantity) :
    ∃ s log, (new clock).acceptAll os = .ok (s, log) ∧
      log.map (fun tr => tr.exec.fill) = (Textbook.empty.acceptAll (os.map Order.limit)).2 ∧
      (∀ key σ (t : Fin maxTicks), (s.resting key σ t).map Order.limit =
        ((Textbook.empty.acceptAll (os.map Order.limit)).1.resting σ).filter
          (LimitOrder.isAt key (t : ℕ))) ∧
      ∀ o, 0 < o.quantity → ∃ s' log', s.acceptNewOrder o = .ok (s', log') ∧
        ∀ tr ∈ log', ∃ n, (tr.order o.orderType).limit = { o.limit with quantity := n } := by
  obtain ⟨s, v, log, hall, -, hrep, hv, hmod, hfills⟩ := acceptAll_models clock hpos
  refine ⟨s, log, hall, hfills, fun key σ t => ?_, fun o ho => ?_⟩
  · rw [← hmod.level, resting_eq hrep, List.map_map]
    rfl
  · obtain ⟨s', v', log', hacc, hview, -⟩ := acceptNewOrder_spec hrep o
    exact ⟨s', log', hacc, (hmod.accept hv (Order.limit_quantity_pos.mpr ho) hview).2.2⟩

/-- A sell of two at a dollar and a buy of three above it: one fill of two, and one is left. -/
theorem acceptAll_textbook_pair :
    (∀ o ∈ [Order.plain .sell 1 2, Order.plain .buy 2 3], 0 < o.quantity) ∧
    ∃ s log, (new fun _ => 0).acceptAll [Order.plain .sell 1 2, Order.plain .buy 2 3] = .ok (s, log) ∧
      log.map (fun tr => tr.exec.fill) =
        [Textbook.fill (Order.plain .buy 2 3).limit (Order.plain .sell 1 2).limit 2] := by
  have hpos : ∀ o ∈ [Order.plain .sell 1 2, Order.plain .buy 2 3], 0 < o.quantity := by decide
  obtain ⟨s, log, hall, hfills, -, -⟩ := acceptAll_textbook (fun _ => 0) _ hpos
  exact ⟨hpos, s, log, hall, hfills.trans (by decide +kernel)⟩

end OrderBook

end TradingSim
