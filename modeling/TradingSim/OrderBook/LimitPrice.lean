import TradingSim.OrderBook.Simulation

/-!
Limit prices. Whether two orders cross is decided on ticks of a cent, but they trade at the resting
order's own price, so an order can be traded beyond its limit by an order of its own tick.

`limit_protection` says exactly when that does not happen: in no call does the incoming order come,
down the opposite side of its symbol, to an order of its own tick whose price is beyond its limit.
Prices in whole cents are never in the way (`limitSafe_of_cents`).
-/

namespace TradingSim

open Lib Textbook

/-! ### The side of a book -/

namespace OrderBook

/-- The orders of one side of a symbol's book, in priority order. -/
def side (s : OrderBook) (key : UInt64) (σ : OrderType) : List Order :=
  (match σ with
    | .buy => (List.finRange maxTicks).reverse
    | .sell => List.finRange maxTicks).flatMap fun t => s.resting key σ t

theorem side_eq {s : OrderBook} {v : View} {b : Textbook} (hrep : Rep s.pool s.books v)
    (h : v.Models b) (key : UInt64) (σ : OrderType) :
    (s.side key σ).map Order.limit =
      (b.resting σ).filter fun r => decide (symKey r.symbol = key) := by
  have hlevel : ∀ t : Fin maxTicks, (s.resting key σ t).map Order.limit =
      ((b.resting σ).filter fun r => decide (symKey r.symbol = key)).filter
        fun r => rank σ r.tick = rank σ (t : ℕ) := by
    intro t
    rw [resting_eq hrep, List.map_map, List.filter_filter]
    refine (h.level key σ t).trans (List.filter_congr fun r _ => ?_)
    simp only [LimitOrder.isAt, rank_inj, Bool.decide_and]
    exact Bool.and_comm _ _
  unfold side
  rw [List.map_flatMap]
  simp only [hlevel]
  rw [← List.flatMap_map (f := fun t : Fin maxTicks => rank σ (t : ℕ)) (g := fun u =>
    ((b.resting σ).filter fun r => decide (symKey r.symbol = key)).filter fun r => rank σ r.tick = u)]
  refine Sorted.flatMap_classes ((h.sorted σ).filter _) ?_ ?_
  · rw [List.pairwise_map]
    cases σ with
    | buy =>
      rw [List.pairwise_reverse]
      exact (List.pairwise_lt_finRange _).imp fun hlt => by simpa [rank] using hlt
    | sell => exact (List.pairwise_lt_finRange _).imp fun hlt => by simpa [rank] using hlt
  · intro r hr
    obtain ⟨u, hu⟩ := h.range σ r (List.mem_filter.mp hr).1
    refine List.mem_map.mpr ⟨u, ?_, by rw [hu]⟩
    cases σ <;> simp

end OrderBook

/-! ### Trades and limits -/

/-- The price `p` is within the limit of the order. -/
def Order.Within (o : Order) (p : ℚ) : Prop :=
  match o.orderType with
  | .buy => p ≤ o.price
  | .sell => o.price ≤ p

/-- The buyer pays no more, and the seller gets no less, than their limit. -/
def Trade.Protected (tr : Trade) : Prop :=
  tr.askOrder.price ≤ tr.exec.tradePrice ∧ tr.exec.tradePrice ≤ tr.bidOrder.price

/-- The two orders of the trade are a buy and a sell order of the sequence, up to what was left of
them, and the execution carries their names. -/
structure Trade.Names (tr : Trade) (os : List Order) : Prop where
  bid : ∃ o ∈ os, o.orderType = .buy ∧ ∃ q, tr.bidOrder = { o with quantity := q }
  ask : ∃ o ∈ os, o.orderType = .sell ∧ ∃ q, tr.askOrder = { o with quantity := q }
  buyId : tr.exec.buyId = strncpy tr.bidOrder.id
  sellId : tr.exec.sellId = strncpy tr.askOrder.id

/-- Orders that cross on ticks, one beyond the limit of the other, are of the same tick. -/
theorem Order.tick_eq_of_not_within {o : Order} {p : ℚ} (hw : ¬ o.Within p) :
    Crosses o.orderType (priceToTick o.price) (priceToTick p) ↔
      priceToTick p = priceToTick o.price := by
  unfold Order.Within at hw
  cases hσ : o.orderType with
  | buy =>
    simp only [hσ, not_le] at hw
    have := priceToTick_mono hw.le
    simp only [Crosses]
    omega
  | sell =>
    simp only [hσ, not_le] at hw
    have := priceToTick_mono hw.le
    simp only [Crosses]
    omega

namespace View

variable {v v' : View} {b : Textbook} {o : Order} {log : List Trade}

theorem Reports.tradePrice {x y a : Slot} {σ : OrderType} {tr : Trade} (h : v.Reports x σ y a tr) :
    tr.exec.tradePrice = (tr.order σ.opp).price := by
  obtain ⟨-, -, hb, ha, now, hexec⟩ := h
  cases σ with
  | buy => simp [hexec, buildExecution, Trade.order, OrderType.opp, ha]
  | sell => simp [hexec, buildExecution, Trade.order, OrderType.opp, hb]

theorem Accept.tradePrice (h : v.Accept o log v') :
    ∀ tr ∈ log, tr.exec.tradePrice = (tr.order o.orderType.opp).price := by
  cases h with
  | outOfRange _ => simp
  | exhausted _ => simp
  | sweep _ hAt hs =>
    rw [hAt.2.1]
    exact (hs.rule (I := fun _ => True) trivial fun _ _ _ _ _ _ _ _ htr => ⟨trivial, htr.tradePrice⟩).2

theorem Models.protected_iff (h : v.Models b) (hv : v.Settled) (ho : 0 < o.limit.quantity)
    (hacc : v.Accept o log v') :
    (∀ tr ∈ log, tr.Protected) ↔ ∀ f ∈ (b.accept o.limit).2, o.Within f.tradePrice := by
  obtain ⟨-, hfills, hmine⟩ := h.accept hv ho hacc
  rw [← hfills, List.forall_mem_map]
  refine forall₂_congr fun tr htr => ?_
  obtain ⟨n, hn⟩ := hmine tr htr
  have hown : (tr.order o.orderType).price = o.price := congrArg LimitOrder.price hn
  have hother := hacc.tradePrice tr htr
  unfold Trade.Protected Order.Within
  cases hσ : o.orderType with
  | buy =>
    rw [hσ] at hown hother
    have h1 : tr.bidOrder.price = o.price := hown
    have h2 : tr.exec.tradePrice = tr.askOrder.price := hother
    rw [h1, ← h2]
    exact and_iff_right le_rfl
  | sell =>
    rw [hσ] at hown hother
    have h1 : tr.askOrder.price = o.price := hown
    have h2 : tr.exec.tradePrice = tr.bidOrder.price := hother
    rw [h1, ← h2]
    exact and_iff_left le_rfl

/-- The queued orders are orders of the sequence, up to what was left of them. -/
def From (v : View) (os : List Order) : Prop :=
  ∀ l, ∀ y ∈ v.queue l, ∃ o ∈ os, ∃ q, v.cell y = { o with quantity := q }

theorem From.trade {os : List Order} {k : UInt64} {tb ta : ℕ} {x y : Slot} (h : v.From os)
    (hwf : v.WF) (hc : v.Cross k tb ta x y) : (v.trade k tb ta x y).From os := by
  intro l z hz
  obtain ⟨o, ho, q, hq⟩ := h l z ((mem_trade_queue hwf hc).mp hz).1
  obtain ⟨q', hq'⟩ := trade_cell_terms (v := v) (k := k) (hc.ne hwf) z
  exact ⟨o, ho, q', by rw [hq', hq]⟩

theorem From.names {os : List Order} {k : UInt64} {tb ta : ℕ} {x y z : Slot} {σ : OrderType}
    {tr : Trade} (h : v.From os) (hwf : v.WF) (hc : v.Cross k tb ta x y)
    (htr : v.Reports z σ x y tr) : tr.Names os := by
  obtain ⟨-, -, hb, ha, now, hexec⟩ := htr
  have hx := List.mem_of_mem_head? hc.bid
  have hy := List.mem_of_mem_head? hc.ask
  obtain ⟨o, ho, q, hq⟩ := h _ x hx
  obtain ⟨o', ho', q', hq'⟩ := h _ y hy
  have hσ : (v.cell x).orderType = .buy := (hwf.filed _ x hx).2.1
  have hσ' : (v.cell y).orderType = .sell := (hwf.filed _ y hy).2.1
  rw [hq] at hσ
  rw [hq'] at hσ'
  refine ⟨⟨o, ho, hσ, q, hb.trans hq⟩, ⟨o', ho', hσ', q', ha.trans hq'⟩, ?_, ?_⟩
  · rw [hexec, hb]
    rfl
  · rw [hexec, ha]
    rfl

theorem From.insert {os : List Order} {x : Slot} {l : Loc} (h : v.From os) (hx : ∀ l, x ∉ v.queue l)
    (ho : o ∈ os) : (v.insert x o l).From os := by
  intro l' y hy
  rcases mem_insert_queue.mp hy with hy' | ⟨-, rfl⟩
  · rw [insert_cell_of_mem hx hy']
    exact h l' y hy'
  · exact ⟨o, ho, o.quantity, by simp [View.insert]⟩

section Trades

variable {os : List Order} {P : Trade → Prop}

/-- What follows of a trade from its two orders being orders of the sequence holds of every trade of
a call. -/
theorem Accept.trades (h : v.Accept o log v') (ho : o ∈ os) (hwf : v.WF) (hv : v.From os)
    (step : ∀ (w : View) k tb ta x y z σ tr, w.WF → w.From os → w.Cross k tb ta x y →
      w.Reports z σ x y tr → P tr) : v'.From os ∧ ∀ tr ∈ log, P tr := by
  cases h with
  | outOfRange _ => exact ⟨hv, by simp⟩
  | exhausted _ => exact ⟨hv, by simp⟩
  | @sweep x l free _ _ hfree hAt hs =>
    have hx : ∀ l, x ∉ v.queue l := hwf.idle x (by rw [hfree]; simp)
    obtain ⟨⟨-, hend⟩, htrades⟩ := hs.rule (I := fun w => w.WF ∧ w.From os) (P := P)
      ⟨insert_wf hwf hfree hAt, hv.insert hx ho⟩ fun w tb ta b a tr hw hc htr =>
        ⟨⟨trade_wf hw.1 hc, hw.2.trade hw.1 hc⟩, step w _ _ _ _ _ _ _ tr hw.1 hw.2 hc htr⟩
    exact ⟨hend, htrades⟩

theorem Run.trades (h : new.Run os log v')
    (step : ∀ (w : View) k tb ta x y z σ tr, w.WF → w.From os → w.Cross k tb ta x y →
      w.Reports z σ x y tr → P tr) : v'.From os ∧ ∀ tr ∈ log, P tr := by
  obtain ⟨⟨-, hfrom⟩, htrades⟩ := h.rule (I := fun w => w.Settled ∧ w.From os) (P := P)
    ⟨new_settled, fun _ _ hy => by simp [new] at hy⟩ fun _ _ _ _ ho hw hacc =>
      have hn := hacc.trades ho hw.1.wf hw.2 step
      ⟨⟨hacc.settled hw.1, hn.1⟩, hn.2⟩
  exact ⟨hfrom, htrades⟩

theorem Run.names (h : new.Run os log v') : ∀ tr ∈ log, tr.Names os :=
  (h.trades fun _ _ _ _ _ _ _ _ _ hwf hfrom hc htr => hfrom.names hwf hc htr).2

end Trades

end View

/-! ### One call -/

namespace OrderBook

variable {s : OrderBook} {v v' : View} {b : Textbook} {o : Order} {log : List Trade}

/-- The incoming order does not come to an order of its own tick that is beyond its limit: whatever
there is of them has enough in front of it to use up the incoming order. -/
def LimitSafe (s : OrderBook) (o : Order) : Prop :=
  0 < s.poolAvailable → ∀ pre r post,
    s.side (symKey o.symbol) o.orderType.opp = pre ++ r :: post →
    priceToTick r.price = priceToTick o.price → ¬ o.Within r.price →
    o.quantity.toInt ≤ (pre.map fun r => r.quantity.toInt).sum

theorem symKey_filter (rs : List LimitOrder) (sym : CharArray 8) :
    rs.filter (fun r => decide (symKey r.symbol = symKey sym)) =
      rs.filter fun r => decide (r.symbol = sym) :=
  List.filter_congr fun _ _ => decide_eq_decide.mpr symKey_injective.eq_iff

/-- **One call is protected exactly when it is safe.** -/
theorem protected_iff_limitSafe (hrep : Rep s.pool s.books v) (h : v.Models b) (hv : v.Settled)
    (ho : 0 < o.quantity) (hacc : v.Accept o log v') :
    (∀ tr ∈ log, tr.Protected) ↔ s.LimitSafe o := by
  have hoq := Order.limit_quantity_pos.mpr ho
  have havail : b.count + s.poolAvailable = 65536 := by
    have hlen := poolAvailable_eq hrep
    have hcap : poolCapacity = 65536 := by unfold poolCapacity; rfl
    have := h.count
    omega
  have hside := side_eq hrep h (symKey o.symbol) o.orderType.opp
  rw [symKey_filter] at hside
  rw [h.protected_iff hv hoq hacc]
  unfold Textbook.accept LimitSafe
  by_cases hfull : s.poolAvailable = 0
  · rw [if_pos (Or.inr (Or.inr (by omega)))]
    simp [hfull]
  by_cases hout : o.limit.tick < 0 ∨ o.limit.tick ≥ maxTicks
  · -- no resting order has the tick of an order that is turned away
    rw [if_pos (hout.imp_right Or.inl)]
    refine ⟨fun _ _ pre r post he htick => ?_, by simp⟩
    have hr : r.limit ∈ b.resting o.orderType.opp := by
      have : r.limit ∈ (s.side (symKey o.symbol) o.orderType.opp).map Order.limit := by
        rw [he]
        simp
      rw [hside] at this
      exact List.mem_of_mem_filter this
    obtain ⟨u, hu⟩ := h.range _ _ hr
    have hu' : priceToTick r.price = ((u : ℕ) : ℤ) := hu
    have hlt := u.isLt
    have ho' : o.limit.tick = priceToTick o.price := rfl
    omega
  · rw [if_neg (by push Not at hout ⊢; exact ⟨hout.1, hout.2, by omega⟩)]
    have hpos : ∀ r ∈ b.resting o.orderType.opp, 0 < r.quantity := h.quantity_pos _
    refine (forall_fills_iff (o := o.limit) (h.sorted _) hpos hoq.le).trans ?_
    rw [show (b.resting o.limit.side.opp).filter (fun r => decide (r.symbol = o.limit.symbol)) =
      (s.side (symKey o.symbol) o.orderType.opp).map Order.limit from hside.symm]
    constructor
    · intro hall _ pre r post he htick hw
      have := hall (pre.map Order.limit) r.limit (post.map Order.limit) (by rw [he]; simp)
        ((Order.tick_eq_of_not_within hw).mpr htick) hw
      rwa [List.map_map] at this
    · intro hall pre r post he hcr hw
      obtain ⟨pre, rest, he', rfl, hrest⟩ := List.map_eq_append_iff.mp he
      obtain ⟨r, post, rfl, rfl, rfl⟩ := List.map_eq_cons_iff.mp hrest
      have := hall (by omega) pre r post he' ((Order.tick_eq_of_not_within hw).mp hcr) hw
      rwa [List.map_map]

/-! ### Runs -/

theorem acceptAll_snoc {s s' s'' : OrderBook} {os : List Order} {log log' : List Trade}
    (h : s.acceptAll os = .ok (s', log)) (ho : s'.acceptNewOrder o = .ok (s'', log')) :
    s.acceptAll (os ++ [o]) = .ok (s'', log ++ log') := by
  induction os generalizing s log with
  | nil =>
    obtain ⟨rfl, rfl⟩ : s = s' ∧ [] = log := by simpa [acceptAll] using h
    simp [acceptAll, ho]
  | cons p os ih =>
    unfold acceptAll at h
    cases hp : s.acceptNewOrder p with
    | error e => simp [hp] at h
    | ok r =>
      cases hall : r.1.acceptAll os with
      | error e => simp [hp, hall] at h
      | ok r' =>
        obtain ⟨rfl, rfl⟩ : r'.1 = s' ∧ r.2 ++ r'.2 = log := by simpa [hp, hall] using h
        rw [List.cons_append]
        simp [acceptAll, hp, ih hall]

theorem limitSafe_snoc {clock : ℕ → Int64} {os : List Order} {o : Order} {s : OrderBook}
    {log : List Trade} (hall : (new clock).acceptAll os = .ok (s, log)) :
    (∀ pre p post s₀ log₀, os ++ [o] = pre ++ p :: post →
      (new clock).acceptAll pre = .ok (s₀, log₀) → s₀.LimitSafe p) ↔
    (∀ pre p post s₀ log₀, os = pre ++ p :: post →
      (new clock).acceptAll pre = .ok (s₀, log₀) → s₀.LimitSafe p) ∧ s.LimitSafe o := by
  constructor
  · intro hrun
    refine ⟨fun pre p post s₀ log₀ he h₀ => ?_, hrun os o [] s log rfl hall⟩
    exact hrun pre p (post ++ [o]) s₀ log₀ (by rw [he]; simp) h₀
  · rintro ⟨hrun, hlast⟩ pre p post s₀ log₀ he h₀
    -- the call is the last one, or one of those before
    rcases List.eq_nil_or_concat post with rfl | ⟨post, p', rfl⟩
    · obtain ⟨rfl, hoo⟩ := List.append_inj' he rfl
      obtain ⟨rfl, -⟩ : s = s₀ ∧ log = log₀ := by simpa using hall.symm.trans h₀
      rwa [← (List.cons.inj hoo).1]
    · have he' : os ++ [o] = (pre ++ p :: post) ++ [p'] := by rw [he]; simp
      exact hrun pre p post s₀ log₀ (List.append_inj' he' rfl).1 h₀

/-- **Exactly when the engine keeps to the limits.** Over a whole run with positive quantities, no
execution is beyond the limit of one of its two orders if and only if every call was safe. -/
theorem limit_protection (clock : ℕ → Int64) (os : List Order) (hpos : ∀ o ∈ os, 0 < o.quantity) :
    ∃ s log, (new clock).acceptAll os = .ok (s, log) ∧ (∀ tr ∈ log, tr.Names os) ∧
      ((∀ tr ∈ log, tr.Protected) ↔ ∀ pre o post s₀ log₀, os = pre ++ o :: post →
        (new clock).acceptAll pre = .ok (s₀, log₀) → s₀.LimitSafe o) := by
  obtain ⟨s, v, log, hall, hrun, -⟩ := acceptAll_new clock os
  refine ⟨s, log, hall, hrun.names, ?_⟩
  clear hrun
  induction os using List.reverseRecOn generalizing s log with
  | nil =>
    obtain ⟨-, rfl⟩ : new clock = s ∧ [] = log := by simpa [acceptAll] using hall
    simp
  | append_singleton os o ih =>
    have hpos' : ∀ p ∈ os, 0 < p.quantity := fun p hp => hpos p (by simp [hp])
    obtain ⟨s₁, v₁, log₁, hall₁, -, hrep, hv, hmod, -⟩ := acceptAll_models clock hpos'
    obtain ⟨s₂, v₂, log₂, hacc, hview, -⟩ := acceptNewOrder_spec hrep o
    obtain ⟨-, rfl⟩ : s₂ = s ∧ log₁ ++ log₂ = log := by
      simpa using (acceptAll_snoc hall₁ hacc).symm.trans hall
    rw [List.forall_mem_append, ih hpos' s₁ log₁ hall₁, limitSafe_snoc hall₁,
      protected_iff_limitSafe hrep hmod hv (hpos o (by simp)) hview]

/-- The theorem at a sell of ten at a dollar and a buy of ten at two. -/
theorem limit_protection_pair :
    (∀ o ∈ [Order.plain .sell 1 10, Order.plain .buy 2 10], 0 < o.quantity) ∧
    ∃ s log, (new fun _ => 0).acceptAll [Order.plain .sell 1 10, Order.plain .buy 2 10] =
        .ok (s, log) ∧
      ((∀ tr ∈ log, tr.Protected) ↔ ∀ pre o post s₀ log₀,
        [Order.plain .sell 1 10, Order.plain .buy 2 10] = pre ++ o :: post →
        (new fun _ => 0).acceptAll pre = .ok (s₀, log₀) → s₀.LimitSafe o) := by
  have hpos : ∀ o ∈ [Order.plain .sell 1 10, Order.plain .buy 2 10], 0 < o.quantity := by decide
  obtain ⟨s, log, hall, -, hiff⟩ := limit_protection (fun _ => 0) _ hpos
  exact ⟨hpos, s, log, hall, hiff⟩

/-- A sell at 100.004 and a buy at 99.996 are of the same tick, and trade at 100.004. -/
theorem limit_protection_fails :
    ∃ s log, (new fun _ => 0).acceptAll
        [Order.plain .sell (100004 / 1000) 10, Order.plain .buy (99996 / 1000) 10] = .ok (s, log) ∧
      ∃ tr ∈ log, tr.bidOrder.price < tr.exec.tradePrice := by
  obtain ⟨s, v, log, hall, hrun, -, -, -, hfills⟩ := acceptAll_models (fun _ => 0)
    (show ∀ o ∈ [Order.plain .sell (100004 / 1000) 10, Order.plain .buy (99996 / 1000) 10],
      0 < o.quantity by decide)
  have hone : log.map (fun tr => tr.exec.fill) =
      [Textbook.fill (Order.plain .buy (99996 / 1000) 10).limit
        (Order.plain .sell (100004 / 1000) 10).limit 10] := hfills.trans (by decide +kernel)
  obtain ⟨tr, _, rfl, hfill, -⟩ := List.map_eq_cons_iff.mp hone
  refine ⟨s, _, hall, tr, by simp, ?_⟩
  have hprice : tr.exec.tradePrice = 100004 / 1000 := congrArg Fill.tradePrice hfill
  obtain ⟨o, ho, hbuy, q, hbid⟩ := (hrun.names tr (by simp)).bid
  have hlimit : tr.bidOrder.price = 99996 / 1000 := by
    rw [hbid]
    rcases List.mem_pair.mp ho with rfl | rfl
    · cases hbuy
    · rfl
  rw [hprice, hlimit]
  norm_num

/-! ### Whole cents -/

theorem priceToTick_cents (n : ℕ) : priceToTick (n / 100) = n := by
  have hval : ((n : ℚ) / 100) * 100 + 1 / 2 = n + 1 / 2 := by ring
  have hn : (0 : ℚ) ≤ n := Nat.cast_nonneg n
  unfold priceToTick truncate
  rw [hval, if_pos (by linarith), Int.floor_eq_iff]
  push_cast
  constructor <;> linarith

/-- Prices in whole cents are safe. A price just below zero would not be: its tick is `0` too. -/
theorem limitSafe_of_cents {m : ℕ} (ho : o.price = m / 100)
    (hs : ∀ r ∈ s.side (symKey o.symbol) o.orderType.opp, ∃ n : ℕ, r.price = n / 100) :
    s.LimitSafe o := by
  intro _ pre r post he htick hw
  obtain ⟨n, hn⟩ := hs r (by rw [he]; simp)
  have hnm : n = m := by
    rw [hn, ho, priceToTick_cents, priceToTick_cents] at htick
    omega
  refine absurd ?_ hw
  unfold Order.Within
  rw [hn, ho, hnm]
  split <;> exact le_rfl

end OrderBook

end TradingSim
