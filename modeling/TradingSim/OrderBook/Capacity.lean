import TradingSim.OrderBook.Simulation

/-!
The pool at its capacity. An order takes a slot before matching is tried, so an order that crosses
the book is served when a slot is free and turned away when none is, even though serving it would
free one.

With a free slot no cross is missed, whatever the quantities in the book (`no_missed_cross`). Without
one every order is discarded and the state never changes again; such states are reachable
(`missed_cross`).
-/

namespace TradingSim

open Lib Textbook

/-! ### An order that crosses -/

namespace View

variable {v v' : View} {k : UInt64} {σ : OrderType} {t u : ℕ} {x : Slot} {o : Order}
  {log : List Trade}

theorem Sweep.length_free (hs : Sweep k x σ v log v') (hwf : v.WF) :
    v.free.length + log.length ≤ v'.free.length := by
  induction hs with
  | done _ => simp
  | @round v v' tb ta b a _ _ hc _ _ ih =>
    have hlt : v.free.length < (v.trade k tb ta b a).free.length := trade_free_lt (hc.ne hwf)
    have := ih (trade_wf hwf hc)
    simp only [List.length_cons]
    omega

theorem Accept.length_log (h : v.Accept o log v') (hwf : v.WF) :
    v.free.length + log.length ≤ v'.free.length + 1 := by
  cases h with
  | outOfRange _ => simp
  | exhausted _ => simp
  | @sweep x l free _ _ hfree hAt hs =>
    have hle := hs.length_free (insert_wf hwf hfree hAt)
    have hinsert : (v.insert x o l).free.length + 1 = v.free.length := by
      simp [insert, hfree]
    omega

/-- **There are no more executions than orders.** -/
theorem Run.length_log {os : List Order} (h : v.Run os log v') (hv : v.Settled) :
    v.free.length + log.length ≤ v'.free.length + os.length := by
  induction h with
  | nil => simp
  | cons hacc _ ih =>
    have hfirst := hacc.length_log hv.wf
    have hrest := ih (hacc.settled hv)
    simp only [List.length_append, List.length_cons]
    omega

theorem Settled.top_insert (hv : v.Settled) (hu : v.queue (k, σ.opp, u) ≠ [])
    (hcr : Crosses σ t u) : (v.insert x o (k, σ, t)).Top k σ t x := by
  constructor
  · simp [insert, hv.empty_of_crosses hu hcr le_rfl]
  · intro s hs
    rw [insert_queue_other (by rintro ⟨⟩; exact lt_irrefl _ hs)]
    exact hv.empty_of_crosses hu hcr hs.le

/-- **The first round is its own.** -/
theorem Settled.first_trade (hv : v.Settled) (hu : v.queue (k, σ.opp, u) ≠ [])
    (hcr : Crosses σ t u)
    (hs : Sweep k x σ (v.insert x o (k, σ, t)) log v') :
    ∃ tr rest, log = tr :: rest ∧ tr.order σ = o := by
  have htop := hv.top_insert (x := x) (o := o) hu hcr
  have hself : (v.insert x o (k, σ, t)).cell x = o := Function.update_self _ _ _
  cases hs with
  | done hunc =>
    refine absurd hcr ((uncrossed_iff σ).mp hunc t u htop.ne_nil ?_)
    rwa [insert_queue_other (by simp [σ.opp_ne])]
  | @round _ _ tb ta b a tr log hc htr _ =>
    refine ⟨tr, log, rfl, ?_⟩
    cases σ with
    | buy =>
      obtain ⟨-, rfl⟩ := hc.topBid.unique htop
      exact htr.bidOrder.trans hself
    | sell =>
      obtain ⟨-, rfl⟩ := hc.topAsk.unique htop
      exact htr.askOrder.trans hself

end View

namespace OrderBook

variable {s : OrderBook} {v : View} {o : Order}

/-- The order's tick crosses the best opposite tick of its symbol's book. -/
def CrossesBest (s : OrderBook) (o : Order) : Prop :=
  match o.orderType with
  | .buy => (s.book (symKey o.symbol)).bestAskTick ≤ priceToTick o.price
  | .sell => priceToTick o.price ≤ (s.book (symKey o.symbol)).bestBidTick

theorem CrossesBest.level (hrep : Rep s.pool s.books v) {t : ℕ} (ht : priceToTick o.price = t)
    (hlt : t < maxTicks) (hc : s.CrossesBest o) :
    ∃ u : ℕ, v.queue (symKey o.symbol, o.orderType.opp, u) ≠ [] ∧ Crosses o.orderType t u := by
  have hbook := hrep.book (symKey o.symbol)
  unfold CrossesBest OrderBook.book at hc
  rw [ht] at hc
  cases hσ : o.orderType with
  | buy =>
    simp only [hσ] at hc
    rcases hbook.bestAsk with ⟨hbest, -⟩ | ⟨u, hbest, hne, -⟩
    · omega
    · exact ⟨u, hne, by simp only [Crosses]; omega⟩
  | sell =>
    simp only [hσ] at hc
    rcases hbook.bestBid with ⟨hbest, -⟩ | ⟨u, hbest, hne, -⟩
    · omega
    · exact ⟨u, hne, by simp only [Crosses]; omega⟩

/-! ### A full pool -/

theorem acceptNewOrder_of_full (h : s.poolAvailable = 0) (o : Order) :
    s.acceptNewOrder o = .ok (s, []) := by
  have htop : s.pool.top = 0 := h
  unfold acceptNewOrder
  simp only [ObjectPool.alloc, htop, dif_pos, pure_eq_ok, ite_self]

theorem acceptAll_of_full (h : s.poolAvailable = 0) (os : List Order) :
    s.acceptAll os = .ok (s, []) := by
  induction os with
  | nil => rfl
  | cons o os ih => simp [acceptAll, acceptNewOrder_of_full h, ih]

theorem not_discarded (hrep : Rep s.pool s.books v) (hpos : 0 < s.poolAvailable) {t : ℕ}
    (ht : priceToTick o.price = t) (hlt : t < maxTicks) : s.acceptAll [o] ≠ .ok (s, []) := by
  obtain ⟨s', v', log, hacc, hview, hrep'⟩ := acceptNewOrder_spec hrep o
  rw [poolAvailable_eq hrep] at hpos
  intro he
  obtain ⟨rfl, rfl⟩ : s' = s ∧ log = [] := by simpa [acceptAll, hacc] using he
  have hsame : v'.free = v.free := by rw [← hrep.free, ← hrep'.free]
  cases hview with
  | outOfRange hout => exact hout (symKey o.symbol, o.orderType, t) ⟨rfl, rfl, ht, hlt⟩
  | exhausted hnil => simp [hnil] at hpos
  | sweep hfree _ hs =>
    -- an empty log means that the order only took its slot
    cases hs with
    | done _ =>
      have := congrArg List.length hsame
      simp [View.insert, hfree] at this

/-- **No cross is missed while a slot is free.** In every state reached by any orders, an order in
range that crosses the best opposite tick is traded at once if a slot is free, and each execution
frees a slot; if none is, it is dropped. The states that discard every later order are those without
a free slot. -/
theorem no_missed_cross (clock : ℕ → Int64) (os : List Order) :
    ∃ s log, (new clock).acceptAll os = .ok (s, log) ∧
      (∀ o, 0 ≤ priceToTick o.price → priceToTick o.price < maxTicks → s.CrossesBest o →
        ∃ s' log', s.acceptNewOrder o = .ok (s', log') ∧
          (0 < s.poolAvailable → (∃ tr rest, log' = tr :: rest ∧ tr.order o.orderType = o) ∧
            s.poolAvailable + log'.length ≤ s'.poolAvailable + 1) ∧
          (s.poolAvailable = 0 → s' = s ∧ log' = [])) ∧
      ((∀ os', s.acceptAll os' = .ok (s, [])) ↔ s.poolAvailable = 0) := by
  obtain ⟨s, v, log, hall, -, hrep, hv⟩ := acceptAll_new clock os
  refine ⟨s, log, hall, fun o h0 hlt hc => ?_, fun hdis => ?_, acceptAll_of_full⟩
  · obtain ⟨t, ht⟩ : ∃ t : ℕ, priceToTick o.price = t := ⟨(priceToTick o.price).toNat, by omega⟩
    obtain ⟨u, hu, hcr⟩ := hc.level hrep ht (by omega)
    obtain ⟨s', v', log', hacc, hview, hrep'⟩ := acceptNewOrder_spec hrep o
    refine ⟨s', log', hacc, fun hpos => ?_, fun hfull => ?_⟩
    · rw [poolAvailable_eq hrep] at hpos ⊢
      rw [poolAvailable_eq hrep']
      cases hview with
      | outOfRange hout =>
        exact absurd ⟨rfl, rfl, ht, by simp only; omega⟩ (hout (symKey o.symbol, o.orderType, t))
      | exhausted hnil => simp [hnil] at hpos
      | @sweep x l free log' v' hfree hAt hs =>
        have hAt' : o.At (symKey o.symbol, o.orderType, t) := ⟨rfl, rfl, ht, by simp only; omega⟩
        obtain rfl := hAt.unique hAt'
        refine ⟨hv.first_trade hu hcr hs, ?_⟩
        have hlen := hs.length_free (View.insert_wf hv.wf hfree hAt)
        simp [View.insert, hfree] at hlen ⊢
        omega
    · have := (acceptNewOrder_of_full hfull o).symm.trans hacc
      simpa [eq_comm] using this
  · by_contra hne
    have hzero : priceToTick (Order.plain .buy 0 1).price = (0 : ℕ) := by decide +kernel
    have hmax : 0 < maxTicks := by unfold maxTicks; norm_num
    exact not_discarded hrep (by omega) hzero hmax (hdis _)

/-! ### Filling the pool -/

theorem accept_replicate {o : LimitOrder} (hside : o.side = .buy) (hq : o.quantity ≠ 0)
    (h0 : 0 ≤ o.tick) (hlt : o.tick < maxTicks) (n : ℕ) {b : Textbook}
    (hsell : b.resting .sell = []) (hbuy : ∀ r ∈ b.resting .buy, r = o) (hn : b.count + n ≤ 65536) :
    (∀ r ∈ (b.acceptAll (List.replicate n o)).1.resting .buy, r = o) ∧
      (b.acceptAll (List.replicate n o)).1.resting .sell = [] ∧
      (b.acceptAll (List.replicate n o)).1.count = b.count + n := by
  induction n generalizing b with
  | zero => exact ⟨hbuy, hsell, rfl⟩
  | succ n ih =>
    have hacc : b.accept o = (b.file o [] o.quantity, []) := by
      unfold Textbook.accept
      rw [if_neg (by omega), hside, show OrderType.buy.opp = .sell from rfl, hsell]
      rfl
    have hbuys : (b.file o [] o.quantity).resting .buy =
        enqueue (fun r => rank .buy r.tick) o (b.resting .buy) := by
      show (if OrderType.buy = o.side then _ else _) = _
      rw [if_pos hside.symm, if_neg hq]
    have hsells : (b.file o [] o.quantity).resting .sell = [] := by
      simp [Textbook.file, hside]
    have hcount : (b.file o [] o.quantity).count = b.count + 1 := by
      unfold Textbook.count
      rw [hbuys, hsells, length_enqueue, hsell]
      simp
    obtain ⟨h1, h2, h3⟩ := ih hsells (fun r hr => by
      rw [hbuys] at hr
      exact (mem_enqueue.mp hr).elim id (hbuy r)) (by omega)
    rw [List.replicate_succ, show b.acceptAll (o :: List.replicate n o) =
      ((b.file o [] o.quantity).acceptAll (List.replicate n o)).map id ([] ++ ·) by
        simp [Textbook.acceptAll, hacc, Prod.map]]
    refine ⟨h1, h2, ?_⟩
    show ((b.file o [] o.quantity).acceptAll (List.replicate n o)).1.count = _
    omega

/-- **A cross that is missed.** After 65536 buys at a dollar a sell at a dollar crosses the best bid,
but it is dropped, and so is every later order. -/
theorem missed_cross :
    ∃ s log, (new fun _ => 0).acceptAll (List.replicate 65536 (Order.plain .buy 1 1)) =
        .ok (s, log) ∧
      s.CrossesBest (Order.plain .sell 1 1) ∧ 0 < (Order.plain .sell 1 1).quantity ∧
      0 ≤ priceToTick (Order.plain .sell 1 1).price ∧
      priceToTick (Order.plain .sell 1 1).price < maxTicks ∧
      s.acceptNewOrder (Order.plain .sell 1 1) = .ok (s, []) ∧
      ∀ os, s.acceptAll os = .ok (s, []) := by
  have htick : priceToTick 1 = (100 : ℕ) := by decide +kernel
  have hmax : 100 < maxTicks := by unfold maxTicks; norm_num
  have hpos : ∀ o ∈ List.replicate 65536 (Order.plain .buy 1 1), 0 < o.quantity := by
    intro o ho
    rw [List.eq_of_mem_replicate ho]
    decide
  obtain ⟨s, v, log, hall, -, hrep, -, hmod, -⟩ := acceptAll_models (fun _ => 0) hpos
  rw [List.map_replicate] at hmod
  obtain ⟨hbuy, hsell, hcount⟩ := accept_replicate (o := (Order.plain .buy 1 1).limit) rfl
    (by decide) (by show 0 ≤ priceToTick 1; omega) (by show priceToTick 1 < _; omega) 65536
    (b := Textbook.empty) rfl (by simp [Textbook.empty]) (by simp [Textbook.count, Textbook.empty])
  have hfull : s.poolAvailable = 0 := by
    have hcap : poolCapacity = 65536 := by unfold poolCapacity; rfl
    have hc := hmod.count
    have h0 : Textbook.empty.count = 0 := rfl
    rw [poolAvailable_eq hrep]
    omega
  refine ⟨s, log, hall, ?_, by decide, by show 0 ≤ priceToTick 1; omega,
    by show priceToTick 1 < _; omega, acceptNewOrder_of_full hfull _, acceptAll_of_full hfull⟩
  -- the bids are at tick 100
  have hne : v.queue (symKey (Order.plain .sell 1 1).symbol, .buy, 100) ≠ [] := by
    intro hnil
    obtain ⟨r, hr⟩ : ∃ r, r ∈ (Textbook.empty.acceptAll
        (List.replicate 65536 (Order.plain .buy 1 1).limit)).1.resting .buy := by
      refine List.exists_mem_of_ne_nil _ fun he => ?_
      rw [Textbook.count, he, hsell] at hcount
      simp at hcount
    have hmem : r ∈ v.orders (symKey (Order.plain .sell 1 1).symbol, .buy, 100) := by
      rw [hmod.level, List.mem_filter]
      refine ⟨hr, decide_eq_true ?_⟩
      rw [hbuy r hr]
      exact ⟨rfl, htick⟩
    simp [View.orders, hnil] at hmem
  have hbest := (hrep.book (symKey (Order.plain .sell 1 1).symbol)).bestBid.le_of_ne_nil hne
  show priceToTick 1 ≤ _
  rw [htick]
  exact hbest

end OrderBook

end TradingSim
