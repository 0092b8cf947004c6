import TradingSim.OrderBook.View

/-!
The engine and the clock. `matchOrders` reads `steady_clock` once for each execution and looks at no time,
neither its own nor those of the orders. So other readings give the same run with other stamps
(`OrderBook.acceptNewOrder_timed`), and the stamps are the readings one after the other
(`OrderBook.acceptNewOrder_clock`).
-/

namespace TradingSim

open Lib

/-- The same round, at another time. -/
def Trade.stamped (tr : Trade) (now : Int64) : Trade :=
  { tr with exec := { tr.exec with arrivalNs := now } }

/-- The same rounds, at the readings of another clock. -/
def Trade.stampAll (clock : ℕ → Int64) (log : List Trade) : List Trade :=
  log.mapIdx fun i tr => tr.stamped (clock i)

namespace Trade

variable {clock clock' : ℕ → Int64} {log : List Trade}

@[simp] theorem length_stampAll : (stampAll clock log).length = log.length := List.length_mapIdx

theorem stampAll_snoc (tr : Trade) :
    stampAll clock (log ++ [tr]) = stampAll clock log ++ [tr.stamped (clock log.length)] := by
  simp [stampAll, List.mapIdx_append]

theorem stampAll_congr (h : ∀ i < log.length, clock i = clock' i) :
    stampAll clock log = stampAll clock' log := by
  apply List.ext_getElem
  · simp
  · intro i hi _
    rw [length_stampAll] at hi
    simp [stampAll, h i hi]

end Trade

namespace MatchState

/-- The same state of the loop, with the clock of the call another one. -/
def timed (clock : ℕ → Int64) (m : MatchState) : MatchState :=
  { m with
    clock := fun i => clock (m.log.length + i)
    log := Trade.stampAll clock m.log }

variable {clock : ℕ → Int64}

theorem settle_timed (pop : SymbolBook → Slab → Except Fault SymbolBook) (m : MatchState) (o : Slot) :
    (m.timed clock).settle pop o = Except.map (timed clock) (m.settle pop o) := by
  unfold settle
  rw [apply_ite (Except.map (timed clock)), Lib.map_bind]
  simp only [Lib.map_bind]
  rfl

/-- The state after the trade of a round, before the two orders are settled. -/
def traded (m : MatchState) (o : Slot) (aggressor : OrderType) (bid ask : Slot) : MatchState :=
  let bidOrder := (m.pool.slab bid).toOrder
  let askOrder := (m.pool.slab ask).toOrder
  let tradeQty := minQty askOrder.quantity bidOrder.quantity
  let exec := buildExecution tradeQty askOrder bidOrder (m.pool.slab o).symbol aggressor (m.clock 0)
  { m with
    pool := { m.pool with slab := Slab.take (Slab.take m.pool.slab bid tradeQty) ask tradeQty }
    clock := fun i => m.clock (i + 1)
    log := m.log ++ [⟨exec, bid, ask, bidOrder, askOrder⟩] }

theorem traded_timed (m : MatchState) (o : Slot) (aggressor : OrderType) (bid ask : Slot) :
    (m.timed clock).traded o aggressor bid ask = (m.traded o aggressor bid ask).timed clock := by
  simp only [traded, timed, Trade.stampAll_snoc, List.length_append, List.length_singleton]
  congr 1
  funext i
  congr 1
  omega

/-- **One round** reads the clock once and looks at no time. -/
theorem round_timed (o : Slot) (aggressor : OrderType) (m : MatchState) :
    (m.timed clock).round o aggressor = Except.map (Option.map (timed clock)) (m.round o aggressor) := by
  unfold round
  simp only [apply_ite (Except.map (Option.map (timed clock))), Lib.map_bind]
  congr 1
  congr 1
  refine bind_congr fun bidLevel => bind_congr fun askLevel => bind_congr fun bid =>
    bind_congr fun ask => ?_
  change ((m.timed clock).traded o aggressor bid ask).settleBid bid >>= _ =
    (m.traded o aggressor bid ask).settleBid bid >>= _
  rw [settleBid_eq, settleBid_eq, traded_timed, settle_timed]
  cases (m.traded o aggressor bid ask).settle SymbolBook.popBid bid with
  | error e => rfl
  | ok m' =>
    change (m'.timed clock).settleAsk ask >>= _ = m'.settleAsk ask >>= _
    rw [settleAsk_eq, settleAsk_eq, settle_timed]
    cases m'.settle SymbolBook.popAsk ask <;> rfl

end MatchState

theorem matchOrders_timed (clock : ℕ → Int64) (o : Slot) (aggressor : OrderType) (m : MatchState) :
    matchOrders o aggressor (m.timed clock) = Except.map (.timed clock) (matchOrders o aggressor m) :=
  loop_map (MatchState.round_timed o aggressor) _ m

namespace OrderBook

variable {s s' : OrderBook} {o : Order} {log : List Trade}

/-- The engine after a call with another clock. -/
def timed (clock : ℕ → Int64) (r : OrderBook × List Trade) : OrderBook × List Trade :=
  ({ r.1 with clock := fun i => clock (r.2.length + i) }, Trade.stampAll clock r.2)

/-- **Other readings of the clock** give the same call with other stamps. -/
theorem acceptNewOrder_timed (clock : ℕ → Int64) (s : OrderBook) (o : Order) :
    acceptNewOrder { s with clock := clock } o = Except.map (timed clock) (s.acceptNewOrder o) := by
  have hidle : ({ s with clock := clock }, []) = timed clock (s, []) := by
    simp [timed, Trade.stampAll]
  unfold acceptNewOrder
  simp only [apply_ite (Except.map (timed clock))]
  split
  · rw [hidle]
    rfl
  · cases s.pool.alloc with
    | none =>
      rw [hidle]
      rfl
    | some taken =>
      obtain ⟨x, pool⟩ := taken
      simp only [Lib.map_bind]
      refine bind_congr fun filed => ?_
      obtain ⟨book, slab⟩ := filed
      -- the call starts with an empty log
      have hstart : ∀ m : MatchState, m.log = [] → { m with clock := clock } = m.timed clock := by
        rintro ⟨pool, book, clk, log⟩ rfl
        simp [MatchState.timed, Trade.stampAll]
      have hmatch := matchOrders_timed clock x (slab x).orderType
        { pool := { pool.write x { o with next := none } with slab := slab }, book := book,
          clock := s.clock, log := [] }
      rw [← hstart _ rfl] at hmatch
      change matchOrders x (slab x).orderType _ >>= _ = matchOrders x (slab x).orderType _ >>= _
      rw [hmatch]
      generalize matchOrders x (slab x).orderType _ = matched
      cases matched with
      | error e => simp only [Except.map, error_bind]
      | ok m => simp only [Except.map, ok_bind, pure_eq_ok, MatchState.timed, timed]

/-- **The stamps of a call** are the next readings of the clock, one for each execution. -/
theorem acceptNewOrder_clock (h : s.acceptNewOrder o = .ok (s', log)) :
    (s'.clock = fun i => s.clock (log.length + i)) ∧ Trade.stampAll s.clock log = log := by
  have heq := acceptNewOrder_timed s.clock s o
  rw [h] at heq
  obtain ⟨hs, hlog⟩ := Prod.mk.inj (Except.ok.inj heq)
  exact ⟨congrArg OrderBook.clock hs, hlog.symm⟩

theorem acceptNewOrder_stamp (h : s.acceptNewOrder o = .ok (s', log)) (i : ℕ) (hi : i < log.length) :
    log[i].exec.arrivalNs = s.clock i := by
  have hget : (Trade.stampAll s.clock log)[i]? = log[i]? := by rw [(acceptNewOrder_clock h).2]
  rw [Trade.stampAll, List.getElem?_mapIdx, List.getElem?_eq_getElem hi, Option.map_some,
    Option.some_inj] at hget
  rw [← hget]
  rfl

theorem acceptNewOrder_arrivals (h : s.acceptNewOrder o = .ok (s', log)) :
    log.map (fun tr => tr.exec.arrivalNs) = (List.range log.length).map s.clock := by
  apply List.ext_getElem
  · simp
  · intro i hi _
    rw [List.length_map] at hi
    simp [acceptNewOrder_stamp h i hi]

/-- A clock with the readings that the call was stamped with gives the same call. -/
theorem acceptNewOrder_replay {clock : ℕ → Int64} (h : s.acceptNewOrder o = .ok (s', log))
    (hclock : ∀ i < log.length, clock i = s.clock i) :
    acceptNewOrder { s with clock := clock } o =
      .ok ({ s' with clock := fun i => clock (log.length + i) }, log) := by
  rw [acceptNewOrder_timed, h]
  have hlog : Trade.stampAll clock log = log :=
    (Trade.stampAll_congr hclock).trans (acceptNewOrder_clock h).2
  simp only [Except.map, timed, hlog]

end OrderBook

/-! ### Stamps in the book -/

namespace View

variable {v v' : View} {since now : Int64} {k : UInt64} {tb ta : ℕ} {b a x : Slot} {o : Order} {l : Loc}
  {log : List Trade}

/-- The orders in the book were stamped between `since` and `now`, and those of a level in the order of
their turns. -/
structure Timely (v : View) (since now : Int64) : Prop where
  within : ∀ l, ∀ x ∈ v.queue l, since ≤ (v.cell x).arrivalNs ∧ (v.cell x).arrivalNs ≤ now
  ordered : ∀ l, ((v.queue l).map fun x => (v.cell x).arrivalNs).Pairwise (· ≤ ·)

theorem new_timely : View.new.Timely since now := ⟨by simp [View.new], by simp [View.new]⟩

theorem Timely.mono {now' : Int64} (h : v.Timely since now) (hle : now ≤ now') :
    v.Timely since now' :=
  ⟨fun l x hx => ⟨(h.within l x hx).1, Int64.le_trans (h.within l x hx).2 hle⟩, h.ordered⟩

theorem trade_queue_suffix (hne : b ≠ a) (l : Loc) : (v.trade k tb ta b a).queue l <:+ v.queue l := by
  by_cases hb : l = bidAt k tb
  · rw [hb, trade_queue_bid hne]
    split
    · exact List.tail_suffix _
    · exact List.suffix_refl _
  by_cases ha : l = askAt k ta
  · rw [ha, trade_queue_ask hne]
    split
    · exact List.tail_suffix _
    · exact List.suffix_refl _
  · rw [trade_queue_other hb ha]

theorem trade_arrivalNs (hne : b ≠ a) (x : Slot) :
    ((v.trade k tb ta b a).cell x).arrivalNs = (v.cell x).arrivalNs := by
  obtain ⟨q, hq⟩ : ∃ q, (v.trade k tb ta b a).cell x = { v.cell x with quantity := q } :=
    trade_cell_terms hne x
  rw [hq]

theorem Timely.trade (h : v.Timely since now) (hne : b ≠ a) :
    (v.trade k tb ta b a).Timely since now := by
  constructor
  · intro l x hx
    rw [trade_arrivalNs hne]
    exact h.within l x ((trade_queue_suffix hne l).subset hx)
  · intro l
    simp only [trade_arrivalNs hne]
    exact (h.ordered l).sublist ((trade_queue_suffix hne l).sublist.map _)

theorem Timely.insert (h : v.Timely since now) (hx : ∀ l, x ∉ v.queue l) (hsince : since ≤ now)
    (hnow : now ≤ o.arrivalNs) : (v.insert x o l).Timely since o.arrivalNs := by
  have hself : (v.insert x o l).cell x = o := Function.update_self _ _ _
  have hother : ∀ l' y, y ∈ v.queue l' → ((v.insert x o l).cell y).arrivalNs = (v.cell y).arrivalNs := by
    intro l' y hy
    rw [insert_cell_of_mem hx hy]
  have hpast : ∀ l' y, y ∈ v.queue l' → (v.cell y).arrivalNs ≤ o.arrivalNs := by
    intro l' y hy
    exact Int64.le_trans (h.within l' y hy).2 hnow
  constructor
  · intro l' y hy
    rcases mem_insert_queue.mp hy with hy | ⟨-, rfl⟩
    · rw [hother l' y hy]
      exact ⟨(h.within l' y hy).1, hpast l' y hy⟩
    · rw [hself]
      exact ⟨Int64.le_trans hsince hnow, Int64.le_refl _⟩
  · intro l'
    have hmap : (v.queue l').map (fun y => ((v.insert x o l).cell y).arrivalNs) =
        (v.queue l').map fun y => (v.cell y).arrivalNs := List.map_congr_left fun y hy => hother l' y hy
    by_cases hl : l' = l
    · subst hl
      have hqueue : (v.insert x o l').queue l' = v.queue l' ++ [x] := Function.update_self _ _ _
      rw [hqueue, List.map_append, hmap, List.pairwise_append]
      refine ⟨h.ordered l', by simp, ?_⟩
      intro n hn m hm
      obtain ⟨y, hy, rfl⟩ := List.mem_map.mp hn
      obtain rfl : m = o.arrivalNs := by simpa [hself] using hm
      exact hpast l' y hy
    · rw [insert_queue_other hl, hmap]
      exact h.ordered l'

/-- **A call** keeps the stamps in order, and no execution of it is for an order stamped later than its
own. -/
theorem Accept.timely (h : v.Accept o log v') (hwf : v.WF) (hv : v.Timely since now)
    (hsince : since ≤ now) (hnow : now ≤ o.arrivalNs) :
    v'.Timely since o.arrivalNs ∧
      ∀ tr ∈ log, since ≤ tr.exec.orderArrivalNs ∧ tr.exec.orderArrivalNs ≤ o.arrivalNs := by
  cases h with
  | outOfRange _ => exact ⟨hv.mono hnow, by simp⟩
  | exhausted _ => exact ⟨hv.mono hnow, by simp⟩
  | @sweep x l free _ _ hfree hAt hs =>
    have hx : ∀ l, x ∉ v.queue l := hwf.idle x (by rw [hfree]; simp)
    have hrule := hs.rule (I := fun w => w.WF ∧ w.Timely since o.arrivalNs)
      (P := fun tr => since ≤ tr.exec.orderArrivalNs ∧ tr.exec.orderArrivalNs ≤ o.arrivalNs)
      ⟨insert_wf hwf hfree hAt, hv.insert hx hsince hnow⟩ ?_
    · exact ⟨hrule.1.2, hrule.2⟩
    rintro w tb ta b a tr ⟨hw, htime⟩ hc ⟨-, -, -, -, _, hexec⟩
    refine ⟨⟨trade_wf hw hc, htime.trade (hc.ne hw)⟩, ?_⟩
    -- the order in question is the first of the best level of its side
    rw [hexec]
    cases l.2.1 with
    | buy => exact htime.within _ b (List.mem_of_head? hc.bid)
    | sell => exact htime.within _ a (List.mem_of_head? hc.ask)

end View

end TradingSim
