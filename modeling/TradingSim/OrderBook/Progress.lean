import TradingSim.OrderBook.Invariants
import Mathlib.Order.CompletePartialOrder

/-!
The matching loop ends: `matchOrders` has no bound on its rounds, and every round gives an order of
the symbol's book back to the pool, so there are at most as many rounds as that book holds orders
(`acceptNewOrder_rounds`). It holds for every quantity, zero and negative ones included: the quantity
traded is that of one of the two orders, so one of them is left with nothing.

The loop is looked at round by round. `OrderBook.file` is the part of `acceptNewOrder` before it, and
`Rounds` the states at its head.
-/

namespace TradingSim

open Lib

namespace MatchState

/-- The level of a side and tick of the book at hand. -/
def level (m : MatchState) (σ : OrderType) (t : Fin maxTicks) : PriceLevel :=
  match σ with
  | .buy => m.book.bids t
  | .sell => m.book.asks t

/-- The slots of the orders that rest in the book at hand. -/
def resting (m : MatchState) : Set Slot :=
  { x | ∃ σ t, x ∈ walk (Slab.nx m.pool.slab) poolCapacity (m.level σ t).head }

/-- An iteration of the loop, from `m` to `m'`: both best ticks are inside the book, the levels there
have a first order, and at least one order leaves. -/
structure Progress (m m' : MatchState) : Prop where
  bestBid : ∃ t : Fin maxTicks, m.book.bestBidTick = (t : ℕ) ∧ (m.book.bids t).front ≠ none
  bestAsk : ∃ t : Fin maxTicks, m.book.bestAskTick = (t : ℕ) ∧ (m.book.asks t).front ≠ none
  leaves : m'.resting ⊂ m.resting

end MatchState

/-! ### What rests in the book at hand -/

section Round

variable {m m' : MatchState} {books : UInt64 → Option SymbolBook} {k : UInt64} {v : View}
  {b a : Slot} {tb ta : ℕ}

/-- The queues of the symbol that the loop works on. -/
def View.restingOf (v : View) (k : UInt64) : Set Slot := { x | ∃ σ t, x ∈ v.queue (k, σ, t) }

theorem Rep.level_walk (h : Rep m.pool (Function.update books k (some m.book)) v) (σ : OrderType)
    (t : Fin maxTicks) :
    walk (Slab.nx m.pool.slab) poolCapacity (m.level σ t).head = v.queue (k, σ, t) := by
  have hbook := h.book k
  simp only [Function.update_self, Option.getD_some] at hbook
  have hlen := (h.wf.nodup (k, σ, t)).length_le_card
  rw [Fintype.card_fin] at hlen
  cases σ with
  | buy => exact (hbook.bids.level t).chain.walk_eq hlen
  | sell => exact (hbook.asks.level t).chain.walk_eq hlen

theorem Rep.resting_eq (h : Rep m.pool (Function.update books k (some m.book)) v) :
    m.resting = v.restingOf k := by
  ext x
  constructor
  · rintro ⟨σ, t, hx⟩
    exact ⟨σ, t, h.level_walk σ t ▸ hx⟩
  · rintro ⟨σ, t, hx⟩
    have ht : t < maxTicks := (h.wf.filed _ x hx).2.2.2
    refine ⟨σ, ⟨t, ht⟩, ?_⟩
    rw [h.level_walk]
    exact hx

theorem View.restingOf_trade (hwf : v.WF) (hc : v.Cross k tb ta b a) :
    (v.trade k tb ta b a).restingOf k ⊂ v.restingOf k := by
  have hsub : (v.trade k tb ta b a).restingOf k ⊆ v.restingOf k := by
    rintro x ⟨σ, t, hx⟩
    exact ⟨σ, t, ((mem_trade_queue hwf hc).mp hx).1⟩
  refine ⟨hsub, fun hsup => ?_⟩
  -- the order that is filled is the one that left
  rcases v.filled_of_trade b a with hfill | hfill
  · obtain ⟨σ, t, hb⟩ := hsup ⟨.buy, tb, List.mem_of_mem_head? hc.bid⟩
    exact ((mem_trade_queue hwf hc).mp hb).2.1 rfl hfill
  · obtain ⟨σ, t, ha⟩ := hsup ⟨.sell, ta, List.mem_of_mem_head? hc.ask⟩
    exact ((mem_trade_queue hwf hc).mp ha).2.2 rfl hfill

theorem Rep.progress (h : Rep m.pool (Function.update books k (some m.book)) v)
    (hc : v.Cross k tb ta b a)
    (h' : Rep m'.pool (Function.update books k (some m'.book)) (v.trade k tb ta b a)) :
    m.Progress m' := by
  have hbook := h.book k
  simp only [Function.update_self, Option.getD_some] at hbook
  refine ⟨?_, ?_, ?_⟩
  · rcases hbook.bestBid with ⟨-, hnil⟩ | ⟨t, hbest, hne, -⟩
    · exact absurd (hnil tb) hc.bid_ne_nil
    · refine ⟨⟨t, hbook.bids.lt_of_ne_nil hne⟩, hbest, ?_⟩
      exact fun hnone => hne ((hbook.bids.level _).head_eq_none.mp hnone)
  · rcases hbook.bestAsk with ⟨-, hnil⟩ | ⟨t, hbest, hne, -⟩
    · exact absurd (hnil ta) hc.ask_ne_nil
    · refine ⟨⟨t, hbook.asks.lt_of_ne_nil hne⟩, hbest, ?_⟩
      exact fun hnone => hne ((hbook.asks.level _).head_eq_none.mp hnone)
  · rw [h.resting_eq, h'.resting_eq]
    exact View.restingOf_trade h.wf hc

/-- **One round** returns or makes progress. -/
theorem Rep.round_progress (h : Rep m.pool (Function.update books k (some m.book)) v) (o : Slot)
    (σ : OrderType) :
    m.round o σ = .ok none ∨ ∃ m' v', m.round o σ = .ok (some m') ∧ m.Progress m' ∧
      Rep m'.pool (Function.update books k (some m'.book)) v' := by
  rcases h.round o σ with ⟨hret, -⟩ | ⟨m', tb, ta, b, a, tr, hround, hc, -, -, h'⟩
  · exact Or.inl hret
  · exact Or.inr ⟨m', _, hround, h.progress hc h', h'⟩

theorem Rep.rounds (h : Rep m.pool (Function.update books k (some m.book)) v) {o : Slot}
    {σ : OrderType} {n : ℕ} (hrounds : Rounds (MatchState.round o σ) m n m') :
    ∃ v', Rep m'.pool (Function.update books k (some m'.book)) v' := by
  refine hrounds.rule (I := fun m => ∃ w, Rep m.pool (Function.update books k (some m.book)) w)
    ⟨v, h⟩ ?_
  rintro m₁ m₂ ⟨w₁, hw₁⟩ hround
  rcases hw₁.round_progress o σ with hret | ⟨m₃, w₃, hround', -, hw₃⟩
  · rw [hret] at hround
    cases hround
  · obtain rfl : m₃ = m₂ := by simpa using hround'.symm.trans hround
    exact ⟨w₃, hw₃⟩

/-- The number of orders in the book bounds the iterations. -/
theorem Rep.exists_return (h : Rep m.pool (Function.update books k (some m.book)) v) (o : Slot)
    (σ : OrderType) : ∃ n m', n ≤ m.resting.ncard ∧ Rounds (MatchState.round o σ) m n m' ∧
      m'.round o σ = .ok none := by
  refine Rounds.exists_return
    (I := fun m : MatchState => ∃ w, Rep m.pool (Function.update books k (some m.book)) w)
    (μ := fun m => m.resting.ncard) ?_ ⟨v, h⟩
  rintro m ⟨w, hw⟩
  rcases hw.round_progress o σ with hret | ⟨m', w', hround, hprog, hw'⟩
  · exact Or.inl hret
  · exact Or.inr ⟨m', hround, ⟨w', hw'⟩, Set.ncard_lt_ncard hprog.leaves (Set.toFinite _)⟩

end Round

/-! ### The call -/

namespace OrderBook

/-- `acceptNewOrder` up to its call of `matchOrders`: the slot of the order and the state that the
loop starts from, or nothing for an order that is turned away. -/
def file (s : OrderBook) (order : Order) : Except Fault (Option (Slot × MatchState)) := do
  let tick := priceToTick order.price
  if tick < 0 ∨ tick ≥ maxTicks then return none
  match s.pool.alloc with
  | none => return none
  | some (o, pool) =>
    let pool := pool.write o { order with next := none }
    let (book, slab) ← (s.book (symKey (pool.slab o).symbol)).rest pool.slab o tick
    return some (o,
      { pool := { pool with slab := slab }, book := book, clock := s.clock, log := [] })

variable {s : OrderBook} {v : View} {order : Order}

/-- An order is turned away for its tick or for want of a slot, or filed at the end of the queue of
its tick. -/
theorem file_spec (h : Rep s.pool s.books v) (order : Order) :
    ((∀ l, order.At l → v.free = []) ∧ s.file order = .ok none ∧
        s.acceptNewOrder order = .ok (s, [])) ∨
      ∃ x m t, order.At (symKey order.symbol, order.orderType, t) ∧ v.free ≠ [] ∧
        s.file order = .ok (some (x, m)) ∧
        Rep m.pool (Function.update s.books (symKey order.symbol) (some m.book))
          (v.insert x order (symKey order.symbol, order.orderType, t)) ∧
        ∀ m', matchOrders x order.orderType m = .ok m' → s.acceptNewOrder order =
          .ok ({ pool := m'.pool
                 books := Function.update s.books (symKey order.symbol) (some m'.book)
                 clock := m'.clock }, m'.log) := by
  unfold file acceptNewOrder
  by_cases htick : priceToTick order.price < 0 ∨ priceToTick order.price ≥ maxTicks
  · refine Or.inl ⟨?_, by simp only [if_pos htick, pure_eq_ok], by simp only [if_pos htick, pure_eq_ok]⟩
    rintro l ⟨-, -, hl, hlt⟩
    omega
  obtain ⟨t, ht⟩ : ∃ t : ℕ, priceToTick order.price = t :=
    ⟨(priceToTick order.price).toNat, by omega⟩
  have hAt : order.At (symKey order.symbol, order.orderType, t) := ⟨rfl, rfl, ht, by simp only; omega⟩
  rw [if_neg htick, if_neg htick]
  rcases s.pool.alloc_spec with ⟨hempty, halloc⟩ | ⟨x, pool, halloc, hlive, hslab⟩
  · refine Or.inl ⟨fun _ _ => ?_, by simp only [halloc, pure_eq_ok], by simp only [halloc, pure_eq_ok]⟩
    rw [← h.free, hempty]
  · obtain ⟨book, slab, hrest, hself, hrep⟩ := h.insert hlive hslab hAt
    have hkey : ((pool.write x { order with next := none }).slab x).symbol = order.symbol := by simp
    have htype : (slab x).orderType = order.orderType := by rw [hself]
    refine Or.inr ⟨x, {
        pool := { pool.write x { order with next := none } with slab := slab }
        book := book
        clock := s.clock
        log := [] }, t, hAt, by rw [← h.free, hlive]; simp, ?_, hrep, ?_⟩
    · simp only [halloc, hkey, OrderBook.book, ht, hrest, ok_bind, pure_eq_ok]
    · intro m' hrun
      simp only [halloc, hkey, OrderBook.book, ht, hrest, htype, hrun, ok_bind, pure_eq_ok]

/-- **The matching loop ends, and never reads a null order.** After any sequence of orders, with
whatever quantities, the next order is turned away, or `matchOrders` returns after at most as many
iterations as orders rest in the book it was filed in; at the head of each of them the best ticks are
inside the book and both levels have a first order, and each takes at least one order out. -/
theorem acceptNewOrder_rounds (clock : ℕ → Int64) (os : List Order) :
    ∃ s log, (new clock).acceptAll os = .ok (s, log) ∧ ∀ order,
      (s.file order = .ok none ∧ s.acceptNewOrder order = .ok (s, [])) ∨
      ∃ x m, s.file order = .ok (some (x, m)) ∧
        (∃ n m', n ≤ m.resting.ncard ∧
          Rounds (MatchState.round x order.orderType) m n m' ∧
          m'.round x order.orderType = .ok none ∧ matchOrders x order.orderType m = .ok m' ∧
          s.acceptNewOrder order =
            .ok ({ pool := m'.pool
                   books := Function.update s.books (symKey order.symbol) (some m'.book)
                   clock := m'.clock }, m'.log)) ∧
        ∀ n m₁, Rounds (MatchState.round x order.orderType) m n m₁ →
          m₁.round x order.orderType = .ok none ∨
          ∃ m₂, m₁.round x order.orderType = .ok (some m₂) ∧ m₁.Progress m₂ := by
  obtain ⟨s, v, log, hall, -, hrep, -⟩ := acceptAll_new clock os
  refine ⟨s, log, hall, fun order => ?_⟩
  rcases file_spec hrep order with ⟨-, hnone⟩ | ⟨x, m, t, -, -, hfile, hm, haccept⟩
  · exact Or.inl hnone
  refine Or.inr ⟨x, m, hfile, ?_, ?_⟩
  · obtain ⟨n, m', hn, hrounds, hret⟩ := hm.exists_return x order.orderType
    -- the rounds are those of the loop
    have hlong : loop .outOfRounds (MatchState.round x order.orderType) (poolCapacity + 1 + n) m =
        .ok m' := by
      rw [hrounds.loop_eq]
      exact loop_exit _ hret
    rw [hm.matchOrders_rounds x order.orderType (by omega)] at hlong
    exact ⟨n, m', hn, hrounds, hret, hlong, haccept m' hlong⟩
  · intro n m₁ hrounds
    obtain ⟨w₁, hw₁⟩ := hm.rounds hrounds
    rcases hw₁.round_progress x order.orderType with hret | ⟨m₂, w₂, hround, hprog, -⟩
    · exact Or.inl hret
    · exact Or.inr ⟨m₂, hround, hprog⟩

end OrderBook

end TradingSim
