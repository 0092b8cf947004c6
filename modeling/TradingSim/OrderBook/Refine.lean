import TradingSim.OrderBook.Rep

/-!
The engine refines its view: from a state that represents a well-formed view, `acceptNewOrder` does
not fault, and its result represents the view in which the order was filed and the matching loop
was run to its end (`acceptNewOrder_spec`).

`Rep pool books v` covers all symbols at once. Inside the loop the book at hand is not in the map,
so the invariant of a round is stated for the map with that book put back.
-/

namespace TradingSim

open Lib

/-- The pool and the books stand for the view `v`, which is well formed. -/
structure Rep (pool : ObjectPool Cell poolCapacity) (books : UInt64 → Option SymbolBook)
    (v : View) : Prop where
  cell : ∀ x, (pool.slab x).toOrder = v.cell x
  free : pool.live = v.free
  book : ∀ k, BookRep pool.slab ((books k).getD SymbolBook.new) fun σ t => v.queue (k, σ, t)
  wf : v.WF

theorem queue_update_own (queue : Loc → List Slot) (k : UInt64) (σ : OrderType) (t : ℕ)
    (xs : List Slot) :
    (fun σ' t' => Function.update queue (k, σ, t) xs (k, σ', t')) =
      Function.update (fun σ' t' => queue (k, σ', t')) σ
        (Function.update (fun t' => queue (k, σ, t')) t xs) := by
  funext σ' t'
  by_cases hσ : σ' = σ
  · subst hσ
    rw [Function.update_self]
    by_cases ht : t' = t
    · subst ht; simp
    · rw [Function.update_of_ne ht, Function.update_of_ne (by simp [ht])]
  · rw [Function.update_of_ne hσ, Function.update_of_ne (by simp [hσ])]

theorem queue_update_other (queue : Loc → List Slot) {k k' : UInt64} (hk : k' ≠ k) (σ : OrderType)
    (t : ℕ) (xs : List Slot) :
    (fun σ' t' => Function.update queue (k, σ, t) xs (k', σ', t')) =
      fun σ' t' => queue (k', σ', t') := by
  funext σ' t'
  rw [Function.update_of_ne (by simp [hk])]

namespace Rep

variable {pool : ObjectPool Cell poolCapacity} {books : UInt64 → Option SymbolBook} {v : View}
  {k : UInt64} {o x b a : Slot} {t tb ta : ℕ} {σ : OrderType}

theorem new :
    Rep (ObjectPool.new { Order.zero with next := none }) (fun _ => none) View.new where
  cell _ := rfl
  free := ObjectPool.live_new _
  book _ := BookRep.new _
  wf := View.new_settled.wf

theorem take (h : Rep pool books v) (x : Slot) (q : Int32) :
    Rep { pool with slab := Slab.take pool.slab x q } books (v.take x q) where
  cell y := by
    by_cases hy : y = x
    · subst hy
      simp [Slab.take, View.take, ← h.cell]
    · simp [Slab.take, View.take, Function.update_of_ne hy, h.cell]
  free := h.free
  book k := (h.book k).congr fun σ t y _ => by rw [Slab.take_nx]
  wf := View.take_wf h.wf

theorem drop {book : SymbolBook} {l : Loc} {xs : List Slot}
    (h : Rep pool books v) (hl : l = (k, σ, t)) (hq : v.queue l = x :: xs)
    (hbook : BookRep pool.slab book (Function.update (fun σ' t' => v.queue (k, σ', t')) σ
      (Function.update (fun t' => v.queue (k, σ, t')) t xs))) :
    ∃ pool', pool.release x = .ok pool' ∧ pool'.slab = pool.slab ∧
      Rep pool' (Function.update books k (some book)) (v.drop l x) := by
  subst hl
  have hx : x ∈ v.queue (k, σ, t) := by rw [hq]; simp
  obtain ⟨pool', hrel, hlive, hslab⟩ := pool.release_spec x
    (by rw [h.free]; exact h.wf.length_free_lt hx)
  refine ⟨pool', hrel, hslab, ⟨fun y => ?_, ?_, fun k' => ?_, ?_⟩⟩
  · rw [hslab]; exact h.cell y
  · rw [hlive, h.free]; rfl
  · rw [hslab]
    by_cases hk : k' = k
    · subst hk
      simp only [View.drop, hq, List.tail_cons, queue_update_own, Function.update_self,
        Option.getD_some]
      exact hbook
    · simp only [View.drop, queue_update_other _ hk, Function.update_of_ne hk]
      exact h.book k'
  · exact View.drop_wf h.wf (by rw [hq]; rfl)

variable {m : MatchState}

/-- An order of a round leaves if it is filled. `Kept` is what the loop still has to know of the book. -/
theorem settle {pop : SymbolBook → Slab → Except Fault SymbolBook} (Kept : SymbolBook → Prop)
    {σ : OrderType} {t : ℕ} {x : Slot} (h : Rep m.pool (Function.update books k (some m.book)) v)
    (hx : (v.queue (k, σ, t)).head? = some x) (hkept : Kept m.book)
    (hpop : ∀ xs, v.queue (k, σ, t) = x :: xs → ∃ book, pop m.book m.pool.slab = .ok book ∧
      Kept book ∧ BookRep m.pool.slab book (Function.update (fun σ u => v.queue (k, σ, u)) σ
        (Function.update (fun u => v.queue (k, σ, u)) t xs))) :
    ∃ m', m.settle pop x = .ok m' ∧
      Rep m'.pool (Function.update books k (some m'.book)) (v.dropFilled (k, σ, t) x) ∧
      Kept m'.book ∧ m'.log = m.log := by
  have hcell : (m.pool.slab x).quantity = (v.cell x).quantity := by rw [← h.cell]
  unfold View.dropFilled MatchState.settle
  rw [hcell]
  by_cases hz : (v.cell x).quantity = 0
  · obtain ⟨xs, hq⟩ := List.head?_eq_some_iff.mp hx
    obtain ⟨book, hbook, hkept', hrep⟩ := hpop xs hq
    obtain ⟨pool, hrel, hslab, hrep'⟩ := h.drop rfl hq hrep
    refine ⟨{ m with book := book, pool := pool }, ?_, ?_, hkept', rfl⟩
    · rw [if_pos hz]
      simp only [hbook, hrel, ok_bind, pure_eq_ok]
    · rw [if_pos hz]
      simpa using hrep'
  · exact ⟨m, by rw [if_neg hz], by rw [if_neg hz]; exact h, hkept, rfl⟩

theorem settleBid (h : Rep m.pool (Function.update books k (some m.book)) v)
    (hbest : m.book.bestBidTick = tb) (hb : (v.queue (k, .buy, tb)).head? = some b) :
    ∃ m', m.settleBid b = .ok m' ∧
      Rep m'.pool (Function.update books k (some m'.book)) (v.dropFilled (k, .buy, tb) b) ∧
      m'.book.bestAskTick = m.book.bestAskTick ∧ m'.log = m.log := by
  have hbook := h.book k
  simp only [Function.update_self, Option.getD_some] at hbook
  rw [MatchState.settleBid_eq]
  exact h.settle (fun book => book.bestAskTick = m.book.bestAskTick) hb rfl fun xs hq =>
    hbook.popBid hbest hq

theorem settleAsk (h : Rep m.pool (Function.update books k (some m.book)) v)
    (hbest : m.book.bestAskTick = ta) (ha : (v.queue (k, .sell, ta)).head? = some a) :
    ∃ m', m.settleAsk a = .ok m' ∧
      Rep m'.pool (Function.update books k (some m'.book)) (v.dropFilled (k, .sell, ta) a) ∧
      m'.log = m.log := by
  have hbook := h.book k
  simp only [Function.update_self, Option.getD_some] at hbook
  obtain ⟨m', hm, hrep, -, hlog⟩ := h.settle (fun _ => True) ha trivial fun xs hq =>
    (hbook.popAsk hbest hq).imp fun _ hbook => ⟨hbook.1, trivial, hbook.2⟩
  exact ⟨m', (m.settleAsk_eq a).trans hm, hrep, hlog⟩

/-- **One round.** It returns exactly when the book is not crossed, and otherwise trades the two
orders at the fronts of the best levels. -/
theorem round (h : Rep m.pool (Function.update books k (some m.book)) v) (o : Slot)
    (σ : OrderType) :
    (m.round o σ = .ok none ∧ v.Uncrossed k) ∨
      ∃ m' tb ta b a tr, m.round o σ = .ok (some m') ∧ v.Cross k tb ta b a ∧
        v.Reports o σ b a tr ∧ m'.log = m.log ++ [tr] ∧
        Rep m'.pool (Function.update books k (some m'.book)) (v.trade k tb ta b a) := by
  have hbook := h.book k
  simp only [Function.update_self, Option.getD_some] at hbook
  rcases hbook.bestBid with ⟨hb, hnone⟩ | ⟨tb, hb, hbne, hbtop⟩
  · exact Or.inl ⟨by simp [MatchState.round, hb], fun t u ht _ => absurd (hnone t) ht⟩
  rcases hbook.bestAsk with ⟨ha, hnone⟩ | ⟨ta, ha, hane, hatop⟩
  · exact Or.inl ⟨by simp [MatchState.round, ha], fun t u _ hu => absurd (hnone u) hu⟩
  have htb : tb < maxTicks := hbook.bids.lt_of_ne_nil hbne
  have hta : ta < maxTicks := hbook.asks.lt_of_ne_nil hane
  have hguard : ¬ (m.book.bestBidTick = -1 ∨ m.book.bestAskTick = maxTicks) := by
    rw [hb, ha]; omega
  by_cases hlt : tb < ta
  · refine Or.inl ⟨?_, fun t u ht hu => ?_⟩
    · unfold MatchState.round
      rw [if_neg hguard, if_pos (by rw [hb, ha]; omega)]
      simp
    · have h1 : ¬ tb < t := fun hc => ht (hbtop t hc)
      have h2 : ¬ u < ta := fun hc => hu (hatop u hc)
      omega
  -- the two orders of the round
  obtain ⟨b, xb, hqb⟩ : ∃ b xb, v.queue (k, .buy, tb) = b :: xb := List.exists_cons_of_ne_nil hbne
  obtain ⟨a, xa, hqa⟩ : ∃ a xa, v.queue (k, .sell, ta) = a :: xa := List.exists_cons_of_ne_nil hane
  have hfb : (m.book.bids ⟨tb, htb⟩).front = some b := by
    rw [(hbook.bids.level ⟨tb, htb⟩).front_eq]; simp [hqb]
  have hfa : (m.book.asks ⟨ta, hta⟩).front = some a := by
    rw [(hbook.asks.level ⟨ta, hta⟩).front_eq]; simp [hqa]
  have hkb : m.book.bestBidTick = ((⟨tb, htb⟩ : Fin maxTicks) : ℕ) := hb
  have hka : m.book.bestAskTick = ((⟨ta, hta⟩ : Fin maxTicks) : ℕ) := ha
  have hcross : v.Cross k tb ta b a :=
    ⟨by rw [hqb]; rfl, by rw [hqa]; rfl, hbtop, hatop, by omega⟩
  have hqty : minQty (v.cell a).quantity (v.cell b).quantity = v.tradeQty b a := rfl
  -- the state after the two subtractions, and after each of the two removals
  let m1 : MatchState := { m with
    pool := { m.pool with
      slab := Slab.take (Slab.take m.pool.slab b (v.tradeQty b a)) a (v.tradeQty b a) }
    clock := fun i => m.clock (i + 1)
    log := m.log ++ [⟨buildExecution (v.tradeQty b a) (v.cell a) (v.cell b) (v.cell o).symbol σ
      (m.clock 0), b, a, v.cell b, v.cell a⟩] }
  have h1 : Rep m1.pool (Function.update books k (some m1.book))
      ((v.take b (v.tradeQty b a)).take a (v.tradeQty b a)) := (h.take b _).take a _
  obtain ⟨m2, hd2, h2, hask2, hlog2⟩ := h1.settleBid hb hcross.bid
  obtain ⟨m3, hd3, h3, hlog3⟩ := h2.settleAsk (hask2.trans ha) (by
    rw [View.dropFilled_queue (by simp)]
    exact hcross.ask)
  refine Or.inr ⟨m3, tb, ta, b, a, _, ?_, hcross, ⟨rfl, rfl, rfl, rfl, _, rfl⟩,
    by rw [hlog3, hlog2], h3⟩
  unfold MatchState.round
  rw [if_neg hguard, if_neg (by rw [hb, ha]; omega)]
  simp only [load_eq m.book.bids hkb, load_eq m.book.asks hka, hfb, hfa, deref_some, ok_bind,
    h.cell, hqty]
  rw [show MatchState.settleBid _ b = .ok m2 from hd2, ok_bind, hd3, ok_bind, pure_eq_ok]

/-- **The matching loop** returns, and its run is a sweep of the view. -/
theorem matchOrders (h : Rep m.pool (Function.update books k (some m.book)) v) (o : Slot)
    (σ : OrderType) :
    ∃ m' v' log, TradingSim.matchOrders o σ m = .ok m' ∧ View.Sweep k o σ v log v' ∧
      m'.log = m.log ++ log ∧ Rep m'.pool (Function.update books k (some m'.book)) v' := by
  -- the rounds so far extend every sweep that starts where they end
  let I : MatchState → Prop := fun n => ∃ w log, Rep n.pool (Function.update books k (some n.book)) w ∧
    n.log = m.log ++ log ∧ ∀ log' w', View.Sweep k o σ w log' w' → View.Sweep k o σ v (log ++ log') w'
  let Q : MatchState → Prop := fun n => ∃ w log, View.Sweep k o σ v log w ∧
    n.log = m.log ++ log ∧ Rep n.pool (Function.update books k (some n.book)) w
  have step : ∀ n, I n → (n.round o σ = .ok none ∧ Q n) ∨ ∃ n', n.round o σ = .ok (some n') ∧ I n' ∧
      poolCapacity - n'.pool.live.length < poolCapacity - n.pool.live.length := by
    rintro n ⟨w, log, hrep, hlog, hext⟩
    rcases hrep.round o σ with ⟨hret, hunc⟩ | ⟨n', tb, ta, b, a, tr, hrun, hcross, htr, hlog', hrep'⟩
    · exact Or.inl ⟨hret, w, log, by simpa using hext [] w (.done hunc), hlog, hrep⟩
    · refine Or.inr ⟨n', hrun, ⟨_, log ++ [tr], hrep', by rw [hlog', hlog]; simp, ?_⟩, ?_⟩
      · intro log' w' hs
        simpa using hext (tr :: log') w' (.round hcross htr hs)
      · have h1 : w.free.length < (w.trade k tb ta b a).free.length :=
          View.trade_free_lt (hcross.ne hrep.wf)
        have h2 := hrep'.wf.length_free_le
        rw [hrep.free, hrep'.free]
        omega
  obtain ⟨m', hrun, -, w, log, hs, hlog, hrep⟩ :
      ∃ m', TradingSim.matchOrders o σ m = .ok m' ∧ I m' ∧ Q m' :=
    loop_rule step (poolCapacity + 1) m ⟨v, [], h, by simp, fun _ _ hs => hs⟩ (by omega)
  exact ⟨m', w, log, hrun, hs, hlog, hrep⟩

/-- The source's loop has no bound on its rounds: with any larger one it ends the same. -/
theorem matchOrders_rounds (h : Rep m.pool (Function.update books k (some m.book)) v) (o : Slot)
    (σ : OrderType) {n : ℕ} (hn : poolCapacity < n) :
    loop .outOfRounds (MatchState.round o σ) n m = TradingSim.matchOrders o σ m := by
  obtain ⟨m', v', log, hrun, -⟩ := h.matchOrders o σ
  rw [hrun]
  exact loop_mono hrun hn

theorem insert {pool' : ObjectPool Cell poolCapacity} {o : Order} (h : Rep pool books v)
    (hlive : pool.live = pool'.live ++ [x]) (hslab : pool'.slab = pool.slab)
    (ho : o.At (k, σ, t)) :
    ∃ book slab, ((books k).getD SymbolBook.new).rest (pool'.write x { o with next := none }).slab x t =
        .ok (book, slab) ∧ (slab x).toOrder = o ∧
      Rep { pool'.write x { o with next := none } with slab := slab }
        (Function.update books k (some book)) (v.insert x o (k, σ, t)) := by
  have hfree : v.free = pool'.live ++ [x] := by rw [← h.free, hlive]
  have hx : ∀ l, x ∉ v.queue l := h.wf.idle x (by rw [hfree]; simp)
  have hσ : o.orderType = σ := ho.2.1
  have ht : t < maxTicks := ho.2.2.2
  -- copying the order writes no link of a queued slot
  have hwrite : ∀ k', BookRep (pool'.write x { o with next := none }).slab
      ((books k').getD SymbolBook.new) fun σ t => v.queue (k', σ, t) := fun k' =>
    (h.book k').congr fun σ t y hy => by
      have hyx : y ≠ x := fun e => hx _ (e ▸ hy)
      simp [Slab.nx, hslab, Function.update_of_ne hyx]
  obtain ⟨book, slab, hrest, hrep, horder, hnx⟩ := (hwrite k).rest (x := x) (t := t) (σ := σ)
    (by simpa using hσ) ht (h.wf.nodup _) (fun σ u => hx _) fun σ' u hne y hy hy' =>
      hne (by simpa using h.wf.loc_unique hy hy')
  have hself : (slab x).toOrder = o := by rw [horder]; simp
  refine ⟨book, slab, hrest, hself, ⟨fun y => ?_, ?_, fun k' => ?_, ?_⟩⟩
  · by_cases hy : y = x
    · subst hy
      simpa [View.insert] using hself
    · simp [View.insert, horder, hslab, Function.update_of_ne hy, h.cell]
  · simp [View.insert, hfree, ObjectPool.live, ObjectPool.write]
  · by_cases hk : k' = k
    · subst hk
      simp only [View.insert, queue_update_own, Function.update_self, Option.getD_some]
      exact hrep
    · simp only [View.insert, queue_update_other _ hk, Function.update_of_ne hk]
      refine (hwrite k').congr fun σ' u y hy => hnx y (fun hy' => hk ?_) fun e => hx _ (e ▸ hy)
      have := h.wf.loc_unique hy hy'
      simp at this
      exact this.1
  · exact View.insert_wf h.wf hfree ho

end Rep

/-! ### Calls and runs -/

namespace OrderBook

variable {s : OrderBook} {v : View}

/-- **One call** of `acceptNewOrder` does not fault and does what `View.Accept` says. -/
theorem acceptNewOrder_spec (h : Rep s.pool s.books v) (o : Order) :
    ∃ s' v' log, s.acceptNewOrder o = .ok (s', log) ∧ v.Accept o log v' ∧
      Rep s'.pool s'.books v' := by
  unfold acceptNewOrder
  by_cases htick : priceToTick o.price < 0 ∨ priceToTick o.price ≥ maxTicks
  · refine ⟨s, v, [], by simp only [if_pos htick, pure_eq_ok], .outOfRange fun l ho => ?_, h⟩
    obtain ⟨-, -, ht, hlt⟩ := ho
    omega
  obtain ⟨t, ht⟩ : ∃ t : ℕ, priceToTick o.price = t := ⟨(priceToTick o.price).toNat, by omega⟩
  have hAt : o.At (symKey o.symbol, o.orderType, t) := ⟨rfl, rfl, ht, by simp only; omega⟩
  rw [if_neg htick]
  rcases s.pool.alloc_spec with ⟨hnil, halloc⟩ | ⟨x, pool, halloc, hlive, hslab⟩
  · exact ⟨s, v, [], by simp only [halloc, pure_eq_ok], .exhausted (by rw [← h.free, hnil]), h⟩
  · obtain ⟨book, slab, hrest, hself, hrep⟩ := h.insert hlive hslab hAt
    obtain ⟨m, v', log, hrun, hs, hlog, hrep'⟩ := Rep.matchOrders (m := {
        pool := { pool.write x { o with next := none } with slab := slab }
        book := book
        clock := s.clock
        log := [] }) hrep x o.orderType
    refine ⟨{
        pool := m.pool
        books := Function.update s.books (symKey o.symbol) (some m.book)
        clock := m.clock }, v', m.log, ?_, .sweep (by rw [← h.free, hlive]) hAt ?_, hrep'⟩
    · have hkey : ((pool.write x { o with next := none }).slab x).symbol = o.symbol := by simp
      have htype : (slab x).orderType = o.orderType := by rw [hself]
      simp only [halloc, hkey, OrderBook.book, ht, hrest, htype, hrun, ok_bind, pure_eq_ok]
    · rw [hlog]
      exact hs

/-- **A whole sequence** of calls. -/
theorem acceptAll_spec (os : List Order) (h : Rep s.pool s.books v) :
    ∃ s' v' log, s.acceptAll os = .ok (s', log) ∧ v.Run os log v' ∧ Rep s'.pool s'.books v' := by
  induction os generalizing s v with
  | nil => exact ⟨s, v, [], rfl, .nil, h⟩
  | cons o os ih =>
    obtain ⟨s', v', log, haccept, hstep, h'⟩ := acceptNewOrder_spec h o
    obtain ⟨s'', v'', log', hall, hrun, h''⟩ := ih h'
    refine ⟨s'', v'', log ++ log', ?_, .cons hstep hrun, h''⟩
    simp only [acceptAll, haccept, hall, ok_bind, pure_eq_ok]

theorem poolAvailable_eq (hrep : Rep s.pool s.books v) : s.poolAvailable = v.free.length := by
  rw [← hrep.free, ObjectPool.length_live]
  rfl

/-- The level of a symbol, side and tick. -/
def level (s : OrderBook) (key : UInt64) (σ : OrderType) (t : Fin maxTicks) : PriceLevel :=
  match σ with
  | .buy => (s.book key).bids t
  | .sell => (s.book key).asks t

/-- The slots queued at a level: the walk along the links from its head. -/
def slots (s : OrderBook) (key : UInt64) (σ : OrderType) (t : Fin maxTicks) : List Slot :=
  walk (Slab.nx s.pool.slab) poolCapacity (s.level key σ t).head

/-- The orders resting at a level, first to last. -/
def resting (s : OrderBook) (key : UInt64) (σ : OrderType) (t : Fin maxTicks) : List Order :=
  (s.slots key σ t).map fun x => (s.pool.slab x).toOrder

theorem level_rep (h : Rep s.pool s.books v) (key : UInt64) (σ : OrderType) (t : Fin maxTicks) :
    LevelRep s.pool.slab (s.level key σ t) (v.queue (key, σ, t)) := by
  cases σ with
  | buy => exact (h.book key).bids.level t
  | sell => exact (h.book key).asks.level t

theorem slots_eq (h : Rep s.pool s.books v) (key : UInt64) (σ : OrderType) (t : Fin maxTicks) :
    s.slots key σ t = v.queue (key, σ, t) := by
  have hlen := (h.wf.nodup (key, σ, t)).length_le_card
  rw [Fintype.card_fin] at hlen
  exact (level_rep h key σ t).chain.walk_eq hlen

theorem resting_eq (h : Rep s.pool s.books v) (key : UInt64) (σ : OrderType) (t : Fin maxTicks) :
    s.resting key σ t = (v.queue (key, σ, t)).map v.cell := by
  unfold resting
  rw [slots_eq h]
  exact List.map_congr_left fun x _ => h.cell x

/-- **Every sequence of orders** is handled without a fault, from a fresh engine. -/
theorem acceptAll_new (clock : ℕ → Int64) (os : List Order) :
    ∃ s v log, (new clock).acceptAll os = .ok (s, log) ∧ View.new.Run os log v ∧
      Rep s.pool s.books v ∧ v.Settled := by
  obtain ⟨s, v, log, hall, hrun, hrep⟩ := acceptAll_spec (s := new clock) os Rep.new
  exact ⟨s, v, log, hall, hrun, hrep, hrun.settled View.new_settled⟩

end OrderBook

end TradingSim
