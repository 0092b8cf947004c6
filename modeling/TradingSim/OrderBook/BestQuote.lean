import TradingSim.OrderBook.Admission
import TradingSim.OrderBook.Quotes

/-!
What `bestBid` and `bestAsk` say about the book of a symbol.

A quote is the tick of the order that the textbook engine would serve next, and zero if there is none. So the
quotes never cross, no resting order is better than its quote by more than rounding, and an incoming order
that trades does so at the quote first (`OrderBook.quotes_textbook`).
-/

namespace TradingSim

open Lib

/-! ### The first order of a symbol -/

namespace Textbook

/-- The orders of a symbol on one side, in priority order. -/
def orders (b : Textbook) (symbol : CharArray 8) (σ : OrderType) : List LimitOrder :=
  (b.resting σ).filter fun r => r.symbol = symbol

/-- The price of the first one's tick, and zero without one. -/
def quote (b : Textbook) (symbol : CharArray 8) (σ : OrderType) : ℚ :=
  match (b.orders symbol σ).head? with
  | some r => tickToPrice r.tick
  | none => 0

theorem quote_of_head {b : Textbook} {symbol : CharArray 8} {σ : OrderType} {r : LimitOrder}
    (h : (b.orders symbol σ).head? = some r) : b.quote symbol σ = tickToPrice r.tick := by
  rw [quote, h]

theorem sweep_head {o : LimitOrder} {n : ℤ} {rs : List LimitOrder} :
    ∀ f ∈ (sweep o n rs).1.head?, ∃ r q,
      (rs.filter fun r => r.symbol = o.symbol).head? = some r ∧ f = fill o r q := by
  induction rs with
  | nil => simp [sweep]
  | cons r rs ih =>
    by_cases hsym : r.symbol = o.symbol
    · rw [List.filter_cons_of_pos (by simp [hsym])]
      by_cases hstop : n = 0 ∨ ¬ Crosses o.side o.tick r.tick
      · simp [sweep, hsym, hstop]
      · obtain ⟨hn, hcross⟩ := not_or.mp hstop
        rw [sweep_cons_cross hsym hn (not_not.mp hcross)]
        intro f hf
        exact ⟨r, min n r.quantity, rfl, (Option.mem_some.mp hf).symm⟩
    · rw [List.filter_cons_of_neg (by simp [hsym]), sweep_cons_other hsym]
      exact ih

theorem accept_head {b : Textbook} {o : LimitOrder} :
    ∀ f ∈ (b.accept o).2.head?, ∃ r q,
      (b.orders o.symbol o.side.opp).head? = some r ∧ f = fill o r q := by
  unfold accept
  split
  · simp
  · exact sweep_head

end Textbook

namespace View

open Textbook

variable {v : View} {b : Textbook} {symbol : CharArray 8} {σ : OrderType} {r : LimitOrder} {t : ℕ}

theorem Models.queue_ne_nil (h : v.Models b) (hr : r ∈ b.orders symbol σ) :
    ∃ u : ℕ, r.tick = u ∧ v.queue (symKey symbol, σ, u) ≠ [] := by
  obtain ⟨hmem, hsym⟩ := List.mem_filter.mp hr
  obtain ⟨u, hu, y, hy, -⟩ := h.exists_mem hmem
  rw [of_decide_eq_true hsym] at hy
  exact ⟨u, hu, List.ne_nil_of_mem hy⟩

theorem Models.exists_head (h : v.Models b) (hr : r ∈ b.orders symbol σ) :
    ∃ r₀, (b.orders symbol σ).head? = some r₀ ∧ rank σ r₀.tick ≤ rank σ r.tick := by
  obtain ⟨r₀, hhead⟩ : ∃ r₀, (b.orders symbol σ).head? = some r₀ :=
    Option.isSome_iff_exists.mp (List.isSome_head?.mpr (List.ne_nil_of_mem hr))
  exact ⟨r₀, hhead, ((h.sorted σ).filter _).head_le hhead r hr⟩

theorem Models.quote_eq (h : v.Models b) (hne : v.queue (symKey symbol, σ, t) ≠ [])
    (hbest : ∀ u : ℕ, rank σ u < rank σ t → v.queue (symKey symbol, σ, u) = []) :
    b.quote symbol σ = tickToPrice t := by
  -- the level has an order, so that there is a first one, and it ranks as well
  have hlevel : v.orders (symKey symbol, σ, t) ≠ [] := by simpa [View.orders] using hne
  obtain ⟨r', hr'⟩ := List.exists_mem_of_ne_nil _ hlevel
  rw [h.level] at hr'
  obtain ⟨hmem', hat⟩ := List.mem_filter.mp hr'
  obtain ⟨hkey, htick⟩ := of_decide_eq_true hat
  have hr' : r' ∈ b.orders symbol σ :=
    List.mem_filter.mpr ⟨hmem', decide_eq_true (symKey_injective hkey)⟩
  obtain ⟨r, hhead, hle⟩ := h.exists_head hr'
  obtain ⟨u, hu, hqueue⟩ := h.queue_ne_nil (List.mem_of_mem_head? hhead)
  have hge : ¬ rank σ u < rank σ t := fun hlt => hqueue (hbest u hlt)
  rw [htick, hu] at hle
  have htu : (u : ℤ) = t := rank_inj.mp (le_antisymm hle (not_lt.mp hge))
  rw [quote_of_head hhead, hu, htu]

theorem Models.quote_eq_zero (h : v.Models b) (hnil : ∀ t, v.queue (symKey symbol, σ, t) = []) :
    b.quote symbol σ = 0 := by
  have hempty : b.orders symbol σ = [] := by
    refine List.eq_nil_iff_forall_not_mem.mpr fun r hr => ?_
    obtain ⟨u, -, hne⟩ := h.queue_ne_nil hr
    exact hne (hnil u)
  rw [quote, hempty]
  rfl

theorem Models.bid_lt_quote (h : v.Models b) (hr : r ∈ b.orders symbol .buy) :
    r.price < b.quote symbol .buy + 1 / 200 := by
  obtain ⟨r₀, hhead, hle⟩ := h.exists_head hr
  obtain ⟨u, hu, -⟩ := h.queue_ne_nil hr
  have hprice : 100 * r.price + 1 / 2 < ((u + 1 : ℕ) : ℚ) :=
    (priceToTick_lt_iff u.succ_pos).mp (by have : priceToTick r.price = u := hu; omega)
  have hticks : (u : ℤ) ≤ r₀.tick := by simpa [rank, hu] using hle
  have hcast : (u : ℚ) ≤ (r₀.tick : ℚ) := by exact_mod_cast hticks
  rw [quote_of_head hhead, tickToPrice]
  push_cast at hprice
  linarith

theorem Models.quote_le_ask (h : v.Models b) (hr : r ∈ b.orders symbol .sell) (hprice : 0 ≤ r.price) :
    b.quote symbol .sell - 1 / 200 ≤ r.price := by
  obtain ⟨r₀, hhead, hle⟩ := h.exists_head hr
  have hround := (abs_le.mp (abs_sub_priceToTick hprice)).1
  have hcast : (r₀.tick : ℚ) ≤ (priceToTick r.price : ℚ) := by exact_mod_cast hle
  rw [quote_of_head hhead, tickToPrice]
  linarith

end View

/-! ### The quotes of the engine -/

namespace OrderBook

open Textbook

variable {s : OrderBook} {v : View} {b : Textbook}

theorem bidQuote_eq (s : OrderBook) (key : UInt64) : s.bidQuote key =
    if (s.book key).bestBidTick ≠ -1 then tickToPrice (s.book key).bestBidTick else 0 := by
  unfold bidQuote book
  cases s.books key with
  | none => rfl
  | some book => rfl

theorem askQuote_eq (s : OrderBook) (key : UInt64) : s.askQuote key =
    if (s.book key).bestAskTick ≠ maxTicks then tickToPrice (s.book key).bestAskTick else 0 := by
  unfold askQuote book
  cases s.books key with
  | none => simp [SymbolBook.new]
  | some book => rfl

theorem bestBid_eq (hrep : Rep s.pool s.books v) (h : v.Models b) (symbol : List UInt8) :
    s.bestBid symbol = b.quote (sym8 symbol) .buy := by
  rw [bestBid, bidQuote_eq]
  rcases (hrep.book (symKey (sym8 symbol))).bestBid with ⟨hbest, hnil⟩ | ⟨t, hbest, hne, habove⟩
  · rw [book, hbest, h.quote_eq_zero hnil]
    rfl
  · rw [book, hbest, if_pos (by omega), h.quote_eq hne fun u hu => habove u (by simpa [rank] using hu)]

theorem bestAsk_eq (hrep : Rep s.pool s.books v) (h : v.Models b) (symbol : List UInt8) :
    s.bestAsk symbol = b.quote (sym8 symbol) .sell := by
  have hbook := hrep.book (symKey (sym8 symbol))
  rw [bestAsk, askQuote_eq]
  rcases hbook.bestAsk with ⟨hbest, hnil⟩ | ⟨t, hbest, hne, hbelow⟩
  · rw [book, hbest, h.quote_eq_zero hnil, if_neg (by simp)]
  · have hlt := hbook.asks.lt_of_ne_nil hne
    rw [book, hbest, if_pos (by omega), h.quote_eq hne fun u hu => hbelow u (by simpa [rank] using hu)]

/-- **The quotes of a symbol.** After any sequence of orders with positive quantities, and for any text, the
two quotes are those of the textbook engine: the tick of the first bid, or ask, of the symbol, and zero
without one. Every bid is below every ask; no bid is half a cent above the best one, and no ask, but for
negative prices, more than that below the best one. And the quote is where trading goes on: whatever order
of the symbol comes in, its first execution, if it has one, is at the tick that the other side quotes. -/
theorem quotes_textbook (clock : ℕ → Int64) (os : List Order) (hpos : ∀ o ∈ os, 0 < o.quantity) :
    ∃ s log, (new clock).acceptAll os = .ok (s, log) ∧ ∀ symbol,
      let b := (Textbook.empty.acceptAll (os.map Order.limit)).1
      s.bestBid symbol = b.quote (sym8 symbol) .buy ∧ s.bestAsk symbol = b.quote (sym8 symbol) .sell ∧
      (∀ bid ∈ b.orders (sym8 symbol) .buy, ∀ ask ∈ b.orders (sym8 symbol) .sell, bid.tick < ask.tick) ∧
      (∀ bid ∈ b.orders (sym8 symbol) .buy, bid.price < s.bestBid symbol + 1 / 200) ∧
      (∀ ask ∈ b.orders (sym8 symbol) .sell, 0 ≤ ask.price → s.bestAsk symbol - 1 / 200 ≤ ask.price) ∧
      ∀ o, 0 < o.quantity → o.symbol = sym8 symbol →
        ∃ s' log', s.acceptNewOrder o = .ok (s', log') ∧
          ∀ tr ∈ log'.head?, tickToPrice (priceToTick tr.exec.tradePrice) =
            match o.orderType with
            | .buy => s.bestAsk symbol
            | .sell => s.bestBid symbol := by
  obtain ⟨s, v, log, hall, -, hrep, hv, hmod, -⟩ := acceptAll_models clock hpos
  refine ⟨s, log, hall, fun symbol => ?_⟩
  have hbid := bestBid_eq hrep hmod symbol
  have hask := bestAsk_eq hrep hmod symbol
  refine ⟨hbid, hask, fun bid hb ask ha => ?_, fun bid hb => ?_, fun ask ha hprice => ?_, fun o ho hsym => ?_⟩
  · obtain ⟨t, ht, hne⟩ := hmod.queue_ne_nil hb
    obtain ⟨u, hu, hne'⟩ := hmod.queue_ne_nil ha
    have hlt := hv.uncrossed _ t u hne hne'
    omega
  · rw [hbid]
    exact hmod.bid_lt_quote hb
  · rw [hask]
    exact hmod.quote_le_ask ha hprice
  · obtain ⟨s', v', log', hacc, hview, -⟩ := acceptNewOrder_spec hrep o
    refine ⟨s', log', hacc, fun tr htr => ?_⟩
    obtain ⟨-, hfills, -⟩ := hmod.accept hv (Order.limit_quantity_pos.mpr ho) hview
    have hmem : tr.exec.fill ∈ (log'.map fun tr => tr.exec.fill).head? := by
      rw [List.head?_map]
      exact Option.mem_map_of_mem _ htr
    rw [hfills] at hmem
    obtain ⟨r, q, hhead, hfill⟩ := accept_head _ hmem
    have hprice : tr.exec.tradePrice = r.price := congrArg Fill.tradePrice hfill
    have hquote := quote_of_head hhead
    rw [show o.limit.symbol = sym8 symbol from hsym] at hquote
    rw [hprice]
    refine hquote.symm.trans ?_
    unfold Order.limit
    cases o.orderType with
    | buy => exact hask.symm
    | sell => exact hbid.symm

/-- Two asks at one and at two dollars: the quote is one dollar. -/
theorem quotes_textbook_asks :
    ∃ s log, (new fun _ => 0).acceptAll [Order.plain .sell 2 3, Order.plain .sell 1 2] = .ok (s, log) ∧
      s.bestAsk [] = 1 ∧ s.bestBid [] = 0 := by
  obtain ⟨s, log, hall, hquotes⟩ := quotes_textbook (fun _ => 0)
    [Order.plain .sell 2 3, Order.plain .sell 1 2] (by decide)
  obtain ⟨hbid, hask, -⟩ := hquotes []
  exact ⟨s, log, hall, hask.trans (by decide +kernel), hbid.trans (by decide +kernel)⟩

end OrderBook

end TradingSim
