import TradingSim.OrderBook.Invariants
import TradingSim.OrderBook.Simulation
import Mathlib.Data.Int.ModEq

/-!
Quantity conservation: what an order came with is what is left of it plus what it traded.

The engine knows orders only by their slots, and slots are used again. `OrderBook.track` runs the
engine next to a ledger that numbers the orders by arrival, notes which order each slot was last
given to, and attributes every execution to the numbers of its two orders. `Account` is the balance
of that ledger against the view; it is kept modulo `m` when every subtraction of the run is right
modulo `m` (`Exactness`): modulo `2 ^ 32` always, and modulo `0`, that is exactly, when the orders
that get a slot have positive quantities.
-/

namespace TradingSim

open Lib

/-! ### The ledger -/

/-- What the trade takes off both of its orders. -/
def Trade.quantity (tr : Trade) : Int32 := minQty tr.askOrder.quantity tr.bidOrder.quantity

theorem View.Reports.quantity_eq {v : View} {x b a : Slot} {σ : OrderType} {tr : Trade}
    (h : v.Reports x σ b a tr) : tr.quantity = v.tradeQty b a := by
  rw [Trade.quantity, h.bidOrder, h.askOrder]
  rfl

/-- A trade with the arrival numbers of its two orders. -/
structure Attributed where
  buyer : ℕ
  seller : ℕ
  trade : Trade

/-- The numbers given out so far, the order each slot was last given to, the orders that were given
one, and the trades. -/
structure Ledger where
  next : ℕ
  owner : Slot → ℕ
  accepted : List ℕ
  fills : List Attributed

namespace Ledger

def empty : Ledger where
  next := 0
  owner _ := 0
  accepted := []
  fills := []

/-- The next order is ignored. -/
def skip (L : Ledger) : Ledger := { L with next := L.next + 1 }

/-- The next order is given the slot `x`. -/
def enter (L : Ledger) (x : Slot) : Ledger :=
  { L with
    next := L.next + 1
    owner := Function.update L.owner x L.next
    accepted := L.accepted ++ [L.next] }

/-- The trades of a call are attributed by their slots. -/
def book (L : Ledger) (log : List Trade) : Ledger :=
  { L with fills := L.fills ++ log.map fun tr => ⟨L.owner tr.bid, L.owner tr.ask, tr⟩ }

/-- What the order with number `i` has traded. -/
def filled (L : Ledger) (i : ℕ) : ℤ :=
  ((L.fills.filter fun f => f.buyer = i ∨ f.seller = i).map fun f => f.trade.quantity.toInt).sum

end Ledger

namespace OrderBook

/-- The slot that `acceptNewOrder` takes for the order. -/
def slotFor (s : OrderBook) (o : Order) : Option Slot :=
  if priceToTick o.price < 0 ∨ priceToTick o.price ≥ maxTicks then none
  else s.pool.alloc.map Prod.fst

/-- `acceptAll` with the ledger next to it. -/
def track : OrderBook → Ledger → List Order → Except Fault (OrderBook × Ledger)
  | s, L, [] => .ok (s, L)
  | s, L, o :: os => do
    let (s', log) ← s.acceptNewOrder o
    match s.slotFor o with
    | none => s'.track L.skip os
    | some x => s'.track ((L.enter x).book log) os

section Track

variable {s s' : OrderBook} {L : Ledger} {o : Order} {os : List Order} {log : List Trade} {x : Slot}

-- stated here because deriving it from the recursion has Lean unfold the engine
theorem track_cons : s.track L (o :: os) = (do
    let (s', log) ← s.acceptNewOrder o
    match s.slotFor o with
    | none => s'.track L.skip os
    | some x => s'.track ((L.enter x).book log) os) :=
  Eq.trans rfl rfl

theorem track_skip (haccept : s.acceptNewOrder o = .ok (s', log)) (hslot : s.slotFor o = none) :
    s.track L (o :: os) = s'.track L.skip os := by
  rw [track_cons, haccept, ok_bind, hslot]

theorem track_enter (haccept : s.acceptNewOrder o = .ok (s', log)) (hslot : s.slotFor o = some x) :
    s.track L (o :: os) = s'.track ((L.enter x).book log) os := by
  rw [track_cons, haccept, ok_bind, hslot]

end Track

/-- Every order of the sequence that is given a slot meets `Q`. -/
def Admits (Q : Order → Prop) : OrderBook → List Order → Prop
  | _, [] => True
  | s, o :: os => (s.slotFor o ≠ none → Q o) ∧
      ∀ s' log, s.acceptNewOrder o = .ok (s', log) → s'.Admits Q os

theorem admits_of_forall {Q : Order → Prop} {os : List Order} (s : OrderBook)
    (h : ∀ o ∈ os, Q o) : s.Admits Q os := by
  induction os generalizing s with
  | nil => trivial
  | cons o os ih =>
    exact ⟨fun _ => h o (by simp), fun s' _ _ => ih s' fun o' ho' => h o' (by simp [ho'])⟩

end OrderBook

/-- The trade is between a buy and a sell order of the same symbol, both accepted, and its execution
reports what it takes off both. -/
structure Attributed.Fair (f : Attributed) (os : List Order) (accepted : List ℕ) : Prop where
  buyer : f.buyer ∈ accepted ∧ ∃ o q, os[f.buyer]? = some o ∧ o.orderType = .buy ∧
    f.trade.bidOrder = { o with quantity := q }
  seller : f.seller ∈ accepted ∧ ∃ o q, os[f.seller]? = some o ∧ o.orderType = .sell ∧
    f.trade.askOrder = { o with quantity := q }
  key : symKey f.trade.bidOrder.symbol = symKey f.trade.askOrder.symbol
  amount : f.trade.exec.quantity = f.trade.quantity.toInt

/-- The balance of the ledger against the view, modulo `m`, with `P` of every trade. -/
structure Account (m : ℤ) (P : Trade → Prop) (os : List Order) (v : View) (L : Ledger) : Prop where
  wf : v.WF
  /-- Numbers are given out in order. -/
  fresh : ∀ i ∈ L.accepted, i < L.next
  /-- No two queued slots belong to the same order. -/
  unique : ∀ l l' x y, x ∈ v.queue l → y ∈ v.queue l' → L.owner x = L.owner y → x = y
  /-- An order in the book. -/
  resting : ∀ l, ∀ x ∈ v.queue l, L.owner x ∈ L.accepted ∧ ∃ o q, os[L.owner x]? = some o ∧
    v.cell x = { o with quantity := q } ∧
    Int.ModEq m o.quantity.toInt (q.toInt + L.filled (L.owner x))
  /-- An order that has left it. -/
  gone : ∀ i ∈ L.accepted, (∀ l, ∀ x ∈ v.queue l, L.owner x ≠ i) →
    ∃ o, os[i]? = some o ∧ Int.ModEq m o.quantity.toInt (L.filled i)
  fair : ∀ f ∈ L.fills, f.Fair os L.accepted ∧ P f.trade

/-- What is asked of the arithmetic: when the orders that get a slot meet `Q`, the view keeps `J`,
and from it every trade meets `P` and its subtractions are right modulo `m`. -/
structure Exactness (m : ℤ) (Q : Order → Prop) (J : View → Prop) (P : Trade → Prop) : Prop where
  new : J View.new
  insert : ∀ v x o l, J v → Q o → (∀ l, x ∉ v.queue l) → J (v.insert x o l)
  trade : ∀ v k tb ta b a, J v → v.WF → v.Cross k tb ta b a → J (v.trade k tb ta b a)
  report : ∀ v k tb ta b a x σ tr, J v → v.Cross k tb ta b a → v.Reports x σ b a tr → P tr
  exact : ∀ v k tb ta b a, J v → v.Cross k tb ta b a → ∀ x, x = b ∨ x = a →
    Int.ModEq m ((v.cell x).quantity - v.tradeQty b a).toInt
      ((v.cell x).quantity.toInt - (v.tradeQty b a).toInt)

namespace Account

variable {m : ℤ} {P : Trade → Prop} {os : List Order} {v v' : View} {L : Ledger} {k : UInt64}
  {tb ta : ℕ} {b a x : Slot} {σ : OrderType} {tr : Trade} {log : List Trade}

theorem filled_book (L : Ledger) (tr : Trade) (i : ℕ) : (L.book [tr]).filled i =
    L.filled i + if L.owner tr.bid = i ∨ L.owner tr.ask = i then tr.quantity.toInt else 0 := by
  unfold Ledger.filled Ledger.book
  rw [List.filter_append, List.map_append, List.sum_append]
  congr 1
  split
  · rename_i h
    simp [h]
  · rename_i h
    simp [h]

theorem fair_mono {f : Attributed} {as as' : List ℕ} (h : f.Fair os as) (hsub : as ⊆ as') :
    f.Fair os as' :=
  ⟨⟨hsub h.buyer.1, h.buyer.2⟩, ⟨hsub h.seller.1, h.seller.2⟩, h.key, h.amount⟩

theorem filled_of_not_accepted {i : ℕ} (h : Account m P os v L) (hi : i ∉ L.accepted) :
    L.filled i = 0 := by
  unfold Ledger.filled
  rw [List.filter_eq_nil_iff.mpr]
  · rfl
  · intro f hf hfi
    rcases of_decide_eq_true hfi with rfl | rfl
    · exact hi (h.fair f hf).1.buyer.1
    · exact hi (h.fair f hf).1.seller.1

theorem skip (h : Account m P os v L) : Account m P os v L.skip where
  wf := h.wf
  fresh i hi := Nat.lt_succ_of_lt (h.fresh i hi)
  unique := h.unique
  resting := h.resting
  gone := h.gone
  fair := h.fair

theorem enter {o : Order} {l : Loc} {free : List Slot} (h : Account m P os v L)
    (hfree : v.free = free ++ [x]) (hAt : o.At l) (ho : os[L.next]? = some o) :
    Account m P os (v.insert x o l) (L.enter x) := by
  have hx : ∀ l, x ∉ v.queue l := h.wf.idle x (by rw [hfree]; simp)
  have hnew : L.next ∉ L.accepted := fun hm => lt_irrefl _ (h.fresh _ hm)
  have hown : (L.enter x).owner x = L.next := Function.update_self _ _ _
  have hother : ∀ {l' y}, y ∈ v.queue l' → (L.enter x).owner y = L.owner y := by
    intro l' y hy
    have hyx : y ≠ x := fun e => hx l' (e ▸ hy)
    exact Function.update_of_ne hyx _ _
  -- the number is new, so it is not that of another queued slot
  have hne : ∀ {l' y}, y ∈ v.queue l' → L.owner y ≠ L.next := fun hy e =>
    hnew (e ▸ (h.resting _ _ hy).1)
  have hsub : L.accepted ⊆ (L.enter x).accepted := List.subset_append_left _ _
  refine ⟨View.insert_wf h.wf hfree hAt, ?_, ?_, ?_, ?_,
    fun f hf => ⟨fair_mono (h.fair f hf).1 hsub, (h.fair f hf).2⟩⟩
  · intro i hi
    rcases List.mem_append.mp hi with hi | hi
    · exact Nat.lt_succ_of_lt (h.fresh i hi)
    · rw [List.mem_singleton.mp hi]
      exact Nat.lt_succ_self _
  · intro l₁ l₂ y z hy hz he
    rcases View.mem_insert_queue.mp hy with hy' | ⟨-, rfl⟩ <;>
      rcases View.mem_insert_queue.mp hz with hz' | ⟨-, rfl⟩
    · rw [hother hy', hother hz'] at he
      exact h.unique _ _ y z hy' hz' he
    · rw [hown, hother hy'] at he
      exact absurd he (hne hy')
    · rw [hown, hother hz'] at he
      exact absurd he.symm (hne hz')
    · rfl
  · intro l' y hy
    rcases View.mem_insert_queue.mp hy with hy' | ⟨-, rfl⟩
    · rw [hother hy', View.insert_cell_of_mem hx hy']
      obtain ⟨hacc, hrest⟩ := h.resting l' y hy'
      exact ⟨hsub hacc, hrest⟩
    · rw [hown]
      refine ⟨by simp [Ledger.enter], o, o.quantity, ho, by simp [View.insert], ?_⟩
      show Int.ModEq m _ (_ + L.filled L.next)
      rw [h.filled_of_not_accepted hnew, add_zero]
  · intro i hi hgone
    rcases List.mem_append.mp hi with hi | hi
    · refine h.gone i hi fun l' y hy => ?_
      rw [← hother hy]
      exact hgone l' y (View.mem_insert_queue.mpr (Or.inl hy))
    · have hxq : x ∈ (v.insert x o l).queue l := View.mem_insert_queue.mpr (Or.inr ⟨rfl, rfl⟩)
      exact absurd (hown.trans (List.mem_singleton.mp hi).symm) (hgone l x hxq)

theorem fair_of_reports (h : Account m P os v L) (hc : v.Cross k tb ta b a)
    (htr : v.Reports x σ b a tr) :
    Attributed.Fair ⟨L.owner tr.bid, L.owner tr.ask, tr⟩ os L.accepted := by
  have hbmem := List.mem_of_mem_head? hc.bid
  have hamem := List.mem_of_mem_head? hc.ask
  obtain ⟨hbacc, ob, qb, hob, hbterms, -⟩ := h.resting _ b hbmem
  obtain ⟨haacc, oa, qa, hoa, haterms, -⟩ := h.resting _ a hamem
  obtain ⟨hbk, hbσ, -, -⟩ := h.wf.filed _ b hbmem
  obtain ⟨hak, haσ, -, -⟩ := h.wf.filed _ a hamem
  have hqty := htr.quantity_eq
  obtain ⟨hbid, hask, hbo, hao, now, hexec⟩ := htr
  rw [← hbid] at hbacc hob
  rw [← hask] at haacc hoa
  refine ⟨⟨hbacc, ob, qb, hob, ?_, hbo.trans hbterms⟩, ⟨haacc, oa, qa, hoa, ?_, hao.trans haterms⟩,
    ?_, ?_⟩
  · rwa [hbterms] at hbσ
  · rwa [haterms] at haσ
  · rw [hbo, hao, hbk, hak]
  · rw [hexec, hqty]
    rfl

theorem filled_own (L : Ledger) (htr : v.Reports x σ b a tr) {y : Slot} (hy : y = b ∨ y = a) :
    (L.book [tr]).filled (L.owner y) = L.filled (L.owner y) + (v.tradeQty b a).toInt := by
  have hbooked : L.owner b = L.owner y ∨ L.owner a = L.owner y := by
    rcases hy with rfl | rfl
    · exact Or.inl rfl
    · exact Or.inr rfl
  rw [filled_book, htr.bid, htr.ask, htr.quantity_eq, if_pos hbooked]

theorem filled_other (htr : v.Reports x σ b a tr) {i : ℕ} (hb : i ≠ L.owner b) (ha : i ≠ L.owner a) :
    (L.book [tr]).filled i = L.filled i := by
  rw [filled_book, htr.bid, htr.ask, if_neg (by simp [hb.symm, ha.symm]), add_zero]

theorem filled_of_leaves (hwf : v.WF) (hc : v.Cross k tb ta b a) {l : Loc} {y : Slot}
    (hy : y ∈ v.queue l) (hout : y ∉ (v.trade k tb ta b a).queue l) :
    (y = b ∨ y = a) ∧ (v.cell y).quantity = v.tradeQty b a := by
  rw [View.mem_trade_queue hwf hc] at hout
  by_contra hno
  exact hout ⟨hy, fun e hq => hno ⟨Or.inl e, e ▸ hq⟩, fun e hq => hno ⟨Or.inr e, e ▸ hq⟩⟩

/-- **One round.** -/
theorem trade (h : Account m P os v L) (hc : v.Cross k tb ta b a) (htr : v.Reports x σ b a tr)
    (hP : P tr)
    (hexact : ∀ y, y = b ∨ y = a → Int.ModEq m ((v.cell y).quantity - v.tradeQty b a).toInt
      ((v.cell y).quantity.toInt - (v.tradeQty b a).toInt)) :
    Account m P os (v.trade k tb ta b a) (L.book [tr]) := by
  have hne := hc.ne h.wf
  have hbmem := List.mem_of_mem_head? hc.bid
  have hamem := List.mem_of_mem_head? hc.ask
  refine ⟨View.trade_wf h.wf hc, h.fresh, ?_, ?_, ?_, ?_⟩
  · intro l l' y z hy hz he
    exact h.unique l l' y z ((View.mem_trade_queue h.wf hc).mp hy).1
      ((View.mem_trade_queue h.wf hc).mp hz).1 he
  · intro l y hy
    have hy' := ((View.mem_trade_queue h.wf hc).mp hy).1
    obtain ⟨hacc, o, q, ho, hterms, hmod⟩ := h.resting l y hy'
    refine ⟨hacc, o, ?_⟩
    show ∃ q : Int32, os[L.owner y]? = some o ∧ _ ∧
      Int.ModEq m _ (q.toInt + (L.book [tr]).filled (L.owner y))
    by_cases hyba : y = b ∨ y = a
    · have hq : (v.cell y).quantity = q := by rw [hterms]
      have hex := hexact y hyba
      rw [hq] at hex
      refine ⟨q - v.tradeQty b a, ho, by rw [View.trade_cell_own hne hyba, hterms], ?_⟩
      rw [filled_own L htr hyba]
      calc o.quantity.toInt ≡ q.toInt + L.filled (L.owner y) [ZMOD m] := hmod
        _ = (q.toInt - (v.tradeQty b a).toInt) +
            (L.filled (L.owner y) + (v.tradeQty b a).toInt) := by ring
        _ ≡ (q - v.tradeQty b a).toInt +
            (L.filled (L.owner y) + (v.tradeQty b a).toInt) [ZMOD m] := hex.symm.add_right _
    · push Not at hyba
      refine ⟨q, ho, by rw [View.trade_cell_other hyba.1 hyba.2, hterms], ?_⟩
      rw [filled_other htr (fun e => hyba.1 (h.unique _ _ y b hy' hbmem e))
        (fun e => hyba.2 (h.unique _ _ y a hy' hamem e))]
      exact hmod
  · intro i hi hgone
    by_cases hwas : ∃ l, ∃ y ∈ v.queue l, L.owner y = i
    · obtain ⟨l, y, hy, rfl⟩ := hwas
      obtain ⟨hyba, hlast⟩ := filled_of_leaves h.wf hc hy fun hm => hgone l y hm rfl
      obtain ⟨-, o, q, ho, hterms, hmod⟩ := h.resting l y hy
      have hq : (v.cell y).quantity = q := by rw [hterms]
      refine ⟨o, ho, ?_⟩
      rw [filled_own L htr hyba, ← hlast, hq, add_comm]
      exact hmod
    · push Not at hwas
      rw [filled_other htr (hwas _ b hbmem).symm (hwas _ a hamem).symm]
      exact h.gone i hi hwas
  · intro f hf
    rcases List.mem_append.mp hf with hf | hf
    · exact h.fair f hf
    · obtain rfl : f = ⟨L.owner tr.bid, L.owner tr.ask, tr⟩ := by simpa using hf
      exact ⟨h.fair_of_reports hc htr, hP⟩

/-- **A whole sweep.** -/
theorem sweep {Q : Order → Prop} {J : View → Prop} (he : Exactness m Q J P)
    (h : Account m P os v L) (hJ : J v)
    (hs : View.Sweep k x σ v log v') : Account m P os v' (L.book log) ∧ J v' := by
  induction hs generalizing L with
  | done _ => exact ⟨by simpa [Ledger.book] using h, hJ⟩
  | round hc htr _ ih =>
    obtain ⟨hend, hJend⟩ :=
      ih (h.trade hc htr (he.report _ _ _ _ _ _ _ _ _ hJ hc htr) (he.exact _ _ _ _ _ _ hJ hc))
        (he.trade _ _ _ _ _ _ hJ h.wf hc)
    refine ⟨?_, hJend⟩
    simpa [Ledger.book] using hend

end Account

/-! ### The arithmetic -/

theorem exactness_mod : Exactness (2 ^ 32) (fun _ => True) (fun _ => True) fun _ => True := by
  refine ⟨trivial, fun _ _ _ _ _ _ _ => trivial, fun _ _ _ _ _ _ _ _ _ => trivial,
    fun _ _ _ _ _ _ _ _ _ _ _ _ => trivial, ?_⟩
  intro v k tb ta b a _ _ x _
  rw [Int32.toInt_sub]
  exact Int.bmod_emod

/-- The subtractions of the trade do not overflow, and it is of a positive amount. -/
structure Trade.Exact (tr : Trade) : Prop where
  pos : 0 < tr.exec.quantity
  bid : (tr.bidOrder.quantity - tr.quantity).toInt =
    tr.bidOrder.quantity.toInt - tr.quantity.toInt
  ask : (tr.askOrder.quantity - tr.quantity).toInt =
    tr.askOrder.quantity.toInt - tr.quantity.toInt

namespace View

variable {v v' : View} {k : UInt64} {tb ta : ℕ} {b a x y : Slot} {σ : OrderType} {o : Order}
  {tr : Trade} {log : List Trade} {os : List Order}

theorem Positive.tradeQty (h : v.Positive) (hc : v.Cross k tb ta b a) :
    0 < (v.tradeQty b a).toInt ∧ (v.tradeQty b a).toInt ≤ (v.cell b).quantity.toInt ∧
      (v.tradeQty b a).toInt ≤ (v.cell a).quantity.toInt := by
  have hb : 0 < (v.cell b).quantity.toInt := h _ b (List.mem_of_mem_head? hc.bid)
  have ha : 0 < (v.cell a).quantity.toInt := h _ a (List.mem_of_mem_head? hc.ask)
  unfold View.tradeQty
  rw [toInt_minQty]
  omega

theorem Positive.trade (h : v.Positive) (hwf : v.WF) (hc : v.Cross k tb ta b a) :
    (v.trade k tb ta b a).Positive := by
  obtain ⟨xs, hqb⟩ := List.head?_eq_some_iff.mp hc.bid
  obtain ⟨ys, hqa⟩ := List.head?_eq_some_iff.mp hc.ask
  have hex : Exchange v (v.trade k tb ta b a) k .buy tb ta b a :=
    exchange (σ := .buy) (hc.ne hwf) (h _ b (List.mem_of_mem_head? hc.bid))
      (h _ a (List.mem_of_mem_head? hc.ask))
  exact hex.positive hwf hqb hqa h

theorem Positive.toInt_sub (h : v.Positive) (hc : v.Cross k tb ta b a) (hy : y = b ∨ y = a) :
    ((v.cell y).quantity - v.tradeQty b a).toInt =
      (v.cell y).quantity.toInt - (v.tradeQty b a).toInt := by
  obtain ⟨hpos, hb, ha⟩ := h.tradeQty hc
  apply toInt_sub_of_le hpos
  rcases hy with rfl | rfl
  · exact hb
  · exact ha

theorem Positive.exact (h : v.Positive) (hc : v.Cross k tb ta b a) (htr : v.Reports x σ b a tr) :
    tr.Exact := by
  have hqty := htr.quantity_eq
  obtain ⟨-, -, hbo, hao, now, hexec⟩ := htr
  refine ⟨?_, ?_, ?_⟩
  · rw [hexec]
    exact Int.cast_pos.mpr (h.tradeQty hc).1
  · rw [hbo, hqty]
    exact h.toInt_sub hc (Or.inl rfl)
  · rw [hao, hqty]
    exact h.toInt_sub hc (Or.inr rfl)

end View

theorem exactness_pos : Exactness 0 (fun o => 0 < o.quantity) View.Positive Trade.Exact := by
  refine ⟨?_, ?_, ?_, ?_, ?_⟩
  · intro l y hy
    simp [View.new] at hy
  · intro v x o l hv ho hx
    exact View.insert_positive hv hx (Order.limit_quantity_pos.mpr ho)
  · intro v k tb ta b a hv hwf hc
    exact hv.trade hwf hc
  · intro v k tb ta b a x σ tr hv hc htr
    exact hv.exact hc htr
  · intro v k tb ta b a hv hc x hx
    rw [hv.toInt_sub hc hx]

/-! ### The run -/

namespace OrderBook

variable {m : ℤ} {P : Trade → Prop} {os : List Order} {s : OrderBook} {v v' : View} {o : Order}
  {log : List Trade}

theorem slotFor_cases (h : Rep s.pool s.books v) (hacc : v.Accept o log v') :
    (s.slotFor o = none ∧ log = [] ∧ v' = v) ∨
      ∃ x l free, s.slotFor o = some x ∧ v.free = free ++ [x] ∧ o.At l ∧
        View.Sweep l.1 x l.2.1 (v.insert x o l) log v' := by
  unfold slotFor
  cases hacc with
  | outOfRange hno =>
    refine Or.inl ⟨if_pos ?_, rfl, rfl⟩
    by_contra hin
    apply hno (symKey o.symbol, o.orderType, (priceToTick o.price).toNat)
    exact ⟨rfl, rfl, by simp only; omega, by simp only; omega⟩
  | exhausted hnil =>
    rw [← h.free] at hnil
    refine Or.inl ⟨?_, rfl, rfl⟩
    rcases s.pool.alloc_spec with ⟨-, halloc⟩ | ⟨x, pool, -, hlive, -⟩
    · simp [halloc]
    · simp [hlive] at hnil
  | @sweep x l free _ _ hfree hAt hs =>
    have hin : ¬ (priceToTick o.price < 0 ∨ priceToTick o.price ≥ maxTicks) := by
      have := hAt.2.2.1
      have := hAt.2.2.2
      omega
    refine Or.inr ⟨x, l, free, ?_, hfree, hAt, hs⟩
    rw [← h.free] at hfree
    rcases s.pool.alloc_spec with ⟨hnil, -⟩ | ⟨y, pool, halloc, hlive, -⟩
    · simp [hnil] at hfree
    · have hyx : y = x := by
        rw [hlive] at hfree
        exact (List.append_inj' hfree rfl).2 |> List.singleton_inj.mp
      rw [if_neg hin, halloc, hyx]
      rfl

/-- **The ledger of a whole run** balances, and lists the trades that the run reports. -/
theorem track_spec {Q : Order → Prop} {J : View → Prop} (he : Exactness m Q J P)
    {rest : List Order} : ∀ {past : List Order} {s : OrderBook} {v : View} {L : Ledger},
      os = past ++ rest → L.next = past.length → s.Admits Q rest → Rep s.pool s.books v →
      Account m P os v L → J v →
      ∃ s' v' log L', s.acceptAll rest = .ok (s', log) ∧ s.track L rest = .ok (s', L') ∧
        L'.fills.map Attributed.trade = L.fills.map Attributed.trade ++ log ∧
        v.Run rest log v' ∧ Rep s'.pool s'.books v' ∧ Account m P os v' L' ∧ J v' := by
  induction rest with
  | nil =>
    intro past s v L _ _ _ hrep hacct hJ
    exact ⟨s, v, [], L, rfl, rfl, by simp, .nil, hrep, hacct, hJ⟩
  | cons o rest ih =>
    intro past s v L hos hnext hadm hrep hacct hJ
    have hos' : os = (past ++ [o]) ++ rest := by simp [hos]
    have ho : os[L.next]? = some o := by simp [hos, hnext]
    obtain ⟨s₁, v₁, log₁, haccept, hacc, hrep₁⟩ := acceptNewOrder_spec hrep o
    -- what is left to show once the ledger after this call is known
    have finish : ∀ L₁ : Ledger, L₁.next = L.next + 1 → Account m P os v₁ L₁ → J v₁ →
        L₁.fills.map Attributed.trade = L.fills.map Attributed.trade ++ log₁ →
        s.track L (o :: rest) = s₁.track L₁ rest →
        ∃ s' v' log L', s.acceptAll (o :: rest) = .ok (s', log) ∧
          s.track L (o :: rest) = .ok (s', L') ∧
          L'.fills.map Attributed.trade = L.fills.map Attributed.trade ++ log ∧
          v.Run (o :: rest) log v' ∧ Rep s'.pool s'.books v' ∧ Account m P os v' L' ∧ J v' := by
      intro L₁ hnext₁ hacct₁ hJ₁ hfills₁ htrack
      obtain ⟨s', v', log, L', hall, htrack', hfills, hrun, hrest⟩ :=
        ih hos' (by simp [hnext₁, hnext]) (hadm.2 _ _ haccept) hrep₁ hacct₁ hJ₁
      refine ⟨s', v', log₁ ++ log, L', ?_, htrack.trans htrack', ?_, .cons hacc hrun, hrest⟩
      · simp only [acceptAll, haccept, hall, ok_bind, pure_eq_ok]
      · rw [hfills, hfills₁, List.append_assoc]
    rcases slotFor_cases hrep hacc with ⟨hslot, rfl, rfl⟩ | ⟨x, l, free, hslot, hfree, hAt, hs⟩
    · exact finish L.skip rfl hacct.skip hJ (by simp [Ledger.skip]) (track_skip haccept hslot)
    · have hx : ∀ l, x ∉ v.queue l := hrep.wf.idle x (by rw [hfree]; simp)
      have hJ' := he.insert v x o l hJ (hadm.1 (by simp [hslot])) hx
      obtain ⟨hacct', hJ''⟩ := (hacct.enter hfree hAt ho).sweep he hJ' hs
      refine finish ((L.enter x).book log₁) rfl hacct' hJ'' ?_ (track_enter haccept hslot)
      simp [Ledger.book, Ledger.enter, Function.comp_def]

theorem account_new (m : ℤ) (P : Trade → Prop) (os : List Order) :
    Account m P os View.new Ledger.empty := by
  have hnone : ∀ l, View.new.queue l = [] := fun _ => rfl
  refine ⟨View.new_settled.wf, ?_, ?_, ?_, ?_, ?_⟩
  all_goals simp [Ledger.empty, hnone]

/-- **The ledger from a fresh engine**: its trades are those of the run, and each is as `P` says. -/
theorem track_new {Q : Order → Prop} {J : View → Prop} {clock : ℕ → Int64}
    (he : Exactness m Q J P) (h : (new clock).Admits Q os) :
    ∃ s v log L, (new clock).acceptAll os = .ok (s, log) ∧
      (new clock).track Ledger.empty os = .ok (s, L) ∧ L.fills.map Attributed.trade = log ∧
      (∀ tr ∈ log, P tr) ∧ Rep s.pool s.books v ∧ Account m P os v L ∧ J v := by
  obtain ⟨s, v, log, L, hall, htrack, hfills, -, hrep, hacct, hJ⟩ :=
    track_spec he (List.nil_append os).symm rfl h Rep.new (account_new m P os) he.new
  have hlog : L.fills.map Attributed.trade = log := hfills
  refine ⟨s, v, log, L, hall, htrack, hlog, ?_, hrep, hacct, hJ⟩
  intro tr htr
  rw [← hlog] at htr
  obtain ⟨f, hf, rfl⟩ := List.mem_map.mp htr
  exact (hacct.fair f hf).2

/-- What is left of the order `o` with number `i`: the quantity in its slot, and nothing once it has
left the book. -/
def Remaining (s : OrderBook) (L : Ledger) (i : ℕ) (o : Order) (rem : Int32) : Prop :=
  (∃ x ∈ s.linkedSlots, L.owner x = i ∧ (s.pool.slab x).toOrder = { o with quantity := rem }) ∨
    ((∀ x ∈ s.linkedSlots, L.owner x ≠ i) ∧ rem = 0)

/-- The balance of the ledger against the engine, modulo `m`. -/
structure Balance (m : ℤ) (s : OrderBook) (os : List Order) (L : Ledger) : Prop where
  /-- Every linked slot is that of an accepted order. -/
  owned : ∀ x ∈ s.linkedSlots, L.owner x ∈ L.accepted
  /-- No order has two slots. -/
  unique : ∀ x ∈ s.linkedSlots, ∀ y ∈ s.linkedSlots, L.owner x = L.owner y → x = y
  fair : ∀ f ∈ L.fills, f.Fair os L.accepted
  conserved : ∀ i ∈ L.accepted, ∃ o rem, os[i]? = some o ∧ s.Remaining L i o rem ∧
    Int.ModEq m o.quantity.toInt (rem.toInt + L.filled i)

theorem balance_of_account {L : Ledger} (h : Rep s.pool s.books v) (hacct : Account m P os v L) :
    s.Balance m os L := by
  refine ⟨?_, ?_, fun f hf => (hacct.fair f hf).1, ?_⟩
  · intro x hx
    obtain ⟨l, hx⟩ := (mem_linkedSlots h).mp hx
    exact (hacct.resting l x hx).1
  · intro x hx y hy he
    obtain ⟨l, hx⟩ := (mem_linkedSlots h).mp hx
    obtain ⟨l', hy⟩ := (mem_linkedSlots h).mp hy
    exact hacct.unique l l' x y hx hy he
  · intro i hi
    by_cases hin : ∃ x ∈ s.linkedSlots, L.owner x = i
    · obtain ⟨x, hx, rfl⟩ := hin
      obtain ⟨l, hxl⟩ := (mem_linkedSlots h).mp hx
      obtain ⟨-, o, q, ho, hcell, hmod⟩ := hacct.resting l x hxl
      exact ⟨o, q, ho, Or.inl ⟨x, hx, rfl, (h.cell x).trans hcell⟩, hmod⟩
    · push Not at hin
      obtain ⟨o, ho, hmod⟩ := hacct.gone i hi fun l x hx => hin x ((mem_linkedSlots h).mpr ⟨l, hx⟩)
      exact ⟨o, 0, ho, Or.inr ⟨hin, rfl⟩, by simpa using hmod⟩

/-- On positive quantities the order has traded at most what it came with, and all of it exactly
when it is out of the book. -/
theorem filled_bound {L : Ledger} {i : ℕ} (h : Rep s.pool s.books v) (hacct : Account 0 P os v L)
    (hpos : v.Positive) (hi : i ∈ L.accepted) :
    ∃ o, os[i]? = some o ∧ L.filled i ≤ o.quantity.toInt ∧
      ((∀ x ∈ s.linkedSlots, L.owner x ≠ i) ↔ L.filled i = o.quantity.toInt) := by
  by_cases hin : ∃ l, ∃ x ∈ v.queue l, L.owner x = i
  · obtain ⟨l, x, hx, rfl⟩ := hin
    obtain ⟨-, o, q, ho, hcell, hmod⟩ := hacct.resting l x hx
    rw [Int.modEq_zero_iff] at hmod
    have hq : 0 < q.toInt := by
      have hlt : 0 < (v.cell x).quantity.toInt := hpos l x hx
      rwa [hcell] at hlt
    refine ⟨o, ho, by omega, ?_, ?_⟩
    · intro hgone
      exact absurd rfl (hgone x ((mem_linkedSlots h).mpr ⟨l, hx⟩))
    · intro hall
      omega
  · push Not at hin
    obtain ⟨o, ho, hmod⟩ := hacct.gone i hi hin
    rw [Int.modEq_zero_iff] at hmod
    refine ⟨o, ho, hmod.ge, fun _ => hmod.symm, fun _ x hx => ?_⟩
    obtain ⟨l, hxl⟩ := (mem_linkedSlots h).mp hx
    exact hin l x hxl

/-- **Quantity conservation.** Along every sequence of orders each accepted order came with what is
left of it plus what it traded, modulo `2 ^ 32`. When all quantities are positive this is exact,
every trade is of a positive amount without overflow, no order trades more than it came with, and an
order is out of the book exactly when it traded all of it. -/
theorem quantity_conservation (clock : ℕ → Int64) (os : List Order) :
    ∃ s log L, (new clock).acceptAll os = .ok (s, log) ∧
      (new clock).track Ledger.empty os = .ok (s, L) ∧ L.fills.map Attributed.trade = log ∧
      s.Balance (2 ^ 32) os L ∧
      ((∀ o ∈ os, 0 < o.quantity) → s.Balance 0 os L ∧ (∀ tr ∈ log, tr.Exact) ∧
        ∀ i ∈ L.accepted, ∃ o, os[i]? = some o ∧ L.filled i ≤ o.quantity.toInt ∧
          ((∀ x ∈ s.linkedSlots, L.owner x ≠ i) ↔ L.filled i = o.quantity.toInt)) := by
  have hadm : (new clock).Admits (fun _ => True) os := admits_of_forall _ fun _ _ => trivial
  obtain ⟨s, v, log, L, hall, htrack, hfills, -, hrep, hacct, -⟩ := track_new exactness_mod hadm
  refine ⟨s, log, L, hall, htrack, hfills, balance_of_account hrep hacct, ?_⟩
  intro hpos
  -- the same run, kept exactly
  obtain ⟨s', v', log', L', hall', htrack', -, hexact, hrep', hacct', hpos'⟩ :=
    track_new exactness_pos (admits_of_forall (new clock) hpos)
  obtain ⟨rfl, rfl⟩ : s = s' ∧ log = log' := by simpa using hall.symm.trans hall'
  obtain rfl : L = L' := by simpa using htrack.symm.trans htrack'
  refine ⟨balance_of_account hrep' hacct', hexact, ?_⟩
  intro i hi
  exact filled_bound hrep' hacct' hpos' hi

end OrderBook

end TradingSim
