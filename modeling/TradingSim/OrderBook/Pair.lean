import TradingSim.OrderBook.Capacity
import TradingSim.OrderBook.Conservation

/-!
An order and its counterpart. Into an empty engine come an order and one of the other side, of the same
symbol, tick and quantity. The first rests, the second trades with it, and both are filled, whatever
the quantity is: zero and negative ones as well. So every order that is admitted has a trade in some
run, and the engine is empty again behind the pair (`OrderBook.track_pair`).
-/

namespace TradingSim

open Lib Textbook

namespace View

variable {v v' w : View} {k : UInt64} {σ : OrderType} {t : ℕ} {x y : Slot} {o o' : Order}
  {log : List Trade}

/-- Nothing is queued. -/
def Vacant (v : View) : Prop := ∀ l, v.queue l = []

theorem new_vacant : new.Vacant := fun _ => rfl

theorem Vacant.settled (h : v.Vacant) (hwf : v.WF) : v.Settled :=
  ⟨hwf, fun _ _ _ hbid => absurd (h _) hbid⟩

theorem Vacant.queue_insert (h : v.Vacant) (l : Loc) :
    (v.insert x o (k, σ, t)).queue l = if l = (k, σ, t) then [x] else [] := by
  split
  · rename_i hl
    have hempty : v.queue (k, σ, t) = [] := h _
    simp [insert, hl, hempty]
  · rename_i hl
    rw [insert_queue_other hl, h]

theorem Vacant.free_ne_nil (h : v.Vacant) (hwf : v.WF) : v.free ≠ [] := by
  have hzero : (⟨0, by unfold poolCapacity; norm_num⟩ : Slot) ∈ v.free := by
    refine (hwf.cover _).resolve_right ?_
    rintro ⟨l, hl⟩
    simp [h l] at hl
  exact List.ne_nil_of_mem hzero

theorem Vacant.insert_free_ne_nil (h : v.Vacant) (hwf : (v.insert x o (k, σ, t)).WF) :
    (v.insert x o (k, σ, t)).free ≠ [] := by
  obtain ⟨z, hz⟩ : ∃ z : Slot, z ≠ x :=
    have : Nontrivial Slot := Fin.nontrivial_iff_two_le.mpr (by unfold poolCapacity; norm_num)
    exists_ne x
  refine List.ne_nil_of_mem (a := z) ((hwf.cover z).resolve_right ?_)
  rintro ⟨l, hl⟩
  rw [h.queue_insert] at hl
  split at hl
  · exact hz (List.mem_singleton.mp hl)
  · simp at hl

theorem Vacant.sweep_first (h : v.Vacant) (hwf : v.WF)
    (hs : Sweep k x σ (v.insert x o (k, σ, t)) log v') :
    log = [] ∧ v' = v.insert x o (k, σ, t) :=
  hs.eq_of_uncrossed ((h.settled hwf).insert_uncrossed fun _ hu => absurd (h _) hu)

theorem minQty_self (q : Int32) : minQty q q = q := by
  unfold minQty
  split <;> rfl

/-- Where the two orders that cross are the only ones, and have one quantity, a sweep trades them with
each other and is done. -/
theorem sweep_two {u : ℕ} {q : Int32} {z : Slot} (hwf : v.WF) (hy : v.Top k σ t y)
    (hx : v.Top k σ.opp u x) (hcr : Crosses σ t u) (honly : ∀ l, ∀ z ∈ v.queue l, z = x ∨ z = y)
    (hqx : (v.cell x).quantity = q) (hqy : (v.cell y).quantity = q) (hs : Sweep k z σ v log v') :
    v'.Vacant ∧ ∃ tr, log = [tr] ∧ tr.quantity = q ∧ v.Reports z σ (σ.bid y x) (σ.ask y x) tr := by
  have hbid : (v.cell (σ.bid y x)).quantity = q := by cases σ <;> assumption
  have hask : (v.cell (σ.ask y x)).quantity = q := by cases σ <;> assumption
  have htrade : v.tradeQty (σ.bid y x) (σ.ask y x) = q := by rw [tradeQty, hbid, hask, minQty_self]
  cases hs with
  | done hunc => exact absurd hcr ((uncrossed_iff σ).mp hunc t u hy.ne_nil hx.ne_nil)
  | @round _ _ tb ta b a tr rest hc htr hrest =>
    obtain ⟨rfl, rfl, rfl, rfl⟩ := hc.eq_tops hy hx
    have hvacant : (v.trade k (σ.bid t u) (σ.ask t u) (σ.bid y x) (σ.ask y x)).Vacant := fun l => by
      rw [List.eq_nil_iff_forall_not_mem]
      intro z hz
      obtain ⟨hz, hnotBid, hnotAsk⟩ := (mem_trade_queue hwf hc).mp hz
      have hsides : z = σ.bid y x ∨ z = σ.ask y x := by
        rcases honly l z hz with rfl | rfl <;> cases σ <;> simp [OrderType.bid, OrderType.ask]
      rcases hsides with rfl | rfl
      · exact hnotBid rfl (hbid.trans htrade.symm)
      · exact hnotAsk rfl (hask.trans htrade.symm)
    obtain ⟨rfl, rfl⟩ := hrest.eq_of_uncrossed fun _ _ hbid => absurd (hvacant _) hbid
    exact ⟨hvacant, tr, rfl, htr.quantity_eq.trans htrade, htr⟩

theorem Vacant.sweep_second (h : v.Vacant) (hw : w = v.insert x o (k, σ.opp, t))
    (hsettled : w.Settled) {free : List Slot} (hfree : w.free = free ++ [y]) (hAt : o'.At (k, σ, t))
    (hq : o.quantity = o'.quantity) (hs : Sweep k y σ (w.insert y o' (k, σ, t)) log v') :
    v'.Vacant ∧ x ≠ y ∧ ∃ tr, log = [tr] ∧ tr.quantity = o.quantity ∧
      (w.insert y o' (k, σ, t)).Reports y σ (σ.bid y x) (σ.ask y x) tr := by
  have hqueue : ∀ l, w.queue l = if l = (k, σ.opp, t) then [x] else [] :=
    fun l => hw ▸ h.queue_insert l
  have hcr : Crosses σ t t := crosses_iff.mpr (by cases σ <;> simp [rank])
  have hne : w.queue (k, σ.opp, t) ≠ [] := by simp [hqueue]
  have hxy : x ≠ y := by
    rintro rfl
    exact hsettled.wf.idle x (by simp [hfree]) (k, σ.opp, t) (by simp [hqueue])
  have hother : ∀ u, (w.insert y o' (k, σ, t)).queue (k, σ.opp, u) = if u = t then [x] else [] :=
    fun u => by
      rw [insert_queue_other (by simp [σ.opp_ne]), hqueue]
      simp
  have hx : (w.insert y o' (k, σ, t)).Top k σ.opp t x := by
    refine ⟨by simp [hother], fun u hu => ?_⟩
    rw [hother, if_neg (by rintro rfl; exact lt_irrefl _ hu)]
  have honly : ∀ l, ∀ z ∈ (w.insert y o' (k, σ, t)).queue l, z = x ∨ z = y := fun l z hz => by
    rcases mem_insert_queue.mp hz with hz | ⟨-, rfl⟩
    · rw [hqueue] at hz
      split at hz
      · exact Or.inl (List.mem_singleton.mp hz)
      · simp at hz
    · exact Or.inr rfl
  obtain ⟨hvacant, htr⟩ := sweep_two (insert_wf hsettled.wf hfree hAt) (hsettled.top_insert hne hcr) hx
    hcr honly (q := o.quantity) (by simp [insert, hw, Function.update_of_ne hxy]) (by simp [insert, hq]) hs
  exact ⟨hvacant, hxy, htr⟩

end View

namespace OrderBook

variable {s : OrderBook} {v : View} {o o' : Order} {k : UInt64} {σ : OrderType} {t : ℕ}

theorem slotFor_of_at {v' : View} {log : List Trade} (h : Rep s.pool s.books v)
    (hacc : v.Accept o log v') (hfree : v.free ≠ []) (hAt : o.At (k, σ, t)) :
    ∃ x free, s.slotFor o = some x ∧ v.free = free ++ [x] ∧
      View.Sweep k x σ (v.insert x o (k, σ, t)) log v' := by
  rcases slotFor_cases h hacc with ⟨-, rfl, rfl⟩ | ⟨x, l, free, hslot, hx, hAt', hs⟩
  · -- nothing happened, but an order that is filed is queued
    obtain ⟨x, free, -, hs⟩ := hacc.sweep_of_at hfree hAt
    have hqueue : (v'.insert x o (k, σ, t)).queue (k, σ, t) = v'.queue (k, σ, t) := by
      generalize hins : v'.insert x o (k, σ, t) = w at hs
      cases hs
      rfl
    simp [View.insert] at hqueue
  · obtain rfl := hAt'.unique hAt
    exact ⟨x, free, hslot, hx, hs⟩

/-- **An order and its counterpart trade**, in an engine without orders, and leave it without orders. -/
theorem track_pair (L : Ledger) (hrep : Rep s.pool s.books v) (hv : v.Vacant)
    (hAt : o.At (k, σ.opp, t)) (hAt' : o'.At (k, σ, t)) (hq : o.quantity = o'.quantity) :
    ∃ (s' : OrderBook) (v' : View) (L' : Ledger) (f : Attributed), (∀ os, s.track L (o :: o' :: os) = s'.track L' os) ∧
      Rep s'.pool s'.books v' ∧ v'.Vacant ∧ L'.next = L.next + 2 ∧ L'.fills = L.fills ++ [f] ∧
      (f.buyer = L.next ∨ f.seller = L.next) := by
  obtain ⟨s₁, v₁, log₁, haccept₁, hacc₁, hrep₁⟩ := acceptNewOrder_spec hrep o
  obtain ⟨x, free, hslot₁, hfree, hs₁⟩ := slotFor_of_at hrep hacc₁ (hv.free_ne_nil hrep.wf) hAt
  obtain ⟨rfl, rfl⟩ := hv.sweep_first hrep.wf hs₁
  have hsettled := hacc₁.settled (hv.settled hrep.wf)
  obtain ⟨s₂, v₂, log₂, haccept₂, hacc₂, hrep₂⟩ := acceptNewOrder_spec hrep₁ o'
  obtain ⟨y, free', hslot₂, hfree', hs₂⟩ :=
    slotFor_of_at hrep₁ hacc₂ (hv.insert_free_ne_nil hsettled.wf) hAt'
  obtain ⟨hvacant, hxy, tr, rfl, -, htr⟩ := hv.sweep_second rfl hsettled hfree' hAt' hq hs₂
  let M := ((L.enter x).book []).enter y
  refine ⟨s₂, v₂, M.book [tr], ⟨M.owner tr.bid, M.owner tr.ask, tr⟩, fun os => ?_, hrep₂, hvacant, rfl,
    by simp [M, Ledger.book, Ledger.enter], ?_⟩
  · rw [track_enter haccept₁ hslot₁, track_enter haccept₂ hslot₂]
  · have hx : M.owner x = L.next := by simp [M, Ledger.book, Ledger.enter, Function.update_of_ne hxy]
    rw [htr.bid, htr.ask]
    cases σ with
    | buy => exact Or.inr hx
    | sell => exact Or.inl hx

end OrderBook

end TradingSim
