import TradingSim.OrderBook.Refine
import Mathlib.Data.Set.Card

/-!
The invariants of the engine's own data, after any sequence of orders: the four descriptions of a
book agree (`acceptAll_inv`), and the free stack and the levels of all books partition the slots of
the pool (`acceptAll_partition`).

Both are read off the representation (`Rep`) of a settled view.
-/

namespace TradingSim

open Lib

/-! ### The representation of a book -/

/-- The level is a null-terminated list through the links of the slab, `tail` is its last node and
`count` its length. -/
def PriceLevel.WellLinked (slab : Slab) (p : PriceLevel) : Prop :=
  ∃ xs, Chain slab.nx p.head xs ∧ xs.Nodup ∧ p.tail = xs.getLast? ∧
    (p.tail = none ↔ p.head = none) ∧ p.count.toNat = xs.length

/-- Levels and occupancy bits of one side agree. -/
structure SideInv (slab : Slab) (levels : Fin maxTicks → PriceLevel)
    (bits : Fin bitsetWords → BitVec 64) : Prop where
  level : ∀ t, (levels t).WellLinked slab
  /-- The bit of a level says whether it holds an order. -/
  bit : ∀ t : Fin maxTicks, bitAt bits t = true ↔ (levels t).head ≠ none
  /-- The unused bits of the last word are clear. -/
  above : ∀ t, maxTicks ≤ t → bitAt bits t = false

/-- **The representation invariant of `SymbolBook`.** -/
structure SymbolBook.Inv (slab : Slab) (b : SymbolBook) : Prop where
  bids : SideInv slab b.bids b.bidBits
  asks : SideInv slab b.asks b.askBits
  /-- `best_bid_tick` is the greatest occupied bid tick, or `-1`. -/
  bestBid : (b.bestBidTick = -1 ∧ ∀ t, (b.bids t).head = none) ∨
    ∃ t : Fin maxTicks, b.bestBidTick = (t : ℕ) ∧ (b.bids t).head ≠ none ∧
      ∀ u, t < u → (b.bids u).head = none
  /-- `best_ask_tick` is the least occupied ask tick, or `MAX_TICKS`. -/
  bestAsk : (b.bestAskTick = maxTicks ∧ ∀ t, (b.asks t).head = none) ∨
    ∃ t : Fin maxTicks, b.bestAskTick = (t : ℕ) ∧ (b.asks t).head ≠ none ∧
      ∀ u, u < t → (b.asks u).head = none
  uncrossed : (∃ t, (b.bids t).head ≠ none) → (∃ t, (b.asks t).head ≠ none) →
    b.bestBidTick < b.bestAskTick

section Read

variable {slab : Slab} {p : PriceLevel} {xs : List Slot} {levels : Fin maxTicks → PriceLevel}
  {bits : Fin bitsetWords → BitVec 64} {q : ℕ → List Slot}

theorem LevelRep.head_eq_none (h : LevelRep slab p xs) : p.head = none ↔ xs = [] := by
  rw [h.chain.head_eq]
  simp

theorem poolCapacity_lt : poolCapacity < 2 ^ 32 := by
  unfold poolCapacity
  norm_num

theorem LevelRep.wellLinked (h : LevelRep slab p xs) (hnd : xs.Nodup) : p.WellLinked slab := by
  refine ⟨xs, h.chain, hnd, h.tail, ?_, ?_⟩
  · rw [h.head_eq_none, h.tail, List.getLast?_eq_none_iff]
  · -- a level has at most as many orders as the pool has slots, so the counter does not wrap
    have hlen := hnd.length_le_card
    rw [Fintype.card_fin] at hlen
    have := poolCapacity_lt
    rw [h.count, UInt32.toNat_ofNat', Nat.mod_eq_of_lt (by omega)]

theorem SideRep.inv (h : SideRep slab levels bits q) (hnd : ∀ t, (q t).Nodup) :
    SideInv slab levels bits where
  level t := (h.level t).wellLinked (hnd t)
  bit t := by
    rw [h.bit, ne_eq, (h.level t).head_eq_none]
    simp
  above t ht := by
    rw [h.bit, h.range t ht]
    rfl

end Read

theorem BookRep.inv {slab : Slab} {b : SymbolBook} {v : View} {k : UInt64}
    (h : BookRep slab b fun σ t => v.queue (k, σ, t)) (hv : v.Settled) : b.Inv slab := by
  have hbid : ∀ t : Fin maxTicks, (b.bids t).head = none ↔ v.queue (k, .buy, t) = [] := fun t =>
    (h.bids.level t).head_eq_none
  have hask : ∀ t : Fin maxTicks, (b.asks t).head = none ↔ v.queue (k, .sell, t) = [] := fun t =>
    (h.asks.level t).head_eq_none
  refine ⟨h.bids.inv fun t => hv.wf.nodup _, h.asks.inv fun t => hv.wf.nodup _, ?_, ?_, ?_⟩
  · rcases h.bestBid with ⟨hb, hnil⟩ | ⟨t, hb, hne, htop⟩
    · exact Or.inl ⟨hb, fun t => (hbid t).mpr (hnil t)⟩
    · refine Or.inr ⟨⟨t, h.bids.lt_of_ne_nil hne⟩, hb, fun hn => hne ((hbid _).mp hn), ?_⟩
      exact fun u hu => (hbid u).mpr (htop u hu)
  · rcases h.bestAsk with ⟨ha, hnil⟩ | ⟨t, ha, hne, htop⟩
    · exact Or.inl ⟨ha, fun t => (hask t).mpr (hnil t)⟩
    · refine Or.inr ⟨⟨t, h.asks.lt_of_ne_nil hne⟩, ha, fun hn => hne ((hask _).mp hn), ?_⟩
      exact fun u hu => (hask u).mpr (htop u hu)
  · rintro ⟨t, ht⟩ ⟨u, hu⟩
    rcases h.bestBid with ⟨-, hnil⟩ | ⟨t', hb, hne, -⟩
    · exact absurd ((hbid t).mpr (hnil t)) ht
    rcases h.bestAsk with ⟨-, hnil⟩ | ⟨u', ha, hne', -⟩
    · exact absurd ((hask u).mpr (hnil u)) hu
    have := hv.uncrossed k t' u' hne hne'
    omega

namespace OrderBook

/-- **Every book keeps its representation invariant**, whatever the orders. -/
theorem acceptAll_inv (clock : ℕ → Int64) (os : List Order) :
    ∃ s log, (new clock).acceptAll os = .ok (s, log) ∧
      ∀ key, (s.book key).Inv s.pool.slab := by
  obtain ⟨s, v, log, hall, -, hrep, hv⟩ := acceptAll_new clock os
  exact ⟨s, log, hall, fun key => (hrep.book key).inv hv⟩

/-! ### Ownership of the slots -/

/-- **The free stack and the levels partition the slots.** -/
structure Partition (s : OrderBook) : Prop where
  /-- `slots` are the nodes of the level's list. -/
  linked : ∀ key σ t, Chain (Slab.nx s.pool.slab) (s.level key σ t).head (s.slots key σ t)
  /-- No slot is twice on the free stack. -/
  freeNodup : s.pool.live.Nodup
  /-- No slot is twice in a level. -/
  nodup : ∀ key σ t, (s.slots key σ t).Nodup
  /-- Every slot is on the free stack and in no level, or in one level and not on the free stack. -/
  owner : ∀ x, (x ∈ s.pool.live ∧ ∀ key σ t, x ∉ s.slots key σ t) ∨
    (x ∉ s.pool.live ∧ ∃! l : UInt64 × OrderType × Fin maxTicks, x ∈ s.slots l.1 l.2.1 l.2.2)

/-- The slots linked from the levels of all books. -/
def linkedSlots (s : OrderBook) : Set Slot := { x | ∃ key σ t, x ∈ s.slots key σ t }

variable {s : OrderBook} {v : View}

theorem mem_linkedSlots (h : Rep s.pool s.books v) {x : Slot} :
    x ∈ s.linkedSlots ↔ ∃ l, x ∈ v.queue l := by
  constructor
  · rintro ⟨key, σ, t, hx⟩
    exact ⟨_, slots_eq h key σ t ▸ hx⟩
  · rintro ⟨⟨key, σ, t⟩, hx⟩
    have ht : t < maxTicks := (h.wf.filed _ x hx).2.2.2
    exact ⟨key, σ, ⟨t, ht⟩, by rw [slots_eq h]; exact hx⟩

theorem partition_of_rep (h : Rep s.pool s.books v) : s.Partition where
  linked key σ t := by
    rw [slots_eq h]
    exact (level_rep h key σ t).chain
  freeNodup := by
    rw [h.free]
    exact h.wf.freeNodup
  nodup key σ t := by
    rw [slots_eq h]
    exact h.wf.nodup _
  owner x := by
    simp only [slots_eq h, h.free]
    by_cases hx : x ∈ v.free
    · exact Or.inl ⟨hx, fun _ _ _ => h.wf.idle x hx _⟩
    · obtain ⟨⟨key, σ, t⟩, hq⟩ := (h.wf.cover x).resolve_left hx
      have ht : t < maxTicks := (h.wf.filed _ x hq).2.2.2
      refine Or.inr ⟨hx, ⟨(key, σ, ⟨t, ht⟩), hq, ?_⟩⟩
      rintro ⟨key', σ', t'⟩ hq'
      have hl := h.wf.loc_unique hq' hq
      simp only [Prod.mk.injEq] at hl ⊢
      exact ⟨hl.1, hl.2.1, Fin.ext hl.2.2⟩

theorem available_add_linked (h : Rep s.pool s.books v) :
    s.poolAvailable + s.linkedSlots.ncard = poolCapacity := by
  have hcompl : s.linkedSlots = ((v.free.toFinset : Finset Slot) : Set Slot)ᶜ := by
    ext x
    rw [mem_linkedSlots h, Set.mem_compl_iff, Finset.mem_coe, List.mem_toFinset]
    exact ⟨fun ⟨l, hx⟩ hf => h.wf.idle x hf l hx, fun hx => (h.wf.cover x).resolve_left hx⟩
  have hfree : s.poolAvailable = v.free.toFinset.card := by
    rw [List.toFinset_card_of_nodup h.wf.freeNodup, poolAvailable_eq h]
  rw [hcompl, ← Finset.coe_compl, Set.ncard_coe_finset, hfree, Finset.card_add_card_compl,
    Fintype.card_fin]

/-- What a call does to the free stack: at most one slot is taken off its top, and the slots put
there instead are pairwise different, were not on it, and were linked or just taken. -/
def Recycles (s s' : OrderBook) : Prop :=
  ∃ kept allocated released, s.pool.live = kept ++ allocated ∧
    s'.pool.live = kept ++ released ∧ allocated.length ≤ 1 ∧
    (∀ x ∈ allocated, x ∉ s.linkedSlots) ∧ (kept ++ released).Nodup ∧
    ∀ x ∈ released, x ∈ allocated ∨ x ∈ s.linkedSlots

theorem recycles_of_accept {s' : OrderBook} {v' : View} {o : Order} {log : List Trade}
    (h : Rep s.pool s.books v) (hacc : v.Accept o log v') (h' : Rep s'.pool s'.books v') :
    s.Recycles s' := by
  have hsame : v' = v → s.Recycles s' := by
    rintro rfl
    exact ⟨v'.free, [], [], by simp [h.free], by simp [h'.free], by simp, by simp,
      by simpa using h.wf.freeNodup, by simp⟩
  cases hacc with
  | outOfRange _ => exact hsame rfl
  | exhausted _ => exact hsame rfl
  | @sweep x l free _ _ hfree hAt hs =>
    obtain ⟨released, hrel⟩ := hs.free_append (View.insert_wf h.wf hfree hAt)
    have hkept : v'.free = free ++ released := by rw [hrel]; simp [View.insert, hfree]
    have hnd := h'.wf.freeNodup
    rw [hkept] at hnd
    refine ⟨free, [x], released, by rw [h.free, hfree], by rw [h'.free, hkept], by simp, ?_, hnd, ?_⟩
    · intro y hy
      rw [List.mem_singleton.mp hy, mem_linkedSlots h]
      rintro ⟨l', hx⟩
      exact h.wf.idle x (by rw [hfree]; simp) l' hx
    · intro y hy
      by_cases hyx : y = x
      · exact Or.inl (by simp [hyx])
      · refine Or.inr ((mem_linkedSlots h).mpr ((h.wf.cover y).resolve_left ?_))
        rw [hfree]
        intro hmem
        rcases List.mem_append.mp hmem with hmem | hmem
        · exact (List.nodup_append.mp hnd).2.2 y hmem y hy rfl
        · exact hyx (by simpa using hmem)

/-- **Slot ownership**, whatever the orders: the partition holds after every call, the counts add up
to the size of the pool, and a call takes an unlinked slot and releases each slot at most once. -/
theorem acceptAll_partition (clock : ℕ → Int64) (os : List Order) :
    ∃ s log, (new clock).acceptAll os = .ok (s, log) ∧ s.Partition ∧
      s.poolAvailable + s.linkedSlots.ncard = 65536 ∧
      ∀ o, ∃ s' log', s.acceptNewOrder o = .ok (s', log') ∧ s.Recycles s' := by
  obtain ⟨s, v, log, hall, -, hrep, -⟩ := acceptAll_new clock os
  refine ⟨s, log, hall, partition_of_rep hrep, ?_, fun o => ?_⟩
  · rw [available_add_linked hrep]
    unfold poolCapacity
    rfl
  · obtain ⟨s', v', log', hacc, hview, hrep'⟩ := acceptNewOrder_spec hrep o
    exact ⟨s', log', hacc, recycles_of_accept hrep hview hrep'⟩

end OrderBook

end TradingSim
