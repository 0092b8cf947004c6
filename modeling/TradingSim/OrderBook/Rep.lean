import TradingSim.Lib.Chain
import TradingSim.OrderBook.View

/-!
How the engine represents a view, level by level, and that its operations on a level and on a book
do to the representation what `View` says.

`LevelRep` ties a price level to a list of slots (the chain of links from `head`, `tail` its last
node, `count` its length), `SideRep` an array of levels with its bitset to a family of queues,
`BookRep` adds the two cached best ticks. All of them look at the links of the queued slots only,
which is what keeps one book's writes out of another's (`SideRep.congr`, `BookRep.congr`).
-/

namespace TradingSim

open Lib

/-- The links of a slab. -/
def Slab.nx (slab : Slab) (x : Slot) : Option Slot := (slab x).next

theorem Slab.setNext_nx (slab : Slab) (o : Slot) (p : Option Slot) :
    (slab.setNext o p).nx = Function.update slab.nx o p := by
  funext y
  by_cases hy : y = o
  · subst hy; simp [Slab.setNext, Slab.nx]
  · simp [Slab.setNext, Slab.nx, Function.update_of_ne hy]

theorem Slab.setNext_toOrder (slab : Slab) (o y : Slot) (p : Option Slot) :
    (slab.setNext o p y).toOrder = (slab y).toOrder := by
  by_cases hy : y = o
  · subst hy; simp [Slab.setNext]
  · simp [Slab.setNext, Function.update_of_ne hy]

theorem Slab.take_nx (slab : Slab) (o : Slot) (q : Int32) : (Slab.take slab o q).nx = slab.nx := by
  funext y
  by_cases hy : y = o
  · subst hy; simp [Slab.take, Slab.nx]
  · simp [Slab.take, Slab.nx, Function.update_of_ne hy]

/-! ### Levels -/

/-- The level `p` holds the orders in the slots `xs`, first to last. -/
structure LevelRep (slab : Slab) (p : PriceLevel) (xs : List Slot) : Prop where
  chain : Chain slab.nx p.head xs
  tail : p.tail = xs.getLast?
  count : p.count = UInt32.ofNat xs.length

namespace LevelRep

variable {slab slab' : Slab} {p : PriceLevel} {x : Slot} {xs : List Slot}

theorem new (slab : Slab) : LevelRep slab PriceLevel.new [] := ⟨rfl, rfl, rfl⟩

theorem congr (h : LevelRep slab p xs) (heq : ∀ y ∈ xs, slab'.nx y = slab.nx y) :
    LevelRep slab' p xs :=
  ⟨h.chain.congr heq, h.tail, h.count⟩

theorem front_eq (h : LevelRep slab p xs) : p.front = xs.head? := h.chain.head_eq

theorem empty_eq (h : LevelRep slab p xs) : p.empty = xs.isEmpty := by
  unfold PriceLevel.empty
  rw [h.chain.head_eq]
  cases xs <;> rfl

/-- `push` appends a fresh slot and touches no other link than the old last node's. -/
theorem push (h : LevelRep slab p xs) (hnd : xs.Nodup) (hx : x ∉ xs) :
    ∃ p' slab', p.push slab x = .ok (p', slab') ∧ LevelRep slab' p' (xs ++ [x]) ∧
      (∀ y, (slab' y).toOrder = (slab y).toOrder) ∧
      ∀ y, y ∉ xs → y ≠ x → slab'.nx y = slab.nx y := by
  have hcount : p.count + 1 = UInt32.ofNat (xs ++ [x]).length := by
    rw [h.count]; simp
  cases hxs : xs.getLast? with
  | none =>
    have hnil : xs = [] := List.getLast?_eq_none_iff.mp hxs
    subst hnil
    have hhead : p.head = none := h.chain
    refine ⟨{ head := some x, tail := some x, count := p.count + 1 }, slab.setNext x none,
      by simp [PriceLevel.push, hhead], ⟨?_, rfl, hcount⟩,
      fun y => slab.setNext_toOrder x y none, fun y _ hy => ?_⟩
    · simp [Chain, Slab.setNext_nx]
    · rw [Slab.setNext_nx, Function.update_of_ne hy]
  | some z =>
    have hz : z ∈ xs := List.mem_of_getLast? hxs
    obtain ⟨y₀, hhead⟩ : ∃ y₀, p.head = some y₀ := by
      rw [h.chain.head_eq]
      cases xs with
      | nil => simp at hxs
      | cons y ys => exact ⟨y, rfl⟩
    have htail : p.tail = some z := by rw [h.tail, hxs]
    refine ⟨{ p with tail := some x, count := p.count + 1 },
      (slab.setNext x none).setNext z (some x),
      by simp [PriceLevel.push, hhead, htail], ⟨?_, by simp, hcount⟩, fun y => ?_,
      fun y hy hyx => ?_⟩
    · rw [Slab.setNext_nx, Slab.setNext_nx]
      exact h.chain.snoc hxs hnd hx
    · rw [Slab.setNext_toOrder, Slab.setNext_toOrder]
    · have hyz : y ≠ z := fun e => hy (e ▸ hz)
      rw [Slab.setNext_nx, Slab.setNext_nx, Function.update_of_ne hyz, Function.update_of_ne hyx]

theorem popFront (h : LevelRep slab p (x :: xs)) : LevelRep slab (p.popFront slab) xs := by
  have hhead : p.head = some x := h.chain.1
  have hnext : (slab x).next = xs.head? := h.chain.tail.head_eq
  have hcount : p.count - 1 = UInt32.ofNat xs.length := by
    rw [h.count]; simp
  refine ⟨?_, ?_, by simp [PriceLevel.popFront, hhead, hcount]⟩
  · have := h.chain.tail
    simpa [PriceLevel.popFront, hhead, Slab.nx] using this
  · cases xs with
    | nil => simp [PriceLevel.popFront, hhead, hnext]
    | cons y ys => simp [PriceLevel.popFront, hhead, hnext, h.tail]

end LevelRep

/-! ### One side of a book -/

/-- The levels and the bitset of one side stand for the queues `q`. -/
structure SideRep (slab : Slab) (levels : Fin maxTicks → PriceLevel)
    (bits : Fin bitsetWords → BitVec 64) (q : ℕ → List Slot) : Prop where
  level : ∀ t : Fin maxTicks, LevelRep slab (levels t) (q t)
  bit : ∀ t, bitAt bits t = !(q t).isEmpty
  range : ∀ t, maxTicks ≤ t → q t = []

/-- `best_bid_tick`: the greatest occupied tick, or `-1`. -/
def BestBid (best : ℤ) (q : ℕ → List Slot) : Prop :=
  (best = -1 ∧ ∀ t, q t = []) ∨ ∃ t : ℕ, best = t ∧ q t ≠ [] ∧ ∀ u, t < u → q u = []

/-- `best_ask_tick`: the least occupied tick, or `MAX_TICKS`. -/
def BestAsk (best : ℤ) (q : ℕ → List Slot) : Prop :=
  (best = maxTicks ∧ ∀ t, q t = []) ∨ ∃ t : ℕ, best = t ∧ q t ≠ [] ∧ ∀ u, u < t → q u = []

namespace SideRep

variable {slab slab' : Slab} {levels : Fin maxTicks → PriceLevel}
  {bits : Fin bitsetWords → BitVec 64} {q : ℕ → List Slot} {x : Slot} {xs : List Slot} {t : ℕ}

theorem new (slab : Slab) : SideRep slab (fun _ => PriceLevel.new) (fun _ => 0#64) fun _ => [] :=
  ⟨fun _ => LevelRep.new slab, fun t => by simp [bitAt], fun _ _ => rfl⟩

theorem congr (h : SideRep slab levels bits q) (heq : ∀ t, ∀ y ∈ q t, slab'.nx y = slab.nx y) :
    SideRep slab' levels bits q :=
  ⟨fun t => (h.level t).congr (heq t), h.bit, h.range⟩

theorem lt_of_ne_nil (h : SideRep slab levels bits q) (ht : q t ≠ []) : t < maxTicks := by
  by_contra hge
  exact ht (h.range t (by omega))

theorem push (h : SideRep slab levels bits q) (ht : t < maxTicks) (hnd : (q t).Nodup)
    (hx : ∀ u, x ∉ q u) (hdis : ∀ u, u ≠ t → ∀ y ∈ q u, y ∉ q t) :
    ∃ p' slab' bits', (levels ⟨t, ht⟩).push slab x = .ok (p', slab') ∧
      setBit bits t = .ok bits' ∧
      SideRep slab' (Function.update levels ⟨t, ht⟩ p') bits' (Function.update q t (q t ++ [x])) ∧
      (∀ y, (slab' y).toOrder = (slab y).toOrder) ∧
      ∀ y, y ∉ q t → y ≠ x → slab'.nx y = slab.nx y := by
  obtain ⟨p', slab', hpush, hrep, horder, hnx⟩ := (h.level ⟨t, ht⟩).push hnd (hx t)
  obtain ⟨bits', hset, hbits⟩ := setBit_spec bits (lt_of_lt_of_le ht maxTicks_le_bits)
  refine ⟨p', slab', bits', hpush, hset, ⟨fun u => ?_, fun u => ?_, fun u hu => ?_⟩, horder, hnx⟩
  · by_cases hu : u = ⟨t, ht⟩
    · subst hu
      simpa using hrep
    · have hut : (u : ℕ) ≠ t := fun e => hu (Fin.ext e)
      rw [Function.update_of_ne hu, Function.update_of_ne hut]
      exact (h.level u).congr fun y hy => hnx y (hdis u hut y hy) fun e => hx u (e ▸ hy)
  · rw [hbits]
    by_cases hu : u = t
    · subst hu; simp
    · simp [hu, h.bit]
  · rw [Function.update_of_ne (by omega)]
    exact h.range u hu

theorem popFront (h : SideRep slab levels bits q) (ht : t < maxTicks) (hq : q t = x :: xs)
    {bits' : Fin bitsetWords → BitVec 64}
    (hbits : ∀ u, bitAt bits' u = !(Function.update q t xs u).isEmpty) :
    SideRep slab (Function.update levels ⟨t, ht⟩ ((levels ⟨t, ht⟩).popFront slab)) bits'
      (Function.update q t xs) := by
  have hlev := h.level ⟨t, ht⟩
  simp only [hq] at hlev
  refine ⟨fun u => ?_, hbits, fun u hu => ?_⟩
  · by_cases hu : u = ⟨t, ht⟩
    · subst hu
      simpa using hlev.popFront
    · rw [Function.update_of_ne hu, Function.update_of_ne fun e => hu (Fin.ext e)]
      exact h.level u
  · rw [Function.update_of_ne (by omega)]
    exact h.range u hu

theorem pop (h : SideRep slab levels bits q) (ht : t < maxTicks) (hq : q t = x :: xs)
    (hxs : xs ≠ []) :
    SideRep slab (Function.update levels ⟨t, ht⟩ ((levels ⟨t, ht⟩).popFront slab)) bits
      (Function.update q t xs) := by
  refine h.popFront ht hq fun u => ?_
  by_cases hu : u = t
  · subst hu
    rw [h.bit, hq, Function.update_self]
    simp [hxs]
  · rw [Function.update_of_ne hu, h.bit]

theorem popLast (h : SideRep slab levels bits q) (ht : t < maxTicks) (hq : q t = [x])
    {bits' : Fin bitsetWords → BitVec 64}
    (hbits : ∀ u, bitAt bits' u = (bitAt bits u && !decide (u = t))) :
    SideRep slab (Function.update levels ⟨t, ht⟩ ((levels ⟨t, ht⟩).popFront slab)) bits'
      (Function.update q t []) := by
  refine h.popFront ht hq fun u => ?_
  rw [hbits]
  by_cases hu : u = t
  · subst hu; simp
  · simp [hu, h.bit]

/-- **The best level of a side loses its first order.** The cached tick stays while the level has
orders; the bit of an empty level is cleared, and `scan` finds the next one. -/
theorem popBest (Best : ℤ → (ℕ → List Slot) → Prop)
    {scan : (Fin bitsetWords → BitVec 64) → ℤ → Except Fault ℤ} (h : SideRep slab levels bits q)
    (hq : q t = x :: xs) (hstay : xs ≠ [] → Best t (Function.update q t xs))
    (hscan : ∀ levels' bits', SideRep slab levels' bits' (Function.update q t []) →
      ∃ r, scan bits' t = .ok r ∧ Best r (Function.update q t [])) :
    ∃ level levels' bits' r, load levels t = .ok level ∧
      store levels t (level.popFront slab) = .ok levels' ∧
      ((level.popFront slab).empty = true ∧ clearBit bits t = .ok bits' ∧ scan bits' t = .ok r ∨
        (level.popFront slab).empty = false ∧ bits' = bits ∧ r = t) ∧
      SideRep slab levels' bits' (Function.update q t xs) ∧ Best r (Function.update q t xs) := by
  have ht : t < maxTicks := h.lt_of_ne_nil (by rw [hq]; simp)
  have hk : (t : ℤ) = ((⟨t, ht⟩ : Fin maxTicks) : ℕ) := rfl
  have hlev := h.level ⟨t, ht⟩
  simp only [hq] at hlev
  have hempty := hlev.popFront.empty_eq
  by_cases hxs : xs = []
  · subst hxs
    obtain ⟨bits', hclear, hbits⟩ := clearBit_spec bits (lt_of_lt_of_le ht maxTicks_le_bits)
    have hside := h.popLast ht hq hbits
    obtain ⟨r, hr, hbest⟩ := hscan _ _ hside
    exact ⟨_, _, bits', r, load_eq levels hk, store_eq levels _ hk, Or.inl ⟨hempty, hclear, hr⟩,
      hside, hbest⟩
  · have hne : xs.isEmpty = false := by simpa using hxs
    exact ⟨_, _, bits, t, load_eq levels hk, store_eq levels _ hk,
      Or.inr ⟨hempty.trans hne, rfl, rfl⟩, h.pop ht hq hxs, hstay hxs⟩

end SideRep

/-! ### The cached best ticks -/

section Best

variable {q : ℕ → List Slot} {best : ℤ} {t : ℕ} {x : Slot} {xs : List Slot}

/-- An order pushed at `t`, where `R u t` is that `u` is better than `t`: `t` is the best tick if it is
better than the one that is cached, or if none is. -/
theorem best_push {R : ℕ → ℕ → Prop} [IsStrictOrder ℕ R] {absent : ℤ} (x : Slot)
    (h : (best = absent ∧ ∀ u, q u = []) ∨ ∃ u : ℕ, best = u ∧ q u ≠ [] ∧ ∀ w, R w u → q w = [])
    {better : Prop} [Decidable better] (habsent : best = absent → better)
    (hbetter : ∀ u : ℕ, best = u → (better ↔ R t u)) :
    ∃ u : ℕ, (if better then (t : ℤ) else best) = u ∧ Function.update q t (q t ++ [x]) u ≠ [] ∧
      ∀ w, R w u → Function.update q t (q t ++ [x]) w = [] := by
  have hother : ∀ {w}, R w t → w ≠ t := fun hw e => irrefl t (e ▸ hw)
  rcases h with ⟨hbest, hnil⟩ | ⟨u, hbest, hu, htop⟩
  · refine ⟨t, if_pos (habsent hbest), by simp, fun w hw => ?_⟩
    rw [Function.update_of_ne (hother hw)]
    exact hnil w
  · by_cases hb : better
    · refine ⟨t, if_pos hb, by simp, fun w hw => ?_⟩
      rw [Function.update_of_ne (hother hw)]
      exact htop w (trans_of R hw ((hbetter u hbest).mp hb))
    · refine ⟨u, (if_neg hb).trans hbest, ?_, fun w hw => ?_⟩
      · by_cases hut : u = t
        · subst hut
          simp
        · rwa [Function.update_of_ne hut]
      · have hwt : w ≠ t := by
          rintro rfl
          exact hb ((hbetter u hbest).mpr hw)
        rw [Function.update_of_ne hwt]
        exact htop w hw

theorem BestBid.push (h : BestBid best q) (x : Slot) :
    BestBid (if (t : ℤ) > best then (t : ℤ) else best) (Function.update q t (q t ++ [x])) := by
  refine Or.inr (best_push (R := (· > ·)) x h ?_ ?_)
  · rintro rfl
    omega
  · rintro u rfl
    exact Int.ofNat_lt

theorem BestAsk.push (h : BestAsk best q) (ht : t < maxTicks) (x : Slot) :
    BestAsk (if (t : ℤ) < best then (t : ℤ) else best) (Function.update q t (q t ++ [x])) := by
  refine Or.inr (best_push (R := (· < ·)) x h ?_ ?_)
  · rintro rfl
    omega
  · rintro u rfl
    exact Int.ofNat_lt

theorem BestBid.above (h : BestBid t q) : ∀ u, t < u → q u = [] := by
  rcases h with ⟨h, -⟩ | ⟨u, h, -, htop⟩
  · omega
  · obtain rfl : t = u := by omega
    exact htop

theorem BestAsk.below (h : BestAsk t q) : ∀ u, u < t → q u = [] := by
  rcases h with ⟨-, hnil⟩ | ⟨u, h, -, htop⟩
  · exact fun u _ => hnil u
  · obtain rfl : t = u := by omega
    exact htop

theorem BestBid.le_of_ne_nil (h : BestBid best q) (ht : q t ≠ []) : (t : ℤ) ≤ best := by
  rcases h with ⟨-, hnil⟩ | ⟨u, rfl, -, htop⟩
  · exact absurd (hnil t) ht
  · by_contra hlt
    exact ht (htop t (by omega))

theorem BestBid.scan {slab : Slab} {levels : Fin maxTicks → PriceLevel}
    {bits : Fin bitsetWords → BitVec 64} (h : SideRep slab levels bits q) (ht : t < maxTicks)
    (habove : ∀ u, t < u → q u = []) : ∃ r, highestSet bits t = .ok r ∧ BestBid r q := by
  obtain ⟨r, hr, hspec⟩ := highestSet_spec bits (lt_of_lt_of_le ht maxTicks_le_bits)
  have hbit : ∀ u, bitAt bits u = false → q u = [] := fun u hu => by
    rw [h.bit] at hu
    simpa using hu
  refine ⟨r, hr, ?_⟩
  rcases hspec with ⟨hr1, hnone⟩ | ⟨t', hr1, hle, hset, hbetween⟩
  · refine Or.inl ⟨hr1, fun u => ?_⟩
    by_cases hu : u ≤ t
    · exact hbit u (hnone u hu)
    · exact habove u (by omega)
  · refine Or.inr ⟨t', hr1, ?_, fun u hu => ?_⟩
    · rw [h.bit] at hset
      simpa using hset
    · by_cases hut : u ≤ t
      · exact hbit u (hbetween u hu hut)
      · exact habove u (by omega)

theorem BestAsk.scan {slab : Slab} {levels : Fin maxTicks → PriceLevel}
    {bits : Fin bitsetWords → BitVec 64} (h : SideRep slab levels bits q) (ht : t < maxTicks)
    (hbelow : ∀ u, u < t → q u = []) : ∃ r, lowestSet bits maxTicks t = .ok r ∧ BestAsk r q := by
  have hbit : ∀ u, bitAt bits u = false → q u = [] := fun u hu => by
    rw [h.bit] at hu
    simpa using hu
  have hrange : ∀ u, maxTicks ≤ u → bitAt bits u = false := fun u hu => by
    rw [h.bit, h.range u hu]; rfl
  obtain ⟨r, hr, hspec⟩ := lowestSet_spec bits maxTicks_le_bits ht hrange
  refine ⟨r, hr, ?_⟩
  rcases hspec with ⟨hr1, hnone⟩ | ⟨t', hr1, hle, -, hset, hbetween⟩
  · refine Or.inl ⟨hr1, fun u => ?_⟩
    by_cases hu : t ≤ u
    · exact hbit u (hnone u hu)
    · exact hbelow u (by omega)
  · refine Or.inr ⟨t', hr1, ?_, fun u hu => ?_⟩
    · rw [h.bit] at hset
      simpa using hset
    · by_cases hut : t ≤ u
      · exact hbit u (hbetween u hut hu)
      · exact hbelow u (by omega)

end Best

/-! ### The book of one symbol -/

/-- The book `b` stands for the queues `q`. -/
structure BookRep (slab : Slab) (b : SymbolBook) (q : OrderType → ℕ → List Slot) : Prop where
  bids : SideRep slab b.bids b.bidBits (q .buy)
  asks : SideRep slab b.asks b.askBits (q .sell)
  bestBid : BestBid b.bestBidTick (q .buy)
  bestAsk : BestAsk b.bestAskTick (q .sell)

namespace BookRep

variable {slab slab' : Slab} {b : SymbolBook} {q : OrderType → ℕ → List Slot} {x : Slot}
  {xs : List Slot} {t : ℕ}

theorem new (slab : Slab) : BookRep slab SymbolBook.new fun _ _ => [] :=
  ⟨SideRep.new slab, SideRep.new slab, Or.inl ⟨rfl, fun _ => rfl⟩, Or.inl ⟨rfl, fun _ => rfl⟩⟩

theorem congr (h : BookRep slab b q) (heq : ∀ σ t, ∀ y ∈ q σ t, slab'.nx y = slab.nx y) :
    BookRep slab' b q :=
  ⟨h.bids.congr (heq .buy), h.asks.congr (heq .sell), h.bestBid, h.bestAsk⟩

/-- **Filing an order.** -/
theorem rest (h : BookRep slab b q) {σ : OrderType} (hσ : (slab x).orderType = σ)
    (ht : t < maxTicks) (hnd : (q σ t).Nodup) (hx : ∀ σ u, x ∉ q σ u)
    (hdis : ∀ σ' u, (σ', u) ≠ (σ, t) → ∀ y ∈ q σ' u, y ∉ q σ t) :
    ∃ b' slab', b.rest slab x t = .ok (b', slab') ∧
      BookRep slab' b' (Function.update q σ (Function.update (q σ) t (q σ t ++ [x]))) ∧
      (∀ y, (slab' y).toOrder = (slab y).toOrder) ∧
      ∀ y, y ∉ q σ t → y ≠ x → slab'.nx y = slab.nx y := by
  have hk : (t : ℤ) = ((⟨t, ht⟩ : Fin maxTicks) : ℕ) := rfl
  cases σ with
  | buy =>
    obtain ⟨p', slab', bits', hpush, hset, hrep, horder, hnx⟩ := h.bids.push ht hnd (hx .buy)
      fun u hu => hdis .buy u (by simpa using hu)
    refine ⟨{ b with
        bids := Function.update b.bids ⟨t, ht⟩ p'
        bidBits := bits'
        bestBidTick := if (t : ℤ) > b.bestBidTick then (t : ℤ) else b.bestBidTick },
      slab', ?_, ⟨?_, ?_, ?_, ?_⟩, horder, hnx⟩
    · unfold SymbolBook.rest
      simp only [hσ, load_eq b.bids hk, store_eq b.bids _ hk, hpush, hset, ok_bind, pure_eq_ok]
    · simpa using hrep
    · simpa using h.asks.congr fun u y hy =>
        hnx y (hdis .sell u (by simp) y hy) fun e => hx .sell u (e ▸ hy)
    · simpa using h.bestBid.push x
    · simpa using h.bestAsk
  | sell =>
    obtain ⟨p', slab', bits', hpush, hset, hrep, horder, hnx⟩ := h.asks.push ht hnd (hx .sell)
      fun u hu => hdis .sell u (by simpa using hu)
    refine ⟨{ b with
        asks := Function.update b.asks ⟨t, ht⟩ p'
        askBits := bits'
        bestAskTick := if (t : ℤ) < b.bestAskTick then (t : ℤ) else b.bestAskTick },
      slab', ?_, ⟨?_, ?_, ?_, ?_⟩, horder, hnx⟩
    · unfold SymbolBook.rest
      simp only [hσ, load_eq b.asks hk, store_eq b.asks _ hk, hpush, hset, ok_bind, pure_eq_ok]
    · simpa using h.bids.congr fun u y hy =>
        hnx y (hdis .buy u (by simp) y hy) fun e => hx .buy u (e ▸ hy)
    · simpa using hrep
    · simpa using h.bestBid
    · simpa using h.bestAsk.push ht x

theorem popBid (h : BookRep slab b q) (hbest : b.bestBidTick = t) (hq : q .buy t = x :: xs) :
    ∃ b', b.popBid slab = .ok b' ∧ b'.bestAskTick = b.bestAskTick ∧
      BookRep slab b' (Function.update q .buy (Function.update (q .buy) t xs)) := by
  have ht : t < maxTicks := h.bids.lt_of_ne_nil (by rw [hq]; simp)
  have habove : ∀ ys u, t < u → Function.update (q .buy) t ys u = [] := by
    intro ys u hu
    rw [Function.update_of_ne (by omega)]
    exact BestBid.above (by rw [← hbest]; exact h.bestBid) u hu
  obtain ⟨level, bids, bidBits, r, hload, hstore, hpop, hside, hr⟩ := h.bids.popBest BestBid hq
    (fun hxs => Or.inr ⟨t, rfl, by simpa using hxs, habove xs⟩)
    fun _ _ hside => BestBid.scan hside ht (habove [])
  refine ⟨{ b with bids := bids, bidBits := bidBits, bestBidTick := r }, ?_, rfl, ⟨?_, ?_, ?_, ?_⟩⟩
  · rw [SymbolBook.popBid, hbest, hload, ok_bind]
    rcases hpop with ⟨hempty, hclear, hscan⟩ | ⟨hempty, rfl, rfl⟩
    · simp only [hstore, hempty, if_true, hclear, SymbolBook.highestBid, hscan, ok_bind, pure_eq_ok]
    · simp only [hstore, hempty, Bool.false_eq_true, if_false, ok_bind, pure_eq_ok]
  · simpa using hside
  · simpa using h.asks
  · simpa using hr
  · simpa using h.bestAsk

theorem popAsk (h : BookRep slab b q) (hbest : b.bestAskTick = t) (hq : q .sell t = x :: xs) :
    ∃ b', b.popAsk slab = .ok b' ∧
      BookRep slab b' (Function.update q .sell (Function.update (q .sell) t xs)) := by
  have ht : t < maxTicks := h.asks.lt_of_ne_nil (by rw [hq]; simp)
  have hbelow : ∀ ys u, u < t → Function.update (q .sell) t ys u = [] := by
    intro ys u hu
    rw [Function.update_of_ne (by omega)]
    exact BestAsk.below (by rw [← hbest]; exact h.bestAsk) u hu
  obtain ⟨level, asks, askBits, r, hload, hstore, hpop, hside, hr⟩ := h.asks.popBest BestAsk hq
    (fun hxs => Or.inr ⟨t, rfl, by simpa using hxs, hbelow xs⟩)
    fun _ _ hside => BestAsk.scan hside ht (hbelow [])
  refine ⟨{ b with asks := asks, askBits := askBits, bestAskTick := r }, ?_, ⟨?_, ?_, ?_, ?_⟩⟩
  · rw [SymbolBook.popAsk, hbest, hload, ok_bind]
    rcases hpop with ⟨hempty, hclear, hscan⟩ | ⟨hempty, rfl, rfl⟩
    · simp only [hstore, hempty, if_true, hclear, SymbolBook.lowestAsk, hscan, ok_bind, pure_eq_ok]
    · simp only [hstore, hempty, Bool.false_eq_true, if_false, ok_bind, pure_eq_ok]
  · simpa using h.bids
  · simpa using hside
  · simpa using h.bestBid
  · simpa using hr

end BookRep

end TradingSim
