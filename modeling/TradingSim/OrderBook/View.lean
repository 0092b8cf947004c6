import TradingSim.OrderBook.Engine

/-!
What the engine's state stands for: the orders in their slots, a queue of slots for every symbol
key, side and tick, and the free slots.

The operations of the engine on this level are `insert` (an order is filed at the end of the queue
of its tick), `take` (a quantity is subtracted) and `drop` (the first order of a queue leaves and
its slot becomes free); `trade` is one round of the matching loop, and `Sweep` a whole run of it.
`View.WF` is the ownership invariant: an order is filed where its own fields say, and every slot is
free once or queued once.
-/

namespace TradingSim

/-- Where an order is filed: the key of its symbol, its side and its tick. -/
abbrev Loc := UInt64 × OrderType × ℕ

/-- The order belongs at the place `l` by its own fields. -/
def Order.At (o : Order) (l : Loc) : Prop :=
  symKey o.symbol = l.1 ∧ o.orderType = l.2.1 ∧ priceToTick o.price = l.2.2 ∧ l.2.2 < maxTicks

theorem Order.At.unique {o : Order} {l l' : Loc} (h : o.At l) (h' : o.At l') : l = l' := by
  obtain ⟨k, σ, t⟩ := l
  obtain ⟨k', σ', t'⟩ := l'
  obtain ⟨h1, h2, h3, -⟩ := h
  obtain ⟨h1', h2', h3', -⟩ := h'
  simp only at h1 h2 h3 h1' h2' h3'
  have ht : t = t' := by omega
  rw [← h1, ← h1', ← h2, ← h2', ht]

/-- The state of the engine without its representation. -/
structure View where
  cell : Slot → Order
  queue : Loc → List Slot
  free : List Slot

namespace View

variable {v : View} {l : Loc} {x : Slot} {o : Order}

/-- **Slot ownership.** -/
structure WF (v : View) : Prop where
  /-- A queued order is filed where its fields say. -/
  filed : ∀ l, ∀ x ∈ v.queue l, (v.cell x).At l
  /-- No slot is twice in a queue. -/
  nodup : ∀ l, (v.queue l).Nodup
  /-- No slot is twice on the free stack. -/
  freeNodup : v.free.Nodup
  /-- A free slot is in no queue. -/
  idle : ∀ x ∈ v.free, ∀ l, x ∉ v.queue l
  /-- Every slot is free or queued. -/
  cover : ∀ x, x ∈ v.free ∨ ∃ l, x ∈ v.queue l

theorem WF.loc_unique (h : v.WF) {l' : Loc} (hx : x ∈ v.queue l) (hx' : x ∈ v.queue l') : l = l' :=
  (h.filed l x hx).unique (h.filed l' x hx')

theorem WF.mem_popFront (h : v.WF) {y : Slot} {P : Prop} [Decidable P]
    (hx : (v.queue l).head? = some x) :
    (y ∈ if P then (v.queue l).tail else v.queue l) ↔ y ∈ v.queue l ∧ (y = x → ¬ P) := by
  obtain ⟨xs, hq⟩ := List.head?_eq_some_iff.mp hx
  have hnd := h.nodup l
  rw [hq] at hnd ⊢
  have hxs := (List.nodup_cons.mp hnd).1
  split
  · rename_i hP
    constructor
    · intro hy
      exact ⟨List.mem_cons_of_mem _ hy, fun e => absurd (e ▸ hy) hxs⟩
    · rintro ⟨hy, hyx⟩
      exact (List.mem_cons.mp hy).resolve_left fun e => hyx e hP
  · rename_i hP
    exact ⟨fun hy => ⟨hy, fun _ => hP⟩, And.left⟩

/-- Queues that differ from those of the view in that two of them may have lost their fronts. -/
theorem WF.mem_popFronts (h : v.WF) {q : Loc → List Slot} {l₁ l₂ : Loc} {x₁ x₂ y : Slot}
    {P₁ P₂ : Prop} [Decidable P₁] [Decidable P₂] (hne : l₁ ≠ l₂)
    (hx₁ : (v.queue l₁).head? = some x₁) (hx₂ : (v.queue l₂).head? = some x₂)
    (hq₁ : q l₁ = if P₁ then (v.queue l₁).tail else v.queue l₁)
    (hq₂ : q l₂ = if P₂ then (v.queue l₂).tail else v.queue l₂)
    (hq : ∀ l, l ≠ l₁ → l ≠ l₂ → q l = v.queue l) :
    y ∈ q l ↔ y ∈ v.queue l ∧ (y = x₁ → ¬ P₁) ∧ (y = x₂ → ¬ P₂) := by
  -- the front of one queue is in no other
  have hout : ∀ {l' : Loc} {x : Slot}, (v.queue l').head? = some x → y ∈ v.queue l → l ≠ l' →
      y ≠ x := fun hx hy hl e => hl (h.loc_unique hy (e ▸ List.mem_of_mem_head? hx))
  by_cases h₁ : l = l₁
  · subst h₁
    rw [hq₁, h.mem_popFront hx₁]
    exact and_congr_right fun hy => (and_iff_left fun e => absurd e (hout hx₂ hy hne)).symm
  by_cases h₂ : l = l₂
  · subst h₂
    rw [hq₂, h.mem_popFront hx₂]
    exact and_congr_right fun hy => (and_iff_right fun e => absurd e (hout hx₁ hy h₁)).symm
  · rw [hq l h₁ h₂]
    refine (and_iff_left_of_imp fun hy => ⟨fun e => ?_, fun e => ?_⟩).symm
    · exact absurd e (hout hx₁ hy h₁)
    · exact absurd e (hout hx₂ hy h₂)

theorem WF.length_free_lt (h : v.WF) (hx : x ∈ v.queue l) :
    v.free.length < poolCapacity := by
  have hnd : (x :: v.free).Nodup := List.nodup_cons.mpr ⟨fun hm => h.idle x hm l hx, h.freeNodup⟩
  have := hnd.length_le_card
  rw [Fintype.card_fin, List.length_cons] at this
  omega

theorem WF.length_free_le (h : v.WF) : v.free.length ≤ poolCapacity := by
  have := h.freeNodup.length_le_card
  rwa [Fintype.card_fin] at this

/-! ### The operations -/

/-- The order `o` is put into the free slot `x` and filed at `l`. -/
def insert (v : View) (x : Slot) (o : Order) (l : Loc) : View where
  cell := Function.update v.cell x o
  queue := Function.update v.queue l (v.queue l ++ [x])
  free := v.free.dropLast

/-- The order in slot `x` loses the quantity `q`. -/
def take (v : View) (x : Slot) (q : Int32) : View :=
  { v with cell := Function.update v.cell x { v.cell x with quantity := (v.cell x).quantity - q } }

/-- The order in slot `x`, the first at `l`, leaves. -/
def drop (v : View) (l : Loc) (x : Slot) : View :=
  { v with queue := Function.update v.queue l (v.queue l).tail, free := v.free ++ [x] }

/-- The order in slot `x`, the first at `l`, leaves if nothing is left of it. -/
def dropFilled (v : View) (l : Loc) (x : Slot) : View :=
  if (v.cell x).quantity = 0 then v.drop l x else v

theorem mem_insert_queue {l' : Loc} {y : Slot} :
    y ∈ (v.insert x o l).queue l' ↔ y ∈ v.queue l' ∨ (l' = l ∧ y = x) := by
  by_cases hl : l' = l
  · subst hl
    simp [insert]
  · simp [insert, hl]

theorem insert_queue_other {l' : Loc} (hl : l' ≠ l) : (v.insert x o l).queue l' = v.queue l' :=
  Function.update_of_ne hl _ _

theorem insert_cell_of_mem {l' : Loc} {y : Slot} (hx : ∀ l, x ∉ v.queue l) (hy : y ∈ v.queue l') :
    (v.insert x o l).cell y = v.cell y := by
  have hyx : y ≠ x := fun e => hx l' (e ▸ hy)
  exact Function.update_of_ne hyx _ _

theorem insert_wf {free : List Slot} (h : v.WF) (hf : v.free = free ++ [x]) (ho : o.At l) :
    (v.insert x o l).WF := by
  have hx : ∀ l', x ∉ v.queue l' := h.idle x (by rw [hf]; simp)
  have hnd := h.freeNodup
  rw [hf] at hnd
  have hxf : x ∉ free := fun hm => (List.nodup_append.mp hnd).2.2 x hm x (by simp) rfl
  have hfree : (v.insert x o l).free = free := by simp [insert, hf]
  refine ⟨fun l' y hy => ?_, fun l' => ?_, ?_, fun y hy l' hy' => ?_, fun y => ?_⟩
  · rcases mem_insert_queue.mp hy with hy | ⟨rfl, rfl⟩
    · rw [insert_cell_of_mem hx hy]
      exact h.filed l' y hy
    · simpa [insert] using ho
  · by_cases hl : l' = l
    · subst hl
      simp only [insert, Function.update_self]
      refine List.nodup_append.mpr ⟨h.nodup l', by simp, fun y hy z hz e => ?_⟩
      rw [List.mem_singleton.mp hz] at e
      exact hx l' (e ▸ hy)
    · rw [insert_queue_other hl]
      exact h.nodup l'
  · rw [hfree]; exact (List.nodup_append.mp hnd).1
  · rw [hfree] at hy
    rcases mem_insert_queue.mp hy' with hq | ⟨-, rfl⟩
    · exact h.idle y (by rw [hf]; simp [hy]) l' hq
    · exact hxf hy
  · rw [hfree]
    rcases h.cover y with hy | ⟨l', hy⟩
    · rw [hf] at hy
      rcases List.mem_append.mp hy with hy | hy
      · exact Or.inl hy
      · exact Or.inr ⟨l, mem_insert_queue.mpr (Or.inr ⟨rfl, List.mem_singleton.mp hy⟩)⟩
    · exact Or.inr ⟨l', mem_insert_queue.mpr (Or.inl hy)⟩

theorem take_at {y : Slot} {q : Int32} : ((v.take x q).cell y).At l ↔ (v.cell y).At l := by
  by_cases hy : y = x
  · subst hy; simp [take, Order.At]
  · simp [take, Function.update_of_ne hy]

theorem take_wf {q : Int32} (h : v.WF) : (v.take x q).WF :=
  ⟨fun l y hy => take_at.mpr (h.filed l y hy), h.nodup, h.freeNodup, h.idle, h.cover⟩

theorem drop_wf (h : v.WF) (hx : (v.queue l).head? = some x) : (v.drop l x).WF := by
  obtain ⟨xs, hq⟩ := List.head?_eq_some_iff.mp hx
  have hnd := h.nodup l
  rw [hq] at hnd
  have hxs : x ∉ xs := (List.nodup_cons.mp hnd).1
  have hxq : x ∈ v.queue l := by rw [hq]; simp
  have hself : (v.drop l x).queue l = xs := by simp [drop, hq]
  have hother : ∀ l', l' ≠ l → (v.drop l x).queue l' = v.queue l' := fun l' hl =>
    Function.update_of_ne hl _ _
  have hsub : ∀ l' y, y ∈ (v.drop l x).queue l' → y ∈ v.queue l' ∧ y ≠ x := by
    intro l' y hy
    by_cases hl : l' = l
    · subst hl
      rw [hself] at hy
      exact ⟨by rw [hq]; simp [hy], fun e => hxs (e ▸ hy)⟩
    · rw [hother l' hl] at hy
      exact ⟨hy, fun e => hl (h.loc_unique (e ▸ hy) hxq)⟩
  refine ⟨fun l' y hy => h.filed l' y (hsub l' y hy).1, fun l' => ?_, ?_, fun y hy l' hy' => ?_,
    fun y => ?_⟩
  · by_cases hl : l' = l
    · subst hl; rw [hself]; exact (List.nodup_cons.mp hnd).2
    · rw [hother l' hl]; exact h.nodup l'
  · refine List.nodup_append.mpr ⟨h.freeNodup, by simp, fun y hy z hz e => ?_⟩
    rw [List.mem_singleton.mp hz] at e
    exact h.idle y hy l (e ▸ hxq)
  · obtain ⟨hq', hne⟩ := hsub l' y hy'
    rcases List.mem_append.mp hy with hy | hy
    · exact h.idle y hy l' hq'
    · exact hne (List.mem_singleton.mp hy)
  · by_cases hyx : y = x
    · exact Or.inl (by simp [drop, hyx])
    · rcases h.cover y with hy | ⟨l', hy⟩
      · exact Or.inl (by simp [drop, hy])
      · refine Or.inr ⟨l', ?_⟩
        by_cases hl : l' = l
        · subst hl
          rw [hq] at hy
          rw [hself]
          exact (List.mem_cons.mp hy).resolve_left hyx
        · rw [hother l' hl]; exact hy

@[simp] theorem dropFilled_cell : (v.dropFilled l x).cell = v.cell := by
  unfold dropFilled
  split <;> rfl

theorem dropFilled_free : (v.dropFilled l x).free =
    v.free ++ if (v.cell x).quantity = 0 then [x] else [] := by
  unfold dropFilled
  split <;> simp [drop]

theorem dropFilled_queue {l' : Loc} (hl : l' ≠ l) : (v.dropFilled l x).queue l' = v.queue l' := by
  unfold dropFilled
  split
  · exact Function.update_of_ne hl _ _
  · rfl

theorem dropFilled_wf (h : v.WF) (hx : (v.queue l).head? = some x) : (v.dropFilled l x).WF := by
  unfold dropFilled
  split
  · exact drop_wf h hx
  · exact h

/-! ### The two sides of a book -/

/-- The place of the bids, or asks, of one tick. -/
abbrev bidAt (k : UInt64) (t : ℕ) : Loc := (k, .buy, t)

abbrev askAt (k : UInt64) (t : ℕ) : Loc := (k, .sell, t)

/-- Every bid of the symbol is below every ask. -/
def Uncrossed (v : View) (k : UInt64) : Prop :=
  ∀ t u, v.queue (bidAt k t) ≠ [] → v.queue (askAt k u) ≠ [] → t < u

/-- The best bid and the best ask of the symbol cross: `b` and `a` are the orders at their
fronts. -/
structure Cross (v : View) (k : UInt64) (tb ta : ℕ) (b a : Slot) : Prop where
  bid : (v.queue (bidAt k tb)).head? = some b
  ask : (v.queue (askAt k ta)).head? = some a
  bestBid : ∀ u, tb < u → v.queue (bidAt k u) = []
  bestAsk : ∀ u, u < ta → v.queue (askAt k u) = []
  cross : ta ≤ tb

/-- What a round trades: the smaller of the two quantities. -/
def tradeQty (v : View) (b a : Slot) : Int32 := minQty (v.cell a).quantity (v.cell b).quantity

/-- One round of the matching loop. -/
def trade (v : View) (k : UInt64) (tb ta : ℕ) (b a : Slot) : View :=
  ((((v.take b (v.tradeQty b a)).take a (v.tradeQty b a)).dropFilled (bidAt k tb) b).dropFilled
    (askAt k ta) a)

theorem filled_of_trade (v : View) (b a : Slot) :
    (v.cell b).quantity = v.tradeQty b a ∨ (v.cell a).quantity = v.tradeQty b a := by
  unfold tradeQty minQty
  split <;> simp

theorem toInt_minQty (p q : Int32) : (minQty p q).toInt = min p.toInt q.toInt := by
  unfold minQty
  split
  · rename_i h
    rw [Int32.lt_iff_toInt_lt] at h
    omega
  · rename_i h
    rw [Int32.lt_iff_toInt_lt] at h
    omega

theorem toInt_sub_of_le {p q : Int32} (hq : 0 < q.toInt) (hqp : q.toInt ≤ p.toInt) :
    (p - q).toInt = p.toInt - q.toInt := by
  have := p.toInt_lt
  rw [Int32.toInt_sub, Int.bmod_eq_of_le] <;> omega

theorem sub_quantity_eq_zero (p q : Int32) : p - q = 0 ↔ p = q := by grind

section Trade

variable {k : UInt64} {tb ta : ℕ} {b a : Slot}

theorem Cross.bid_ne_nil (h : v.Cross k tb ta b a) : v.queue (bidAt k tb) ≠ [] := fun e => by
  have := h.bid
  rw [e] at this
  cases this

theorem Cross.ask_ne_nil (h : v.Cross k tb ta b a) : v.queue (askAt k ta) ≠ [] := fun e => by
  have := h.ask
  rw [e] at this
  cases this

theorem Cross.ne (h : v.Cross k tb ta b a) (hwf : v.WF) : b ≠ a := by
  rintro rfl
  have hl := hwf.loc_unique (List.mem_of_mem_head? h.bid) (List.mem_of_mem_head? h.ask)
  simp at hl

theorem trade_cell (v : View) (k : UInt64) (tb ta : ℕ) (b a : Slot) :
    (v.trade k tb ta b a).cell = ((v.take b (v.tradeQty b a)).take a (v.tradeQty b a)).cell := by
  simp [trade]

theorem trade_cell_bid (hne : b ≠ a) : (v.trade k tb ta b a).cell b =
    { v.cell b with quantity := (v.cell b).quantity - v.tradeQty b a } := by
  simp [trade_cell, take, Function.update_of_ne hne]

theorem trade_cell_ask (hne : b ≠ a) : (v.trade k tb ta b a).cell a =
    { v.cell a with quantity := (v.cell a).quantity - v.tradeQty b a } := by
  simp [trade_cell, take, Function.update_of_ne hne.symm]

theorem trade_cell_own (hne : b ≠ a) {x : Slot} (hx : x = b ∨ x = a) :
    (v.trade k tb ta b a).cell x =
      { v.cell x with quantity := (v.cell x).quantity - v.tradeQty b a } := by
  rcases hx with rfl | rfl
  · exact trade_cell_bid hne
  · exact trade_cell_ask hne

theorem trade_cell_other {x : Slot} (hb : x ≠ b) (ha : x ≠ a) :
    (v.trade k tb ta b a).cell x = v.cell x := by
  simp [trade_cell, take, Function.update_of_ne hb, Function.update_of_ne ha]

theorem trade_queue_bid (hne : b ≠ a) : (v.trade k tb ta b a).queue (bidAt k tb) =
    if (v.cell b).quantity = v.tradeQty b a then (v.queue (bidAt k tb)).tail
    else v.queue (bidAt k tb) := by
  unfold trade
  rw [dropFilled_queue (by simp)]
  simp [dropFilled, take, Function.update_of_ne hne, sub_quantity_eq_zero, apply_ite View.queue,
    ite_apply, drop]

theorem trade_queue_ask (hne : b ≠ a) : (v.trade k tb ta b a).queue (askAt k ta) =
    if (v.cell a).quantity = v.tradeQty b a then (v.queue (askAt k ta)).tail
    else v.queue (askAt k ta) := by
  unfold trade
  rw [dropFilled, dropFilled_cell]
  simp only [take, Function.update_self, Function.update_of_ne hne.symm, sub_quantity_eq_zero,
    apply_ite View.queue, ite_apply, drop]
  rw [dropFilled_queue (by simp)]

theorem trade_queue_other {l : Loc} (hb : l ≠ bidAt k tb) (ha : l ≠ askAt k ta) :
    (v.trade k tb ta b a).queue l = v.queue l := by
  unfold trade
  rw [dropFilled_queue ha, dropFilled_queue hb]
  rfl

theorem mem_trade_queue (hwf : v.WF) (hc : v.Cross k tb ta b a) {l : Loc} {x : Slot} :
    x ∈ (v.trade k tb ta b a).queue l ↔ x ∈ v.queue l ∧
      (x = b → (v.cell b).quantity ≠ v.tradeQty b a) ∧
      (x = a → (v.cell a).quantity ≠ v.tradeQty b a) := by
  have hne := hc.ne hwf
  have hsides : bidAt k tb ≠ askAt k ta := by simp
  apply hwf.mem_popFronts hsides hc.bid hc.ask
  · exact trade_queue_bid hne
  · exact trade_queue_ask hne
  · exact fun l hb ha => trade_queue_other hb ha

theorem trade_cell_terms (hne : b ≠ a) (x : Slot) :
    ∃ q, (v.trade k tb ta b a).cell x = { v.cell x with quantity := q } := by
  by_cases hb : x = b
  · exact ⟨_, by rw [hb, trade_cell_bid hne]⟩
  by_cases ha : x = a
  · exact ⟨_, by rw [ha, trade_cell_ask hne]⟩
  · exact ⟨_, by rw [trade_cell_other hb ha]⟩

theorem trade_free (hne : b ≠ a) : (v.trade k tb ta b a).free = v.free ++
    (if (v.cell b).quantity = v.tradeQty b a then [b] else []) ++
    (if (v.cell a).quantity = v.tradeQty b a then [a] else []) := by
  unfold trade
  rw [dropFilled_free, dropFilled_free, dropFilled_cell]
  simp [take, Function.update_of_ne hne, Function.update_of_ne hne.symm, sub_quantity_eq_zero]

theorem length_trade_free (hne : b ≠ a) : (v.trade k tb ta b a).free.length = v.free.length +
    (if (v.cell b).quantity = v.tradeQty b a then 1 else 0) +
    if (v.cell a).quantity = v.tradeQty b a then 1 else 0 := by
  rw [trade_free hne]
  simp only [List.length_append, apply_ite List.length, List.length_cons, List.length_nil]

/-- Every round frees a slot: the quantity traded is one of the two. -/
theorem trade_free_lt (hne : b ≠ a) :
    v.free.length < (v.trade k tb ta b a).free.length := by
  rw [length_trade_free hne]
  rcases v.filled_of_trade b a with h | h
  · rw [if_pos h]; omega
  · rw [if_pos h]; omega

theorem trade_wf (h : v.WF) (hc : v.Cross k tb ta b a) : (v.trade k tb ta b a).WF := by
  refine dropFilled_wf (dropFilled_wf (take_wf (take_wf h)) hc.bid) ?_
  rw [dropFilled_queue (by simp)]
  exact hc.ask

end Trade

/-- What the round reports. -/
structure Reports (v : View) (o : Slot) (σ : OrderType) (b a : Slot) (tr : Trade) : Prop where
  bid : tr.bid = b
  ask : tr.ask = a
  bidOrder : tr.bidOrder = v.cell b
  askOrder : tr.askOrder = v.cell a
  exec : ∃ now, tr.exec =
    buildExecution (v.tradeQty b a) (v.cell a) (v.cell b) (v.cell o).symbol σ now

/-- A run of the matching loop for the order in slot `o`, to its end. -/
inductive Sweep (k : UInt64) (o : Slot) (σ : OrderType) : View → List Trade → View → Prop
  | done {v : View} : v.Uncrossed k → Sweep k o σ v [] v
  | round {v v' : View} {tb ta : ℕ} {b a : Slot} {tr : Trade} {log : List Trade} :
      v.Cross k tb ta b a → v.Reports o σ b a tr → Sweep k o σ (v.trade k tb ta b a) log v' →
      Sweep k o σ v (tr :: log) v'

/-- **The rule for a sweep**: what a round keeps holds at the end, and what every round reports holds
of the whole log. -/
theorem Sweep.rule {k : UInt64} {x : Slot} {σ : OrderType} {v' : View} {log : List Trade}
    {I : View → Prop} {P : Trade → Prop} (h : Sweep k x σ v log v') (hI : I v)
    (step : ∀ w tb ta b a tr, I w → w.Cross k tb ta b a → w.Reports x σ b a tr →
      I (w.trade k tb ta b a) ∧ P tr) : I v' ∧ ∀ tr ∈ log, P tr := by
  induction h with
  | done _ => exact ⟨hI, by simp⟩
  | round hcross htr _ ih =>
    obtain ⟨hI', hP⟩ := step _ _ _ _ _ _ hI hcross htr
    obtain ⟨hend, hlog⟩ := ih hI'
    exact ⟨hend, List.forall_mem_cons.mpr ⟨hP, hlog⟩⟩

theorem Sweep.uncrossed {k : UInt64} {x : Slot} {σ : OrderType} {v' : View} {log : List Trade}
    (h : Sweep k x σ v log v') : v'.Uncrossed k := by
  induction h with
  | done h => exact h
  | round _ _ _ ih => exact ih

theorem Sweep.wf {k : UInt64} {x : Slot} {σ : OrderType} {v' : View} {log : List Trade}
    (h : Sweep k x σ v log v') (hwf : v.WF) : v'.WF :=
  (h.rule (P := fun _ => True) hwf fun _ _ _ _ _ _ hw hc _ => ⟨trade_wf hw hc, trivial⟩).1

theorem Sweep.queue_other {k : UInt64} {x : Slot} {σ : OrderType} {v' : View} {log : List Trade}
    (h : Sweep k x σ v log v') {l : Loc} (hl : l.1 ≠ k) : v'.queue l = v.queue l :=
  (h.rule (P := fun _ => True) (I := fun w => w.queue l = v.queue l) rfl
    fun _ _ _ _ _ _ hw _ _ => ⟨(trade_queue_other (fun e => hl (by rw [e])) fun e =>
      hl (by rw [e])).trans hw, trivial⟩).1

theorem Sweep.free_append {k : UInt64} {x : Slot} {σ : OrderType} {v' : View} {log : List Trade}
    (h : Sweep k x σ v log v') (hwf : v.WF) : ∃ released, v'.free = v.free ++ released := by
  obtain ⟨released, hrel⟩ : v.free <+: v'.free := by
    refine (h.rule (P := fun _ => True) (I := fun w => w.WF ∧ v.free <+: w.free)
      ⟨hwf, List.prefix_rfl⟩ ?_).1.2
    rintro w tb ta b a tr ⟨hw, hpre⟩ hc -
    refine ⟨⟨trade_wf hw hc, hpre.trans ?_⟩, trivial⟩
    rw [trade_free (hc.ne hw), List.append_assoc]
    exact List.prefix_append _ _
  exact ⟨released, hrel.symm⟩

/-- A call of `acceptNewOrder`: an order outside the range of ticks, or one that finds no free slot,
is ignored; any other is filed and the book of its symbol is swept. -/
inductive Accept (v : View) (o : Order) : List Trade → View → Prop
  | outOfRange : (∀ l, ¬ o.At l) → Accept v o [] v
  | exhausted : v.free = [] → Accept v o [] v
  | sweep {x : Slot} {l : Loc} {free : List Slot} {log : List Trade} {v' : View} :
      v.free = free ++ [x] → o.At l → Sweep l.1 x l.2.1 (v.insert x o l) log v' → Accept v o log v'

theorem Accept.sweep_of_at {v' : View} {log : List Trade} {k : UInt64} {σ : OrderType} {t : ℕ}
    (h : v.Accept o log v') (hfree : v.free ≠ []) (hAt : o.At (k, σ, t)) :
    ∃ x free, v.free = free ++ [x] ∧ Sweep k x σ (v.insert x o (k, σ, t)) log v' := by
  cases h with
  | outOfRange hno => exact absurd hAt (hno _)
  | exhausted hnil => exact absurd hnil hfree
  | @sweep x l free _ _ hfree hAt' hs =>
    obtain rfl := hAt'.unique hAt
    exact ⟨x, free, hfree, hs⟩

theorem Accept.eq_of_not_at {v' : View} {log : List Trade} (h : v.Accept o log v')
    (hno : ∀ l, ¬ o.At l) : log = [] ∧ v' = v := by
  cases h with
  | outOfRange _ => exact ⟨rfl, rfl⟩
  | exhausted _ => exact ⟨rfl, rfl⟩
  | sweep _ hAt _ => exact absurd hAt (hno _)

/-- The calls for a sequence of orders. -/
inductive Run : View → List Order → List Trade → View → Prop
  | nil {v : View} : Run v [] [] v
  | cons {v v' v'' : View} {o : Order} {os : List Order} {log log' : List Trade} :
      Accept v o log v' → Run v' os log' v'' → Run v (o :: os) (log ++ log') v''

/-- **The rule for a run**: what a call keeps holds at the end, and what every call reports holds of
the whole log. -/
theorem Run.rule {v' : View} {os : List Order} {log : List Trade} {I : View → Prop}
    {P : Trade → Prop} (h : Run v os log v') (hI : I v)
    (step : ∀ w o log w', o ∈ os → I w → w.Accept o log w' → I w' ∧ ∀ tr ∈ log, P tr) :
    I v' ∧ ∀ tr ∈ log, P tr := by
  induction h with
  | nil => exact ⟨hI, by simp⟩
  | cons hacc _ ih =>
    obtain ⟨hI', hP⟩ := step _ _ _ _ (by simp) hI hacc
    obtain ⟨hend, hlog⟩ := ih hI' fun w o log w' ho => step w o log w' (by simp [ho])
    refine ⟨hend, fun tr htr => ?_⟩
    rcases List.mem_append.mp htr with htr | htr
    · exact hP tr htr
    · exact hlog tr htr

/-! ### What holds between calls -/

/-- Between calls no book is crossed. -/
structure Settled (v : View) : Prop where
  wf : v.WF
  uncrossed : ∀ k, v.Uncrossed k

theorem Accept.settled {v' : View} {log : List Trade} (h : v.Accept o log v') (hv : v.Settled) :
    v'.Settled := by
  cases h with
  | outOfRange _ => exact hv
  | exhausted _ => exact hv
  | @sweep x l _ _ _ hfree hAt hs =>
    refine ⟨hs.wf (insert_wf hv.wf hfree hAt), fun k => ?_⟩
    by_cases hk : k = l.1
    · rw [hk]
      exact hs.uncrossed
    · -- the other symbols are as before
      have hq : ∀ σ t, v'.queue (k, σ, t) = v.queue (k, σ, t) := fun σ t => by
        rw [hs.queue_other hk, insert_queue_other (fun e => hk (by rw [← e]))]
      intro t u ht hu
      exact hv.uncrossed k t u (by rwa [← hq]) (by rwa [← hq])

theorem Run.settled {v' : View} {os : List Order} {log : List Trade} (h : v.Run os log v')
    (hv : v.Settled) : v'.Settled :=
  (h.rule (P := fun _ => True) hv fun _ _ _ _ _ hw hacc => ⟨hacc.settled hw, fun _ _ => trivial⟩).1

/-- The view of a fresh engine. -/
def new : View where
  cell _ := Order.zero
  queue _ := []
  free := List.finRange poolCapacity

theorem new_settled : new.Settled where
  wf := ⟨fun _ _ h => by simp [new] at h, fun _ => List.nodup_nil, List.nodup_finRange _,
    fun _ _ _ h => by simp [new] at h, fun x => Or.inl (List.mem_finRange x)⟩
  uncrossed _ _ _ h := by simp [new] at h

end View

end TradingSim
