import TradingSim.Queue.Spsc

/-!
A queue in use: a producer that pushes one item after another and counts those the queue had no room for,
and a consumer that pops.

Both threads of `main` that produce do the same with their queue: `if (!queue.push(x)) ++dropped`. What is
known of such a lane does not depend on the consumer's pace (`Lane.Accounted`): of the items given to the
producer those that were offered come first, each was taken in or counted as dropped, and those taken in
are handed out in the same order. A queue that is larger than all there is to push drops nothing
(`Lane.Accounted.no_drop`). Every access of either side brings its thread nearer to the end of its work, and
only a push gives the consumer more to do (`Lane.pop_toDrain`, `Lane.push_toDrain`, `Lane.push_toPush`).
-/

namespace TradingSim

open Lib

/-- The accesses that the producer has made in its call. -/
def Producer.made {α : Type} {cap : ℕ} : Producer α cap → ℕ
  | .idle => 0
  | .loadedTail _ _ => 1
  | .room _ _ => 2
  | .written _ _ => 3

/-- The accesses that the consumer has made in its call. -/
def Consumer.made {α : Type} {cap : ℕ} : Consumer α cap → ℕ
  | .idle => 0
  | .loadedHead _ => 1
  | .nonEmpty _ => 2
  | .copied _ _ => 3

/-- The access takes an item in. -/
def SpscEvent.isPushed {α : Type} : SpscEvent α → Bool
  | .done (.push _) => true
  | _ => false

/-- A queue with the items that its producer has still to push, the one that is being pushed first, and
the count of those that were dropped. -/
structure Lane (α : Type) (cap : ℕ) where
  queue : SpscQueue α cap
  pending : List α
  dropped : ℕ

namespace Lane

variable {α : Type} {cap : ℕ} [NeZero cap]

def new (buffer : Fin cap → α) (pending : List α) : Lane α cap := ⟨.new buffer, pending, 0⟩

/-- The producer, with `x` to push: the next access of `push`, and when the call returns, the count of
drops and the next item. -/
def push (l : Lane α cap) (x : α) (rest : List α) : SpscEvent α × Lane α cap :=
  let (e, q) := l.queue.push x
  (e, { queue := q
        pending := match e with
          | .done _ => rest
          | _ => l.pending
        dropped := match e with
          | .done (.full _) => l.dropped + 1
          | _ => l.dropped })

/-- The consumer: the next access of `pop`. -/
def pop (l : Lane α cap) : SpscEvent α × Lane α cap :=
  let (e, q) := l.queue.pop
  (e, { l with queue := q })

theorem push_ne_empty (l : Lane α cap) (x : α) (rest : List α) :
    (l.push x rest).1 ≠ .done .empty := by
  intro hempty
  change (l.queue.push x).1 = .done .empty at hempty
  rcases l.queue.push_event x with ⟨y, -, -, hev | hev⟩ | ⟨hsilent, -⟩
  · rw [hev] at hempty
    cases hempty
  · rw [hev] at hempty
    cases hempty
  · rw [hempty] at hsilent
    cases hsilent

theorem pops_push (l : Lane α cap) (x : α) (rest : List α) (ops : List (FifoOp α)) :
    Fifo.pops (ops ++ (l.push x rest).1.op?.toList) = Fifo.pops ops := by
  change Fifo.pops (ops ++ (l.queue.push x).1.op?.toList) = Fifo.pops ops
  rcases l.queue.push_event x with ⟨y, -, -, hev | hev⟩ | ⟨hsilent, -⟩
  · simp [hev, SpscEvent.op?, Fifo.pops_snoc, Fifo.popped?]
  · simp [hev, SpscEvent.op?, Fifo.pops_snoc, Fifo.popped?]
  · simp [hsilent]

theorem pop_event (l : Lane α cap) :
    (∃ x, l.pop.1 = .done (.pop x)) ∨ l.pop.1 = .done .empty ∨ l.pop.1.op? = none :=
  l.queue.pop_event.2

/-! ### The account -/

/-- What is known of a lane after the operations `ops`, when the producer was given `given`. -/
structure Accounted (given : List α) (ops : List (FifoOp α)) (l : Lane α cap) : Prop where
  inv : l.queue.Inv
  offers : Fifo.offers ops ++ l.pending = given
  /-- The call in progress is for the first of the items. -/
  current : ∀ x, l.queue.producer.item? = some x → l.pending.head? = some x
  dropped : (Fifo.pushes ops).length + l.dropped = (Fifo.offers ops).length
  history : Fifo.pushes ops = Fifo.pops ops ++ l.queue.stored

theorem accounted_new (buffer : Fin cap → α) (pending : List α) :
    Accounted pending [] (new buffer pending) :=
  ⟨SpscQueue.new_inv buffer, rfl, by simp [new, SpscQueue.new, Producer.item?], rfl,
    (Ring.items_self).symm⟩

namespace Accounted

variable {given : List α} {ops : List (FifoOp α)} {l : Lane α cap} {x : α} {rest : List α}

theorem history_snoc (h : Accounted given ops l) {op : FifoOp α} {q : List α}
    (hop : Fifo.Step (cap - 1) l.queue.stored op q) :
    Fifo.pushes (ops ++ [op]) = Fifo.pops (ops ++ [op]) ++ q := by
  rw [Fifo.pushes_snoc, Fifo.pops_snoc, h.history]
  generalize l.queue.stored = stored at hop
  cases hop <;> simp [Fifo.pushed?, Fifo.popped?]

/-- **A step of the producer.** -/
theorem push (h : Accounted given ops l) (hnext : l.pending = x :: rest) :
    Accounted given (ops ++ (l.push x rest).1.op?.toList) (l.push x rest).2 := by
  have hoffers := h.offers
  rw [hnext] at hoffers
  have htakes := SpscQueue.push_takes h.inv x
  have hevent := l.queue.push_event x
  unfold Lane.push
  generalize l.queue.push x = step at htakes hevent ⊢
  obtain ⟨e, q⟩ := step
  rcases hevent with ⟨y, hitem, hidle, hev⟩ | ⟨hsilent, hitem⟩
  · -- the call returns, and it was for the first of the items
    obtain rfl : x = y := by simpa [hnext] using h.current y hitem
    have hnone : q.producer.item? = none := congrArg Producer.item? hidle
    have hdropped := h.dropped
    -- taken in or dropped, the item counts as offered
    rcases hev with rfl | rfl
    all_goals
      refine ⟨htakes.inv, ?_, by simp [hnone], ?_, h.history_snoc (htakes.op _ rfl)⟩
      · simpa [Fifo.offers_snoc, SpscEvent.op?, Fifo.offered?] using hoffers
      · simp [Fifo.offers_snoc, Fifo.pushes_snoc, SpscEvent.op?, Fifo.offered?, Fifo.pushed?]
        omega
  · have hcur : ∀ y, q.producer.item? = some y → l.pending.head? = some y := by
      intro y hy
      rw [hitem, Option.some_inj] at hy
      cases hp : l.queue.producer.item? with
      | none => simp [← hy, hp, hnext]
      | some z =>
        rw [← hy, hp]
        exact h.current z hp
    have hhistory : Fifo.pushes ops = Fifo.pops ops ++ q.stored := by
      rw [htakes.silent hsilent]
      exact h.history
    cases e with
    | done op => cases hsilent
    | _ =>
      simp only [SpscEvent.op?, Option.toList_none, List.append_nil]
      exact ⟨htakes.inv, h.offers, hcur, h.dropped, hhistory⟩

/-- **A step of the consumer.** -/
theorem pop (h : Accounted given ops l) :
    Accounted given (ops ++ l.pop.1.op?.toList) l.pop.2 := by
  have htakes := SpscQueue.pop_takes h.inv
  obtain ⟨hprod, hevent⟩ := l.queue.pop_event
  unfold Lane.pop
  generalize l.queue.pop = step at htakes hprod hevent ⊢
  obtain ⟨e, q⟩ := step
  have hcur : ∀ y, q.producer.item? = some y → l.pending.head? = some y := by
    intro y hy
    apply h.current y
    rwa [← hprod]
  rcases hevent with ⟨y, rfl⟩ | rfl | hsilent
  iterate 2
    -- a pop offers nothing to the queue, whatever it returns
    · refine ⟨htakes.inv, ?_, hcur, ?_, h.history_snoc (htakes.op _ rfl)⟩
      · simpa [Fifo.offers_snoc, SpscEvent.op?, Fifo.offered?] using h.offers
      · simpa [Fifo.offers_snoc, Fifo.pushes_snoc, SpscEvent.op?, Fifo.offered?, Fifo.pushed?]
          using h.dropped
  · rw [hsilent, Option.toList_none, List.append_nil]
    refine ⟨htakes.inv, h.offers, hcur, h.dropped, ?_⟩
    rw [htakes.silent hsilent]
    exact h.history

theorem give (h : Accounted given ops l) (hdone : l.pending = []) (more : List α) :
    Accounted (given ++ more) ops { l with pending := more } := by
  refine ⟨h.inv, ?_, fun y hy => ?_, h.dropped, h.history⟩
  · rw [← h.offers, hdone, List.append_nil]
  · have hhead := h.current y hy
    rw [hdone] at hhead
    cases hhead

theorem no_drop (h : Accounted given ops l) (hnext : l.pending = x :: rest)
    (hroom : given.length < cap) (hzero : l.dropped = 0) : (l.push x rest).2.dropped = 0 := by
  have htakes := SpscQueue.push_takes h.inv x
  have hevent := l.queue.push_event x
  -- what is stored was offered before, and there is an item left to offer
  have hstored : l.queue.stored.length < cap - 1 := by
    have hpushed := congrArg List.length h.history
    have hgiven := congrArg List.length h.offers
    have hoffered := h.dropped
    rw [List.length_append] at hpushed
    rw [List.length_append, hnext, List.length_cons] at hgiven
    omega
  unfold Lane.push
  generalize l.queue.push x = step at htakes hevent ⊢
  obtain ⟨e, q⟩ := step
  rcases hevent with ⟨y, -, -, rfl | rfl⟩ | ⟨hsilent, -⟩
  · exact hzero
  · obtain ⟨hfull, -⟩ : l.queue.stored.length = cap - 1 ∧ q.stored = l.queue.stored :=
      (htakes.op _ rfl).eq_of_full
    omega
  · cases e with
    | done op => cases hsilent
    | _ => exact hzero

/-- What was handed out is the beginning of what was taken in, and what was taken in is part of what
was given. -/
theorem pushes_sublist (h : Accounted given ops l) : (Fifo.pushes ops).Sublist given := by
  rw [← h.offers]
  exact (Fifo.pushes_sublist_offers ops).trans (List.sublist_append_left _ _)

end Accounted

/-! ### The work that is left -/

/-- The steps of a consumer that pops the items, does one step with each, and then finds the queue empty. -/
def toDrain (l : Lane α cap) : ℕ := 5 * l.queue.stored.length + 2 - l.queue.consumer.made

/-- The accesses, at most, in which the producer pushes its items. -/
def toPush (l : Lane α cap) : ℕ := 4 * l.pending.length - l.queue.producer.made

theorem toDrain_le (l : Lane α cap) : l.toDrain ≤ 5 * l.queue.stored.length + 2 := Nat.sub_le _ _

theorem pop_toDrain {l : Lane α cap} (h : l.queue.Inv) :
    (∃ x, l.pop.1 = .done (.pop x) ∧ l.pop.2.toDrain + 2 = l.toDrain) ∨
      (l.pop.1 = .done .empty ∧ 1 ≤ l.toDrain) ∨
      (l.pop.1.op? = none ∧ l.pop.2.toDrain + 1 = l.toDrain) := by
  obtain ⟨⟨buf, hd, tl, prod, cons⟩, pending, dropped⟩ := l
  obtain ⟨-, hc⟩ := h
  have stored_pos : hd ≠ tl → 0 < (Ring.items buf hd tl).length := by
    intro hne
    rw [Ring.items_pop hne]
    simp
  cases cons with
  | idle => exact Or.inr (Or.inr ⟨rfl, rfl⟩)
  | loadedHead h =>
    obtain rfl : h = hd := hc
    by_cases hempty : h = tl
    · refine Or.inr (Or.inl ⟨by simp [pop, SpscQueue.pop, hempty], ?_⟩)
      simp only [toDrain, Consumer.made]
      omega
    · refine Or.inr (Or.inr ⟨by simp [pop, SpscQueue.pop, hempty, SpscEvent.op?], ?_⟩)
      have hpos := stored_pos hempty
      simp only [toDrain, pop, SpscQueue.pop, if_neg hempty, SpscQueue.stored, Consumer.made]
      omega
  | nonEmpty h =>
    obtain ⟨rfl, hne⟩ : h = hd ∧ h ≠ tl := hc
    refine Or.inr (Or.inr ⟨rfl, ?_⟩)
    have hpos := stored_pos hne
    simp only [toDrain, pop, SpscQueue.pop, SpscQueue.stored, Consumer.made]
    omega
  | copied h x =>
    obtain ⟨rfl, hne, rfl⟩ : h = hd ∧ h ≠ tl ∧ buf h = x := hc
    refine Or.inl ⟨_, rfl, ?_⟩
    simp only [toDrain, pop, SpscQueue.pop, SpscQueue.stored, Consumer.made, Ring.items_pop hne,
      List.length_cons]
    omega

/-- A consumer that has `k` steps to do after the queue: whatever the access shows, it is one of them. -/
theorem pop_pays {l : Lane α cap} (h : l.queue.Inv) {f : SpscEvent α → ℕ} {k : ℕ}
    (hpop : ∀ x, f (.done (.pop x)) = l.pop.2.toDrain + (k + 1)) (hempty : f (.done .empty) = k)
    (hnext : ∀ e, e.op? = none → f e = l.pop.2.toDrain + k) : f l.pop.1 + 1 ≤ l.toDrain + k := by
  rcases pop_toDrain h with ⟨x, hev, hleft⟩ | ⟨hev, hleft⟩ | ⟨hev, hleft⟩
  · rw [hev, hpop]
    omega
  · rw [hev, hempty]
    omega
  · rw [hnext _ hev]
    omega

theorem push_toDrain {l : Lane α cap} (h : l.queue.Inv) (x : α) (rest : List α) :
    (l.push x rest).2.toDrain ≤ l.toDrain + 5 * (l.push x rest).1.isPushed.toNat := by
  obtain ⟨⟨buf, hd, tl, prod, cons⟩, pending, dropped⟩ := l
  obtain ⟨hp, -⟩ := h
  cases prod with
  | idle => exact Nat.le_add_right _ _
  | loadedTail y t =>
    by_cases hfull : Ring.succ t = hd
    · simp [toDrain, push, SpscQueue.push, hfull, SpscQueue.stored]
    · simp [toDrain, push, SpscQueue.push, hfull, SpscQueue.stored]
  | room y t =>
    obtain ⟨rfl, -⟩ : t = tl ∧ Ring.succ t ≠ hd := hp
    simp [toDrain, push, SpscQueue.push, SpscQueue.stored]
  | written y t =>
    obtain ⟨rfl, hroom, -⟩ : t = tl ∧ Ring.succ t ≠ hd ∧ buf t = y := hp
    simp only [toDrain, push, SpscQueue.push, SpscQueue.stored, Ring.items_push hroom,
      List.length_append, List.length_singleton, SpscEvent.isPushed, Bool.toNat_true]
    omega

theorem push_toPush {l : Lane α cap} {x : α} {rest : List α} (hnext : l.pending = x :: rest) :
    (l.push x rest).2.toPush < l.toPush := by
  obtain ⟨⟨buf, hd, tl, prod, cons⟩, pending, dropped⟩ := l
  obtain rfl : pending = x :: rest := hnext
  cases prod with
  | loadedTail y t =>
    by_cases hfull : Ring.succ t = hd
    · simp only [toPush, push, SpscQueue.push, if_pos hfull, Producer.made, List.length_cons]
      omega
    · simp only [toPush, push, SpscQueue.push, if_neg hfull, Producer.made, List.length_cons]
      omega
  | _ =>
    simp only [toPush, push, SpscQueue.push, Producer.made, List.length_cons]
    omega

end Lane

end TradingSim
