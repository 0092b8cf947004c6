import TradingSim.Lib.Fifo

/-!
`SpscQueue`: the ring buffer through which one thread hands items to another without a lock.

`push` and `pop` are cut at their accesses to shared memory. `SpscQueue.push` and `SpscQueue.pop` take
the next such access of a call, or begin one, and an execution of the queue is any interleaving of
them. What makes it work is that each side's copies of the indices are never worse than out of date
(`SpscQueue.Inv`): the tail that the producer holds is the tail, and room it has seen does not go
away, since only it takes room; the consumer's side mirrors this. Under `SpscQueue.stored` every
execution is one of the bounded queue of `capacity - 1` items, each operation taking effect at one
access of its own call.
-/

namespace TradingSim

open Lib

/-! ### The two threads -/

/-- Where the producer is in a call of `push`, with its local variables. -/
inductive Producer (α : Type) (cap : ℕ) where
  | idle
  /-- `current_tail` is loaded. -/
  | loadedTail (item : α) (currentTail : Fin cap)
  /-- `head_` is loaded, and the queue was not full. -/
  | room (item : α) (currentTail : Fin cap)
  /-- The slot is written. -/
  | written (item : α) (currentTail : Fin cap)
  deriving DecidableEq

/-- Where the consumer is in a call of `pop`. -/
inductive Consumer (α : Type) (cap : ℕ) where
  | idle
  /-- `current_head` is loaded. -/
  | loadedHead (currentHead : Fin cap)
  /-- `tail_` is loaded, and the queue was not empty. -/
  | nonEmpty (currentHead : Fin cap)
  /-- The slot is copied to the caller's item. -/
  | copied (currentHead : Fin cap) (item : α)
  deriving DecidableEq

/-- The queue with its two threads. -/
structure SpscQueue (α : Type) (cap : ℕ) where
  buffer : Fin cap → α
  head : Fin cap
  tail : Fin cap
  producer : Producer α cap
  consumer : Consumer α cap
  deriving DecidableEq

/-- What an access does to its call: it begins it, goes on with it, or returns its result. -/
inductive SpscEvent (α : Type) where
  | pushCall (item : α)
  | popCall
  | pushAccess
  | popAccess
  | done (op : FifoOp α)
  deriving DecidableEq

namespace SpscEvent

variable {α : Type}

/-- The operation that the access completes. -/
def op? : SpscEvent α → Option (FifoOp α)
  | .done op => some op
  | _ => none

/-- The item of the call of `push` in progress. -/
def pushing : Option α → SpscEvent α → Option α
  | _, .pushCall item => some item
  | _, .done (.push _) => none
  | _, .done (.full _) => none
  | p, _ => p

/-- Whether a call of `pop` is in progress. -/
def popping : Bool → SpscEvent α → Bool
  | _, .popCall => true
  | _, .done (.pop _) => false
  | _, .done .empty => false
  | p, _ => p

/-- The completed operations of an execution. -/
def ops (tr : List (SpscEvent α)) : List (FifoOp α) := tr.filterMap op?

def openPush (tr : List (SpscEvent α)) : Option α := tr.foldl pushing none

def openPop (tr : List (SpscEvent α)) : Bool := tr.foldl popping false

end SpscEvent

/-- The item of the call that the producer is in. -/
def Producer.item? {α : Type} {cap : ℕ} : Producer α cap → Option α
  | .idle => none
  | .loadedTail item _ => some item
  | .room item _ => some item
  | .written item _ => some item

/-- Whether the consumer is in a call. -/
def Consumer.busy {α : Type} {cap : ℕ} : Consumer α cap → Bool
  | .idle => false
  | _ => true

namespace SpscQueue

variable {α : Type} {cap : ℕ} [NeZero cap]

/-- The constructor: both indices are zero, and no call is in progress. -/
def new (buffer : Fin cap → α) : SpscQueue α cap where
  buffer := buffer
  head := ⟨0, NeZero.pos cap⟩
  tail := ⟨0, NeZero.pos cap⟩
  producer := .idle
  consumer := .idle

/-- The next access of `push`, or the first one of `push(item)`. -/
def push (q : SpscQueue α cap) (item : α) : SpscEvent α × SpscQueue α cap :=
  match q.producer with
  | .idle => (.pushCall item, { q with producer := .loadedTail item q.tail })
  | .loadedTail item t =>
    if Ring.succ t = q.head then (.done (.full item), { q with producer := .idle })
    else (.pushAccess, { q with producer := .room item t })
  | .room item t =>
    (.pushAccess, { q with buffer := Function.update q.buffer t item, producer := .written item t })
  | .written item t => (.done (.push item), { q with tail := Ring.succ t, producer := .idle })

/-- The next access of `pop`. -/
def pop (q : SpscQueue α cap) : SpscEvent α × SpscQueue α cap :=
  match q.consumer with
  | .idle => (.popCall, { q with consumer := .loadedHead q.head })
  | .loadedHead h =>
    if h = q.tail then (.done .empty, { q with consumer := .idle })
    else (.popAccess, { q with consumer := .nonEmpty h })
  | .nonEmpty h => (.popAccess, { q with consumer := .copied h (q.buffer h) })
  | .copied h item => (.done (.pop item), { q with head := Ring.succ h, consumer := .idle })

/-- One access of either thread; a producer between calls may push any item. -/
inductive Step : SpscQueue α cap → SpscEvent α → SpscQueue α cap → Prop
  | producer (q : SpscQueue α cap) (item : α) : Step q (q.push item).1 (q.push item).2
  | consumer (q : SpscQueue α cap) : Step q q.pop.1 q.pop.2

/-! ### The invariant -/

/-- The items in the queue. -/
def stored (q : SpscQueue α cap) : List α := Ring.items q.buffer q.head q.tail

/-- What the local variables of the producer still say about the queue. -/
def ProducerInv (q : SpscQueue α cap) : Prop :=
  match q.producer with
  | .idle => True
  | .loadedTail _ t => t = q.tail
  | .room _ t => t = q.tail ∧ Ring.succ t ≠ q.head
  | .written item t => t = q.tail ∧ Ring.succ t ≠ q.head ∧ q.buffer t = item

/-- What the local variables of the consumer still say about the queue. -/
def ConsumerInv (q : SpscQueue α cap) : Prop :=
  match q.consumer with
  | .idle => True
  | .loadedHead h => h = q.head
  | .nonEmpty h => h = q.head ∧ h ≠ q.tail
  | .copied h item => h = q.head ∧ h ≠ q.tail ∧ q.buffer h = item

structure Inv (q : SpscQueue α cap) : Prop where
  producer : q.ProducerInv
  consumer : q.ConsumerInv

/-- What an access does to the stored items: the operation that it completes, and nothing when it
completes none. -/
structure Takes (q : SpscQueue α cap) (e : SpscEvent α) (q' : SpscQueue α cap) : Prop where
  inv : q'.Inv
  op : ∀ op, e.op? = some op → Fifo.Step (cap - 1) q.stored op q'.stored
  silent : e.op? = none → q'.stored = q.stored

variable {q q' : SpscQueue α cap} {e : SpscEvent α} {tr : List (SpscEvent α)}

/-- **One access of the producer.** -/
theorem push_takes (h : q.Inv) (item : α) : q.Takes (q.push item).1 (q.push item).2 := by
  obtain ⟨buf, hd, tl, p, c⟩ := q
  obtain ⟨hp, hc⟩ := h
  cases p with
  | idle => exact ⟨⟨rfl, hc⟩, by simp [push, SpscEvent.op?], fun _ => rfl⟩
  | loadedTail x t =>
    obtain rfl : t = tl := hp
    by_cases hfull : Ring.succ t = hd
    · simp only [push, if_pos hfull]
      refine ⟨⟨trivial, hc⟩, ?_, by simp [SpscEvent.op?]⟩
      rintro _ ⟨⟩
      apply Fifo.Step.full
      have := Ring.dist_of_succ_eq hfull
      simp only [stored, Ring.length_items]
      omega
    · simp only [push, if_neg hfull]
      exact ⟨⟨⟨rfl, hfull⟩, hc⟩, by simp [SpscEvent.op?], fun _ => rfl⟩
  | room x t =>
    obtain ⟨rfl, hroom⟩ := hp
    refine ⟨⟨⟨rfl, hroom, Function.update_self _ _ _⟩, ?_⟩, by simp [push, SpscEvent.op?],
      fun _ => Ring.items_update x⟩
    -- the slot written is not the one the consumer is at
    cases c with
    | idle => trivial
    | loadedHead h => exact hc
    | nonEmpty h => exact hc
    | copied h y =>
      obtain ⟨hh, hne, hy⟩ := hc
      exact ⟨hh, hne, (Function.update_of_ne hne _ _).trans hy⟩
  | written x t =>
    obtain ⟨rfl, hroom, rfl⟩ : t = tl ∧ Ring.succ t ≠ hd ∧ buf t = x := hp
    refine ⟨⟨trivial, ?_⟩, ?_, by simp [push, SpscEvent.op?]⟩
    · cases c with
      | idle => trivial
      | loadedHead h => exact hc
      | nonEmpty h => exact ⟨hc.1, fun e => hroom (e.symm.trans hc.1)⟩
      | copied h y => exact ⟨hc.1, fun e => hroom (e.symm.trans hc.1), hc.2.2⟩
    · rintro _ ⟨⟩
      simp only [push, stored, Ring.items_push hroom]
      apply Fifo.Step.push
      have hlt := Ring.dist_lt hd (Ring.succ t)
      rw [Ring.dist_succ_right hroom] at hlt
      rw [Ring.length_items]
      omega

/-- **One access of the consumer.** -/
theorem pop_takes (h : q.Inv) : q.Takes q.pop.1 q.pop.2 := by
  obtain ⟨buf, hd, tl, p, c⟩ := q
  obtain ⟨hp, hc⟩ := h
  cases c with
  | idle => exact ⟨⟨hp, rfl⟩, by simp [pop, SpscEvent.op?], fun _ => rfl⟩
  | loadedHead h =>
    obtain rfl : h = hd := hc
    by_cases hempty : h = tl
    · subst hempty
      simp only [pop, if_pos]
      refine ⟨⟨hp, trivial⟩, ?_, by simp [SpscEvent.op?]⟩
      rintro _ ⟨⟩
      simp only [stored, Ring.items_self]
      exact Fifo.Step.empty
    · simp only [pop, if_neg hempty]
      exact ⟨⟨hp, rfl, hempty⟩, by simp [SpscEvent.op?], fun _ => rfl⟩
  | nonEmpty h =>
    exact ⟨⟨hp, hc.1, hc.2, rfl⟩, by simp [pop, SpscEvent.op?], fun _ => rfl⟩
  | copied h y =>
    obtain ⟨rfl, hne, rfl⟩ : h = hd ∧ h ≠ tl ∧ buf h = y := hc
    refine ⟨⟨?_, trivial⟩, ?_, by simp [pop, SpscEvent.op?]⟩
    · -- room that the producer has seen is still there, with one place more
      have hkeep : ∀ t : Fin cap, t = tl → Ring.succ t ≠ Ring.succ h := fun t ht e =>
        hne ((Ring.succ_injective e).symm.trans ht)
      cases p with
      | idle => trivial
      | loadedTail x t => exact hp
      | room x t => exact ⟨hp.1, hkeep t hp.1⟩
      | written x t => exact ⟨hp.1, hkeep t hp.1, hp.2.2⟩
    · rintro _ ⟨⟩
      simp only [pop, stored, Ring.items_pop hne]
      exact Fifo.Step.pop

theorem Step.takes (hs : q.Step e q') (h : q.Inv) : q.Takes e q' := by
  cases hs with
  | producer item => exact push_takes h item
  | consumer => exact pop_takes h

theorem new_inv (buffer : Fin cap → α) : (new buffer).Inv := ⟨trivial, trivial⟩

theorem Inv.exec_fifo (hinv : q.Inv) (h : Exec Step q tr q') :
    q'.Inv ∧ Exec (Fifo.Step (cap - 1)) q.stored (SpscEvent.ops tr) q'.stored :=
  h.refine (f := stored) hinv fun _ _ _ ht hs => ⟨(hs.takes ht).inv, (hs.takes ht).op, (hs.takes ht).silent⟩

/-- **Every execution** is one of the bounded queue. -/
theorem exec_fifo {buffer : Fin cap → α} (h : Exec Step (new buffer) tr q) :
    q.Inv ∧ Exec (Fifo.Step (cap - 1)) [] (SpscEvent.ops tr) q.stored := by
  have hnil : (new buffer).stored = [] := Ring.items_self
  have href := (new_inv buffer).exec_fifo h
  rwa [hnil] at href

/-! ### Calls -/

theorem Step.pushing_eq (hs : q.Step e q') :
    SpscEvent.pushing q.producer.item? e = q'.producer.item? := by
  obtain ⟨buf, hd, tl, p, c⟩ := q
  cases hs with
  | producer item =>
    cases p with
    | loadedTail x t =>
      by_cases hfull : Ring.succ t = hd <;> simp [push, hfull, SpscEvent.pushing, Producer.item?]
    | _ => rfl
  | consumer =>
    cases c with
    | loadedHead h => by_cases hempty : h = tl <;> simp [pop, hempty, SpscEvent.pushing]
    | _ => rfl

theorem Step.popping_eq (hs : q.Step e q') :
    SpscEvent.popping q.consumer.busy e = q'.consumer.busy := by
  obtain ⟨buf, hd, tl, p, c⟩ := q
  cases hs with
  | producer item =>
    cases p with
    | loadedTail x t =>
      by_cases hfull : Ring.succ t = hd <;> simp [push, hfull, SpscEvent.popping]
    | _ => rfl
  | consumer =>
    cases c with
    | loadedHead h =>
      by_cases hempty : h = tl <;> simp [pop, hempty, SpscEvent.popping, Consumer.busy]
    | _ => rfl

theorem openPush_eq {buffer : Fin cap → α} (h : Exec Step (new buffer) tr q) :
    SpscEvent.openPush tr = q.producer.item? :=
  h.foldl_eq (g := fun q : SpscQueue α cap => q.producer.item?) fun _ _ _ => Step.pushing_eq

theorem openPop_eq {buffer : Fin cap → α} (h : Exec Step (new buffer) tr q) :
    SpscEvent.openPop tr = q.consumer.busy :=
  h.foldl_eq (g := fun q : SpscQueue α cap => q.consumer.busy) fun _ _ _ => Step.popping_eq

theorem Step.item_of_full {item : α} (hs : q.Step (.done (.full item)) q') :
    q.producer.item? = some item := by
  generalize he : SpscEvent.done (.full item) = e at hs
  obtain ⟨buf, hd, tl, p, c⟩ := q
  cases hs with
  | producer x =>
    cases p with
    | loadedTail y t =>
      by_cases hfull : Ring.succ t = hd
      · simp only [push, if_pos hfull, SpscEvent.done.injEq, FifoOp.full.injEq] at he
        rw [he]
        rfl
      · simp [push, hfull] at he
    | _ => simp [push] at he
  | consumer =>
    cases c with
    | loadedHead h => by_cases hempty : h = tl <;> simp [pop, hempty] at he
    | _ => simp [pop] at he

theorem Step.busy_of_empty (hs : q.Step (.done .empty) q') : q.consumer.busy = true := by
  generalize he : SpscEvent.done .empty = e at hs
  obtain ⟨buf, hd, tl, p, c⟩ := q
  cases hs with
  | producer x =>
    cases p with
    | loadedTail y t => by_cases hfull : Ring.succ t = hd <;> simp [push, hfull] at he
    | _ => simp [push] at he
  | consumer =>
    cases c with
    | idle => simp [pop] at he
    | _ => rfl

theorem push_event (q : SpscQueue α cap) (item : α) :
    (∃ x, q.producer.item? = some x ∧ (q.push item).2.producer = .idle ∧
      ((q.push item).1 = .done (.push x) ∨ (q.push item).1 = .done (.full x))) ∨
    ((q.push item).1.op? = none ∧
      (q.push item).2.producer.item? = some (q.producer.item?.getD item)) := by
  obtain ⟨buf, hd, tl, p, c⟩ := q
  cases p with
  | idle => exact Or.inr ⟨rfl, rfl⟩
  | loadedTail x t =>
    by_cases hfull : Ring.succ t = hd
    · exact Or.inl ⟨x, rfl, by simp [push, hfull], Or.inr (by simp [push, hfull])⟩
    · exact Or.inr ⟨by simp [push, hfull, SpscEvent.op?], by simp [push, hfull, Producer.item?]⟩
  | room x t => exact Or.inr ⟨rfl, rfl⟩
  | written x t => exact Or.inl ⟨x, rfl, rfl, Or.inl rfl⟩

theorem pop_event (q : SpscQueue α cap) : q.pop.2.producer = q.producer ∧
    ((∃ x, q.pop.1 = .done (.pop x)) ∨ q.pop.1 = .done .empty ∨ q.pop.1.op? = none) := by
  obtain ⟨buf, hd, tl, p, c⟩ := q
  cases c with
  | idle => exact ⟨rfl, Or.inr (Or.inr rfl)⟩
  | loadedHead h =>
    by_cases hempty : h = tl
    · exact ⟨by simp [pop, hempty], Or.inr (Or.inl (by simp [pop, hempty]))⟩
    · exact ⟨by simp [pop, hempty], Or.inr (Or.inr (by simp [pop, hempty, SpscEvent.op?]))⟩
  | nonEmpty h => exact ⟨rfl, Or.inr (Or.inr rfl)⟩
  | copied h x => exact ⟨rfl, Or.inl ⟨x, rfl⟩⟩

/-! ### Slots -/

/-- The slot holds a stored item. -/
def Unread (q : SpscQueue α cap) (t : Fin cap) : Prop :=
  ∃ i < q.stored.length, Ring.shift q.head i = t

/-- The consumer is about to read the slot, or has read it and not yet given it back. -/
def Reading (q : SpscQueue α cap) (t : Fin cap) : Prop :=
  match q.consumer with
  | .nonEmpty h => h = t
  | .copied h _ => h = t
  | _ => False

/-- **Exclusion.** The slot that the producer writes next is of no concern to the consumer. -/
theorem Inv.write_exclusive (h : q.Inv) {item : α} {t : Fin cap}
    (hp : q.producer = .room item t) : ¬ q.Unread t ∧ ¬ q.Reading t := by
  obtain ⟨buf, hd, tl, p, c⟩ := q
  obtain ⟨hprod, hcons⟩ := h
  obtain rfl : p = .room item t := hp
  obtain ⟨rfl, -⟩ : t = tl ∧ Ring.succ t ≠ hd := hprod
  refine ⟨?_, ?_⟩
  · rintro ⟨i, hi, ht⟩
    rw [stored, Ring.length_items] at hi
    exact Ring.shift_ne hi ht
  · intro hr
    cases c with
    | idle => exact hr
    | loadedHead h => exact hr
    | nonEmpty h => exact hcons.2 hr
    | copied h y => exact hcons.2.1 hr

/-- **The queue is a linearizable bounded first-in first-out queue.** At every point of every
interleaving of the accesses: the operations completed so far are, in the order they completed, a run
of the queue of `capacity - 1` items, which then holds the stored ones, so the items popped are the
first of those pushed; the slot that the producer is about to write holds no unread item and is not
being read; and a call that is about to return `false` does so while the queue is full, or for `pop`
empty. -/
theorem spsc_linearizable (buffer : Fin cap → α) (h : Exec Step (new buffer) tr q) :
    Exec (Fifo.Step (cap - 1)) [] (SpscEvent.ops tr) q.stored ∧
    Fifo.pops (SpscEvent.ops tr) <+: Fifo.pushes (SpscEvent.ops tr) ∧
    (∀ item t, q.producer = .room item t → ¬ q.Unread t ∧ ¬ q.Reading t) ∧
    (∀ item q', q.Step (.done (.full item)) q' →
      SpscEvent.openPush tr = some item ∧ q.stored.length = cap - 1) ∧
    ∀ q', q.Step (.done .empty) q' → SpscEvent.openPop tr = true ∧ q.stored = [] := by
  obtain ⟨hinv, hfifo⟩ := exec_fifo h
  refine ⟨hfifo, Fifo.pops_prefix_pushes hfifo, ?_, ?_, ?_⟩
  · intro item t hp
    exact hinv.write_exclusive hp
  · intro item q' hs
    exact ⟨(openPush_eq h).trans hs.item_of_full, ((hs.takes hinv).op _ rfl).eq_of_full.1⟩
  · intro q' hs
    exact ⟨(openPop_eq h).trans hs.busy_of_empty, ((hs.takes hinv).op _ rfl).eq_of_empty⟩

/-- One item handed over through two slots, the consumer looking too early once. -/
theorem spsc_linearizable_handover : ∃ tr, ∃ q : SpscQueue ℕ 2,
    Exec Step (new fun _ => 0) tr q ∧ Fifo.pops (SpscEvent.ops tr) = [7] ∧
      Fifo.pops (SpscEvent.ops tr) <+: Fifo.pushes (SpscEvent.ops tr) := by
  have hrun : ∃ tr, ∃ q : SpscQueue ℕ 2, Exec Step (new fun _ => 0) tr q ∧
      Fifo.pops (SpscEvent.ops tr) = [7] :=
    ⟨_, _, Exec.nil |>.snoc (.consumer _) |>.snoc (.producer _ 7) |>.snoc (.consumer _)
      |>.snoc (.producer _ 7) |>.snoc (.producer _ 7) |>.snoc (.producer _ 7)
      |>.snoc (.consumer _) |>.snoc (.consumer _) |>.snoc (.consumer _) |>.snoc (.consumer _),
      by decide⟩
  obtain ⟨tr, q, hexec, hpops⟩ := hrun
  exact ⟨tr, q, hexec, hpops, (spsc_linearizable (fun _ => 0) hexec).2.1⟩

end SpscQueue

end TradingSim
