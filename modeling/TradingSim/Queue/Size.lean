import TradingSim.Queue.Spsc

/-!
`SpscQueue::size`, which the metrics server calls from threads of its own: it loads the tail, then the
head, and subtracts, around the end of the array if the head is the larger one.

Both threads may go on between the two loads. The items popped in between are taken off what was stored
at the first load, and what is returned is the difference modulo the capacity (`SizeCall.result_eq`). If
the consumer pops items that were pushed only after the tail was loaded, the head is in front of the
tail, and the difference goes around the array: an empty queue is reported as full. `size_accuracy` says
when that is more than the operations of the call account for.
-/

namespace TradingSim

open Lib

namespace SpscQueue

variable {α : Type} {cap : ℕ} [NeZero cap]

/-- A call of `size()` that begins in the state `q`, with what the producer and the consumer do
meanwhile: up to the load of the tail, up to that of the head, and until the call returns. -/
structure SizeCall (q : SpscQueue α cap) where
  before : List (SpscEvent α)
  atTail : SpscQueue α cap
  toTail : Exec Step q before atTail
  between : List (SpscEvent α)
  atHead : SpscQueue α cap
  toHead : Exec Step atTail between atHead
  after : List (SpscEvent α)
  last : SpscQueue α cap
  toLast : Exec Step atHead after last

namespace SizeCall

variable {q : SpscQueue α cap}

/-- What the call returns. -/
def result (c : q.SizeCall) : ℕ :=
  let tail := c.atTail.tail
  let head := c.atHead.head
  if tail ≥ head then tail - head else cap - head + tail

/-- The operations that complete during the call. -/
def ops (c : q.SizeCall) : List (FifoOp α) := SpscEvent.ops (c.before ++ c.between ++ c.after)

/-- What is left at the second load of what was stored at the first: the items at the start, with the
pushes and pops up to the first load and the pops between the two. It is negative if the pops between
the loads take more than was there. -/
def left (c : q.SizeCall) : ℤ :=
  q.stored.length + (Fifo.pushes (SpscEvent.ops c.before)).length -
    (Fifo.pops (SpscEvent.ops c.before)).length - (Fifo.pops (SpscEvent.ops c.between)).length

/-- The result differs from what was stored at the start by no more than the pushes and pops that
complete during the call. -/
def Accurate (c : q.SizeCall) : Prop :=
  |(c.result : ℤ) - q.stored.length| ≤ (Fifo.pushes c.ops).length + (Fifo.pops c.ops).length

theorem result_eq_dist (c : q.SizeCall) : c.result = Ring.dist c.atHead.head c.atTail.tail := rfl

end SizeCall

/-! ### The head -/

variable {q q' : SpscQueue α cap} {e : SpscEvent α} {tr : List (SpscEvent α)}

theorem Step.head_eq (hs : q.Step e q') (h : q.Inv) :
    q'.head = Ring.shift q.head (Fifo.pops (SpscEvent.ops [e])).length := by
  obtain ⟨buf, hd, tl, p, c⟩ := q
  have hstay : hd = Ring.shift hd 0 := (Ring.shift_zero hd).symm
  cases hs with
  | producer item =>
    cases p with
    | loadedTail x t =>
      by_cases hfull : Ring.succ t = hd
      · simp only [push, if_pos hfull]
        exact hstay
      · simp only [push, if_neg hfull]
        exact hstay
    | _ => exact hstay
  | consumer =>
    cases c with
    | loadedHead h' =>
      by_cases hempty : h' = tl
      · simp only [pop, if_pos hempty]
        exact hstay
      · simp only [pop, if_neg hempty]
        exact hstay
    | copied h' y =>
      obtain ⟨rfl, -, -⟩ : h' = hd ∧ h' ≠ tl ∧ buf h' = y := h.consumer
      rfl
    | _ => exact hstay

theorem Inv.head_eq (hinv : q.Inv) (h : Exec Step q tr q') :
    q'.head = Ring.shift q.head (Fifo.pops (SpscEvent.ops tr)).length := by
  have hrun := h.rule (I := fun tr q' => q'.Inv ∧
    q'.head = Ring.shift q.head (Fifo.pops (SpscEvent.ops tr)).length) ⟨hinv, (Ring.shift_zero _).symm⟩ ?_
  · exact hrun.2
  · rintro tr t e t' ⟨ht, hhead⟩ hs
    refine ⟨(hs.takes ht).inv, ?_⟩
    rw [hs.head_eq ht, hhead, Ring.shift_shift, SpscEvent.ops, SpscEvent.ops, SpscEvent.ops,
      List.filterMap_append, Fifo.pops, Fifo.pops, Fifo.pops, List.filterMap_append,
      List.length_append]

/-! ### The call -/

namespace SizeCall

variable (c : q.SizeCall)

theorem result_lt : c.result < cap := Ring.dist_lt _ _

theorem inv_atTail (hinv : q.Inv) : c.atTail.Inv := (hinv.exec_fifo c.toTail).1

theorem left_eq (hinv : q.Inv) : c.left =
    c.atTail.stored.length - ((Fifo.pops (SpscEvent.ops c.between)).length : ℤ) := by
  have hhistory := congrArg List.length (Fifo.history (hinv.exec_fifo c.toTail).2)
  rw [List.length_append, List.length_append] at hhistory
  unfold left
  omega

/-- **What is returned**: what is left, modulo the capacity. -/
theorem result_eq (hinv : q.Inv) : (c.result : ℤ) = c.left % cap := by
  have hmod : ((Fifo.pops (SpscEvent.ops c.between)).length + c.result) % cap =
      c.atTail.stored.length := by
    rw [result_eq_dist, (c.inv_atTail hinv).head_eq c.toHead, Ring.dist_shift, stored,
      Ring.length_items]
  have hlt : (c.result : ℤ) < cap := by exact_mod_cast c.result_lt
  have hdiv := Nat.div_add_mod ((Fifo.pops (SpscEvent.ops c.between)).length + c.result) cap
  rw [hmod] at hdiv
  generalize ((Fifo.pops (SpscEvent.ops c.between)).length + c.result) / cap = turns at hdiv
  have hleft : c.left = c.result - cap * (turns : ℤ) := by
    have hcast : ((cap * turns + c.atTail.stored.length : ℕ) : ℤ) =
        ((Fifo.pops (SpscEvent.ops c.between)).length + c.result : ℕ) := congrArg Nat.cast hdiv
    push_cast at hcast
    rw [c.left_eq hinv]
    linarith
  rw [hleft, Int.sub_mul_emod_self_left, Int.emod_eq_of_lt (Int.natCast_nonneg _) hlt]

theorem length_pushes : (Fifo.pushes (SpscEvent.ops c.before)).length ≤ (Fifo.pushes c.ops).length := by
  simp only [ops, SpscEvent.ops, Fifo.pushes, List.filterMap_append, List.length_append]
  omega

theorem length_pops : (Fifo.pops (SpscEvent.ops c.before)).length +
    (Fifo.pops (SpscEvent.ops c.between)).length ≤ (Fifo.pops c.ops).length := by
  simp only [ops, SpscEvent.ops, Fifo.pops, List.filterMap_append, List.length_append]
  omega

end SizeCall

/-- **The size for the dashboard.** At every point of every execution, and whatever the two threads do
during the call: the result is what is left at the second load of what was stored at the first, modulo
the capacity, and at most `capacity - 1`. It is accurate exactly if it is at most what was stored at the
start and the operations completed during the call together. So it is if no more was popped between the
loads than was there, and then a queue of at most one item is not reported to hold more. -/
theorem size_accuracy (buffer : Fin cap → α) (h : Exec Step (new buffer) tr q) (c : q.SizeCall) :
    c.result ≤ cap - 1 ∧ (c.result : ℤ) = c.left % cap ∧
    (c.Accurate ↔ c.left % cap ≤
      q.stored.length + (Fifo.pushes c.ops).length + (Fifo.pops c.ops).length) ∧
    (0 ≤ c.left → c.Accurate ∧ (c.atTail.stored.length ≤ 1 → c.result ≤ 1)) := by
  have hinv := (exec_fifo h).1
  have hresult := c.result_eq hinv
  have hlt := c.result_lt
  have hleft : c.left = q.stored.length + (Fifo.pushes (SpscEvent.ops c.before)).length -
      (Fifo.pops (SpscEvent.ops c.before)).length - (Fifo.pops (SpscEvent.ops c.between)).length := rfl
  have hpushes := c.length_pushes
  have hpops := c.length_pops
  -- nothing goes around the array unless something is missing
  have hnonneg : 0 ≤ c.left → (c.result : ℤ) = c.left := fun h0 => by
    have hstored : c.atTail.stored.length < cap := by
      rw [stored, Ring.length_items]
      exact Ring.dist_lt _ _
    have hatTail := c.left_eq hinv
    rw [hresult, Int.emod_eq_of_lt h0 (by omega)]
  have hiff : c.Accurate ↔ c.left % cap ≤
      q.stored.length + (Fifo.pushes c.ops).length + (Fifo.pops c.ops).length := by
    rw [SizeCall.Accurate, abs_le, ← hresult]
    constructor
    · rintro ⟨-, hle⟩
      omega
    · intro hle
      refine ⟨?_, by omega⟩
      by_cases h0 : 0 ≤ c.left
      · have := hnonneg h0
        omega
      · omega
  refine ⟨by omega, hresult, hiff, fun h0 => ⟨hiff.mpr ?_, fun hone => ?_⟩⟩
  · rw [← hresult, hnonneg h0]
    omega
  · have := hnonneg h0
    have := c.left_eq hinv
    omega

/-- Two items are stored when the call begins. One is pushed before the tail is loaded, one is popped
and one is pushed between the loads, and one is popped before the call returns. -/
theorem size_accuracy_busy : ∃ tr, ∃ q : SpscQueue ℕ 8, Exec Step (new fun _ => 0) tr q ∧
    q.stored = [1, 2] ∧ ∃ c : q.SizeCall, c.ops = [.push 3, .pop 1, .push 4, .pop 2] ∧
      c.result = 2 ∧ c.Accurate := by
  have hrun : ∃ tr, ∃ q : SpscQueue ℕ 8, Exec Step (new fun _ => 0) tr q ∧ q.stored = [1, 2] ∧
      ∃ c : q.SizeCall, c.ops = [.push 3, .pop 1, .push 4, .pop 2] ∧ c.result = 2 ∧ 0 ≤ c.left :=
    ⟨_, _, Exec.nil |>.snoc (.producer _ 1) |>.snoc (.producer _ 1) |>.snoc (.producer _ 1)
        |>.snoc (.producer _ 1) |>.snoc (.producer _ 2) |>.snoc (.producer _ 2)
        |>.snoc (.producer _ 2) |>.snoc (.producer _ 2), by decide,
      ⟨_, _, Exec.nil |>.snoc (.producer _ 3) |>.snoc (.producer _ 3) |>.snoc (.producer _ 3)
          |>.snoc (.producer _ 3),
        _, _, Exec.nil |>.snoc (.consumer _) |>.snoc (.consumer _) |>.snoc (.consumer _)
          |>.snoc (.consumer _) |>.snoc (.producer _ 4) |>.snoc (.producer _ 4)
          |>.snoc (.producer _ 4) |>.snoc (.producer _ 4),
        _, _, Exec.nil |>.snoc (.consumer _) |>.snoc (.consumer _) |>.snoc (.consumer _)
          |>.snoc (.consumer _)⟩, by decide, by decide, by decide⟩
  obtain ⟨tr, q, hexec, hstored, c, hops, hresult, hleft⟩ := hrun
  exact ⟨tr, q, hexec, hstored, c, hops, hresult,
    ((size_accuracy (fun _ => 0) hexec c).2.2.2 hleft).1⟩

/-- Between the two loads of a call one item goes through the empty queue: of eight places seven are
reported taken. -/
theorem size_accuracy_fails :
    ∃ c : (new fun _ => 0 : SpscQueue ℕ 8).SizeCall, c.result = 7 ∧ c.ops = [.push 5, .pop 5] ∧
      (new fun _ => 0 : SpscQueue ℕ 8).stored = [] ∧ c.last.stored = [] :=
  ⟨⟨[], _, .nil, _, _, Exec.nil |>.snoc (.producer _ 5) |>.snoc (.producer _ 5)
      |>.snoc (.producer _ 5) |>.snoc (.producer _ 5) |>.snoc (.consumer _) |>.snoc (.consumer _)
      |>.snoc (.consumer _) |>.snoc (.consumer _), [], _, .nil⟩,
    by decide, by decide, by decide, by decide⟩

end SpscQueue

end TradingSim
