import Mathlib.Algebra.NeZero
import TradingSim.Lib.Transition

/-!
The bounded first-in first-out queue, as a transition system over lists, and the ring buffer, an
array in which such a queue lies from one index up to another, around the end of the array.
-/

namespace TradingSim.Lib

/-! ### The queue -/

/-- An operation with its result: a push that is taken or finds the queue full, and a pop that yields
an item or finds the queue empty. -/
inductive FifoOp (α : Type*) where
  | push (x : α)
  | full (x : α)
  | pop (x : α)
  | empty
  deriving DecidableEq, Repr

namespace Fifo

variable {α : Type*} {n : ℕ} {q q' : List α} {tr : List (FifoOp α)}

/-- The queue of at most `n` items. -/
inductive Step (n : ℕ) : List α → FifoOp α → List α → Prop
  | push {q : List α} {x : α} : q.length < n → Step n q (.push x) (q ++ [x])
  | full {q : List α} {x : α} : q.length = n → Step n q (.full x) q
  | pop {q : List α} {x : α} : Step n (x :: q) (.pop x) q
  | empty : Step n [] .empty []

theorem Step.eq_of_push {x : α} (h : Step n q (.push x) q') : q' = q ++ [x] := by
  cases h
  rfl

theorem Step.eq_of_full {x : α} (h : Step n q (.full x) q') : q.length = n ∧ q' = q := by
  cases h with
  | full hlen => exact ⟨hlen, rfl⟩

theorem Step.eq_of_empty (h : Step n q .empty q') : q = [] := by
  cases h
  rfl

def pushed? : FifoOp α → Option α
  | .push x => some x
  | _ => none

def popped? : FifoOp α → Option α
  | .pop x => some x
  | _ => none

def offered? : FifoOp α → Option α
  | .push x => some x
  | .full x => some x
  | _ => none

/-- The items of all pushes, taken or not, in order. -/
def offers (tr : List (FifoOp α)) : List α := tr.filterMap offered?

/-- The items taken in, in order. -/
def pushes (tr : List (FifoOp α)) : List α := tr.filterMap pushed?

/-- The items handed out, in order. -/
def pops (tr : List (FifoOp α)) : List α := tr.filterMap popped?

section Snoc

variable (tr : List (FifoOp α)) (op : FifoOp α)

theorem filterMap_snoc {β γ : Type*} (f : β → Option γ) (l : List β) (b : β) :
    (l ++ [b]).filterMap f = l.filterMap f ++ (f b).toList := by
  rw [List.filterMap_append]
  cases hb : f b <;> simp [hb]

theorem offers_snoc : offers (tr ++ [op]) = offers tr ++ (offered? op).toList := filterMap_snoc ..

theorem pushes_snoc : pushes (tr ++ [op]) = pushes tr ++ (pushed? op).toList := filterMap_snoc ..

theorem pops_snoc : pops (tr ++ [op]) = pops tr ++ (popped? op).toList := filterMap_snoc ..

end Snoc

/-- **The history.** What was there and what was taken in is what was handed out and what is left,
in the same order. -/
theorem history (h : Exec (Step n) q tr q') : q ++ pushes tr = pops tr ++ q' := by
  refine h.rule (I := fun tr q' => q ++ pushes tr = pops tr ++ q') (by simp [pushes, pops]) ?_
  intro tr t e t' ih hstep
  rw [pushes_snoc, pops_snoc, ← List.append_assoc, ih]
  cases hstep <;> simp [pushed?, popped?]

theorem pushes_sublist_offers (tr : List (FifoOp α)) : (pushes tr).Sublist (offers tr) := by
  induction tr with
  | nil => exact List.Sublist.slnil
  | cons op tr ih =>
    cases op with
    | push x => exact ih.cons_cons x
    | full x => exact ih.cons x
    | _ => exact ih

theorem pops_prefix_pushes (h : Exec (Step n) [] tr q) : pops tr <+: pushes tr :=
  ⟨q, (history h).symm⟩

end Fifo

/-! ### The ring -/

namespace Ring

variable {α : Type*} {n : ℕ} {h t : Fin n} {i j : ℕ} {buf : Fin n → α}

/-- The number of places from `h` up to `t`. -/
def dist (h t : Fin n) : ℕ := if (h : ℕ) ≤ t then t - h else n - h + t

theorem mod_of_lt_double {a : ℕ} (ha : a < n + n) : a % n = if a < n then a else a - n := by
  split
  · exact Nat.mod_eq_of_lt ‹_›
  · rw [Nat.mod_eq_sub_mod (by omega), Nat.mod_eq_of_lt (by omega)]

theorem dist_lt (h t : Fin n) : dist h t < n := by
  have hh := h.isLt
  have ht := t.isLt
  unfold dist
  split <;> omega

theorem dist_eq_zero : dist h t = 0 ↔ h = t := by
  have hh := h.isLt
  have ht := t.isLt
  rw [Fin.ext_iff]
  unfold dist
  split_ifs <;> omega

variable [NeZero n]

/-- The next index, around the end. -/
def succ (i : Fin n) : Fin n := ⟨(i + 1) % n, Nat.mod_lt _ (NeZero.pos n)⟩

/-- The index `i` places on. -/
def shift (h : Fin n) (i : ℕ) : Fin n := ⟨(h + i) % n, Nat.mod_lt _ (NeZero.pos n)⟩

theorem val_succ (i : Fin n) : (succ i : ℕ) = if (i : ℕ) + 1 < n then (i : ℕ) + 1 else 0 := by
  have hi := i.isLt
  show (i + 1) % n = _
  rw [mod_of_lt_double (by omega)]
  split <;> omega

theorem val_shift (hi : i < n) :
    (shift h i : ℕ) = if (h : ℕ) + i < n then (h : ℕ) + i else (h : ℕ) + i - n := by
  have hh := h.isLt
  exact mod_of_lt_double (by omega)

@[simp] theorem shift_zero (h : Fin n) : shift h 0 = h := Fin.ext (Nat.mod_eq_of_lt h.isLt)

theorem shift_succ (h : Fin n) (i : ℕ) : shift (succ h) i = shift h (i + 1) := by
  apply Fin.ext
  show ((h + 1) % n + i) % n = (h + (i + 1)) % n
  rw [Nat.mod_add_mod, Nat.add_assoc, Nat.add_comm 1 i]

theorem shift_shift (h : Fin n) (i j : ℕ) : shift (shift h i) j = shift h (i + j) := by
  apply Fin.ext
  show ((h + i) % n + j) % n = (h + (i + j)) % n
  rw [Nat.mod_add_mod, Nat.add_assoc]

theorem shift_dist (h t : Fin n) : shift h (dist h t) = t := by
  have hh := h.isLt
  have ht := t.isLt
  apply Fin.ext
  rw [val_shift (dist_lt h t)]
  unfold dist
  split_ifs <;> omega

theorem shift_injOn (hi : i < n) (hj : j < n) (e : shift h i = shift h j) : i = j := by
  have hh := h.isLt
  have he := congrArg Fin.val e
  rw [val_shift hi, val_shift hj] at he
  split_ifs at he <;> omega

/-- The distance from an index that has moved on, up to full turns. -/
theorem dist_shift (h t : Fin n) (i : ℕ) : (i + dist (shift h i) t) % n = dist h t := by
  have hmeet : shift h (i + dist (shift h i) t) = shift h (dist h t) := by
    rw [← shift_shift, shift_dist, shift_dist]
  have hmod : (i + dist (shift h i) t) % n = dist h t % n :=
    Nat.ModEq.add_left_cancel' (h : ℕ) (congrArg Fin.val hmeet)
  rw [hmod, Nat.mod_eq_of_lt (dist_lt h t)]

theorem succ_injective : Function.Injective (succ : Fin n → Fin n) := by
  intro i j e
  have hi := i.isLt
  have hj := j.isLt
  have he := congrArg Fin.val e
  rw [val_succ, val_succ] at he
  apply Fin.ext
  split_ifs at he <;> omega

theorem dist_of_succ_eq (e : succ t = h) : dist h t + 1 = n := by
  have ht := t.isLt
  subst e
  unfold dist
  rw [val_succ]
  split_ifs <;> omega

theorem dist_succ_right (hne : succ t ≠ h) : dist h (succ t) = dist h t + 1 := by
  have hh := h.isLt
  have ht := t.isLt
  have hne' : (succ t : ℕ) ≠ h := fun e => hne (Fin.ext e)
  rw [val_succ] at hne'
  unfold dist
  rw [val_succ]
  split_ifs at hne' ⊢ <;> omega

theorem dist_succ_left (hne : h ≠ t) : dist h t = dist (succ h) t + 1 := by
  have hh := h.isLt
  have ht := t.isLt
  have hne' : (h : ℕ) ≠ t := fun e => hne (Fin.ext e)
  unfold dist
  rw [val_succ]
  split_ifs <;> omega

/-- The items from `h` up to `t`. -/
def items (buf : Fin n → α) (h t : Fin n) : List α :=
  (List.range (dist h t)).map fun i => buf (shift h i)

@[simp] theorem length_items : (items buf h t).length = dist h t := by simp [items]

theorem items_self : items buf h h = [] := by simp [items, dist_eq_zero.mpr]

theorem shift_ne (hi : i < dist h t) : shift h i ≠ t := by
  intro e
  rw [← shift_dist h t] at e
  have := shift_injOn (hi.trans (dist_lt h t)) (dist_lt _ _) e
  omega

theorem items_update (x : α) : items (Function.update buf t x) h t = items buf h t := by
  apply List.map_congr_left
  intro i hi
  exact Function.update_of_ne (shift_ne (List.mem_range.mp hi)) _ _

theorem items_push (hne : succ t ≠ h) : items buf h (succ t) = items buf h t ++ [buf t] := by
  unfold items
  rw [dist_succ_right hne, List.range_succ, List.map_append]
  simp [shift_dist]

theorem items_pop (hne : h ≠ t) : items buf h t = buf h :: items buf (succ h) t := by
  unfold items
  rw [dist_succ_left hne, List.range_succ_eq_map, List.map_cons, List.map_map, shift_zero]
  congr 1
  apply List.map_congr_left
  intro i _
  simp [shift_succ]

end Ring

end TradingSim.Lib
