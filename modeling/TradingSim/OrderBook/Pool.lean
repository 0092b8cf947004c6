import TradingSim.Lib.Machine
import Mathlib.Data.List.FinRange

/-!
`ObjectPool`: a slab of `n` objects and a stack of the free ones.

The pointers on the stack are positions of the slab. `live` is the part of the stack below `top_`,
bottom first; allocation takes its last entry (`alloc_spec`) and release puts one there
(`release_spec`), which is a write past the end exactly when the stack is full.
-/

namespace TradingSim

open Lib

/-- `ObjectPool<T, CAPACITY>`. -/
structure ObjectPool (α : Type) (n : ℕ) where
  slab : Fin n → α
  freeStack : Fin n → Fin n
  top : ℕ
  /-- Nothing moves `top_` past the end of the stack: see `release`. -/
  top_le : top ≤ n

namespace ObjectPool

variable {α : Type} {n : ℕ}

/-- The constructor: every slot is free. -/
def new (x : α) : ObjectPool α n where
  slab _ := x
  freeStack i := i
  top := n
  top_le := le_rfl

/-- `alloc`: null when the pool is exhausted. -/
def alloc (p : ObjectPool α n) : Option (Fin n × ObjectPool α n) :=
  if h : p.top = 0 then none
  else some (p.freeStack ⟨p.top - 1, by have := p.top_le; omega⟩,
    { p with top := p.top - 1, top_le := by have := p.top_le; omega })

/-- `release`: a push on the free stack, which has room for `n` entries. -/
def release (p : ObjectPool α n) (obj : Fin n) : Except Fault (ObjectPool α n) :=
  if h : p.top < n then
    .ok { p with
      freeStack := Function.update p.freeStack ⟨p.top, h⟩ obj
      top := p.top + 1
      top_le := h }
  else .error .stackOverrun

/-- `available`. -/
def available (p : ObjectPool α n) : ℕ := p.top

/-- `*obj = x` for a slot of the slab. -/
def write (p : ObjectPool α n) (obj : Fin n) (x : α) : ObjectPool α n :=
  { p with slab := Function.update p.slab obj x }

/-- The free slots: the stack below `top_`, bottom first. -/
def live (p : ObjectPool α n) : List (Fin n) := ((List.finRange n).take p.top).map p.freeStack

theorem live_new (x : α) : (new x : ObjectPool α n).live = List.finRange n := by
  simp [live, new, List.take_of_length_le]

theorem length_live (p : ObjectPool α n) : p.live.length = p.available := by
  simp [live, available, p.top_le]

theorem take_finRange_succ {k : ℕ} (hk : k < n) :
    (List.finRange n).take (k + 1) = (List.finRange n).take k ++ [⟨k, hk⟩] := by
  rw [List.take_succ_eq_append_getElem (by simpa using hk)]
  simp

theorem alloc_spec (p : ObjectPool α n) :
    (p.live = [] ∧ p.alloc = none) ∨
      ∃ x p', p.alloc = some (x, p') ∧ p.live = p'.live ++ [x] ∧ p'.slab = p.slab := by
  have hle := p.top_le
  by_cases h : p.top = 0
  · left
    exact ⟨by simp [live, h], by simp [alloc, h]⟩
  · right
    refine ⟨p.freeStack ⟨p.top - 1, by omega⟩, { p with top := p.top - 1, top_le := by omega },
      by rw [alloc, dif_neg h], ?_, rfl⟩
    have htake : (List.finRange n).take p.top =
        (List.finRange n).take (p.top - 1) ++ [⟨p.top - 1, by omega⟩] := by
      rw [← take_finRange_succ, Nat.sub_add_cancel (by omega)]
    simp [live, htake]

theorem release_spec (p : ObjectPool α n) (x : Fin n) (h : p.live.length < n) :
    ∃ p', p.release x = .ok p' ∧ p'.live = p.live ++ [x] ∧ p'.slab = p.slab := by
  have hlt : p.top < n := by rwa [length_live, available] at h
  refine ⟨{ p with
      freeStack := Function.update p.freeStack ⟨p.top, hlt⟩ x
      top := p.top + 1
      top_le := hlt }, by rw [release, dif_pos hlt], ?_, rfl⟩
  simp only [live, take_finRange_succ hlt, List.map_append]
  congr 1
  · refine List.map_congr_left fun i hi => ?_
    have hne : i ≠ ⟨p.top, hlt⟩ := by
      rintro rfl
      obtain ⟨j, hj, hji⟩ := List.mem_take_iff_getElem.mp hi
      simp only [List.getElem_finRange, Fin.ext_iff, Fin.val_cast] at hji
      omega
    rw [Function.update_of_ne hne]
  · simp

@[simp] theorem slab_write (p : ObjectPool α n) (obj : Fin n) (x : α) :
    (p.write obj x).slab = Function.update p.slab obj x := rfl

end ObjectPool

end TradingSim
