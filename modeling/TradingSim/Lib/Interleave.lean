import Mathlib.Data.List.Basic
import Mathlib.Tactic

/-!
Merges of two lists that keep the order of each.
-/

namespace TradingSim.Lib

variable {α : Type*} {xs ys zs : List α}

/-- `zs` is a merge of `xs` and `ys`. -/
inductive Interleave : List α → List α → List α → Prop
  | nil : Interleave [] [] []
  | left {x : α} {xs ys zs : List α} : Interleave xs ys zs → Interleave (x :: xs) ys (x :: zs)
  | right {y : α} {xs ys zs : List α} : Interleave xs ys zs → Interleave xs (y :: ys) (y :: zs)

namespace Interleave

theorem swap (h : Interleave xs ys zs) : Interleave ys xs zs := by
  induction h with
  | nil => exact nil
  | left _ ih => exact ih.right
  | right _ ih => exact ih.left

theorem mem (h : Interleave xs ys zs) {z : α} (hz : z ∈ zs) : z ∈ xs ∨ z ∈ ys := by
  induction h with
  | nil => cases hz
  | left _ ih =>
    rcases List.mem_cons.mp hz with rfl | hz
    · exact Or.inl (List.mem_cons_self ..)
    · exact (ih hz).imp_left (List.mem_cons_of_mem _)
  | right _ ih =>
    rcases List.mem_cons.mp hz with rfl | hz
    · exact Or.inr (List.mem_cons_self ..)
    · exact (ih hz).imp_right (List.mem_cons_of_mem _)

/-- A test that tells the two lists apart takes the merge back to the first of them. -/
theorem filter_eq {p : α → Bool} (h : Interleave xs ys zs) (hx : ∀ x ∈ xs, p x = true)
    (hy : ∀ y ∈ ys, p y = false) : zs.filter p = xs := by
  induction h with
  | nil => rfl
  | left _ ih =>
    obtain ⟨hhead, htail⟩ := List.forall_mem_cons.mp hx
    rw [List.filter_cons_of_pos hhead, ih htail hy]
  | right _ ih =>
    obtain ⟨hhead, htail⟩ := List.forall_mem_cons.mp hy
    rw [List.filter_cons_of_neg (by simp [hhead]), ih hx htail]

end Interleave

end TradingSim.Lib
