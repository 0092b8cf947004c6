import Mathlib.Data.List.Sort
import Mathlib.Tactic

/-!
Lists kept in order of a rank, with arrivals filed behind their equals.

`enqueue f a l` puts `a` behind every element whose rank is not worse: the list stays sorted
(`enqueue_sorted`), and each class of equal rank is a first-in-first-out queue
(`filter_enqueue_of_pos`, `filter_enqueue_of_neg`). The list is the concatenation of these queues
(`Sorted.flatMap_classes`).
-/

namespace TradingSim.Lib

variable {α β : Type} [LinearOrder β] {f : α → β} {a : α} {l : List α}

/-- The best rank is the least one, and comes first. -/
def Sorted (f : α → β) (l : List α) : Prop := l.Pairwise fun x y => f x ≤ f y

/-- `a` is filed behind the elements that rank at least as well. -/
def enqueue (f : α → β) (a : α) (l : List α) : List α := l.orderedInsert (fun x y => f x < f y) a

theorem mem_enqueue {x : α} : x ∈ enqueue f a l ↔ x = a ∨ x ∈ l := List.mem_orderedInsert _

theorem length_enqueue : (enqueue f a l).length = l.length + 1 := List.orderedInsert_length _ _ _

theorem enqueue_cons (x : α) :
    enqueue f a (x :: l) = if f a < f x then a :: x :: l else x :: enqueue f a l := rfl

theorem enqueue_sorted (h : Sorted f l) : Sorted f (enqueue f a l) := by
  induction l with
  | nil => exact List.pairwise_singleton _ _
  | cons x l ih =>
    obtain ⟨hx, hl⟩ := List.pairwise_cons.mp h
    rw [enqueue_cons]
    by_cases hax : f a < f x
    · rw [if_pos hax]
      refine List.pairwise_cons.mpr ⟨fun y hy => ?_, h⟩
      rcases List.mem_cons.mp hy with rfl | hy
      · exact hax.le
      · exact hax.le.trans (hx y hy)
    · rw [if_neg hax]
      refine List.pairwise_cons.mpr ⟨fun y hy => ?_, ih hl⟩
      rcases mem_enqueue.mp hy with rfl | hy
      · exact not_lt.mp hax
      · exact hx y hy

theorem filter_enqueue_of_pos {p : α → Bool} (h : Sorted f l) (ha : p a = true)
    (hp : ∀ x ∈ l, p x = true → f x = f a) : (enqueue f a l).filter p = l.filter p ++ [a] := by
  induction l with
  | nil => simp [enqueue, ha]
  | cons x l ih =>
    obtain ⟨hx, hl⟩ := List.pairwise_cons.mp h
    rw [enqueue_cons]
    by_cases hax : f a < f x
    · -- everything from here on ranks strictly worse, so the class ends before it
      have hnil : (x :: l).filter p = [] := by
        refine List.filter_eq_nil_iff.mpr fun y hy hpy => ?_
        have hya := hp y hy hpy
        rcases List.mem_cons.mp hy with rfl | hy
        · exact absurd hya hax.ne'
        · exact absurd hya (hax.trans_le (hx y hy)).ne'
      rw [if_pos hax, hnil, List.filter_cons_of_pos ha, hnil, List.nil_append]
    · rw [if_neg hax, List.filter_cons, List.filter_cons, ih hl fun y hy => hp y (by simp [hy])]
      split <;> simp

theorem filter_enqueue_of_neg {p : α → Bool} (ha : p a = false) :
    (enqueue f a l).filter p = l.filter p := by
  induction l with
  | nil => simp [enqueue, ha]
  | cons x l ih =>
    rw [enqueue_cons]
    split
    · rw [List.filter_cons_of_neg (by simp [ha])]
    · rw [List.filter_cons, List.filter_cons, ih]

/-! ### Classes -/

theorem Sorted.filter (h : Sorted f l) (p : α → Bool) : Sorted f (l.filter p) :=
  h.sublist List.filter_sublist

theorem Sorted.head_le (h : Sorted f l) (ha : l.head? = some a) : ∀ x ∈ l, f a ≤ f x := by
  obtain ⟨l', rfl⟩ := List.head?_eq_some_iff.mp ha
  intro x hx
  rcases List.mem_cons.mp hx with rfl | hx
  · exact le_rfl
  · exact (List.pairwise_cons.mp h).1 x hx

theorem Sorted.filter_append {u : β} (h : Sorted f l) (hu : ∀ x ∈ l, u ≤ f x) :
    l.filter (fun x => f x = u) ++ l.filter (fun x => f x ≠ u) = l := by
  induction l with
  | nil => rfl
  | cons x l ih =>
    obtain ⟨hx, hl⟩ := List.pairwise_cons.mp h
    by_cases hxu : f x = u
    · rw [List.filter_cons_of_pos (by simp [hxu]), List.filter_cons_of_neg (by simp [hxu]),
        List.cons_append, ih hl fun y hy => hu y (by simp [hy])]
    · -- from here on the class of `u` is empty
      have hlt : ∀ y ∈ x :: l, f y ≠ u := by
        have hxlt : u < f x := lt_of_le_of_ne (hu x (by simp)) (Ne.symm hxu)
        intro y hy
        rcases List.mem_cons.mp hy with rfl | hy
        · exact hxu
        · exact (hxlt.trans_le (hx y hy)).ne'
      rw [List.filter_eq_nil_iff.mpr fun y hy => by simp [hlt y hy],
        List.filter_eq_self.mpr fun y hy => by simp [hlt y hy], List.nil_append]

/-- **A sorted list is the concatenation of its classes**, in the order of the ranks. -/
theorem Sorted.flatMap_classes {us : List β} (h : Sorted f l) (hus : us.Pairwise (· < ·))
    (hmem : ∀ x ∈ l, f x ∈ us) : us.flatMap (fun u => l.filter fun x => f x = u) = l := by
  induction us generalizing l with
  | nil =>
    cases l with
    | nil => rfl
    | cons x l => simpa using hmem x (by simp)
  | cons u us ih =>
    obtain ⟨hu, hus⟩ := List.pairwise_cons.mp hus
    have hle : ∀ x ∈ l, u ≤ f x := fun x hx => by
      rcases List.mem_cons.mp (hmem x hx) with e | hx'
      · exact e.ge
      · exact (hu _ hx').le
    have hrest := ih (h.filter fun x => f x ≠ u) hus fun x hx => by
      obtain ⟨hx, hne⟩ := List.mem_filter.mp hx
      exact (List.mem_cons.mp (hmem x hx)).resolve_left (by simpa using hne)
    have hclass : us.flatMap (fun u' => (l.filter fun x => f x ≠ u).filter fun x => f x = u') =
        us.flatMap fun u' => l.filter fun x => f x = u' := by
      refine List.flatMap_congr fun u' hu' => ?_
      rw [List.filter_filter]
      refine List.filter_congr fun x _ => ?_
      have : u' ≠ u := (hu u' hu').ne'
      by_cases hx : f x = u' <;> simp [hx, this]
    rw [List.flatMap_cons, ← hclass, hrest, h.filter_append hle]

end TradingSim.Lib
