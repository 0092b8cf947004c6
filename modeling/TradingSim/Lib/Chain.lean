import Mathlib.Logic.Function.Basic
import Mathlib.Tactic

/-!
Null-terminated chains of intrusive links.

The links are a function `nx` from a node to the pointer it holds; `Chain nx h xs` says that the
walk from the pointer `h` visits exactly the nodes `xs`, in that order, and then finds null. The
list is determined by the head and the links (`Chain.walk_eq`), a chain only looks at the links of
its own nodes (`Chain.congr`), and appending a node is the two writes of a tail insertion
(`Chain.snoc`).
-/

namespace TradingSim.Lib

variable {ι : Type}

/-- The walk from the pointer `h` along `nx` visits exactly the nodes of the list. -/
def Chain (nx : ι → Option ι) : Option ι → List ι → Prop
  | h, [] => h = none
  | h, x :: xs => h = some x ∧ Chain nx (nx x) xs

/-- The nodes that the first `n` steps of the walk from `h` visit. -/
def walk (nx : ι → Option ι) : ℕ → Option ι → List ι
  | 0, _ => []
  | _ + 1, none => []
  | n + 1, some x => x :: walk nx n (nx x)

namespace Chain

variable {nx nx' : ι → Option ι} {h : Option ι} {x y : ι} {xs ys : List ι}

theorem head_eq (hc : Chain nx h xs) : h = xs.head? := by
  cases xs with
  | nil => exact hc
  | cons x xs => exact hc.1

theorem tail (hc : Chain nx h (x :: xs)) : Chain nx (nx x) xs := hc.2

theorem congr (hc : Chain nx h xs) (heq : ∀ x ∈ xs, nx' x = nx x) : Chain nx' h xs := by
  induction xs generalizing h with
  | nil => exact hc
  | cons x xs ih =>
    refine ⟨hc.1, ?_⟩
    rw [heq x (by simp)]
    exact ih hc.2 fun y hy => heq y (by simp [hy])

theorem walk_eq {n : ℕ} (hc : Chain nx h xs) (hn : xs.length ≤ n) : walk nx n h = xs := by
  induction xs generalizing h n with
  | nil =>
    have hnone : h = none := hc
    rw [hnone]
    cases n <;> rfl
  | cons x xs ih =>
    obtain ⟨n, rfl⟩ : ∃ k, n = k + 1 := ⟨n - 1, by simp at hn; omega⟩
    rw [hc.1, walk, ih hc.2 (by simpa using hn)]

/-- **Tail insertion.** The last node is made to point at a fresh node, whose own link is null. -/
theorem snoc [DecidableEq ι] {z : ι} (hc : Chain nx h xs) (hlast : xs.getLast? = some z)
    (hnd : xs.Nodup) (hy : y ∉ xs) :
    Chain (Function.update (Function.update nx y none) z (some y)) h (xs ++ [y]) := by
  induction xs generalizing h with
  | nil => simp at hlast
  | cons x xs ih =>
    have hyx : y ≠ x := fun e => hy (by simp [e])
    refine ⟨hc.1, ?_⟩
    cases xs with
    | nil =>
      have hz : x = z := by simpa using hlast
      subst hz
      simp [Chain, Function.update_of_ne hyx]
    | cons x' xs =>
      have hlast' : (x' :: xs).getLast? = some z := by simpa using hlast
      have hzmem : z ∈ x' :: xs := List.mem_of_getLast? hlast'
      have hxz : x ≠ z := fun e => (List.nodup_cons.mp hnd).1 (e ▸ hzmem)
      rw [Function.update_of_ne hxz, Function.update_of_ne hyx.symm]
      exact ih hc.2 hlast' (List.nodup_cons.mp hnd).2 fun hmem => hy (by simp [hmem])

end Chain

end TradingSim.Lib
