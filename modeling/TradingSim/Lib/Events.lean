import Mathlib.Algebra.BigOperators.Fin
import Mathlib.Algebra.Order.BigOperators.Group.List
import Mathlib.Data.List.Count
import Mathlib.Data.List.Perm.Basic
import Mathlib.Tactic

/-!
Folds of event lists: what one kind of event does to one part of the state, lists that agree party by
party, counts by class, sums of a list and of its parts, the best element of a list, and the repetitions
at its end.
-/

namespace TradingSim.Lib

section Fold

variable {σ ε α β : Type*} {f : σ → ε → σ} {g : σ → β} {p : ε → Option α} {u : β → α → β}

/-- A part of the state that only the events with a `p` change is the fold of those. -/
theorem foldl_proj (h : ∀ s e, g (f s e) = ((p e).map (u (g s))).getD (g s)) (l : List ε) (s : σ) :
    g (l.foldl f s) = (l.filterMap p).foldl u (g s) := by
  induction l generalizing s with
  | nil => rfl
  | cons e l ih =>
    rw [List.foldl_cons, ih, h, List.filterMap_cons]
    cases p e <;> rfl

theorem foldl_overwrite (g : α → β) (l : List α) (b : β) :
    l.foldl (fun _ a => g a) b = (l.getLast?.map g).getD b := by
  induction l using List.reverseRecOn with
  | nil => rfl
  | append_singleton l a => simp

end Fold

theorem perm_of_filter_eq {α ι : Type*} [DecidableEq α] [DecidableEq ι] {f : α → ι} {xs ys : List α}
    (h : ∀ i, xs.filter (fun a => f a = i) = ys.filter fun a => f a = i) : xs.Perm ys := by
  refine List.perm_iff_count.mpr fun a => ?_
  have hcount : ∀ l : List α, (l.filter fun b => f b = f a).count a = l.count a := fun l =>
    List.count_filter (decide_eq_true rfl)
  rw [← hcount xs, h (f a), hcount ys]

theorem sum_countP_eq_length {α : Type*} {n : ℕ} {f : α → ℕ} {l : List α} (h : ∀ a ∈ l, f a < n) :
    ∑ b : Fin n, l.countP (fun a => f a = b) = l.length := by
  induction l with
  | nil => simp
  | cons a l ih =>
    have hone : ∑ b : Fin n, (if f a = b then 1 else 0) = 1 := by
      rw [Finset.sum_eq_single ⟨f a, h a List.mem_cons_self⟩]
      · exact if_pos rfl
      · exact fun b _ hb => if_neg fun e => hb (Fin.ext e.symm)
      · exact fun hout => absurd (Finset.mem_univ _) hout
    simp only [List.countP_cons, decide_eq_true_eq, Finset.sum_add_distrib, hone, List.length_cons]
    rw [ih fun b hb => h b (List.mem_cons_of_mem a hb)]

theorem sum_map_toNat {α : Type*} (p : α → Bool) (l : List α) :
    (l.map fun a => (p a).toNat).sum = l.countP p := by
  induction l with
  | nil => rfl
  | cons a l ih =>
    rw [List.map_cons, List.sum_cons, ih, List.countP_cons, Nat.add_comm]
    cases p a <;> rfl

theorem subperm_sum_le_iff {α M : Type*} [DecidableEq α] [AddCommGroup M] [LinearOrder M]
    [IsOrderedAddMonoid M] (f : α → M) (l : List α) :
    (∀ sub : List α, sub.Subperm l → (sub.map f).sum ≤ (l.map f).sum) ↔ ∀ a ∈ l, 0 ≤ f a := by
  constructor
  · intro hsub a ha
    have hle := hsub (l.erase a) (List.erase_subperm a l)
    have hperm := ((List.perm_cons_erase ha).map f).sum_eq
    rw [List.map_cons, List.sum_cons] at hperm
    rw [hperm] at hle
    exact le_add_iff_nonneg_left _ |>.mp hle
  · rintro hnonneg sub ⟨sub', hperm, hsublist⟩
    rw [← (hperm.map f).sum_eq]
    apply (hsublist.map f).sum_le_sum
    intro x hx
    obtain ⟨a, ha, rfl⟩ := List.mem_map.mp hx
    exact hnonneg a ha

section Best

variable {α : Type*} {k : α → ℤ} {r : α → α → Prop} [DecidableRel r]

/-- The fold that keeps the best element, `k` being what the elements are compared by. -/
theorem foldl_best (hr : ∀ a b, r a b ↔ k a < k b) (l : List α) (a : α) :
    ∃ m, l.foldl (fun m x => if r m x then x else m) a = m ∧ (m = a ∨ m ∈ l) ∧
      ∀ x ∈ l, k x ≤ k m := by
  induction l using List.reverseRecOn with
  | nil => simp
  | append_singleton l b ih =>
    obtain ⟨m, hm, hmem, hall⟩ := ih
    rw [List.foldl_append, List.foldl_cons, List.foldl_nil, hm]
    split
    · rename_i hlt
      rw [hr] at hlt
      refine ⟨b, rfl, Or.inr (by simp), fun x hx => ?_⟩
      rcases List.mem_append.mp hx with hx | hx
      · exact (hall x hx).trans hlt.le
      · rw [List.mem_singleton.mp hx]
    · rename_i hge
      rw [hr, not_lt] at hge
      refine ⟨m, rfl, hmem.imp_right (List.mem_append_left _), fun x hx => ?_⟩
      rcases List.mem_append.mp hx with hx | hx
      · exact hall x hx
      · rwa [List.mem_singleton.mp hx]

theorem foldl_best_mem (hr : ∀ a b, r a b ↔ k a < k b) (hk : Function.Injective k) {l : List α} {a : α}
    (ha : ∀ x ∈ l, k a ≤ k x) :
    ∃ m, l.foldl (fun m x => if r m x then x else m) a = m ∧
      ((l = [] ∧ m = a) ∨ (m ∈ l ∧ ∀ x ∈ l, k x ≤ k m)) := by
  obtain ⟨m, hm, hmem, hall⟩ := foldl_best hr l a
  refine ⟨m, hm, ?_⟩
  cases l with
  | nil => exact Or.inl ⟨rfl, hm.symm⟩
  | cons x l =>
    refine Or.inr ⟨?_, hall⟩
    rcases hmem with rfl | hmem
    · have hx := List.mem_cons_self (a := x) (l := l)
      rw [hk (le_antisymm (ha x hx) (hall x hx))]
      exact hx
    · exact hmem

end Best

/-- What a list ends with, when the repetitions of `a` at its end are split off. -/
theorem replicate_suffix_iff {α : Type*} {a : α} {l : List α} {k n : ℕ} (hlast : l.getLast? ≠ some a) :
    List.replicate n a <:+ l ++ List.replicate k a ↔ n ≤ k := by
  rw [← List.reverse_prefix, List.reverse_append, List.reverse_replicate, List.reverse_replicate]
  constructor
  · intro hpre
    by_contra hlt
    obtain ⟨m, hm⟩ : ∃ m, n = k + (m + 1) := ⟨n - k - 1, by omega⟩
    rw [hm, List.replicate_add, List.prefix_append_right_inj, List.replicate_succ] at hpre
    obtain ⟨rest, hrest⟩ := hpre
    refine hlast ?_
    rw [← List.head?_reverse, ← hrest]
    rfl
  · intro hle
    obtain ⟨m, rfl⟩ := Nat.exists_eq_add_of_le hle
    rw [List.replicate_add, List.append_assoc]
    exact List.prefix_append _ _

end TradingSim.Lib
