import Mathlib.Data.List.SplitOn
import Mathlib.Tactic

/-!
Lists cut at a separator, one piece at a time, and pieces joined by one.
-/

namespace TradingSim.Lib

variable {α : Type*} [BEq α] [LawfulBEq α] {sep x : α} {s rest line : List α}

theorem splitOn_of_not_mem (h : sep ∉ s) : s.splitOn sep = [s] := by
  refine List.splitOnP_eq_singleton fun y hy => ?_
  rw [beq_eq_false_iff_ne]
  exact fun e => h (e ▸ hy)

theorem splitOn_append (h : sep ∉ s) : (s ++ sep :: rest).splitOn sep = s :: rest.splitOn sep := by
  rw [List.splitOn, List.splitOnP_append_cons_of_forall_mem]
  · rfl
  · intro y hy
    rw [beq_eq_false_iff_ne]
    exact fun e => h (e ▸ hy)
  · exact beq_self_eq_true sep

/-- **Induction on the pieces**: a list is its last piece, or a piece, the separator and a rest. -/
theorem splitOn_rec (sep : α) {P : List α → Prop} (last : ∀ s, sep ∉ s → P s)
    (step : ∀ s rest, sep ∉ s → P rest → P (s ++ sep :: rest)) (line : List α) : P line := by
  induction hn : line.length using Nat.strong_induction_on generalizing line with
  | _ n ih =>
    subst hn
    by_cases hmem : sep ∈ line
    · obtain ⟨s, rest, rfl, hs⟩ := List.eq_append_cons_of_mem hmem
      exact step s rest hs (ih rest.length (by simp; omega) rest rfl)
    · exact last line hmem

theorem splitOn_append_cons (line rest : List α) :
    (line ++ sep :: rest).splitOn sep = line.splitOn sep ++ rest.splitOn sep := by
  induction line using splitOn_rec sep with
  | last s hs => rw [splitOn_append hs, splitOn_of_not_mem hs, List.singleton_append]
  | step s line hs ih =>
    rw [List.append_assoc, List.cons_append, splitOn_append hs, splitOn_append hs, ih,
      List.cons_append]

theorem mem_splitOn (h : s ∈ line.splitOn sep) : sep ∉ s ∧ ∀ x ∈ s, x ∈ line := by
  induction line using splitOn_rec sep with
  | last t ht =>
    rw [splitOn_of_not_mem ht] at h
    rw [List.mem_singleton.mp h]
    exact ⟨ht, fun _ => id⟩
  | step t rest ht ih =>
    rw [splitOn_append ht] at h
    rcases List.mem_cons.mp h with rfl | h
    · exact ⟨ht, fun _ => List.mem_append_left _⟩
    · exact ⟨(ih h).1, fun x hx => List.mem_append_right _ (List.mem_cons_of_mem _ ((ih h).2 x hx))⟩

/-! ### Joining -/

section Join

variable {β : Type*} {sep x : β} {piece : List β} {pieces : List (List β)}

theorem intercalate_cons (hne : pieces ≠ []) :
    [sep].intercalate (piece :: pieces) = piece ++ sep :: [sep].intercalate pieces := by
  cases pieces with
  | nil => exact absurd rfl hne
  | cons p pieces => simp [List.intercalate]

theorem mem_intercalate (h : x ∈ [sep].intercalate pieces) : x = sep ∨ ∃ p ∈ pieces, x ∈ p := by
  induction pieces with
  | nil => simp [List.intercalate] at h
  | cons p pieces ih =>
    by_cases hne : pieces = []
    · subst hne
      exact Or.inr ⟨p, by simp, by simpa [List.intercalate] using h⟩
    · rw [intercalate_cons hne, List.mem_append, List.mem_cons] at h
      rcases h with h | rfl | h
      · exact Or.inr ⟨p, by simp, h⟩
      · exact Or.inl rfl
      · exact (ih h).imp_right fun ⟨q, hq, hx⟩ => ⟨q, List.mem_cons_of_mem _ hq, hx⟩

end Join

end TradingSim.Lib
