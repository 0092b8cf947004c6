import TradingSim.Fix.Reading

/-!
`FixSessionReader::start` over a whole file: one callback for every line that is not empty, in the
order of the file, with the order parsed from that line.

The callback is meant for New Order Singles. `start` does not look at what a line is, so the two agree
for the files that have no other lines (`start_framing`).
-/

namespace TradingSim

open Lib

namespace FixSessionReader

/-- The lines of a file that are not empty. -/
def lines (file : List UInt8) : List (List UInt8) := (file.splitOn 10).filter (· ≠ [])

/-- Tag 35. -/
def tagMsgType : List UInt8 := [51, 53]

/-- The line is a complete New Order Single. -/
def IsNewOrderSingle (line : List UInt8) : Prop :=
  [68] ∈ valuesOf tagMsgType (fields line) ∧
    ∀ tag ∈ [tagSymbol, tagSide, tagPrice, tagQuantity], valuesOf tag (fields line) ≠ []

instance (line : List UInt8) : Decidable (IsNewOrderSingle line) :=
  inferInstanceAs (Decidable (_ ∧ _))

section

variable (atof : List UInt8 → ℚ) (now : ℕ → Int64)

/-- The callbacks are one for each of the lines, in their order, with the order parsed from the line
at that reading of the clock. -/
def Delivers (orders : List Order) (ls : List (List UInt8)) : Prop :=
  orders.length = ls.length ∧ ∀ (i : ℕ) line, ls[i]? = some line →
    ∃ order, parseFixLine atof (now i) line = .ok order ∧ orders[i]? = some order

/-- The orders of lines that are read after `n` others. -/
def ordersFrom (n : ℕ) (ls : List (List UInt8)) : List Order :=
  ls.mapIdx fun i line => readOrder atof (now (n + i)) line

theorem ordersFrom_cons (n : ℕ) (line : List UInt8) (ls : List (List UInt8)) :
    ordersFrom atof now n (line :: ls) =
      readOrder atof (now n) line :: ordersFrom atof now (n + 1) ls := by
  rw [ordersFrom, List.mapIdx_cons, ordersFrom]
  simp only [Nat.add_zero, Nat.add_assoc, Nat.add_comm 1]

theorem delivers_ordersFrom (ls : List (List UInt8)) :
    Delivers atof now (ordersFrom atof now 0 ls) ls := by
  refine ⟨List.length_mapIdx, fun i line hline => ⟨_, parseFixLine_eq atof (now i) line, ?_⟩⟩
  rw [ordersFrom, List.getElem?_mapIdx, hline, Option.map_some, Nat.zero_add]

variable {atof now}

theorem lines_append {line rest : List UInt8} (h : 10 ∉ line) :
    lines (line ++ 10 :: rest) = if line = [] then lines rest else line :: lines rest := by
  rw [lines, splitOn_append h, List.filter_cons, lines]
  simp

theorem lines_of_not_mem {line : List UInt8} (h : 10 ∉ line) :
    lines line = if line = [] then [] else [line] := by
  rw [lines, splitOn_of_not_mem h, List.filter_cons]
  simp

theorem nextLine_spec {p : List UInt8} (hp : p ≠ []) :
    ∃ line rest, (memchr 10 p).getD (p, []) = (line, rest) ∧
      lines p = (if line = [] then lines rest else line :: lines rest) ∧ rest.length < p.length := by
  cases hline : memchr 10 p with
  | none =>
    exact ⟨p, [], rfl, lines_of_not_mem (memchr_eq_none.mp hline), List.length_pos_of_ne_nil hp⟩
  | some cut =>
    obtain ⟨heq, hno⟩ := memchr_eq_some.mp hline
    refine ⟨cut.1, cut.2, rfl, ?_, length_of_memchr hline⟩
    rw [← lines_append hno, ← heq]

variable (atof now)

theorem readLine_spec (p : List UInt8) (orders : List Order) :
    (p = [] ∧ readLine atof now (p, orders) = .ok none ∧ lines p = []) ∨
      ∃ p' handed, readLine atof now (p, orders) = .ok (some (p', orders ++ handed)) ∧
        ordersFrom atof now orders.length (lines p) =
          handed ++ ordersFrom atof now (orders ++ handed).length (lines p') ∧
        handed.length ≤ 1 ∧ p'.length < p.length := by
  cases hp : p with
  | nil => exact Or.inl ⟨rfl, rfl, rfl⟩
  | cons c cs =>
    rw [← hp]
    obtain ⟨line, rest, hcut, hlines, hlt⟩ := nextLine_spec (p := p) (by simp [hp])
    right
    rw [hlines]
    simp only [hp, readLine] at hcut ⊢
    rw [hcut]
    by_cases hnil : line = []
    · refine ⟨rest, [], ?_, ?_, Nat.zero_le 1, hp ▸ hlt⟩
      · simp [hnil]
      · rw [if_pos hnil, List.append_nil, List.nil_append]
    · refine ⟨rest, [readOrder atof (now orders.length) line], ?_, ?_, le_rfl, hp ▸ hlt⟩
      · have hpos : line.length > 0 := List.length_pos_of_ne_nil hnil
        simp only [hpos, if_true, parseFixLine_eq, ok_bind, pure_eq_ok]
      · rw [if_neg hnil, ordersFrom_cons, List.length_append, List.length_singleton,
          List.singleton_append]

/-- **What a file is read to.** -/
theorem start_eq (file : List UInt8) :
    start atof now file = .ok (ordersFrom atof now 0 (lines file)) := by
  obtain ⟨⟨rest, orders⟩, hrun, hout⟩ : ∃ st, loop Fault.outOfRounds (readLine atof now)
      (file.length + 1) (file, []) = .ok st ∧ st.2 = [] ++ ordersFrom atof now 0 (lines file) := by
    refine loop_value (fun st : List UInt8 × List Order =>
      st.2 ++ ordersFrom atof now st.2.length (lines st.1))
      (μ := fun st => st.1.length) ?_ (Nat.lt_succ_self _)
    rintro ⟨p, orders⟩
    rcases readLine_spec atof now p orders with ⟨-, hret, hnil⟩ | ⟨p', handed, hround, hkeep, -, hlt⟩
    · left
      rw [hnil]
      exact ⟨hret, (List.append_nil _).symm⟩
    · refine Or.inr ⟨(p', orders ++ handed), hround, ?_, hlt⟩
      simp only
      rw [hkeep, List.append_assoc]
  simp only [start, hrun, ok_bind, pure_eq_ok]
  exact congrArg Except.ok hout

/-- **Framing**: `start` calls back once for every line that is not empty, in file order, with the
order parsed from it. These are the callbacks for the complete New Order Singles exactly where the
file has no other line. -/
theorem start_framing (file : List UInt8) :
    ∃ orders, start atof now file = .ok orders ∧ Delivers atof now orders (lines file) ∧
      (Delivers atof now orders ((lines file).filter (IsNewOrderSingle ·)) ↔
        ∀ line ∈ lines file, IsNewOrderSingle line) := by
  have hall := delivers_ordersFrom atof now (lines file)
  refine ⟨_, start_eq atof now file, hall, fun hdel => ?_, fun h => ?_⟩
  · have hlen := hdel.1.symm.trans hall.1
    simpa using List.length_filter_eq_length_iff.mp hlen
  · rwa [List.filter_eq_self.mpr fun line hline => decide_eq_true (h line hline)]

end

/-- `35=0` is no New Order Single, and there is a callback for it: a buy order without a quantity. -/
theorem start_heartbeat :
    ¬ IsNewOrderSingle [51, 53, 61, 48] ∧
      ∃ order, start (fun _ => 0) (fun _ => 0) [51, 53, 61, 48] = .ok [order] ∧
        order.orderType = .buy ∧ order.quantity = 0 :=
  ⟨by decide, _, start_eq _ _ _, by decide, by decide⟩

end FixSessionReader

end TradingSim
