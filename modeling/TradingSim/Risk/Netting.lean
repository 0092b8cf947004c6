import TradingSim.Risk.Position

/-!
What follows from netting: a fill may be cut into slices (`fill_splitting`), and the average of an
open position is between the prices paid for it (`entry_price_bounds`). Exchanging the sides turns
every position around, up to the average of a flat one (`mirror_symmetry`).
-/

namespace TradingSim

open Lib

/-! ### Slices -/

/-- A part of a fill: as the whole, but for the quantity and the identities. -/
structure Execution.SliceOf (exec whole : Execution) : Prop where
  pos : 0 < exec.quantity
  symbol : exec.symbol = whole.symbol
  side : exec.side = whole.side
  tradePrice : exec.tradePrice = whole.tradePrice

theorem Execution.sum_slices_pos {slices : List Execution} {whole : Execution} (hne : slices ≠ [])
    (hs : ∀ exec ∈ slices, exec.SliceOf whole) : 0 < (slices.map Execution.quantity).sum := by
  apply List.sum_pos
  · simpa using fun exec he => (hs exec he).pos
  · simpa using hne

namespace Position

variable {position : Position} {e₁ e₂ whole : Execution}

theorem after_after (h₁ : e₁.SliceOf whole) (h₂ : e₂.SliceOf whole)
    (hsum : e₁.quantity + e₂.quantity = whole.quantity) :
    (position.after e₁).after e₂ = position.after whole := by
  have hdir : 0 < e₁.signed * e₂.signed ∧ e₁.signed + e₂.signed = whole.signed := by
    have hprod := mul_pos h₁.pos h₂.pos
    simp only [Execution.signed, h₁.side, h₂.side]
    cases whole.side with
    | buy => exact ⟨hprod, hsum⟩
    | sell => exact ⟨by linarith, by simp only; linarith⟩
  have hne : e₂.signed ≠ 0 := right_ne_zero_of_mul hdir.1.ne'
  have hnet : (position.after e₁).net.trade e₂.signed whole.tradePrice =
      position.net.trade whole.signed whole.tradePrice := by
    rw [← hdir.2, ← Net.trade_trade hdir.1, ← h₁.tradePrice]
    exact (net_after position e₁).trade_eq hne
  rw [after, h₂.tradePrice, h₂.side, hnet]
  rfl

/-- The fills of a history, one by one. -/
def fillAll : Position → List Execution → Except Fault Position
  | position, [] => .ok position
  | position, exec :: execs => do (← position.fill exec).fillAll execs

theorem fillAll_eq {execs : List Execution} (h : ∀ exec ∈ execs, 0 < exec.quantity) :
    position.fillAll execs = .ok (position.afterAll execs) := by
  induction execs generalizing position with
  | nil => rfl
  | cons exec execs ih =>
    rw [fillAll, fill_eq (h exec (by simp)), ok_bind, ih fun e he => h e (by simp [he])]
    rfl

theorem afterAll_slices {slices : List Execution} (hne : slices ≠ [])
    (hs : ∀ exec ∈ slices, exec.SliceOf whole)
    (hsum : (slices.map Execution.quantity).sum = whole.quantity) :
    position.afterAll slices = position.after whole := by
  induction slices generalizing position whole with
  | nil => exact absurd rfl hne
  | cons exec slices ih =>
    have hexec := hs exec (by simp)
    by_cases hnil : slices = []
    · subst hnil
      have hq : exec.quantity = whole.quantity := by simpa using hsum
      have hsigned : exec.signed = whole.signed := by
        rw [Execution.signed, Execution.signed, hexec.side, hq]
      show position.after exec = position.after whole
      rw [after, after, hsigned, hexec.side, hexec.tradePrice]
    · -- what is left of the whole
      let rest : Execution := { whole with quantity := (slices.map Execution.quantity).sum }
      have hparts : ∀ e ∈ slices, e.SliceOf rest := fun e he =>
        have hslice := hs e (by simp [he])
        ⟨hslice.pos, hslice.symbol, hslice.side, hslice.tradePrice⟩
      have hpos : 0 < rest.quantity := Execution.sum_slices_pos hnil hparts
      show (position.after exec).afterAll slices = position.after whole
      rw [ih hnil hparts rfl]
      refine after_after hexec ⟨hpos, rfl, rfl, rfl⟩ ?_
      simpa using hsum

end Position

namespace PositionManager

variable {positions : PositionManager} {whole : Execution} {sym : List UInt8} {position : Position}

theorem found_symbol (positions : PositionManager) (h : (positions.found sym).symbol = []) : sym = [] := by
  simp only [found] at h
  split at h
  · exact h
  · rename_i hne
    exact absurd h hne

theorem found_update (h : position.symbol = [] → sym = []) :
    found (Function.update positions sym (some position)) sym = position := by
  rw [found, Function.update_self, Option.getD_some]
  split
  · rename_i hempty
    obtain rfl : sym = [] := h hempty
    rw [← hempty]
  · rfl

theorem applyAll_slices {slices : List Execution} (hne : slices ≠ []) (htext : ∃ i, whole.symbol i = 0)
    (hs : ∀ exec ∈ slices, exec.SliceOf whole) : positions.applyAll slices =
      .ok (Function.update positions whole.key
        (some ((positions.found whole.key).afterAll slices))) := by
  induction slices generalizing positions with
  | nil => exact absurd rfl hne
  | cons exec slices ih =>
    have hexec := hs exec (by simp)
    have hkey : exec.key = whole.key := congrArg CharArray.text hexec.symbol
    have he : exec.Booked := ⟨hexec.pos, hexec.symbol ▸ htext⟩
    rw [applyAll, onExecution_eq he, ok_bind, hkey]
    by_cases hnil : slices = []
    · subst hnil
      rfl
    · have hname : ((positions.found whole.key).after exec).symbol = [] → whole.key = [] :=
        found_symbol positions
      rw [ih hnil fun e he => hs e (by simp [he]), found_update hname, Function.update_idem]
      rfl

end PositionManager

/-- **Slicing a fill changes nothing**: for every position, and for the whole ledger, the slices of a
fill applied one after the other come to what the fill in one piece comes to. -/
theorem PositionManager.fill_splitting (whole : Execution) (slices : List Execution) (hne : slices ≠ [])
    (hs : ∀ exec ∈ slices, exec.SliceOf whole)
    (hsum : (slices.map Execution.quantity).sum = whole.quantity) :
    (∀ position : Position, position.fillAll slices = position.fill whole) ∧
      ∀ positions : PositionManager, positions.applyAll slices = positions.onExecution whole := by
  have hpos : 0 < whole.quantity := hsum ▸ Execution.sum_slices_pos hne hs
  refine ⟨fun position => ?_, fun positions => ?_⟩
  · rw [Position.fillAll_eq fun e he => (hs e he).pos, Position.fill_eq hpos,
      Position.afterAll_slices hne hs hsum]
  by_cases htext : ∃ i, whole.symbol i = 0
  · rw [applyAll_slices hne htext hs, onExecution_eq ⟨hpos, htext⟩,
      Position.afterAll_slices hne hs hsum]
  · -- a symbol that is no text is not looked up at all
    obtain ⟨exec, rest, rfl⟩ := List.exists_cons_of_ne_nil hne
    have hsym : exec.symbol = whole.symbol := (hs exec (by simp)).symbol
    simp only [applyAll, onExecution, hsym, CharArray.cString, if_neg htext, error_bind]

/-- A sale of five out of a long position of three, cut where the position is flat: the first slice
closes it, the second opens the short one. -/
theorem PositionManager.fill_splitting_flip :
    let fill (side : Side) (quantity : ℚ) : Execution := ⟨0, 0, fun _ => 0, 100, quantity, side, 0, 0⟩
    ∃ long short, new.onExecution (fill .buy 3) = .ok long ∧
      (long []).map Position.quantity = some 3 ∧
      long.applyAll [fill .sell 3, fill .sell 2] = .ok short ∧
      long.onExecution (fill .sell 5) = .ok short ∧
      (short []).map Position.quantity = some (-2) := by
  intro fill
  have hbuy : (fill .buy 3).Booked := ⟨by norm_num [fill], 0, rfl⟩
  have hsell : (fill .sell 5).Booked := ⟨by norm_num [fill], 0, rfl⟩
  have h₃ : (fill .sell 3).SliceOf (fill .sell 5) := ⟨by norm_num [fill], rfl, rfl, rfl⟩
  have h₂ : (fill .sell 2).SliceOf (fill .sell 5) := ⟨by norm_num [fill], rfl, rfl, rfl⟩
  have hsplit := (fill_splitting (fill .sell 5) [fill .sell 3, fill .sell 2] (by simp)
    (by simp [h₃, h₂]) (by norm_num [fill])).2
  have hkey : ∀ side quantity, (fill side quantity).key = [] := by
    intro side quantity
    change CharArray.text (fun _ : Fin 8 => 0) = []
    decide
  refine ⟨_, _, onExecution_eq hbuy, ?_, ?_, onExecution_eq hsell, ?_⟩
  · rw [hkey, Function.update_self]
    norm_num [found, new, Position.after, Position.net, Position.zero, Execution.signed, fill]
  · rw [hsplit, onExecution_eq hsell]
  · rw [hkey, hkey, Function.update_self]
    norm_num [found, new, Position.after, Position.net, Position.zero, Execution.signed, fill]

/-! ### Averages -/

/-- The side of an open position. -/
def Position.side (position : Position) : Side := if 0 < position.quantity then .buy else .sell

theorem Position.side_of_signed {position : Position} {exec : Execution} (hpos : 0 < exec.quantity)
    (h : 0 < exec.signed * position.quantity) : exec.side = position.side := by
  unfold Position.side
  unfold Execution.signed at h
  cases hside : exec.side with
  | buy =>
    rw [hside] at h
    exact (if_pos (pos_of_mul_pos_right h hpos.le)).symm
  | sell =>
    rw [hside] at h
    refine (if_neg fun hlong => ?_).symm
    have := mul_pos hpos hlong
    simp only at h
    linarith

theorem Execution.booked_pair {e₁ e₂ : Execution} (h₁ : e₁.Booked) (h₂ : e₂.Booked) :
    ∀ exec ∈ [e₁, e₂], exec.Booked := by
  simp [h₁, h₂]

/-- **An average is between prices paid**: for every open position there are two executions on its own
side, since it was last flat or changed its sign and with the one that opened it, such that its average
is between their prices. -/
theorem PositionManager.entry_price_bounds (execs : List Execution)
    (hes : ∀ exec ∈ execs, exec.Booked) : ∃ positions, new.applyAll execs = .ok positions ∧
      ∀ sym position, positions sym = some position → position.quantity ≠ 0 →
        let leg := legOf Execution.signed (Execution.ofSymbol sym execs)
        ∃ lo ∈ leg, ∃ hi ∈ leg, lo.side = position.side ∧ hi.side = position.side ∧
          lo.tradePrice ≤ position.averageEntryPrice ∧
          position.averageEntryPrice ≤ hi.tradePrice := by
  obtain ⟨positions, hall, hpos⟩ := applyAll_eq hes
  refine ⟨positions, hall, fun sym position hsym hopen => ?_⟩
  rw [hpos] at hsym
  split at hsym
  · simp at hsym
  · have hof : ∀ exec ∈ Execution.ofSymbol sym execs, exec.Booked := fun exec he =>
      hes exec (List.mem_of_mem_filter he)
    have hagree := Position.net_afterAll sym fun exec he => (hof exec he).signed_ne
    rw [Option.some_inj.mp hsym] at hagree
    have hnet : position.net.quantity ≠ 0 := hopen
    obtain ⟨lo, hlo, hi, hhi, hslo, hshi, hle, hge⟩ := between_leg
      (fun exec he => (hof exec he).signed_ne) (hagree.quantity ▸ hnet)
    rw [← hagree.quantity] at hslo hshi
    rw [← hagree.price hnet] at hle hge
    have hown : ∀ exec ∈ legOf Execution.signed (Execution.ofSymbol sym execs),
        0 < exec.signed * position.quantity → exec.side = position.side := fun exec he =>
      Position.side_of_signed (hof exec (mem_of_mem_legOf Execution.signed he)).pos
    exact ⟨lo, hlo, hi, hhi, hown lo hlo hslo, hown hi hhi hshi, hle, hge⟩

/-- A short position that is turned around: what it was sold at is not looked at any more. -/
theorem PositionManager.entry_price_bounds_flip :
    let execs : List Execution :=
      [⟨0, 0, fun _ => 0, 100, 10, .sell, 0, 0⟩, ⟨0, 0, fun _ => 0, 103, 15, .buy, 0, 0⟩]
    (∀ exec ∈ execs, exec.Booked) ∧ ∃ positions, new.applyAll execs = .ok positions ∧
      ∀ position, positions [] = some position → position.quantity ≠ 0 →
        position.averageEntryPrice = 103 := by
  intro execs
  have hes : ∀ exec ∈ execs, exec.Booked :=
    Execution.booked_pair ⟨by norm_num, 0, rfl⟩ ⟨by norm_num, 0, rfl⟩
  obtain ⟨positions, hall, hsym⟩ := entry_price_bounds execs hes
  refine ⟨hes, positions, hall, fun position hpos hopen => ?_⟩
  have hof : Execution.ofSymbol [] execs = execs := by decide
  have hleg : legOf Execution.signed execs = [⟨0, 0, fun _ => 0, 103, 15, .buy, 0, 0⟩] := by
    norm_num [execs, legOf, legStep, Execution.signed]
  obtain ⟨lo, hlo, hi, hhi, -, -, hle, hge⟩ := hsym [] position hpos hopen
  rw [hof, hleg, List.mem_singleton] at hlo hhi
  rw [hlo] at hle
  rw [hhi] at hge
  exact le_antisymm hge hle

/-! ### The other side of every execution -/

/-- The side of the counterparty. -/
def Side.opp : Side → Side
  | .buy => .sell
  | .sell => .buy

namespace Execution

/-- The execution with `BUY` and `SELL` exchanged. -/
def mirror (exec : Execution) : Execution := { exec with side := exec.side.opp }

theorem signed_mirror (exec : Execution) : exec.mirror.signed = -exec.signed := by
  simp only [signed, mirror]
  cases exec.side with
  | buy => rfl
  | sell => exact (neg_neg _).symm

theorem ofSymbol_mirror (sym : List UInt8) (execs : List Execution) :
    ofSymbol sym (execs.map mirror) = (ofSymbol sym execs).map mirror := by
  rw [ofSymbol, List.filter_map]
  rfl

theorem mirror_signed_ne {execs : List Execution} (h : ∀ exec ∈ execs, exec.signed ≠ 0) :
    ∀ exec ∈ execs.map mirror, exec.signed ≠ 0 := by
  simp only [List.forall_mem_map, signed_mirror]
  exact fun exec he => neg_ne_zero.mpr (h exec he)

theorem netOf_mirror (execs : List Execution) : netOf signed tradePrice (execs.map mirror) =
    (netOf signed tradePrice execs).neg :=
  netOf_neg signed tradePrice signed_mirror (fun _ => rfl) execs

theorem Booked.mirror {exec : Execution} (h : exec.Booked) : exec.mirror.Booked := ⟨h.pos, h.text⟩

end Execution

namespace Position

variable {execs : List Execution} {sym : List UInt8}

/-- The average of a position, also of a flat one: that of the account, unless a sale made it flat. -/
theorem average_afterAll (sym : List UInt8) {execs : List Execution} {last : Execution}
    (hes : ∀ exec ∈ execs ++ [last], exec.signed ≠ 0) :
    (({ zero with symbol := sym } : Position).afterAll (execs ++ [last])).averageEntryPrice =
      if last.side = .sell ∧
        (netOf Execution.signed Execution.tradePrice (execs ++ [last])).quantity = 0 then 0
      else (netOf Execution.signed Execution.tradePrice (execs ++ [last])).price := by
  have hprev := net_afterAll sym fun e he => hes e (List.mem_append_left _ he)
  rw [netOf_snoc, ← hprev.trade_eq (hes last (by simp)), afterAll, List.foldl_append]
  rfl

/-- The average is the same on both sides if the position is open, and else if the average of the leg
that was closed is zero: one of the two has it still, the other has been reset. -/
theorem average_mirror {last : Execution} (hes : ∀ exec ∈ execs ++ [last], exec.signed ≠ 0) :
    (({ zero with symbol := sym } : Position).afterAll
        ((execs ++ [last]).map Execution.mirror)).averageEntryPrice =
      (({ zero with symbol := sym } : Position).afterAll (execs ++ [last])).averageEntryPrice ↔
    ((netOf Execution.signed Execution.tradePrice (execs ++ [last])).quantity = 0 →
      (netOf Execution.signed Execution.tradePrice (execs ++ [last])).price = 0) := by
  have hmirror := Execution.mirror_signed_ne hes
  have hneg := Execution.netOf_mirror (execs ++ [last])
  rw [List.map_append, List.map_singleton] at hmirror hneg ⊢
  rw [average_afterAll sym hmirror, average_afterAll sym hes, hneg]
  generalize netOf Execution.signed Execution.tradePrice (execs ++ [last]) = n
  simp only [Net.neg, neg_eq_zero, Execution.mirror]
  by_cases hflat : n.quantity = 0
  · cases last.side with
    | buy => simp [hflat, Side.opp, eq_comm]
    | sell => simp [hflat, Side.opp]
  · simp [hflat]

end Position

theorem PositionManager.applyAll_mirror {execs : List Execution} (hes : ∀ exec ∈ execs, exec.Booked) :
    ∃ positions, new.applyAll (execs.map Execution.mirror) = .ok positions ∧ ∀ sym, positions sym =
      if Execution.ofSymbol sym execs = [] then none
      else some (({ Position.zero with symbol := sym } : Position).afterAll
        ((Execution.ofSymbol sym execs).map Execution.mirror)) := by
  have hmirror : ∀ exec ∈ execs.map Execution.mirror, exec.Booked := by
    rw [List.forall_mem_map]
    intro exec he
    exact (hes exec he).mirror
  obtain ⟨positions, hall, hpos⟩ := applyAll_eq hmirror
  refine ⟨positions, hall, fun sym => ?_⟩
  rw [hpos, Execution.ofSymbol_mirror]
  simp only [List.map_eq_nil_iff]

/-- **The ledger of the counterparties**: with `BUY` and `SELL` exchanged every position has the
opposite quantity and the opposite realised profit. Its average is the same while it is open; of a flat
position it is the same only if the leg that was closed had the average zero. -/
theorem PositionManager.mirror_symmetry (execs : List Execution) (hes : ∀ exec ∈ execs, exec.Booked) :
    ∃ positions positions', new.applyAll execs = .ok positions ∧
      new.applyAll (execs.map Execution.mirror) = .ok positions' ∧
      ∀ sym, (positions sym = none ∧ positions' sym = none) ∨
        ∃ position position', positions sym = some position ∧ positions' sym = some position' ∧
          position'.quantity = -position.quantity ∧
          position'.realisedPnl = -position.realisedPnl ∧
          (position'.averageEntryPrice = position.averageEntryPrice ↔
            ((netOf Execution.signed Execution.tradePrice (Execution.ofSymbol sym execs)).quantity = 0 →
              (netOf Execution.signed Execution.tradePrice (Execution.ofSymbol sym execs)).price = 0)) := by
  obtain ⟨positions, hall, hpos⟩ := applyAll_eq hes
  obtain ⟨positions', hall', hpos'⟩ := applyAll_mirror hes
  refine ⟨positions, positions', hall, hall', fun sym => ?_⟩
  have hof : ∀ exec ∈ Execution.ofSymbol sym execs, exec.signed ≠ 0 := fun exec he =>
    (hes exec (List.mem_of_mem_filter he)).signed_ne
  rw [hpos, hpos']
  rcases List.eq_nil_or_concat' (Execution.ofSymbol sym execs) with hnil | ⟨init, last, hlast⟩
  · left
    simp [hnil]
  right
  rw [hlast] at hof ⊢
  have hnet := Position.net_afterAll sym hof
  have hnet' := Position.net_afterAll sym (Execution.mirror_signed_ne hof)
  rw [Execution.netOf_mirror] at hnet'
  refine ⟨_, _, if_neg (by simp), if_neg (by simp), ?_, ?_, ?_⟩
  · exact hnet'.quantity.trans (congrArg Neg.neg hnet.quantity.symm)
  · exact hnet'.realised.trans (congrArg Neg.neg hnet.realised.symm)
  · exact Position.average_mirror hof

/-- A short position that is bought back in part. -/
theorem PositionManager.mirror_symmetry_partial :
    let execs : List Execution :=
      [⟨0, 0, fun _ => 0, 100, 10, .sell, 0, 0⟩, ⟨0, 0, fun _ => 0, 90, 4, .buy, 0, 0⟩]
    (∀ exec ∈ execs, exec.Booked) ∧ ∃ positions positions', new.applyAll execs = .ok positions ∧
      new.applyAll (execs.map Execution.mirror) = .ok positions' ∧
      ∀ position position', positions [] = some position → positions' [] = some position' →
        position'.averageEntryPrice = position.averageEntryPrice := by
  intro execs
  have hes : ∀ exec ∈ execs, exec.Booked :=
    Execution.booked_pair ⟨by norm_num, 0, rfl⟩ ⟨by norm_num, 0, rfl⟩
  have hof : Execution.ofSymbol [] execs = execs := by decide
  have hopen : (netOf Execution.signed Execution.tradePrice execs).quantity = -6 := by
    rw [netOf_quantity]
    norm_num [execs, Execution.signed]
  obtain ⟨positions, positions', hall, hall', hsym⟩ := mirror_symmetry execs hes
  refine ⟨hes, positions, positions', hall, hall', fun position position' hpos hpos' => ?_⟩
  rcases hsym [] with ⟨hnone, -⟩ | ⟨p, p', hp, hp', -, -, havg⟩
  · simp [hnone] at hpos
  · obtain rfl : p = position := by simpa [hp] using hpos
    obtain rfl : p' = position' := by simpa [hp'] using hpos'
    rw [hof, hopen] at havg
    exact havg.mpr fun h => by norm_num at h

/-- Sold at 100 and bought back at 90, the position keeps the average 100; bought at 100 and sold at
90, it has none. -/
theorem PositionManager.mirror_symmetry_fails :
    let execs : List Execution :=
      [⟨0, 0, fun _ => 0, 100, 10, .sell, 0, 0⟩, ⟨0, 0, fun _ => 0, 90, 10, .buy, 0, 0⟩]
    ∃ positions positions' position position', new.applyAll execs = .ok positions ∧
      new.applyAll (execs.map Execution.mirror) = .ok positions' ∧
      positions [] = some position ∧ positions' [] = some position' ∧
      position.quantity = 0 ∧ position.averageEntryPrice = 100 ∧
      position'.quantity = 0 ∧ position'.averageEntryPrice = 0 := by
  intro execs
  have hes : ∀ exec ∈ execs, exec.Booked :=
    Execution.booked_pair ⟨by norm_num, 0, rfl⟩ ⟨by norm_num, 0, rfl⟩
  obtain ⟨positions, hall, hpos⟩ := applyAll_eq hes
  obtain ⟨positions', hall', hpos'⟩ := applyAll_mirror hes
  have hof : Execution.ofSymbol [] execs = execs := by decide
  have hflat : positions [] = some ⟨[], 0, 100, 100, 0⟩ := by
    rw [hpos, hof]
    norm_num [execs, Position.afterAll, Position.after, Position.net, Position.zero, Net.trade,
      Net.closed, Execution.signed]
    simp
  have hflat' : positions' [] = some ⟨[], 0, 0, -100, 0⟩ := by
    rw [hpos', hof]
    norm_num [execs, Position.afterAll, Position.after, Position.net, Position.zero, Net.trade,
      Net.closed, Execution.signed, Execution.mirror, Side.opp]
    simp
  exact ⟨positions, positions', _, _, hall, hall', hflat, hflat', rfl, rfl, rfl, rfl⟩

end TradingSim
