import TradingSim.Fix.Format
import TradingSim.Fix.Framing
import TradingSim.Fix.Symbols
import TradingSim.OrderBook.Admission
import TradingSim.OrderBook.Pair
import TradingSim.Risk.Position

/-!
Instruments from the file to the ledger. The reader keeps seven bytes of a symbol, up to a NUL, and
everything behind it goes by what it keeps: the book an order is filed in, the symbol of an execution
and the position it is booked into. Orders whose symbols differ in what is kept never meet, in any file.
Two lines that do not, and whose prices are admitted, meet in some file: each trades there with a line
that is read as its counterpart (`instruments_isolated`). The option symbols of the reference data are
of that kind (`instruments_option_pair`).
-/

namespace TradingSim

open Lib

/-! ### The symbol of an execution -/

namespace View

variable {v v' : View} {o : Order} {log : List Trade} {os : List Order}

theorem Accept.exec_symbol (h : v.Accept o log v') (hv : v.WF) :
    ∀ tr ∈ log, tr.exec.symbol = strncpy tr.bidOrder.symbol := by
  cases h with
  | outOfRange _ => simp
  | exhausted _ => simp
  | @sweep x l free _ _ hfree hAt hs =>
    refine (hs.rule (I := fun w => w.WF ∧ (w.cell x).symbol = o.symbol)
      ⟨insert_wf hv hfree hAt, by simp [insert]⟩ ?_).2
    rintro w tb ta b a tr ⟨hw, hx⟩ hc htr
    obtain ⟨q, hq⟩ : ∃ q, (w.trade l.1 tb ta b a).cell x = { w.cell x with quantity := q } :=
      trade_cell_terms (hc.ne hw) x
    refine ⟨⟨trade_wf hw hc, by rw [hq]; exact hx⟩, ?_⟩
    have hb : (w.cell b).symbol = o.symbol := by
      apply symKey_injective
      rw [(hw.filed _ b (List.mem_of_mem_head? hc.bid)).1, hAt.1]
    obtain ⟨now, hexec⟩ := htr.exec
    rw [hexec, htr.bidOrder, hb, ← hx]
    rfl

theorem Reports.filed {k : UInt64} {tb ta : ℕ} {b a z : Slot} {σ : OrderType} {tr : Trade}
    (h : v.Reports z σ b a tr) (hwf : v.WF) (hc : v.Cross k tb ta b a) :
    (∃ l, tr.bidOrder.At l) ∧ ∃ l, tr.askOrder.At l := by
  rw [h.bidOrder, h.askOrder]
  exact ⟨⟨_, hwf.filed _ _ (List.mem_of_mem_head? hc.bid)⟩,
    _, hwf.filed _ _ (List.mem_of_mem_head? hc.ask)⟩

theorem Run.exec_symbol (h : new.Run os log v') :
    ∀ tr ∈ log, tr.exec.symbol = strncpy tr.bidOrder.symbol :=
  (h.rule (I := Settled) new_settled fun _ _ _ _ _ hw hacc =>
    ⟨hacc.settled hw, hacc.exec_symbol hw.wf⟩).2

end View

/-! ### Isolation -/

/-- The order with number `i` is a side of the trade. -/
def Attributed.Of (f : Attributed) (i : ℕ) : Prop := f.buyer = i ∨ f.seller = i

namespace OrderBook

/-- **What a trade says of its orders**, from a fresh engine: both have its symbol, and were admitted;
its execution has the text of the symbol. -/
theorem track_symbols (clock : ℕ → Int64) (os : List Order) :
    ∃ s log L, (new clock).acceptAll os = .ok (s, log) ∧
      (new clock).track Ledger.empty os = .ok (s, L) ∧ L.fills.map Attributed.trade = log ∧
      (∀ f ∈ L.fills, f.Fair os L.accepted) ∧
      ∀ f ∈ L.fills, ∀ i, f.Of i → ∃ o, os[i]? = some o ∧ (∃ l, o.At l) ∧
        f.trade.exec.symbol = strncpy o.symbol := by
  obtain ⟨s, v, log, L, hall, htrack, hfills, hrun, -, hacct, -⟩ :=
    track_spec exactness_mod (List.nil_append os).symm rfl
      (admits_of_forall (new clock) fun _ _ => trivial) Rep.new (account_new _ _ os) trivial
  have hlog : L.fills.map Attributed.trade = log := hfills
  refine ⟨s, log, L, hall, htrack, hlog, fun f hf => (hacct.fair f hf).1, fun f hf i hi => ?_⟩
  have hfair := (hacct.fair f hf).1
  have hmem : f.trade ∈ log := hlog ▸ List.mem_map_of_mem hf
  have hexec := hrun.exec_symbol f.trade hmem
  have hfiled := (hrun.trades fun _ _ _ _ _ _ _ _ _ hwf _ hc htr => htr.filed hwf hc).2 f.trade hmem
  -- the two symbols are one array, whichever side the order is on
  have hsame : f.trade.bidOrder.symbol = f.trade.askOrder.symbol := symKey_injective hfair.key
  rcases hi with rfl | rfl
  · obtain ⟨-, o, q, ho, -, hterms⟩ := hfair.buyer
    obtain ⟨l, hl⟩ := hfiled.1
    rw [hterms] at hexec hl
    exact ⟨o, ho, ⟨l, hl⟩, hexec⟩
  · obtain ⟨-, o, q, ho, -, hterms⟩ := hfair.seller
    obtain ⟨l, hl⟩ := hfiled.2
    rw [hsame, hterms] at hexec
    rw [hterms] at hl
    exact ⟨o, ho, ⟨l, hl⟩, hexec⟩

end OrderBook

namespace FixSessionReader

/-! ### The counterpart of a line -/

/-- The value of tag 54 for a side. -/
def sideByte : OrderType → UInt8
  | .buy => 49
  | .sell => 50

/-- The line with `|=|54=1` or `|=|54=2` behind it. The field `=` is there for a last segment of the line
that has no `=` itself, and would make the next field be lost. -/
def counterLine (σ : OrderType) (line : List UInt8) : List UInt8 :=
  line ++ [124, 61, 124, 53, 52, 61, sideByte σ]

section Counter

variable (atof : List UInt8 → ℚ) (σ : OrderType) (line : List UInt8)

theorem readFields_counterLine : ∃ extra, readFields (counterLine σ line) = readFields line ++ extra ∧
    (∀ tag ∈ knownTags, tag ≠ tagSide → valuesOf tag extra = []) ∧
    (valuesOf tagSide extra).getLast?.map sideOf = some σ := by
  have hsegs : segments (counterLine σ line) =
      segments line ++ [[61], [53, 52, 61, sideByte σ]] := by
    rw [counterLine, segments, splitOn_append_cons, segments]
    cases σ <;> rfl
  rw [readFields, hsegs, scan_append, readFields]
  refine ⟨_, rfl, ?_⟩
  -- whether the field `=` is read or lost, the side is read
  cases ((segments line).getLast?.elim false fun seg => decide (61 ∉ seg)) <;> cases σ <;>
    exact ⟨by decide, by decide⟩

theorem readingOf_counterLine : readingOf atof (readFields (counterLine σ line)) =
    { readingOf atof (readFields line) with orderType := σ } := by
  obtain ⟨extra, hread, hother, hside⟩ := readFields_counterLine σ line
  have happend : ∀ tag, valuesOf tag (readFields line ++ extra) =
      valuesOf tag (readFields line) ++ valuesOf tag extra := fun tag => by
    rw [valuesOf, List.filter_append, List.map_append]
    rfl
  have hlast : (valuesOf tagSide (readFields line ++ extra)).getLast?.map sideOf = some σ := by
    obtain ⟨val, hval, hσ⟩ := Option.map_eq_some_iff.mp hside
    rw [happend, List.getLast?_append, hval, Option.some_or, Option.map_some, hσ]
  rw [hread, readingOf, hlast, happend, happend, happend, happend, hother tagId (by decide) (by decide),
    hother tagSymbol (by decide) (by decide), hother tagPrice (by decide) (by decide),
    hother tagQuantity (by decide) (by decide)]
  simp only [List.append_nil]
  rfl

theorem symbolValues_counterLine : symbolValues (counterLine σ line) = symbolValues line := by
  obtain ⟨extra, hread, hother, -⟩ := readFields_counterLine σ line
  rw [symbolValues, hread, valuesOf, List.filter_append, List.map_append]
  exact (congrArg _ (hother tagSymbol (by decide) (by decide))).trans (List.append_nil _)

end Counter

/-! ### Two lines in every file -/

section Isolation

variable (atof : List UInt8 → ℚ)

/-- The price of the line is one that the engine admits. -/
def Tradable (line : List UInt8) : Prop :=
  -3 / 200 < (readingOf atof (readFields line)).price ∧
    100 * (readingOf atof (readFields line)).price + 1 / 2 < maxTicks

/-- In the replay of the file, no trade is of both lines, and executions of the one and of the other are
never booked under one symbol. -/
def Isolated (now clock : ℕ → Int64) (file : List UInt8) (i j : ℕ) : Prop :=
  ∃ orders s log L, start atof now file = .ok orders ∧
    (OrderBook.new clock).acceptAll orders = .ok (s, log) ∧
    (OrderBook.new clock).track Ledger.empty orders = .ok (s, L) ∧
    L.fills.map Attributed.trade = log ∧
    (∀ f ∈ L.fills, ¬ (f.Of i ∧ f.Of j)) ∧
    ∀ f ∈ L.fills, ∀ g ∈ L.fills, f.Of i → g.Of j → f.trade.exec.key ≠ g.trade.exec.key

variable {atof} {now clock : ℕ → Int64} {file line line₁ line₂ : List UInt8} {i j : ℕ}

theorem ordersFrom_getElem? (h : (lines file)[i]? = some line) :
    (ordersFrom atof now 0 (lines file))[i]? = some (readOrder atof (now i) line) := by
  rw [ordersFrom, List.getElem?_mapIdx, h, Option.map_some, Nat.zero_add]

theorem tradable_iff_at (arrivalNs : Int64) :
    Tradable atof line ↔ ∃ l, (readOrder atof arrivalNs line).At l := by
  have hpos : 0 < maxTicks := by
    unfold maxTicks
    norm_num
  have hprice : (readOrder atof arrivalNs line).price = (readingOf atof (readFields line)).price :=
    congrArg Reading.price (readOrder_reading atof arrivalNs line)
  rw [Tradable, ← hprice, ← priceToTick_nonneg_iff, ← priceToTick_lt_iff hpos]
  constructor
  · rintro ⟨h0, hlt⟩
    exact ⟨(_, _, (priceToTick (readOrder atof arrivalNs line).price).toNat), rfl, rfl, by simp only; omega,
      by simp only; omega⟩
  · rintro ⟨l, -, -, htick, hlt⟩
    omega

theorem fill_of_line {s : OrderBook} {L : Ledger} (hline : (lines file)[i]? = some line)
    (htrack : (OrderBook.new clock).track Ledger.empty (ordersFrom atof now 0 (lines file)) =
      .ok (s, L)) {f : Attributed} (hf : f ∈ L.fills) (hof : f.Of i) :
    f.trade.exec.key = symbolText (symbolValues line) ∧ Tradable atof line := by
  obtain ⟨s', log, L', -, htrack', -, -, hsym⟩ :=
    OrderBook.track_symbols clock (ordersFrom atof now 0 (lines file))
  obtain ⟨-, rfl⟩ : s' = s ∧ L' = L := by simpa using htrack'.symm.trans htrack
  obtain ⟨o, ho, hAt, hexec⟩ := hsym f hf i hof
  obtain rfl : readOrder atof (now i) line = o := by simpa [ordersFrom_getElem? hline] using ho
  refine ⟨?_, (tradable_iff_at (now i)).mpr hAt⟩
  have hsymbol := symbol_readOrder atof (now i) line
  have hlast : (readOrder atof (now i) line).symbol 7 = 0 := hsymbol ▸ symbolOf_last _
  rw [Execution.key, hexec, CharArray.text_strncpy rfl hlast, hsymbol, text_symbolOf]

theorem isolated_of (hi : (lines file)[i]? = some line₁) (hj : (lines file)[j]? = some line₂)
    (h : symbolText (symbolValues line₁) ≠ symbolText (symbolValues line₂) ∨
      ¬ Tradable atof line₁ ∨ ¬ Tradable atof line₂) : Isolated atof now clock file i j := by
  obtain ⟨s, log, L, hall, htrack, hlog, -⟩ :=
    OrderBook.track_symbols clock (ordersFrom atof now 0 (lines file))
  have hkeys : ∀ f ∈ L.fills, ∀ g ∈ L.fills, f.Of i → g.Of j →
      f.trade.exec.key ≠ g.trade.exec.key := fun f hf g hg hfi hgj e => by
    obtain ⟨hkey₁, htradable₁⟩ := fill_of_line hi htrack hf hfi
    obtain ⟨hkey₂, htradable₂⟩ := fill_of_line hj htrack hg hgj
    rcases h with hne | hnot | hnot
    · exact hne (hkey₁.symm.trans (e.trans hkey₂))
    · exact hnot htradable₁
    · exact hnot htradable₂
  exact ⟨_, s, log, L, start_eq atof now file, hall, htrack, hlog,
    fun f hf hof => hkeys f hf f hf hof.1 hof.2 rfl, hkeys⟩

/-- The file of two lines, each with its counterpart behind it. -/
def pairsFile (atof : List UInt8 → ℚ) (line₁ line₂ : List UInt8) : List UInt8 :=
  [10].intercalate [line₁, counterLine (readingOf atof (readFields line₁)).orderType.opp line₁,
    line₂, counterLine (readingOf atof (readFields line₂)).orderType.opp line₂]

theorem lines_intercalate {ls : List (List UInt8)} (h : ∀ l ∈ ls, l ≠ [] ∧ 10 ∉ l) (hne : ls ≠ []) :
    lines ([10].intercalate ls) = ls := by
  rw [lines, List.splitOn_intercalate 10 (fun l hl => (h l hl).2) hne]
  exact List.filter_eq_self.mpr fun l hl => decide_eq_true (h l hl).1

theorem lines_pairsFile (atof : List UInt8 → ℚ) (h₁ : line₁ ≠ [] ∧ 10 ∉ line₁) (h₂ : line₂ ≠ [] ∧ 10 ∉ line₂) :
    lines (pairsFile atof line₁ line₂) =
      [line₁, counterLine (readingOf atof (readFields line₁)).orderType.opp line₁,
        line₂, counterLine (readingOf atof (readFields line₂)).orderType.opp line₂] := by
  have hcounter : ∀ σ line, line ≠ [] ∧ 10 ∉ line →
      counterLine σ line ≠ [] ∧ 10 ∉ counterLine σ line := by
    rintro σ line ⟨hne, hno⟩
    refine ⟨by simp [counterLine], ?_⟩
    cases σ <;> simp [counterLine, sideByte, hno]
  refine lines_intercalate ?_ (by simp)
  simp only [List.forall_mem_cons, List.not_mem_nil, false_implies, implies_true, and_true]
  exact ⟨h₁, hcounter _ line₁ h₁, h₂, hcounter _ line₂ h₂⟩

theorem track_counterpart {s : OrderBook} {v : View} (L : Ledger) (t t' : Int64)
    (hrep : Rep s.pool s.books v) (hv : v.Vacant) (h : Tradable atof line) :
    ∃ (s' : OrderBook) (v' : View) (L' : Ledger) (f : Attributed),
      (∀ os, s.track L (readOrder atof t line :: readOrder atof t'
        (counterLine (readingOf atof (readFields line)).orderType.opp line) :: os) = s'.track L' os) ∧
      Rep s'.pool s'.books v' ∧ v'.Vacant ∧ L'.next = L.next + 2 ∧ L'.fills = L.fills ++ [f] ∧
      f.Of L.next := by
  have hback : ∀ σ : OrderType, σ.opp.opp = σ := fun σ => by cases σ <;> rfl
  generalize hσ : (readingOf atof (readFields line)).orderType.opp = σ
  have hreading := readOrder_reading atof t line
  have hreading' := readOrder_reading atof t' (counterLine σ line)
  rw [readingOf_counterLine, ← hreading] at hreading'
  have hsymbol : (readOrder atof t' (counterLine σ line)).symbol = (readOrder atof t line).symbol := by
    rw [symbol_readOrder, symbol_readOrder, symbolValues_counterLine]
  obtain ⟨⟨k, τ, tick⟩, hkey, hside, htick, hlt⟩ := (tradable_iff_at t).mp h
  have hτ : (readOrder atof t line).orderType = σ.opp := by
    rw [← hσ, hback, ← congrArg Reading.orderType hreading]
    rfl
  refine OrderBook.track_pair (k := k) (σ := σ) (t := tick) L hrep hv ⟨hkey, hτ, htick, hlt⟩
    ⟨?_, ?_, ?_, hlt⟩ ?_
  · rw [hsymbol]
    exact hkey
  · exact congrArg Reading.orderType hreading'
  · rw [show (readOrder atof t' (counterLine σ line)).price = (readOrder atof t line).price from
      congrArg Reading.price hreading']
    exact htick
  · exact (congrArg Reading.quantity hreading').symm

theorem fills_pairsFile (clock now : ℕ → Int64) (h₁ : line₁ ≠ [] ∧ 10 ∉ line₁)
    (h₂ : line₂ ≠ [] ∧ 10 ∉ line₂) (ht₁ : Tradable atof line₁) (ht₂ : Tradable atof line₂) :
    ∃ s L, (OrderBook.new clock).track Ledger.empty
        (ordersFrom atof now 0 (lines (pairsFile atof line₁ line₂))) = .ok (s, L) ∧
      (∃ f ∈ L.fills, f.Of 0) ∧ ∃ g ∈ L.fills, g.Of 2 := by
  obtain ⟨s, v, L, f, htrack, hrep, hv, hnext, hfills, hf⟩ :=
    track_counterpart Ledger.empty (now 0) (now 1) (s := .new clock) Rep.new View.new_vacant ht₁
  obtain ⟨s', v', L', g, htrack', -, -, -, hfills', hg⟩ :=
    track_counterpart L (now 2) (now 3) hrep hv ht₂
  refine ⟨s', L', ?_, ⟨f, by simp [hfills', hfills], hf⟩, g, by simp [hfills'], ?_⟩
  · rw [lines_pairsFile atof h₁ h₂, ordersFrom_cons, ordersFrom_cons, ordersFrom_cons, ordersFrom_cons,
      htrack, htrack']
    rfl
  · rwa [hnext] at hg

/-- **Instruments are isolated** in every file, for two lines, exactly if what the reader keeps of their
symbols differs or the price of one of them is not admitted. -/
theorem instruments_isolated (atof : List UInt8 → ℚ) (line₁ line₂ : List UInt8)
    (h₁ : line₁ ≠ [] ∧ 10 ∉ line₁) (h₂ : line₂ ≠ [] ∧ 10 ∉ line₂) :
    (∀ now clock file i j, (lines file)[i]? = some line₁ → (lines file)[j]? = some line₂ →
      Isolated atof now clock file i j) ↔
    symbolText (symbolValues line₁) ≠ symbolText (symbolValues line₂) ∨
      ¬ Tradable atof line₁ ∨ ¬ Tradable atof line₂ := by
  constructor
  · intro h
    by_contra! hsame
    obtain ⟨htext, ht₁, ht₂⟩ := hsame
    have hlines := lines_pairsFile atof h₁ h₂
    have hi : (lines (pairsFile atof line₁ line₂))[0]? = some line₁ := by simp [hlines]
    have hj : (lines (pairsFile atof line₁ line₂))[2]? = some line₂ := by simp [hlines]
    obtain ⟨s, L, htrack, ⟨f, hf, hf0⟩, g, hg, hg2⟩ :=
      fills_pairsFile (fun _ => 0) (fun _ => 0) h₁ h₂ ht₁ ht₂
    obtain ⟨orders, s', log, L', hstart, -, htrack', -, -, hkeys⟩ :=
      h (fun _ => 0) (fun _ => 0) _ 0 2 hi hj
    obtain rfl : _ = orders := by simpa [start_eq] using hstart
    obtain ⟨-, rfl⟩ : s = s' ∧ L = L' := by simpa using htrack.symm.trans htrack'
    apply hkeys f hf g hg hf0 hg2
    rw [(fill_of_line hi htrack hf hf0).1, (fill_of_line hj htrack hg hg2).1, htext]
  · intro h now clock file i j hi hj
    exact isolated_of hi hj h

/-- The lines `55=A|54=1|44=1|38=5` and `55=B|54=1|44=1|38=5`, each with its counterpart behind it: both
trade, and their executions have different symbols. -/
theorem instruments_isolated_pair :
    let lineA := format [(tagSymbol, [65]), (tagSide, [49]), (tagPrice, [49]), (tagQuantity, [53])]
    let lineB := format [(tagSymbol, [66]), (tagSide, [49]), (tagPrice, [49]), (tagQuantity, [53])]
    ∃ s L, (OrderBook.new fun _ => 0).track Ledger.empty
        (ordersFrom (fun _ => 1) (fun _ => 0) 0 (lines (pairsFile (fun _ => 1) lineA lineB))) =
          .ok (s, L) ∧
      (∃ f ∈ L.fills, f.Of 0) ∧ (∃ g ∈ L.fills, g.Of 2) ∧
      ∀ f ∈ L.fills, ∀ g ∈ L.fills, f.Of 0 → g.Of 2 → f.trade.exec.key ≠ g.trade.exec.key := by
  intro lineA lineB
  have hA : lineA ≠ [] ∧ 10 ∉ lineA := by decide
  have hB : lineB ≠ [] ∧ 10 ∉ lineB := by decide
  have htradable : ∀ line, (readingOf (fun _ => 1) (readFields line)).price = 1 →
      Tradable (fun _ => 1) line := fun line hprice => by
    rw [Tradable, hprice]
    unfold maxTicks
    norm_num
  have htext : symbolText (symbolValues lineA) ≠ symbolText (symbolValues lineB) := by decide
  obtain ⟨s, L, htrack, hf, hg⟩ := fills_pairsFile (fun _ => 0) (fun _ => 0) hA hB
    (htradable lineA (by decide)) (htradable lineB (by decide))
  have hlines := lines_pairsFile (fun _ => 1) hA hB
  obtain ⟨orders, s', log, L', hstart, -, htrack', -, -, hkeys⟩ :=
    (instruments_isolated (fun _ => 1) lineA lineB hA hB).mpr (Or.inl htext) (fun _ => 0) (fun _ => 0)
      (pairsFile (fun _ => 1) lineA lineB) 0 2 (by simp [hlines]) (by simp [hlines])
  obtain rfl : _ = orders := by simpa [start_eq] using hstart
  obtain ⟨-, rfl⟩ : s = s' ∧ L = L' := by simpa using htrack.symm.trans htrack'
  exact ⟨s, L, htrack, hf, hg, hkeys⟩

end Isolation

/-- `AAPL240119C150` of the reference data. -/
def callSymbol : List UInt8 := [65, 65, 80, 76, 50, 52, 48, 49, 49, 57, 67, 49, 53, 48]

/-- `AAPL240119P140` of the reference data. -/
def putSymbol : List UInt8 := [65, 65, 80, 76, 50, 52, 48, 49, 49, 57, 80, 49, 52, 48]

/-- The line `55=…|54=…|44=1|38=5`. -/
def optionLine (symbol side : List UInt8) : List UInt8 :=
  format [(tagSymbol, symbol), (tagSide, side), (tagPrice, [49]), (tagQuantity, [53])]

/-- An order to buy the call and one to sell the put trade with each other. -/
theorem instruments_option_pair :
    valuesOf tagSymbol (fields (optionLine callSymbol [49])) = [callSymbol] ∧
      valuesOf tagSymbol (fields (optionLine putSymbol [50])) = [putSymbol] ∧
      callSymbol ≠ putSymbol ∧
      ∃ orders s L, start (fun _ => 1) (fun _ => 0)
          (optionLine callSymbol [49] ++ 10 :: optionLine putSymbol [50]) = .ok orders ∧
        (OrderBook.new fun _ => 0).track Ledger.empty orders = .ok (s, L) ∧
        ∃ f ∈ L.fills, f.buyer = 0 ∧ f.seller = 1 := by
  have hlines : lines (optionLine callSymbol [49] ++ 10 :: optionLine putSymbol [50]) =
      [optionLine callSymbol [49], optionLine putSymbol [50]] := by decide
  let call := readOrder (fun _ => 1) 0 (optionLine callSymbol [49])
  let put := readOrder (fun _ => 1) 0 (optionLine putSymbol [50])
  have hcall : call.orderType = .buy := by decide
  have hput : put.orderType = .sell := by decide
  obtain ⟨s, log, L, hall, htrack, hlog, hfair, -⟩ :=
    OrderBook.track_symbols (fun _ => 0) [call, put]
  -- the textbook engine has one fill for the two
  have hpos : ∀ o ∈ [call, put], 0 < o.quantity := by decide
  obtain ⟨s', v, log', hall', -, -, -, -, hfills⟩ := OrderBook.acceptAll_models (fun _ => 0) hpos
  obtain ⟨-, rfl⟩ : s = s' ∧ log = log' := by simpa using hall.symm.trans hall'
  have hone : L.fills.length = 1 := by
    have hlen := congrArg List.length hfills
    rw [← hlog, List.length_map, List.length_map] at hlen
    exact hlen.trans (by decide +kernel)
  obtain ⟨f, hf⟩ := List.length_eq_one_iff.mp hone
  have hmem : f ∈ L.fills := by simp [hf]
  have hsides : ∀ n o, [call, put][n]? = some o → (o.orderType = .buy → n = 0) ∧
      (o.orderType = .sell → n = 1) := by
    rintro (_ | _ | n) o ho
    · obtain rfl : call = o := by simpa using ho
      simp [hcall]
    · obtain rfl : put = o := by simpa using ho
      simp [hput]
    · simp at ho
  obtain ⟨-, o, q, ho, hbuy, -⟩ := (hfair f hmem).buyer
  obtain ⟨-, o', q', ho', hsell, -⟩ := (hfair f hmem).seller
  refine ⟨by decide, by decide, by decide, [call, put], s, L, ?_, htrack, f, hmem,
    (hsides _ o ho).1 hbuy, (hsides _ o' ho').2 hsell⟩
  rw [start_eq, hlines]
  rfl

end FixSessionReader

end TradingSim
