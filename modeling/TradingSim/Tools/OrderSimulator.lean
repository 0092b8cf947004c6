import TradingSim.Fix.Format
import TradingSim.Lib.Rounding
import TradingSim.Reference.InstrumentStore
import TradingSim.System.Report

/-!
`fix_order_simulator`: the tool that writes `config/orders.fix`.

The draws of its distributions are parameters, the others of its steps are as the code has them: the walk
of the prices in `double`s with its floor, and the text of a line with its padded number and its price to two
places. Whatever is drawn, `FixSessionReader` reads the file back as the orders that were meant, and every
price is filed at the tick of the cents that were written (`start_ordersFix`). The reader's `atof` is a
parameter; one that gives the nearest `double` of the text is good enough (`legible_of_nearest`).
-/

namespace TradingSim

open Lib FixSessionReader

namespace FixOrderSimulator

/-! ### The tool -/

structure SimSymbol where
  symbol : List UInt8
  currentPrice : ℚ
  vol : ℚ

/-- `symbols`. -/
def symbols : Fin 6 → SimSymbol :=
  ![⟨ascii "AAPL", 150, toDouble (10 / 100)⟩, ⟨ascii "MSFT", 300, toDouble (15 / 100)⟩,
    ⟨ascii "GOOGL", 140, toDouble (10 / 100)⟩, ⟨ascii "TSLA", 200, toDouble (20 / 100)⟩,
    ⟨ascii "ESZ4", 4500, 1⟩, ⟨ascii "GBPUSD", 125 / 100, toDouble (2 / 1000)⟩]

/-- What the four distributions give for one order. -/
structure Draw where
  sym : Fin 6
  noise : ℚ
  side : Fin 2
  qty : ℕ
  qty_mem : 10 ≤ qty ∧ qty ≤ 100

/-- The step of the random walk. -/
def walk (symbols : Fin 6 → SimSymbol) (d : Draw) : Fin 6 → SimSymbol :=
  let sym := symbols d.sym
  let price := toDouble (sym.currentPrice + toDouble (d.noise * sym.vol))
  Function.update symbols d.sym
    { sym with currentPrice := if price < toDouble (1 / 100) then toDouble (1 / 100) else price }

/-- `std::setw(5) << std::setfill('0') << i`. -/
def setw5 (i : ℕ) : List UInt8 := padded 5 i

/-- A price to two places, in cents: the nearest, and of two the even one. -/
def cents (price : ℚ) : ℕ := (roundEven (price * 100)).toNat

/-- The text of a number of cents: `std::fixed << std::setprecision(2)`. -/
def fixedText (c : ℕ) : List UInt8 :=
  decimal (c / 100) ++ [46, digitByte (c / 10 % 10), digitByte (c % 10)]

/-- One line of the file. -/
def line (i : ℕ) (sym : SimSymbol) (d : Draw) : List UInt8 :=
  ascii "11=ORD" ++ setw5 i ++ ascii "|35=D" ++ ascii "|55=" ++ sym.symbol ++
    ascii "|54=" ++ (if d.side = 0 then ascii "1" else ascii "2") ++
    ascii "|44=" ++ fixedText (cents sym.currentPrice) ++ ascii "|38=" ++ decimal d.qty ++ [10]

/-- The loop from `i` on. -/
def writeFrom (i : ℕ) (symbols : Fin 6 → SimSymbol) : List Draw → List UInt8
  | [] => []
  | d :: draws =>
    line i (walk symbols d d.sym) d ++ writeFrom (i + 1) (walk symbols d) draws

/-- `config/orders.fix`, with one draw for each order. -/
def ordersFix (draws : List Draw) : List UInt8 := writeFrom 1 symbols draws

/-! ### The orders that are meant -/

/-- What the order of a round is to be read as. -/
def meant (atof : List UInt8 → ℚ) (i : ℕ) (sym : SimSymbol) (d : Draw) : Reading where
  id := ascii "ORD" ++ setw5 i
  symbol := sym.symbol
  orderType := if d.side = 0 then .buy else .sell
  price := atof (fixedText (cents sym.currentPrice))
  quantity := Int32.ofNat d.qty

def meantFrom (atof : List UInt8 → ℚ) (i : ℕ) (symbols : Fin 6 → SimSymbol) : List Draw → List Reading
  | [] => []
  | d :: draws => meant atof i (walk symbols d d.sym) d :: meantFrom atof (i + 1) (walk symbols d) draws

/-- The prices that are written, in cents. -/
def centsFrom (symbols : Fin 6 → SimSymbol) : List Draw → List ℕ
  | [] => []
  | d :: draws => cents (walk symbols d d.sym).currentPrice :: centsFrom (walk symbols d) draws

/-! ### The walk -/

variable {prices : Fin 6 → SimSymbol} {d : Draw} {i c : ℕ}

/-- The floor of the prices is a cent, but for a rounding error. -/
theorem abs_floor_sub_le : |toDouble (1 / 100) - 1 / 100| ≤ 1 / 1000 := by
  refine (abs_roundTo_sub_le 53 (1 / 100)).trans ?_
  rw [abs_of_pos (by norm_num)]
  norm_num

/-- The symbols stay those of the table, and the prices at the floor or above. -/
def Sound (prices : Fin 6 → SimSymbol) : Prop :=
  ∀ k, (prices k).symbol = (symbols k).symbol ∧ toDouble (1 / 100) ≤ (prices k).currentPrice

theorem sound_symbols : Sound symbols := by
  have hfloor := (abs_le.mp abs_floor_sub_le).2
  intro k
  refine ⟨rfl, le_trans (show toDouble (1 / 100) ≤ 1 by linarith) ?_⟩
  fin_cases k <;> norm_num [symbols]

theorem Sound.walk (h : Sound prices) (d : Draw) : Sound (walk prices d) := by
  intro k
  by_cases hk : k = d.sym
  · subst hk
    simp only [FixOrderSimulator.walk, Function.update_self]
    refine ⟨(h _).1, ?_⟩
    split
    · exact le_rfl
    · rename_i hle
      exact not_lt.mp hle
  · simp only [FixOrderSimulator.walk, Function.update_of_ne hk]
    exact h k

theorem cents_pos {price : ℚ} (h : toDouble (1 / 100) ≤ price) : 0 < cents price := by
  have hfloor := (abs_le.mp abs_floor_sub_le).1
  have hround := (neg_le_abs _).trans (abs_roundEven_sub_le_half (price * 100))
  have hpos : (0 : ℚ) < roundEven (price * 100) := by linarith
  have hint : 0 < roundEven (price * 100) := by exact_mod_cast hpos
  rw [cents]
  omega

/-! ### A line -/

/-- The fields of a line. -/
def fieldsOf (i : ℕ) (sym : SimSymbol) (d : Draw) : List Field :=
  [(tagId, ascii "ORD" ++ setw5 i), (tagMsgType, [68]), (tagSymbol, sym.symbol),
    (tagSide, if d.side = 0 then [49] else [50]), (tagPrice, fixedText (cents sym.currentPrice)),
    (tagQuantity, decimal d.qty)]

theorem line_eq (i : ℕ) (sym : SimSymbol) (d : Draw) :
    line i sym d = format (fieldsOf i sym d) ++ [10] := by
  have hside : (if d.side = 0 then ascii "1" else ascii "2") = if d.side = 0 then [49] else [50] := rfl
  have htexts : ascii "11=ORD" = [49, 49, 61] ++ ascii "ORD" ∧ ascii "|35=D" = [124, 51, 53, 61, 68] ∧
      ascii "|55=" = [124, 53, 53, 61] ∧ ascii "|54=" = [124, 53, 52, 61] ∧
      ascii "|44=" = [124, 52, 52, 61] ∧ ascii "|38=" = [124, 51, 56, 61] := by decide
  obtain ⟨hid, htype, hsymbol, hside', hprice, hqty⟩ := htexts
  rw [line, hside, hid, htype, hsymbol, hside', hprice, hqty]
  simp [format, join, fieldsOf, tagId, tagMsgType, tagSymbol, tagSide, tagPrice, tagQuantity,
    List.intercalate]

theorem fixedText_bytes (c : ℕ) : ∀ b ∈ fixedText c, IsDigit b ∨ b = 46 := by
  intro b hb
  rcases List.mem_append.mp hb with hb | hb
  · exact Or.inl (decimal_digits _ b hb)
  · simp only [List.mem_cons, List.not_mem_nil, or_false] at hb
    rcases hb with rfl | rfl | rfl
    · exact Or.inr rfl
    · exact Or.inl (isDigit_digitByte (Nat.mod_lt _ (by norm_num)))
    · exact Or.inl (isDigit_digitByte (Nat.mod_lt _ (by norm_num)))

/-- The price is inside the book, and what `atof` reads is filed at the tick of the cents. -/
def Legible (atof : List UInt8 → ℚ) (c : ℕ) : Prop :=
  c < maxTicks ∧ priceToTick (atof (fixedText c)) = c

/-- The nearest `double` of a price is no more than a small part of a cent away from it. -/
theorem legible_of_nearest {atof : List UInt8 → ℚ} (hc : c < maxTicks)
    (hread : atof (fixedText c) = toDouble ((c : ℚ) / 100)) : Legible atof c := by
  refine ⟨hc, ?_⟩
  have hticks : (c : ℚ) < 500000 := by
    unfold maxTicks at hc
    exact_mod_cast hc
  have herror := abs_le.mp (abs_roundTo_sub_le 53 ((c : ℚ) / 100))
  rw [abs_of_nonneg (by positivity)] at herror
  have hnonneg : (0 : ℚ) ≤ c := Nat.cast_nonneg c
  rw [hread, priceToTick, truncate, if_pos (by linarith), Int.floor_eq_iff, Int.cast_natCast]
  constructor <;> linarith

theorem length_fixedText (h : c < maxTicks) : (fixedText c).length ≤ 31 := by
  have hticks : c < 500000 := by
    unfold maxTicks at h
    exact h
  have hle : (decimal (c / 100)).length ≤ 4 := length_decimal (by norm_num) (by omega)
  rw [fixedText, List.length_append, List.length_cons, List.length_cons, List.length_singleton]
  omega

theorem symbol_fits (k : Fin 6) : (symbols k).symbol.length ≤ 7 ∧
    0 ∉ (symbols k).symbol ∧ 10 ∉ (symbols k).symbol ∧ 124 ∉ (symbols k).symbol := by
  revert k
  decide

theorem writable_fieldsOf {sym : SimSymbol} (hsym : 124 ∉ sym.symbol) :
    ∀ field ∈ fieldsOf i sym d, Writable field := by
  have htags : ∀ tag ∈ tagMsgType :: knownTags, 61 ∉ tag ∧ 124 ∉ tag := by decide
  have hdigits : ∀ text : List UInt8, (∀ b ∈ text, IsDigit b) → 124 ∉ text :=
    fun text h hmem => (h _ hmem).ne_bar rfl
  intro field hfield
  have htag : field.1 ∈ tagMsgType :: knownTags := by
    revert field
    simp [fieldsOf, knownTags]
  refine ⟨(htags _ htag).1, (htags _ htag).2, ?_⟩
  simp only [fieldsOf, List.mem_cons, List.not_mem_nil, or_false] at hfield
  rcases hfield with rfl | rfl | rfl | rfl | rfl | rfl
  · rw [List.mem_append, not_or]
    exact ⟨by decide, hdigits _ (padded_digits 5 i)⟩
  · decide
  · exact hsym
  · simp only
    split <;> decide
  · intro hmem
    rcases fixedText_bytes _ _ hmem with hdigit | hpoint
    · exact hdigit.ne_bar rfl
    · exact absurd hpoint (by decide)
  · exact hdigits _ (decimal_digits _)

/-- **A line is read as the order that was meant.** -/
theorem reading_line {atof : List UInt8 → ℚ} {sym : SimSymbol} (now : Int64) (hi : i < 100000)
    (hlen : sym.symbol.length ≤ 7) (hnul : 0 ∉ sym.symbol) (hbar : 124 ∉ sym.symbol)
    (hprice : Legible atof (cents sym.currentPrice)) :
    (readOrder atof now (format (fieldsOf i sym d))).reading = meant atof i sym d := by
  have hid : stored 15 (ascii "ORD" ++ setw5 i) = ascii "ORD" ++ setw5 i := by
    refine stored_eq ?_ ?_
    · rw [List.length_append, setw5, length_padded (by norm_num) hi]
      decide
    · rw [List.mem_append, not_or]
      refine ⟨by decide, fun hmem => ?_⟩
      exact absurd (padded_digits 5 i _ hmem).1 (by decide)
  have hside : sideOf (if d.side = 0 then [49] else [50]) = if d.side = 0 then .buy else .sell := by
    split <;> rfl
  have hqty : digits (decimal d.qty) = Int32.ofNat d.qty := by
    have hle := d.qty_mem.2
    apply Int32.toInt_inj.mp
    rw [(decimal_denotes d.qty).toInt_digits (by omega), Int32.toInt_ofNat_of_lt (by omega)]
  rw [readOrder_reading, readFields_format (writable_fieldsOf hbar)]
  have hvalues : valuesOf tagId (fieldsOf i sym d) = [ascii "ORD" ++ setw5 i] ∧
      valuesOf tagSymbol (fieldsOf i sym d) = [sym.symbol] ∧
      valuesOf tagSide (fieldsOf i sym d) = [if d.side = 0 then [49] else [50]] ∧
      valuesOf tagPrice (fieldsOf i sym d) = [fixedText (cents sym.currentPrice)] ∧
      valuesOf tagQuantity (fieldsOf i sym d) = [decimal d.qty] := ⟨rfl, rfl, rfl, rfl, rfl⟩
  obtain ⟨hvid, hvsym, hvside, hvprice, hvqty⟩ := hvalues
  simp only [readingOf, meant, hvid, hvsym, hvside, hvprice, hvqty, List.getLast?_singleton,
    Option.map_some, Option.getD_some, hid, stored_eq hlen hnul, hside,
    List.take_of_length_le (length_fixedText hprice.1), hqty]

theorem newline_not_mem {sym : SimSymbol} (hsym : 10 ∉ sym.symbol) :
    10 ∉ format (fieldsOf i sym d) := by
  have heq : ascii "11=ORD" ++ setw5 i ++ ascii "|35=D" ++ ascii "|55=" ++ sym.symbol ++
      ascii "|54=" ++ (if d.side = 0 then ascii "1" else ascii "2") ++
      ascii "|44=" ++ fixedText (cents sym.currentPrice) ++ ascii "|38=" ++ decimal d.qty =
        format (fieldsOf i sym d) := List.append_cancel_right (line_eq i sym d)
  have hdigits : ∀ text : List UInt8, (∀ b ∈ text, IsDigit b) → 10 ∉ text :=
    fun text h hmem => absurd (h _ hmem).1 (by decide)
  rw [← heq]
  simp only [List.mem_append, not_or]
  refine ⟨⟨⟨⟨⟨⟨⟨⟨⟨⟨by decide, hdigits _ (padded_digits 5 i)⟩, by decide⟩, by decide⟩,
    hsym⟩, by decide⟩, ?_⟩, by decide⟩, ?_⟩, by decide⟩,
    hdigits _ (decimal_digits _)⟩
  · split <;> decide
  · intro hmem
    rcases fixedText_bytes _ _ hmem with hdigit | hpoint
    · exact absurd hdigit.1 (by decide)
    · exact absurd hpoint (by decide)

/-! ### The file -/

variable {atof : List UInt8 → ℚ} {draws : List Draw}

theorem lines_writeFrom_cons (h : Sound prices) :
    lines (writeFrom i prices (d :: draws)) =
      format (fieldsOf i (walk prices d d.sym) d) :: lines (writeFrom (i + 1) (walk prices d) draws) := by
  have hsym : 10 ∉ (walk prices d d.sym).symbol := by
    rw [((h.walk d) d.sym).1]
    exact (symbol_fits d.sym).2.2.1
  have hne : format (fieldsOf i (walk prices d d.sym) d) ≠ [] := by
    simp [format, join, fieldsOf, tagId, List.intercalate]
  rw [writeFrom, line_eq, List.append_assoc, List.singleton_append, lines_append (newline_not_mem hsym),
    if_neg hne]

theorem readings_writeFrom (now : ℕ → Int64) (n : ℕ) (h : Sound prices)
    (hi : i + draws.length ≤ 100000) (hprice : ∀ c ∈ centsFrom prices draws, Legible atof c) :
    (ordersFrom atof now n (lines (writeFrom i prices draws))).map Order.reading =
      meantFrom atof i prices draws := by
  induction draws generalizing i prices n with
  | nil => rfl
  | cons d draws ih =>
    rw [List.length_cons] at hi
    obtain ⟨hfirst, hrest⟩ := List.forall_mem_cons.mp hprice
    have hsymbol := ((h.walk d) d.sym).1
    have hfits := symbol_fits d.sym
    rw [← hsymbol] at hfits
    rw [lines_writeFrom_cons h, ordersFrom_cons, List.map_cons,
      reading_line (now n) (by omega) hfits.1 hfits.2.1 hfits.2.2.2 hfirst,
      ih (n + 1) (h.walk d) (by omega) hrest, meantFrom]

theorem length_meantFrom : (meantFrom atof i prices draws).length = draws.length := by
  induction draws generalizing i prices with
  | nil => rfl
  | cons d draws ih => rw [meantFrom, List.length_cons, ih, List.length_cons]

theorem ticks_meantFrom (hprice : ∀ c ∈ centsFrom prices draws, Legible atof c) :
    (meantFrom atof i prices draws).map (fun r => priceToTick r.price) =
      (centsFrom prices draws).map Nat.cast := by
  induction draws generalizing i prices with
  | nil => rfl
  | cons d draws ih =>
    obtain ⟨hfirst, hrest⟩ := List.forall_mem_cons.mp hprice
    rw [meantFrom, centsFrom, List.map_cons, List.map_cons, ih hrest]
    exact congrArg (· :: _) hfirst.2

theorem centsFrom_pos (h : Sound prices) : ∀ c ∈ centsFrom prices draws, 0 < c := by
  induction draws generalizing prices with
  | nil => simp [centsFrom]
  | cons d draws ih =>
    exact List.forall_mem_cons.mpr ⟨cents_pos ((h.walk d) d.sym).2, ih (h.walk d)⟩

theorem forall_mem_meantFrom (h : Sound prices) :
    ∀ r ∈ meantFrom atof i prices draws, (∃ k, r.symbol = (symbols k).symbol) ∧
      10 ≤ r.quantity.toInt ∧ r.quantity.toInt ≤ 100 := by
  induction draws generalizing i prices with
  | nil => simp [meantFrom]
  | cons d draws ih =>
    obtain ⟨hsymbol, -⟩ := (h.walk d) d.sym
    intro r hr
    rcases List.mem_cons.mp hr with rfl | hr
    · refine ⟨⟨d.sym, hsymbol⟩, ?_⟩
      obtain ⟨hmin, hmax⟩ := d.qty_mem
      rw [meant, Int32.toInt_ofNat_of_lt (by omega)]
      omega
    · exact ih (h.walk d) r hr

/-- **The reader reads what the simulator writes.** For all draws, as long as there are fewer than a hundred
thousand, the prices stay inside the book and `atof` reads each of them as a number of its tick: the file is
read as one order for each draw, and each as it was meant, with the id and its number, the symbol, the side,
the price of the text and the quantity. The ticks of the orders are the cents that were written, one or more,
and every order is of a symbol that `main` subscribes to and of ten to a hundred units. -/
theorem start_ordersFix (now : ℕ → Int64) (hn : draws.length < 100000)
    (hprice : ∀ c ∈ centsFrom symbols draws, Legible atof c) :
    ∃ orders, start atof now (ordersFix draws) = .ok orders ∧
      orders.map Order.reading = meantFrom atof 1 symbols draws ∧ orders.length = draws.length ∧
      orders.map (fun o => priceToTick o.price) = (centsFrom symbols draws).map Nat.cast ∧
      (∀ c ∈ centsFrom symbols draws, 0 < c) ∧
      ∀ o ∈ orders, o.symbol.text ∈ Process.symbols ∧
        10 ≤ o.quantity.toInt ∧ o.quantity.toInt ≤ 100 := by
  have hread : (ordersFrom atof now 0 (lines (ordersFix draws))).map Order.reading =
      meantFrom atof 1 symbols draws := readings_writeFrom now 0 sound_symbols (by omega) hprice
  refine ⟨_, start_eq atof now _, hread, ?_, ?_, centsFrom_pos sound_symbols, ?_⟩
  · rw [← List.length_map (f := Order.reading), hread, length_meantFrom]
  · rw [← ticks_meantFrom hprice, ← hread, List.map_map]
    rfl
  · intro o ho
    have hmeant : o.reading ∈ meantFrom atof 1 symbols draws := by
      rw [← hread]
      exact List.mem_map_of_mem ho
    obtain ⟨⟨k, hsymbol⟩, hqty⟩ := forall_mem_meantFrom sound_symbols _ hmeant
    have htable : ∀ k, (symbols k).symbol ∈ Process.symbols := by decide
    have htext : o.symbol.text = (symbols k).symbol := hsymbol
    exact ⟨htext ▸ htable k, hqty⟩

/-- The nearest `double` of a text with two places behind its point. -/
def readPlaces (text : List UInt8) : ℚ :=
  toDouble ((Nat.ofDigits 10 ((text.filter (· ≠ 46)).map fun b => b.toNat - 48).reverse : ℕ) / 100)

/-- A sale at a price a quarter above the first one of ESZ4, and GBPUSD bought at the floor. -/
theorem start_ordersFix_two :
    let draws : List Draw := [⟨4, 1 / 4, 1, 25, by decide⟩, ⟨5, -1000000, 0, 10, by decide⟩]
    ∃ orders, start readPlaces (fun _ => 0) (ordersFix draws) = .ok orders ∧
      orders.map Order.reading =
        [{ id := ascii "ORD00001", symbol := ascii "ESZ4", orderType := .sell,
           price := toDouble (450025 / 100), quantity := 25 },
         { id := ascii "ORD00002", symbol := ascii "GBPUSD", orderType := .buy,
           price := toDouble (1 / 100), quantity := 10 }] ∧
      orders.map (fun o => priceToTick o.price) = [450025, 1] := by
  intro draws
  have hfloor := abs_le.mp abs_floor_sub_le
  have hup : walk symbols ⟨4, 1 / 4, 1, 25, by decide⟩ 4 = ⟨ascii "ESZ4", 18001 / 4, 1⟩ := by
    have hstep : toDouble (1 / 4) = 1 / 4 :=
      roundTo_eq (by norm_num) ⟨1, -2, by norm_num, by norm_num⟩
    have hsum : toDouble (18001 / 4) = 18001 / 4 :=
      roundTo_eq (by norm_num) ⟨18001, -2, by norm_num, by norm_num⟩
    have habove : ¬ (18001 / 4 : ℚ) < toDouble (1 / 100) := by linarith
    have hprice : toDouble (4500 + toDouble (1 / 4 * 1)) = 18001 / 4 := by
      rw [mul_one, hstep, show (4500 + 1 / 4 : ℚ) = 18001 / 4 by norm_num, hsum]
    show SimSymbol.mk (ascii "ESZ4")
      (if toDouble (4500 + toDouble (1 / 4 * 1)) < toDouble (1 / 100) then toDouble (1 / 100)
        else toDouble (4500 + toDouble (1 / 4 * 1))) 1 = _
    rw [hprice, if_neg habove]
  have hdown : walk (walk symbols ⟨4, 1 / 4, 1, 25, by decide⟩) ⟨5, -1000000, 0, 10, by decide⟩ 5 =
      ⟨ascii "GBPUSD", toDouble (1 / 100), toDouble (2 / 1000)⟩ := by
    have hvol := (abs_le.mp (abs_roundTo_sub_le 53 (2 / 1000))).1
    rw [abs_of_pos (by norm_num)] at hvol
    have hstep : toDouble (-1000000 * toDouble (2 / 1000)) ≤ -1000 :=
      roundTo_le (by norm_num) ⟨-1000, 0, by norm_num, by norm_num⟩ (by linarith)
    have hprice : toDouble (125 / 100 + toDouble (-1000000 * toDouble (2 / 1000))) ≤ 0 :=
      roundTo_le (by norm_num) ⟨0, 0, by norm_num, by norm_num⟩ (by linarith)
    show SimSymbol.mk (ascii "GBPUSD")
      (if toDouble (125 / 100 + toDouble (-1000000 * toDouble (2 / 1000))) < toDouble (1 / 100) then
        toDouble (1 / 100) else toDouble (125 / 100 + toDouble (-1000000 * toDouble (2 / 1000))))
      (toDouble (2 / 1000)) = _
    rw [if_pos (by linarith)]
  have hcents : cents (18001 / 4) = 450025 ∧ cents (toDouble (1 / 100)) = 1 := by
    have hquarter : roundEven (18001 / 4 * 100) = 450025 := roundEven_eq (by norm_num)
    have hcent : roundEven (toDouble (1 / 100) * 100) = 1 := by
      refine roundEven_eq (abs_lt.mpr ⟨?_, ?_⟩) <;> push_cast <;> linarith
    rw [cents, cents, hquarter, hcent]
    exact ⟨rfl, rfl⟩
  have hall : centsFrom symbols draws = [450025, 1] := by
    simp only [draws, centsFrom, hup, hdown, hcents.1, hcents.2]
  have hread : readPlaces (fixedText 450025) = toDouble (450025 / 100) ∧
      readPlaces (fixedText 1) = toDouble (1 / 100) := by
    have hdigits : ∀ c : ℕ, Nat.ofDigits 10 (((fixedText c).filter (· ≠ 46)).map fun b => b.toNat - 48).reverse = c →
        readPlaces (fixedText c) = toDouble ((c : ℚ) / 100) := fun c h => by rw [readPlaces, h]
    have hlong := hdigits 450025 (by decide)
    have hshort := hdigits 1 (by decide)
    push_cast at hlong hshort
    exact ⟨hlong, hshort⟩
  have hprice : ∀ c ∈ centsFrom symbols draws, Legible readPlaces c := by
    rw [hall]
    refine List.forall_mem_cons.mpr ⟨legible_of_nearest ?_ ?_, List.forall_mem_singleton.mpr (legible_of_nearest ?_ ?_)⟩
    · unfold maxTicks
      norm_num
    · exact_mod_cast hread.1
    · unfold maxTicks
      norm_num
    · exact_mod_cast hread.2
  obtain ⟨orders, hstart, hmeant, -, hticks, -⟩ :=
    start_ordersFix (fun _ => 0) (show draws.length < 100000 by decide) hprice
  rw [hall] at hticks
  refine ⟨orders, hstart, hmeant.trans ?_, hticks⟩
  have hids : ascii "ORD" ++ setw5 1 = ascii "ORD00001" ∧ ascii "ORD" ++ setw5 2 = ascii "ORD00002" := by
    decide
  simp only [draws, meantFrom, meant, hup, hdown, hcents.1, hcents.2, hids.1, hids.2, hread.1, hread.2]
  rfl

end FixOrderSimulator

end TradingSim
