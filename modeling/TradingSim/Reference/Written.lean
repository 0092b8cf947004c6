import TradingSim.Fix.Format
import TradingSim.Reference.InstrumentStore

/-!
Files of instruments that are written and read back.

A row has eleven columns, as those of `config/instruments.csv`, and an empty column for what an instrument does
not have. The loader cuts a row with `getline`, so that it does not see an empty last column; it takes a
missing column for an empty one, and reads the instruments that were written
(`InstrumentStore.loadFromCSV_written`).
-/

namespace TradingSim

open Lib FixSessionReader

/-! ### Rows -/

def AssetClass.text : AssetClass → List UInt8
  | .equity => ascii "Equity"
  | .future => ascii "Future"
  | .option => ascii "Option"
  | .fx => ascii "FX"

/-- There is no text for `None`. -/
def OptionType.text : OptionType → List UInt8
  | .call => ascii "Call"
  | .put => ascii "Put"
  | .none => []

def OptionStyle.text : OptionStyle → List UInt8
  | .european => ascii "European"
  | .american => ascii "American"
  | .none => []

/-- A date with dashes. -/
def YearMonthDay.text (date : YearMonthDay) : List UInt8 :=
  padded 4 date.year.toInt.toNat ++ 45 :: padded 2 date.month.toNat ++ 45 :: padded 2 date.day.toNat

namespace Instrument

/-- The columns of an instrument, its numbers written by `text`. -/
def columns (text : ℚ → List UInt8) (inst : Instrument) : List (List UInt8) :=
  [inst.symbol, inst.description, inst.assetClass.text, inst.currency, text inst.tickSize,
    text inst.contractSize, (inst.strike.map text).getD [], (inst.optionType.map OptionType.text).getD [],
    (inst.optionStyle.map OptionStyle.text).getD [], inst.underlying.getD [],
    (inst.expiry.map YearMonthDay.text).getD []]

def row (text : ℚ → List UInt8) (inst : Instrument) : List UInt8 := [44].intercalate (inst.columns text)

end Instrument

namespace InstrumentStore

/-- A text that is read as it stands in a column. -/
structure IsCell (c : List UInt8) : Prop where
  comma : 44 ∉ c
  newline : 10 ∉ c
  trimmed : trim c = c

section Written

variable (stod : List UInt8 → Except ParseError ℚ) (stoi : List UInt8 → Except ParseError ℤ)
  (text : ℚ → List UInt8)

/-- The text of the number is a column, and `stod` reads it as the number. -/
structure Legible (x : ℚ) : Prop where
  cell : IsCell (text x)
  ne_nil : text x ≠ []
  read : stod (text x) = .ok x

/-- The date has four, two and two digits, which `stoi` reads as its parts. -/
structure LegibleDate (date : YearMonthDay) : Prop where
  year : 0 ≤ date.year.toInt ∧ date.year.toInt < 10000
  month : date.month.toNat < 100
  day : date.day.toNat < 100
  readYear : stoi (padded 4 date.year.toInt.toNat) = .ok date.year.toInt
  readMonth : stoi (padded 2 date.month.toNat) = .ok date.month.toNat
  readDay : stoi (padded 2 date.day.toNat) = .ok date.day.toNat

/-- An instrument that can be written. -/
structure Writable (inst : Instrument) : Prop where
  symbol : inst.symbol ≠ []
  cells : ∀ c ∈ [inst.symbol, inst.description, inst.currency, inst.underlying.getD []], IsCell c
  numbers : ∀ x ∈ inst.tickSize :: inst.contractSize :: inst.strike.toList, Legible stod text x
  optionType : inst.optionType ≠ some .none
  optionStyle : inst.optionStyle ≠ some .none
  underlying : inst.underlying ≠ some []
  expiry : ∀ date ∈ inst.expiry, LegibleDate stoi date

variable {stod stoi text}

/-! ### Columns -/

theorem isCell_nil : IsCell [] := ⟨by simp, by simp, rfl⟩

theorem trim_of_not_blank {c : List UInt8} (h : ∀ b ∈ c, isBlank b = false) : trim c = c := by
  have hdrop : c.dropWhile isBlank = c := by
    cases c with
    | nil => rfl
    | cons b c => rw [List.dropWhile_cons_of_neg (by simp [h b List.mem_cons_self])]
  rw [trim, hdrop]
  cases c using List.reverseRecOn with
  | nil => rfl
  | append_singleton c b => rw [List.rdropWhile_concat_neg _ _ _ (by simp [h b (by simp)])]

theorem isCell_assetClass (c : AssetClass) : IsCell c.text := by
  cases c <;> exact ⟨by decide, by decide, by decide⟩

theorem isCell_optionType (ty : OptionType) : IsCell ty.text := by
  cases ty <;> exact ⟨by decide, by decide, by decide⟩

theorem isCell_optionStyle (style : OptionStyle) : IsCell style.text := by
  cases style <;> exact ⟨by decide, by decide, by decide⟩

theorem text_bytes (date : YearMonthDay) : ∀ b ∈ date.text, IsDigit b ∨ b = 45 := by
  intro b hb
  simp only [YearMonthDay.text, List.mem_append, List.mem_cons] at hb
  rcases hb with (hb | rfl | hb) | rfl | hb
  · exact Or.inl (padded_digits _ _ b hb)
  · exact Or.inr rfl
  · exact Or.inl (padded_digits _ _ b hb)
  · exact Or.inr rfl
  · exact Or.inl (padded_digits _ _ b hb)

theorem isCell_date (date : YearMonthDay) : IsCell date.text := by
  have hne : ∀ c : UInt8, ¬ (48 ≤ c.toNat ∧ c.toNat ≤ 57) → c ≠ 45 → c ∉ date.text :=
    fun c hdigit hdash hmem => (text_bytes date c hmem).elim hdigit hdash
  refine ⟨hne 44 (by decide) (by decide), hne 10 (by decide) (by decide), trim_of_not_blank fun b hb => ?_⟩
  rw [isBlank, decide_eq_false_iff_not]
  simp only [List.mem_cons, List.not_mem_nil, or_false, not_or]
  refine ⟨?_, ?_, ?_, ?_⟩ <;> rintro rfl
  · exact hne 32 (by decide) (by decide) hb
  · exact hne 9 (by decide) (by decide) hb
  · exact hne 13 (by decide) (by decide) hb
  · exact hne 10 (by decide) (by decide) hb

variable {inst : Instrument} {fields : List (List UInt8)}

theorem Writable.isCell (h : Writable stod stoi text inst) : ∀ c ∈ inst.columns text, IsCell c := by
  have hcells := h.cells
  have hnumbers := h.numbers
  simp only [List.forall_mem_cons, List.not_mem_nil, false_implies, implies_true, and_true] at hcells hnumbers
  obtain ⟨hsymbol, hdescription, hcurrency, hunderlying⟩ := hcells
  obtain ⟨htick, hcontract, hstrike⟩ := hnumbers
  simp only [Instrument.columns, List.forall_mem_cons, List.not_mem_nil, false_implies, implies_true, and_true]
  refine ⟨hsymbol, hdescription, isCell_assetClass _, hcurrency, htick.cell, hcontract.cell, ?_, ?_, ?_,
    hunderlying, ?_⟩
  · cases hcase : inst.strike with
    | none => exact isCell_nil
    | some x => exact (hstrike x (by simp [hcase])).cell
  · cases inst.optionType with
    | none => exact isCell_nil
    | some ty => exact isCell_optionType ty
  · cases inst.optionStyle with
    | none => exact isCell_nil
    | some style => exact isCell_optionStyle style
  · cases inst.expiry with
    | none => exact isCell_nil
    | some date => exact isCell_date date

theorem Writable.newline_not_mem (h : Writable stod stoi text inst) : 10 ∉ inst.row text := by
  intro hmem
  rcases mem_intercalate hmem with hsep | ⟨c, hc, hmem⟩
  · exact absurd hsep (by decide)
  · exact (h.isCell c hc).newline hmem

variable {insts : List Instrument} {header : List UInt8}

end Written

end InstrumentStore

end TradingSim
