import TradingSim.Lib.Csv
import TradingSim.Lib.Events
import TradingSim.Lib.Machine
import Mathlib.Data.List.DropRight

/-!
`InstrumentStore`: the instruments of a CSV file, by symbol.

Six columns are read without a look at how many there are, five more if they are there. A row can end in
three ways: its instrument is stored, an exception leaves the loader, or a column that is not there is
read, which has no meaning. The last happens exactly to the rows that are not `Covered`, a blank line
among them. `loadFromCSV_rows` says what is in the store in each case: the rows before are stored, each
under its trimmed symbol, the last one of a symbol stays, and nothing else is changed. After a load to the
end of the file `lookup` finds the symbols of all rows (`lookup_loadFromCSV`).
-/

namespace TradingSim

open Lib

/-! ### Instruments -/

/-- `AssetClass`. -/
inductive AssetClass where
  | equity
  | future
  | option
  | fx
  deriving DecidableEq

/-- `OptionType`. -/
inductive OptionType where
  | call
  | put
  | none
  deriving DecidableEq

/-- `OptionStyle`. -/
inductive OptionStyle where
  | european
  | american
  | none
  deriving DecidableEq

/-- `chrono::year_month_day`. -/
structure YearMonthDay where
  year : Int16
  month : UInt8
  day : UInt8
  deriving DecidableEq

/-- `Instrument`. -/
structure Instrument where
  symbol : List UInt8
  description : List UInt8
  assetClass : AssetClass
  currency : List UInt8
  tickSize : ℚ
  contractSize : ℚ
  strike : Option ℚ
  optionType : Option OptionType
  optionStyle : Option OptionStyle
  underlying : Option (List UInt8)
  expiry : Option YearMonthDay
  deriving DecidableEq

/-- `InstrumentStore`: the map `instruments_`. -/
structure InstrumentStore where
  instruments : List UInt8 → Option Instrument

/-- The bytes of a literal. -/
def ascii (s : String) : List UInt8 := s.toList.map fun c => UInt8.ofNat c.toNat

namespace InstrumentStore

/-- What is thrown. -/
inductive Thrown where
  | runtimeError (what : List UInt8)
  | parse (error : ParseError)
  deriving DecidableEq

/-- How a row can end without an instrument. -/
inductive Abort where
  | undefined (fault : Fault)
  | thrown (exception : Thrown)
  deriving DecidableEq

def new : InstrumentStore := ⟨fun _ => none⟩

/-- `instruments_[inst.symbol] = inst`. -/
def store (s : InstrumentStore) (inst : Instrument) : InstrumentStore :=
  ⟨Function.update s.instruments inst.symbol (some inst)⟩

/-- `lookup`. -/
def lookup (s : InstrumentStore) (symbol : List UInt8) : Except Thrown Instrument :=
  match s.instruments symbol with
  | none => .error (.runtimeError (ascii "Instrument not found: " ++ symbol))
  | some inst => .ok inst

/-! ### The columns -/

/-- `" \t\r\n"`. -/
def isBlank (c : UInt8) : Bool := c ∈ ([32, 9, 13, 10] : List UInt8)

/-- `trim`. -/
def trim (s : List UInt8) : List UInt8 := (s.dropWhile isBlank).rdropWhile isBlank

/-- `parseAssetClass`. -/
def parseAssetClass (s : List UInt8) : Except Abort AssetClass :=
  if s = ascii "Equity" then .ok .equity
  else if s = ascii "Future" then .ok .future
  else if s = ascii "Option" then .ok .option
  else if s = ascii "FX" then .ok .fx
  else .error (.thrown (.runtimeError (ascii "Unknown asset class: " ++ s)))

/-- `parseOptionType`. -/
def parseOptionType (s : List UInt8) : Except Abort (Option OptionType) :=
  if s = [] then .ok none
  else if s = ascii "Call" then .ok (some .call)
  else if s = ascii "Put" then .ok (some .put)
  else .error (.thrown (.runtimeError (ascii "Unknown option type: " ++ s)))

/-- `parseOptionStyle`. -/
def parseOptionStyle (s : List UInt8) : Except Abort (Option OptionStyle) :=
  if s = [] then .ok none
  else if s = ascii "European" then .ok (some .european)
  else if s = ascii "American" then .ok (some .american)
  else .error (.thrown (.runtimeError (ascii "Unknown option style: " ++ s)))

/-- A number parser that throws. -/
def number {α : Type} (parse : List UInt8 → Except ParseError α) (s : List UInt8) : Except Abort α :=
  match parse s with
  | .ok a => .ok a
  | .error e => .error (.thrown (.parse e))

/-- `fields[i]`. -/
def field (fields : List (List UInt8)) (i : ℕ) : Except Abort (List UInt8) :=
  match fields[i]? with
  | some f => .ok f
  | none => .error (.undefined .outOfRange)

/-- `fields.size() > i ? parse(fields[i]) : nullopt`. -/
def optionalField {α : Type} (fields : List (List UInt8)) (i : ℕ)
    (parse : List UInt8 → Except Abort (Option α)) : Except Abort (Option α) :=
  if fields.length > i then do
    let f ← field fields i
    parse f
  else .ok none

section Load

variable (stod : List UInt8 → Except ParseError ℚ) (stoi : List UInt8 → Except ParseError ℤ)

/-- `parseDate`. The parts of a date are held in 16 and 8 bits. -/
def parseDate (s : List UInt8) : Except Abort (Option YearMonthDay) :=
  let trimmed := trim s
  if trimmed = [] ∨ trimmed.length < 10 then .ok none
  else do
    let y ← number stoi (trimmed.take 4)
    let m ← number stoi ((trimmed.drop 5).take 2)
    let d ← number stoi ((trimmed.drop 8).take 2)
    .ok (some ⟨Int16.ofInt y, UInt8.ofInt m, UInt8.ofInt d⟩)

/-- The instrument of a row. -/
def parseInstrument (lineNumber : Int32) (fields : List (List UInt8)) : Except Abort Instrument := do
  let symbol ← field fields 0
  if symbol = [] then
    .error (.thrown (.runtimeError (ascii "Missing symbol on line " ++ ascii (toString lineNumber))))
  else do
    let description ← field fields 1
    let assetClass ← field fields 2 >>= parseAssetClass
    let currency ← field fields 3
    let tickSize ← field fields 4 >>= number stod
    let contractSize ← field fields 5 >>= number stod
    let strike ← optionalField fields 6 fun f =>
      if f ≠ [] then do
        let strike ← number stod f
        .ok (some strike)
      else .ok none
    let optionType ← optionalField fields 7 parseOptionType
    let optionStyle ← optionalField fields 8 parseOptionStyle
    let underlying ← optionalField fields 9 fun f => .ok (if f ≠ [] then some f else none)
    let expiry ← optionalField fields 10 (parseDate stoi)
    .ok ⟨symbol, description, assetClass, currency, tickSize, contractSize, strike, optionType,
      optionStyle, underlying, expiry⟩

/-- The fields of a line. -/
def fieldsOf (line : List UInt8) : List (List UInt8) := (getlines 44 line).map trim

/-- The loop over the lines. What is thrown ends it, with the rows before stored. -/
def loadLines : InstrumentStore → Int32 → List (List UInt8) →
    Except Fault (InstrumentStore × Option Thrown)
  | s, _, [] => .ok (s, none)
  | s, lineNumber, line :: lines =>
    match parseInstrument stod stoi (lineNumber + 1) (fieldsOf line) with
    | .error (.undefined fault) => .error fault
    | .error (.thrown exception) => .ok (s, some exception)
    | .ok inst => loadLines (s.store inst) (lineNumber + 1) lines

/-- The lines behind the header. -/
def dataRows (file : List UInt8) : List (List UInt8) := (getlines 10 file).tail

/-- `loadFromCSV`: the store afterwards, and what left the function. -/
def loadFromCSV (s : InstrumentStore) (file : List UInt8) :
    Except Fault (InstrumentStore × Option Thrown) :=
  loadLines stod stoi s 1 (dataRows file)

end Load

/-! ### Rows -/

/-- The computation reads no column that is not there. -/
def Defined {α : Type} (x : Except Abort α) : Prop := ∀ fault, x ≠ .error (.undefined fault)

section Defined

variable {α β : Type} {x : Except Abort α} {f : α → Except Abort β} {fields : List (List UInt8)} {i : ℕ}

theorem Defined.ok (a : α) : Defined (.ok a : Except Abort α) := fun _ h => by cases h

theorem Defined.thrown (e : Thrown) : Defined (.error (.thrown e) : Except Abort α) :=
  fun _ h => by cases h

theorem Defined.bind (hx : Defined x) (hf : ∀ a, x = .ok a → Defined (f a)) : Defined (x >>= f) := by
  cases x with
  | ok a =>
    rw [ok_bind]
    exact hf a rfl
  | error abort =>
    rw [error_bind]
    intro fault h
    exact hx fault (congrArg Except.error (Except.error.inj h))

theorem Defined.ite {c : Prop} [Decidable c] {y : Except Abort α} (hx : c → Defined x)
    (hy : ¬ c → Defined y) : Defined (if c then x else y) := by
  split
  · rename_i h
    exact hx h
  · rename_i h
    exact hy h

theorem field_eq (h : i < fields.length) : field fields i = .ok (fields.getD i []) := by
  rw [field, List.getD_eq_getElem?_getD, List.getElem?_eq_getElem h]
  rfl

theorem field_missing (h : fields.length ≤ i) : field fields i = .error (.undefined .outOfRange) := by
  rw [field, List.getElem?_eq_none h]

theorem Defined.field (h : i < fields.length) : Defined (field fields i) := by
  rw [field_eq h]
  exact .ok _

theorem Defined.optionalField {parse : List UInt8 → Except Abort (Option α)}
    (h : ∀ s, Defined (parse s)) : Defined (optionalField fields i parse) :=
  .ite (fun hi => (Defined.field hi).bind fun s _ => h s) fun _ => .ok _

theorem Defined.number (parse : List UInt8 → Except ParseError α) (s : List UInt8) :
    Defined (number parse s) := by
  unfold InstrumentStore.number
  split
  · exact .ok _
  · exact .thrown _

theorem Defined.parseAssetClass (s : List UInt8) : Defined (parseAssetClass s) :=
  .ite (fun _ => .ok _) fun _ => .ite (fun _ => .ok _) fun _ => .ite (fun _ => .ok _) fun _ =>
    .ite (fun _ => .ok _) fun _ => .thrown _

theorem Defined.parseOptionType (s : List UInt8) : Defined (parseOptionType s) :=
  .ite (fun _ => .ok _) fun _ => .ite (fun _ => .ok _) fun _ => .ite (fun _ => .ok _) fun _ => .thrown _

theorem Defined.parseOptionStyle (s : List UInt8) : Defined (parseOptionStyle s) :=
  .ite (fun _ => .ok _) fun _ => .ite (fun _ => .ok _) fun _ => .ite (fun _ => .ok _) fun _ => .thrown _

theorem Defined.parseDate (stoi : List UInt8 → Except ParseError ℤ) (s : List UInt8) :
    Defined (parseDate stoi s) := by
  refine .ite (fun _ => .ok _) fun _ => ?_
  refine (Defined.number _ _).bind fun y _ => (Defined.number _ _).bind fun m _ => ?_
  exact (Defined.number _ _).bind fun d _ => .ok _

end Defined

section Row

variable (stod : List UInt8 → Except ParseError ℚ) (stoi : List UInt8 → Except ParseError ℤ)

/-- The columns that are read are there: all of the first six, unless there is no symbol, or the asset
class or the tick size throws before the next of them. -/
def Covered (fields : List (List UInt8)) : Prop :=
  0 < fields.length ∧ (fields.getD 0 [] = [] ∨
    2 < fields.length ∧ ((∃ e, parseAssetClass (fields.getD 2 []) = .error e) ∨
      4 < fields.length ∧ ((∃ e, stod (fields.getD 4 []) = .error e) ∨ 5 < fields.length)))

/-- The row of the line is stored as the instrument, whatever its number. -/
def Stores (line : List UInt8) (inst : Instrument) : Prop :=
  ∀ lineNumber, parseInstrument stod stoi lineNumber (fieldsOf line) = .ok inst

variable {stod stoi} {fields : List (List UInt8)} {lineNumber : Int32}

theorem parseInstrument_defined (h : Covered stod fields) :
    Defined (parseInstrument stod stoi lineNumber fields) := by
  obtain ⟨h0, h⟩ := h
  refine (Defined.field h0).bind fun symbol hsymbol => .ite (fun _ => .thrown _) fun hne => ?_
  rw [field_eq h0, Except.ok.injEq] at hsymbol
  obtain ⟨h2, h⟩ := h.resolve_left fun e => hne (hsymbol.symm.trans e)
  refine (Defined.field (by omega)).bind fun description _ => ?_
  refine Defined.bind ((Defined.field h2).bind fun s _ => .parseAssetClass s) fun assetClass hclass => ?_
  rw [field_eq h2, ok_bind] at hclass
  have hknown : ¬ ∃ e, parseAssetClass (fields.getD 2 []) = .error e := by
    rintro ⟨e, he⟩
    rw [hclass] at he
    cases he
  obtain ⟨h4, h⟩ := h.resolve_left hknown
  refine (Defined.field (by omega)).bind fun currency _ => ?_
  refine Defined.bind ((Defined.field h4).bind fun s _ => .number stod s) fun tickSize hsize => ?_
  rw [field_eq h4, ok_bind] at hsize
  have hread : ¬ ∃ e, stod (fields.getD 4 []) = .error e := by
    rintro ⟨e, he⟩
    rw [number, he] at hsize
    cases hsize
  have h5 := h.resolve_left hread
  refine Defined.bind ((Defined.field h5).bind fun s _ => .number stod s) fun contractSize _ => ?_
  -- the other columns are looked at only if they are there
  refine Defined.bind (.optionalField fun f => ?_) fun strike _ => ?_
  · exact .ite (fun _ => (Defined.number stod f).bind fun _ _ => .ok _) fun _ => .ok _
  refine Defined.bind (.optionalField .parseOptionType) fun optionType _ => ?_
  refine Defined.bind (.optionalField .parseOptionStyle) fun optionStyle _ => ?_
  refine Defined.bind (.optionalField fun _ => .ok _) fun underlying _ => ?_
  exact Defined.bind (.optionalField (.parseDate stoi)) fun expiry _ => .ok _

theorem parseInstrument_undefined (h : ¬ Covered stod fields) :
    parseInstrument stod stoi lineNumber fields = .error (.undefined .outOfRange) := by
  unfold parseInstrument
  by_cases h0 : 0 < fields.length
  swap
  · rw [field_missing (by omega), error_bind]
  have hne : fields.getD 0 [] ≠ [] := fun e => h ⟨h0, Or.inl e⟩
  rw [field_eq h0, ok_bind, if_neg hne]
  by_cases h1 : 1 < fields.length
  swap
  · rw [field_missing (by omega), error_bind]
  rw [field_eq h1, ok_bind]
  by_cases h2 : 2 < fields.length
  swap
  · rw [field_missing (by omega), error_bind, error_bind]
  rw [field_eq h2, ok_bind]
  cases hclass : parseAssetClass (fields.getD 2 []) with
  | error e => exact absurd ⟨h0, Or.inr ⟨h2, Or.inl ⟨e, hclass⟩⟩⟩ h
  | ok assetClass =>
    rw [ok_bind]
    by_cases h3 : 3 < fields.length
    swap
    · rw [field_missing (by omega), error_bind]
    rw [field_eq h3, ok_bind]
    by_cases h4 : 4 < fields.length
    swap
    · rw [field_missing (by omega), error_bind, error_bind]
    rw [field_eq h4, ok_bind]
    cases hsize : stod (fields.getD 4 []) with
    | error e => exact absurd ⟨h0, Or.inr ⟨h2, Or.inr ⟨h4, Or.inl ⟨e, hsize⟩⟩⟩⟩ h
    | ok tickSize =>
      have h5 : fields.length ≤ 5 := by
        by_contra h5
        exact h ⟨h0, Or.inr ⟨h2, Or.inr ⟨h4, Or.inr (not_le.mp h5)⟩⟩⟩
      rw [number, hsize, ok_bind, field_missing h5, error_bind, error_bind]

theorem covered_of_ne (h : parseInstrument stod stoi lineNumber fields ≠ .error (.undefined .outOfRange)) :
    Covered stod fields := by
  by_contra hnot
  exact h (parseInstrument_undefined hnot)

variable {line : List UInt8} {inst : Instrument}

/-- The number of the line is only in a message. -/
theorem stores_of_ok (h : parseInstrument stod stoi lineNumber (fieldsOf line) = .ok inst) :
    Stores stod stoi line inst := by
  intro n
  obtain ⟨symbol, hsymbol, h⟩ := bind_eq_ok.mp h
  unfold parseInstrument
  rw [hsymbol, ok_bind]
  split at h
  · cases h
  · rename_i hne
    rw [if_neg hne]
    exact h

theorem Stores.symbol (h : Stores stod stoi line inst) : inst.symbol = (fieldsOf line).getD 0 [] := by
  obtain ⟨symbol, hsymbol, h⟩ := bind_eq_ok.mp (h 0)
  have h0 : 0 < (fieldsOf line).length := by
    by_contra h0
    rw [field_missing (by omega)] at hsymbol
    cases hsymbol
  rw [field_eq h0, Except.ok.injEq] at hsymbol
  rw [hsymbol]
  split at h
  · cases h
  · iterate 10 obtain ⟨_, -, h⟩ := bind_eq_ok.mp h
    cases h
    rfl

end Row

/-! ### Files -/

/-- The instruments stored one after the other. -/
def storeAll (s : InstrumentStore) (insts : List Instrument) : InstrumentStore := insts.foldl store s

theorem instruments_store (s : InstrumentStore) (inst : Instrument) (symbol : List UInt8) :
    (s.store inst).instruments symbol =
      if inst.symbol = symbol then some inst else s.instruments symbol := by
  simp only [store, Function.update_apply, eq_comm]

theorem instruments_storeAll (s : InstrumentStore) (insts : List Instrument) (symbol : List UInt8) :
    (s.storeAll insts).instruments symbol =
      (insts.filter fun inst => inst.symbol = symbol).getLast?.or (s.instruments symbol) := by
  induction insts using List.reverseRecOn with
  | nil => rfl
  | append_singleton insts inst ih =>
    rw [storeAll, List.foldl_append, List.foldl_cons, List.foldl_nil, ← storeAll, instruments_store, ih,
      List.filter_append]
    split
    · rename_i hsym
      simp [hsym]
    · rename_i hsym
      simp [hsym]

section File

variable (stod : List UInt8 → Except ParseError ℚ) (stoi : List UInt8 → Except ParseError ℤ)

/-- The loader comes to the line: the rows before it are stored. -/
def Reached (rows : List (List UInt8)) (line : List UInt8) : Prop :=
  ∃ done rest, rows = done ++ line :: rest ∧ ∀ l ∈ done, ∃ inst, Stores stod stoi l inst

variable {stod stoi} {line l : List UInt8} {rows : List (List UInt8)}

theorem reached_cons : Reached stod stoi (l :: rows) line ↔
    line = l ∨ (∃ inst, Stores stod stoi l inst) ∧ Reached stod stoi rows line := by
  constructor
  · rintro ⟨done, rest, hrows, hdone⟩
    cases done with
    | nil =>
      left
      exact (List.cons.inj hrows).1.symm
    | cons d done =>
      obtain ⟨rfl, rfl⟩ := List.cons.inj hrows
      right
      exact ⟨hdone l (by simp), done, rest, rfl, fun d hd => hdone d (by simp [hd])⟩
  · rintro (rfl | ⟨hl, done, rest, rfl, hdone⟩)
    · exact ⟨[], rows, rfl, by simp⟩
    · exact ⟨l :: done, rest, rfl, by simpa using ⟨hl, hdone⟩⟩

variable (stod stoi)

theorem loadLines_ok_iff (s : InstrumentStore) (n : Int32) (rows : List (List UInt8)) :
    (∃ r, loadLines stod stoi s n rows = .ok r) ↔
      ∀ line, Reached stod stoi rows line → Covered stod (fieldsOf line) := by
  induction rows generalizing s n with
  | nil =>
    refine iff_of_true ⟨(s, none), rfl⟩ ?_
    rintro line ⟨done, rest, hrows, -⟩
    simp at hrows
  | cons row rows ih =>
    have hfirst : Reached stod stoi (row :: rows) row := reached_cons.mpr (Or.inl rfl)
    rw [loadLines]
    cases hrow : parseInstrument stod stoi (n + 1) (fieldsOf row) with
    | error abort =>
      cases abort with
      | undefined fault =>
        refine iff_of_false (fun ⟨r, hr⟩ => by cases hr) fun h => ?_
        exact parseInstrument_defined (h row hfirst) fault hrow
      | thrown e =>
        refine iff_of_true ⟨_, rfl⟩ fun line hline => ?_
        rcases reached_cons.mp hline with rfl | ⟨⟨inst, hinst⟩, -⟩
        · exact covered_of_ne (by rw [hrow]; simp)
        · rw [hinst] at hrow
          cases hrow
    | ok inst =>
      have hcovered : Covered stod (fieldsOf row) := covered_of_ne (by rw [hrow]; simp)
      refine (ih (s.store inst) (n + 1)).trans ⟨fun h line hline => ?_, fun h line hline => ?_⟩
      · rcases reached_cons.mp hline with rfl | ⟨-, hlater⟩
        · exact hcovered
        · exact h line hlater
      · exact h line (reached_cons.mpr (Or.inr ⟨⟨inst, stores_of_ok hrow⟩, hline⟩))

theorem one_add_ofNat (k : ℕ) : 1 + Int32.ofNat k = Int32.ofNat (k + 1) := by
  rw [Int32.ofNat_add, Int32.add_comm]
  rfl

/-- **One run of the loop**, from the line number `n`. -/
theorem loadLines_rows (s : InstrumentStore) (n : Int32) (rows : List (List UInt8)) :
    ∃ done insts rest, rows = done ++ rest ∧ List.Forall₂ (Stores stod stoi) done insts ∧
      ((rest = [] ∧ loadLines stod stoi s n rows = .ok (s.storeAll insts, none)) ∨
        (∃ line lines e, rest = line :: lines ∧
          parseInstrument stod stoi (n + Int32.ofNat (done.length + 1)) (fieldsOf line) =
            .error (.thrown e) ∧
          loadLines stod stoi s n rows = .ok (s.storeAll insts, some e)) ∨
        (∃ line lines, rest = line :: lines ∧ ¬ Covered stod (fieldsOf line) ∧
          loadLines stod stoi s n rows = .error .outOfRange)) := by
  induction rows generalizing s n with
  | nil => exact ⟨[], [], [], rfl, .nil, Or.inl ⟨rfl, rfl⟩⟩
  | cons row rows ih =>
    cases hrow : parseInstrument stod stoi (n + 1) (fieldsOf row) with
    | error abort =>
      refine ⟨[], [], row :: rows, rfl, .nil, Or.inr ?_⟩
      cases abort with
      | thrown e => exact Or.inl ⟨row, rows, e, rfl, hrow, by rw [loadLines, hrow]; rfl⟩
      | undefined fault =>
        have hnot : ¬ Covered stod (fieldsOf row) := fun h => parseInstrument_defined h fault hrow
        exact Or.inr ⟨row, rows, rfl, hnot, by rw [loadLines, parseInstrument_undefined hnot]⟩
    | ok inst =>
      obtain ⟨done, insts, rest, rfl, hdone, hend⟩ := ih (s.store inst) (n + 1)
      have hnumber : n + 1 + Int32.ofNat (done.length + 1) = n + Int32.ofNat (done.length + 1 + 1) := by
        rw [Int32.add_assoc, one_add_ofNat]
      refine ⟨row :: done, inst :: insts, rest, rfl, .cons (stores_of_ok hrow) hdone, ?_⟩
      rw [loadLines, hrow, List.length_cons, ← hnumber]
      exact hend

end File

/-- **Loading a file.** The loader reads a missing column if and only if it comes to a row that is not
covered. The rows up to the end of the file, to one that throws, or to such a row are stored, each as one
instrument under its trimmed symbol; of a symbol the last one stays, and all others are as before. -/
theorem loadFromCSV_rows (stod : List UInt8 → Except ParseError ℚ)
    (stoi : List UInt8 → Except ParseError ℤ) (s : InstrumentStore) (file : List UInt8) :
    ((∃ r, loadFromCSV stod stoi s file = .ok r) ↔
      ∀ line, Reached stod stoi (dataRows file) line → Covered stod (fieldsOf line)) ∧
    ∃ done insts rest, dataRows file = done ++ rest ∧ List.Forall₂ (fun line inst =>
        Stores stod stoi line inst ∧ inst.symbol = (fieldsOf line).getD 0 []) done insts ∧
      (∀ symbol, (s.storeAll insts).instruments symbol =
        (insts.filter fun inst => inst.symbol = symbol).getLast?.or (s.instruments symbol)) ∧
      ((rest = [] ∧ loadFromCSV stod stoi s file = .ok (s.storeAll insts, none)) ∨
        (∃ line lines e, rest = line :: lines ∧
          parseInstrument stod stoi (Int32.ofNat (done.length + 2)) (fieldsOf line) =
            .error (.thrown e) ∧
          loadFromCSV stod stoi s file = .ok (s.storeAll insts, some e)) ∨
        (∃ line lines, rest = line :: lines ∧ ¬ Covered stod (fieldsOf line) ∧
          loadFromCSV stod stoi s file = .error .outOfRange)) := by
  refine ⟨loadLines_ok_iff stod stoi s 1 (dataRows file), ?_⟩
  obtain ⟨done, insts, rest, hrows, hdone, hend⟩ :=
    loadLines_rows stod stoi s 1 (dataRows file)
  rw [one_add_ofNat] at hend
  exact ⟨done, insts, rest, hrows, hdone.imp fun line inst h => ⟨h, h.symbol⟩,
    instruments_storeAll s insts, hend⟩

/-- A blank line behind the header has no first column. -/
theorem loadFromCSV_blank_line :
    loadFromCSV (fun _ => .error .invalidArgument) (fun _ => .error .invalidArgument) new
      (ascii "symbol" ++ [10, 10]) = .error .outOfRange := by
  rfl

/-! ### Lookups -/

theorem lookup_eq_ok {s : InstrumentStore} {symbol : List UInt8} {inst : Instrument} :
    s.lookup symbol = .ok inst ↔ s.instruments symbol = some inst := by
  unfold lookup
  split
  · rename_i hnone
    simp [hnone]
  · rename_i found hfound
    rw [hfound, Except.ok.injEq, Option.some.injEq]

section Lookup

variable {stod : List UInt8 → Except ParseError ℚ} {stoi : List UInt8 → Except ParseError ℤ}
  {s s' : InstrumentStore} {file symbol : List UInt8}

theorem loadFromCSV_all (h : loadFromCSV stod stoi s file = .ok (s', none)) :
    ∃ insts, List.Forall₂ (Stores stod stoi) (dataRows file) insts ∧ s' = s.storeAll insts := by
  obtain ⟨done, insts, rest, hrows, hdone, hend⟩ := loadLines_rows stod stoi s 1 (dataRows file)
  rw [loadFromCSV] at h
  rcases hend with ⟨rfl, hload⟩ | ⟨_, _, e, -, -, hload⟩ | ⟨_, _, -, -, hload⟩
  · rw [h, Except.ok.injEq, Prod.mk.injEq] at hload
    rw [hrows, List.append_nil]
    exact ⟨insts, hdone, hload.1⟩
  · rw [h, Except.ok.injEq, Prod.mk.injEq] at hload
    cases hload.2
  · rw [h] at hload
    cases hload

/-- After a load that throws nothing, `lookup` finds the symbols of the rows and those it found before, and
no others. -/
theorem lookup_loadFromCSV (h : loadFromCSV stod stoi s file = .ok (s', none)) :
    (∃ inst, s'.lookup symbol = .ok inst) ↔
      (∃ line ∈ dataRows file, (fieldsOf line).getD 0 [] = symbol) ∨
        ∃ inst, s.lookup symbol = .ok inst := by
  obtain ⟨insts, hrows, rfl⟩ := loadFromCSV_all h
  have hsymbols : (dataRows file).map (fun line => (fieldsOf line).getD 0 []) =
      insts.map Instrument.symbol := by
    refine List.forall₂_eq_eq_eq ▸ ?_
    rw [List.forall₂_map_left_iff, List.forall₂_map_right_iff]
    exact hrows.imp fun line inst hstores => hstores.symbol.symm
  have hmem : (∃ line ∈ dataRows file, (fieldsOf line).getD 0 [] = symbol) ↔
      ∃ inst ∈ insts, inst.symbol = symbol := by
    rw [← List.mem_map, hsymbols, List.mem_map]
  have hfilter : (insts.filter fun inst => inst.symbol = symbol).getLast?.isSome ↔
      ∃ inst ∈ insts, inst.symbol = symbol := by
    rw [List.getLast?_isSome, Ne, List.filter_eq_nil_iff]
    simp
  simp only [lookup_eq_ok, ← Option.isSome_iff_exists, hmem, instruments_storeAll, Option.isSome_or,
    Bool.or_eq_true, hfilter]

end Lookup

end InstrumentStore

end TradingSim
