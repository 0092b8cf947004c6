import TradingSim.Lib.Csv
import TradingSim.Lib.Machine
import TradingSim.Lib.OrderedMap

/-!
`VolatilitySurface`: implied volatilities by strike and expiry, in two levels of `std::map`, read from a
CSV file.

Loading a file writes its rows one after the other (`loadFromCSV_eq`), so a grid point has the volatility
of its last row (`vol?_writeAll`). No inner map is ever empty, which the surface carries with it, and so
`getVol` finds an entry on both axes (`getVol_spec`).

What it finds is rounded up: the least strike at or above the one asked for, the greatest if there is
none, and the same for the expiry (`lookup_last_load`). `nearest_vol` says when that is the volatility of
a nearest grid point: if on neither axis a point below is nearer than the one above, or if a nearest grid
point happens to have the same one.
-/

namespace TradingSim

open Lib

/-! ### The surface -/

/-- A row of the file. -/
structure VolRow where
  strike : ℚ
  expiry : ℤ
  vol : ℚ
  deriving DecidableEq

/-- `VolatilitySurface`: the map `volatilities_`. -/
structure VolatilitySurface where
  volatilities : OrderedMap ℚ (OrderedMap ℤ ℚ)
  /-- No strike is without an expiry. -/
  inner_ne_nil : ∀ e ∈ volatilities.entries, e.2.entries ≠ []

namespace VolatilitySurface

def new : VolatilitySurface := ⟨.empty, fun _ he => by simp [OrderedMap.empty] at he⟩

/-- `volatilities_[strike][expiry] = vol`. -/
def write (s : VolatilitySurface) (row : VolRow) : VolatilitySurface where
  volatilities := s.volatilities.insert row.strike
    (((s.volatilities.get? row.strike).getD .empty).insert row.expiry row.vol)
  inner_ne_nil := by
    intro e he
    rcases OrderedMap.mem_insert.mp he with rfl | ⟨he, -⟩
    · exact OrderedMap.insert_ne_nil
    · exact s.inner_ne_nil e he

/-- `getVol`. -/
def getVol (s : VolatilitySurface) (strike : ℚ) (expiry : ℤ) : Except Fault ℚ :=
  if s.volatilities.entries = [] then .ok (1 / 5)
  else do
    let it ← deref (s.volatilities.snap strike)
    let it2 ← deref (it.2.snap expiry)
    pure it2.2

/-! ### Loading -/

section Load

variable (stod : List UInt8 → Except ParseError ℚ) (stoi : List UInt8 → Except ParseError ℤ)

/-- The row of a line, if it has three fields. -/
def parseRow (line : List UInt8) : Except ParseError (Option VolRow) :=
  match getlines 44 line with
  | f₀ :: f₁ :: f₂ :: _ => do
    let strike ← stod f₀
    let expiry ← stoi f₁
    let vol ← stod f₂
    pure (some ⟨strike, expiry, vol⟩)
  | _ => pure none

/-- The loop over the lines. What is thrown ends it, with the rows before written. -/
def loadLines : VolatilitySurface → List (List UInt8) → VolatilitySurface × Option ParseError
  | s, [] => (s, none)
  | s, line :: lines =>
    match parseRow stod stoi line with
    | .error thrown => (s, some thrown)
    | .ok none => loadLines s lines
    | .ok (some row) => loadLines (s.write row) lines

/-- `loadFromCSV`. The first line is the header. -/
def loadFromCSV (s : VolatilitySurface) (file : List UInt8) : VolatilitySurface × Option ParseError :=
  loadLines stod stoi s (getlines 10 file).tail

/-- The rows of the lines, up to one that cannot be read. -/
def rowsOf : List (List UInt8) → List VolRow
  | [] => []
  | line :: lines =>
    match parseRow stod stoi line with
    | .error _ => []
    | .ok none => rowsOf lines
    | .ok (some row) => row :: rowsOf lines

/-- The rows of a file. -/
def csvRows (file : List UInt8) : List VolRow := rowsOf stod stoi (getlines 10 file).tail

theorem loadLines_eq (s : VolatilitySurface) (lines : List (List UInt8)) :
    (loadLines stod stoi s lines).1 = (rowsOf stod stoi lines).foldl write s := by
  induction lines generalizing s with
  | nil => rfl
  | cons line lines ih =>
    rw [loadLines, rowsOf]
    cases parseRow stod stoi line with
    | error thrown => rfl
    | ok row? =>
      cases row? with
      | none => exact ih s
      | some row => exact ih (s.write row)

/-- **Loading writes the rows.** -/
theorem loadFromCSV_eq (s : VolatilitySurface) (file : List UInt8) :
    (loadFromCSV stod stoi s file).1 = (csvRows stod stoi file).foldl write s :=
  loadLines_eq stod stoi s _

/-- The surface after one call of `loadFromCSV` for each of the files. -/
def loadAll (files : List (List UInt8)) : VolatilitySurface :=
  files.foldl (fun s file => (loadFromCSV stod stoi s file).1) new

theorem loadAll_eq (files : List (List UInt8)) :
    loadAll stod stoi files = (files.flatMap (csvRows stod stoi)).foldl write new := by
  rw [loadAll, List.foldl_flatMap]
  simp only [loadFromCSV_eq]

end Load

/-! ### Grid points -/

/-- The volatility of a grid point. -/
def vol? (s : VolatilitySurface) (K : ℚ) (E : ℤ) : Option ℚ :=
  (s.volatilities.get? K).bind fun expiryMap => expiryMap.get? E

variable {s : VolatilitySurface} {K : ℚ} {E : ℤ} {row : VolRow} {rows : List VolRow}

theorem vol?_write : (s.write row).vol? K E =
    if row.strike = K ∧ row.expiry = E then some row.vol else s.vol? K E := by
  simp only [vol?, write, OrderedMap.get?_insert]
  by_cases hK : K = row.strike
  · subst hK
    rw [if_pos rfl, Option.bind_some, OrderedMap.get?_insert]
    by_cases hE : E = row.expiry
    · rw [if_pos hE, if_pos ⟨rfl, hE.symm⟩]
    · rw [if_neg hE, if_neg fun h => hE h.2.symm]
      cases s.volatilities.get? row.strike <;> rfl
  · rw [if_neg hK, if_neg fun h => hK h.1.symm]

end VolatilitySurface

namespace VolRow

/-- The strikes of the rows. -/
def strikes (rows : List VolRow) : Set ℚ := { K | ∃ row ∈ rows, row.strike = K }

/-- The expiries of the rows of a strike. -/
def expiries (rows : List VolRow) (K : ℚ) : Set ℤ :=
  { E | ∃ row ∈ rows, row.strike = K ∧ row.expiry = E }

/-- The volatility in the last row of a grid point. -/
def lastVol (rows : List VolRow) (K : ℚ) (E : ℤ) : Option ℚ :=
  (rows.filter fun row => row.strike = K ∧ row.expiry = E).getLast?.map VolRow.vol

/-- The volatility is that of a grid point with a nearest strike and, of the expiries of that strike, a
nearest one. -/
def NearestVol (rows : List VolRow) (k : ℚ) (e : ℤ) (vol : ℚ) : Prop :=
  ∃ K E, Nearest (strikes rows) k K ∧ Nearest (expiries rows K) e E ∧ lastVol rows K E = some vol

theorem lastVol_snoc (rows : List VolRow) (row : VolRow) (K : ℚ) (E : ℤ) :
    lastVol (rows ++ [row]) K E =
      if row.strike = K ∧ row.expiry = E then some row.vol else lastVol rows K E := by
  rw [lastVol, List.filter_append]
  split
  · rename_i h
    simp [h]
  · rename_i h
    simp [h, lastVol]

theorem mem_of_lastVol {rows : List VolRow} {K : ℚ} {E : ℤ} {vol : ℚ}
    (h : lastVol rows K E = some vol) : ∃ row ∈ rows, row.vol = vol := by
  obtain ⟨row, hlast, hvol⟩ := Option.map_eq_some_iff.mp h
  exact ⟨row, List.mem_of_mem_filter (List.mem_of_getLast? hlast), hvol⟩

theorem lastVol_isSome {rows : List VolRow} {K : ℚ} {E : ℤ} :
    (lastVol rows K E).isSome ↔ E ∈ expiries rows K := by
  simp [lastVol, expiries]

end VolRow

namespace VolatilitySurface

open VolRow

variable {s : VolatilitySurface} {K : ℚ} {E : ℤ} {rows : List VolRow}

/-- **The last row of a grid point stays.** -/
theorem vol?_writeAll (rows : List VolRow) (K : ℚ) (E : ℤ) :
    (rows.foldl write new).vol? K E = lastVol rows K E := by
  induction rows using List.reverseRecOn with
  | nil => rfl
  | append_singleton rows row ih =>
    rw [List.foldl_append, List.foldl_cons, List.foldl_nil, vol?_write, lastVol_snoc, ih]

theorem mem_keys : K ∈ s.volatilities.keys ↔ ∃ E, (s.vol? K E).isSome := by
  constructor
  · rintro ⟨expiryMap, hmem⟩
    obtain ⟨⟨E, vol⟩, hE⟩ := List.exists_mem_of_ne_nil _ (s.inner_ne_nil _ hmem)
    refine ⟨E, ?_⟩
    rw [vol?, OrderedMap.get?_eq_some.mpr hmem, Option.bind_some, OrderedMap.get?_eq_some.mpr hE]
    rfl
  · rintro ⟨E, hsome⟩
    cases hget : s.volatilities.get? K with
    | none => simp [vol?, hget] at hsome
    | some expiryMap => exact ⟨expiryMap, OrderedMap.get?_eq_some.mp hget⟩

/-- **A lookup** in a surface that is not empty is of a grid point, both axes rounded up. -/
theorem getVol_spec (hne : s.volatilities.entries ≠ []) (k : ℚ) (e : ℤ) :
    ∃ K E vol, s.getVol k e = .ok vol ∧ s.vol? K E = some vol ∧
      RoundsUp { K | ∃ E, (s.vol? K E).isSome } k K ∧
      RoundsUp { E | (s.vol? K E).isSome } e E := by
  obtain ⟨⟨K, expiryMap⟩, hit, hmem, hK⟩ := OrderedMap.snap_spec hne k
  obtain ⟨⟨E, vol⟩, hit2, hmem2, hE⟩ := OrderedMap.snap_spec (s.inner_ne_nil _ hmem) e
  have hvol : ∀ E, s.vol? K E = expiryMap.get? E := fun E => by
    rw [vol?, OrderedMap.get?_eq_some.mpr hmem, Option.bind_some]
  have hstrikes : s.volatilities.keys = { K | ∃ E, (s.vol? K E).isSome } := Set.ext fun _ => mem_keys
  have hexpiries : expiryMap.keys = { E | (s.vol? K E).isSome } := by
    ext E
    simp only [OrderedMap.keys, Set.mem_ofPred_eq, hvol, Option.isSome_iff_exists,
      OrderedMap.get?_eq_some]
  refine ⟨K, E, vol, ?_, ?_, hstrikes ▸ hK, hexpiries ▸ hE⟩
  · rw [getVol, if_neg hne, hit, deref, ok_bind, hit2, deref, ok_bind, pure_eq_ok]
  · rw [hvol, OrderedMap.get?_eq_some.mpr hmem2]

theorem getVol_ok (s : VolatilitySurface) (k : ℚ) (e : ℤ) :
    ∃ vol, s.getVol k e = .ok vol ∧ (vol = 1 / 5 ∨ ∃ K E, s.vol? K E = some vol) := by
  by_cases hnil : s.volatilities.entries = []
  · exact ⟨1 / 5, if_pos hnil, Or.inl rfl⟩
  · obtain ⟨K, E, vol, hget, hvol, -⟩ := getVol_spec hnil k e
    exact ⟨vol, hget, Or.inr ⟨K, E, hvol⟩⟩

theorem getVol_writeAll (hne : rows ≠ []) (k : ℚ) (e : ℤ) :
    ∃ K E vol, (rows.foldl write new).getVol k e = .ok vol ∧ lastVol rows K E = some vol ∧
      RoundsUp (strikes rows) k K ∧ RoundsUp (expiries rows K) e E := by
  obtain ⟨row, hrow⟩ := List.exists_mem_of_ne_nil rows hne
  have hstrikes : { K | ∃ E, ((rows.foldl write new).vol? K E).isSome } = strikes rows := by
    ext K
    simp only [Set.mem_ofPred_eq, vol?_writeAll, lastVol_isSome, expiries, strikes]
    exact ⟨fun ⟨_, row, hrow, hK, _⟩ => ⟨row, hrow, hK⟩, fun ⟨row, hrow, hK⟩ => ⟨_, row, hrow, hK, rfl⟩⟩
  have hentries : (rows.foldl write new).volatilities.entries ≠ [] := by
    have hmem : row.strike ∈ { K | ∃ E, ((rows.foldl write new).vol? K E).isSome } :=
      hstrikes ▸ ⟨row, hrow, rfl⟩
    obtain ⟨_, hkey⟩ := mem_keys.mpr hmem
    exact List.ne_nil_of_mem hkey
  obtain ⟨K, E, vol, hget, hvol, hK, hE⟩ := getVol_spec hentries k e
  have hexpiries : { E | ((rows.foldl write new).vol? K E).isSome } = expiries rows K := by
    ext E
    rw [Set.mem_ofPred_eq, vol?_writeAll, lastVol_isSome]
  exact ⟨K, E, vol, hget, vol?_writeAll rows K E ▸ hvol, hstrikes ▸ hK, hexpiries ▸ hE⟩

/-- **Which volatility is looked up.** After loading a file with rows, `getVol` returns the volatility in
the last row of the grid point that the query is rounded up to. It is that of a nearest grid point
exactly if no strike below is nearer than all those above and no expiry of the strike below is, or some
other grid point that is nearest has the same volatility. -/
theorem nearest_vol (stod : List UInt8 → Except ParseError ℚ)
    (stoi : List UInt8 → Except ParseError ℤ) (file : List UInt8)
    (hne : csvRows stod stoi file ≠ []) (k : ℚ) (e : ℤ) :
    let rows := csvRows stod stoi file
    ∃ K E vol, RoundsUp (strikes rows) k K ∧ RoundsUp (expiries rows K) e E ∧
      lastVol rows K E = some vol ∧ (loadFromCSV stod stoi new file).1.getVol k e = .ok vol ∧
      (NearestVol rows k e vol ↔
        (NearestAbove (strikes rows) k ∧ NearestAbove (expiries rows K) e) ∨
        ∃ K' E', (K', E') ≠ (K, E) ∧ Nearest (strikes rows) k K' ∧ Nearest (expiries rows K') e E' ∧
          lastVol rows K' E' = lastVol rows K E) := by
  intro rows
  obtain ⟨K, E, vol, hget, hvol, hK, hE⟩ := getVol_writeAll hne k e
  rw [loadFromCSV_eq]
  refine ⟨K, E, vol, hK, hE, hvol, hget, ?_⟩
  rw [← hK.nearest_iff, ← hE.nearest_iff]
  constructor
  · rintro ⟨K', E', hK', hE', hvol'⟩
    by_cases hsame : (K', E') = (K, E)
    · obtain ⟨rfl, rfl⟩ := Prod.mk.inj hsame
      exact Or.inl ⟨hK', hE'⟩
    · exact Or.inr ⟨K', E', hsame, hK', hE', hvol'.trans hvol.symm⟩
  · rintro (⟨hnearK, hnearE⟩ | ⟨K', E', -, hK', hE', hvol'⟩)
    · exact ⟨K, E, hnearK, hnearE, hvol⟩
    · exact ⟨K', E', hK', hE', hvol'.trans hvol⟩

/-- The header and the rows `100,30,0.2` and `200,30,0.5`, with parsers for the numbers in them. -/
def twoStrikes : List UInt8 :=
  [115, 44, 101, 44, 118, 10,
    49, 48, 48, 44, 51, 48, 44, 48, 46, 50, 10,
    50, 48, 48, 44, 51, 48, 44, 48, 46, 53, 10]

def twoStrikesStod (text : List UInt8) : Except ParseError ℚ :=
  if text = [49, 48, 48] then .ok 100
  else if text = [50, 48, 48] then .ok 200
  else if text = [48, 46, 50] then .ok (1 / 5)
  else if text = [48, 46, 53] then .ok (1 / 2)
  else .error .invalidArgument

def twoStrikesStoi (text : List UInt8) : Except ParseError ℤ :=
  if text = [51, 48] then .ok 30 else .error .invalidArgument

theorem csvRows_twoStrikes : csvRows twoStrikesStod twoStrikesStoi twoStrikes =
    [⟨100, 30, 1 / 5⟩, ⟨200, 30, 1 / 2⟩] := by
  decide +kernel

/-- Just below a strike of the file that strike is the nearest. -/
theorem nearest_vol_below_strike :
    ∃ vol, (loadFromCSV twoStrikesStod twoStrikesStoi new twoStrikes).1.getVol 199 30 = .ok vol ∧
      NearestVol [⟨100, 30, 1 / 5⟩, ⟨200, 30, 1 / 2⟩] 199 30 vol := by
  obtain ⟨K, E, vol, hK, hE, -, hget, hnear⟩ := nearest_vol twoStrikesStod twoStrikesStoi twoStrikes
    (by rw [csvRows_twoStrikes]; simp) 199 30
  rw [csvRows_twoStrikes] at hK hE hnear
  refine ⟨vol, hget, hnear.mpr (Or.inl ⟨?_, ?_⟩)⟩
  · rintro a ⟨row, hrow, rfl⟩ hlt -
    refine ⟨200, ⟨⟨200, 30, 1 / 2⟩, by simp, rfl⟩, by norm_num, ?_⟩
    fin_cases hrow
    · norm_num
    · norm_num at hlt
  · rintro a ⟨row, hrow, -, rfl⟩ hlt
    fin_cases hrow <;> exact absurd hlt (by decide)

/-- Asked for the strike 101, the surface answers with the volatility of 200. -/
theorem nearest_vol_fails :
    csvRows twoStrikesStod twoStrikesStoi twoStrikes = [⟨100, 30, 1 / 5⟩, ⟨200, 30, 1 / 2⟩] ∧
      (loadFromCSV twoStrikesStod twoStrikesStoi new twoStrikes).1.getVol 101 30 = .ok (1 / 2) ∧
      |(100 : ℚ) - 101| < |200 - 101| := by
  refine ⟨csvRows_twoStrikes, ?_, by norm_num⟩
  rw [loadFromCSV_eq, csvRows_twoStrikes]
  decide +kernel

/-! ### Several files -/

/-- **Every lookup follows the last load.** After any calls of `loadFromCSV`, a lookup in a surface that
is not empty meets no end iterator. It returns the volatility most recently loaded for the strike and
the expiry that the query is rounded up to, each to the greatest one where there is none above. -/
theorem lookup_last_load (stod : List UInt8 → Except ParseError ℚ)
    (stoi : List UInt8 → Except ParseError ℤ) (files : List (List UInt8))
    (hne : (loadAll stod stoi files).volatilities.entries ≠ []) (k : ℚ) (e : ℤ) :
    let rows := files.flatMap (csvRows stod stoi)
    ∃ K E vol, RoundsUp (strikes rows) k K ∧ RoundsUp (expiries rows K) e E ∧
      lastVol rows K E = some vol ∧ (loadAll stod stoi files).getVol k e = .ok vol := by
  intro rows
  rw [loadAll_eq] at hne ⊢
  have hrows : rows ≠ [] := by
    intro hnil
    apply hne
    rw [show files.flatMap (csvRows stod stoi) = [] from hnil]
    rfl
  obtain ⟨K, E, vol, hget, hvol, hK, hE⟩ := getVol_writeAll hrows k e
  exact ⟨K, E, vol, hK, hE, hvol, hget⟩

/-- The header and the row `200,30,0.2`. -/
def secondLoad : List UInt8 :=
  [115, 44, 101, 44, 118, 10, 50, 48, 48, 44, 51, 48, 44, 48, 46, 50, 10]

/-- Between the strikes the second file is the one that counts. -/
theorem lookup_last_load_second :
    let s := loadAll twoStrikesStod twoStrikesStoi [twoStrikes, secondLoad]
    s.volatilities.entries ≠ [] ∧ s.getVol 150 30 = .ok (1 / 5) := by
  intro s
  have hrows : [twoStrikes, secondLoad].flatMap (csvRows twoStrikesStod twoStrikesStoi) =
      [⟨100, 30, 1 / 5⟩, ⟨200, 30, 1 / 2⟩, ⟨200, 30, 1 / 5⟩] := by
    decide +kernel
  have hne : s.volatilities.entries ≠ [] := by
    rw [show s = _ from loadAll_eq _ _ _, hrows]
    decide +kernel
  obtain ⟨K, E, vol, hK, hE, hvol, hget⟩ :=
    lookup_last_load twoStrikesStod twoStrikesStoi [twoStrikes, secondLoad] hne 150 30
  rw [hrows] at hK hE hvol
  have hE' : E = 30 := by
    obtain ⟨row, hrow, -, rfl⟩ := hE.mem
    fin_cases hrow <;> rfl
  have hK' : K = 200 := by
    have h200 : (200 : ℚ) ∈ strikes [⟨100, 30, 1 / 5⟩, ⟨200, 30, 1 / 2⟩, ⟨200, 30, 1 / 5⟩] :=
      ⟨⟨200, 30, 1 / 5⟩, by simp, rfl⟩
    rcases hK with ⟨⟨⟨row, hrow, rfl⟩, hge⟩, -⟩ | ⟨hnone, -⟩
    · have hge : 150 ≤ row.strike := hge
      fin_cases hrow
      · norm_num at hge
      · rfl
      · rfl
    · exact absurd ⟨h200, show (150 : ℚ) ≤ 200 by norm_num⟩ (Set.eq_empty_iff_forall_notMem.mp hnone 200)
  subst hK' hE'
  have hvol' : lastVol [⟨100, 30, 1 / 5⟩, ⟨200, 30, 1 / 2⟩, ⟨200, 30, 1 / 5⟩] 200 30 = some (1 / 5) := by
    decide +kernel
  rw [hvol', Option.some_inj] at hvol
  exact ⟨hne, hvol ▸ hget⟩

end VolatilitySurface

end TradingSim
