import Mathlib.Data.Nat.Digits.Lemmas
import Mathlib.Data.Rat.Floor
import Mathlib.Data.UInt
import Mathlib.Tactic

/-!
The records that pass between the FIX reader, the matching engine and the ledger: fixed-size
character arrays, orders and executions, with the symbol key and the price tick read off them.

A `double` is an exact rational here. `static_cast<int>` truncates toward zero; a price whose tick
does not fit an `int` has no meaning in the source and a tick outside the book's range here, so it is
turned away like every other price outside the range.
-/

namespace TradingSim

/-! ### Character arrays -/

/-- `char a[n]`. -/
abbrev CharArray (n : ℕ) := Fin n → UInt8

/-- `strncpy(dst, src, sizeof(dst) - 1)` into a zeroed `dst` of the size of `src`: the bytes before
the first NUL, never the last place, and zeros after them. -/
def strncpy {n : ℕ} (src : CharArray n) : CharArray n := fun i =>
  if (i : ℕ) + 1 < n ∧ ∀ j ≤ i, src j ≠ 0 then src i else 0

/-- The bytes of a character array before its first NUL. -/
def CharArray.text {n : ℕ} (a : CharArray n) : List UInt8 := (List.ofFn a).takeWhile (· ≠ 0)

/-- `OrderBook::sym_key`: the eight bytes of a symbol as one word, the first byte lowest. -/
def symKey (s : CharArray 8) : UInt64 :=
  UInt64.ofNat (Nat.ofDigits 256 (List.ofFn fun i => (s i).toNat))

theorem symKey_injective : Function.Injective symKey := by
  intro s t h
  have hdig : ∀ (r : CharArray 8), ∀ d ∈ List.ofFn (fun i => (r i).toNat), d < 256 := by
    intro r d hd
    obtain ⟨i, rfl⟩ := List.mem_ofFn.mp hd
    exact UInt8.toNat_lt _
  have hlt : ∀ r : CharArray 8, Nat.ofDigits 256 (List.ofFn fun i => (r i).toNat) < 2 ^ 64 := by
    intro r
    have := Nat.ofDigits_lt_base_pow_length (b := 256) (by norm_num) (hdig r)
    simpa using this
  have hval : Nat.ofDigits 256 (List.ofFn fun i => (s i).toNat) =
      Nat.ofDigits 256 (List.ofFn fun i => (t i).toNat) := by
    have := congrArg UInt64.toNat h
    simp only [symKey, UInt64.toNat_ofNat'] at this
    rwa [Nat.mod_eq_of_lt (hlt s), Nat.mod_eq_of_lt (hlt t)] at this
  have hlist := Nat.ofDigits_inj_of_len_eq (by norm_num) (by simp) (hdig s) (hdig t) hval
  have hfun := List.ofFn_injective hlist
  funext i
  exact UInt8.toNat_inj.mp (congrFun hfun i)

/-! ### Orders and executions -/

/-- `OrderType`. -/
inductive OrderType where
  | buy
  | sell
  deriving DecidableEq, Repr

/-- The other side of the book. -/
def OrderType.opp : OrderType → OrderType
  | .buy => .sell
  | .sell => .buy

theorem OrderType.eq_or_eq_opp (σ τ : OrderType) : τ = σ ∨ τ = σ.opp := by
  cases σ <;> cases τ <;> simp [OrderType.opp]

theorem OrderType.opp_ne (σ : OrderType) : σ.opp ≠ σ := by cases σ <;> simp [OrderType.opp]

/-- `Side`: the aggressor of an execution. -/
inductive Side where
  | buy
  | sell
  deriving DecidableEq, Repr

/-- `Order`, without the intrusive link: that field belongs to the pool slot (`Cell`) and is
overwritten as soon as an order is copied into one. -/
structure Order where
  id : CharArray 16
  symbol : CharArray 8
  price : ℚ
  orderType : OrderType
  quantity : Int32
  arrivalNs : Int64
  deriving DecidableEq

/-- `Execution`. -/
structure Execution where
  buyId : CharArray 16
  sellId : CharArray 16
  symbol : CharArray 8
  tradePrice : ℚ
  quantity : ℚ
  side : Side
  arrivalNs : Int64
  orderArrivalNs : Int64
  deriving DecidableEq

/-! ### Ticks -/

/-- `MAX_TICKS`: 500,000 levels of one cent. -/
def maxTicks : ℕ := 500000

/-- `BITSET_WORDS`: the 64-bit words that cover `MAX_TICKS` bits. -/
def bitsetWords : ℕ := (maxTicks + 63) / 64

theorem maxTicks_le_bits : maxTicks ≤ bitsetWords * 64 := by decide

-- The constants are large: nothing should compute with them by accident.
attribute [irreducible] maxTicks bitsetWords

/-- `static_cast<int>` of a double. -/
def truncate (x : ℚ) : ℤ := if 0 ≤ x then ⌊x⌋ else ⌈x⌉

/-- `OrderBook::priceToTick`. -/
def priceToTick (p : ℚ) : ℤ := truncate (p * 100 + 1 / 2)

theorem truncate_mono {x y : ℚ} (h : x ≤ y) : truncate x ≤ truncate y := by
  unfold truncate
  by_cases hx : 0 ≤ x
  · rw [if_pos hx, if_pos (hx.trans h)]
    exact Int.floor_le_floor h
  · rw [if_neg hx]
    by_cases hy : 0 ≤ y
    · rw [if_pos hy]
      have h1 : ⌈x⌉ ≤ 0 := Int.ceil_le.mpr (by push_cast; exact (not_le.mp hx).le)
      exact h1.trans (Int.floor_nonneg.mpr hy)
    · rw [if_neg hy]
      exact Int.ceil_le_ceil h

theorem priceToTick_mono {p q : ℚ} (h : p ≤ q) : priceToTick p ≤ priceToTick q :=
  truncate_mono (by linarith)

end TradingSim
