import Mathlib.Data.List.GetD
import Mathlib.Data.List.TakeWhile
import TradingSim.OrderBook.Engine

/-!
The quotes of a book by the text of its symbol.

A book is kept under the eight bytes of a symbol, and a quote is asked for by a text. The two meet in
the same book for arrays that hold nothing behind their text (`Terminated`): such an array is the text
with zeros behind it.
-/

namespace TradingSim

open Lib

/-! ### Texts of character arrays -/

/-- The text, and zeros behind it. -/
def CharArray.pad {n : ℕ} (text : List UInt8) : CharArray n := fun i => text.getD i 0

/-- The array is zero from its first NUL on. -/
def CharArray.Terminated {n : ℕ} (a : CharArray n) : Prop := ∀ i : Fin n, a.text.length ≤ i → a i = 0

instance {n : ℕ} (a : CharArray n) : Decidable a.Terminated :=
  inferInstanceAs (Decidable (∀ i : Fin n, a.text.length ≤ i → a i = 0))

namespace CharArray

variable {n : ℕ} {a b : CharArray n}

theorem length_text_le (a : CharArray n) : a.text.length ≤ n := by
  have hpre : a.text <+: List.ofFn a := List.takeWhile_prefix _
  simpa using hpre.length_le

theorem text_getD {i : Fin n} (h : (i : ℕ) < a.text.length) : a.text.getD i 0 = a i := by
  have hpre : a.text <+: List.ofFn a := List.takeWhile_prefix _
  rw [List.getD_eq_getElem _ _ h, hpre.getElem h, List.getElem_ofFn]

theorem ne_zero_of_lt {i : Fin n} (h : (i : ℕ) < a.text.length) : a i ≠ 0 := by
  rw [← text_getD h, List.getD_eq_getElem _ _ h]
  simpa using List.mem_takeWhile_imp (List.getElem_mem h)

theorem length_text_le_of_zero {i : Fin n} (h : a i = 0) : a.text.length ≤ i := by
  by_contra hlt
  exact ne_zero_of_lt (Nat.lt_of_not_le hlt) h

theorem zero_of_length (h : a.text.length < n) : a ⟨a.text.length, h⟩ = 0 := by
  have hlen : a.text.length = (List.ofFn a).findIdx fun c => !decide (c ≠ 0) := by
    rw [text, List.takeWhile_eq_take_findIdx_not, List.length_take]
    exact min_eq_left List.findIdx_le_length
  have hlt : ((List.ofFn a).findIdx fun c => !decide (c ≠ 0)) < (List.ofFn a).length := by
    rwa [← hlen, List.length_ofFn]
  have hzero := List.findIdx_getElem (w := hlt)
  simp only [← hlen, List.getElem_ofFn] at hzero
  simpa using hzero

theorem text_pad {l : List UInt8} (hlen : l.length ≤ n) (hnul : 0 ∉ l) :
    (pad l : CharArray n).text = l := by
  have hofFn : List.ofFn (pad l : CharArray n) = l ++ List.replicate (n - l.length) 0 := by
    refine List.ext_getElem (by simp; omega) fun i hi _ => ?_
    rw [List.getElem_ofFn, List.getElem_append]
    split
    · exact List.getD_eq_getElem _ _ _
    · rw [List.getElem_replicate]
      exact List.getD_eq_default _ _ (by simp; omega)
  have hne : ∀ c ∈ l, decide (c ≠ 0) = true := fun c hc => decide_eq_true fun e => hnul (e ▸ hc)
  rw [text, hofFn, List.takeWhile_append_of_pos hne]
  simp

theorem nul_not_mem_text (a : CharArray n) : 0 ∉ a.text := fun h => by
  simpa using List.mem_takeWhile_imp h

theorem strncpy_eq_pad {i : Fin n} (hi : (i : ℕ) + 1 = n) (h : a i = 0) :
    strncpy a = pad a.text := by
  have hle : a.text.length ≤ i := length_text_le_of_zero h
  have hlt : a.text.length < n := by omega
  funext j
  rw [strncpy, pad]
  split
  · rename_i hj
    refine (text_getD ?_).symm
    by_contra hno
    exact hj.2 ⟨a.text.length, hlt⟩ (Fin.le_def.mpr (Nat.le_of_not_lt hno)) (zero_of_length hlt)
  · rename_i hj
    rw [List.getD_eq_default]
    by_contra hno
    refine hj ⟨by omega, fun k hk => ne_zero_of_lt ?_⟩
    have := Fin.le_def.mp hk
    omega

theorem text_strncpy {i : Fin n} (hi : (i : ℕ) + 1 = n) (h : a i = 0) :
    (strncpy a).text = a.text := by
  rw [strncpy_eq_pad hi h, text_pad (length_text_le a) (nul_not_mem_text a)]

theorem terminated_iff : a.Terminated ↔ a = pad a.text := by
  constructor
  · intro h
    funext i
    by_cases hi : (i : ℕ) < a.text.length
    · exact (text_getD hi).symm
    · rw [h i (Nat.le_of_not_lt hi), pad, List.getD_eq_default _ _ (Nat.le_of_not_lt hi)]
  · intro h i hi
    rw [h, pad, List.getD_eq_default _ _ hi]

/-- Of two arrays with one text, the one terminated, the other is the same array exactly where it is
terminated as well. -/
theorem Terminated.eq_iff (h : a.Terminated) (htext : a.text = b.text) : a = b ↔ b.Terminated := by
  constructor
  · rintro rfl
    exact h
  · intro hb
    rw [terminated_iff.mp h, htext, ← terminated_iff.mp hb]

end CharArray

/-! ### Quotes -/

/-- `tickToPrice`. -/
def tickToPrice (t : ℤ) : ℚ := t / 100

/-- `char sym8[8] = {}; strncpy(sym8, symbol.c_str(), sizeof(sym8) - 1)`. -/
def sym8 (symbol : List UInt8) : CharArray 8 := .pad ((symbol.takeWhile (· ≠ 0)).take 7)

namespace OrderBook

/-- The best bid of the book with the key, zero without one. -/
def bidQuote (s : OrderBook) (key : UInt64) : ℚ :=
  match s.books key with
  | some book => if book.bestBidTick ≠ -1 then tickToPrice book.bestBidTick else 0
  | none => 0

/-- The best ask of the book with the key, zero without one. -/
def askQuote (s : OrderBook) (key : UInt64) : ℚ :=
  match s.books key with
  | some book => if book.bestAskTick ≠ maxTicks then tickToPrice book.bestAskTick else 0
  | none => 0

/-- `bestBid`. -/
def bestBid (s : OrderBook) (symbol : List UInt8) : ℚ := s.bidQuote (symKey (sym8 symbol))

/-- `bestAsk`. -/
def bestAsk (s : OrderBook) (symbol : List UInt8) : ℚ := s.askQuote (symKey (sym8 symbol))

end OrderBook

theorem sym8_text {a : CharArray 8} (h : a 7 = 0) : sym8 a.text = .pad a.text := by
  have hlen : a.text.length ≤ 7 := CharArray.length_text_le_of_zero h
  have hall : a.text.takeWhile (· ≠ 0) = a.text := List.takeWhile_idem
  rw [sym8, hall, List.take_of_length_le hlen]

/-- A quote by the text of a symbol is looked up under the key of the symbol exactly where the array
is terminated. -/
theorem symKey_sym8_text {a : CharArray 8} (h : a 7 = 0) :
    symKey (sym8 a.text) = symKey a ↔ a.Terminated := by
  rw [symKey_injective.eq_iff, sym8_text h, CharArray.terminated_iff, eq_comm]

theorem OrderBook.acceptNewOrder_books {s s' : OrderBook} {o : Order} {log : List Trade}
    (h : s.acceptNewOrder o = .ok (s', log)) {k : UInt64} (hk : k ≠ symKey o.symbol) :
    s'.books k = s.books k := by
  unfold acceptNewOrder at h
  by_cases htick : priceToTick o.price < 0 ∨ priceToTick o.price ≥ maxTicks
  · simp only [if_pos htick, pure_eq_ok] at h
    cases h
    rfl
  simp only [if_neg htick] at h
  cases halloc : s.pool.alloc with
  | none =>
    simp only [halloc, pure_eq_ok] at h
    cases h
    rfl
  | some cut =>
    have hkey : ((cut.2.write cut.1 { o with next := none }).slab cut.1).symbol = o.symbol := by simp
    simp only [halloc, hkey] at h
    obtain ⟨⟨book, slab⟩, -, h⟩ := bind_eq_ok.mp h
    obtain ⟨m, -, h⟩ := bind_eq_ok.mp h
    simp only [pure_eq_ok, Except.ok.injEq, Prod.mk.injEq] at h
    obtain ⟨hs', -⟩ := h
    rw [← hs']
    dsimp only
    rw [Function.update_of_ne hk]

end TradingSim
