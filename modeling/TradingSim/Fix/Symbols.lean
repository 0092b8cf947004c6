import TradingSim.Fix.Reading
import TradingSim.OrderBook.Quotes

/-!
The symbol of a parsed order as an array, as a text and as the key of a book.

Every value of tag 55 is copied over what the one before left in the array, and only up to its own
NUL. The bytes behind it stay, and the key is taken of all eight: an order can have a text of one
book and the key of another. Which byte stays at a place is a matter of the values alone: it is that
of the last value that reaches the place (`byteAt`). The lines whose key is that of their text are
those in which no such byte is left behind the text (`Clean`, `symbol_key_canonical`).
-/

namespace TradingSim

namespace FixSessionReader

/-- The values of tag 55 that are read from a line. -/
def symbolValues (line : List UInt8) : List (List UInt8) := valuesOf tagSymbol (readFields line)

/-- The text that the last value of tag 55 leaves. -/
def symbolText (vals : List (List UInt8)) : List UInt8 := (vals.getLast?.map (stored 7)).getD []

/-- The byte that the last value to reach the place `i` has there. A value reaches the place of its
own NUL as well, and that byte is zero. -/
def byteAt (vals : List (List UInt8)) (i : ℕ) : UInt8 :=
  ((vals.filter fun val => i ≤ val.length).getLast?.getD []).getD i 0

/-- Behind the text, the last value to reach a place has a NUL there. -/
def Clean (vals : List (List UInt8)) : Prop :=
  ∀ i < 7, (symbolText vals).length ≤ i → byteAt vals i = 0

instance (vals : List (List UInt8)) : Decidable (Clean vals) :=
  inferInstanceAs (Decidable (∀ i < 7, (symbolText vals).length ≤ i → byteAt vals i = 0))

/-- Orders of the same text have the same key, and it is the key that the quotes of that text are
looked up by. -/
def CanonicalKey (o₁ o₂ : Order) : Prop :=
  o₁.symbol.text = o₂.symbol.text → symKey o₁.symbol = symKey o₂.symbol ∧
    symKey (sym8 o₁.symbol.text) = symKey o₁.symbol ∧
    symKey (sym8 o₂.symbol.text) = symKey o₂.symbol

/-- The symbol array after the values of tag 55. -/
def symbolOf (vals : List (List UInt8)) : CharArray 8 := vals.foldl copyInto fun _ => 0

section

variable {vals vals₁ vals₂ : List (List UInt8)}

theorem symbolOf_snoc (vals : List (List UInt8)) (val : List UInt8) :
    symbolOf (vals ++ [val]) = copyInto (symbolOf vals) val := List.foldl_append

theorem copyInto_last {n : ℕ} {dst : CharArray (n + 1)} (h : dst (Fin.last n) = 0)
    (val : List UInt8) : copyInto dst val (Fin.last n) = 0 := by
  simp only [copyInto, Fin.val_last]
  split_ifs with h₁ h₂
  · omega
  · rfl
  · exact h

theorem symbolOf_last (vals : List (List UInt8)) : symbolOf vals 7 = 0 := by
  induction vals using List.reverseRecOn with
  | nil => rfl
  | append_singleton vals val ih =>
    rw [symbolOf_snoc]
    exact copyInto_last ih val

theorem byteAt_snoc (vals : List (List UInt8)) (val : List UInt8) (i : ℕ) :
    byteAt (vals ++ [val]) i = if i ≤ val.length then val.getD i 0 else byteAt vals i := by
  unfold byteAt
  rw [List.filter_append, List.filter_singleton]
  split_ifs with h
  · simp [h]
  · simp [h]

theorem symbolOf_apply (vals : List (List UInt8)) {i : Fin 8} (hi : (i : ℕ) < 7) :
    symbolOf vals i = byteAt vals i := by
  induction vals using List.reverseRecOn with
  | nil => rfl
  | append_singleton vals val ih =>
    rw [symbolOf_snoc, byteAt_snoc]
    simp only [copyInto]
    split_ifs with hlt heq hle
    · rfl
    · omega
    · exact (List.getD_eq_default _ _ (by omega)).symm
    · omega
    · omega
    · exact ih

theorem text_symbolOf (vals : List (List UInt8)) : (symbolOf vals).text = symbolText vals := by
  rw [symbolText]
  induction vals using List.reverseRecOn with
  | nil => rfl
  | append_singleton vals val _ =>
    rw [symbolOf_snoc, text_copyInto, List.getLast?_concat]
    rfl

theorem symbolOf_eq_iff :
    symbolOf vals₁ = symbolOf vals₂ ↔ ∀ i < 7, byteAt vals₁ i = byteAt vals₂ i := by
  constructor
  · intro h i hi
    have hat := congrFun h ⟨i, by omega⟩
    rwa [symbolOf_apply vals₁ hi, symbolOf_apply vals₂ hi] at hat
  · intro h
    funext i
    by_cases hi : (i : ℕ) < 7
    · rw [symbolOf_apply vals₁ hi, symbolOf_apply vals₂ hi, h i hi]
    · obtain rfl : i = 7 := by omega
      rw [symbolOf_last, symbolOf_last]

theorem terminated_symbolOf_iff : (symbolOf vals).Terminated ↔ Clean vals := by
  unfold CharArray.Terminated Clean
  rw [text_symbolOf]
  constructor
  · intro h i hi hlen
    rw [← symbolOf_apply vals (i := ⟨i, by omega⟩) hi]
    exact h ⟨i, by omega⟩ hlen
  · intro h i hlen
    by_cases hi : (i : ℕ) < 7
    · rw [symbolOf_apply vals hi]
      exact h i hi hlen
    · obtain rfl : i = 7 := by omega
      exact symbolOf_last vals

theorem symbol_readOrder (atof : List UInt8 → ℚ) (arrivalNs : Int64) (line : List UInt8) :
    (readOrder atof arrivalNs line).symbol = symbolOf (symbolValues line) :=
  readOrder_symbol atof arrivalNs line

/-- Of two orders with the same text, the keys are those of the text where nothing is left behind it
in either array. -/
theorem canonicalKey_iff {o₁ o₂ : Order} (h₁ : o₁.symbol 7 = 0) (h₂ : o₂.symbol 7 = 0) :
    CanonicalKey o₁ o₂ ↔
      o₁.symbol.text ≠ o₂.symbol.text ∨ o₁.symbol.Terminated ∧ o₂.symbol.Terminated := by
  unfold CanonicalKey
  rw [symKey_sym8_text h₁, symKey_sym8_text h₂]
  constructor
  · intro h
    by_cases htext : o₁.symbol.text = o₂.symbol.text
    · exact Or.inr (h htext).2
    · exact Or.inl htext
  · rintro (hne | ⟨hterm₁, hterm₂⟩) htext
    · exact absurd htext hne
    · exact ⟨congrArg symKey ((hterm₁.eq_iff htext).mpr hterm₂), hterm₁, hterm₂⟩

/-- **The key of a symbol is that of its text**, for two lines, exactly where their texts differ or
the values of tag 55 leave nothing behind the text in either; the keys themselves are equal where the
last values to reach a place agree on it. An order that goes into a book touches no other, and for a
clean line it is the book that the quotes of its text are taken from. -/
theorem symbol_key_canonical (atof : List UInt8 → ℚ) (t₁ t₂ : Int64) (line₁ line₂ : List UInt8) :
    ∃ o₁ o₂, parseFixLine atof t₁ line₁ = .ok o₁ ∧ parseFixLine atof t₂ line₂ = .ok o₂ ∧
      (CanonicalKey o₁ o₂ ↔ symbolText (symbolValues line₁) ≠ symbolText (symbolValues line₂) ∨
        Clean (symbolValues line₁) ∧ Clean (symbolValues line₂)) ∧
      (symKey o₁.symbol = symKey o₂.symbol ↔
        ∀ i < 7, byteAt (symbolValues line₁) i = byteAt (symbolValues line₂) i) ∧
      ∀ (s s' : OrderBook) log, s.acceptNewOrder o₁ = .ok (s', log) →
        (∀ k ≠ symKey o₁.symbol, s'.books k = s.books k) ∧
        (Clean (symbolValues line₁) →
          s'.bestBid o₁.symbol.text = s'.bidQuote (symKey o₁.symbol) ∧
          s'.bestAsk o₁.symbol.text = s'.askQuote (symKey o₁.symbol)) := by
  have hsym₁ := symbol_readOrder atof t₁ line₁
  have hsym₂ := symbol_readOrder atof t₂ line₂
  have hlast₁ : (readOrder atof t₁ line₁).symbol 7 = 0 := hsym₁ ▸ symbolOf_last _
  have hlast₂ : (readOrder atof t₂ line₂).symbol 7 = 0 := hsym₂ ▸ symbolOf_last _
  refine ⟨_, _, parseFixLine_eq atof t₁ line₁, parseFixLine_eq atof t₂ line₂, ?_, ?_,
    fun s s' log hs => ⟨fun k hk => OrderBook.acceptNewOrder_books hs hk, fun hclean => ?_⟩⟩
  · rw [canonicalKey_iff hlast₁ hlast₂, hsym₁, hsym₂, text_symbolOf, text_symbolOf,
      terminated_symbolOf_iff, terminated_symbolOf_iff]
  · rw [symKey_injective.eq_iff, hsym₁, hsym₂, symbolOf_eq_iff]
  · have hkey := (symKey_sym8_text hlast₁).mpr (hsym₁ ▸ terminated_symbolOf_iff.mpr hclean)
    rw [OrderBook.bestBid, OrderBook.bestAsk, hkey]
    exact ⟨rfl, rfl⟩

-- `55=AB|55=X` leaves only the NUL of its first value behind the second
example : Clean (symbolValues [53, 53, 61, 65, 66, 124, 53, 53, 61, 88]) := by decide

end

/-- `55=ABCDEF|55=XY` and `55=XY` have the same text and different keys, and the quotes of the text are
not looked up in the book of the first. -/
theorem symbol_key_leftover :
    ∃ o₁ o₂, parseFixLine (fun _ => 0) 0
        [53, 53, 61, 65, 66, 67, 68, 69, 70, 124, 53, 53, 61, 88, 89] = .ok o₁ ∧
      parseFixLine (fun _ => 0) 0 [53, 53, 61, 88, 89] = .ok o₂ ∧
      o₁.symbol.text = [88, 89] ∧ o₂.symbol.text = [88, 89] ∧
      symKey o₁.symbol ≠ symKey o₂.symbol ∧ symKey (sym8 [88, 89]) ≠ symKey o₁.symbol :=
  ⟨_, _, parseFixLine_eq _ _ _, parseFixLine_eq _ _ _, by decide, by decide, by decide, by decide⟩

end FixSessionReader

end TradingSim
