import Mathlib.Data.Nat.Digits.Defs
import TradingSim.Fix.Reading

/-!
The digit loop of tag 38, against the number that its value denotes.

`digitValue` is the loop over the integers; `digits` is its residue, and its value as long as no
product or sum leaves `int32_t` (`StaysInRange`). The loop takes any byte for a digit, so it computes
the number for a string of digits within range, and for other bytes a number as well. Whether that is
positive is settled by the first byte other than `0` as long as none behind it outweighs it (`Below`,
`Above`): `quantity_digits` says by the bytes of a value whether the result is as it should be.
-/

namespace TradingSim

open Lib

namespace FixSessionReader

/-- The digit loop without a bound on its integers. -/
def digitValue (val : List UInt8) : ℤ := val.foldl (fun qty c => qty * 10 + (c.toInt8.toInt - 48)) 0

/-- A value of `int32_t`. -/
def InRange (z : ℤ) : Prop := -2147483648 ≤ z ∧ z ≤ 2147483647

/-- The product and the sum of every round are values of `int32_t`. -/
def StaysInRange (val : List UInt8) : Prop :=
  ∀ pre c post, val = pre ++ c :: post →
    InRange (digitValue pre * 10) ∧ InRange (digitValue (pre ++ [c]))

def IsDigit (c : UInt8) : Prop := 48 ≤ c.toNat ∧ c.toNat ≤ 57

/-- The value is a string of decimal digits for `n`. -/
def Denotes (val : List UInt8) (n : ℕ) : Prop :=
  val ≠ [] ∧ (∀ c ∈ val, IsDigit c) ∧ Nat.ofDigits 10 (val.reverse.map fun c => c.toNat - 48) = n

/-- What the quantity field is to do with a value: the loop stays in range, a number that fits is the
result, and everything else gives no positive quantity. -/
def QuantityOk (val : List UInt8) : Prop :=
  StaysInRange val ∧ (∀ n ≤ 2147483647, Denotes val n → (digits val).toInt = n) ∧
    ((¬ ∃ n ≤ 2147483647, Denotes val n) → (digits val).toInt ≤ 0)

/-- Behind leading zeros the value goes on with a byte below the digits, none above them follows, and
there are at most eight bytes from that one on. -/
def Below (val : List UInt8) : Prop :=
  ∃ k c rest, val = List.replicate k 48 ++ c :: rest ∧ c.toInt8.toInt < 48 ∧
    (∀ d ∈ rest, d.toInt8.toInt ≤ 57) ∧ rest.length ≤ 7

/-- Behind leading zeros the value goes on with a byte above `0`, and no byte that follows is more than
nine below it. -/
def Above (val : List UInt8) : Prop :=
  ∃ k c rest, val = List.replicate k 48 ++ c :: rest ∧ 48 < c.toInt8.toInt ∧
    ∀ d ∈ rest, 39 ≤ d.toInt8.toInt

section

variable {val pre post rest : List UInt8} {c : UInt8} {n : ℕ}

theorem digitValue_snoc (val : List UInt8) (c : UInt8) :
    digitValue (val ++ [c]) = digitValue val * 10 + (c.toInt8.toInt - 48) := by
  rw [digitValue, List.foldl_append, ← digitValue]
  rfl

theorem digits_eq (val : List UInt8) : digits val = Int32.ofInt (digitValue val) := by
  induction val using List.reverseRecOn with
  | nil => rfl
  | append_singleton val c ih =>
    rw [digitValue_snoc, Int32.ofInt_add, Int32.ofInt_mul, Int32.ofInt_sub, Int32.ofInt_int8ToInt,
      ← ih, digits, List.foldl_append]
    rfl

theorem toInt_ofInt {z : ℤ} (h : InRange z) : (Int32.ofInt z).toInt = z := by
  unfold InRange at h
  exact Int32.toInt_ofInt_of_le (by omega) (by omega)

theorem IsDigit.toInt_toInt8 (h : IsDigit c) : c.toInt8.toInt = c.toNat :=
  BitVec.toInt_eq_toNat_of_lt (x := c.toBitVec) (by
    have : c.toBitVec.toNat = c.toNat := rfl
    unfold IsDigit at h
    omega)

theorem digitValue_of_digits (h : ∀ c ∈ val, IsDigit c) :
    digitValue val = (Nat.ofDigits 10 (val.reverse.map fun c => c.toNat - 48) : ℕ) := by
  induction val using List.reverseRecOn with
  | nil => rfl
  | append_singleton val c ih =>
    obtain ⟨hval, hc⟩ := List.forall_mem_append.mp h
    have hd : IsDigit c := hc c (List.mem_singleton_self c)
    rw [digitValue_snoc, ih hval, hd.toInt_toInt8, List.reverse_append, List.reverse_singleton,
      List.singleton_append, List.map_cons, Nat.ofDigits_cons]
    unfold IsDigit at hd
    push_cast [hd.1]
    omega

theorem digitValue_nonneg (h : ∀ c ∈ val, IsDigit c) : 0 ≤ digitValue val := by
  rw [digitValue_of_digits h]
  exact Int.natCast_nonneg _

theorem digitValue_le_append (h : ∀ c ∈ pre ++ post, IsDigit c) :
    digitValue pre ≤ digitValue (pre ++ post) := by
  induction post using List.reverseRecOn with
  | nil => rw [List.append_nil]
  | append_singleton post c ih =>
    rw [← List.append_assoc] at h ⊢
    obtain ⟨hpost, hc⟩ := List.forall_mem_append.mp h
    have hd : IsDigit c := hc c (List.mem_singleton_self c)
    have hpos := digitValue_nonneg hpost
    rw [digitValue_snoc, hd.toInt_toInt8]
    unfold IsDigit at hd
    have := ih hpost
    omega

/-- **A number that fits** is computed without leaving the range. -/
theorem Denotes.digitValue_eq (h : Denotes val n) : digitValue val = n := by
  rw [digitValue_of_digits h.2.1, h.2.2]

theorem Denotes.staysInRange (h : Denotes val n) (hn : n ≤ 2147483647) : StaysInRange val := by
  rintro pre c post rfl
  have hdigits := h.2.1
  rw [List.append_cons] at hdigits
  have hle := digitValue_le_append hdigits
  rw [← List.append_cons, h.digitValue_eq] at hle
  obtain ⟨hsnoc, -⟩ := List.forall_mem_append.mp hdigits
  obtain ⟨hpre, hc⟩ := List.forall_mem_append.mp hsnoc
  have hd : IsDigit c := hc c (List.mem_singleton_self c)
  have hpos := digitValue_nonneg hpre
  rw [digitValue_snoc, hd.toInt_toInt8] at hle ⊢
  unfold IsDigit at hd
  unfold InRange
  omega

theorem StaysInRange.inRange (h : StaysInRange val) : InRange (digitValue val) := by
  induction val using List.reverseRecOn with
  | nil => exact ⟨by decide, by decide⟩
  | append_singleton val c _ => exact (h val c [] rfl).2

theorem StaysInRange.toInt_digits (h : StaysInRange val) : (digits val).toInt = digitValue val := by
  rw [digits_eq, toInt_ofInt h.inRange]

theorem Denotes.toInt_digits (h : Denotes val n) (hn : n ≤ 2147483647) : (digits val).toInt = n := by
  rw [(h.staysInRange hn).toInt_digits, h.digitValue_eq]

/-- The values that the field does right by are the numbers that fit, and those with a result that is
not positive, if the loop gets there. -/
theorem quantityOk_iff : QuantityOk val ↔
    (∃ n ≤ 2147483647, Denotes val n) ∨ (StaysInRange val ∧ digitValue val ≤ 0) := by
  constructor
  · rintro ⟨hstays, -, hother⟩
    by_cases hn : ∃ n ≤ 2147483647, Denotes val n
    · exact Or.inl hn
    · exact Or.inr ⟨hstays, hstays.toInt_digits ▸ hother hn⟩
  · intro h
    have hstays : StaysInRange val := by
      rcases h with ⟨n, hn, hval⟩ | h
      · exact hval.staysInRange hn
      · exact h.1
    refine ⟨hstays, fun n hn hval => hval.toInt_digits hn, fun hno => ?_⟩
    rw [hstays.toInt_digits]
    exact (h.resolve_left hno).2

/-! ### The result by the bytes of the value -/

theorem digitValue_zeros (k : ℕ) (val : List UInt8) :
    digitValue (List.replicate k 48 ++ val) = digitValue val := by
  induction k with
  | zero => rfl
  | succ k ih => exact ih

theorem StaysInRange.zeros (h : StaysInRange val) (k : ℕ) :
    StaysInRange (List.replicate k 48 ++ val) := by
  induction k with
  | zero => exact h
  | succ k ih =>
    intro pre c post hsplit
    cases pre with
    | nil =>
      obtain ⟨rfl, -⟩ := List.cons.inj (hsplit : 48 :: _ = c :: post)
      exact ⟨by unfold InRange; decide, by unfold InRange; decide⟩
    | cons z pre =>
      obtain ⟨rfl, hrest⟩ := List.cons.inj (hsplit : 48 :: _ = z :: (pre ++ c :: post))
      exact ih pre c post hrest

theorem nine_abs_digitValue_le (val : List UInt8) :
    9 * |digitValue val| ≤ 176 * (10 ^ val.length - 1) := by
  induction val using List.reverseRecOn with
  | nil => decide
  | append_singleton val c ih =>
    have hlow : -128 ≤ c.toInt8.toInt := Int8.le_toInt c.toInt8
    have hhigh : c.toInt8.toInt ≤ 127 := Int8.toInt_le c.toInt8
    have hc : |c.toInt8.toInt - 48| ≤ 176 := abs_le.mpr ⟨by omega, by omega⟩
    rw [digitValue_snoc, List.length_append, List.length_singleton, pow_succ]
    calc 9 * |digitValue val * 10 + (c.toInt8.toInt - 48)|
        ≤ 9 * (|digitValue val * 10| + |c.toInt8.toInt - 48|) := by gcongr; exact abs_add_le _ _
      _ = 9 * |digitValue val| * 10 + 9 * |c.toInt8.toInt - 48| := by
        rw [abs_mul, show |(10 : ℤ)| = 10 from rfl]
        ring
      _ ≤ 176 * (10 ^ val.length - 1) * 10 + 9 * 176 := by gcongr
      _ = 176 * (10 ^ val.length * 10 - 1) := by ring

theorem staysInRange_of_length (h : val.length ≤ 8) : StaysInRange val := by
  rintro pre c post rfl
  simp only [List.length_append, List.length_cons] at h
  have hpre := nine_abs_digitValue_le pre
  have hsnoc := nine_abs_digitValue_le (pre ++ [c])
  have hpow : (10 : ℤ) ^ pre.length ≤ 10 ^ 7 := pow_le_pow_right₀ (by norm_num) (by omega)
  have hpow' : (10 : ℤ) ^ (pre ++ [c]).length ≤ 10 ^ 8 :=
    pow_le_pow_right₀ (by norm_num) (by simp; omega)
  have hle := abs_le.mp (show |digitValue pre| ≤ 195555536 by omega)
  have hle' := abs_le.mp (show |digitValue (pre ++ [c])| ≤ 1955555536 by omega)
  unfold InRange
  omega

/-- The first digit decides the sign of the number if none behind it is more than nine the other way.
`σ` is 1 or -1. -/
theorem digitValue_sign (σ : ℤ) (hc : 0 < σ * (c.toInt8.toInt - 48))
    (hrest : ∀ d ∈ rest, -9 ≤ σ * (d.toInt8.toInt - 48)) : 0 < σ * digitValue (c :: rest) := by
  induction rest using List.reverseRecOn with
  | nil =>
    rw [← List.nil_append [c], digitValue_snoc]
    simpa [digitValue] using hc
  | append_singleton rest d ih =>
    obtain ⟨hrest, hd⟩ := List.forall_mem_append.mp hrest
    have hd := hd d (List.mem_singleton_self d)
    rw [← List.cons_append, digitValue_snoc]
    calc 0 < 10 * (σ * digitValue (c :: rest)) - 9 := by have := ih hrest; omega
      _ ≤ 10 * (σ * digitValue (c :: rest)) + σ * (d.toInt8.toInt - 48) := by omega
      _ = σ * (digitValue (c :: rest) * 10 + (d.toInt8.toInt - 48)) := by ring

theorem Below.quantityOk (h : Below val) : QuantityOk val := by
  obtain ⟨k, c, rest, rfl, hc, hrest, hlen⟩ := h
  have hneg : 0 < -1 * digitValue (c :: rest) := digitValue_sign (-1) (by omega) fun d hd => by
    have := hrest d hd
    omega
  refine quantityOk_iff.mpr (Or.inr ⟨(staysInRange_of_length ?_).zeros k, ?_⟩)
  · rw [List.length_cons]
    omega
  · rw [digitValue_zeros]
    omega

theorem Above.quantityOk_iff (h : Above val) : QuantityOk val ↔ ∃ n ≤ 2147483647, Denotes val n := by
  obtain ⟨k, c, rest, rfl, hc, hrest⟩ := h
  have hpos : 0 < 1 * digitValue (c :: rest) := digitValue_sign 1 (by omega) fun d hd => by
    have := hrest d hd
    omega
  rw [FixSessionReader.quantityOk_iff, digitValue_zeros]
  exact ⟨fun h => h.resolve_right fun h' => absurd h'.2 (by omega), Or.inl⟩

theorem quantityOk_trailing (h : Denotes pre n) (hc : c.toInt8.toInt < 48) :
    QuantityOk (pre ++ [c]) ↔ 10 * (n : ℤ) ≤ 48 - c.toInt8.toInt := by
  have hvalue : digitValue (pre ++ [c]) = 10 * n - (48 - c.toInt8.toInt) := by
    rw [digitValue_snoc, h.digitValue_eq]
    ring
  have hnot : ¬ ∃ m ≤ 2147483647, Denotes (pre ++ [c]) m := by
    rintro ⟨m, -, -, hdigits, -⟩
    have hd : IsDigit c := hdigits c (by simp)
    have := hd.toInt_toInt8
    unfold IsDigit at hd
    omega
  have hlow : -128 ≤ c.toInt8.toInt := Int8.le_toInt c.toInt8
  rw [quantityOk_iff, or_iff_right hnot, hvalue]
  refine ⟨fun h => by omega, fun hle => ⟨?_, by omega⟩⟩
  -- the number is at most 17, so only the last round is left to look at
  intro pre' d post hsplit
  have hnum : StaysInRange pre := h.staysInRange (by omega)
  cases post using List.reverseRecOn with
  | nil =>
    obtain ⟨rfl, hd⟩ := List.append_inj' hsplit rfl
    obtain rfl : c = d := by simpa using hd
    rw [hvalue, h.digitValue_eq]
    unfold InRange
    omega
  | append_singleton post e =>
    rw [← List.cons_append, ← List.append_assoc] at hsplit
    exact hnum pre' d post (List.append_inj' hsplit rfl).1

/-- **The quantity of an order** is what the digit loop makes of the last value of tag 38 that is
read, or zero. For a value of that tag the loop does as it should if the value is a number that fits,
is empty, or goes on below the digits behind its zeros; if it goes on above `0`, only for a number that
fits; and for a number with one byte below the digits behind it, if that byte outweighs it. -/
theorem quantity_digits (atof : List UInt8 → ℚ) (arrivalNs : Int64) (line : List UInt8) :
    ∃ order, parseFixLine atof arrivalNs line = .ok order ∧
      order.quantity = ((valuesOf tagQuantity (readFields line)).getLast?.map digits).getD 0 ∧
      ∀ val ∈ valuesOf tagQuantity (readFields line),
        ((∃ n ≤ 2147483647, Denotes val n) ∨ val = [] ∨ Below val → QuantityOk val) ∧
        (Above val → (QuantityOk val ↔ ∃ n ≤ 2147483647, Denotes val n)) ∧
        ∀ pre c n, val = pre ++ [c] → Denotes pre n → c.toInt8.toInt < 48 →
          (QuantityOk val ↔ 10 * (n : ℤ) ≤ 48 - c.toInt8.toInt) := by
  refine ⟨_, parseFixLine_eq atof arrivalNs line, readOrder_quantity atof arrivalNs line,
    fun val _ => ⟨?_, Above.quantityOk_iff, ?_⟩⟩
  · rintro (hfits | rfl | hbelow)
    · exact quantityOk_iff.mpr (Or.inl hfits)
    · exact quantityOk_iff.mpr (Or.inr ⟨staysInRange_of_length (by simp), le_rfl⟩)
    · exact hbelow.quantityOk
  · rintro pre c n rfl hpre hc
    exact quantityOk_trailing hpre hc

/-- The value of `38=12` with a carriage return behind it is no number, and the quantity is 85. -/
theorem quantity_carriage_return :
    ∃ order, parseFixLine (fun _ => 0) 0 [51, 56, 61, 49, 50, 13] = .ok order ∧
      valuesOf tagQuantity (readFields [51, 56, 61, 49, 50, 13]) = [[49, 50, 13]] ∧
      (¬ ∃ n ≤ 2147483647, Denotes [49, 50, 13] n) ∧ order.quantity = 85 := by
  refine ⟨_, parseFixLine_eq _ _ _, by decide, ?_, by decide⟩
  rintro ⟨n, -, -, hdigits, -⟩
  have h13 : IsDigit 13 := hdigits 13 (by decide)
  exact absurd h13.1 (by decide)

end

end FixSessionReader

end TradingSim
