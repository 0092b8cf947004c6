import Mathlib.Data.Int.Log
import Mathlib.Data.Nat.Cast.Order.Field
import Mathlib.Data.Rat.Floor
import Mathlib.Tactic.Linarith
import Mathlib.Tactic.Positivity
import Mathlib.Tactic.Ring

/-!
Rounding of rational numbers to a fixed number of binary digits, and the bits of a `double`.

`roundTo p` gives the nearest number of `p` binary digits, of two the one with the even significand, and
has no bound on the exponent. It is at least as near as every such number (`roundTo_nearest`), which gives
the comparisons with numbers that are representable, and its relative error is at most `2 ^ -p`
(`abs_roundTo_sub_le`). At 53 digits it is the rounding of a `double` (`toDouble`) that neither overflows
nor underflows; `binary64` and `ofBinary64` are the 64 bits of such a number and back.
-/

namespace TradingSim.Lib

/-- The nearest integer, and of two the even one. -/
def roundEven (x : ℚ) : ℤ :=
  if 1 / 2 < x - ⌊x⌋ ∨ (x - ⌊x⌋ = 1 / 2 ∧ ⌊x⌋ % 2 = 1) then ⌊x⌋ + 1 else ⌊x⌋

theorem abs_roundEven_sub_le (x : ℚ) (n : ℤ) : |(roundEven x : ℚ) - x| ≤ |n - x| := by
  have hlow := Int.floor_le x
  have hhigh := Int.lt_floor_add_one x
  have hn : (n : ℚ) ≤ ⌊x⌋ ∨ (⌊x⌋ : ℚ) + 1 ≤ n := by
    rcases le_or_gt n ⌊x⌋ with h | h
    · exact Or.inl (by exact_mod_cast h)
    · exact Or.inr (by exact_mod_cast h)
  have hbelow := neg_le_abs ((n : ℚ) - x)
  have habove := le_abs_self ((n : ℚ) - x)
  unfold roundEven
  split
  · rename_i hup
    have hhalf : 1 / 2 ≤ x - ⌊x⌋ := hup.elim le_of_lt fun h => h.1.ge
    rw [Int.cast_add, Int.cast_one, abs_of_pos (by linarith)]
    rcases hn with hn | hn <;> linarith
  · rename_i hdown
    have hhalf : x - ⌊x⌋ ≤ 1 / 2 := not_lt.mp fun h => hdown (Or.inl h)
    rw [abs_of_nonpos (by linarith)]
    rcases hn with hn | hn <;> linarith

theorem abs_roundEven_sub_le_half (x : ℚ) : |(roundEven x : ℚ) - x| ≤ 1 / 2 := by
  have hlow := Int.floor_le x
  have hhigh := Int.lt_floor_add_one x
  rcases le_total (x - ⌊x⌋) (1 / 2) with h | h
  · refine (abs_roundEven_sub_le x ⌊x⌋).trans ?_
    rw [abs_of_nonpos (by linarith)]
    linarith
  · refine (abs_roundEven_sub_le x (⌊x⌋ + 1)).trans ?_
    rw [Int.cast_add, Int.cast_one, abs_of_pos (by linarith)]
    linarith

theorem roundEven_eq {x : ℚ} {n : ℤ} (h : |(n : ℚ) - x| < 1 / 2) : roundEven x = n := by
  have hnear := abs_lt.mp ((abs_roundEven_sub_le x n).trans_lt h)
  have hn := abs_lt.mp h
  have hlow : ((roundEven x - 1 : ℤ) : ℚ) < n := by
    push_cast
    linarith
  have hhigh : (n : ℚ) < (roundEven x + 1 : ℤ) := by
    push_cast
    linarith
  have hlow' : roundEven x - 1 < n := by exact_mod_cast hlow
  have hhigh' : n < roundEven x + 1 := by exact_mod_cast hhigh
  omega

/-! ### Numbers of `p` binary digits -/

/-- The weight of the last of `p` binary digits of a number. -/
def ulp (p : ℕ) (x : ℚ) : ℚ := 2 ^ (Int.log 2 |x| + 1 - p)

/-- The nearest number of `p` binary digits. -/
def roundTo (p : ℕ) (x : ℚ) : ℚ := roundEven (x / ulp p x) * ulp p x

def Representable (p : ℕ) (x : ℚ) : Prop := ∃ m e : ℤ, |m| ≤ 2 ^ p ∧ x = m * 2 ^ e

variable {p : ℕ} {x d : ℚ}

theorem ulp_pos (p : ℕ) (x : ℚ) : 0 < ulp p x := zpow_pos (by norm_num) _

theorem two_pow_mul_ulp (p : ℕ) (x : ℚ) : 2 ^ p * ulp p x = 2 ^ (Int.log 2 |x| + 1) := by
  rw [ulp, ← zpow_natCast, ← zpow_add₀ (by norm_num)]
  congr 1
  ring

theorem abs_lt_two_pow_mul_ulp (p : ℕ) (x : ℚ) : |x| < 2 ^ p * ulp p x := by
  rw [two_pow_mul_ulp]
  exact Int.lt_zpow_succ_log_self (by norm_num) _

theorem two_zpow_log_le (hx : x ≠ 0) : (2 : ℚ) ^ Int.log 2 |x| ≤ |x| :=
  Int.zpow_log_le_self (by norm_num) (abs_pos.mpr hx)

theorem abs_roundTo_sub (p : ℕ) (x : ℚ) :
    |roundTo p x - x| = |(roundEven (x / ulp p x) : ℚ) - x / ulp p x| * ulp p x := by
  have hpos := ulp_pos p x
  rw [← abs_of_pos hpos, ← abs_mul, abs_of_pos hpos, sub_mul, div_mul_cancel₀ _ hpos.ne', roundTo]

theorem roundTo_nearest_multiple (p : ℕ) (x : ℚ) (n : ℤ) :
    |roundTo p x - x| ≤ |n * ulp p x - x| := by
  have hpos := ulp_pos p x
  have hmul : |n * ulp p x - x| = |(n : ℚ) - x / ulp p x| * ulp p x := by
    rw [← abs_of_pos hpos, ← abs_mul, abs_of_pos hpos, sub_mul, div_mul_cancel₀ _ hpos.ne']
  rw [abs_roundTo_sub, hmul]
  exact mul_le_mul_of_nonneg_right (abs_roundEven_sub_le _ n) hpos.le

theorem roundTo_zero (p : ℕ) : roundTo p 0 = 0 := by
  have h := roundTo_nearest_multiple p 0 0
  simpa using h

theorem abs_roundTo_sub_le (p : ℕ) (x : ℚ) : |roundTo p x - x| ≤ |x| / 2 ^ p := by
  rcases eq_or_ne x 0 with rfl | hx
  · simp [roundTo_zero]
  have hulp : 2 ^ p * ulp p x ≤ 2 * |x| := by
    rw [two_pow_mul_ulp, zpow_add₀ (by norm_num), zpow_one, mul_comm]
    exact mul_le_mul_of_nonneg_left (two_zpow_log_le hx) (by norm_num)
  rw [abs_roundTo_sub, le_div_iff₀ (by positivity)]
  calc |(roundEven (x / ulp p x) : ℚ) - x / ulp p x| * ulp p x * 2 ^ p
      ≤ 1 / 2 * ulp p x * 2 ^ p := by
        have hhalf := abs_roundEven_sub_le_half (x / ulp p x)
        have hpos := ulp_pos p x
        gcongr
    _ ≤ |x| := by linarith

theorem representable_zpow (p : ℕ) (e : ℤ) : Representable p (2 ^ e) :=
  ⟨1, e, by simpa using one_le_pow₀ (by norm_num), by simp⟩

theorem representable_natCast {n : ℕ} (h : n ≤ 2 ^ p) : Representable p n :=
  ⟨n, 0, by rw [Nat.abs_cast]; exact_mod_cast h, by simp⟩

theorem representable_roundTo (p : ℕ) (x : ℚ) : Representable p (roundTo p x) := by
  refine ⟨roundEven (x / ulp p x), _, ?_, rfl⟩
  have hpos := ulp_pos p x
  -- the significand before it is rounded is below a power of two, which is an integer
  have hquot : |x / ulp p x| < 2 ^ p := by
    rw [abs_div, abs_of_pos hpos, div_lt_iff₀ hpos]
    exact abs_lt_two_pow_mul_ulp p x
  have hhalf := abs_roundEven_sub_le_half (x / ulp p x)
  have hlt : |(roundEven (x / ulp p x) : ℚ)| < 2 ^ p + 1 := by
    have htri := abs_sub_abs_le_abs_sub (roundEven (x / ulp p x) : ℚ) (x / ulp p x)
    linarith
  have hint : |roundEven (x / ulp p x)| < 2 ^ p + 1 := by exact_mod_cast hlt
  omega

/-- A number of `p` digits is a multiple of the last digit of a binade, or not above its lower end. -/
theorem Representable.multiple_or_le (h : Representable p d) (k : ℤ) :
    (∃ n : ℤ, d = n * 2 ^ (k + 1 - p)) ∨ |d| ≤ 2 ^ k := by
  obtain ⟨m, e, hm, rfl⟩ := h
  rcases le_or_gt (k + 1 - p) e with hle | hlt
  · left
    obtain ⟨j, hj⟩ := Int.eq_ofNat_of_zero_le (sub_nonneg.mpr hle)
    refine ⟨m * 2 ^ j, ?_⟩
    have he : e = j + (k + 1 - p) := by omega
    rw [he, zpow_add₀ (by norm_num), zpow_natCast]
    push_cast
    ring
  · right
    have hm' : |(m : ℚ)| ≤ 2 ^ p := by exact_mod_cast hm
    have hpow : (0 : ℚ) < 2 ^ e := zpow_pos (by norm_num) e
    calc |(m : ℚ) * 2 ^ e| = |(m : ℚ)| * 2 ^ e := by rw [abs_mul, abs_of_pos hpow]
      _ ≤ 2 ^ p * 2 ^ (k - p) := by
          have hle : (2 : ℚ) ^ e ≤ 2 ^ (k - p) := zpow_le_zpow_right₀ (by norm_num) (by omega)
          exact mul_le_mul hm' hle hpow.le (by positivity)
      _ = 2 ^ k := by
          rw [← zpow_natCast, ← zpow_add₀ (by norm_num)]
          congr 1
          ring

/-- **No number of `p` digits is nearer.** -/
theorem roundTo_nearest (hp : 0 < p) (h : Representable p d) : |roundTo p x - x| ≤ |d - x| := by
  rcases eq_or_ne x 0 with rfl | hx
  · simp [roundTo_zero]
  rcases h.multiple_or_le (Int.log 2 |x|) with ⟨n, rfl⟩ | hsmall
  · exact roundTo_nearest_multiple p x n
  -- the lower end of the binade, with the sign of the number, lies between the two
  have hend : (2 : ℚ) ^ (p - 1) * ulp p x = 2 ^ Int.log 2 |x| := by
    rw [ulp, ← zpow_natCast, ← zpow_add₀ (by norm_num)]
    congr 1
    push_cast [Nat.one_le_iff_ne_zero.mpr hp.ne']
    ring
  have hlow := two_zpow_log_le hx
  rcases abs_cases x with ⟨hpos, -⟩ | ⟨hneg, -⟩
  · have hmultiple := roundTo_nearest_multiple p x (2 ^ (p - 1))
    push_cast at hmultiple
    have hdist : |(2 : ℚ) ^ Int.log 2 |x| - x| = x - 2 ^ Int.log 2 |x| := by
      rw [abs_of_nonpos (by linarith), neg_sub]
    rw [hend, hdist] at hmultiple
    have hd := le_abs_self d
    have habs := neg_le_abs (d - x)
    linarith
  · have hmultiple := roundTo_nearest_multiple p x (-2 ^ (p - 1))
    push_cast at hmultiple
    have hdist : |-(2 : ℚ) ^ Int.log 2 |x| - x| = -2 ^ Int.log 2 |x| - x :=
      abs_of_nonneg (by linarith)
    rw [neg_mul, hend, hdist] at hmultiple
    have hd := neg_le_abs d
    have habs := le_abs_self (d - x)
    linarith

theorem roundTo_eq (hp : 0 < p) (h : Representable p d) : roundTo p d = d := by
  have hnear := roundTo_nearest (x := d) hp h
  rw [sub_self, abs_zero] at hnear
  exact sub_eq_zero.mp (abs_nonpos_iff.mp hnear)

theorem roundTo_le (hp : 0 < p) (h : Representable p d) (hx : x ≤ d) : roundTo p x ≤ d := by
  by_contra hlt
  have hnear := roundTo_nearest (x := x) hp h
  rw [abs_of_nonneg (sub_nonneg.mpr hx)] at hnear
  have habs := le_abs_self (roundTo p x - x)
  linarith

theorem le_roundTo (hp : 0 < p) (h : Representable p d) (hx : d ≤ x) : d ≤ roundTo p x := by
  by_contra hlt
  have hnear := roundTo_nearest (x := x) hp h
  rw [abs_of_nonpos (sub_nonpos.mpr hx)] at hnear
  have habs := neg_le_abs (roundTo p x - x)
  linarith

/-- The rounded quotient of integers of at most `p` digits does not reach the next integer. -/
theorem floor_roundTo_div (hp : 0 < p) {a n : ℕ} (hn : 0 < n) (ha : a < 2 ^ p) :
    ⌊roundTo p ((a : ℚ) / n)⌋ = ((a / n : ℕ) : ℤ) := by
  have hnq : (0 : ℚ) < n := by exact_mod_cast hn
  rw [Int.floor_eq_iff, Int.cast_natCast]
  constructor
  · exact le_roundTo hp (representable_natCast ((Nat.div_le_self a n).trans ha.le)) Nat.cast_div_le
  · have herror := (le_abs_self _).trans (abs_roundTo_sub_le p ((a : ℚ) / n))
    have hsmall : |(a : ℚ) / n| / 2 ^ p < 1 / n := by
      rw [abs_of_nonneg (by positivity), div_div, div_lt_div_iff₀ (by positivity) hnq, one_mul, mul_comm]
      have ha' : (a : ℚ) < 2 ^ p := by exact_mod_cast ha
      exact mul_lt_mul_of_pos_left ha' hnq
    have hnext : ((a : ℚ) + 1) / n ≤ (a / n : ℕ) + 1 := by
      rw [div_le_iff₀ hnq]
      have hlt : a + 1 ≤ (a / n + 1) * n := by
        rw [add_mul, one_mul]
        exact Nat.lt_div_mul_add hn
      exact_mod_cast hlt
    rw [add_div] at hnext
    linarith

/-! ### `double` -/

/-- The value of an operation on `double`s, from its exact value. -/
abbrev toDouble : ℚ → ℚ := roundTo 53

/-- The numbers for which the exponent of a `double` suffices, but for the subnormal ones. -/
def InRange (x : ℚ) : Prop := x = 0 ∨ 2 ^ (-1022 : ℤ) ≤ |x| ∧ |x| < 2 ^ (1024 : ℤ)

/-- The bits of a `double`: the sign, eleven bits of the exponent and 52 of the significand. -/
def binary64 (x : ℚ) : ℕ :=
  if x = 0 then 0
  else (if x < 0 then 2 ^ 63 else 0) + (Int.log 2 |x| + 1023).toNat * 2 ^ 52 +
    (⌊|x| / ulp 53 x⌋₊ - 2 ^ 52)

/-- The number that has given bits, which are not those of an infinity or a NaN. -/
def ofBinary64 (bits : ℕ) : ℚ :=
  let e : ℕ := bits / 2 ^ 52 % 2 ^ 11
  let f : ℕ := bits % 2 ^ 52
  let magnitude : ℚ :=
    if e = 0 then f * 2 ^ (-1074 : ℤ) else ((2 ^ 52 + f : ℕ) : ℚ) * 2 ^ ((e : ℤ) - 1075)
  if bits / 2 ^ 63 % 2 = 1 then -magnitude else magnitude

theorem exists_significand (h : Representable 53 x) (hx : x ≠ 0) :
    ∃ m : ℕ, 2 ^ 52 ≤ m ∧ m < 2 ^ 53 ∧ |x| = m * ulp 53 x := by
  have hpos := ulp_pos 53 x
  have hend : ((2 ^ 52 : ℕ) : ℚ) * ulp 53 x = 2 ^ Int.log 2 |x| := by
    rw [ulp, Nat.cast_pow, ← zpow_natCast, Nat.cast_ofNat, ← zpow_add₀ (by norm_num)]
    congr 1
    push_cast
    ring
  obtain ⟨m, hm⟩ : ∃ m : ℕ, |x| = m * ulp 53 x := by
    rcases h.multiple_or_le (Int.log 2 |x|) with ⟨n, hn⟩ | hle
    · refine ⟨n.natAbs, ?_⟩
      have habs : |x| = |(n : ℚ)| * ulp 53 x := by
        rw [← abs_of_pos hpos, ← abs_mul]
        exact congrArg _ hn
      rw [habs, Nat.cast_natAbs, Int.cast_abs]
    · exact ⟨2 ^ 52, by rw [hend]; exact le_antisymm hle (two_zpow_log_le hx)⟩
  refine ⟨m, ?_, ?_, hm⟩
  · have hle := two_zpow_log_le hx
    rw [← hend, hm] at hle
    exact_mod_cast le_of_mul_le_mul_right hle hpos
  · have hlt := abs_lt_two_pow_mul_ulp 53 x
    rw [hm] at hlt
    exact_mod_cast lt_of_mul_lt_mul_right hlt hpos.le

/-- **The bits of a `double` determine it.** -/
theorem ofBinary64_binary64 (h : Representable 53 x) (hrange : InRange x) :
    binary64 x < 2 ^ 64 ∧ ofBinary64 (binary64 x) = x := by
  rcases hrange with rfl | ⟨hlow, hhigh⟩
  · simp [binary64, ofBinary64]
  have hx : x ≠ 0 := by
    rintro rfl
    rw [abs_zero] at hlow
    exact absurd hlow (not_le.mpr (zpow_pos (by norm_num) _))
  obtain ⟨m, hmin, hmax, hm⟩ := exists_significand h hx
  have hfloor : ⌊|x| / ulp 53 x⌋₊ = m := by
    rw [hm, mul_div_cancel_right₀ _ (ulp_pos 53 x).ne', Nat.floor_natCast]
  have hexp : -1022 ≤ Int.log 2 |x| ∧ Int.log 2 |x| < 1024 := by
    constructor
    · exact (Int.zpow_le_iff_le_log (by norm_num) (abs_pos.mpr hx)).mp hlow
    · exact (Int.lt_zpow_iff_log_lt (by norm_num) (abs_pos.mpr hx)).mp hhigh
  obtain ⟨e, he⟩ : ∃ e : ℕ, Int.log 2 |x| + 1023 = e := Int.eq_ofNat_of_zero_le (by omega)
  have hmagnitude : ((2 ^ 52 + (m - 2 ^ 52) : ℕ) : ℚ) * 2 ^ ((e : ℤ) - 1075) = |x| := by
    rw [hm, ulp, Nat.add_sub_cancel' hmin, ← he]
    congr 2
    push_cast
    ring
  have hbits : ∀ s < 2, binary64 x = s * 2 ^ 63 + e * 2 ^ 52 + (m - 2 ^ 52) →
      binary64 x < 2 ^ 64 ∧
        ofBinary64 (binary64 x) = if s = 1 then -|x| else |x| := by
    intro s hs heq
    have hfields : binary64 x / 2 ^ 52 % 2 ^ 11 = e ∧ binary64 x % 2 ^ 52 = m - 2 ^ 52 ∧
        binary64 x / 2 ^ 63 % 2 = s := by omega
    refine ⟨by omega, ?_⟩
    rw [ofBinary64, hfields.1, hfields.2.1, hfields.2.2]
    simp only [if_neg (show e ≠ 0 by omega), hmagnitude]
  have hencode : binary64 x = (if x < 0 then 2 ^ 63 else 0) + e * 2 ^ 52 + (m - 2 ^ 52) := by
    rw [binary64, if_neg hx, he, hfloor, Int.toNat_natCast]
  by_cases hneg : x < 0
  · obtain ⟨hlt, heq⟩ := hbits 1 (by norm_num) (by rw [hencode, if_pos hneg]; ring)
    rw [if_pos rfl, abs_of_neg hneg, neg_neg] at heq
    exact ⟨hlt, heq⟩
  · obtain ⟨hlt, heq⟩ := hbits 0 (by norm_num) (by rw [hencode, if_neg hneg]; ring)
    rw [if_neg (by norm_num), abs_of_nonneg (not_lt.mp hneg)] at heq
    exact ⟨hlt, heq⟩

end TradingSim.Lib
