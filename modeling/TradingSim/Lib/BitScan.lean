import Mathlib.Data.Nat.Log
import TradingSim.Lib.Machine

/-!
A bitset kept in 64-bit words, and the search for the nearest set bit on either side of a position.

`bitAt bits t` is the bit of position `t`; `setBit` and `clearBit` write one word, and the two
searches mask the word of the starting position, step over zero words, and finish with a count of
leading or trailing zeros. The starting word is masked with `2 << k` minus one, which wraps to all
ones at `k = 63`: `getLsbD_lowMask` covers that case together with the others. `linearDown` and
`linearUp` are the searches that go from one position to the next.
-/

namespace TradingSim.Lib

/-! ### Words -/

theorem lowMask_eq : ∀ k : Fin 64,
    (2#64 <<< (k : ℕ)) - 1#64 = BitVec.ofNat 64 (2 ^ ((k : ℕ) + 1) - 1) := by
  decide

theorem highMask_eq : ∀ k : Fin 64,
    (1#64 <<< (k : ℕ)) - 1#64 = BitVec.ofNat 64 (2 ^ (k : ℕ) - 1) := by
  decide

theorem getLsbD_lowMask {k i : ℕ} (hk : k < 64) (hi : i < 64) :
    ((2#64 <<< k) - 1#64).getLsbD i = decide (i ≤ k) := by
  have h := lowMask_eq ⟨k, hk⟩
  simp only at h
  rw [h, BitVec.getLsbD_ofNat, Nat.testBit_two_pow_sub_one]
  simp [hi]

theorem getLsbD_highMask {k i : ℕ} (hk : k < 64) (hi : i < 64) :
    (~~~((1#64 <<< k) - 1#64)).getLsbD i = decide (k ≤ i) := by
  have h := highMask_eq ⟨k, hk⟩
  simp only at h
  rw [h, BitVec.getLsbD_not, BitVec.getLsbD_ofNat, Nat.testBit_two_pow_sub_one]
  by_cases hki : k ≤ i
  · simp [hi, hki]
  · simp [hi, hki, Nat.lt_of_not_le hki]

theorem getLsbD_one_shift {k i : ℕ} (hi : i < 64) :
    (1#64 <<< k).getLsbD i = decide (i = k) := by
  rw [BitVec.getLsbD_shiftLeft, BitVec.getLsbD_one]
  rcases lt_trichotomy i k with h | rfl | h
  · simp [h, Nat.ne_of_lt h]
  · simp [hi]
  · have h0 : i - k ≠ 0 := by omega
    simp [h0, Nat.ne_of_gt h]

/-- `__builtin_clzll`, undefined at zero. -/
def clzll (x : BitVec 64) : Except Fault ℕ :=
  if x = 0#64 then .error .scanOfZero else .ok x.clz.toNat

/-- `__builtin_ctzll`, undefined at zero. -/
def ctzll (x : BitVec 64) : Except Fault ℕ :=
  if x = 0#64 then .error .scanOfZero else .ok x.ctz.toNat

theorem clzll_spec {x : BitVec 64} (h : x ≠ 0#64) :
    ∃ c, clzll x = .ok c ∧ c ≤ 63 ∧ x.getLsbD (63 - c) = true ∧
      ∀ i, 63 - c < i → x.getLsbD i = false := by
  have hc : x.clz.toNat < 64 := by
    have := (BitVec.clz_lt_iff_ne_zero (x := x)).2 h
    rw [BitVec.lt_def] at this
    simpa using this
  refine ⟨x.clz.toNat, by simp [clzll, h], by omega,
    BitVec.getLsbD_true_clz_of_ne_zero (by omega) h, fun i hi => ?_⟩
  rw [← BitVec.testBit_toNat]
  apply Nat.testBit_lt_two_pow
  exact lt_of_lt_of_le BitVec.toNat_lt_two_pow_sub_clz (Nat.pow_le_pow_right (by omega) (by omega))

theorem log_toNat_of_highest {x : BitVec 64} {m : ℕ} (htop : x.getLsbD m = true)
    (habove : ∀ i, m < i → x.getLsbD i = false) : Nat.log 2 x.toNat = m := by
  refine Nat.log_eq_of_pow_le_of_lt_pow (Nat.ge_two_pow_of_testBit ?_)
    (Nat.lt_pow_two_of_testBit _ fun i hi => ?_)
  · rw [BitVec.testBit_toNat, htop]
  · rw [BitVec.testBit_toNat, habove i hi]

theorem ctzll_spec {x : BitVec 64} (h : x ≠ 0#64) :
    ∃ c, ctzll x = .ok c ∧ c ≤ 63 ∧ x.getLsbD c = true ∧ ∀ i, i < c → x.getLsbD i = false := by
  have hc : x.ctz.toNat < 64 := by
    have := (BitVec.ctz_lt_iff_ne_zero (x := x)).2 h
    rw [BitVec.lt_def] at this
    simpa using this
  exact ⟨x.ctz.toNat, by simp [ctzll, h], by omega, BitVec.getLsbD_true_ctz_of_ne_zero h,
    fun i hi => BitVec.getLsbD_false_of_lt_ctz hi⟩

/-! ### Arrays of words -/

section Words

variable {n : ℕ} (bits : Fin n → BitVec 64)

/-- The bit of position `t`; positions past the last word are clear. -/
def bitAt (t : ℕ) : Bool := if h : t / 64 < n then (bits ⟨t / 64, h⟩).getLsbD (t % 64) else false

/-- `bits[t >> 6] |= 1ULL << (t & 63)`. -/
def setBit (t : ℤ) : Except Fault (Fin n → BitVec 64) := do
  let word ← load bits (t / 64)
  store bits (t / 64) (word ||| 1#64 <<< (t % 64).toNat)

/-- `bits[t >> 6] &= ~(1ULL << (t & 63))`. -/
def clearBit (t : ℤ) : Except Fault (Fin n → BitVec 64) := do
  let word ← load bits (t / 64)
  store bits (t / 64) (word &&& ~~~(1#64 <<< (t % 64).toNat))

variable {bits}

theorem bitAt_word {w : Fin n} {i : ℕ} (hi : i < 64) :
    bitAt bits (w * 64 + i) = (bits w).getLsbD i := by
  have h1 : ((w : ℕ) * 64 + i) / 64 = w := by omega
  have h2 : ((w : ℕ) * 64 + i) % 64 = i := by omega
  unfold bitAt
  rw [dif_pos (by rw [h1]; exact w.isLt), h2]
  congr 2
  exact Fin.ext h1

theorem bitAt_of_le {t : ℕ} (h : n * 64 ≤ t) : bitAt bits t = false := by
  unfold bitAt
  rw [dif_neg (by omega)]

theorem exists_word {t : ℕ} (h : t < n * 64) :
    ∃ (w : Fin n) (i : ℕ), i < 64 ∧ t = w * 64 + i :=
  ⟨⟨t / 64, by omega⟩, t % 64, by omega, by simp only; omega⟩

theorem bitAt_update {w : Fin n} {x : BitVec 64} {u : ℕ} :
    bitAt (Function.update bits w x) u = if u / 64 = w then x.getLsbD (u % 64) else bitAt bits u := by
  by_cases hu : u < n * 64
  · obtain ⟨w', i, hi, rfl⟩ := exists_word hu
    have h1 : ((w' : ℕ) * 64 + i) / 64 = w' := by omega
    have h2 : ((w' : ℕ) * 64 + i) % 64 = i := by omega
    rw [bitAt_word hi, bitAt_word hi, h1, h2]
    by_cases hw : w' = w
    · simp [hw]
    · rw [Function.update_of_ne hw, if_neg (fun h => hw (Fin.ext h))]
  · have := w.isLt
    rw [bitAt_of_le (by omega), bitAt_of_le (by omega), if_neg (by omega)]

variable (bits)

theorem setBit_spec {t : ℕ} (ht : t < n * 64) :
    ∃ bits', setBit bits t = .ok bits' ∧
      ∀ u, bitAt bits' u = (bitAt bits u || decide (u = t)) := by
  obtain ⟨w, i, hi, rfl⟩ := exists_word ht
  have hw : ((((w : ℕ) * 64 + i : ℕ) : ℤ) / 64) = (w : ℕ) := by omega
  have hm : ((((w : ℕ) * 64 + i : ℕ) : ℤ) % 64).toNat = i := by omega
  refine ⟨_, by simp only [setBit, load_eq bits hw, store_eq bits _ hw, ok_bind]; rfl, fun u => ?_⟩
  rw [bitAt_update, hm, BitVec.getLsbD_or, getLsbD_one_shift (by omega)]
  by_cases hu : u / 64 = w
  · rw [if_pos hu]
    have : u = w * 64 + u % 64 := by omega
    conv_rhs => rw [this, bitAt_word (by omega)]
    congr 1
    rw [decide_eq_decide]
    omega
  · rw [if_neg hu]
    have : u ≠ w * 64 + i := by omega
    simp [this]

theorem clearBit_spec {t : ℕ} (ht : t < n * 64) :
    ∃ bits', clearBit bits t = .ok bits' ∧
      ∀ u, bitAt bits' u = (bitAt bits u && !decide (u = t)) := by
  obtain ⟨w, i, hi, rfl⟩ := exists_word ht
  have hw : ((((w : ℕ) * 64 + i : ℕ) : ℤ) / 64) = (w : ℕ) := by omega
  have hm : ((((w : ℕ) * 64 + i : ℕ) : ℤ) % 64).toNat = i := by omega
  refine ⟨_, by simp only [clearBit, load_eq bits hw, store_eq bits _ hw, ok_bind]; rfl,
    fun u => ?_⟩
  rw [bitAt_update, hm, BitVec.getLsbD_and, BitVec.getLsbD_not, getLsbD_one_shift (by omega)]
  by_cases hu : u / 64 = w
  · rw [if_pos hu]
    have : u = w * 64 + u % 64 := by omega
    conv_rhs => rw [this, bitAt_word (by omega)]
    have hlt : u % 64 < 64 := by omega
    simp only [hlt, decide_true, Bool.true_and]
    congr 2
    rw [decide_eq_decide]
    omega
  · rw [if_neg hu]
    have : u ≠ w * 64 + i := by omega
    simp [this]

end Words

/-! ### The nearest set bit -/

section Scan

variable {n : ℕ} (bits : Fin n → BitVec 64)

/-- `while (mask == 0 && w > 0) mask = bits[--w];` and the word it stops at. -/
def scanDown : ℕ → BitVec 64 → Except Fault (ℕ × BitVec 64)
  | 0, mask => .ok (0, mask)
  | w + 1, mask => do
    if mask = 0#64 then
      let word ← load bits w
      scanDown w word
    else .ok (w + 1, mask)

/-- `while (mask == 0 && w < max_w) mask = bits[++w];` for `left` words up to `max_w`, and the
word it stops at. -/
def scanUp : ℕ → ℕ → BitVec 64 → Except Fault (ℕ × BitVec 64)
  | 0, w, mask => .ok (w, mask)
  | left + 1, w, mask => do
    if mask = 0#64 then
      let word ← load bits (w + 1)
      scanUp left (w + 1) word
    else .ok (w, mask)

/-- The highest set position up to and including `fromTick`, or `-1`. -/
def highestSet (fromTick : ℤ) : Except Fault ℤ := do
  if fromTick < 0 then return -1
  let w := fromTick / 64
  let word ← load bits w
  let (w, mask) ← scanDown bits w.toNat (word &&& (2#64 <<< (fromTick % 64).toNat) - 1#64)
  if mask = 0#64 then return -1
  let clz ← clzll mask
  return w * 64 + 63 - clz

/-- The lowest set position from `fromTick` on, or `limit`. -/
def lowestSet (limit : ℤ) (fromTick : ℤ) : Except Fault ℤ := do
  if fromTick ≥ limit then return limit
  let w := fromTick / 64
  let maxW := (limit - 1) / 64
  let word ← load bits w
  let (w, mask) ← scanUp bits (maxW - w).toNat w.toNat
    (word &&& ~~~((1#64 <<< (fromTick % 64).toNat) - 1#64))
  if mask = 0#64 then return limit
  let ctz ← ctzll mask
  return w * 64 + ctz

/-- The bits still to be looked at by a downward scan at word `w` with `mask` in hand. -/
def belowMask (w : ℕ) (mask : BitVec 64) (u : ℕ) : Bool :=
  if u / 64 = w then mask.getLsbD (u % 64) else decide (u / 64 < w) && bitAt bits u

/-- The bits still to be looked at by an upward scan at word `w` with `mask` in hand. -/
def aboveMask (w : ℕ) (mask : BitVec 64) (u : ℕ) : Bool :=
  if u / 64 = w then mask.getLsbD (u % 64) else decide (w < u / 64) && bitAt bits u

theorem belowMask_zero {w : ℕ} (hw : w < n) :
    belowMask bits (w + 1) 0#64 = belowMask bits w (bits ⟨w, hw⟩) := by
  funext u
  unfold belowMask
  by_cases h : u / 64 = w
  · have hu : u = (⟨w, hw⟩ : Fin n) * 64 + u % 64 := by simp only; omega
    rw [if_neg (by omega), if_pos h, decide_eq_true (by omega), Bool.true_and]
    conv_lhs => rw [hu, bitAt_word (by omega)]
  · rw [if_neg h]
    by_cases h' : u / 64 = w + 1
    · rw [if_pos h', decide_eq_false (by omega)]
      simp
    · rw [if_neg h']
      congr 1
      rw [decide_eq_decide]
      omega

theorem aboveMask_zero {w : ℕ} (hw : w + 1 < n) :
    aboveMask bits w 0#64 = aboveMask bits (w + 1) (bits ⟨w + 1, hw⟩) := by
  funext u
  unfold aboveMask
  by_cases h : u / 64 = w + 1
  · have hu : u = (⟨w + 1, hw⟩ : Fin n) * 64 + u % 64 := by simp only; omega
    rw [if_neg (by omega), if_pos h, decide_eq_true (by omega), Bool.true_and]
    conv_lhs => rw [hu, bitAt_word (by omega)]
  · rw [if_neg h]
    by_cases h' : u / 64 = w
    · rw [if_pos h', decide_eq_false (by omega)]
      simp
    · rw [if_neg h']
      congr 1
      rw [decide_eq_decide]
      omega

theorem scanDown_spec : ∀ (w : ℕ) (mask : BitVec 64), w ≤ n →
    ∃ w' mask', scanDown bits w mask = .ok (w', mask') ∧ w' ≤ w ∧
      belowMask bits w' mask' = belowMask bits w mask ∧ (mask' = 0#64 → w' = 0) := by
  intro w
  induction w with
  | zero => exact fun mask _ => ⟨0, mask, rfl, le_rfl, rfl, fun _ => rfl⟩
  | succ w ih =>
    intro mask hw
    by_cases hm : mask = 0#64
    · obtain ⟨w', mask', heq, hle, hbits, hz⟩ := ih (bits ⟨w, by omega⟩) (by omega)
      refine ⟨w', mask', ?_, by omega, ?_, hz⟩
      · rw [scanDown, if_pos hm, load_eq bits (k := ⟨w, by omega⟩) rfl, ok_bind, heq]
      · rw [hbits, hm, belowMask_zero]
    · exact ⟨w + 1, mask, by rw [scanDown, if_neg hm], le_rfl, rfl, fun h => absurd h hm⟩

theorem scanUp_spec : ∀ (left w : ℕ) (mask : BitVec 64), w + left < n →
    ∃ w' mask', scanUp bits left w mask = .ok (w', mask') ∧ w ≤ w' ∧ w' ≤ w + left ∧
      aboveMask bits w' mask' = aboveMask bits w mask ∧ (mask' = 0#64 → w' = w + left) := by
  intro left
  induction left with
  | zero => exact fun w mask _ => ⟨w, mask, rfl, le_rfl, le_rfl, rfl, fun _ => rfl⟩
  | succ left ih =>
    intro w mask hw
    by_cases hm : mask = 0#64
    · obtain ⟨w', mask', heq, hge, hle, hbits, hz⟩ := ih (w + 1) (bits ⟨w + 1, by omega⟩) (by omega)
      refine ⟨w', mask', ?_, by omega, by omega, ?_, fun h => by rw [hz h]; omega⟩
      · rw [scanUp, if_pos hm, load_eq bits (k := ⟨w + 1, by omega⟩) (by simp), ok_bind, heq]
      · rw [hbits, hm, aboveMask_zero]
    · exact ⟨w, mask, by rw [scanUp, if_neg hm], le_rfl, by omega, rfl, fun h => absurd h hm⟩

variable {bits}

theorem belowMask_start {w : Fin n} {k : ℕ} (hk : k < 64) (u : ℕ) :
    belowMask bits w (bits w &&& (2#64 <<< k) - 1#64) u =
      (decide (u ≤ w * 64 + k) && bitAt bits u) := by
  unfold belowMask
  by_cases h : u / 64 = w
  · have hu : u = w * 64 + u % 64 := by omega
    rw [if_pos h, BitVec.getLsbD_and, getLsbD_lowMask hk (by omega), Bool.and_comm]
    conv_rhs => rw [hu, bitAt_word (by omega)]
    congr 1
    rw [decide_eq_decide]
    omega
  · rw [if_neg h]
    congr 1
    rw [decide_eq_decide]
    omega

theorem aboveMask_start {w : Fin n} {k : ℕ} (hk : k < 64) (u : ℕ) :
    aboveMask bits w (bits w &&& ~~~((1#64 <<< k) - 1#64)) u =
      (decide (w * 64 + k ≤ u) && bitAt bits u) := by
  unfold aboveMask
  by_cases h : u / 64 = w
  · have hu : u = w * 64 + u % 64 := by omega
    rw [if_pos h, BitVec.getLsbD_and, getLsbD_highMask hk (by omega), Bool.and_comm]
    conv_rhs => rw [hu, bitAt_word (by omega)]
    congr 1
    rw [decide_eq_decide]
    omega
  · rw [if_neg h]
    congr 1
    rw [decide_eq_decide]
    omega

variable (bits)

/-- **The downward search.** It finds the greatest set position up to the start, or `-1`. -/
theorem highestSet_spec {f : ℕ} (hf : f < n * 64) :
    ∃ r : ℤ, highestSet bits f = .ok r ∧
      ((r = -1 ∧ ∀ u ≤ f, bitAt bits u = false) ∨
        ∃ t : ℕ, r = t ∧ t ≤ f ∧ bitAt bits t = true ∧
          ∀ u, t < u → u ≤ f → bitAt bits u = false) := by
  obtain ⟨w, k, hk, rfl⟩ := exists_word hf
  have hw : ((((w : ℕ) * 64 + k : ℕ) : ℤ) / 64) = (w : ℕ) := by omega
  have hm : ((((w : ℕ) * 64 + k : ℕ) : ℤ) % 64).toNat = k := by omega
  obtain ⟨w', mask', heq, hle, hbits, hz⟩ :=
    scanDown_spec bits w (bits w &&& (2#64 <<< k) - 1#64) w.isLt.le
  have hsee : ∀ u, belowMask bits w' mask' u = (decide (u ≤ w * 64 + k) && bitAt bits u) :=
    fun u => by rw [hbits, belowMask_start hk]
  have hrun : highestSet bits ((w * 64 + k : ℕ) : ℤ) =
      if mask' = 0#64 then .ok (-1) else clzll mask' >>= fun c => .ok ((w' : ℤ) * 64 + 63 - c) := by
    unfold highestSet
    rw [if_neg (by omega)]
    simp only [hw, hm, load_eq bits (k := w) rfl, Int.toNat_natCast, heq, ok_bind, pure_eq_ok]
  by_cases hm' : mask' = 0#64
  · refine ⟨-1, by rw [hrun, if_pos hm'], Or.inl ⟨rfl, fun u hu => ?_⟩⟩
    have h := hsee u
    rw [hz hm', hm', decide_eq_true hu, Bool.true_and] at h
    rw [← h]
    simp [belowMask]
  · obtain ⟨c, hc, hc63, htop, hover⟩ := clzll_spec hm'
    have hpos : ∀ u, w' * 64 + (63 - c) < u → u ≤ w * 64 + k → bitAt bits u = false := by
      intro u hu1 hu2
      have h := hsee u
      rw [decide_eq_true hu2, Bool.true_and] at h
      rw [← h]
      unfold belowMask
      by_cases hu : u / 64 = w'
      · rw [if_pos hu]
        exact hover _ (by omega)
      · rw [if_neg hu, decide_eq_false (by omega), Bool.false_and]
    have hbit := hsee (w' * 64 + (63 - c))
    unfold belowMask at hbit
    rw [if_pos (by omega), show (w' * 64 + (63 - c)) % 64 = 63 - c by omega, htop] at hbit
    obtain ⟨hin, hset⟩ := Bool.and_eq_true_iff.mp hbit.symm
    refine ⟨_, by rw [hrun, if_neg hm', hc, ok_bind],
      Or.inr ⟨w' * 64 + (63 - c), by omega, of_decide_eq_true hin, hset, hpos⟩⟩

/-- **The upward search.** With nothing set from `limit` on, it finds the least set position from
the start on, or `limit`. -/
theorem lowestSet_spec {limit f : ℕ} (hlim : limit ≤ n * 64) (hf : f < limit)
    (hnone : ∀ u, limit ≤ u → bitAt bits u = false) :
    ∃ r : ℤ, lowestSet bits limit f = .ok r ∧
      ((r = limit ∧ ∀ u, f ≤ u → bitAt bits u = false) ∨
        ∃ t : ℕ, r = t ∧ f ≤ t ∧ t < limit ∧ bitAt bits t = true ∧
          ∀ u, f ≤ u → u < t → bitAt bits u = false) := by
  obtain ⟨w, k, hk, rfl⟩ := exists_word (n := n) (t := f) (by omega)
  have hwn := w.isLt
  have hw : ((((w : ℕ) * 64 + k : ℕ) : ℤ) / 64) = (w : ℕ) := by omega
  have hm : ((((w : ℕ) * 64 + k : ℕ) : ℤ) % 64).toNat = k := by omega
  obtain ⟨left, hleft⟩ : ∃ left : ℕ, (limit - 1) / 64 = w + left := ⟨(limit - 1) / 64 - w, by omega⟩
  have hl : (((limit : ℤ) - 1) / 64 - (w : ℕ)).toNat = left := by omega
  obtain ⟨w', mask', heq, hge, hle, hbits, hz⟩ :=
    scanUp_spec bits left w (bits w &&& ~~~((1#64 <<< k) - 1#64)) (by omega)
  have hsee : ∀ u, aboveMask bits w' mask' u = (decide (w * 64 + k ≤ u) && bitAt bits u) :=
    fun u => by rw [hbits, aboveMask_start hk]
  have hrun : lowestSet bits limit ((w * 64 + k : ℕ) : ℤ) =
      if mask' = 0#64 then .ok (limit : ℤ) else ctzll mask' >>= fun c => .ok ((w' : ℤ) * 64 + c) := by
    unfold lowestSet
    rw [if_neg (by omega)]
    simp only [hw, hm, hl, load_eq bits (k := w) rfl, Int.toNat_natCast, heq, ok_bind, pure_eq_ok]
  by_cases hm' : mask' = 0#64
  · refine ⟨limit, by rw [hrun, if_pos hm'], Or.inl ⟨rfl, fun u hu => ?_⟩⟩
    by_cases hul : limit ≤ u
    · exact hnone u hul
    · have h := hsee u
      rw [hz hm', hm', decide_eq_true hu, Bool.true_and] at h
      rw [← h]
      unfold aboveMask
      rw [decide_eq_false (by omega)]
      simp
  · obtain ⟨c, hc, hc63, hbot, hunder⟩ := ctzll_spec hm'
    have hpos : ∀ u, w * 64 + k ≤ u → u < w' * 64 + c → bitAt bits u = false := by
      intro u hu1 hu2
      have h := hsee u
      rw [decide_eq_true hu1, Bool.true_and] at h
      rw [← h]
      unfold aboveMask
      by_cases hu : u / 64 = w'
      · rw [if_pos hu]
        exact hunder _ (by omega)
      · rw [if_neg hu, decide_eq_false (by omega), Bool.false_and]
    have hbit := hsee (w' * 64 + c)
    unfold aboveMask at hbit
    rw [if_pos (by omega), show (w' * 64 + c) % 64 = c by omega, hbot] at hbit
    obtain ⟨hin, hset⟩ := Bool.and_eq_true_iff.mp hbit.symm
    have hlt : w' * 64 + c < limit := by
      by_contra hge'
      rw [hnone _ (by omega)] at hset
      cases hset
    exact ⟨_, by rw [hrun, if_neg hm', hc, ok_bind],
      Or.inr ⟨w' * 64 + c, by push_cast; ring, of_decide_eq_true hin, hlt, hset, hpos⟩⟩

end Scan

/-! ### One position after the other -/

section Linear

/-- `while (t >= 0 && !p(t)) --t`, from the position before the argument on. -/
def linearDown (p : ℕ → Bool) : ℕ → ℤ
  | 0 => -1
  | t + 1 => if p t then t else linearDown p t

/-- `while (t < limit && !p(t)) ++t`, with `left` positions from `t` up to the limit. -/
def linearUp (p : ℕ → Bool) : ℕ → ℕ → ℤ
  | 0, t => t
  | left + 1, t => if p t then t else linearUp p left (t + 1)

variable {p : ℕ → Bool}

theorem linearDown_of_none {m : ℕ} (h : ∀ u < m, p u = false) : linearDown p m = -1 := by
  induction m with
  | zero => rfl
  | succ m ih =>
    rw [linearDown, h m (Nat.lt_succ_self m), if_neg Bool.false_ne_true]
    exact ih fun u hu => h u (by omega)

theorem linearDown_of_last {m t : ℕ} (ht : t < m) (hp : p t = true)
    (h : ∀ u, t < u → u < m → p u = false) : linearDown p m = t := by
  induction m with
  | zero => omega
  | succ m ih =>
    rw [linearDown]
    by_cases htm : t = m
    · rw [← htm, if_pos hp]
    · rw [h m (by omega) (Nat.lt_succ_self m), if_neg Bool.false_ne_true]
      exact ih (by omega) fun u htu hu => h u htu (by omega)

theorem linearUp_of_none {left t : ℕ} (h : ∀ u, t ≤ u → u < t + left → p u = false) :
    linearUp p left t = (t + left : ℕ) := by
  induction left generalizing t with
  | zero => rfl
  | succ left ih =>
    rw [linearUp, h t le_rfl (by omega), if_neg Bool.false_ne_true,
      ih fun u htu hu => h u (by omega) (by omega)]
    congr 1
    omega

theorem linearUp_of_first {left t f : ℕ} (hft : f ≤ t) (ht : t < f + left) (hp : p t = true)
    (h : ∀ u, f ≤ u → u < t → p u = false) : linearUp p left f = t := by
  induction left generalizing f with
  | zero => omega
  | succ left ih =>
    rw [linearUp]
    by_cases hf : f = t
    · rw [hf, if_pos hp]
    · rw [h f le_rfl (by omega), if_neg Bool.false_ne_true]
      exact ih (by omega) (by omega) fun u hfu hu => h u (by omega) hu

end Linear

end TradingSim.Lib
