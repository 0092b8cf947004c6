import TradingSim.Metrics.Reset
import Mathlib.Data.Rat.Floor

/-!
`LatencyTracker::percentile`: the first bucket up to which the histogram has reached the rank that is
looked for, reported as the power of two at the lower end of the bucket.

With the counters as after a history of samples, the loop has seen `below samples (b + 1)` samples when
it has added bucket `b` (`walk_eq`), so it stops at the first bucket at which this number reaches the
rank (`Stops`). No sample is in the last bucket, so the loop stops before it and never shifts into the
sign bit. Larger percentages stop later, and never above the maximum (`Monitored.percentile_ordering`).

The rank is rounded down, and so the answer can be a bucket too low: it is right exactly if the rank
was an integer, or no power of two has just the rounded rank's number of samples below it
(`Monitored.percentile_accuracy`).
-/

namespace TradingSim

open Lib LatencyTracker

namespace LatencyTracker

/-! ### The code -/

/-- `1LL << b`. A shift into the sign bit has no value. -/
def shiftOne (b : ℕ) : Except Fault Int64 :=
  if b < 63 then .ok (Int64.ofNat (1 <<< b)) else .error .outOfRange

/-- `target`: the rank that is looked for. -/
def target (t : LatencyTracker) (pct : ℚ) : UInt64 :=
  UInt64.ofNat ⌊(t.count.toNat : ℚ) * pct / 100⌋₊

/-- The loop over the buckets, at `b` and with `cum` counted so far: the bucket at which it returns. -/
def walk (t : LatencyTracker) (target : UInt64) (b : ℕ) (cum : UInt64) : Option (Fin 64) :=
  if h : b < 64 then
    let cum := cum + t.buckets ⟨b, h⟩
    if cum ≥ target then some ⟨b, h⟩ else t.walk target (b + 1) cum
  else none
termination_by 64 - b

/-- `percentile`. -/
def percentile (t : LatencyTracker) (pct : ℚ) : Except Fault Int64 :=
  if t.count = 0 then .ok 0
  else
    match t.walk (t.target pct) 0 0 with
    | some b => if (b : ℕ) = 0 then .ok 1 else shiftOne b
    | none => .ok t.maxNs

/-! ### Samples by bucket -/

section Below

variable {samples : List Int64} {ns : Int64} {b c : ℕ}

/-- The number of samples in the buckets before `b`. -/
def below (samples : List Int64) (b : ℕ) : ℕ := samples.countP fun ns => bucketIndex ns < b

theorem below_zero : below samples 0 = 0 := by simp [below]

theorem below_succ : below samples (b + 1) =
    below samples b + samples.countP fun ns => bucketIndex ns = b := by
  induction samples with
  | nil => rfl
  | cons ns samples ih =>
    simp only [below, List.countP_cons, decide_eq_true_eq] at ih ⊢
    rw [ih]
    split_ifs <;> omega

theorem below_mono (h : b ≤ c) : below samples b ≤ below samples c := by
  apply List.countP_mono_left
  intro ns _ hb
  simp only [decide_eq_true_eq] at hb ⊢
  omega

theorem bucketIndex_lt (ns : Int64) : bucketIndex ns < 63 := by
  have hlt := Int64.toInt_lt ns
  rw [bucketIndex]
  by_cases hzero : ns.toInt.toNat = 0
  · rw [hzero, Nat.log_zero_right]
    norm_num
  · rw [Nat.log_lt_iff_lt_pow one_lt_two hzero]
    omega

theorem below_last (samples : List Int64) : below samples 63 = samples.length := by
  rw [below, List.countP_eq_length]
  exact fun ns _ => decide_eq_true (bucketIndex_lt ns)

theorem bucketIndex_lt_iff (h : 0 < ns) : bucketIndex ns < b ↔ ns.toInt < 2 ^ b := by
  have hpos : 0 < ns.toInt := Int64.lt_iff_toInt_lt.mp h
  rw [bucketIndex, Nat.log_lt_iff_lt_pow one_lt_two (by omega), ← Int.ofNat_lt]
  push_cast
  rw [Int.toNat_of_nonneg hpos.le]

theorem below_eq_countP (hpos : ∀ ns ∈ samples, 0 < ns) (b : ℕ) :
    below samples b = samples.countP fun ns => ns.toInt < 2 ^ b := by
  apply List.countP_congr
  intro ns hns
  simp only [decide_eq_true_eq]
  exact bucketIndex_lt_iff (hpos ns hns)

theorem pow_bucketIndex_le (h : 0 < ns) : 2 ^ bucketIndex ns ≤ ns.toInt := by
  by_contra hlt
  exact absurd ((bucketIndex_lt_iff h).mpr (not_le.mp hlt)) (lt_irrefl _)

end Below

/-! ### The loop -/

section Walk

variable {t : LatencyTracker} {samples : List Int64} {target : UInt64} {b c : ℕ}

/-- The bucket at which the loop stops: the first one up to which there are as many samples as looked
for. -/
structure Stops (samples : List Int64) (target : UInt64) (b : ℕ) : Prop where
  lt : b < 63
  reach : target ≤ UInt64.ofNat (below samples (b + 1))
  first : ∀ c < b, UInt64.ofNat (below samples (c + 1)) < target

/-- **One iteration.** -/
theorem walk_eq (h : t.Summary samples) (hb : b < 64) :
    t.walk target b (UInt64.ofNat (below samples b)) =
      if target ≤ UInt64.ofNat (below samples (b + 1)) then some ⟨b, hb⟩
      else t.walk target (b + 1) (UInt64.ofNat (below samples (b + 1))) := by
  have hcum : UInt64.ofNat (below samples b) + t.buckets ⟨b, hb⟩ =
      UInt64.ofNat (below samples (b + 1)) := by
    rw [h.bucket, ← UInt64.ofNat_add, below_succ]
  rw [walk, dif_pos hb]
  simp only [hcum, ge_iff_le]

theorem walk_of_stops (h : t.Summary samples) (hs : Stops samples target c) (hb : b ≤ c) :
    t.walk target b (UInt64.ofNat (below samples b)) = some ⟨c, hs.lt.trans (Nat.lt_succ_self 63)⟩ := by
  have hlt := hs.lt
  -- down from the bucket it stops at
  induction hb using Nat.decreasingInduction with
  | self =>
    rw [walk_eq h (by omega), if_pos hs.reach]
  | of_succ b hb ih =>
    rw [walk_eq h (by omega), if_neg (UInt64.not_le.mpr (hs.first b hb)), ih]

theorem exists_stops (hle : target ≤ UInt64.ofNat samples.length) : ∃ b, Stops samples target b := by
  have hlast : ∃ b, target ≤ UInt64.ofNat (below samples (b + 1)) := ⟨62, by rwa [below_last]⟩
  refine ⟨Nat.find hlast, ?_, Nat.find_spec hlast, fun c hc => ?_⟩
  · exact Nat.lt_succ_of_le (Nat.find_min' hlast (by rwa [below_last]))
  · exact UInt64.not_le.mp (Nat.find_min hlast hc)

theorem Stops.le {target' : UInt64} (h : Stops samples target b) (h' : Stops samples target' c)
    (hle : target ≤ target') : b ≤ c := by
  by_contra hlt
  exact absurd (UInt64.le_trans hle h'.reach) (UInt64.not_le.mpr (h.first c (not_le.mp hlt)))

theorem Stops.occupied (h : Stops samples target b) (hb : b ≠ 0) :
    ∃ ns ∈ samples, bucketIndex ns = b := by
  by_contra hnone
  have hempty : samples.countP (fun ns => bucketIndex ns = b) = 0 := by
    rw [List.countP_eq_zero]
    intro ns hns
    simpa using fun e => hnone ⟨ns, hns, e⟩
  have hprev := h.first (b - 1) (by omega)
  have hreach := h.reach
  rw [Nat.sub_add_cancel (by omega)] at hprev
  rw [below_succ, hempty, Nat.add_zero] at hreach
  exact absurd hreach (UInt64.not_le.mpr hprev)

end Walk

/-! ### The rank -/

section Rank

variable {t : LatencyTracker} {samples : List Int64} {p q pct : ℚ}

theorem floor_rank_le (hpct : pct ≤ 100) :
    ⌊(t.count.toNat : ℚ) * pct / 100⌋₊ ≤ t.count.toNat := by
  apply Nat.floor_le_of_le
  have hn : (0 : ℚ) ≤ t.count.toNat := Nat.cast_nonneg _
  nlinarith

theorem toNat_target (hpct : pct ≤ 100) :
    (t.target pct).toNat = ⌊(t.count.toNat : ℚ) * pct / 100⌋₊ := by
  have hle := floor_rank_le (t := t) hpct
  have hlt := t.count.toNat_lt
  rw [target, UInt64.toNat_ofNat', Nat.mod_eq_of_lt (by omega)]

theorem target_le_count (hpct : pct ≤ 100) : t.target pct ≤ t.count := by
  rw [UInt64.le_iff_toNat_le, toNat_target hpct]
  exact floor_rank_le hpct

theorem target_mono (hpq : p ≤ q) (hq : q ≤ 100) : t.target p ≤ t.target q := by
  rw [UInt64.le_iff_toNat_le, toNat_target (hpq.trans hq), toNat_target hq]
  apply Nat.floor_mono
  have hn : (0 : ℚ) ≤ t.count.toNat := Nat.cast_nonneg _
  gcongr

/-- **What is reported**: the lower end of the bucket at which the loop stops. -/
theorem percentile_eq (h : t.Summary samples) (hpct : pct ≤ 100) :
    ∃ b, Stops samples (t.target pct) b ∧
      (∃ hb : b < 64, t.walk (t.target pct) 0 0 = some ⟨b, hb⟩) ∧
      (t.count ≠ 0 → t.percentile pct = .ok (Int64.ofNat (2 ^ b))) := by
  obtain ⟨b, hs⟩ := exists_stops (h.count ▸ target_le_count hpct)
  have hwalk := walk_of_stops h hs (Nat.zero_le b)
  rw [below_zero] at hwalk
  refine ⟨b, hs, ⟨_, hwalk⟩, fun hcount => ?_⟩
  have hwalk' : t.walk (t.target pct) 0 0 = some ⟨b, hs.lt.trans (Nat.lt_succ_self 63)⟩ := hwalk
  rw [percentile, if_neg hcount, hwalk']
  simp only
  split
  · rename_i hzero
    rw [hzero]
    rfl
  · rw [shiftOne, if_pos hs.lt, Nat.one_shiftLeft]

theorem toInt_pow {b : ℕ} (h : b < 63) : (Int64.ofNat (2 ^ b)).toInt = 2 ^ b := by
  rw [Int64.toInt_ofNat_of_lt (Nat.pow_lt_pow_right one_lt_two h)]
  push_cast
  rfl

end Rank

/-! ### Order -/

section Order

variable {t : LatencyTracker} {samples : List Int64} {b c : ℕ} {p q pct : ℚ}

theorem pow_le_pow_int64 (hbc : b ≤ c) (hc : c < 63) :
    Int64.ofNat (2 ^ b) ≤ Int64.ofNat (2 ^ c) := by
  rw [Int64.le_iff_toInt_le, toInt_pow (hbc.trans_lt hc), toInt_pow hc]
  exact pow_le_pow_right₀ one_le_two hbc

theorem Stops.exists_ge {target : UInt64} (h : Stops samples target b)
    (hpos : ∀ ns ∈ samples, 0 < ns) (hne : samples ≠ []) : ∃ ns ∈ samples, 2 ^ b ≤ ns.toInt := by
  by_cases hb : b = 0
  · obtain ⟨ns, hns⟩ := List.exists_mem_of_ne_nil samples hne
    have hlt : 0 < ns.toInt := Int64.lt_iff_toInt_lt.mp (hpos ns hns)
    exact ⟨ns, hns, by rw [hb, pow_zero]; omega⟩
  · obtain ⟨ns, hns, rfl⟩ := h.occupied hb
    exact ⟨ns, hns, pow_bucketIndex_le (hpos ns hns)⟩

theorem Summary.ne_nil (h : t.Summary samples) (hcount : t.count ≠ 0) : samples ≠ [] := by
  rintro rfl
  exact hcount h.count

theorem Summary.percentile_le (h : t.Summary samples) (hpos : ∀ ns ∈ samples, 0 < ns)
    (hpq : p ≤ q) (hq : q ≤ 100) :
    ∃ x y, t.percentile p = .ok x ∧ t.percentile q = .ok y ∧ x ≤ y ∧ y ≤ t.max := by
  by_cases hcount : t.count = 0
  · refine ⟨0, 0, if_pos hcount, if_pos hcount, Int64.le_refl _, ?_⟩
    rcases h.max with ⟨-, hzero⟩ | ⟨hmem, -⟩
    · rw [LatencyTracker.max, hzero]
      exact Int64.le_refl _
    · exact Int64.le_of_lt (hpos _ hmem)
  · obtain ⟨b, hs, -, hb⟩ := percentile_eq h (hpq.trans hq)
    obtain ⟨c, hs', -, hc⟩ := percentile_eq h hq
    have hne := h.ne_nil hcount
    refine ⟨_, _, hb hcount, hc hcount, pow_le_pow_int64 (hs.le hs' (target_mono hpq hq)) hs'.lt, ?_⟩
    obtain ⟨ns, hns, hge⟩ := hs'.exists_ge hpos hne
    have hmax : ns ≤ t.max := (h.max.resolve_left fun hnil => hne hnil.1).2 ns hns
    rw [Int64.le_iff_toInt_le] at hmax ⊢
    rw [toInt_pow hs'.lt]
    exact hge.trans hmax

end Order

/-! ### Accuracy -/

section Accuracy

variable {samples : List Int64} {x : ℚ} {r : Int64}

/-- The answer `r` to the rank `x` is the power of two below a sample, and at least `x` samples are
smaller than twice as much. -/
structure Accurate (samples : List Int64) (x : ℚ) (r : Int64) : Prop where
  sample : ∃ ns ∈ samples, r.toInt = 2 ^ bucketIndex ns
  covers : x ≤ samples.countP fun ns => ns.toInt < 2 * r.toInt

/-- The sample of rank `x`, rounded up, in the order of size. -/
structure NearestRank (samples : List Int64) (x : ℚ) (v : Int64) : Prop where
  mem : v ∈ samples
  smaller : (samples.countP fun ns => ns < v : ℕ) < x
  upTo : x ≤ (samples.countP fun ns => ns ≤ v : ℕ)

theorem Accurate.nearestRank_lt (h : Accurate samples x r) {v : Int64} (hv : NearestRank samples x v) :
    v.toInt < 2 * r.toInt := by
  by_contra hge
  have hle : samples.countP (fun ns => ns.toInt < 2 * r.toInt) ≤ samples.countP fun ns => ns < v := by
    apply List.countP_mono_left
    intro ns _ hns
    simp only [decide_eq_true_eq] at hns ⊢
    rw [Int64.lt_iff_toInt_lt]
    omega
  have hcast : ((samples.countP fun ns => ns.toInt < 2 * r.toInt : ℕ) : ℚ) ≤
      (samples.countP fun ns => ns < v : ℕ) := by
    exact_mod_cast hle
  have hsmaller := hv.smaller
  have hcovers := h.covers
  linarith

/-- A number that reaches the rounded rank reaches the rank, unless it is the rounded one and something
was rounded off. -/
theorem le_iff_of_floor_le {n : ℕ} (hx : 0 ≤ x) (h : ⌊x⌋₊ ≤ n) :
    x ≤ n ↔ (x = ⌊x⌋₊ ∨ n ≠ ⌊x⌋₊) := by
  have hfloor := Nat.floor_le hx
  have hlt := Nat.lt_floor_add_one x
  constructor
  · intro hle
    by_cases hn : n = ⌊x⌋₊
    · rw [hn] at hle
      exact Or.inl (le_antisymm hle hfloor)
    · exact Or.inr hn
  · rintro (heq | hne)
    · rw [heq]
      exact_mod_cast h
    · have hsucc : ((⌊x⌋₊ + 1 : ℕ) : ℚ) ≤ n := by
        exact_mod_cast Nat.lt_of_le_of_ne h (Ne.symm hne)
      push_cast at hsucc
      linarith

/-- **When the answer is accurate.** -/
theorem Stops.accurate_iff {target : UInt64} {b : ℕ} (hs : Stops samples target b)
    (hpos : ∀ ns ∈ samples, 0 < ns) (hfew : samples.length < 2 ^ 64) (hx : 0 < x)
    (htarget : target.toNat = ⌊x⌋₊) :
    Accurate samples x (Int64.ofNat (2 ^ b)) ↔
      (x = ⌊x⌋₊ ∨ ∀ c < 63, (samples.countP fun ns => ns.toInt < 2 ^ (c + 1)) ≠ ⌊x⌋₊) := by
  have hval : (Int64.ofNat (2 ^ b)).toInt = 2 ^ b := toInt_pow hs.lt
  have hnat : ∀ c, (UInt64.ofNat (below samples c)).toNat = below samples c := fun c => by
    rw [UInt64.toNat_ofNat']
    exact Nat.mod_eq_of_lt (List.countP_le_length.trans_lt hfew)
  have hreach : ⌊x⌋₊ ≤ below samples (b + 1) := by
    rw [← htarget, ← hnat]
    exact UInt64.le_iff_toNat_le.mp hs.reach
  have hfirst : ∀ c < b, below samples (c + 1) < ⌊x⌋₊ := fun c hc => by
    rw [← htarget, ← hnat]
    exact UInt64.lt_iff_toNat_lt.mp (hs.first c hc)
  -- if any bucket ends at the rounded rank, the one it stops at does
  have hbound : (∀ c < 63, below samples (c + 1) ≠ ⌊x⌋₊) ↔ below samples (b + 1) ≠ ⌊x⌋₊ := by
    refine ⟨fun hall => hall b hs.lt, fun hne c _ hc => ?_⟩
    have hbc : b ≤ c := by
      by_contra hlt
      exact absurd hc (hfirst c (not_le.mp hlt)).ne
    have hmono : below samples (b + 1) ≤ below samples (c + 1) := below_mono (by omega)
    exact hne (by omega)
  have hcovers : samples.countP (fun ns => ns.toInt < 2 * (Int64.ofNat (2 ^ b)).toInt) =
      below samples (b + 1) := by
    rw [below_eq_countP hpos, hval, pow_succ']
  simp only [← below_eq_countP hpos]
  rw [hbound, ← le_iff_of_floor_le hx.le hreach, ← hcovers]
  refine ⟨fun h => h.covers, fun hle => ⟨?_, hle⟩⟩
  by_cases hb : b = 0
  · -- the first bucket is not empty, since the rank is not zero
    have hone : 0 < samples.countP fun ns => ns.toInt < 2 * (Int64.ofNat (2 ^ b)).toInt := by
      exact_mod_cast hx.trans_le hle
    obtain ⟨ns, hns, hlt⟩ := List.countP_pos_iff.mp hone
    have hbucket : bucketIndex ns < 1 := by
      rw [bucketIndex_lt_iff (hpos ns hns)]
      simpa [hval, hb] using hlt
    exact ⟨ns, hns, by rw [hval, hb, Nat.lt_one_iff.mp hbucket]⟩
  · obtain ⟨ns, hns, hns'⟩ := hs.occupied hb
    exact ⟨ns, hns, by rw [hval, hns']⟩

end Accuracy

end LatencyTracker

/-! ### Histories -/

namespace Monitored

open MonitorEvent

variable {ι : Type} [DecidableEq ι]

/-- **Percentiles are ordered.** As long as no call of `record` overlaps a reset, whenever nothing is in
progress: of two percentages the larger one has the larger percentile, which is at most the maximum,
and the loop stops at a bucket before the last one. -/
theorem percentile_ordering (tr : List (MonitorEvent ι)) (s : Monitored ι)
    (h : Exec ExclusiveStep new tr s) (hidle : ∀ i, s.recording.threads i = .idle)
    (hres : s.resetter = .idle) (p q : ℚ) (hpct : 0 ≤ p ∧ p ≤ q ∧ q ≤ 100) :
    (∃ x y, s.recording.tracker.percentile p = .ok x ∧ s.recording.tracker.percentile q = .ok y ∧
      x ≤ y ∧ y ≤ s.recording.tracker.max) ∧
    ∃ b : Fin 64, s.recording.tracker.walk (s.recording.tracker.target q) 0 0 = some b ∧
      (b : ℕ) < 63 := by
  obtain ⟨-, hpq, hq⟩ := hpct
  have hsum := summary_of_exec h hidle hres
  refine ⟨hsum.percentile_le samplesOf_pos hpq hq, ?_⟩
  obtain ⟨b, hs, ⟨hb, hwalk⟩, -⟩ := percentile_eq hsum hq
  exact ⟨⟨b, hb⟩, hwalk, hs.lt⟩

theorem exec_samples (samples : List Int64) (hpos : ∀ ns ∈ samples, 0 < ns) :
    ∃ (tr : List (MonitorEvent Unit)) (s : Monitored Unit), Exec ExclusiveStep new tr s ∧
      (∀ i, s.recording.threads i = .idle) ∧ s.resetter = .idle ∧
      samplesOf (sinceReset tr) = samples := by
  obtain ⟨tr, t, hrun, hsamples⟩ := Recording.exec_records samples hpos
    (Recording.new : Recording Unit) (i := ()) rfl
  exact ⟨_, _, exec_recording hrun, fun _ => rfl, rfl, by rw [sinceReset_map, hsamples]⟩

/-- The median and the maximum of two samples in different buckets. -/
theorem percentile_ordering_two :
    ∃ (tr : List (MonitorEvent Unit)) (s : Monitored Unit), Exec ExclusiveStep new tr s ∧
      (∀ i, s.recording.threads i = .idle) ∧ s.resetter = .idle ∧
      samplesOf (sinceReset tr) = [5, 1000] ∧
      ∃ x y, s.recording.tracker.percentile 50 = .ok x ∧ s.recording.tracker.percentile 100 = .ok y ∧
        x ≤ y ∧ y ≤ s.recording.tracker.max := by
  obtain ⟨tr, s, h, hidle, hres, hsamples⟩ := exec_samples [5, 1000] (by simp)
  exact ⟨tr, s, h, hidle, hres, hsamples,
    (percentile_ordering tr s h hidle hres 50 100 (by norm_num)).1⟩

/-- **How accurate a percentile is.** As long as no call of `record` overlaps a reset, whenever nothing
is in progress and there are samples, fewer than `2 ^ 64`: the answer is the power of two below a sample
with at least the percentage of the samples smaller than twice as much, if and only if the rank is an
integer or no power of two has exactly the rounded rank's number of samples below it. Such an answer is
more than half of the nearest-rank percentile. -/
theorem percentile_accuracy (tr : List (MonitorEvent ι)) (s : Monitored ι)
    (h : Exec ExclusiveStep new tr s) (hidle : ∀ i, s.recording.threads i = .idle)
    (hres : s.resetter = .idle) (hne : samplesOf (sinceReset tr) ≠ [])
    (hfew : (samplesOf (sinceReset tr)).length < 2 ^ 64) (pct : ℚ) (hpct : 0 < pct ∧ pct ≤ 100) :
    let samples := samplesOf (sinceReset tr)
    let x : ℚ := samples.length * pct / 100
    ∃ r, s.recording.tracker.percentile pct = .ok r ∧
      (Accurate samples x r ↔
        (x = ⌊x⌋₊ ∨ ∀ b < 63, (samples.countP fun ns => ns.toInt < 2 ^ (b + 1)) ≠ ⌊x⌋₊)) ∧
      (Accurate samples x r → ∀ v, NearestRank samples x v → v.toInt < 2 * r.toInt) := by
  intro samples x
  have hsum : s.recording.tracker.Summary samples := summary_of_exec h hidle hres
  have hlen : 0 < samples.length := List.length_pos_iff.mpr hne
  have hcount : s.recording.tracker.count.toNat = samples.length := by
    rw [hsum.count, UInt64.toNat_ofNat']
    exact Nat.mod_eq_of_lt hfew
  have hcount_ne : s.recording.tracker.count ≠ 0 := fun e => by
    rw [e] at hcount
    exact absurd hcount.symm hlen.ne'
  have hx : 0 < x := by
    have hn : (0 : ℚ) < samples.length := by exact_mod_cast hlen
    have hpos := mul_pos hn hpct.1
    show 0 < (samples.length : ℚ) * pct / 100
    linarith
  obtain ⟨b, hs, -, hvalue⟩ := percentile_eq hsum hpct.2
  have htarget : (s.recording.tracker.target pct).toNat = ⌊x⌋₊ := by
    rw [toNat_target hpct.2, hcount]
  exact ⟨_, hvalue hcount_ne, hs.accurate_iff samplesOf_pos hfew hx htarget,
    fun hacc v hv => hacc.nearestRank_lt hv⟩

/-- The median of two samples in different buckets. -/
theorem percentile_accuracy_two :
    ∃ (tr : List (MonitorEvent Unit)) (s : Monitored Unit), Exec ExclusiveStep new tr s ∧
      (∀ i, s.recording.threads i = .idle) ∧ s.resetter = .idle ∧
      samplesOf (sinceReset tr) = [5, 1000] ∧
      ∃ r, s.recording.tracker.percentile 50 = .ok r ∧ Accurate [5, 1000] 1 r ∧
        ∀ v, NearestRank [5, 1000] 1 v → v.toInt < 2 * r.toInt := by
  obtain ⟨tr, s, h, hidle, hres, hsamples⟩ := exec_samples [5, 1000] (by simp)
  obtain ⟨r, hr, hiff, hbound⟩ := percentile_accuracy tr s h hidle hres (by simp [hsamples])
    (by simp [hsamples]) 50 (by norm_num)
  have hrank : (([5, 1000] : List Int64).length : ℚ) * 50 / 100 = 1 := by norm_num
  rw [hsamples, hrank] at hiff hbound
  have haccurate := hiff.mpr (Or.inl (by norm_num))
  exact ⟨tr, s, h, hidle, hres, hsamples, r, hr, haccurate, hbound haccurate⟩

/-- The median of one sample of 1000 is reported as 1. -/
theorem percentile_accuracy_fails :
    ∃ (tr : List (MonitorEvent Unit)) (s : Monitored Unit), Exec ExclusiveStep new tr s ∧
      (∀ i, s.recording.threads i = .idle) ∧ s.resetter = .idle ∧
      samplesOf (sinceReset tr) = [1000] ∧ s.recording.tracker.percentile 50 = .ok 1 ∧
      ¬ Accurate [1000] (1 / 2) 1 ∧ NearestRank [1000] (1 / 2) 1000 := by
  obtain ⟨tr, s, h, hidle, hres, hsamples⟩ := exec_samples [1000] (by simp)
  have hsum := summary_of_exec h hidle hres
  rw [hsamples] at hsum
  obtain ⟨b, hs, -, hvalue⟩ := percentile_eq hsum (show (50 : ℚ) ≤ 100 by norm_num)
  have hcount : s.recording.tracker.count = 1 := hsum.count
  have htarget : s.recording.tracker.target 50 = 0 := by
    rw [← UInt64.toNat_inj, toNat_target (by norm_num), hcount, UInt64.toNat_one]
    norm_num
  -- the rounded rank is zero, which the first bucket reaches
  have hb : b = 0 := by
    by_contra hb
    have hfirst := hs.first 0 (Nat.pos_of_ne_zero hb)
    rw [htarget] at hfirst
    exact absurd hfirst (UInt64.not_lt.mpr (UInt64.zero_le))
  refine ⟨tr, s, h, hidle, hres, hsamples, ?_, ?_, ?_⟩
  · rw [hvalue (by rw [hcount]; decide), hb]
    rfl
  · rintro ⟨-, hcovers⟩
    have hzero : ([1000] : List Int64).countP (fun ns => ns.toInt < 2 * (1 : Int64).toInt) = 0 := by
      decide
    rw [hzero] at hcovers
    norm_num at hcovers
  · refine ⟨by simp, ?_, ?_⟩
    · have hnone : ([1000] : List Int64).countP (fun ns => ns < 1000) = 0 := by decide
      rw [hnone]
      norm_num
    · have hone : ([1000] : List Int64).countP (fun ns => ns ≤ 1000) = 1 := by decide
      rw [hone]
      norm_num

end Monitored

end TradingSim
