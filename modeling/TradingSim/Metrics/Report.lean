import TradingSim.Lib.Rounding
import TradingSim.Metrics.Percentile

/-!
`LatencyTracker::report`: the figures that the dashboard prints for a tracker.

Each of them is read from the counters on its own. When nothing is in progress they fit together, and say what
they are to say about the samples since the last reset (`Monitored.report_figures`): the percentiles are in
order and below the maximum, and the jitter is their difference without an overflow. The mean is a quotient of
`double`s; as long as the sum of the samples is below `2 ^ 53` it is the mean, cut to an integer. The text that
`fmt_ns` makes of a figure is not modelled.
-/

namespace TradingSim

open Lib

namespace LatencyTracker

/-- `mean`, with the sum and the count converted to `double`. -/
def mean (t : LatencyTracker) : ℚ :=
  if t.count = 0 then 0 else toDouble (toDouble t.sumNs.toInt / toDouble t.count.toNat)

/-- `static_cast<int64_t>`: what is behind the point is cut off. Of a mean only `2 ^ 63` is outside of the
range, for which the language has no value; what wraps around is what the processor gives. -/
def truncate (x : ℚ) : Int64 := Int64.ofInt (if 0 ≤ x then ⌊x⌋ else ⌈x⌉)

/-- The figures of a report. -/
structure Figures where
  count : UInt64
  p50 : Int64
  p75 : Int64
  p95 : Int64
  p99 : Int64
  p999 : Int64
  p9999 : Int64
  max : Int64
  mean : Int64
  jitter : Int64
  min : Int64

/-- `report`: its figures, and none where it prints "no samples yet". -/
def report (t : LatencyTracker) : Except Fault (Option Figures) :=
  if t.count = 0 then .ok none
  else do
    let p50 ← t.percentile 50
    let p75 ← t.percentile 75
    let p95 ← t.percentile 95
    let p99 ← t.percentile 99
    let p999 ← t.percentile (999 / 10)
    let p9999 ← t.percentile (9999 / 100)
    pure (some
      { count := t.count
        p50 := p50
        p75 := p75
        p95 := p95
        p99 := p99
        p999 := p999
        p9999 := p9999
        max := t.max
        mean := truncate t.mean
        jitter := p99 - p50
        min := t.min })

/-- The figures fit together, and are those of the samples. -/
structure Figures.Of (f : Figures) (samples : List Int64) : Prop where
  count : f.count.toNat = samples.length
  ordered : [f.p50, f.p75, f.p95, f.p99, f.p999, f.p9999, f.max].IsChain (· ≤ ·)
  jitter : f.jitter.toInt = f.p99.toInt - f.p50.toInt
  max : f.max ∈ samples ∧ ∀ ns ∈ samples, ns ≤ f.max
  min : (f.min ∈ samples ∨ ∀ ns ∈ samples, ns = Int64.maxValue) ∧ ∀ ns ∈ samples, f.min ≤ ns

section Summary

variable {t : LatencyTracker} {samples : List Int64}

theorem toInt_truncate_div {sum n : ℕ} (hn : 0 < n) (hle : n ≤ sum) (hsum : sum < 2 ^ 53) :
    (truncate (toDouble (toDouble sum / toDouble n))).toInt = (sum / n : ℕ) := by
  have hquot : ⌊toDouble ((sum : ℚ) / n)⌋ = ((sum / n : ℕ) : ℤ) :=
    floor_roundTo_div (by norm_num) hn hsum
  have hfloor := Int.natCast_nonneg (sum / n)
  have hnonneg : 0 ≤ toDouble ((sum : ℚ) / n) := Int.floor_nonneg.mp (hquot ▸ hfloor)
  have hsmall : sum / n ≤ sum := Nat.div_le_self sum n
  have hexact : ∀ k : ℕ, k ≤ sum → toDouble k = k := fun k hk =>
    roundTo_eq (by norm_num) (representable_natCast (hk.trans hsum.le))
  rw [hexact sum le_rfl, hexact n hle, truncate, if_pos hnonneg, hquot,
    Int64.toInt_ofInt_of_le (by omega) (by omega)]

theorem length_le_sum (hpos : ∀ ns ∈ samples, (0 : Int64) < ns) :
    (samples.length : ℤ) ≤ (samples.map Int64.toInt).sum := by
  have hcard := List.card_nsmul_le_sum (samples.map Int64.toInt) 1 fun x hx => by
    obtain ⟨ns, hns, rfl⟩ := List.mem_map.mp hx
    exact Int64.lt_iff_toInt_lt.mp (hpos ns hns)
  simpa using hcard

theorem Summary.toInt_mean (h : t.Summary samples) (hpos : ∀ ns ∈ samples, 0 < ns)
    (hcount : t.count ≠ 0) (hsum : (samples.map Int64.toInt).sum < 2 ^ 53) :
    (truncate t.mean).toInt = (samples.map Int64.toInt).sum / samples.length := by
  have hlen := length_le_sum hpos
  have hsumNs : t.sumNs.toInt = (samples.map Int64.toInt).sum := by
    rw [h.sum, Int64.toInt_ofInt_of_le (by omega) (by omega)]
  have hcountNat : t.count.toNat = samples.length := by
    rw [h.count, UInt64.toNat_ofNat', Nat.mod_eq_of_lt (by omega)]
  obtain ⟨sum, hnat⟩ := Int.eq_ofNat_of_zero_le (show 0 ≤ (samples.map Int64.toInt).sum by omega)
  rw [hnat] at hlen hsum hsumNs ⊢
  rw [mean, if_neg hcount, hsumNs, hcountNat, Int.cast_natCast,
    toInt_truncate_div (List.length_pos_of_ne_nil (h.ne_nil hcount)) (by omega) (by omega), Int.natCast_ediv]

theorem Summary.min_spec (h : t.Summary samples) (hpos : ∀ ns ∈ samples, 0 < ns) :
    (t.min ∈ samples ∨ ∀ ns ∈ samples, ns = Int64.maxValue) ∧ ∀ ns ∈ samples, t.min ≤ ns := by
  rcases h.min with ⟨rfl, -⟩ | ⟨hmem, hle⟩
  · simp
  unfold LatencyTracker.min
  split
  · rename_i hstart
    refine ⟨Or.inr fun ns hns => ?_, fun ns hns => Int64.le_of_lt (hpos ns hns)⟩
    exact Int64.le_antisymm (Int64.le_maxValue ns) (hstart ▸ hle ns hns)
  · exact ⟨Or.inl hmem, hle⟩

theorem Summary.exists_percentiles (h : t.Summary samples) (hpos : ∀ ns ∈ samples, 0 < ns) :
    ∃ y : ℚ → Int64, (∀ q ≤ 100, t.percentile q = .ok (y q) ∧ 0 ≤ y q ∧ y q ≤ t.max) ∧
      ∀ p q, p ≤ q → q ≤ 100 → y p ≤ y q := by
  have hone : ∀ q : ℚ, ∃ y, q ≤ 100 → t.percentile q = .ok y ∧ 0 ≤ y ∧ y ≤ t.max := by
    intro q
    by_cases hq : q ≤ 100
    · obtain ⟨-, y, -, hy, -, hmax⟩ := h.percentile_le hpos le_rfl hq
      refine ⟨y, fun _ => ⟨hy, ?_, hmax⟩⟩
      by_cases hcount : t.count = 0
      · rw [percentile, if_pos hcount] at hy
        rw [← Except.ok.inj hy]
        exact Int64.le_refl _
      · obtain ⟨b, hs, -, hb⟩ := percentile_eq h hq
        rw [← Except.ok.inj ((hb hcount).symm.trans hy), Int64.le_iff_toInt_le, toInt_pow hs.lt,
          Int64.toInt_zero]
        positivity
    · exact ⟨0, fun hle => absurd hle hq⟩
  choose y hy using hone
  refine ⟨y, fun q hq => hy q hq, fun p q hpq hq => ?_⟩
  obtain ⟨x, z, hx, hz, hle, -⟩ := h.percentile_le hpos hpq hq
  rwa [← Except.ok.inj ((hy p (hpq.trans hq)).1.symm.trans hx),
    ← Except.ok.inj ((hy q hq).1.symm.trans hz)] at hle

theorem mean_between {low high mean : Int64} (hne : samples ≠ [])
    (hmean : mean.toInt = (samples.map Int64.toInt).sum / samples.length)
    (hlow : ∀ ns ∈ samples, low ≤ ns) (hhigh : ∀ ns ∈ samples, ns ≤ high) : low ≤ mean ∧ mean ≤ high := by
  have hlen : 0 < (samples.length : ℤ) := Int.natCast_pos.mpr (List.length_pos_of_ne_nil hne)
  constructor
  · have hle := List.card_nsmul_le_sum (samples.map Int64.toInt) low.toInt fun x hx => by
      obtain ⟨ns, hns, rfl⟩ := List.mem_map.mp hx
      exact Int64.le_iff_toInt_le.mp (hlow ns hns)
    rw [Int64.le_iff_toInt_le, hmean, Int.le_ediv_iff_mul_le hlen, mul_comm]
    simpa using hle
  · have hle := List.sum_le_card_nsmul (samples.map Int64.toInt) high.toInt fun x hx => by
      obtain ⟨ns, hns, rfl⟩ := List.mem_map.mp hx
      exact Int64.le_iff_toInt_le.mp (hhigh ns hns)
    rw [Int64.le_iff_toInt_le, hmean]
    refine Int.ediv_le_of_le_mul hlen ?_
    rw [mul_comm]
    simpa using hle

/-- **The figures** of a summary. -/
theorem Summary.exists_figures (h : t.Summary samples) (hpos : ∀ ns ∈ samples, 0 < ns)
    (hcount : t.count ≠ 0) (hfew : samples.length < 2 ^ 64) :
    ∃ f, t.report = .ok (some f) ∧ f.Of samples ∧ f.mean = truncate t.mean := by
  have hne := h.ne_nil hcount
  have hmax := h.max.resolve_left fun hnil => hne hnil.1
  have hmin := h.min_spec hpos
  obtain ⟨y, hy, hmono⟩ := h.exists_percentiles hpos
  have step : ∀ p q : ℚ, p ≤ q ∧ q ≤ 100 → y p ≤ y q := fun p q hpq => hmono p q hpq.1 hpq.2
  have hreport : t.report = .ok (some ⟨t.count, y 50, y 75, y 95, y 99, y (999 / 10), y (9999 / 100), t.max,
      truncate t.mean, y 99 - y 50, t.min⟩) := by
    rw [report, if_neg hcount, (hy 50 (by norm_num)).1, (hy 75 (by norm_num)).1, (hy 95 (by norm_num)).1,
      (hy 99 (by norm_num)).1, (hy (999 / 10) (by norm_num)).1, (hy (9999 / 100) (by norm_num)).1]
    simp only [ok_bind, pure_eq_ok]
  refine ⟨_, hreport, ⟨?_, ?_, ?_, hmax, hmin⟩, rfl⟩
  · show t.count.toNat = samples.length
    rw [h.count, UInt64.toNat_ofNat', Nat.mod_eq_of_lt hfew]
  · simp only [List.isChain_cons_cons, List.isChain_singleton, and_true]
    exact ⟨step _ _ (by norm_num), step _ _ (by norm_num), step _ _ (by norm_num), step _ _ (by norm_num),
      step _ _ (by norm_num), (hy _ (by norm_num)).2.2⟩
  · exact toInt_sub_of_le (hy 50 (by norm_num)).2.1 (step _ _ (by norm_num))

end Summary

end LatencyTracker

namespace Monitored

open LatencyTracker MonitorEvent

variable {ι : Type} [DecidableEq ι]

/-- **The report of a tracker.** As long as no call of `record` overlaps a reset, whenever nothing is in
progress and fewer than `2 ^ 64` samples came since the last reset: without a sample there is a report line
that says so, and with samples the report has all its figures and they are those of the samples: the
percentiles from the 50th to the 99.99th are in order and at most the maximum, the jitter is the difference of
the 99th and the 50th, the maximum is the largest sample and the minimum the smallest unless all are
`INT64_MAX`. If the sum of the samples is below `2 ^ 53`, the mean is the integer part of their mean, between
the minimum and the maximum. -/
theorem report_figures {tr : List (MonitorEvent ι)} {s : Monitored ι} (h : Exec ExclusiveStep new tr s)
    (hidle : ∀ i, s.recording.threads i = .idle) (hres : s.resetter = .idle)
    (hfew : (samplesOf (sinceReset tr)).length < 2 ^ 64) :
    (samplesOf (sinceReset tr) = [] ∧ s.recording.tracker.report = .ok none) ∨
      ∃ f, s.recording.tracker.report = .ok (some f) ∧ f.Of (samplesOf (sinceReset tr)) ∧
        (((samplesOf (sinceReset tr)).map Int64.toInt).sum < 2 ^ 53 →
          f.mean.toInt = ((samplesOf (sinceReset tr)).map Int64.toInt).sum / (samplesOf (sinceReset tr)).length ∧
          f.min ≤ f.mean ∧ f.mean ≤ f.max) := by
  have hsummary := summary_of_exec h hidle hres
  by_cases hcount : s.recording.tracker.count = 0
  · left
    refine ⟨?_, if_pos hcount⟩
    have hlen := congrArg UInt64.toNat (hcount.symm.trans hsummary.count)
    rw [UInt64.toNat_ofNat', Nat.mod_eq_of_lt hfew] at hlen
    exact List.eq_nil_of_length_eq_zero hlen.symm
  · right
    obtain ⟨f, hreport, hof, hmean⟩ := hsummary.exists_figures samplesOf_pos hcount hfew
    refine ⟨f, hreport, hof, fun hsum => ?_⟩
    have hvalue := hmean ▸ hsummary.toInt_mean samplesOf_pos hcount hsum
    exact ⟨hvalue, mean_between (hsummary.ne_nil hcount) hvalue hof.min.2 hof.max.2⟩

/-- Two samples, whose mean is not an integer. -/
theorem report_figures_two :
    ∃ (tr : List (MonitorEvent Unit)) (s : Monitored Unit), Exec ExclusiveStep new tr s ∧
      samplesOf (sinceReset tr) = [5, 1000] ∧
      ∃ f, s.recording.tracker.report = .ok (some f) ∧ f.Of [5, 1000] ∧ f.mean.toInt = 502 := by
  obtain ⟨tr, s, h, hidle, hres, hsamples⟩ := exec_samples [5, 1000] (by simp)
  have hfigures := report_figures h hidle hres (by rw [hsamples]; decide)
  rw [hsamples] at hfigures
  obtain ⟨f, hreport, hof, hmean⟩ := hfigures.resolve_left fun hnil => absurd hnil.1 (by simp)
  exact ⟨tr, s, h, hsamples, f, hreport, hof, (hmean (by decide)).1⟩

end Monitored

end TradingSim
