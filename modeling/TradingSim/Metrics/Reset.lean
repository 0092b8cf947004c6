import TradingSim.Metrics.LatencyTracker

/-!
`LatencyTracker::reset` beside the threads that record.

`reset` is 68 stores, each an access of its own: the buckets in their order, the count, the sum, the
maximum and the minimum. What it has stored so far is as in a new tracker (`Cleared`), so a reset that
no call of `record` overlaps leaves a new tracker, and what follows is an execution of the recording
threads alone (`Monitored.inv_of_exec`). Then the counters agree whenever nothing is in progress
(`Monitored.reset_consistent`). Nothing in the program keeps a call out of a reset, though, and one
that a reset cuts in two has its sample in the count and in no bucket (`Monitored.reset_straddled`).
-/

namespace TradingSim

open Lib LatencyTracker

/-- Where a thread is in a call of `reset`: the store it makes next. -/
inductive Resetter where
  | idle
  | bucket (k : Fin 64)
  | count
  | sum
  | max
  | min
  deriving DecidableEq

/-- The number of stores made, an ended call having made all of them. -/
def Resetter.index : Resetter → ℕ
  | .idle => 68
  | .bucket k => k
  | .count => 64
  | .sum => 65
  | .max => 66
  | .min => 67

theorem Resetter.eq_idle {r : Resetter} (h : r.index = 68) : r = .idle := by
  cases r with
  | bucket k =>
    have hk := k.isLt
    simp only [Resetter.index] at h
    omega
  | idle => rfl
  | count => cases h
  | sum => cases h
  | max => cases h
  | min => cases h

namespace LatencyTracker

/-- `reset` up to its first store. -/
def reset : Resetter := .bucket 0

/-- The next store of a call of `reset`. -/
def clear (t : LatencyTracker) : Resetter → LatencyTracker × Resetter
  | .idle => (t, .idle)
  | .bucket k =>
    ({ t with buckets := Function.update t.buckets k 0 },
      if h : (k : ℕ) + 1 < 64 then .bucket ⟨k + 1, h⟩ else .count)
  | .count => ({ t with count := 0 }, .sum)
  | .sum => ({ t with sumNs := 0 }, .max)
  | .max => ({ t with maxNs := 0 }, .min)
  | .min => ({ t with minNs := Int64.maxValue }, .idle)

/-! ### A reset that runs alone -/

/-- The first `n` stores of a reset are made. -/
structure Cleared (t : LatencyTracker) (n : ℕ) : Prop where
  buckets : ∀ b : Fin 64, (b : ℕ) < n → t.buckets b = 0
  count : 64 < n → t.count = 0
  sum : 65 < n → t.sumNs = 0
  max : 66 < n → t.maxNs = 0
  min : 67 < n → t.minNs = Int64.maxValue

section Clear

variable {t : LatencyTracker} {r : Resetter}

theorem cleared_zero : t.Cleared 0 := by
  constructor <;> intros <;> omega

theorem Cleared.eq_new (h : t.Cleared 68) : t = new := by
  obtain ⟨buckets, count, sumNs, maxNs, minNs⟩ := t
  obtain rfl : buckets = fun _ => 0 := funext fun b => h.buckets b (by omega)
  obtain rfl : count = 0 := h.count (by omega)
  obtain rfl : sumNs = 0 := h.sum (by omega)
  obtain rfl : maxNs = 0 := h.max (by omega)
  obtain rfl : minNs = Int64.maxValue := h.min (by omega)
  rfl

theorem index_clear (h : r ≠ .idle) : (t.clear r).2.index = r.index + 1 := by
  cases r with
  | idle => exact absurd rfl h
  | bucket k =>
    by_cases hk : (k : ℕ) + 1 < 64
    · simp only [clear, dif_pos hk, Resetter.index]
    · simp only [clear, dif_neg hk, Resetter.index]
      omega
  | count => rfl
  | sum => rfl
  | max => rfl
  | min => rfl

theorem Cleared.clear (h : t.Cleared r.index) (hr : r ≠ .idle) :
    (t.clear r).1.Cleared (t.clear r).2.index := by
  rw [index_clear hr]
  cases r with
  | idle => exact absurd rfl hr
  | bucket k =>
    have hk := k.isLt
    simp only [Resetter.index] at h ⊢
    refine ⟨fun b hb => ?_, by omega, by omega, by omega, by omega⟩
    by_cases hbk : b = k
    · simp only [LatencyTracker.clear, hbk, Function.update_self]
    · simp only [LatencyTracker.clear, Function.update_of_ne hbk]
      have hne : (b : ℕ) ≠ k := fun e => hbk (Fin.ext e)
      exact h.buckets b (by omega)
  | count =>
    simp only [Resetter.index] at h ⊢
    exact ⟨fun b _ => h.buckets b (by omega), fun _ => rfl, by omega, by omega, by omega⟩
  | sum =>
    simp only [Resetter.index] at h ⊢
    exact ⟨fun b _ => h.buckets b (by omega), fun _ => h.count (by omega), fun _ => rfl, by omega,
      by omega⟩
  | max =>
    simp only [Resetter.index] at h ⊢
    exact ⟨fun b _ => h.buckets b (by omega), fun _ => h.count (by omega),
      fun _ => h.sum (by omega), fun _ => rfl, by omega⟩
  | min =>
    simp only [Resetter.index] at h ⊢
    exact ⟨fun b _ => h.buckets b (by omega), fun _ => h.count (by omega),
      fun _ => h.sum (by omega), fun _ => h.max (by omega), fun _ => rfl⟩

end Clear

/-! ### What a summary says of the counters together -/

section Summary

variable {t : LatencyTracker} {samples : List Int64}

theorem sum_countP_bucketIndex (hpos : ∀ ns ∈ samples, 0 < ns) :
    ∑ b : Fin 64, samples.countP (fun ns => bucketIndex ns = b) = samples.length :=
  sum_countP_eq_length fun ns hns => (bucketOf_sample (hpos ns hns)).2

theorem Summary.sum_buckets_mod (h : t.Summary samples) (hpos : ∀ ns ∈ samples, 0 < ns) :
    (∑ b, (t.buckets b).toNat) % 2 ^ 64 = t.count.toNat := by
  simp only [h.bucket, h.count, UInt64.toNat_ofNat']
  rw [← Finset.sum_nat_mod, sum_countP_bucketIndex hpos]

theorem Summary.sum_buckets (h : t.Summary samples) (hpos : ∀ ns ∈ samples, 0 < ns)
    (hfew : samples.length < 2 ^ 64) : ∑ b, (t.buckets b).toNat = t.count.toNat := by
  have hbucket : ∀ b, (t.buckets b).toNat = samples.countP fun ns => bucketIndex ns = b := fun b => by
    rw [h.bucket b, UInt64.toNat_ofNat']
    exact Nat.mod_eq_of_lt (List.countP_le_length.trans_lt hfew)
  simp only [hbucket]
  rw [sum_countP_bucketIndex hpos, h.count, UInt64.toNat_ofNat', Nat.mod_eq_of_lt hfew]

theorem Summary.min_le_max (h : t.Summary samples) (hpos : ∀ ns ∈ samples, 0 < ns) : t.min ≤ t.max := by
  rcases h.max with ⟨hnil, hmax⟩ | ⟨hmem, hge⟩
  · have hmin : t.minNs = Int64.maxValue := (h.min.resolve_right fun hmem => by simp [hnil] at hmem).2
    rw [LatencyTracker.min, if_pos hmin, LatencyTracker.max, hmax]
    decide
  · obtain ⟨hmem', -⟩ := h.min.resolve_left fun hnil => by simp [hnil.1] at hmem
    rw [LatencyTracker.min, LatencyTracker.max]
    split
    · exact Int64.le_of_lt (hpos _ hmem)
    · exact hge _ hmem'

theorem Summary.zero_iff (h : t.Summary samples) (hpos : ∀ ns ∈ samples, 0 < ns)
    (hfew : samples.length < 2 ^ 64) : (t.min = 0 ∧ t.max = 0) ↔ t.count = 0 := by
  have hcount : t.count = 0 ↔ samples = [] := by
    rw [h.count, ← List.length_eq_zero_iff, ← UInt64.toNat_inj, UInt64.toNat_ofNat',
      Nat.mod_eq_of_lt hfew]
    rfl
  rw [hcount]
  constructor
  · -- the maximum of samples is one of them, and so not zero
    rintro ⟨-, hmax⟩
    refine (h.max.resolve_right fun hmem => ?_).1
    have hlt := hpos _ hmem.1
    rw [LatencyTracker.max] at hmax
    rw [hmax] at hlt
    exact absurd hlt (by decide)
  · intro hnil
    have hmax := (h.max.resolve_right fun hmem => by simp [hnil] at hmem).2
    have hmin := (h.min.resolve_right fun hmem => by simp [hnil] at hmem).2
    exact ⟨by rw [LatencyTracker.min, if_pos hmin], hmax⟩

end Summary

end LatencyTracker

/-! ### Threads -/

variable {ι : Type}

/-- A tracker, the threads that record into it, and the one that resets it after each report. -/
structure Monitored (ι : Type) where
  recording : Recording ι
  resetter : Resetter

/-- What a recording thread does, a call of `reset`, or a store of one. -/
inductive MonitorEvent (ι : Type) where
  | record (e : RecordEvent ι)
  | reset
  | store

namespace MonitorEvent

/-- What the recording threads did since the last store of a reset. -/
def sinceReset (tr : List (MonitorEvent ι)) : List (RecordEvent ι) :=
  tr.foldl (fun since e => match e with
    | .record e => since ++ [e]
    | .reset => []
    | .store => []) []

theorem sinceReset_record (tr : List (MonitorEvent ι)) (e : RecordEvent ι) :
    sinceReset (tr ++ [.record e]) = sinceReset tr ++ [e] := by
  rw [sinceReset, List.foldl_append]
  rfl

theorem sinceReset_store (tr : List (MonitorEvent ι)) : sinceReset (tr ++ [.store]) = [] := by
  rw [sinceReset, List.foldl_append]
  rfl

theorem sinceReset_append (tr : List (MonitorEvent ι)) (es : List (RecordEvent ι)) :
    sinceReset (tr ++ es.map .record) = sinceReset tr ++ es := by
  induction es using List.reverseRecOn with
  | nil => simp
  | append_singleton es e ih =>
    rw [List.map_append, List.map_singleton, ← List.append_assoc, sinceReset_record, ih,
      List.append_assoc]

theorem sinceReset_map (tr : List (RecordEvent ι)) : sinceReset (tr.map .record) = tr :=
  sinceReset_append [] tr

end MonitorEvent

namespace Monitored

open MonitorEvent

variable [DecidableEq ι]

def new : Monitored ι where
  recording := Recording.new
  resetter := .idle

/-- A recording thread goes on, the other thread calls `reset`, or makes the next store of it. -/
inductive Step : Monitored ι → MonitorEvent ι → Monitored ι → Prop
  | record (s : Monitored ι) {e : RecordEvent ι} {r : Recording ι} :
      Recording.Step s.recording e r → Step s (.record e) { s with recording := r }
  | reset (s : Monitored ι) : s.resetter = .idle → Step s .reset { s with resetter := reset }
  | store (s : Monitored ι) : s.resetter ≠ .idle →
      Step s .store ⟨{ s.recording with tracker := (s.recording.tracker.clear s.resetter).1 },
        (s.recording.tracker.clear s.resetter).2⟩

/-- No call of `record` is in progress while a reset is. -/
def Exclusive (s : Monitored ι) : Prop :=
  (∀ i, s.recording.threads i = .idle) ∨ s.resetter = .idle

/-- A step that keeps calls of `record` and of `reset` apart. -/
def ExclusiveStep (s : Monitored ι) (e : MonitorEvent ι) (s' : Monitored ι) : Prop :=
  Step s e s' ∧ s'.Exclusive

/-- Between resets the recording threads are on their own since the last one; in a reset none of them
is in a call, and what is stored so far is as in a new tracker. -/
def Inv (tr : List (MonitorEvent ι)) (s : Monitored ι) : Prop :=
  (s.resetter = .idle ∧ Exec Recording.Step Recording.new (sinceReset tr) s.recording) ∨
  (s.resetter ≠ .idle ∧ (∀ i, s.recording.threads i = .idle) ∧
    s.recording.tracker.Cleared s.resetter.index)

section Step

variable {tr : List (MonitorEvent ι)} {s s' : Monitored ι} {e : MonitorEvent ι}

theorem tracker_of_idle {r r' : Recording ι} {e : RecordEvent ι} (hidle : ∀ i, r.threads i = .idle)
    (h : Recording.Step r e r') : r'.tracker = r.tracker := by
  cases h with
  | call i ns _ => rfl
  | access i spurious hacc =>
    rw [hidle i] at hacc
    cases hacc
    rfl

theorem Inv.step (h : Inv tr s) (hstep : ExclusiveStep s e s') : Inv (tr ++ [e]) s' := by
  obtain ⟨hstep, hexcl⟩ := hstep
  cases hstep with
  | record hrec =>
    rcases h with ⟨hres, hexec⟩ | ⟨hres, hidle, hclear⟩
    · left
      rw [sinceReset_record]
      exact ⟨hres, hexec.snoc hrec⟩
    · right
      refine ⟨hres, hexcl.resolve_right hres, ?_⟩
      show Cleared _ _
      rwa [tracker_of_idle hidle hrec]
  | reset hres =>
    right
    exact ⟨nofun, hexcl.resolve_right nofun, cleared_zero⟩
  | store hres =>
    obtain ⟨-, hidle, hclear⟩ := h.resolve_left fun hleft => hres hleft.1
    have hclear' := hclear.clear hres
    by_cases hend : (s.recording.tracker.clear s.resetter).2 = .idle
    · -- the last store: the tracker is new
      left
      rw [hend] at hclear'
      have hnew : (⟨(s.recording.tracker.clear s.resetter).1, s.recording.threads⟩ : Recording ι) =
          Recording.new := by
        rw [hclear'.eq_new, Recording.new]
        congr 1
        exact funext hidle
      refine ⟨hend, ?_⟩
      rw [sinceReset_store, hnew]
      exact Exec.nil
    · right
      exact ⟨hend, hidle, hclear'⟩

/-- **Every execution** that keeps the calls apart. -/
theorem inv_of_exec (h : Exec ExclusiveStep new tr s) : Inv tr s :=
  h.rule (Or.inl ⟨rfl, Exec.nil⟩) fun _ _ _ _ hI hstep => hI.step hstep

end Step

theorem summary_of_exec {tr : List (MonitorEvent ι)} {s : Monitored ι}
    (h : Exec ExclusiveStep new tr s) (hidle : ∀ i, s.recording.threads i = .idle)
    (hres : s.resetter = .idle) : s.recording.tracker.Summary (samplesOf (sinceReset tr)) := by
  obtain ⟨-, hexec⟩ := (inv_of_exec h).resolve_right fun hright => hright.1 hres
  exact Recording.summary_of_exec hexec hidle

/-- **Consistency under reset.** As long as no call of `record` overlaps a reset, whenever nothing is
in progress the buckets add up to the count as `uint64_t` and the minimum is at most the maximum. With
fewer than `2 ^ 64` samples since the last reset the buckets add up to the count as numbers, and both
extremes are zero exactly when the count is. -/
theorem reset_consistent (tr : List (MonitorEvent ι)) (s : Monitored ι)
    (h : Exec ExclusiveStep new tr s) (hidle : ∀ i, s.recording.threads i = .idle)
    (hres : s.resetter = .idle) :
    (∑ b, (s.recording.tracker.buckets b).toNat) % 2 ^ 64 = s.recording.tracker.count.toNat ∧
      s.recording.tracker.min ≤ s.recording.tracker.max ∧
      ((samplesOf (sinceReset tr)).length < 2 ^ 64 →
        ∑ b, (s.recording.tracker.buckets b).toNat = s.recording.tracker.count.toNat ∧
        ((s.recording.tracker.min = 0 ∧ s.recording.tracker.max = 0) ↔
          s.recording.tracker.count = 0)) := by
  have hsum := summary_of_exec h hidle hres
  exact ⟨hsum.sum_buckets_mod samplesOf_pos, hsum.min_le_max samplesOf_pos, fun hfew =>
    ⟨hsum.sum_buckets samplesOf_pos hfew, hsum.zero_iff samplesOf_pos hfew⟩⟩

/-! ### Runs -/

section Runs

variable {r r' : Recording ι}

theorem exec_recording {tr : List (RecordEvent ι)} (h : Exec Recording.Step r tr r') :
    Exec ExclusiveStep ⟨r, .idle⟩ (tr.map .record) ⟨r', .idle⟩ := by
  induction h with
  | nil => exact Exec.nil
  | @snoc tr r₁ r₂ e _ hlast ih =>
    rw [List.map_append]
    exact ih.snoc ⟨Step.record ⟨r₁, .idle⟩ hlast, Or.inr rfl⟩

/-- A step that leaves the recording threads where they are. -/
def QuietStep (threads : ι → Recorder) (s : Monitored ι) (e : MonitorEvent ι) (s' : Monitored ι) : Prop :=
  Step s e s' ∧ s'.recording.threads = threads

theorem QuietStep.exclusive {threads : ι → Recorder} {s s' : Monitored ι} {e : MonitorEvent ι}
    (h : QuietStep threads s e s') (hidle : ∀ i, threads i = .idle) : ExclusiveStep s e s' :=
  ⟨h.1, Or.inl fun i => h.2 ▸ hidle i⟩

theorem exec_stores (n : ℕ) (s : Monitored ι) (hleft : s.resetter.index + n = 68)
    (hclear : s.recording.tracker.Cleared s.resetter.index) :
    Exec (QuietStep s.recording.threads) s (List.replicate n .store)
      ⟨{ s.recording with tracker := LatencyTracker.new }, .idle⟩ := by
  induction n generalizing s with
  | zero =>
    obtain ⟨⟨t, threads⟩, c⟩ := s
    obtain rfl : c = .idle := Resetter.eq_idle hleft
    obtain rfl : t = LatencyTracker.new := hclear.eq_new
    exact Exec.nil
  | succ n ih =>
    have hres : s.resetter ≠ .idle := fun e => by
      rw [e] at hleft
      exact absurd hleft (by simp [Resetter.index])
    have hnext : (s.recording.tracker.clear s.resetter).2.index + n = 68 := by
      rw [index_clear hres]
      omega
    have hrun := ih ⟨{ s.recording with tracker := (s.recording.tracker.clear s.resetter).1 },
      (s.recording.tracker.clear s.resetter).2⟩ hnext (hclear.clear hres)
    exact (Exec.nil.snoc ⟨Step.store s hres, rfl⟩).trans hrun

/-- The events of a whole reset. -/
def resetEvents : List (MonitorEvent ι) := .reset :: List.replicate 68 .store

/-- **A reset that makes its stores in a row** leaves a new tracker, wherever the recording threads
are. -/
theorem exec_reset (r : Recording ι) : Exec (QuietStep r.threads) ⟨r, .idle⟩ resetEvents
    ⟨{ r with tracker := LatencyTracker.new }, .idle⟩ :=
  (Exec.nil.snoc ⟨Step.reset ⟨r, .idle⟩ rfl, rfl⟩).trans (exec_stores 68 ⟨r, reset⟩ rfl cleared_zero)

omit [DecidableEq ι] in
theorem sinceReset_resetEvents (tr : List (MonitorEvent ι)) : sinceReset (tr ++ resetEvents) = [] := by
  have hlast : (resetEvents : List (MonitorEvent ι)) = (.reset :: List.replicate 67 .store) ++ [.store] := by
    rw [resetEvents, List.cons_append, ← List.replicate_succ']
  rw [hlast, ← List.append_assoc, sinceReset_store]

end Runs

/-- A thread records 5, the tracker is reset, and the thread records 3. -/
theorem reset_consistent_between :
    ∃ (tr₁ tr₂ : List (RecordEvent Unit)) (s : Monitored Unit),
      Exec ExclusiveStep new (tr₁.map .record ++ resetEvents ++ tr₂.map .record) s ∧
      samplesOf tr₁ = [5] ∧ samplesOf tr₂ = [3] ∧
      (∀ i, s.recording.threads i = .idle) ∧ s.resetter = .idle ∧
      ∑ b, (s.recording.tracker.buckets b).toNat = s.recording.tracker.count.toNat ∧
      s.recording.tracker.min ≤ s.recording.tracker.max ∧
      ((s.recording.tracker.min = 0 ∧ s.recording.tracker.max = 0) ↔
        s.recording.tracker.count = 0) := by
  obtain ⟨tr₁, t₁, hfirst, hsamples₁⟩ := Recording.exec_records [5] (by simp)
    (Recording.new : Recording Unit) (i := ()) rfl
  obtain ⟨tr₂, t₂, hsecond, hsamples₂⟩ := Recording.exec_records [3] (by simp)
    (Recording.new : Recording Unit) (i := ()) rfl
  have hreset : Exec ExclusiveStep ⟨⟨t₁, fun _ => .idle⟩, .idle⟩ resetEvents
      (⟨Recording.new, .idle⟩ : Monitored Unit) :=
    (exec_reset ⟨t₁, fun _ => .idle⟩).imp fun _ _ _ h => h.exclusive fun _ => rfl
  have hexec := ((exec_recording hfirst).trans hreset).trans (exec_recording hsecond)
  have hsince : sinceReset (tr₁.map .record ++ resetEvents ++ tr₂.map .record) = tr₂ := by
    rw [sinceReset_append, sinceReset_resetEvents, List.nil_append]
  obtain ⟨-, hle, hfew⟩ := reset_consistent _ _ hexec (fun _ => rfl) rfl
  obtain ⟨hsum, hzero⟩ := hfew (by rw [hsince, hsamples₂]; decide)
  exact ⟨tr₁, tr₂, _, hexec, hsamples₁, hsamples₂, fun _ => rfl, rfl, hsum, hle, hzero⟩

/-- A reset cuts a call in two: the thread that records 5 has counted it in its bucket when the reset
begins, and goes on when it has ended. -/
theorem reset_straddled :
    ∃ (tr : List (MonitorEvent Unit)) (s : Monitored Unit), Exec Step new tr s ∧
      (∀ i, s.recording.threads i = .idle) ∧ s.resetter = .idle ∧
      s.recording.tracker.count.toNat = 1 ∧ ∑ b, (s.recording.tracker.buckets b).toNat = 0 := by
  have hcall : Recording.Step (Recording.new : Recording Unit) (.call () 5)
      (Recording.new.move () LatencyTracker.new (.bucket 5)) := Recording.Step.call _ () 5 rfl
  have hbucket := Recording.step_move (s := (Recording.new : Recording Unit)) (i := ())
    (access_bucket LatencyTracker.new false (by decide : (0 : Int64) < 5))
  have hfirst := (exec_recording ((Exec.nil.snoc hcall).snoc hbucket)).imp fun _ _ _ h => h.1
  have hreset := (exec_reset ((Recording.new : Recording Unit).move ()
    (LatencyTracker.new.update (.bucket, 5)) (.count 5))).imp fun _ _ _ h => h.1
  obtain ⟨tr₂, hrest, -⟩ :=
    Recording.exec_rest (Recording.new : Recording Unit) () LatencyTracker.new 5
  have hlast := (exec_recording hrest).imp fun _ _ _ h => h.1
  refine ⟨_, _, (hfirst.trans hreset).trans hlast, fun _ => rfl, rfl, by decide, ?_⟩
  exact Finset.sum_eq_zero fun b _ => rfl

end Monitored

end TradingSim
