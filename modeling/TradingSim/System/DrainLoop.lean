import Mathlib.Data.List.DropRight
import TradingSim.Lib.Events
import TradingSim.Lib.Machine
import TradingSim.System.Process

/-!
The bookkeeping of the main loop: how a round ends when it has found nothing to do, and what the dashboard
shows of the rounds.

A round adds to counters and maxima, some of which a dashboard sets back. Against the rounds there have been:
a dashboard comes with the first round that is five seconds past the last one, its depths are the greatest
since then and its batches the greatest of all (`DrainLoop.dashboard_figures`). The loop sleeps after five
hundred pauses in a row, and not before (`DrainLoop.idle_waits`).

What a round finds is what the process does between two visits of its main thread to `while (running)`
(`Process.IsRound`), so that the figures are figures of the run (`Process.drain_round`).
-/

namespace TradingSim

open Lib

/-! ### A round -/

/-- What a round finds: the sizes of the queues, how many ticks and executions it takes out of them, and the
clock. -/
structure Round where
  tickDepth : UInt64
  execDepth : UInt64
  tickBatch : UInt64
  execBatch : UInt64
  now : Int64
  deriving DecidableEq

/-- How a round ends: at once, with `CPU_PAUSE()`, or with `sleep_for`. -/
inductive Wait where
  | none
  | pause
  | sleep
  deriving DecidableEq

/-- The queue pressure and the counters of the drain loop in a dashboard. -/
structure Dashboard where
  maxTickQueueDepth : UInt64
  maxExecQueueDepth : UInt64
  tickFill : ℚ
  execFill : ℚ
  totalDrainCycles : UInt64
  maxTickBatch : UInt64
  maxExecBatch : UInt64
  deriving DecidableEq

/-- What a round does. -/
structure Outcome where
  wait : Wait
  dashboard : Option Dashboard
  deriving DecidableEq

/-- The variables of the loop. -/
structure DrainLoop where
  totalDrainCycles : UInt64
  maxTickBatch : UInt64
  maxExecBatch : UInt64
  maxTickQueueDepth : UInt64
  maxExecQueueDepth : UInt64
  lastReportTime : Int64
  spin : Int32

/-- `didWork`. -/
def Round.didWork (r : Round) : Bool := r.tickBatch > 0 || r.execBatch > 0

namespace DrainLoop

/-- Before the first round. -/
def new (now : Int64) : DrainLoop := ⟨0, 0, 0, 0, 0, now, 0⟩

/-- `SpscQueue<Tick> tickQueue(100'000)`. -/
abbrev tickQueueCapacity : ℕ := 100000

def kSpinMax : Int32 := 500

/-- `if (x > m) m = x`. -/
def raise (m x : UInt64) : UInt64 := if x > m then x else m

/-- `100.0 * depth / capacity`. -/
def fill (depth : UInt64) (capacity : ℕ) : ℚ := 100 * depth.toNat / capacity

/-- `duration_cast<seconds>(now - lastReportTime).count() >= 5`. -/
def isDue (lastReportTime now : Int64) : Bool := (now - lastReportTime) / 1000000000 ≥ 5

/-- The spin count and the end of a round. -/
def backOff (spin : Int32) (didWork : Bool) : Int32 × Wait :=
  if didWork then (0, .none)
  else if spin < kSpinMax then (spin + 1, .pause)
  else (0, .sleep)

/-- The body of `while (running)`. -/
def round (s : DrainLoop) (r : Round) : DrainLoop × Outcome :=
  let totalDrainCycles := s.totalDrainCycles + 1
  let maxTickQueueDepth := raise s.maxTickQueueDepth r.tickDepth
  let maxExecQueueDepth := raise s.maxExecQueueDepth r.execDepth
  let maxTickBatch := raise s.maxTickBatch r.tickBatch
  let maxExecBatch := raise s.maxExecBatch r.execBatch
  let next := backOff s.spin r.didWork
  if isDue s.lastReportTime r.now then
    (⟨totalDrainCycles, maxTickBatch, maxExecBatch, 0, 0, r.now, next.1⟩,
      ⟨next.2, some ⟨maxTickQueueDepth, maxExecQueueDepth, fill maxTickQueueDepth tickQueueCapacity,
        fill maxExecQueueDepth TradingSystem.execQueueCapacity, totalDrainCycles, maxTickBatch,
        maxExecBatch⟩⟩)
  else
    (⟨totalDrainCycles, maxTickBatch, maxExecBatch, maxTickQueueDepth, maxExecQueueDepth,
      s.lastReportTime, next.1⟩, ⟨next.2, none⟩)

/-- The rounds of a run with what each did, and the variables after them. -/
def run (start : Int64) (rounds : List Round) : DrainLoop × List (Round × Outcome) :=
  rounds.foldl (fun st r => ((st.1.round r).1, st.2 ++ [(r, (st.1.round r).2)])) (new start, [])

theorem run_snoc (start : Int64) (rounds : List Round) (r : Round) : run start (rounds ++ [r]) =
    (((run start rounds).1.round r).1,
      (run start rounds).2 ++ [(r, ((run start rounds).1.round r).2)]) := by
  rw [run, List.foldl_append]
  rfl

theorem map_fst_run (start : Int64) (rounds : List Round) :
    (run start rounds).2.map Prod.fst = rounds := by
  induction rounds using List.reverseRecOn with
  | nil => rfl
  | append_singleton rounds r ih => rw [run_snoc, List.map_append, ih, List.map_singleton]

/-! ### What the variables stand for -/

/-- The round shows no dashboard. -/
def Quiet (e : Round × Outcome) : Bool := e.2.dashboard.isNone

/-- The rounds since the last dashboard. -/
def sinceReport (past : List (Round × Outcome)) : List Round := (past.rtakeWhile Quiet).map Prod.fst

/-- When the last dashboard was shown. -/
def lastReport (start : Int64) (past : List (Round × Outcome)) : Int64 :=
  ((past.rdropWhile Quiet).getLast?.map fun e => e.1.now).getD start

/-- How the rounds ended. -/
def waits (past : List (Round × Outcome)) : List Wait := past.map fun e => e.2.wait

/-- The greatest number of a list, and zero for none. -/
def highest (xs : List UInt64) : UInt64 := xs.foldl raise 0

theorem highest_snoc (xs : List UInt64) (x : UInt64) : highest (xs ++ [x]) = raise (highest xs) x := by
  rw [highest, List.foldl_append]
  rfl

/-- The greatest of some numbers. -/
def Greatest (m : UInt64) (xs : List UInt64) : Prop := m ∈ xs ∧ ∀ x ∈ xs, x ≤ m

theorem greatest_highest {xs : List UInt64} (hne : xs ≠ []) : Greatest (highest xs) xs := by
  have hlt : ∀ a b : UInt64, b > a ↔ (a.toNat : ℤ) < b.toNat := fun a b => by
    rw [gt_iff_lt, UInt64.lt_iff_toNat_lt, Int.ofNat_lt]
  have hinj : Function.Injective fun x : UInt64 => (x.toNat : ℤ) := fun x y hxy =>
    UInt64.toNat_inj.mp (Int.ofNat.inj hxy)
  obtain ⟨m, hm, hmax⟩ := foldl_best_mem hlt hinj (l := xs) (a := 0) fun x _ => by simp
  obtain ⟨hmem, hle⟩ := hmax.resolve_left fun hnil => hne hnil.1
  rw [highest, show xs.foldl raise 0 = m from hm]
  exact ⟨hmem, fun x hx => UInt64.le_iff_toNat_le.mpr (Int.ofNat_le.mp (hle x hx))⟩

/-- `spin` counts the pauses at the end. -/
def Spun (ws : List Wait) (spin : Int32) : Prop :=
  ∃ before k, ws = before ++ List.replicate k .pause ∧ before.getLast? ≠ some .pause ∧
    spin = Int32.ofNat k ∧ k ≤ 500

/-- The variables after the rounds `past`. -/
structure Kept (start : Int64) (s : DrainLoop) (past : List (Round × Outcome)) : Prop where
  cycles : s.totalDrainCycles = UInt64.ofNat past.length
  tickBatch : s.maxTickBatch = highest (past.map fun e => e.1.tickBatch)
  execBatch : s.maxExecBatch = highest (past.map fun e => e.1.execBatch)
  tickDepth : s.maxTickQueueDepth = highest ((sinceReport past).map Round.tickDepth)
  execDepth : s.maxExecQueueDepth = highest ((sinceReport past).map Round.execDepth)
  last : s.lastReportTime = lastReport start past
  spin : Spun (waits past) s.spin

/-! ### Waiting -/

section Wait

variable {ws : List Wait} {spin : Int32} {didWork : Bool}

theorem backOff_pause {k : ℕ} (hk : k < 500) :
    backOff (Int32.ofNat k) false = (Int32.ofNat (k + 1), .pause) := by
  have hlt : Int32.ofNat k < kSpinMax := by
    rw [Int32.lt_iff_toInt_lt, Int32.toInt_ofNat_of_lt (by omega), show kSpinMax.toInt = 500 from rfl]
    omega
  rw [backOff, if_neg (by simp), if_pos hlt, Int32.ofNat_add]
  rfl

theorem backOff_sleep : backOff (Int32.ofNat 500) false = (0, .sleep) := rfl

theorem Spun.wait (h : Spun ws spin) : ((backOff spin didWork).2 = .none ↔ didWork = true) ∧
    ((backOff spin didWork).2 = .sleep ↔ didWork = false ∧ List.replicate 500 .pause <:+ ws) := by
  obtain ⟨before, k, rfl, hlast, rfl, hk⟩ := h
  rw [replicate_suffix_iff hlast]
  cases didWork with
  | true => simp [backOff]
  | false =>
    rcases hk.lt_or_eq with hlt | rfl
    · rw [backOff_pause hlt]
      simp [hlt]
    · rw [backOff_sleep]
      simp

theorem Spun.snoc (h : Spun ws spin) :
    Spun (ws ++ [(backOff spin didWork).2]) (backOff spin didWork).1 := by
  obtain ⟨before, k, rfl, hlast, rfl, hk⟩ := h
  -- anything but a pause ends the repetition
  have hfresh : ∀ w, w ≠ .pause →
      Spun (before ++ List.replicate k .pause ++ [w]) 0 := fun w hw =>
    ⟨before ++ List.replicate k .pause ++ [w], 0, by simp, by simpa using hw, rfl, by simp⟩
  cases didWork with
  | true => exact hfresh .none (by simp)
  | false =>
    rcases hk.lt_or_eq with hlt | rfl
    · rw [backOff_pause hlt]
      exact ⟨before, k + 1, by rw [List.replicate_succ', List.append_assoc], hlast, rfl, hlt⟩
    · exact hfresh .sleep (by simp)

theorem Spun.not_suffix (h : Spun ws spin) : ¬ List.replicate 501 .pause <:+ ws := by
  obtain ⟨before, k, rfl, hlast, -, hk⟩ := h
  rw [replicate_suffix_iff hlast]
  omega

end Wait

/-! ### The variables of a run -/

section Step

variable {start : Int64} {s : DrainLoop} {past : List (Round × Outcome)}

theorem sinceReport_quiet {e : Round × Outcome} (he : e.2.dashboard = none) :
    sinceReport (past ++ [e]) = sinceReport past ++ [e.1] := by
  rw [sinceReport, List.rtakeWhile_concat_pos _ _ _ (by simp [Quiet, he]), List.map_append]
  rfl

theorem sinceReport_shown {e : Round × Outcome} (he : e.2.dashboard ≠ none) :
    sinceReport (past ++ [e]) = [] := by
  rw [sinceReport, List.rtakeWhile_concat_neg _ _ _ (by simpa [Quiet] using he)]
  rfl

theorem lastReport_quiet {e : Round × Outcome} (he : e.2.dashboard = none) :
    lastReport start (past ++ [e]) = lastReport start past := by
  rw [lastReport, List.rdropWhile_concat_pos _ _ _ (by simp [Quiet, he])]
  rfl

theorem lastReport_shown {e : Round × Outcome} (he : e.2.dashboard ≠ none) :
    lastReport start (past ++ [e]) = e.1.now := by
  rw [lastReport, List.rdropWhile_concat_neg _ _ _ (by simpa [Quiet] using he)]
  simp

theorem new_kept (start : Int64) : Kept start (new start) [] :=
  ⟨rfl, rfl, rfl, rfl, rfl, rfl, [], 0, rfl, by simp, rfl, by simp⟩

variable {r : Round}

theorem round_due (hdue : isDue s.lastReportTime r.now = true) : s.round r =
    (⟨s.totalDrainCycles + 1, raise s.maxTickBatch r.tickBatch, raise s.maxExecBatch r.execBatch, 0, 0,
        r.now, (backOff s.spin r.didWork).1⟩,
      ⟨(backOff s.spin r.didWork).2, some ⟨raise s.maxTickQueueDepth r.tickDepth,
        raise s.maxExecQueueDepth r.execDepth,
        fill (raise s.maxTickQueueDepth r.tickDepth) tickQueueCapacity,
        fill (raise s.maxExecQueueDepth r.execDepth) TradingSystem.execQueueCapacity,
        s.totalDrainCycles + 1, raise s.maxTickBatch r.tickBatch, raise s.maxExecBatch r.execBatch⟩⟩) := by
  rw [DrainLoop.round, if_pos hdue]

theorem round_quiet (hdue : ¬ isDue s.lastReportTime r.now = true) : s.round r =
    (⟨s.totalDrainCycles + 1, raise s.maxTickBatch r.tickBatch, raise s.maxExecBatch r.execBatch,
        raise s.maxTickQueueDepth r.tickDepth, raise s.maxExecQueueDepth r.execDepth, s.lastReportTime,
        (backOff s.spin r.didWork).1⟩,
      ⟨(backOff s.spin r.didWork).2, none⟩) := by
  rw [DrainLoop.round, if_neg hdue]

theorem round_wait : (s.round r).2.wait = (backOff s.spin r.didWork).2 := by
  by_cases hdue : isDue s.lastReportTime r.now = true
  · rw [round_due hdue]
  · rw [round_quiet hdue]

/-- **One round.** -/
theorem Kept.round (h : Kept start s past) (r : Round) :
    Kept start (s.round r).1 (past ++ [(r, (s.round r).2)]) := by
  have hcycles : s.totalDrainCycles + 1 = UInt64.ofNat (past.length + 1) := by
    rw [h.cycles, UInt64.ofNat_add]
    rfl
  have hraise : ∀ {m : UInt64} {xs : List UInt64}, m = highest xs → ∀ x, raise m x = highest (xs ++ [x]) :=
    fun hm x => by rw [hm, highest_snoc]
  by_cases hdue : isDue s.lastReportTime r.now = true
  · rw [round_due hdue]
    refine ⟨by simpa using hcycles, by simpa using hraise h.tickBatch _, by simpa using hraise h.execBatch _,
      ?_, ?_, ?_, by simpa [waits] using h.spin.snoc⟩
    · rw [sinceReport_shown (by simp)]
      rfl
    · rw [sinceReport_shown (by simp)]
      rfl
    · rw [lastReport_shown (by simp)]
  · rw [round_quiet hdue]
    refine ⟨by simpa using hcycles, by simpa using hraise h.tickBatch _, by simpa using hraise h.execBatch _,
      ?_, ?_, ?_, by simpa [waits] using h.spin.snoc⟩
    · rw [sinceReport_quiet rfl]
      simpa using hraise h.tickDepth _
    · rw [sinceReport_quiet rfl]
      simpa using hraise h.execDepth _
    · rw [lastReport_quiet rfl]
      exact h.last

/-- **All rounds.** -/
theorem run_kept (start : Int64) (rounds : List Round) :
    Kept start (run start rounds).1 (run start rounds).2 := by
  induction rounds using List.reverseRecOn with
  | nil => exact new_kept start
  | append_singleton rounds r ih =>
    rw [run_snoc]
    exact ih.round r

end Step

/-- **How the loop waits**, whatever it finds in the queues: a round with work to do is followed by the next
one at once, a round without ends with a sleep exactly if the five hundred rounds before it ended with a
pause, and with a pause otherwise; five hundred and one pauses never stand in a row. -/
theorem idle_waits (start : Int64) (rounds : List Round) (r : Round) :
    ∃ out, (run start (rounds ++ [r])).2 = (run start rounds).2 ++ [(r, out)] ∧
      (out.wait = .none ↔ r.didWork = true) ∧
      (out.wait = .sleep ↔
        r.didWork = false ∧ List.replicate 500 .pause <:+ waits (run start rounds).2) ∧
      ¬ List.replicate 501 .pause <:+: waits (run start (rounds ++ [r])).2 := by
  have hwait := @Spun.wait _ _ r.didWork (run_kept start rounds).spin
  rw [← round_wait] at hwait
  refine ⟨_, congrArg Prod.snd (run_snoc start rounds r), hwait.1, hwait.2, ?_⟩
  generalize rounds ++ [r] = all
  induction all using List.reverseRecOn with
  | nil =>
    intro hinfix
    have hlen := hinfix.length_le
    rw [List.length_replicate] at hlen
    exact absurd hlen (Nat.not_succ_le_zero 500)
  | append_singleton all r ih =>
    intro hinfix
    have hsuffix := (run_kept start (all ++ [r])).spin.not_suffix
    rw [run_snoc, waits, List.map_append] at hinfix hsuffix
    exact (List.infix_concat_iff.mp hinfix).elim hsuffix ih

/-! ### The dashboard -/

/-- The clock starts at zero or later and does not go back. -/
def Steady (start : Int64) (rounds : List Round) : Prop :=
  0 ≤ start ∧ (start :: rounds.map Round.now).Pairwise (· ≤ ·)

instance (start : Int64) (rounds : List Round) : Decidable (Steady start rounds) :=
  inferInstanceAs (Decidable (_ ∧ _))

theorem lastReport_mem (start : Int64) (past : List (Round × Outcome)) :
    lastReport start past ∈ start :: past.map fun e => e.1.now := by
  unfold lastReport
  cases hlast : (past.rdropWhile Quiet).getLast? with
  | none => exact List.mem_cons_self
  | some e =>
    have hmem : e ∈ past := (List.rdropWhile_prefix _ _).subset (List.mem_of_getLast? hlast)
    exact List.mem_cons_of_mem _ (List.mem_map_of_mem hmem)

theorem Steady.lastReport {start : Int64} {rounds : List Round} {r : Round}
    (h : Steady start (rounds ++ [r])) : 0 ≤ lastReport start (run start rounds).2 ∧
      lastReport start (run start rounds).2 ≤ r.now := by
  obtain ⟨hzero, hclock⟩ := h
  have hmem := lastReport_mem start (run start rounds).2
  have htimes : ((run start rounds).2.map fun e => e.1.now) = rounds.map Round.now :=
    List.map_map.symm.trans (congrArg (List.map Round.now) (map_fst_run start rounds))
  rw [htimes] at hmem
  rw [List.map_append, ← List.cons_append, List.pairwise_append] at hclock
  refine ⟨?_, hclock.2.2 _ hmem _ (by simp)⟩
  rcases List.mem_cons.mp hmem with heq | hmem
  · rw [heq]
    exact hzero
  · exact Int64.le_trans hzero ((List.pairwise_cons.mp hclock.1).1 _ hmem)

theorem isDue_iff {last now : Int64} (hzero : 0 ≤ last) (hle : last ≤ now) :
    isDue last now = true ↔ last.toInt + 5000000000 ≤ now.toInt := by
  have hsub := toInt_sub_of_le hzero hle
  have hnonneg : 0 ≤ now.toInt - last.toInt := by
    have := Int64.le_iff_toInt_le.mp hle
    omega
  rw [isDue, decide_eq_true_iff, ge_iff_le, Int64.le_iff_toInt_le,
    Int64.toInt_div_of_ne_right _ _ (by decide), hsub, Int.tdiv_eq_ediv_of_nonneg hnonneg,
    show (5 : Int64).toInt = 5 from rfl, show (1000000000 : Int64).toInt = 1000000000 from rfl]
  omega

theorem fill_lt {depth : UInt64} {capacity : ℕ} (h : depth.toNat < capacity) : fill depth capacity < 100 := by
  have hcast : (depth.toNat : ℚ) < capacity := by exact_mod_cast h
  have hpos : (0 : ℚ) < capacity := lt_of_le_of_lt (Nat.cast_nonneg _) hcast
  rw [fill, div_lt_iff₀ hpos]
  linarith

/-- The dashboard shows the rounds `past` and the round `r` after them: the depths since the last one, and
the others from the start. -/
structure Shows (d : Dashboard) (past : List (Round × Outcome)) (r : Round) : Prop where
  cycles : d.totalDrainCycles = UInt64.ofNat (past.length + 1)
  tickBatch : Greatest d.maxTickBatch ((past.map Prod.fst ++ [r]).map Round.tickBatch)
  execBatch : Greatest d.maxExecBatch ((past.map Prod.fst ++ [r]).map Round.execBatch)
  tickDepth : Greatest d.maxTickQueueDepth ((sinceReport past ++ [r]).map Round.tickDepth)
  execDepth : Greatest d.maxExecQueueDepth ((sinceReport past ++ [r]).map Round.execDepth)
  tickFill : d.maxTickQueueDepth.toNat < tickQueueCapacity → d.tickFill < 100
  execFill : d.maxExecQueueDepth.toNat < TradingSystem.execQueueCapacity → d.execFill < 100

theorem Kept.shows {start : Int64} {s : DrainLoop} {past : List (Round × Outcome)} {r : Round}
    (h : Kept start s past) : ∀ d ∈ (s.round r).2.dashboard, Shows d past r := by
  have hraise : ∀ {m : UInt64} {rounds : List Round} (f : Round → UInt64), m = highest (rounds.map f) →
      Greatest (raise m (f r)) ((rounds ++ [r]).map f) := fun f hm => by
    rw [hm, ← highest_snoc, List.map_append, List.map_singleton]
    exact greatest_highest (by simp)
  have htick : s.maxTickBatch = highest ((past.map Prod.fst).map Round.tickBatch) := by
    rw [List.map_map]
    exact h.tickBatch
  have hexec : s.maxExecBatch = highest ((past.map Prod.fst).map Round.execBatch) := by
    rw [List.map_map]
    exact h.execBatch
  intro d hd
  by_cases hdue : isDue s.lastReportTime r.now = true
  · rw [round_due hdue] at hd
    obtain rfl := Option.mem_some.mp hd
    refine ⟨?_, hraise _ htick, hraise _ hexec, hraise _ h.tickDepth, hraise _ h.execDepth, fill_lt, fill_lt⟩
    rw [h.cycles, UInt64.ofNat_add]
    rfl
  · rw [round_quiet hdue] at hd
    cases hd

/-- **The figures of the dashboard.** On a clock that does not go back, whatever the rounds before found, a
round shows the dashboard exactly if the last one, or the start, is five seconds ago or more; and the
dashboard has the number of all rounds, the largest batches of all rounds, and the largest depths of the
rounds since the last one. -/
theorem dashboard_figures {start : Int64} {rounds : List Round} {r : Round}
    (hclock : Steady start (rounds ++ [r])) :
    ∃ out, (run start (rounds ++ [r])).2 = (run start rounds).2 ++ [(r, out)] ∧
      (out.dashboard ≠ none ↔
        (lastReport start (run start rounds).2).toInt + 5000000000 ≤ r.now.toInt) ∧
      ∀ d ∈ out.dashboard, Shows d (run start rounds).2 r := by
  have hkept := run_kept start rounds
  refine ⟨_, congrArg Prod.snd (run_snoc start rounds r), ?_, hkept.shows⟩
  rw [← isDue_iff hclock.lastReport.1 hclock.lastReport.2, ← hkept.last]
  by_cases hdue : isDue (run start rounds).1.lastReportTime r.now = true
  · rw [round_due hdue]
    simp [hdue]
  · rw [round_quiet hdue]
    simp [hdue]

theorem Greatest.sum_bounds {m : UInt64} {xs : List UInt64} {n : ℕ} (h : Greatest m xs)
    (hsum : (xs.map UInt64.toNat).sum = n) : m.toNat ≤ n ∧ n ≤ xs.length * m.toNat := by
  subst hsum
  refine ⟨List.single_le_sum (by simp) _ (List.mem_map_of_mem h.1), ?_⟩
  have hle := List.sum_le_card_nsmul (xs.map UInt64.toNat) m.toNat (by
    rw [List.forall_mem_map]
    exact fun x hx => UInt64.le_iff_toNat_le.mp (h.2 x hx))
  rwa [List.length_map, smul_eq_mul] at hle

theorem sinceReport_subset {start : Int64} {rounds : List Round} :
    sinceReport (run start rounds).2 ⊆ rounds := by
  nth_rewrite 2 [← map_fst_run start rounds]
  exact List.map_subset _ (List.rtakeWhile_suffix Quiet _).subset

theorem Shows.depths {start : Int64} {rounds : List Round} {r : Round} {d : Dashboard} {tickCap execCap : ℕ}
    (h : Shows d (run start rounds).2 r)
    (hcap : ∀ r' ∈ rounds ++ [r], r'.tickDepth.toNat < tickCap ∧ r'.execDepth.toNat < execCap) :
    d.maxTickQueueDepth.toNat < tickCap ∧ d.maxExecQueueDepth.toNat < execCap := by
  have hmem : ∀ r' ∈ sinceReport (run start rounds).2 ++ [r], r' ∈ rounds ++ [r] := by
    intro r' hr'
    rw [List.mem_append] at hr' ⊢
    exact hr'.imp_left fun hr' => sinceReport_subset hr'
  obtain ⟨r₁, hr₁, htick⟩ := List.mem_map.mp h.tickDepth.1
  obtain ⟨r₂, hr₂, hexec⟩ := List.mem_map.mp h.execDepth.1
  rw [← htick, ← hexec]
  exact ⟨(hcap r₁ (hmem r₁ hr₁)).1, (hcap r₂ (hmem r₂ hr₂)).2⟩

end DrainLoop

/-! ### The rounds of a run -/

/-- A round is over when `execQueue` is found empty. -/
def ProcessEvent.endsRound : ProcessEvent → Bool
  | .trading (.queue (.done .empty)) => true
  | _ => false

/-- The executions that were applied to the ledger. -/
def ProcessEvent.booked (tr : List ProcessEvent) : List Execution :=
  SystemEvent.applied (tr.filterMap ProcessEvent.trading?)

namespace Process

variable {tickCap execCap : ℕ} [NeZero tickCap] [NeZero execCap] {double : List UInt8 → ℚ}
  {p p' s : Process tickCap execCap} {tr tr' : List ProcessEvent} {r : Round} {rounds : List Round}

/-- `size()` of a queue that the caller alone pops, at the beginning of a round: nothing leaves the queue
between the two loads, and the number of items at the load of the tail is returned. -/
def Sampled (double : List UInt8 → ℚ) (stored : Process tickCap execCap → ℕ) (p : Process tickCap execCap)
    (tr : List ProcessEvent) (p' : Process tickCap execCap) (depth : UInt64) : Prop :=
  ∃ tr₁ tr₂ q, tr = tr₁ ++ tr₂ ∧ Exec (Step double) p tr₁ q ∧ Exec (Step double) q tr₂ p' ∧
    q.main = .drainTicks ∧ ProcessEvent.pricedTicks tr₁ = [] ∧ depth.toNat = stored q

/-- What happens from one test of `running` to the next, in all the threads, and what the main thread finds
in it. -/
structure IsRound (double : List UInt8 → ℚ) (p : Process tickCap execCap) (tr : List ProcessEvent)
    (r : Round) (p' : Process tickCap execCap) : Prop where
  exec : Exec (Step double) p tr p'
  start : p.main = .top
  finish : p'.main = .top
  once : tr.countP ProcessEvent.endsRound = 1
  tickDepth : Sampled double (fun q => q.ticks.queue.stored.length) p tr p' r.tickDepth
  execDepth : Sampled double (fun q => q.execs.queue.stored.length) p tr p' r.execDepth
  tickBatch : r.tickBatch.toNat = (ProcessEvent.pricedTicks tr).length
  execBatch : r.execBatch.toNat = (ProcessEvent.booked tr).length

/-- A run of the process, cut into its rounds. -/
inductive Rounds (double : List UInt8 → ℚ) (s : Process tickCap execCap) :
    List ProcessEvent → List Round → Process tickCap execCap → Prop
  | nil : Rounds double s [] [] s
  | snoc {tr tr' : List ProcessEvent} {rounds : List Round} {r : Round}
      {p p' : Process tickCap execCap} : Rounds double s tr rounds p → p.IsRound double tr' r p' →
      Rounds double s (tr ++ tr') (rounds ++ [r]) p'

theorem Rounds.batches (h : Rounds double s tr rounds p) :
    ((rounds.map Round.tickBatch).map UInt64.toNat).sum = (ProcessEvent.pricedTicks tr).length ∧
      ((rounds.map Round.execBatch).map UInt64.toNat).sum = (ProcessEvent.booked tr).length := by
  induction h with
  | nil => exact ⟨rfl, rfl⟩
  | snoc _ hround ih =>
    obtain ⟨hticks, hexecs⟩ := ih
    rw [List.map_map] at hticks hexecs
    constructor
    · simpa [ProcessEvent.pricedTicks, hround.tickBatch] using hticks
    · simpa [ProcessEvent.booked, SystemEvent.applied, hround.execBatch] using hexecs

theorem Sampled.lt {stored : Process tickCap execCap → ℕ} {cap : ℕ} {depth : UInt64}
    (h : Sampled double stored p tr p' depth) (hcap : ∀ q, stored q < cap) : depth.toNat < cap := by
  obtain ⟨-, -, q, -, -, -, -, -, hdepth⟩ := h
  rw [hdepth]
  exact hcap q

theorem IsRound.depths (h : p.IsRound double tr r p') :
    r.tickDepth.toNat < tickCap ∧ r.execDepth.toNat < execCap := by
  refine ⟨h.tickDepth.lt fun q => ?_, h.execDepth.lt fun q => ?_⟩
  · rw [SpscQueue.stored, Ring.length_items]
    exact Ring.dist_lt _ _
  · rw [SpscQueue.stored, Ring.length_items]
    exact Ring.dist_lt _ _

theorem Rounds.depths (h : Rounds double s tr rounds p) :
    ∀ r ∈ rounds, r.tickDepth.toNat < tickCap ∧ r.execDepth.toNat < execCap := by
  induction h with
  | nil => simp
  | snoc _ hround ih =>
    rw [List.forall_mem_append, List.forall_mem_singleton]
    exact ⟨ih, hround.depths⟩

theorem IsRound.didWork (h : p.IsRound double tr r p') : r.didWork = true ↔
    ProcessEvent.pricedTicks tr ≠ [] ∨ ProcessEvent.booked tr ≠ [] := by
  rw [Round.didWork, Bool.or_eq_true, decide_eq_true_iff, decide_eq_true_iff, gt_iff_lt, gt_iff_lt,
    UInt64.lt_iff_toNat_lt, UInt64.lt_iff_toNat_lt, h.tickBatch, h.execBatch]
  exact or_congr List.length_pos_iff List.length_pos_iff

/-- **A round of the main loop**, in whatever run of the process. It is followed by the next one at once if
a tick was priced or an execution was booked in it; otherwise the loop sleeps if it has ended the last five
hundred rounds with a pause. It shows the dashboard if the last one, or the start, is five seconds ago. A
dashboard has the number of rounds, no queue was full in it, and what the run has priced and booked is at
least its largest batch and at most its largest batch times its rounds. -/
theorem drain_round {s p p' : Process DrainLoop.tickQueueCapacity TradingSystem.execQueueCapacity}
    {start : Int64} (h : Rounds double s tr rounds p) (hround : p.IsRound double tr' r p')
    (hclock : DrainLoop.Steady start (rounds ++ [r])) (hcount : rounds.length + 1 < 2 ^ 64) :
    ∃ out, (DrainLoop.run start (rounds ++ [r])).2 = (DrainLoop.run start rounds).2 ++ [(r, out)] ∧
      (out.wait = .none ↔ ProcessEvent.pricedTicks tr' ≠ [] ∨ ProcessEvent.booked tr' ≠ []) ∧
      (out.wait = .sleep ↔ ProcessEvent.pricedTicks tr' = [] ∧ ProcessEvent.booked tr' = [] ∧
        List.replicate 500 .pause <:+ DrainLoop.waits (DrainLoop.run start rounds).2) ∧
      (out.dashboard ≠ none ↔
        (DrainLoop.lastReport start (DrainLoop.run start rounds).2).toInt + 5000000000 ≤ r.now.toInt) ∧
      ∀ d ∈ out.dashboard, DrainLoop.Shows d (DrainLoop.run start rounds).2 r ∧
        d.tickFill < 100 ∧ d.execFill < 100 ∧ d.totalDrainCycles.toNat = rounds.length + 1 ∧
        d.maxTickBatch.toNat ≤ (ProcessEvent.pricedTicks (tr ++ tr')).length ∧
        (ProcessEvent.pricedTicks (tr ++ tr')).length ≤ (rounds.length + 1) * d.maxTickBatch.toNat ∧
        d.maxExecBatch.toNat ≤ (ProcessEvent.booked (tr ++ tr')).length ∧
        (ProcessEvent.booked (tr ++ tr')).length ≤ (rounds.length + 1) * d.maxExecBatch.toNat := by
  obtain ⟨out, hrun, hnone, hsleep, -⟩ := DrainLoop.idle_waits start rounds r
  obtain ⟨out', hrun', hdue, hshows⟩ := DrainLoop.dashboard_figures hclock
  obtain rfl : out = out' := by simpa using hrun.symm.trans hrun'
  have hidle : r.didWork = false ↔
      ProcessEvent.pricedTicks tr' = [] ∧ ProcessEvent.booked tr' = [] := by
    rw [← Bool.not_eq_true, hround.didWork]
    push Not
    rfl
  refine ⟨out, hrun, hnone.trans hround.didWork, ?_, hdue, fun d hd => ?_⟩
  · rw [hsleep, hidle, and_assoc]
  have hd := hshows d hd
  have hall := h.snoc hround
  obtain ⟨hticks, hexecs⟩ := hall.batches
  obtain ⟨htick, hexec⟩ := And.intro hd.tickBatch hd.execBatch
  obtain ⟨htickDepth, hexecDepth⟩ := hd.depths hall.depths
  rw [DrainLoop.map_fst_run] at htick hexec
  have hlength : ∀ f : Round → UInt64, ((rounds ++ [r]).map f).length = rounds.length + 1 := by simp
  have hpast : (DrainLoop.run start rounds).2.length = rounds.length := by
    rw [← List.length_map Prod.fst, DrainLoop.map_fst_run]
  have hcycles : d.totalDrainCycles.toNat = rounds.length + 1 := by
    rw [hd.cycles, hpast, UInt64.toNat_ofNat_of_lt' hcount]
  obtain ⟨hticksLe, hleTicks⟩ := htick.sum_bounds hticks
  obtain ⟨hexecsLe, hleExecs⟩ := hexec.sum_bounds hexecs
  rw [hlength] at hleTicks hleExecs
  exact ⟨hd, hd.tickFill htickDepth, hd.execFill hexecDepth, hcycles, hticksLe, hleTicks, hexecsLe, hleExecs⟩

theorem isRound_booked (double : List UInt8 → ℚ)
    (tickBuffer : Fin DrainLoop.tickQueueCapacity → Tick)
    (execBuffer : Fin TradingSystem.execQueueCapacity → Execution) (exec : Execution) (now : Int64) :
    ∃ tr p, (boot tickBuffer execBuffer [exec]).IsRound double tr ⟨0, 1, 0, 1, now⟩ p ∧
      ProcessEvent.booked tr = [exec] := by
  let zero : Fin TradingSystem.execQueueCapacity := ⟨0, by norm_num⟩
  let one : Fin TradingSystem.execQueueCapacity := ⟨1, by norm_num⟩
  let full := Function.update execBuffer zero exec
  -- the process with `execQueue`, the main thread and the ledger at these places
  let state (ticks : SpscQueue Tick DrainLoop.tickQueueCapacity)
      (execs : SpscQueue Execution TradingSystem.execQueueCapacity) (main : MainLoop)
      (positions : Except Fault PositionManager) :
      Process DrainLoop.tickQueueCapacity TradingSystem.execQueueCapacity :=
    ⟨.setup, false, ⟨ticks, [], 0⟩, ⟨execs, [], 0⟩, true, main, .ok (.ofTicks []), positions⟩
  have hpush : Exec (Step double) (boot tickBuffer execBuffer [exec])
      [.trading (.queue (.pushCall exec)), .trading (.queue .pushAccess), .trading (.queue .pushAccess),
        .trading (.queue (.done (.push exec))), .trading .silent]
      (state (.new tickBuffer) ⟨full, zero, one, .idle, .idle⟩ .drainTicks (.ok .new)) :=
    Exec.nil |>.snoc (.emit rfl) |>.snoc (.emit rfl) |>.snoc (.emit rfl) |>.snoc (.emit rfl)
      |>.snoc (.cycle rfl rfl)
  have hdrain : Exec (Step double)
      (state (.new tickBuffer) ⟨full, zero, one, .idle, .idle⟩ .drainTicks (.ok .new))
      [.ticks .popCall, .ticks (.done .empty), .trading (.queue .popCall), .trading (.queue .popAccess),
        .trading (.queue .popAccess), .trading (.queue (.done (.pop exec))), .trading (.booked exec),
        .trading (.queue .popCall), .trading (.queue (.done .empty))]
      (state (.new tickBuffer) ⟨full, one, one, .idle, .idle⟩ .top
        (PositionManager.new.onExecution exec)) :=
    Exec.nil |>.snoc (.popTick rfl) |>.snoc (.popTick rfl) |>.snoc (.popExec rfl) |>.snoc (.popExec rfl)
      |>.snoc (.popExec rfl) |>.snoc (.popExec rfl) |>.snoc (.onExecution rfl) |>.snoc (.popExec rfl)
      |>.snoc (.popExec rfl)
  refine ⟨_, _, ⟨hpush.trans hdrain, rfl, rfl, rfl, ?_, ?_, rfl, rfl⟩, rfl⟩
  · exact ⟨_, _, _, rfl, hpush, hdrain, rfl, rfl, rfl⟩
  · exact ⟨_, _, _, rfl, hpush, hdrain, rfl, rfl, rfl⟩

/-- Six seconds after the start, in the first round of all, an execution is booked: the next round follows
at once, and the dashboard has the one execution as its largest batch. -/
theorem drain_round_booked :
    let exec : Execution := ⟨0, 0, fun _ => 0, 100, 10, .buy, 0, 0⟩
    let r : Round := ⟨0, 1, 0, 1, 6000000000⟩
    let s : Process DrainLoop.tickQueueCapacity TradingSystem.execQueueCapacity :=
      boot (fun _ => ⟨0, 0, 0, 0, 0⟩) (fun _ => exec) [exec]
    ∃ tr p out, s.IsRound (fun _ => 0) tr r p ∧ (DrainLoop.run 0 [r]).2 = [(r, out)] ∧
      out.wait = .none ∧ ∃ d ∈ out.dashboard, d.maxExecBatch = 1 := by
  intro exec r s
  obtain ⟨tr, p, hround, hbooked⟩ :=
    isRound_booked (fun _ => 0) (fun _ => ⟨0, 0, 0, 0, 0⟩) (fun _ => exec) exec 6000000000
  obtain ⟨out, hrun, hnone, -, hdue, hshows⟩ :=
    drain_round .nil hround (show DrainLoop.Steady 0 [r] by decide) (by norm_num)
  obtain ⟨d, hd⟩ := Option.ne_none_iff_exists'.mp (hdue.mpr (by decide))
  refine ⟨tr, p, out, hround, hrun, hnone.mpr (Or.inr (by simp [hbooked])), d, hd, ?_⟩
  simpa [DrainLoop.run] using (hshows d hd).1.execBatch.1

end Process

end TradingSim
