import TradingSim.Fix.Format
import TradingSim.Metrics.Report
import TradingSim.Reference.InstrumentStore

/-!
The snapshot that the metrics server sends to its clients: what `main` puts into it, and its JSON text.

The server writes the text by hand. A reader of objects whose members are integers gets back the sixteen
members, each under its name and with its value, negative or not (`MetricsSnapshot.readObject_toJson`). So a
client sees the counters themselves, and of a tracker at rest it sees percentiles in order
(`MetricsSnapshot.snapshot_sent`).
-/

namespace TradingSim

open Lib FixSessionReader

/-! ### The snapshot -/

/-- `MetricsSnapshot`. -/
structure MetricsSnapshot where
  tickP50 : Int64
  tickP99 : Int64
  tickP999 : Int64
  tickMax : Int64
  tickCount : UInt64
  matchP50 : Int64
  matchP99 : Int64
  matchP999 : Int64
  matchMax : Int64
  matchCount : UInt64
  droppedTicks : UInt64
  droppedExecs : UInt64
  tickQueueDepth : UInt64
  execQueueDepth : UInt64
  tickQueueCapacity : UInt64
  execQueueCapacity : UInt64

namespace MetricsSnapshot

/-- The lambda that `main` gives to the server, with what it reads: the two trackers, the counts of drops, and
size and capacity of the two queues. -/
def snapshot (tickHotLatency matchLatency : LatencyTracker) (droppedTicks droppedExecs : UInt64)
    (tickSize execSize tickCapacity execCapacity : UInt64) : Except Fault MetricsSnapshot := do
  let tickP50 ← tickHotLatency.percentile 50
  let tickP99 ← tickHotLatency.percentile 99
  let tickP999 ← tickHotLatency.percentile (999 / 10)
  let matchP50 ← matchLatency.percentile 50
  let matchP99 ← matchLatency.percentile 99
  let matchP999 ← matchLatency.percentile (999 / 10)
  pure
    { tickP50 := tickP50
      tickP99 := tickP99
      tickP999 := tickP999
      tickMax := tickHotLatency.max
      tickCount := tickHotLatency.count
      matchP50 := matchP50
      matchP99 := matchP99
      matchP999 := matchP999
      matchMax := matchLatency.max
      matchCount := matchLatency.count
      droppedTicks := droppedTicks
      droppedExecs := droppedExecs
      tickQueueDepth := tickSize
      execQueueDepth := execSize
      tickQueueCapacity := tickCapacity
      execQueueCapacity := execCapacity }

/-- An `int64_t` as a stream writes it. -/
def signed (x : Int64) : List UInt8 :=
  if x < 0 then 45 :: decimal (-x.toInt).toNat else decimal x.toInt.toNat

/-- A `uint64_t` as a stream writes it. -/
def unsigned (x : UInt64) : List UInt8 := decimal x.toNat

/-- `"\"name\":" << value`. -/
def member (name : String) (value : List UInt8) : List UInt8 :=
  [34] ++ ascii name ++ [34, 58] ++ value

/-- `toJson`. -/
def toJson (s : MetricsSnapshot) : List UInt8 :=
  [123] ++ member "tick_p50" (signed s.tickP50) ++ [44] ++ member "tick_p99" (signed s.tickP99) ++ [44] ++
    member "tick_p999" (signed s.tickP999) ++ [44] ++ member "tick_max" (signed s.tickMax) ++ [44] ++
    member "tick_count" (unsigned s.tickCount) ++ [44] ++ member "match_p50" (signed s.matchP50) ++ [44] ++
    member "match_p99" (signed s.matchP99) ++ [44] ++ member "match_p999" (signed s.matchP999) ++ [44] ++
    member "match_max" (signed s.matchMax) ++ [44] ++ member "match_count" (unsigned s.matchCount) ++ [44] ++
    member "dropped_ticks" (unsigned s.droppedTicks) ++ [44] ++
    member "dropped_execs" (unsigned s.droppedExecs) ++ [44] ++
    member "tick_queue_depth" (unsigned s.tickQueueDepth) ++ [44] ++
    member "exec_queue_depth" (unsigned s.execQueueDepth) ++ [44] ++
    member "tick_queue_capacity" (unsigned s.tickQueueCapacity) ++ [44] ++
    member "exec_queue_capacity" (unsigned s.execQueueCapacity) ++ [125]

/-! ### A reader -/

/-- The members of the snapshot: names and numbers. -/
def members (s : MetricsSnapshot) : List (String × ℤ) :=
  [("tick_p50", s.tickP50.toInt), ("tick_p99", s.tickP99.toInt), ("tick_p999", s.tickP999.toInt),
    ("tick_max", s.tickMax.toInt), ("tick_count", s.tickCount.toNat), ("match_p50", s.matchP50.toInt),
    ("match_p99", s.matchP99.toInt), ("match_p999", s.matchP999.toInt), ("match_max", s.matchMax.toInt),
    ("match_count", s.matchCount.toNat), ("dropped_ticks", s.droppedTicks.toNat),
    ("dropped_execs", s.droppedExecs.toNat), ("tick_queue_depth", s.tickQueueDepth.toNat),
    ("exec_queue_depth", s.execQueueDepth.toNat), ("tick_queue_capacity", s.tickQueueCapacity.toNat),
    ("exec_queue_capacity", s.execQueueCapacity.toNat)]

/-- The number that a text of digits stands for. -/
def readNatural (text : List UInt8) : Option ℕ :=
  if text ≠ [] ∧ text.all fun c => 48 ≤ c.toNat ∧ c.toNat ≤ 57 then
    some (Nat.ofDigits 10 (text.reverse.map fun c => c.toNat - 48))
  else none

/-- Digits, with a minus sign or without. -/
def readInteger : List UInt8 → Option ℤ
  | 45 :: text => (readNatural text).map fun n : ℕ => -(n : ℤ)
  | text => (readNatural text).map fun n : ℕ => (n : ℤ)

/-- A text between quotes, without a quote in it. -/
def readName : List UInt8 → Option (List UInt8)
  | 34 :: text => if text.getLast? = some 34 ∧ 34 ∉ text.dropLast then some text.dropLast else none
  | _ => none

/-- A name and an integer, with a colon between them. -/
def readMember (text : List UInt8) : Option (List UInt8 × ℤ) :=
  match text.splitOn 58 with
  | [name, value] => do
    let name ← readName name
    let value ← readInteger value
    pure (name, value)
  | _ => none

/-- The members of an object. -/
def readObject : List UInt8 → Option (List (List UInt8 × ℤ))
  | 123 :: text =>
    if text.getLast? = some 125 then (text.dropLast.splitOn 44).mapM readMember else none
  | _ => none

/-! ### The text of an integer -/

theorem readNatural_decimal (n : ℕ) : readNatural (decimal n) = some n := by
  obtain ⟨hne, hdigits, hval⟩ := decimal_denotes n
  have hall : ((decimal n).all fun c => 48 ≤ c.toNat ∧ c.toNat ≤ 57) = true :=
    List.all_eq_true.mpr fun c hc => decide_eq_true (hdigits c hc)
  rw [readNatural, if_pos ⟨hne, hall⟩, hval]

theorem not_mem_decimal {c : UInt8} (hc : ¬ (48 ≤ c.toNat ∧ c.toNat ≤ 57)) (n : ℕ) : c ∉ decimal n :=
  fun hmem => hc ((decimal_denotes n).2.1 c hmem)

theorem readInteger_decimal (n : ℕ) : readInteger (decimal n) = some (n : ℤ) := by
  have hminus : 45 ∉ decimal n := not_mem_decimal (by decide) n
  unfold readInteger
  split
  · rename_i text heq
    exact absurd (heq ▸ List.mem_cons_self) hminus
  · rw [readNatural_decimal]
    rfl

theorem readInteger_signed (x : Int64) : readInteger (signed x) = some x.toInt := by
  unfold signed
  split
  · rename_i hneg
    have hlt : x.toInt < 0 := Int64.lt_iff_toInt_lt.mp hneg
    rw [readInteger, readNatural_decimal, Option.map_some, Int.toNat_of_nonneg (by omega), neg_neg]
  · rename_i hneg
    have hge : 0 ≤ x.toInt := not_lt.mp fun hlt => hneg (Int64.lt_iff_toInt_lt.mpr hlt)
    rw [readInteger_decimal, Int.toNat_of_nonneg hge]

theorem not_mem_signed {c : UInt8} (hc : ¬ (48 ≤ c.toNat ∧ c.toNat ≤ 57)) (hminus : c ≠ 45) (x : Int64) :
    c ∉ signed x := by
  unfold signed
  split
  · rw [List.mem_cons, not_or]
    exact ⟨hminus, not_mem_decimal hc _⟩
  · exact not_mem_decimal hc _

/-! ### The text of a member -/

/-- A text that a member can have as its value: it is read as `n`, and has no separator. -/
structure Value (text : List UInt8) (n : ℤ) : Prop where
  read : readInteger text = some n
  comma : 44 ∉ text
  colon : 58 ∉ text

theorem value_signed (x : Int64) : Value (signed x) x.toInt :=
  ⟨readInteger_signed x, not_mem_signed (by decide) (by decide) x, not_mem_signed (by decide) (by decide) x⟩

theorem value_unsigned (x : UInt64) : Value (unsigned x) x.toNat :=
  ⟨readInteger_decimal _, not_mem_decimal (by decide) _, not_mem_decimal (by decide) _⟩

/-- A name that can stand between quotes. -/
def Plain (name : String) : Prop := 34 ∉ ascii name ∧ 44 ∉ ascii name ∧ 58 ∉ ascii name

instance (name : String) : Decidable (Plain name) := inferInstanceAs (Decidable (_ ∧ _ ∧ _))

variable {name : String} {text : List UInt8} {n : ℤ}

theorem comma_not_mem_member (hname : Plain name) (hvalue : Value text n) : 44 ∉ member name text := by
  simp only [member, List.mem_append, not_or]
  exact ⟨⟨⟨by decide, hname.2.1⟩, by decide⟩, hvalue.comma⟩

/-- **A member is read back.** -/
theorem readMember_member (hname : Plain name) (hvalue : Value text n) :
    readMember (member name text) = some (ascii name, n) := by
  have hquoted : 58 ∉ 34 :: (ascii name ++ [34]) := by
    simp only [List.mem_cons, List.mem_append, List.not_mem_nil, or_false, not_or]
    exact ⟨by decide, hname.2.2, by decide⟩
  have htext : member name text = (34 :: (ascii name ++ [34])) ++ 58 :: text := by
    simp [member]
  have hread : readName (34 :: (ascii name ++ [34])) = some (ascii name) := by
    rw [readName, List.getLast?_append, List.dropLast_concat]
    simp [hname.1]
  rw [readMember, htext, splitOn_append hquoted, splitOn_of_not_mem hvalue.colon]
  simp [hread, hvalue.read]

/-- The text `m` of a member is that of the name and number `p`. -/
def Writes (m : String × List UInt8) (p : String × ℤ) : Prop := m.1 = p.1 ∧ Plain m.1 ∧ Value m.2 p.2

/-- **An object is read back**, member by member. -/
theorem readObject_intercalate {ms : List (String × List UInt8)} {ps : List (String × ℤ)} (hne : ms ≠ [])
    (h : List.Forall₂ Writes ms ps) :
    readObject ([123] ++ [44].intercalate (ms.map fun m => member m.1 m.2) ++ [125]) =
      some (ps.map fun p => (ascii p.1, p.2)) := by
  have hcomma : ∀ text ∈ ms.map fun m => member m.1 m.2, 44 ∉ text := by
    clear hne
    induction h with
    | nil => simp
    | cons hm _ ih =>
      rw [List.map_cons, List.forall_mem_cons]
      exact ⟨comma_not_mem_member hm.2.1 hm.2.2, ih⟩
  have hread : (ms.map fun m => member m.1 m.2).mapM readMember =
      some (ps.map fun p => (ascii p.1, p.2)) := by
    clear hne hcomma
    induction h with
    | nil => rfl
    | cons hm _ ih =>
      obtain ⟨hname, hplain, hvalue⟩ := hm
      rw [List.map_cons, List.mapM_cons, readMember_member hplain hvalue, ih, hname]
      rfl
  have hmap : (ms.map fun m => member m.1 m.2) ≠ [] := by simpa using hne
  rw [List.append_assoc, List.singleton_append, readObject, List.getLast?_append, List.dropLast_concat,
    List.splitOn_intercalate _ hcomma hmap, hread]
  simp

/-! ### The frame -/

/-- The texts of the members. -/
def texts (s : MetricsSnapshot) : List (String × List UInt8) :=
  [("tick_p50", signed s.tickP50), ("tick_p99", signed s.tickP99), ("tick_p999", signed s.tickP999),
    ("tick_max", signed s.tickMax), ("tick_count", unsigned s.tickCount), ("match_p50", signed s.matchP50),
    ("match_p99", signed s.matchP99), ("match_p999", signed s.matchP999), ("match_max", signed s.matchMax),
    ("match_count", unsigned s.matchCount), ("dropped_ticks", unsigned s.droppedTicks),
    ("dropped_execs", unsigned s.droppedExecs), ("tick_queue_depth", unsigned s.tickQueueDepth),
    ("exec_queue_depth", unsigned s.execQueueDepth), ("tick_queue_capacity", unsigned s.tickQueueCapacity),
    ("exec_queue_capacity", unsigned s.execQueueCapacity)]

theorem toJson_eq (s : MetricsSnapshot) :
    s.toJson = [123] ++ [44].intercalate (s.texts.map fun m => member m.1 m.2) ++ [125] := by
  unfold toJson texts
  -- what a member looks like does not matter here
  generalize member = text
  simp [List.intercalate]

theorem texts_write (s : MetricsSnapshot) : List.Forall₂ Writes s.texts s.members := by
  have hs : ∀ {name : String}, Plain name → ∀ x : Int64, Writes (name, signed x) (name, x.toInt) :=
    fun hname x => ⟨rfl, hname, value_signed x⟩
  have hu : ∀ {name : String}, Plain name → ∀ x : UInt64, Writes (name, unsigned x) (name, x.toNat) :=
    fun hname x => ⟨rfl, hname, value_unsigned x⟩
  unfold texts members
  simp only [List.forall₂_cons, List.forall₂_nil_left_iff, and_true]
  exact ⟨hs (by decide) _, hs (by decide) _, hs (by decide) _, hs (by decide) _, hu (by decide) _,
    hs (by decide) _, hs (by decide) _, hs (by decide) _, hs (by decide) _, hu (by decide) _,
    hu (by decide) _, hu (by decide) _, hu (by decide) _, hu (by decide) _, hu (by decide) _,
    hu (by decide) _⟩

/-- **The text says what the snapshot has**, under the sixteen names. -/
theorem readObject_toJson (s : MetricsSnapshot) :
    readObject s.toJson = some (s.members.map fun p => (ascii p.1, p.2)) := by
  rw [toJson_eq]
  exact readObject_intercalate (by simp [texts]) s.texts_write

/-- **What a client reads.** Let both trackers be at rest, in runs in which no call of `record` overlaps a
reset, and let the other counters have any values. There is a snapshot, and its frame is read as sixteen
members, each with the value of its counter: the numbers of samples modulo `2 ^ 64`, the percentiles of
each tracker in order and none above its maximum, the drops, and the sizes and capacities. -/
theorem snapshot_sent {ι κ : Type} [DecidableEq ι] [DecidableEq κ] {tr : List (MonitorEvent ι)}
    {tr' : List (MonitorEvent κ)} {ticks : Monitored ι} {matches' : Monitored κ}
    (h : Exec Monitored.ExclusiveStep .new tr ticks) (hidle : ∀ i, ticks.recording.threads i = .idle)
    (hres : ticks.resetter = .idle) (h' : Exec Monitored.ExclusiveStep .new tr' matches')
    (hidle' : ∀ i, matches'.recording.threads i = .idle) (hres' : matches'.resetter = .idle)
    (droppedTicks droppedExecs tickSize execSize tickCapacity execCapacity : UInt64) :
    ∃ s, snapshot ticks.recording.tracker matches'.recording.tracker droppedTicks droppedExecs tickSize
        execSize tickCapacity execCapacity = .ok s ∧
      readObject s.toJson = some (s.members.map fun p => (ascii p.1, p.2)) ∧
      s.tickCount = UInt64.ofNat (samplesOf (MonitorEvent.sinceReset tr)).length ∧
      s.matchCount = UInt64.ofNat (samplesOf (MonitorEvent.sinceReset tr')).length ∧
      [s.tickP50, s.tickP99, s.tickP999, s.tickMax].IsChain (· ≤ ·) ∧
      [s.matchP50, s.matchP99, s.matchP999, s.matchMax].IsChain (· ≤ ·) ∧
      [s.droppedTicks, s.droppedExecs, s.tickQueueDepth, s.execQueueDepth, s.tickQueueCapacity,
        s.execQueueCapacity] = [droppedTicks, droppedExecs, tickSize, execSize, tickCapacity, execCapacity] := by
  have hsum := Monitored.summary_of_exec h hidle hres
  have hsum' := Monitored.summary_of_exec h' hidle' hres'
  obtain ⟨y, hy, hmono⟩ := hsum.exists_percentiles samplesOf_pos
  obtain ⟨z, hz, hmono'⟩ := hsum'.exists_percentiles samplesOf_pos
  have hsnapshot : snapshot ticks.recording.tracker matches'.recording.tracker droppedTicks droppedExecs
      tickSize execSize tickCapacity execCapacity = .ok ⟨y 50, y 99, y (999 / 10),
        ticks.recording.tracker.max, ticks.recording.tracker.count, z 50, z 99, z (999 / 10),
        matches'.recording.tracker.max, matches'.recording.tracker.count, droppedTicks, droppedExecs,
        tickSize, execSize, tickCapacity, execCapacity⟩ := by
    rw [snapshot, (hy 50 (by norm_num)).1, (hy 99 (by norm_num)).1, (hy (999 / 10) (by norm_num)).1,
      (hz 50 (by norm_num)).1, (hz 99 (by norm_num)).1, (hz (999 / 10) (by norm_num)).1]
    simp only [ok_bind, pure_eq_ok]
  refine ⟨_, hsnapshot, readObject_toJson _, hsum.count, hsum'.count, ?_, ?_, rfl⟩
  · simp only [List.isChain_cons_cons, List.isChain_singleton, and_true]
    exact ⟨hmono _ _ (by norm_num) (by norm_num), hmono _ _ (by norm_num) (by norm_num),
      (hy _ (by norm_num)).2.2⟩
  · simp only [List.isChain_cons_cons, List.isChain_singleton, and_true]
    exact ⟨hmono' _ _ (by norm_num) (by norm_num), hmono' _ _ (by norm_num) (by norm_num),
      (hz _ (by norm_num)).2.2⟩

/-- One tick of a microsecond, and no trade. -/
theorem snapshot_sent_one :
    ∃ (tr : List (MonitorEvent Unit)) (ticks : Monitored Unit),
      Exec Monitored.ExclusiveStep .new tr ticks ∧
      ∃ s, snapshot ticks.recording.tracker .new 0 0 1 0 100000 100000 = .ok s ∧
        readObject s.toJson = some (s.members.map fun p => (ascii p.1, p.2)) ∧ s.tickCount = 1 := by
  obtain ⟨tr, ticks, h, hidle, hres, hsamples⟩ := Monitored.exec_samples [1000] (by simp)
  have hnew : Exec Monitored.ExclusiveStep (.new : Monitored Unit) [] .new := .nil
  obtain ⟨s, hs, hread, hcount, -⟩ := snapshot_sent h hidle hres hnew (fun _ => rfl) rfl 0 0 1 0 100000 100000
  refine ⟨tr, ticks, h, s, hs, hread, hcount.trans ?_⟩
  rw [hsamples]
  rfl

end MetricsSnapshot

end TradingSim
