import TradingSim.Lib.BitScan
import TradingSim.Lib.Events
import TradingSim.Lib.Transition

/-!
`LatencyTracker`: a histogram that any number of threads record into without a lock.

`record` is cut at its accesses to shared memory: three `fetch_add`s, and for the maximum and the
minimum a load and the attempts of a `compare_exchange_weak` loop, which may fail for no reason. Each
thread is at some point of a call (`Recorder`), and what it still owes to a counter is its sample, as
long as it has not passed that counter's `Stage`. Whatever a loop goes through, the access that ends it
leaves the larger of the maximum and the sample (`access_spec`), so a call is five updates, and the
tracker is the fold of the updates made (`Recording.inv_of_exec`). When no call is in progress every
stage has had every sample, in some order (`Recording.record_concurrent`).
-/

namespace TradingSim

open Lib

/-- `LatencyTracker`. -/
structure LatencyTracker where
  buckets : Fin 64 → UInt64
  count : UInt64
  sumNs : Int64
  maxNs : Int64
  minNs : Int64

/-- The counters that `record` updates, in its order. -/
inductive Stage where
  | bucket
  | count
  | sum
  | max
  | min
  deriving DecidableEq

namespace Stage

def index : Stage → ℕ
  | .bucket => 0
  | .count => 1
  | .sum => 2
  | .max => 3
  | .min => 4

def next : Stage → Option Stage
  | .bucket => some .count
  | .count => some .sum
  | .sum => some .max
  | .max => some .min
  | .min => none

end Stage

/-- Where a thread is in a call of `record`: the access it makes next, with its local variables. -/
inductive Recorder where
  | idle
  | bucket (ns : Int64)
  | count (ns : Int64)
  | sum (ns : Int64)
  | loadMax (ns : Int64)
  | casMax (ns cur : Int64)
  | loadMin (ns : Int64)
  | casMin (ns cur : Int64)
  deriving DecidableEq

namespace LatencyTracker

/-! ### The code -/

/-- `bucket_of`. -/
def bucketOf (ns : UInt64) : Except Fault ℤ :=
  if ns = 0 then .ok 0
  else do
    let clz ← clzll ns.toBitVec
    let b : ℤ := 63 - clz
    pure (if b < 64 then b else 63)

/-- `LatencyTracker()`, and what `reset` leaves. -/
def new : LatencyTracker where
  buckets _ := 0
  count := 0
  sumNs := 0
  maxNs := 0
  minNs := Int64.maxValue

/-- `max`. -/
def max (t : LatencyTracker) : Int64 := t.maxNs

/-- `min`. -/
def min (t : LatencyTracker) : Int64 := if t.minNs = Int64.maxValue then 0 else t.minNs

/-- `record(ns)` up to its first access. -/
def record (ns : Int64) : Recorder :=
  if ns < 0 then .idle else .bucket (if ns = 0 then 1 else ns)

/-- `while (ns > cur && ..)` for the maximum, with `cur` as it was just read. -/
def whileMax (t : LatencyTracker) (ns cur : Int64) :
    Option (Stage × Int64) × LatencyTracker × Recorder :=
  if ns > cur then (none, t, .casMax ns cur) else (some (.max, ns), t, .loadMin ns)

/-- `while (ns < cur && ..)` for the minimum. -/
def whileMin (t : LatencyTracker) (ns cur : Int64) :
    Option (Stage × Int64) × LatencyTracker × Recorder :=
  if ns < cur then (none, t, .casMin ns cur) else (some (.min, ns), t, .idle)

/-- The next access of a call, with the stage that it completes. `spurious` is whether a
`compare_exchange_weak` fails although the value is the expected one. -/
def access (t : LatencyTracker) (spurious : Bool) :
    Recorder → Except Fault (Option (Stage × Int64) × LatencyTracker × Recorder)
  | .idle => .ok (none, t, .idle)
  | .bucket ns => do
    let b ← bucketOf ns.toUInt64
    let n ← load t.buckets b
    let buckets ← store t.buckets b (n + 1)
    pure (some (.bucket, ns), { t with buckets := buckets }, .count ns)
  | .count ns => .ok (some (.count, ns), { t with count := t.count + 1 }, .sum ns)
  | .sum ns => .ok (some (.sum, ns), { t with sumNs := t.sumNs + ns }, .loadMax ns)
  | .loadMax ns => .ok (t.whileMax ns t.maxNs)
  | .casMax ns cur =>
    if t.maxNs = cur ∧ spurious = false then
      .ok (some (.max, ns), { t with maxNs := ns }, .loadMin ns)
    else .ok (t.whileMax ns t.maxNs)
  | .loadMin ns => .ok (t.whileMin ns t.minNs)
  | .casMin ns cur =>
    if t.minNs = cur ∧ spurious = false then
      .ok (some (.min, ns), { t with minNs := ns }, .idle)
    else .ok (t.whileMin ns t.minNs)

/-! ### Updates -/

/-- The bucket of a sample. -/
def bucketIndex (ns : Int64) : ℕ := Nat.log 2 ns.toInt.toNat

/-- What a stage of a call is for. -/
def update (t : LatencyTracker) : Stage × Int64 → LatencyTracker
  | (.bucket, ns) =>
    { t with buckets := fun b => if bucketIndex ns = b then t.buckets b + 1 else t.buckets b }
  | (.count, _) => { t with count := t.count + 1 }
  | (.sum, ns) => { t with sumNs := t.sumNs + ns }
  | (.max, ns) => { t with maxNs := if t.maxNs < ns then ns else t.maxNs }
  | (.min, ns) => { t with minNs := if ns < t.minNs then ns else t.minNs }

theorem bucketOf_eq {ns : UInt64} (h : ns ≠ 0) :
    bucketOf ns = .ok (Nat.log 2 ns.toNat : ℕ) ∧ Nat.log 2 ns.toNat < 64 := by
  have hne : ns.toBitVec ≠ 0#64 := fun e => h (UInt64.toBitVec_inj.mp e)
  obtain ⟨c, hc, hle, htop, habove⟩ := clzll_spec hne
  have hlog : Nat.log 2 ns.toNat = 63 - c := log_toNat_of_highest htop habove
  rw [hlog]
  refine ⟨?_, by omega⟩
  simp only [bucketOf, if_neg h, hc, ok_bind, pure_eq_ok]
  congr 1
  split <;> omega

theorem toNat_toUInt64 {ns : Int64} (h : 0 ≤ ns) : ns.toUInt64.toNat = ns.toInt.toNat := by
  have hpos : 0 ≤ ns.toBitVec.toInt := Int64.le_iff_toInt_le.mp h
  have hlt := ns.toBitVec.isLt
  show ns.toBitVec.toNat = ns.toBitVec.toInt.toNat
  rw [BitVec.toInt_eq_toNat_cond] at hpos ⊢
  split at hpos <;> omega

theorem bucketOf_sample {ns : Int64} (h : 0 < ns) :
    bucketOf ns.toUInt64 = .ok (bucketIndex ns : ℕ) ∧ bucketIndex ns < 64 := by
  have hpos : 0 < ns.toInt := Int64.lt_iff_toInt_lt.mp h
  have hnat : ns.toUInt64.toNat = ns.toInt.toNat :=
    toNat_toUInt64 (Int64.le_iff_toInt_le.mpr hpos.le)
  have hne : ns.toUInt64 ≠ 0 := fun e => by
    rw [e] at hnat
    have : (0 : UInt64).toNat = 0 := rfl
    omega
  rw [bucketIndex, ← hnat]
  exact bucketOf_eq hne

end LatencyTracker

namespace Recorder

/-- The sample of the call and the stage it has come to. -/
def pending : Recorder → Option (Stage × Int64)
  | .idle => none
  | .bucket ns => some (.bucket, ns)
  | .count ns => some (.count, ns)
  | .sum ns => some (.sum, ns)
  | .loadMax ns => some (.max, ns)
  | .casMax ns _ => some (.max, ns)
  | .loadMin ns => some (.min, ns)
  | .casMin ns _ => some (.min, ns)

/-- The samples of a call are positive, and an attempt is only made to improve on what was read. -/
def WF : Recorder → Prop
  | .idle => True
  | .bucket ns => 0 < ns
  | .count ns => 0 < ns
  | .sum ns => 0 < ns
  | .loadMax ns => 0 < ns
  | .casMax ns cur => 0 < ns ∧ cur < ns
  | .loadMin ns => 0 < ns
  | .casMin ns cur => 0 < ns ∧ ns < cur

end Recorder

/-! ### The two loops -/

/-- The counters that are updated by a `compare_exchange_weak` loop. -/
inductive Extreme where
  | max
  | min

namespace Extreme

variable (x : Extreme) (t : LatencyTracker) (spurious : Bool) (ns cur : Int64)

def stage : Extreme → Stage
  | .max => .max
  | .min => .min

def value (t : LatencyTracker) : Extreme → Int64
  | .max => t.maxNs
  | .min => t.minNs

/-- The condition of the loop: the sample is better than what was read. -/
def Improves (ns cur : Int64) : Extreme → Prop
  | .max => cur < ns
  | .min => ns < cur

instance : Decidable (x.Improves ns cur) :=
  match x with
  | .max => inferInstanceAs (Decidable (cur < ns))
  | .min => inferInstanceAs (Decidable (ns < cur))

/-- The points of a call: before the load, before an attempt, and behind the loop. -/
def loadAt (ns : Int64) : Extreme → Recorder
  | .max => .loadMax ns
  | .min => .loadMin ns

def casAt (ns cur : Int64) : Extreme → Recorder
  | .max => .casMax ns cur
  | .min => .casMin ns cur

def rest (ns : Int64) : Extreme → Recorder
  | .max => .loadMin ns
  | .min => .idle

def set (t : LatencyTracker) (ns : Int64) : Extreme → LatencyTracker
  | .max => { t with maxNs := ns }
  | .min => { t with minNs := ns }

def loop (t : LatencyTracker) (ns cur : Int64) :
    Extreme → Option (Stage × Int64) × LatencyTracker × Recorder
  | .max => t.whileMax ns cur
  | .min => t.whileMin ns cur

theorem loop_eq : x.loop t ns cur =
    if x.Improves ns cur then (none, t, x.casAt ns cur) else (some (x.stage, ns), t, x.rest ns) := by
  cases x <;> rfl

theorem access_load : t.access spurious (x.loadAt ns) = .ok (x.loop t ns (x.value t)) := by
  cases x <;> rfl

theorem access_cas : t.access spurious (x.casAt ns cur) =
    if x.value t = cur ∧ spurious = false then .ok (some (x.stage, ns), x.set t ns, x.rest ns)
    else .ok (x.loop t ns (x.value t)) := by
  cases x <;> rfl

theorem update_eq : t.update (x.stage, ns) =
    if x.Improves ns (x.value t) then x.set t ns else t := by
  cases x with
  | max =>
    show (⟨_, _, _, if t.maxNs < ns then ns else t.maxNs, _⟩ : LatencyTracker) =
      if t.maxNs < ns then { t with maxNs := ns } else t
    split <;> rfl
  | min =>
    show (⟨_, _, _, _, if ns < t.minNs then ns else t.minNs⟩ : LatencyTracker) =
      if ns < t.minNs then { t with minNs := ns } else t
    split <;> rfl

theorem pending_load : (x.loadAt ns).pending = some (x.stage, ns) := by cases x <;> rfl

theorem pending_cas : (x.casAt ns cur).pending = some (x.stage, ns) := by cases x <;> rfl

theorem pending_rest : (x.rest ns).pending = x.stage.next.map (·, ns) := by cases x <;> rfl

theorem wf_cas : (x.casAt ns cur).WF ↔ 0 < ns ∧ x.Improves ns cur := by cases x <;> rfl

theorem wf_rest {ns : Int64} (h : 0 < ns) : (x.rest ns).WF := by
  cases x with
  | max => exact h
  | min => trivial

end Extreme

namespace LatencyTracker

/-- What an access amounts to: nothing yet, or the update of the stage that the call has come to. -/
inductive Access (t : LatencyTracker) (r : Recorder) :
    Option (Stage × Int64) → LatencyTracker → Recorder → Prop
  | wait {r' : Recorder} : r'.pending = r.pending → Access t r none t r'
  | done {st : Stage} {ns : Int64} {r' : Recorder} : r.pending = some (st, ns) →
      r'.pending = st.next.map (·, ns) → Access t r (some (st, ns)) (t.update (st, ns)) r'

section Access

variable {t : LatencyTracker} {r : Recorder} {ns : Int64}

/-- Both loops end with the update of their stage, or come to an attempt that would improve on what
was read. -/
theorem extreme_loop_spec (x : Extreme) (hns : 0 < ns) (hr : r.pending = some (x.stage, ns)) :
    (x.loop t ns (x.value t)).2.2.WF ∧
      t.Access r (x.loop t ns (x.value t)).1 (x.loop t ns (x.value t)).2.1
        (x.loop t ns (x.value t)).2.2 := by
  rw [x.loop_eq]
  split
  · rename_i himp
    exact ⟨(x.wf_cas ns _).mpr ⟨hns, himp⟩, .wait ((x.pending_cas ns _).trans hr.symm)⟩
  · rename_i hnot
    refine ⟨x.wf_rest hns, ?_⟩
    have hsame : t.update (x.stage, ns) = t := by rw [x.update_eq, if_neg hnot]
    have hdone : t.Access r (some (x.stage, ns)) (t.update (x.stage, ns)) (x.rest ns) :=
      .done hr (x.pending_rest ns)
    rwa [hsame] at hdone

theorem extreme_load_spec (x : Extreme) (spurious : Bool) (hns : 0 < ns) :
    ∃ out t' r', t.access spurious (x.loadAt ns) = .ok (out, t', r') ∧ r'.WF ∧
      t.Access (x.loadAt ns) out t' r' :=
  ⟨_, _, _, x.access_load t spurious ns, extreme_loop_spec x hns (x.pending_load ns)⟩

theorem extreme_cas_spec (x : Extreme) (spurious : Bool) {cur : Int64}
    (hr : (x.casAt ns cur).WF) :
    ∃ out t' r', t.access spurious (x.casAt ns cur) = .ok (out, t', r') ∧ r'.WF ∧
      t.Access (x.casAt ns cur) out t' r' := by
  obtain ⟨hns, himp⟩ := (x.wf_cas ns cur).mp hr
  by_cases hcas : x.value t = cur ∧ spurious = false
  · refine ⟨some (x.stage, ns), t.update (x.stage, ns), x.rest ns, ?_, x.wf_rest hns,
      .done (x.pending_cas ns cur) (x.pending_rest ns)⟩
    -- the value is the one that was read, and the sample improves on it
    have himp' : x.Improves ns (x.value t) := hcas.1 ▸ himp
    rw [x.access_cas, if_pos hcas, x.update_eq, if_pos himp']
  · obtain ⟨hwf, hacc⟩ := extreme_loop_spec (t := t) x hns (x.pending_cas ns cur)
    exact ⟨_, _, _, (x.access_cas t spurious ns cur).trans (if_neg hcas), hwf, hacc⟩

theorem access_bucket (t : LatencyTracker) (spurious : Bool) (hns : 0 < ns) :
    t.access spurious (.bucket ns) = .ok (some (.bucket, ns), t.update (.bucket, ns), .count ns) := by
  obtain ⟨hb, hlt⟩ := bucketOf_sample hns
  have hk : ((bucketIndex ns : ℕ) : ℤ) = ((⟨bucketIndex ns, hlt⟩ : Fin 64) : ℕ) := rfl
  have hupd : Function.update t.buckets ⟨bucketIndex ns, hlt⟩ (t.buckets ⟨bucketIndex ns, hlt⟩ + 1) =
      fun b : Fin 64 => if bucketIndex ns = b then t.buckets b + 1 else t.buckets b := by
    funext b
    by_cases hb : bucketIndex ns = b
    · obtain rfl : ⟨bucketIndex ns, hlt⟩ = b := Fin.ext hb
      rw [Function.update_self, if_pos hb]
    · rw [Function.update_of_ne (fun e => hb (congrArg Fin.val e).symm), if_neg hb]
  simp only [access, hb, load_eq t.buckets hk, store_eq t.buckets _ hk, ok_bind, pure_eq_ok, hupd,
    update]

/-- **One access** never faults, and is nothing or the update of its stage. -/
theorem access_spec (t : LatencyTracker) (spurious : Bool) {r : Recorder} (hr : r.WF) :
    ∃ out t' r', t.access spurious r = .ok (out, t', r') ∧ r'.WF ∧ t.Access r out t' r' := by
  cases r with
  | idle => exact ⟨none, t, .idle, rfl, trivial, .wait rfl⟩
  | bucket ns => exact ⟨_, _, _, access_bucket t spurious hr, hr, .done rfl rfl⟩
  | count ns => exact ⟨_, _, _, rfl, hr, .done rfl rfl⟩
  | sum ns => exact ⟨_, _, _, rfl, hr, .done rfl rfl⟩
  | loadMax ns => exact extreme_load_spec .max spurious hr
  | casMax ns cur => exact extreme_cas_spec .max spurious hr
  | loadMin ns => exact extreme_load_spec .min spurious hr
  | casMin ns cur => exact extreme_cas_spec .min spurious hr

end Access

/-! ### What a fold of updates comes to -/

/-- The samples that a stage had, in the order of the updates. -/
def samplesAt (st : Stage) (us : List (Stage × Int64)) : List Int64 :=
  us.filterMap fun e => if e.1 = st then some e.2 else none

/-- The tracker is what the samples come to: the counters modulo `2 ^ 64`, and the extremes. -/
structure Summary (t : LatencyTracker) (samples : List Int64) : Prop where
  count : t.count = UInt64.ofNat samples.length
  bucket : ∀ b : Fin 64, t.buckets b = UInt64.ofNat (samples.countP fun ns => bucketIndex ns = b)
  sum : t.sumNs = Int64.ofInt (samples.map Int64.toInt).sum
  max : (samples = [] ∧ t.maxNs = 0) ∨ (t.maxNs ∈ samples ∧ ∀ ns ∈ samples, ns ≤ t.maxNs)
  min : (samples = [] ∧ t.minNs = Int64.maxValue) ∨
    (t.minNs ∈ samples ∧ ∀ ns ∈ samples, t.minNs ≤ ns)

section Summary

variable {us : List (Stage × Int64)} {samples : List Int64}

theorem foldl_countP (P : Int64 → Prop) [DecidablePred P] (l : List Int64) :
    l.foldl (fun c ns => if P ns then c + 1 else c) (0 : UInt64) = UInt64.ofNat (l.countP P) := by
  induction l using List.reverseRecOn with
  | nil => rfl
  | append_singleton l ns ih =>
    rw [List.foldl_append, List.foldl_cons, List.foldl_nil, ih, List.countP_append]
    by_cases h : P ns
    · simp [h, UInt64.ofNat_add]
    · simp [h]

theorem foldl_sum (l : List Int64) :
    l.foldl (fun c ns => c + ns) (0 : Int64) = Int64.ofInt (l.map Int64.toInt).sum := by
  induction l using List.reverseRecOn with
  | nil => rfl
  | append_singleton l ns ih =>
    rw [List.foldl_append, List.foldl_cons, List.foldl_nil, ih, List.map_append, List.sum_append,
      Int64.ofInt_add]
    simp

theorem foldl_update {β : Type} {g : LatencyTracker → β} {u : β → Int64 → β} (st : Stage)
    (h : ∀ t st' ns, g (t.update (st', ns)) = if st' = st then u (g t) ns else g t)
    (us : List (Stage × Int64)) : g (us.foldl update new) = (samplesAt st us).foldl u (g new) := by
  refine foldl_proj (fun t e => ?_) us new
  rw [h t e.1 e.2]
  by_cases he : e.1 = st <;> simp [he]

/-- **The order does not matter**: updates that gave every stage the same samples, each in some order,
come to the summary of the samples. -/
theorem summary_of_perm (hpos : ∀ ns ∈ samples, 0 < ns)
    (h : ∀ st, (samplesAt st us).Perm samples) : (us.foldl update new).Summary samples := by
  refine ⟨?_, fun b => ?_, ?_, ?_, ?_⟩
  · rw [foldl_update (g := LatencyTracker.count) (u := fun c _ => if True then c + 1 else c) .count
      (fun t st ns => by cases st <;> rfl) us]
    refine (foldl_countP (fun _ => True) _).trans ?_
    rw [(h .count).countP_eq]
    simp
  · rw [foldl_update (g := fun t => t.buckets b)
      (u := fun c ns => if bucketIndex ns = b then c + 1 else c) .bucket
      (fun t st ns => by cases st <;> rfl) us]
    refine (foldl_countP (fun ns => bucketIndex ns = b) _).trans ?_
    rw [(h .bucket).countP_eq]
  · rw [foldl_update (g := LatencyTracker.sumNs) (u := fun c ns => c + ns) .sum
      (fun t st ns => by cases st <;> rfl) us]
    refine (foldl_sum _).trans ?_
    rw [((h .sum).map _).sum_eq]
  · rw [foldl_update (g := LatencyTracker.maxNs) (u := fun m ns => if m < ns then ns else m) .max
      (fun t st ns => by cases st <;> rfl) us]
    obtain ⟨m, hm, hbest⟩ := foldl_best_mem (r := fun a b : Int64 => a < b) (k := Int64.toInt)
      (fun _ _ => Int64.lt_iff_toInt_lt) (fun _ _ => Int64.toInt_inj.mp) (a := new.maxNs)
      fun ns hns => (Int64.lt_iff_toInt_lt.mp (hpos ns ((h .max).mem_iff.mp hns))).le
    rw [hm]
    refine hbest.imp (fun hnil => ⟨(hnil.1 ▸ h .max).symm.eq_nil, hnil.2⟩) fun hmem =>
      ⟨(h .max).mem_iff.mp hmem.1, fun ns hns => ?_⟩
    exact Int64.le_iff_toInt_le.mpr (hmem.2 ns ((h .max).mem_iff.mpr hns))
  · rw [foldl_update (g := LatencyTracker.minNs) (u := fun m ns => if ns < m then ns else m) .min
      (fun t st ns => by cases st <;> rfl) us]
    obtain ⟨m, hm, hbest⟩ := foldl_best_mem (r := fun a b : Int64 => b < a) (k := fun ns => -ns.toInt)
      (fun a b => by rw [Int64.lt_iff_toInt_lt]; omega)
      (fun a b e => Int64.toInt_inj.mp (neg_injective e)) (a := new.minNs)
      fun ns _ => neg_le_neg (Int64.toInt_le ns)
    rw [hm]
    refine hbest.imp (fun hnil => ⟨(hnil.1 ▸ h .min).symm.eq_nil, hnil.2⟩) fun hmem =>
      ⟨(h .min).mem_iff.mp hmem.1, fun ns hns => ?_⟩
    exact Int64.le_iff_toInt_le.mpr (neg_le_neg_iff.mp (hmem.2 ns ((h .min).mem_iff.mpr hns)))

end Summary

end LatencyTracker

/-! ### Threads -/

open LatencyTracker

variable {ι : Type}

/-- A tracker and the threads that record into it. -/
structure Recording (ι : Type) where
  tracker : LatencyTracker
  threads : ι → Recorder

/-- A call of `record`, or an access of one with the stage that it completes. -/
inductive RecordEvent (ι : Type) where
  | call (i : ι) (ns : Int64)
  | access (i : ι) (out : Option (Stage × Int64))

namespace RecordEvent

def thread : RecordEvent ι → ι
  | .call i _ => i
  | .access i _ => i

/-- The sample that a call brings, none if it is negative, with its thread. -/
def sample? : RecordEvent ι → Option (ι × Int64)
  | .call i ns => if ns < 0 then none else some (i, if ns = 0 then 1 else ns)
  | .access _ _ => none

def update? : RecordEvent ι → Option (Stage × Int64)
  | .call _ _ => none
  | .access _ out => out

/-- The sample that an access brings to the stage, with its thread. -/
def done? (st : Stage) : RecordEvent ι → Option (ι × Int64)
  | .call _ _ => none
  | .access i out => out.bind fun e => if e.1 = st then some (i, e.2) else none

variable {e : RecordEvent ι} {p : ι × Int64}

theorem thread_of_sample (h : e.sample? = some p) : p.1 = e.thread := by
  cases e with
  | call i ns =>
    by_cases hneg : ns < 0
    · simp [sample?, hneg] at h
    · simp only [sample?, if_neg hneg, Option.some.injEq] at h
      rw [← h]
      rfl
  | access i out => cases h

theorem thread_of_done {st : Stage} (h : e.done? st = some p) : p.1 = e.thread := by
  cases e with
  | call i ns => cases h
  | access i out =>
    obtain ⟨u, -, hu⟩ := Option.bind_eq_some_iff.mp h
    split at hu
    · cases hu
      rfl
    · cases hu

end RecordEvent

/-- The samples of the calls, a zero counted as one. -/
def samplesOf (tr : List (RecordEvent ι)) : List Int64 :=
  (tr.filterMap RecordEvent.sample?).map Prod.snd

namespace Recording

open RecordEvent

variable [DecidableEq ι]

/-- A new tracker, and no call in progress. -/
def new : Recording ι where
  tracker := LatencyTracker.new
  threads _ := .idle

/-- A thread between calls calls `record` with any argument, or one makes its next access. -/
inductive Step : Recording ι → RecordEvent ι → Recording ι → Prop
  | call (s : Recording ι) (i : ι) (ns : Int64) : s.threads i = .idle →
      Step s (.call i ns) { s with threads := Function.update s.threads i (record ns) }
  | access (s : Recording ι) (i : ι) (spurious : Bool) {out : Option (Stage × Int64)}
      {t : LatencyTracker} {r : Recorder} : s.tracker.access spurious (s.threads i) = .ok (out, t, r) →
      Step s (.access i out) ⟨t, Function.update s.threads i r⟩

end Recording

theorem sample_pos {ns : Int64} (h : ¬ ns < 0) : 0 < if ns = 0 then 1 else ns := by
  split
  · decide
  · rename_i hne
    have hne' : ns.toInt ≠ 0 := fun e => hne (Int64.toInt_inj.mp e)
    rw [Int64.lt_iff_toInt_lt, Int64.toInt_zero] at h ⊢
    omega

theorem samplesOf_pos {tr : List (RecordEvent ι)} : ∀ ns ∈ samplesOf tr, 0 < ns := by
  intro ns hns
  obtain ⟨⟨i, _⟩, hp, rfl⟩ := List.mem_map.mp hns
  obtain ⟨e, -, he⟩ := List.mem_filterMap.mp hp
  cases e with
  | call j ns =>
    by_cases hneg : ns < 0
    · simp [RecordEvent.sample?, hneg] at he
    · simp only [RecordEvent.sample?, if_neg hneg, Option.some.injEq, Prod.mk.injEq] at he
      rw [← he.2]
      exact sample_pos hneg
  | access j out => cases he

namespace Recorder

variable {r r' : Recorder} {st st' : Stage} {ns : Int64}

/-- The sample that the call still owes to the stage. -/
def owed (st : Stage) (r : Recorder) : List Int64 :=
  match r.pending with
  | some (st', ns) => if st'.index ≤ st.index then [ns] else []
  | none => []

theorem owed_idle : owed st .idle = [] := rfl

theorem owed_done (h : r.pending = some (st', ns)) (h' : r'.pending = st'.next.map (·, ns)) :
    r.owed st = (if st' = st then [ns] else []) ++ r'.owed st := by
  unfold owed
  rw [h, h']
  cases st' <;> cases st <;> rfl

theorem record_wf (ns : Int64) : (record ns).WF := by
  by_cases hneg : ns < 0
  · simp only [record, if_pos hneg, WF]
  · simp only [record, if_neg hneg]
    exact sample_pos hneg

theorem owed_record (i : ι) (ns : Int64) : ((record ns).owed st).map (i, ·) =
    (RecordEvent.sample? (.call i ns)).toList := by
  by_cases hneg : ns < 0
  · simp only [record, RecordEvent.sample?, if_pos hneg]
    rfl
  · simp only [record, RecordEvent.sample?, if_neg hneg]
    cases st <;> rfl

end Recorder

namespace Recording

open RecordEvent

variable [DecidableEq ι]

/-- What holds in every execution: every stage has had the samples of a thread, in their order, but
for the one that the thread still owes it. -/
structure Inv (tr : List (RecordEvent ι)) (s : Recording ι) : Prop where
  wf : ∀ i, (s.threads i).WF
  tracker : s.tracker = (tr.filterMap update?).foldl LatencyTracker.update LatencyTracker.new
  owed : ∀ i st, (tr.filterMap sample?).filter (fun p => p.1 = i) =
    (tr.filterMap (done? st)).filter (fun p => p.1 = i) ++ ((s.threads i).owed st).map (i, ·)

theorem inv_new : Inv [] (new : Recording ι) := ⟨fun _ => trivial, rfl, fun _ _ => rfl⟩

section Step

variable {tr : List (RecordEvent ι)} {s s' : Recording ι} {e : RecordEvent ι}

theorem filter_own {f : RecordEvent ι → Option (ι × Int64)} (hf : ∀ p, f e = some p → p.1 = e.thread)
    (tr : List (RecordEvent ι)) : ((tr ++ [e]).filterMap f).filter (fun p => p.1 = e.thread) =
      (tr.filterMap f).filter (fun p => p.1 = e.thread) ++ (f e).toList := by
  rw [List.filterMap_append, List.filter_append]
  cases hfe : f e with
  | none => simp [hfe]
  | some p => simp [hfe, hf p hfe]

theorem filter_other {f : RecordEvent ι → Option (ι × Int64)} {j : ι}
    (hf : ∀ p, f e = some p → p.1 = e.thread) (hj : j ≠ e.thread) (tr : List (RecordEvent ι)) :
    ((tr ++ [e]).filterMap f).filter (fun p => p.1 = j) =
      (tr.filterMap f).filter fun p => p.1 = j := by
  rw [List.filterMap_append, List.filter_append]
  cases hfe : f e with
  | none => simp [hfe]
  | some p => simp [hfe, hf p hfe, hj.symm]

/-- What a step of a thread has to show: the rest is as before. -/
theorem Inv.extend (h : Inv tr s) {t : LatencyTracker} {r : Recorder} (hr : r.WF)
    (ht : t = ((tr ++ [e]).filterMap update?).foldl LatencyTracker.update LatencyTracker.new)
    (howed : ∀ st, ((s.threads e.thread).owed st).map (e.thread, ·) ++ e.sample?.toList =
      (e.done? st).toList ++ (r.owed st).map (e.thread, ·)) :
    Inv (tr ++ [e]) ⟨t, Function.update s.threads e.thread r⟩ := by
  refine ⟨fun j => ?_, ht, fun j st => ?_⟩
  · by_cases hj : j = e.thread
    · simpa only [hj, Function.update_self] using hr
    · simpa only [Function.update_of_ne hj] using h.wf j
  · show _ = _ ++ ((Function.update s.threads e.thread r j).owed st).map (j, ·)
    by_cases hj : j = e.thread
    · rw [hj, filter_own (fun _ => thread_of_sample), filter_own (fun _ => thread_of_done),
        h.owed _ st, Function.update_self, List.append_assoc, howed st, List.append_assoc]
    · rw [filter_other (fun _ => thread_of_sample) hj, filter_other (fun _ => thread_of_done) hj,
        h.owed j st, Function.update_of_ne hj]

theorem Inv.call (h : Inv tr s) {i : ι} (ns : Int64) (hidle : s.threads i = .idle) :
    Inv (tr ++ [.call i ns]) ⟨s.tracker, Function.update s.threads i (record ns)⟩ := by
  refine h.extend (Recorder.record_wf ns) ?_ fun st => ?_
  · rw [List.filterMap_append, List.foldl_append, ← h.tracker]
    rfl
  · show ((s.threads i).owed st).map (i, ·) ++ _ = _ ++ ((record ns).owed st).map (i, ·)
    rw [hidle, Recorder.owed_record]
    rfl

theorem Inv.access (h : Inv tr s) {i : ι} {spurious : Bool} {out : Option (Stage × Int64)}
    {t : LatencyTracker} {r : Recorder}
    (hacc : s.tracker.access spurious (s.threads i) = .ok (out, t, r)) :
    Inv (tr ++ [.access i out]) ⟨t, Function.update s.threads i r⟩ := by
  obtain ⟨out', t', r', heq, hwf, hspec⟩ := s.tracker.access_spec spurious (h.wf i)
  obtain ⟨rfl, rfl, rfl⟩ : out = out' ∧ t = t' ∧ r = r' := by simpa using hacc.symm.trans heq
  refine h.extend hwf ?_ fun st => ?_
  · rw [List.filterMap_append, List.foldl_append, ← h.tracker]
    cases hspec <;> rfl
  · show ((s.threads i).owed st).map (i, ·) ++ [] = _ ++ (r.owed st).map (i, ·)
    cases hspec with
    | wait hpend =>
      simp only [Recorder.owed, hpend, List.append_nil]
      rfl
    | done hpend hnext =>
      rw [Recorder.owed_done hpend hnext, List.append_nil, List.map_append]
      congr 1
      simp only [done?, Option.bind_some]
      split <;> rfl

theorem Inv.step (h : Inv tr s) (hstep : Step s e s') : Inv (tr ++ [e]) s' := by
  cases hstep with
  | call i ns hidle => exact h.call ns hidle
  | access i spurious hacc => exact h.access hacc

/-- **Every execution** keeps the account. -/
theorem inv_of_exec (h : Exec Step new tr s) : Inv tr s :=
  h.rule inv_new fun _ _ _ _ hI hstep => hI.step hstep

theorem Inv.samplesAt_perm (h : Inv tr s) (hidle : ∀ i, s.threads i = .idle) (st : Stage) :
    (samplesAt st (tr.filterMap update?)).Perm (samplesOf tr) := by
  have hdone : samplesAt st (tr.filterMap update?) = (tr.filterMap (done? st)).map Prod.snd := by
    rw [samplesAt, List.filterMap_filterMap, List.map_filterMap]
    congr 1
    funext e
    cases e with
    | call i ns => rfl
    | access i out =>
      cases out with
      | none => rfl
      | some u =>
        simp only [update?, done?, Option.bind_some]
        split <;> rfl
  rw [hdone, samplesOf]
  refine (perm_of_filter_eq (f := Prod.fst) fun i => ?_).map _
  have howed := h.owed i st
  rw [hidle i, Recorder.owed_idle, List.map_nil, List.append_nil] at howed
  exact howed.symm

theorem summary_of_exec (h : Exec Step new tr s) (hidle : ∀ i, s.threads i = .idle) :
    s.tracker.Summary (samplesOf tr) := by
  have hinv := inv_of_exec h
  rw [hinv.tracker]
  exact summary_of_perm samplesOf_pos fun st => hinv.samplesAt_perm hidle st

end Step

/-- **Concurrent recording.** Whatever the interleaving and however often an attempt fails, when no
call is in progress the tracker is the summary of the samples: the counters modulo `2 ^ 64`, the
maximum, and the minimum, which reads as zero if there is no sample but `INT64_MAX`. -/
theorem record_concurrent (tr : List (RecordEvent ι)) (s : Recording ι) (h : Exec Step new tr s)
    (hidle : ∀ i, s.threads i = .idle) :
    s.tracker.count.toNat = (samplesOf tr).length % 2 ^ 64 ∧
      (∀ b : Fin 64, (s.tracker.buckets b).toNat =
        ((samplesOf tr).countP fun ns => Nat.log 2 ns.toInt.toNat = b) % 2 ^ 64) ∧
      s.tracker.sumNs.toInt ≡ ((samplesOf tr).map Int64.toInt).sum [ZMOD 2 ^ 64] ∧
      (samplesOf tr = [] → s.tracker.max = 0) ∧
      (samplesOf tr ≠ [] → s.tracker.max ∈ samplesOf tr ∧ ∀ ns ∈ samplesOf tr, ns ≤ s.tracker.max) ∧
      ((∀ ns ∈ samplesOf tr, ns = Int64.maxValue) → s.tracker.min = 0) ∧
      ((∃ ns ∈ samplesOf tr, ns ≠ Int64.maxValue) →
        s.tracker.min ∈ samplesOf tr ∧ ∀ ns ∈ samplesOf tr, s.tracker.min ≤ ns) := by
  have hsum := summary_of_exec h hidle
  refine ⟨?_, fun b => ?_, ?_, fun hnil => ?_, fun hne => ?_, fun hall => ?_, ?_⟩
  · rw [hsum.count, UInt64.toNat_ofNat']
  · rw [hsum.bucket b, UInt64.toNat_ofNat']
    rfl
  · rw [hsum.sum, Int64.toInt_ofInt]
    exact Int.bmod_emod
  · exact (hsum.max.resolve_right fun hmem => by simp [hnil] at hmem).2
  · exact hsum.max.resolve_left fun hnil => hne hnil.1
  · have hmin : s.tracker.minNs = Int64.maxValue := by
      rcases hsum.min with ⟨-, hmin⟩ | ⟨hmem, -⟩
      · exact hmin
      · exact hall _ hmem
    rw [LatencyTracker.min, if_pos hmin]
  · rintro ⟨ns, hns, hne⟩
    obtain ⟨hmem, hle⟩ := hsum.min.resolve_left fun hnil => by simp [hnil.1] at hns
    -- a minimum of `INT64_MAX` would leave no smaller sample
    have hmin : s.tracker.minNs ≠ Int64.maxValue := fun e => hne <|
      Int64.toInt_inj.mp (le_antisymm (Int64.toInt_le ns)
        (Int64.le_iff_toInt_le.mp (e ▸ hle ns hns)))
    rw [LatencyTracker.min, if_neg hmin]
    exact ⟨hmem, hle⟩

/-! ### A call that runs alone -/

/-- The thread `i` is now at `r`, and the tracker is `t`. -/
def move (s : Recording ι) (i : ι) (t : LatencyTracker) (r : Recorder) : Recording ι :=
  ⟨t, Function.update s.threads i r⟩

section Alone

variable {s : Recording ι} {i : ι} {t t' : LatencyTracker} {r r' : Recorder} {ns : Int64}
  {out : Option (Stage × Int64)}

theorem step_move (h : t.access false r = .ok (out, t', r')) :
    Step (s.move i t r) (.access i out) (s.move i t' r') := by
  have hacc : (s.move i t r).tracker.access false ((s.move i t r).threads i) = .ok (out, t', r') := by
    simpa [move] using h
  simpa [move] using Step.access (s.move i t r) i false hacc

theorem exec_extreme (x : Extreme) (s : Recording ι) (i : ι) (t : LatencyTracker) (ns : Int64) :
    ∃ tr, Exec Step (s.move i t (x.loadAt ns)) tr
        (s.move i (t.update (x.stage, ns)) (x.rest ns)) ∧ tr.filterMap sample? = [] := by
  have hload := x.access_load t false ns
  rw [x.loop_eq] at hload
  rw [x.update_eq]
  split at hload
  · rename_i himp
    have hcas := x.access_cas t false ns (x.value t)
    rw [if_pos ⟨rfl, rfl⟩] at hcas
    rw [if_pos himp]
    exact ⟨_, (Exec.nil.snoc (step_move hload)).snoc (step_move hcas), rfl⟩
  · rename_i hnot
    rw [if_neg hnot]
    exact ⟨_, Exec.nil.snoc (step_move hload), rfl⟩

theorem exec_rest (s : Recording ι) (i : ι) (t : LatencyTracker) (ns : Int64) :
    ∃ tr, Exec Step (s.move i t (.count ns)) tr
        (s.move i ([(.count, ns), (.sum, ns), (.max, ns), (.min, ns)].foldl LatencyTracker.update t)
          .idle) ∧
      tr.filterMap sample? = [] := by
  obtain ⟨tr₁, hmax, hsilent₁⟩ := exec_extreme .max s i ((t.update (.count, ns)).update (.sum, ns)) ns
  obtain ⟨tr₂, hmin, hsilent₂⟩ :=
    exec_extreme .min s i (((t.update (.count, ns)).update (.sum, ns)).update (.max, ns)) ns
  refine ⟨_, (((Exec.nil.snoc (step_move rfl)).snoc (step_move rfl)).trans hmax).trans hmin, ?_⟩
  rw [List.filterMap_append, List.filterMap_append, hsilent₁, hsilent₂]
  rfl

/-- The updates of one call, in their order. -/
def updatesOf (ns : Int64) : List (Stage × Int64) :=
  [(.bucket, ns), (.count, ns), (.sum, ns), (.max, ns), (.min, ns)]

/-- **A call that runs alone** returns, with the five updates of its sample made. -/
theorem exec_record (s : Recording ι) {i : ι} (hidle : s.threads i = .idle) (ns : Int64)
    (hpos : 0 < ns) :
    ∃ tr, Exec Step s tr ⟨(updatesOf ns).foldl LatencyTracker.update s.tracker, s.threads⟩ ∧
      samplesOf tr = [ns] := by
  have hnat : 0 < ns.toInt := Int64.lt_iff_toInt_lt.mp hpos
  have hneg : ¬ ns < 0 := fun h => by
    have := Int64.lt_iff_toInt_lt.mp h
    rw [Int64.toInt_zero] at this
    omega
  have hne : ns ≠ 0 := fun e => by
    rw [e] at hnat
    exact absurd hnat (by decide)
  have hrecord : record ns = .bucket ns := by simp only [record, if_neg hneg, if_neg hne]
  have hcall : Step s (.call i ns) (s.move i s.tracker (.bucket ns)) := hrecord ▸ Step.call s i ns hidle
  obtain ⟨tr, hrest, hsilent⟩ := exec_rest s i (s.tracker.update (.bucket, ns)) ns
  have hrun := ((Exec.nil.snoc hcall).snoc (step_move (access_bucket _ false hpos))).trans hrest
  have hend : ∀ t, s.move i t .idle = ⟨t, s.threads⟩ := fun t => by
    rw [move, ← hidle, Function.update_eq_self]
  rw [hend] at hrun
  refine ⟨_, hrun, ?_⟩
  rw [samplesOf, List.filterMap_append, hsilent]
  simp [sample?, hneg, hne]

theorem exec_records (samples : List Int64) (hpos : ∀ ns ∈ samples, 0 < ns) (s : Recording ι) {i : ι}
    (hidle : s.threads i = .idle) :
    ∃ tr t, Exec Step s tr ⟨t, s.threads⟩ ∧ samplesOf tr = samples := by
  induction samples generalizing s with
  | nil => exact ⟨[], s.tracker, Exec.nil, rfl⟩
  | cons ns samples ih =>
    obtain ⟨hns, hrest⟩ := List.forall_mem_cons.mp hpos
    obtain ⟨tr₁, hfirst, hsample⟩ := exec_record s hidle ns hns
    obtain ⟨tr₂, t, hexec, hsamples⟩ :=
      ih hrest ⟨(updatesOf ns).foldl LatencyTracker.update s.tracker, s.threads⟩ hidle
    refine ⟨tr₁ ++ tr₂, t, hfirst.trans hexec, ?_⟩
    rw [samplesOf] at hsample hsamples ⊢
    rw [List.filterMap_append, List.map_append, hsample, hsamples]
    rfl

end Alone

/-- Two threads that record 5 and 9. The second has read the maximum 0 when the first writes 5: its
attempt fails, and it writes 9 at the next. -/
theorem record_concurrent_two :
    ∃ (tr₁ tr₂ : List (RecordEvent Bool)) (s₁ s : Recording Bool), Exec Step new tr₁ s₁ ∧
      s₁.threads true = .casMax 9 0 ∧ s₁.tracker.maxNs = 5 ∧ Exec Step s₁ tr₂ s ∧
      (∀ i, s.threads i = .idle) ∧ samplesOf (tr₁ ++ tr₂) = [5, 9] ∧
      s.tracker.count.toNat = 2 ∧ s.tracker.max ∈ samplesOf (tr₁ ++ tr₂) ∧
      s.tracker.min ∈ samplesOf (tr₁ ++ tr₂) := by
  have hrun : ∃ (tr₁ tr₂ : List (RecordEvent Bool)) (s₁ s : Recording Bool), Exec Step new tr₁ s₁ ∧
      s₁.threads true = .casMax 9 0 ∧ s₁.tracker.maxNs = 5 ∧ Exec Step s₁ tr₂ s ∧
      (∀ i, s.threads i = .idle) ∧ samplesOf (tr₁ ++ tr₂) = [5, 9] :=
    ⟨_, _, _, _,
      Exec.nil |>.snoc (.call _ false 5 rfl) |>.snoc (.call _ true 9 rfl)
        |>.snoc (.access _ false false (access_bucket _ false (by decide)))
        |>.snoc (.access _ true false (access_bucket _ false (by decide)))
        |>.snoc (.access _ false false rfl) |>.snoc (.access _ true false rfl)
        |>.snoc (.access _ false false rfl) |>.snoc (.access _ true false rfl)
        |>.snoc (.access _ false false rfl) |>.snoc (.access _ true false rfl)
        |>.snoc (.access _ false false rfl),
      rfl, rfl,
      Exec.nil |>.snoc (.access _ true false rfl) |>.snoc (.access _ true false rfl)
        |>.snoc (.access _ false false rfl) |>.snoc (.access _ true false rfl)
        |>.snoc (.access _ false false rfl) |>.snoc (.access _ true false rfl),
      by decide, by decide⟩
  obtain ⟨tr₁, tr₂, s₁, s, hfirst, hcas, hmax5, hsecond, hidle, hsamples⟩ := hrun
  obtain ⟨hcount, -, -, -, hmax, -, hmin⟩ :=
    record_concurrent (tr₁ ++ tr₂) s (hfirst.trans hsecond) hidle
  refine ⟨tr₁, tr₂, s₁, s, hfirst, hcas, hmax5, hsecond, hidle, hsamples, ?_, ?_, ?_⟩
  · rw [hcount, hsamples]
    rfl
  · exact (hmax (by rw [hsamples]; simp)).1
  · exact (hmin ⟨5, by rw [hsamples]; simp, by decide⟩).1

/-- After a call with `INT64_MAX` the minimum reads as zero. -/
theorem record_max_value :
    ∃ (tr : List (RecordEvent Unit)) (s : Recording Unit), Exec Step new tr s ∧
      (∀ i, s.threads i = .idle) ∧ samplesOf tr = [Int64.maxValue] ∧ s.tracker.min = 0 := by
  obtain ⟨tr, hexec, hsamples⟩ :=
    exec_record (new : Recording Unit) (i := ()) rfl Int64.maxValue (by decide)
  exact ⟨tr, _, hexec, fun _ => rfl, hsamples, by decide⟩

end Recording

end TradingSim
