import TradingSim.Fix.Framing
import TradingSim.MarketData.Subscriber

/-!
Stop requests to the two readers of the system, `UDPFeedSubscriber` and `FixSessionReader`. Both set their
own flag when their set-up is done, and `stop()` clears it from another thread.

A request that comes later than that is heeded: no second datagram is received or dispatched, no second
line handed over, and the loop ends. A request that comes earlier is overwritten. The subscriber then
dispatches whatever arrives, and the reader hands over its whole file (`FixSessionReader.stop_overwritten`).
`stop_request` puts the two together.
-/

namespace TradingSim

open Lib

namespace FixSessionReader

variable (atof : List UInt8 → ℚ) (now : ℕ → Int64)

/-- `FixSessionReader::start`, with `stop()`. A step of the loop is one round of `readLine`, labelled with
the orders it hands to the callback. An empty file is left before the flag is set. -/
def reader : StopLoop (List UInt8 × List Order) (List Order) where
  ready w := w.1 ≠ []
  more w := w.1 ≠ []
  body w handed next w' := next = .again ∧ w'.2 = w.2 ++ handed ∧ readLine atof now w = .ok (some w')
  enters := by
    rintro ⟨p, orders⟩ hmore
    rcases readLine_spec atof now p orders with ⟨hnil, -⟩ | ⟨p', handed, hround, -⟩
    · exact absurd hnil hmore
    · exact ⟨handed, .again, (p', orders ++ handed), rfl, rfl, hround⟩
  stays := by
    rintro w handed w' ⟨hnext, -⟩
    cases hnext

variable {atof now} {s t : Worker (List UInt8 × List Order)} {tr : List (StopEvent (List Order))}
  {w w' : List UInt8 × List Order} {handed : List Order} {next : Next}

/-- **One round** hands over at most one order, that of the first of the lines that are left. -/
theorem reader_body (h : (reader atof now).body w handed next w') :
    next = .again ∧ handed.length ≤ 1 ∧ handed.length + (lines w'.1).length = (lines w.1).length := by
  obtain ⟨p, orders⟩ := w
  obtain ⟨rest, orders'⟩ := w'
  obtain ⟨hnext, horders, hround⟩ := h
  obtain rfl : orders' = orders ++ handed := horders
  rcases readLine_spec atof now p orders with ⟨-, hend, -⟩ | ⟨p', handed', hround', hkeep, hone, -⟩
  · rw [hend] at hround
    cases hround
  · rw [hround', Except.ok.injEq, Option.some_inj, Prod.mk.injEq, List.append_cancel_left_eq] at hround
    obtain ⟨rfl, rfl⟩ := hround
    have hlen := congrArg List.length hkeep
    rw [List.length_append, ordersFrom, ordersFrom, List.length_mapIdx, List.length_mapIdx] at hlen
    exact ⟨hnext, hone, hlen.symm⟩

/-! ### A stop in time -/

/-- What a round may cost: one order, and one step. -/
def roundCost : List UInt8 × List Order → ℕ
  | _ => 1

/-- **One round at most.** -/
theorem stop_heeded (h : t.Heeded) (hexec : Exec (Worker.Step (reader atof now)) t tr s) :
    (StopEvent.collect id tr).length ≤ 1 ∧ tr.length ≤ 2 := by
  have hhanded : (StopEvent.collect id tr).length ≤ roundCost t.work := by
    refine h.length_collect_le hexec ?_
    intro w handed next w' hbody
    obtain ⟨rfl, hone, -⟩ := reader_body hbody
    simpa [roundCost] using hone
  have hsteps : tr.length ≤ roundCost t.work + 1 := by
    refine h.length_le hexec ?_
    intro w handed next w' hbody
    obtain ⟨rfl, -⟩ := reader_body hbody
    simp [roundCost]
  exact ⟨hhanded, hsteps⟩

/-! ### A stop too early -/

/-- The lines that are still to be read. -/
def linesLeft (s : Worker (List UInt8 × List Order)) : ℕ := (lines s.work.1).length

theorem length_collect_le (hexec : Exec (Worker.Step (reader atof now)) t tr s) :
    (StopEvent.collect id tr).length ≤ linesLeft t := by
  have hpaid : (tr.map fun e => (e.shows id).length).sum + linesLeft s ≤ linesLeft t := by
    refine hexec.budget (I := fun _ => True) trivial ?_
    intro u e u' _ hstep
    refine ⟨trivial, ?_⟩
    cases hstep with
    | work _ hbody =>
      obtain ⟨-, -, hlines⟩ := reader_body hbody
      exact hlines.le
    | _ => simp [StopEvent.shows, linesLeft]
  rw [StopEvent.length_collect]
  omega

theorem exec_rest (stopped : Bool) (p : List UInt8) (orders : List Order) :
    ∃ tr s, Exec (Worker.Step (reader atof now)) ⟨true, stopped, .testing, (p, orders)⟩ tr s ∧
      StopEvent.collect id tr = ordersFrom atof now orders.length (lines p) := by
  induction hn : p.length using Nat.strong_induction_on generalizing p orders with
  | _ n ih =>
    subst hn
    rcases readLine_spec atof now p orders with ⟨-, -, hnil⟩ | ⟨p', handed, hround, hkeep, -, hlt⟩
    · exact ⟨[], _, .nil, by rw [hnil]; rfl⟩
    · have hmore : p ≠ [] := by
        rintro rfl
        simp at hlt
      obtain ⟨tr, s, hrest, hcollect⟩ := ih p'.length hlt p' (orders ++ handed) rfl
      have henter : Exec (Worker.Step (reader atof now)) ⟨true, stopped, .testing, (p, orders)⟩
          [.silent] ⟨true, stopped, .working, (p, orders)⟩ := Exec.nil.snoc (.enter rfl rfl hmore)
      have hline : Exec (Worker.Step (reader atof now)) ⟨true, stopped, .testing, (p, orders)⟩
          ([.silent] ++ [.work handed]) ⟨true, stopped, .testing, (p', orders ++ handed)⟩ :=
        henter.snoc (.again rfl ⟨rfl, rfl, hround⟩)
      refine ⟨_, s, hline.trans hrest, ?_⟩
      rw [hkeep, ← hcollect]
      rfl

variable (atof now)

/-- **The whole file is handed over** after a stop that came before the flag was set. -/
theorem stop_overwritten {file : List UInt8} (ht : t.phase = .starting) (hwork : t.work = (file, [])) :
    ∃ tr s, Exec (Worker.Step (reader atof now)) t tr s ∧
      start atof now file = .ok (StopEvent.collect id tr) := by
  obtain ⟨running, stopped, phase, work⟩ := t
  obtain rfl : phase = .starting := ht
  obtain rfl : work = (file, []) := hwork
  by_cases hfile : file = []
  · subst hfile
    exact ⟨[], _, .nil, start_eq atof now []⟩
  · have hlaunch : Exec (Worker.Step (reader atof now)) ⟨running, stopped, .starting, (file, [])⟩
        [.silent] ⟨true, stopped, .testing, (file, [])⟩ := Exec.nil.snoc (.launch rfl hfile)
    obtain ⟨tr, s, hrest, hcollect⟩ := exec_rest stopped file []
    refine ⟨_, s, hlaunch.trans hrest, ?_⟩
    rw [start_eq, ← show StopEvent.collect id tr = ordersFrom atof now 0 (lines file) from hcollect]
    rfl

variable {atof now} {t' : Worker (List UInt8 × List Order)} {file : List UInt8}

/-- **A call of `stop()`** in any run of the reader. -/
theorem stop_spec (hexec : Exec (Worker.Step (reader atof now)) (.init (file, [])) tr t)
    (hstop : Worker.Step (reader atof now) t .stop t') :
    ((∀ tr' s, Exec (Worker.Step (reader atof now)) t' tr' s → (StopEvent.collect id tr').length ≤ 1) ↔
        t.phase ≠ .starting ∨ (lines file).length ≤ 1) ∧
      (t.phase ≠ .starting → t'.EndsWithin (reader atof now) 2) := by
  refine ⟨⟨fun hone => ?_, fun hcond tr' s hrun => ?_⟩, fun hphase tr' s hrun => ?_⟩
  · by_contra hnot
    push Not at hnot
    obtain ⟨hstart, htwo⟩ := hnot
    obtain ⟨hphase, hwork⟩ := hstop.stop_starting hexec hstart
    obtain ⟨tr', s, hrun, hall⟩ := stop_overwritten atof now hphase hwork
    rw [start_eq, Except.ok.injEq] at hall
    have hle := hone tr' s hrun
    rw [← hall, ordersFrom, List.length_mapIdx] at hle
    omega
  · by_cases hstart : t.phase = .starting
    · have hfew := hcond.resolve_left (not_not.mpr hstart)
      have hle := length_collect_le hrun
      rw [linesLeft, (hstop.stop_starting hexec hstart).2] at hle
      exact hle.trans hfew
    · exact (stop_heeded (hstop.heeded hstart) hrun).1
  · obtain ⟨-, hsteps⟩ := stop_heeded (hstop.heeded hphase) hrun
    exact ⟨hsteps, Worker.exists_step ((hexec.snoc hstop).trans hrun)⟩

end FixSessionReader

/-! ### The requests -/

open UDPFeedSubscriber (FeedEvent feed)

/-- **Is a stop request heeded?** Whenever `stop()` is called in a run of the subscriber, at most one
datagram is received and dispatched afterwards, if and only if `start` had set the flag by then; and if
it had, the loop ends, within three steps. Of the reader the same holds for the orders handed over, which
are at most one also if the file has no two lines. -/
theorem stop_request {β : Type} (dispatcher : MarketDispatcher β) (double : List UInt8 → ℚ)
    (atof : List UInt8 → ℚ) (now : ℕ → Int64) (file : List UInt8) :
    (∀ tr t t', Exec (Worker.Step (feed dispatcher double)) (.init .recvfrom) tr t →
      Worker.Step (feed dispatcher double) t .stop t' →
      ((∀ tr' s, Exec (Worker.Step (feed dispatcher double)) t' tr' s →
          (StopEvent.collect FeedEvent.received tr').length ≤ 1 ∧
          (StopEvent.collect FeedEvent.dispatched tr').length ≤ 1) ↔ t.phase ≠ .starting) ∧
      (t.phase ≠ .starting → t'.EndsWithin (feed dispatcher double) 3)) ∧
    (∀ tr t t', Exec (Worker.Step (FixSessionReader.reader atof now)) (.init (file, [])) tr t →
      Worker.Step (FixSessionReader.reader atof now) t .stop t' →
      ((∀ tr' s, Exec (Worker.Step (FixSessionReader.reader atof now)) t' tr' s →
          (StopEvent.collect id tr').length ≤ 1) ↔
        t.phase ≠ .starting ∨ (FixSessionReader.lines file).length ≤ 1) ∧
      (t.phase ≠ .starting → t'.EndsWithin (FixSessionReader.reader atof now) 2)) := by
  constructor
  · intro tr t t' hexec hstop
    exact UDPFeedSubscriber.stop_spec hexec hstop
  · intro tr t t' hexec hstop
    exact FixSessionReader.stop_spec hexec hstop

/-- **A request that is lost.** `stop()` returns before `start` sets the flag. The subscriber then
receives and dispatches two datagrams and goes on, and the reader hands over both lines of `a` and `b`. -/
theorem stop_request_lost :
    (∃ t' tr s, Worker.Step (feed (MarketDispatcher.new (β := Unit)) fun _ => 0) (.init .recvfrom) .stop t' ∧
      Exec (Worker.Step (feed (MarketDispatcher.new (β := Unit)) fun _ => 0)) t' tr s ∧
      s.running = true ∧ (StopEvent.collect FeedEvent.dispatched tr).length = 2) ∧
    (∃ t' tr s, Worker.Step (FixSessionReader.reader (fun _ => 0) fun _ => 0) (.init ([97, 10, 98], []))
        .stop t' ∧
      Exec (Worker.Step (FixSessionReader.reader (fun _ => 0) fun _ => 0)) t' tr s ∧
      (StopEvent.collect id tr).length = 2) := by
  constructor
  · let datagram : List UInt8 := List.replicate sizeofTick 0
    obtain ⟨tr, s, hrun, hrunning, hcalls⟩ := UDPFeedSubscriber.stop_overwritten
      (MarketDispatcher.new (β := Unit)) (fun _ => 0) (t := ⟨false, true, .starting, .recvfrom⟩) rfl rfl
      [datagram, datagram] (by simp [datagram])
    exact ⟨_, tr, s, .stop rfl, hrun, hrunning, by rw [hcalls]; rfl⟩
  · obtain ⟨tr, s, hrun, hall⟩ := FixSessionReader.stop_overwritten (fun _ => 0)
      (fun _ => 0) (t := ⟨false, true, .starting, ([97, 10, 98], [])⟩) rfl rfl
    rw [FixSessionReader.start_eq, Except.ok.injEq] at hall
    refine ⟨_, tr, s, .stop rfl, hrun, ?_⟩
    rw [← hall, FixSessionReader.ordersFrom, List.length_mapIdx]
    decide

end TradingSim
