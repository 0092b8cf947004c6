import TradingSim.System.Process

/-!
The end of the process: `subscriber.stop()` only clears a flag, and the feed thread looks at it between two
calls of `recvfrom`. So the report has to wait for the network, unless the stop finds the thread outside
the call, and a stop that comes before the thread has set its flag is lost (`Process.report_waits`).
-/

namespace TradingSim

open Lib

/-- The join of the feed thread is behind the main thread. -/
def MainLoop.joined : MainLoop → Bool
  | .joinExec => true
  | .reported => true
  | _ => false

namespace Process

variable {tickCap execCap : ℕ} [NeZero tickCap] [NeZero execCap] {double : List UInt8 → ℚ}
  {p p' : Process tickCap execCap} {e : ProcessEvent} {tr : List ProcessEvent}
  {tickBuffer : Fin tickCap → Tick} {execBuffer : Fin execCap → Execution} {execs : List Execution}

theorem Step.joined (hs : p.Step double e p') (h : p.main.joined = true → p.feed = .ended)
    (hjoined : p'.main.joined = true) : p'.feed = .ended := by
  -- a thread that has ended takes no step
  have moves : p.feed ≠ .ended → p.main.joined = true → p'.feed = .ended :=
    fun hne hmain => absurd (h hmain) hne
  cases hs with
  | launch hfeed => exact moves (by simp [hfeed]) hjoined
  | enter hfeed _ => exact moves (by simp [hfeed]) hjoined
  | exit hfeed _ => exact moves (by simp [hfeed]) hjoined
  | receive _ hfeed => exact moves (by simp [hfeed]) hjoined
  | failed hfeed => exact moves (by simp [hfeed]) hjoined
  | malformed hfeed _ => exact moves (by simp [hfeed]) hjoined
  | dispatch hfeed _ => exact moves (by simp [hfeed]) hjoined
  | called hfeed _ => exact moves (by simp [hfeed]) hjoined
  | joinFeed _ hfeed => exact hfeed
  | report hmain _ => exact h (by simp [hmain, MainLoop.joined])
  | signal => exact h hjoined
  | offer _ _ => exact h hjoined
  | emit _ => exact h hjoined
  | popTick _ =>
    generalize p.ticks.pop.1 = d at hjoined
    cases d with
    | done op => cases op <;> cases hjoined
    | _ => cases hjoined
  | popExec _ =>
    generalize p.execs.pop.1 = d at hjoined
    cases d with
    | done op => cases op <;> cases hjoined
    | _ => cases hjoined
  | _ => cases hjoined

theorem feed_ended (h : Exec (Step double) (boot tickBuffer execBuffer execs) tr p)
    (hjoined : p.main.joined = true) : p.feed = .ended :=
  h.rule (I := fun _ p => p.main.joined = true → p.feed = .ended) (fun hboot => by cases hboot)
    (fun _ _ _ _ ih hs => hs.joined ih) hjoined

theorem Step.stops (hs : p.Step double e p') (h : ¬ p.main.stopped = true)
    (h' : p'.main.stopped = true) : e = .subscriber .stop ∧
      Worker.Step (UDPFeedSubscriber.feed dispatcher double) p.subscriber .stop p'.subscriber := by
  obtain ⟨hshown, hhidden⟩ := hs.subscriber
  cases he : e.subscriber? with
  | none =>
    have hsame : p'.main.stopped = p.main.stopped := congrArg Worker.stopped (hhidden he)
    exact absurd (hsame ▸ h') h
  | some d =>
    obtain ⟨hstep, -⟩ := hshown d he
    have hgoing : p.main.stopped = false := by simpa using h
    obtain rfl := hstep.eq_stop hgoing h'
    refine ⟨?_, hstep⟩
    cases e <;> simp_all [ProcessEvent.subscriber?]

omit [NeZero tickCap] [NeZero execCap] in
theorem waits_subscriber (p : Process tickCap execCap) :
    UDPFeedSubscriber.waits p.subscriber = if p.feed matches .recvfrom then 1 else 0 := by
  obtain ⟨feed, receiving, ticks, execs, running, main, latestPrices, positions⟩ := p
  cases feed <;> rfl

omit [NeZero tickCap] [NeZero execCap] in
theorem starting_iff (p : Process tickCap execCap) : p.subscriber.phase = .starting ↔ p.feed = .setup := by
  obtain ⟨feed, receiving, ticks, execs, running, main, latestPrices, positions⟩ := p
  cases feed <;> simp [subscriber, FeedThread.phase]

theorem returns_eq (tr : List ProcessEvent) : ProcessEvent.returns tr =
    StopEvent.collect UDPFeedSubscriber.FeedEvent.returned (ProcessEvent.feedSteps tr) := by
  induction tr using List.reverseRecOn with
  | nil => rfl
  | append_singleton tr e ih =>
    rw [ProcessEvent.returns_snoc, ih, ProcessEvent.feedSteps_snoc, StopEvent.collect, StopEvent.collect,
      List.flatMap_append]
    congr 1
    rcases e with (_ | _ | _ | _ | _ | _) | _ | _ | _ | _ | _ <;> rfl

/-- **The report waits for the network.** In every run that comes to the report, let `t` be the state in
which `subscriber.stop()` was called. If the feed thread was in `recvfrom`, one datagram or one error came
in before the report. If it was past its set-up and not in `recvfrom`, none did. And if it had not set its
flag, the report came after an error of `recvfrom`: datagrams alone, however many, do not lead to it. -/
theorem report_waits (h : Exec (Step double) (boot tickBuffer execBuffer execs) tr p)
    (hrep : p.main = .reported) :
    ∃ tr₁ t t' tr₂, tr = tr₁ ++ .subscriber .stop :: tr₂ ∧
      Exec (Step double) (boot tickBuffer execBuffer execs) tr₁ t ∧
      t.Step double (.subscriber .stop) t' ∧ Exec (Step double) t' tr₂ p ∧
      (t.feed = .recvfrom → (ProcessEvent.returns tr₂).length = 1) ∧
      (t.feed ≠ .setup → t.feed ≠ .recvfrom → ProcessEvent.returns tr₂ = []) ∧
      (t.feed = .setup → none ∈ ProcessEvent.returns tr₂) := by
  obtain ⟨tr₁, e, tr₂, t, t', rfl, h₁, ht, hstop, ht', h₂⟩ :=
    h.enters (P := fun p => p.main.stopped = true) (by simp [boot, MainLoop.stopped])
      (by rw [hrep]; rfl)
  obtain ⟨rfl, hworker⟩ := hstop.stops ht ht'
  obtain ⟨hphase, hwork⟩ := hworker.stop_frame
  have hloop := exec_subscriber h₂
  have hended : p.feed = .ended := feed_ended h (by rw [hrep]; rfl)
  have hheeded : t.feed ≠ .setup → (ProcessEvent.returns tr₂).length = UDPFeedSubscriber.waits t.subscriber := by
    intro hset
    have hcount := UDPFeedSubscriber.returned_heeded
      (hworker.heeded fun hstart => hset ((starting_iff t).mp hstart)) (hloop.imp fun _ _ _ hs => hs.1)
    rw [waits_subscriber p, hended, ← returns_eq] at hcount
    rw [UDPFeedSubscriber.waits, ← hphase, ← hwork]
    exact hcount
  refine ⟨tr₁, t, t', tr₂, rfl, h₁, hstop, h₂, ?_, ?_, ?_⟩
  · intro hrecv
    rw [hheeded (by simp [hrecv]), waits_subscriber, hrecv]
    rfl
  · intro hset hrecv
    apply List.eq_nil_of_length_eq_zero
    rw [hheeded hset, waits_subscriber]
    cases hplace : t.feed with
    | recvfrom => exact absurd hplace hrecv
    | _ => rfl
  · intro hset
    have hstart : t'.subscriber.phase = .starting := hphase.trans ((starting_iff t).mpr hset)
    rw [returns_eq]
    exact UDPFeedSubscriber.returned_overwritten ht' hstart hloop (congrArg FeedThread.phase hended)

/-- The signal comes at once, and the stop before the thread has set its flag. A datagram does not end
the thread; an error of `recvfrom` does. -/
theorem exec_stop_lost (double : List UInt8 → ℚ) (tickBuffer : Fin tickCap → Tick)
    (execBuffer : Fin execCap → Execution) :
    ∃ tr, ∃ p : Process tickCap execCap, Exec (Step double) (boot tickBuffer execBuffer []) tr p ∧
      p.main = .reported ∧ ProcessEvent.returns tr = [some [], none] :=
  ⟨_, _, Exec.nil |>.snoc (.signal _) |>.snoc (.leave rfl rfl) |>.snoc (.metricsStopped rfl)
    |>.snoc (.stop rfl) |>.snoc (.launch rfl) |>.snoc (.enter rfl rfl) |>.snoc (.receive [] rfl) |>.snoc (.malformed rfl (by decide))
    |>.snoc (.enter rfl rfl) |>.snoc (.failed rfl) |>.snoc (.joinFeed rfl rfl) |>.snoc (.report rfl rfl),
    rfl, rfl⟩

/-- Such a run comes to the report. -/
theorem report_waits_lost :
    ∃ tr, ∃ p : Process 2 2,
      Exec (Step fun _ => 0) (boot (fun _ => ⟨0, 0, 0, 0, 0⟩) (fun _ => ⟨0, 0, 0, 0, 0, .buy, 0, 0⟩) [])
        tr p ∧ p.main = .reported ∧
      ∃ tr₁ tr₂, tr = tr₁ ++ .subscriber .stop :: tr₂ ∧
        ((ProcessEvent.returns tr₂).length ≤ 1 ∨ none ∈ ProcessEvent.returns tr₂) := by
  obtain ⟨tr, p, hexec, hrep, -⟩ := exec_stop_lost (fun _ => 0)
    (fun _ : Fin 2 => ⟨0, 0, 0, 0, 0⟩) (fun _ : Fin 2 => ⟨0, 0, 0, 0, 0, .buy, 0, 0⟩)
  obtain ⟨tr₁, t, -, tr₂, htr, -, -, -, hone, hnone, herror⟩ := report_waits hexec hrep
  refine ⟨tr, p, hexec, hrep, tr₁, tr₂, htr, ?_⟩
  by_cases hset : t.feed = .setup
  · exact Or.inr (herror hset)
  · by_cases hrecv : t.feed = .recvfrom
    · exact Or.inl (hone hrecv).le
    · rw [hnone hset hrecv]
      exact Or.inl (Nat.zero_le 1)

end Process

end TradingSim
