import TradingSim.Lib.StopFlag
import TradingSim.MarketData.Dispatcher

/-!
`UDPFeedSubscriber`: the thread that receives datagrams and hands the ticks in them to the dispatcher,
until `stop()` clears its flag.

`start` is a loop with a stop flag. A stop after `start` has set the flag lets the round in progress end,
with at most one datagram received and one dispatched (`stop_heeded`). A stop during the set-up is
overwritten, and every datagram that comes is dispatched (`stop_overwritten`). So it depends on the moment
of the call alone whether it is heeded (`stop_spec`).
-/

namespace TradingSim

open Lib

/-- `sizeof(Tick)`. -/
def sizeofTick : ℕ := 40

/-- `*reinterpret_cast<const Tick*>(buffer)`, where `double` says what number eight bytes are. -/
def Tick.ofBytes (double : List UInt8 → ℚ) (buffer : List UInt8) : Tick where
  symbol i := buffer.getD i 0
  bid := double ((buffer.drop 8).take 8)
  ask := double ((buffer.drop 16).take 8)
  last := double ((buffer.drop 24).take 8)
  timestampNs := Int64.ofNat (Nat.ofDigits 256 (((buffer.drop 32).take 8).map UInt8.toNat))

namespace UDPFeedSubscriber

variable {β : Type}

/-- Where the body of the receive loop is. -/
inductive Receiver where
  | recvfrom
  | received (buffer : List UInt8)

/-- What a step of the body shows. -/
inductive FeedEvent (β : Type) where
  | receive (buffer : List UInt8)
  | failed
  | malformed
  | dispatch (calls : List (β × Tick))

/-- The datagrams received. -/
def FeedEvent.received : FeedEvent β → List (List UInt8)
  | .receive buffer => [buffer]
  | _ => []

/-- The datagrams dispatched, each as the calls it was dispatched to. -/
def FeedEvent.dispatched : FeedEvent β → List (List (β × Tick))
  | .dispatch calls => [calls]
  | _ => []

section Loop

variable (dispatcher : MarketDispatcher β) (double : List UInt8 → ℚ)

/-- The body of the loop. -/
inductive Body : Receiver → FeedEvent β → Next → Receiver → Prop
  /-- A datagram arrives. Of a long one the buffer takes the first bytes. -/
  | receive (datagram : List UInt8) :
      Body .recvfrom (.receive (datagram.take sizeofTick)) .stay (.received (datagram.take sizeofTick))
  /-- "recvfrom failed" -/
  | failed : Body .recvfrom .failed .quit .recvfrom
  | malformed {buffer : List UInt8} : buffer.length < sizeofTick →
      Body (.received buffer) .malformed .again .recvfrom
  | dispatch {buffer : List UInt8} : ¬ buffer.length < sizeofTick →
      Body (.received buffer) (.dispatch (dispatcher.dispatch (.ofBytes double buffer))) .again .recvfrom

theorem exists_body (w : Receiver) : ∃ e next w', Body dispatcher double w e next w' := by
  cases w with
  | recvfrom => exact ⟨_, _, _, .failed⟩
  | received buffer =>
    by_cases hshort : buffer.length < sizeofTick
    · exact ⟨_, _, _, .malformed hshort⟩
    · exact ⟨_, _, _, .dispatch hshort⟩

/-- `UDPFeedSubscriber::start`, with `stop()`. -/
def feed : StopLoop Receiver (FeedEvent β) where
  ready _ := True
  more _ := True
  body := Body dispatcher double
  enters w _ := exists_body dispatcher double w
  stays _ _ w' _ := exists_body dispatcher double w'

end Loop

variable {dispatcher : MarketDispatcher β} {double : List UInt8 → ℚ} {s t : Worker Receiver}
  {tr : List (StopEvent (FeedEvent β))}

/-! ### A stop in time -/

/-- The datagrams that a round may still receive. -/
def Receiver.receives : Receiver → ℕ
  | .recvfrom => 1
  | .received _ => 0

/-- The datagrams that a round may still dispatch. -/
def Receiver.dispatches : Receiver → ℕ
  | _ => 1

/-- The steps that a round may still take. -/
def Receiver.steps : Receiver → ℕ
  | .recvfrom => 2
  | .received _ => 1

/-- **One round at most.** -/
theorem stop_heeded (h : t.Heeded) (hexec : Exec (Worker.Step (feed dispatcher double)) t tr s) :
    (StopEvent.collect FeedEvent.received tr).length ≤ 1 ∧
      (StopEvent.collect FeedEvent.dispatched tr).length ≤ 1 ∧ tr.length ≤ 3 := by
  have hreceived : (StopEvent.collect FeedEvent.received tr).length ≤ t.work.receives := by
    refine h.length_collect_le hexec ?_
    intro w d next w' hbody
    cases hbody <;> simp [FeedEvent.received, Receiver.receives]
  have hdispatched : (StopEvent.collect FeedEvent.dispatched tr).length ≤ t.work.dispatches := by
    refine h.length_collect_le hexec ?_
    intro w d next w' hbody
    cases hbody <;> simp [FeedEvent.dispatched, Receiver.dispatches]
  have hsteps : tr.length ≤ t.work.steps + 1 := by
    refine h.length_le hexec ?_
    intro w d next w' hbody
    cases hbody <;> simp [Receiver.steps]
  have hround : t.work.receives ≤ 1 ∧ t.work.dispatches ≤ 1 ∧ t.work.steps ≤ 2 := by
    cases t.work <;> simp [Receiver.receives, Receiver.dispatches, Receiver.steps]
  omega

/-! ### A stop too early -/

theorem exec_round {stopped : Bool} {datagram : List UInt8} (hlong : sizeofTick ≤ datagram.length) :
    Exec (Worker.Step (feed dispatcher double)) ⟨true, stopped, .testing, .recvfrom⟩
      [.silent, .work (.receive (datagram.take sizeofTick)),
        .work (.dispatch (dispatcher.dispatch (.ofBytes double (datagram.take sizeofTick))))]
      ⟨true, stopped, .testing, .recvfrom⟩ := by
  have hfull : ¬ (datagram.take sizeofTick).length < sizeofTick := by
    rw [List.length_take]
    omega
  have henter : Exec (Worker.Step (feed dispatcher double)) ⟨true, stopped, .testing, .recvfrom⟩
      [.silent] ⟨true, stopped, .working, .recvfrom⟩ := Exec.nil.snoc (.enter rfl rfl trivial)
  exact (henter.snoc (.stay rfl (Body.receive datagram))).snoc (.again rfl (Body.dispatch hfull))

variable (dispatcher double)

/-- **Every datagram is dispatched** after a stop that came before the flag was set. -/
theorem stop_overwritten (ht : t.phase = .starting) (hwork : t.work = .recvfrom)
    (datagrams : List (List UInt8)) (hlong : ∀ datagram ∈ datagrams, sizeofTick ≤ datagram.length) :
    ∃ tr s, Exec (Worker.Step (feed dispatcher double)) t tr s ∧ s.running = true ∧
      StopEvent.collect FeedEvent.dispatched tr = datagrams.map fun datagram =>
        dispatcher.dispatch (.ofBytes double (datagram.take sizeofTick)) := by
  obtain ⟨running, stopped, phase, work⟩ := t
  obtain rfl : phase = .starting := ht
  obtain rfl : work = .recvfrom := hwork
  suffices h : ∃ tr, Exec (Worker.Step (feed dispatcher double)) ⟨running, stopped, .starting, .recvfrom⟩
      tr ⟨true, stopped, .testing, .recvfrom⟩ ∧
      StopEvent.collect FeedEvent.dispatched tr = datagrams.map fun datagram =>
        dispatcher.dispatch (.ofBytes double (datagram.take sizeofTick)) by
    obtain ⟨tr, hexec, hcalls⟩ := h
    exact ⟨tr, _, hexec, rfl, hcalls⟩
  induction datagrams using List.reverseRecOn with
  | nil => exact ⟨[.silent], Exec.nil.snoc (.launch rfl trivial), rfl⟩
  | append_singleton datagrams datagram ih =>
    obtain ⟨tr, hexec, hcalls⟩ := ih fun dg hdg => hlong dg (List.mem_append_left _ hdg)
    refine ⟨_, hexec.trans (exec_round (hlong datagram (by simp))), ?_⟩
    rw [StopEvent.collect, List.flatMap_append, ← StopEvent.collect, hcalls, List.map_append]
    rfl

variable {dispatcher double} {t' : Worker Receiver}

/-- **A call of `stop()`** in any run of the subscriber. -/
theorem stop_spec (hexec : Exec (Worker.Step (feed dispatcher double)) (.init .recvfrom) tr t)
    (hstop : Worker.Step (feed dispatcher double) t .stop t') :
    ((∀ tr' s, Exec (Worker.Step (feed dispatcher double)) t' tr' s →
        (StopEvent.collect FeedEvent.received tr').length ≤ 1 ∧
        (StopEvent.collect FeedEvent.dispatched tr').length ≤ 1) ↔ t.phase ≠ .starting) ∧
      (t.phase ≠ .starting → t'.EndsWithin (feed dispatcher double) 3) := by
  refine ⟨⟨fun hone hstart => ?_, fun hphase tr' s hrun => ?_⟩, fun hphase tr' s hrun => ?_⟩
  · -- two datagrams arrive, and both are dispatched
    obtain ⟨hphase, hwork⟩ := hstop.stop_starting hexec hstart
    have hlong : ∀ datagram ∈ List.replicate 2 (List.replicate sizeofTick (0 : UInt8)),
        sizeofTick ≤ datagram.length := by
      simp
    obtain ⟨tr', s, hrun, -, hcalls⟩ := stop_overwritten dispatcher double hphase hwork _ hlong
    have hle := (hone tr' s hrun).2
    rw [hcalls] at hle
    simp at hle
  · obtain ⟨hreceived, hdispatched, -⟩ := stop_heeded (hstop.heeded hphase) hrun
    exact ⟨hreceived, hdispatched⟩
  · obtain ⟨-, -, hsteps⟩ := stop_heeded (hstop.heeded hphase) hrun
    exact ⟨hsteps, Worker.exists_step ((hexec.snoc hstop).trans hrun)⟩

/-! ### What the end of the thread waits for -/

/-- What a step lets `recvfrom` return: a datagram or an error. -/
def FeedEvent.returned : FeedEvent β → List (Option (List UInt8))
  | .receive buffer => [some buffer]
  | .failed => [none]
  | _ => []

/-- The returns of `recvfrom` that a thread with a clear flag waits for. -/
def waits (s : Worker Receiver) : ℕ :=
  match s.phase, s.work with
  | .working, .recvfrom => 1
  | _, _ => 0

/-- A stop in time: the thread waits for `recvfrom` if it is in it, and for nothing else. -/
theorem returned_heeded (h : t.Heeded) (hexec : Exec (Worker.Step (feed dispatcher double)) t tr s) :
    (StopEvent.collect FeedEvent.returned tr).length + waits s = waits t := by
  have hall : s.Heeded ∧ (StopEvent.collect FeedEvent.returned tr).length + waits s = waits t := by
    refine hexec.rule (I := fun tr s =>
      s.Heeded ∧ (StopEvent.collect FeedEvent.returned tr).length + waits s = waits t)
      ⟨h, by simp [StopEvent.collect]⟩ ?_
    rintro tr ⟨running, stopped, phase, work⟩ e ⟨running', stopped', phase', work'⟩ ⟨hs, hcount⟩ hstep
    obtain ⟨hs', ⟨rfl, rfl, rfl⟩ | ⟨d, next, w, rfl, rfl, hbody, rfl, rfl⟩⟩ := hs.step hstep
    · refine ⟨hs', ?_⟩
      rw [StopEvent.collect_snoc]
      simpa [StopEvent.shows, waits] using hcount
    · refine ⟨hs', ?_⟩
      rw [StopEvent.collect_snoc, List.length_append, ← hcount]
      cases hbody <;> simp [StopEvent.shows, FeedEvent.returned, waits, Next.phase]
  exact hall.2

variable (dispatcher double) in
/-- A step of a subscriber whose set-up does not fail. -/
def LaunchedStep (s : Worker Receiver) (e : StopEvent (FeedEvent β)) (s' : Worker Receiver) : Prop :=
  Worker.Step (feed dispatcher double) s e s' ∧ (s.phase = .starting → s'.phase ≠ .ended)

/-- A stop that is overwritten: the thread does not end before `recvfrom` has failed. -/
theorem returned_overwritten (hstopped : t.stopped = true) (ht : t.phase = .starting)
    (hexec : Exec (LaunchedStep dispatcher double) t tr s) (hend : s.phase = .ended) :
    none ∈ StopEvent.collect FeedEvent.returned tr := by
  have hall : s.stopped = true ∧ (s.phase = .starting ∨ s.running = true) ∧
      (s.phase = .ended → none ∈ StopEvent.collect FeedEvent.returned tr) := by
    refine hexec.rule (I := fun tr s => s.stopped = true ∧ (s.phase = .starting ∨ s.running = true) ∧
      (s.phase = .ended → none ∈ StopEvent.collect FeedEvent.returned tr))
      ⟨hstopped, Or.inl ht, by simp [ht]⟩ ?_
    rintro tr s e s' ⟨hs, hflag, hfailed⟩ ⟨hstep, hlaunch⟩
    rw [StopEvent.collect_snoc]
    cases hstep with
    | stop hgo =>
      rw [hs] at hgo
      cases hgo
    | giveUp hstart => exact absurd rfl (hlaunch hstart)
    | launch _ _ => exact ⟨hs, Or.inr rfl, by simp⟩
    | enter _ hrun _ => exact ⟨hs, Or.inr hrun, by simp⟩
    | leave htest hclear =>
      -- the flag is set, and there is always more
      have hrun : s.running = true := hflag.resolve_left (by simp [htest])
      simp [hrun, feed] at hclear
    | work hwork hbody =>
      have hrun : s.running = true := hflag.resolve_left (by simp [hwork])
      refine ⟨hs, Or.inr hrun, fun hphase => List.mem_append_right _ ?_⟩
      generalize s.work = w at hbody
      cases hbody with
      | failed => simp [StopEvent.shows, FeedEvent.returned]
      | _ => cases hphase
  exact hall.2.2 hend

end UDPFeedSubscriber

end TradingSim
