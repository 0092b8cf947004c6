import TradingSim.Lib.Events
import TradingSim.System.TickPath

/-!
The main loop under the signal. `running` is read at the top of a cycle only, and a cycle drains one queue
after the other until it has found each of them empty. So how long the main thread takes to leave the loop
is a matter of what its producers do in the meantime: its steps are bounded by what is queued and what is
pushed since (`Process.signal_response`), and a feed that is fast enough keeps it in the first of the two
loops, with no execution booked and the signal not seen (`Process.signal_delayed`).

Apart from that nothing can hold the process up but a call of `recvfrom` and the stop of the metrics server:
from wherever it is, it can get to its report with at most one return of each (`Process.report_reachable`).
-/

namespace TradingSim

open Lib

/-- The access is one of the consumer. -/
def SpscEvent.isPop {α : Type} : SpscEvent α → Bool
  | .popCall => true
  | .popAccess => true
  | .done (.pop _) => true
  | .done .empty => true
  | _ => false

theorem Lane.isPop_pop {α : Type} {cap : ℕ} [NeZero cap] (l : Lane α cap) : l.pop.1.isPop = true := by
  obtain ⟨⟨buf, hd, tl, prod, cons⟩, pending, dropped⟩ := l
  cases cons with
  | loadedHead h =>
    by_cases hempty : h = tl
    · simp [pop, SpscQueue.pop, hempty, SpscEvent.isPop]
    · simp [pop, SpscQueue.pop, hempty, SpscEvent.isPop]
  | _ => rfl

theorem Lane.isPop_push {α : Type} {cap : ℕ} [NeZero cap] (l : Lane α cap) (x : α) (rest : List α) :
    (l.push x rest).1.isPop = false := by
  obtain ⟨⟨buf, hd, tl, prod, cons⟩, pending, dropped⟩ := l
  cases prod with
  | loadedTail y t =>
    by_cases hfull : Ring.succ t = hd
    · simp [push, SpscQueue.push, hfull, SpscEvent.isPop]
    · simp [push, SpscQueue.push, hfull, SpscEvent.isPop]
  | _ => rfl

/-- How often `metricsServer.stop()` has still to return. -/
def MainLoop.metricsLeft : MainLoop → ℕ
  | .stopping => 0
  | .joinFeed => 0
  | .joinExec => 0
  | .reported => 0
  | _ => 1

namespace ProcessEvent

/-- A step of the main thread in its loop. -/
def ofMain : ProcessEvent → Bool
  | .ticks e => e.isPop
  | .priced _ => true
  | .trading (.queue e) => e.isPop
  | .trading (.booked _) => true
  | .trading .leave => true
  | _ => false

/-- A step that gives the main thread more to drain. -/
def isPushed : ProcessEvent → Bool
  | .ticks e => e.isPushed
  | .trading (.queue e) => e.isPushed
  | _ => false

/-- `metricsServer.stop()` returns. -/
def stopsMetrics : ProcessEvent → Bool
  | .metricsStopped => true
  | _ => false

end ProcessEvent

namespace Process

variable {tickCap execCap : ℕ} [NeZero tickCap] [NeZero execCap] {double : List UInt8 → ℚ}
  {p p' : Process tickCap execCap} {e : ProcessEvent} {tr : List ProcessEvent}
  {tickBuffer : Fin tickCap → Tick} {execBuffer : Fin execCap → Execution} {execs : List Execution}

/-! ### The way out of the loop -/

/-- The steps in which the main thread leaves the loop, if nothing more is pushed. -/
def toLeave (p : Process tickCap execCap) : ℕ :=
  match p.main with
  | .top => 1
  | .drainTicks => p.ticks.toDrain + p.execs.toDrain + 1
  | .poppedTick _ => p.ticks.toDrain + p.execs.toDrain + 2
  | .drainExecs => p.execs.toDrain + 1
  | .poppedExec _ => p.execs.toDrain + 2
  | _ => 0

/-- More in the queues is that much more to do, whichever of them the main thread is at. -/
theorem toLeave_le {a b : ℕ} (hmain : p'.main = p.main) (hticks : p'.ticks.toDrain ≤ p.ticks.toDrain + a)
    (hexecs : p'.execs.toDrain ≤ p.execs.toDrain + b) : p'.toLeave ≤ p.toLeave + (a + b) := by
  unfold toLeave
  rw [hmain]
  cases p.main <;> simp only <;> omega

theorem toLeave_bound (p : Process tickCap execCap) :
    p.toLeave ≤ 5 * (p.ticks.queue.stored.length + p.execs.queue.stored.length) + 6 := by
  have hticks := p.ticks.toDrain_le
  have hexecs := p.execs.toDrain_le
  unfold toLeave
  cases p.main <;> simp only <;> omega

theorem popTick_toLeave (h : p.ticks.queue.Inv) (hmain : p.main = .drainTicks) :
    ({ p with ticks := p.ticks.pop.2, main := .ofTickPop p.ticks.pop.1 } : Process tickCap execCap).toLeave
      + 1 ≤ p.toLeave := by
  have hpays := Lane.pop_pays h (k := p.execs.toDrain + 1) (f := fun e =>
    ({ p with ticks := p.ticks.pop.2, main := .ofTickPop e } : Process tickCap execCap).toLeave)
    (fun _ => rfl) rfl fun e he => by
      cases e with
      | done op => cases he
      | _ => rfl
  rw [← Nat.add_assoc] at hpays
  simpa only [toLeave, hmain] using hpays

theorem popExec_toLeave (h : p.execs.queue.Inv) (hmain : p.main = .drainExecs) :
    ({ p with execs := p.execs.pop.2, main := .ofExecPop p.execs.pop.1 } : Process tickCap execCap).toLeave
      + 1 ≤ p.toLeave := by
  have hpays := Lane.pop_pays h (k := 1) (f := fun e =>
    ({ p with execs := p.execs.pop.2, main := .ofExecPop e } : Process tickCap execCap).toLeave)
    (fun _ => rfl) rfl fun e he => by
      cases e with
      | done op => cases he
      | _ => rfl
  simpa only [toLeave, hmain] using hpays

/-- After the signal. -/
structure Signalled (p : Process tickCap execCap) : Prop where
  running : p.running = false
  ticks : p.ticks.queue.Inv
  execs : p.execs.queue.Inv

/-- **One step after the signal.** A step of the main thread brings it nearer to its way out, and only a
push takes it back. -/
theorem Signalled.step (h : p.Signalled) (hs : p.Step double e p') :
    p'.Signalled ∧ e.ofMain.toNat + p'.toLeave ≤ p.toLeave + 5 * e.isPushed.toNat := by
  -- the steps of the others that push nothing
  have aside : ∀ {p' : Process tickCap execCap} {e : ProcessEvent}, e.ofMain = false →
      p'.running = false → p'.ticks.queue = p.ticks.queue → p'.execs.queue = p.execs.queue →
      p'.main = p.main → p'.Signalled ∧ e.ofMain.toNat + p'.toLeave ≤ p.toLeave + 5 * e.isPushed.toNat := by
    intro p' e he hrun hticks hexecs hmain
    have hstay : p'.toLeave ≤ p.toLeave + (0 + 0) :=
      toLeave_le hmain (by rw [Lane.toDrain, Lane.toDrain, hticks]; rfl)
        (by rw [Lane.toDrain, Lane.toDrain, hexecs]; rfl)
    refine ⟨⟨hrun, hticks ▸ h.ticks, hexecs ▸ h.execs⟩, ?_⟩
    rw [he, Bool.toNat_false]
    omega
  have hrun := h.running
  cases hs with
  | signal => exact aside rfl rfl rfl rfl rfl
  | launch _ => exact aside rfl hrun rfl rfl rfl
  | enter _ _ => exact aside rfl hrun rfl rfl rfl
  | exit _ _ => exact aside rfl hrun rfl rfl rfl
  | receive _ _ => exact aside rfl hrun rfl rfl rfl
  | failed _ => exact aside rfl hrun rfl rfl rfl
  | malformed _ _ => exact aside rfl hrun rfl rfl rfl
  | dispatch _ _ => exact aside rfl hrun rfl rfl rfl
  | called _ _ => exact aside rfl hrun rfl rfl rfl
  | @offer tick rest _ _ =>
    refine ⟨⟨hrun, (SpscQueue.push_takes h.ticks tick).inv, h.execs⟩, ?_⟩
    have hleave : ({ p with ticks := (p.ticks.push tick rest).2 } : Process tickCap execCap).toLeave ≤
        p.toLeave + (_ + 0) := toLeave_le rfl (Lane.push_toDrain h.ticks tick rest) le_rfl
    have hpush : (p.ticks.push tick rest).1.isPop = false := p.ticks.isPop_push tick rest
    simp only [ProcessEvent.ofMain, ProcessEvent.isPushed, hpush, Bool.toNat_false]
    omega
  | @emit exec rest _ =>
    refine ⟨⟨hrun, h.ticks, (SpscQueue.push_takes h.execs exec).inv⟩, ?_⟩
    have hleave : ({ p with execs := (p.execs.push exec rest).2 } : Process tickCap execCap).toLeave ≤
        p.toLeave + (0 + _) := toLeave_le rfl le_rfl (Lane.push_toDrain h.execs exec rest)
    have hpush : (p.execs.push exec rest).1.isPop = false := p.execs.isPop_push exec rest
    simp only [ProcessEvent.ofMain, ProcessEvent.isPushed, hpush, Bool.toNat_false]
    omega
  | cycle _ hon =>
    rw [hrun] at hon
    cases hon
  | popTick hmain =>
    refine ⟨⟨hrun, (SpscQueue.pop_takes h.ticks).inv, h.execs⟩, ?_⟩
    rw [ProcessEvent.ofMain, Lane.isPop_pop, Bool.toNat_true, Nat.add_comm]
    exact (popTick_toLeave h.ticks hmain).trans (Nat.le_add_right _ _)
  | onTick hmain =>
    refine ⟨⟨hrun, h.ticks, h.execs⟩, ?_⟩
    simp only [toLeave, hmain, ProcessEvent.ofMain, Bool.toNat_true]
    omega
  | popExec hmain =>
    refine ⟨⟨hrun, h.ticks, (SpscQueue.pop_takes h.execs).inv⟩, ?_⟩
    rw [ProcessEvent.ofMain, Lane.isPop_pop, Bool.toNat_true, Nat.add_comm]
    exact (popExec_toLeave h.execs hmain).trans (Nat.le_add_right _ _)
  | onExecution hmain =>
    refine ⟨⟨hrun, h.ticks, h.execs⟩, ?_⟩
    simp only [toLeave, hmain, ProcessEvent.ofMain, Bool.toNat_true]
    omega
  | leave hmain _ =>
    refine ⟨⟨hrun, h.ticks, h.execs⟩, ?_⟩
    simp only [toLeave, hmain, ProcessEvent.ofMain, Bool.toNat_true]
    omega
  | metricsStopped _ => exact ⟨⟨hrun, h.ticks, h.execs⟩, Nat.zero_le _⟩
  | stop _ => exact ⟨⟨hrun, h.ticks, h.execs⟩, Nat.zero_le _⟩
  | joinFeed _ _ => exact ⟨⟨hrun, h.ticks, h.execs⟩, Nat.zero_le _⟩
  | report _ _ => exact ⟨⟨hrun, h.ticks, h.execs⟩, Nat.zero_le _⟩

theorem exec_inv (h : Exec (Step double) (boot tickBuffer execBuffer execs) tr p) :
    p.ticks.queue.Inv ∧ p.execs.queue.Inv := by
  obtain ⟨handled, -, hlane⟩ := (exec_fed h).lane
  exact ⟨hlane.inv, (SpscQueue.exec_fifo (TradingSystem.exec_queue (exec_trading h))).1⟩

/-- **The response to the signal.** In every run the main thread makes, from the signal on, at most six steps
in its loop and five more for each item that is in the queues or pushed since. Every access to a queue is a
step, as is what is done with an item. -/
theorem signal_response {tr' : List ProcessEvent} {s : Process tickCap execCap}
    (h : Exec (Step double) (boot tickBuffer execBuffer execs) tr p) (hrun : p.running = false)
    (hexec : Exec (Step double) p tr' s) : tr'.countP ProcessEvent.ofMain ≤
      5 * (p.ticks.queue.stored.length + p.execs.queue.stored.length +
        tr'.countP ProcessEvent.isPushed) + 6 := by
  obtain ⟨hticks, hexecs⟩ := exec_inv h
  have hsignalled : p.Signalled := ⟨hrun, hticks, hexecs⟩
  have hpaid : (tr'.map fun e => e.ofMain.toNat).sum + s.toLeave ≤
      p.toLeave + (tr'.map fun e => 5 * e.isPushed.toNat).sum :=
    hexec.credit hsignalled fun _ _ _ ht hs => ht.step hs
  have hbound := p.toLeave_bound
  rw [sum_map_toNat, List.sum_map_mul_left, sum_map_toNat] at hpaid
  omega

/-! ### A feed that does not pause -/

/-- The main thread is in the loop over the ticks, `tickQueue` is empty, and the feed thread waits for a
datagram. -/
structure Waiting (p : Process tickCap execCap) : Prop where
  feed : p.feed = .recvfrom
  receiving : p.receiving = true
  main : p.main = .drainTicks
  lane : ∃ buffer t dropped, p.ticks = ⟨⟨buffer, t, t, .idle, .idle⟩, [], dropped⟩

/-- A datagram comes in, and its tick goes all the way to the price cache while the main thread stays in the
loop. -/
theorem Waiting.round (hcap : 2 ≤ tickCap) {datagram : List UInt8} {tick : Tick}
    (hlen : datagram.length = sizeofTick) (hroute : route double datagram = [tick]) (h : p.Waiting) :
    ∃ tr s, Exec (Step double) p tr s ∧ s.Waiting ∧ s.running = p.running ∧
      ProcessEvent.pricedTicks tr = [tick] ∧ tr.filterMap ProcessEvent.trading? = [] := by
  obtain ⟨feed, receiving, ticks, execs, running, main, latestPrices, positions⟩ := p
  obtain ⟨rfl, rfl, rfl, buffer, t, dropped, rfl⟩ := h
  have hroom : Ring.succ t ≠ t := by
    intro heq
    have hval := Ring.val_succ t
    rw [heq] at hval
    split at hval <;> omega
  have hne : t ≠ Ring.succ t := hroom.symm
  have htake : datagram.take sizeofTick = datagram := List.take_of_length_le hlen.le
  have hlong : ¬ datagram.length < sizeofTick := by omega
  -- the process with the feed thread, the queue and the main thread at these places
  let state (feed : FeedThread) (queue : SpscQueue Tick tickCap) (pending : List Tick) (main : MainLoop) :
      Process tickCap execCap :=
    ⟨feed, true, ⟨queue, pending, dropped⟩, execs, running, main, latestPrices, positions⟩
  let full := Function.update buffer t tick
  have hreceive : Exec (Step double) (state .recvfrom ⟨buffer, t, t, .idle, .idle⟩ [] .drainTicks)
      [.subscriber (.work (.receive datagram)),
        .subscriber (.work (.dispatch (dispatcher.dispatch (.ofBytes double datagram))))]
      (state .calling ⟨buffer, t, t, .idle, .idle⟩ [tick] .drainTicks) := by
    have hstart : Exec (Step double) (state .recvfrom ⟨buffer, t, t, .idle, .idle⟩ [] .drainTicks) []
      (state .recvfrom ⟨buffer, t, t, .idle, .idle⟩ [] .drainTicks) := .nil
    have hrun := hstart |>.snoc (.receive datagram rfl) |>.snoc (.dispatch rfl (by rwa [htake]))
    rw [htake, hroute] at hrun
    exact hrun
  have hpush : Exec (Step double) (state .calling ⟨buffer, t, t, .idle, .idle⟩ [tick] .drainTicks)
      [.ticks (.pushCall tick), .ticks .pushAccess, .ticks .pushAccess, .ticks (.done (.push tick)), .silent,
        .subscriber .silent]
      (state .recvfrom ⟨full, t, Ring.succ t, .idle, .idle⟩ [] .drainTicks) := by
    have hsee : (state .calling ⟨buffer, t, t, .loadedTail tick t, .idle⟩ [tick] .drainTicks).Step double
        (.ticks .pushAccess) (state .calling ⟨buffer, t, t, .room tick t, .idle⟩ [tick] .drainTicks) := by
      have hs : (state .calling ⟨buffer, t, t, .loadedTail tick t, .idle⟩ [tick] .drainTicks).Step double
        _ _ := .offer rfl rfl
      simpa [state, Lane.push, SpscQueue.push, hroom] using hs
    exact Exec.nil |>.snoc (.offer rfl rfl) |>.snoc hsee |>.snoc (.offer rfl rfl) |>.snoc (.offer rfl rfl)
      |>.snoc (.called rfl rfl) |>.snoc (.enter rfl rfl)
  have hpop : Exec (Step double) (state .recvfrom ⟨full, t, Ring.succ t, .idle, .idle⟩ [] .drainTicks)
      [.ticks .popCall, .ticks .popAccess, .ticks .popAccess, .ticks (.done (.pop tick))]
      (state .recvfrom ⟨full, Ring.succ t, Ring.succ t, .idle, .idle⟩ [] (.poppedTick tick)) := by
    have hsee : (state .recvfrom ⟨full, t, Ring.succ t, .idle, .loadedHead t⟩ [] .drainTicks).Step double
        (.ticks .popAccess) (state .recvfrom ⟨full, t, Ring.succ t, .idle, .nonEmpty t⟩ [] .drainTicks) := by
      have hs : (state .recvfrom ⟨full, t, Ring.succ t, .idle, .loadedHead t⟩ [] .drainTicks).Step double
        _ _ := .popTick rfl
      simpa [state, Lane.pop, SpscQueue.pop, MainLoop.ofTickPop, hne] using hs
    have hcopy : (state .recvfrom ⟨full, t, Ring.succ t, .idle, .nonEmpty t⟩ [] .drainTicks).Step double
        (.ticks .popAccess)
        (state .recvfrom ⟨full, t, Ring.succ t, .idle, .copied t tick⟩ [] .drainTicks) := by
      have hs : (state .recvfrom ⟨full, t, Ring.succ t, .idle, .nonEmpty t⟩ [] .drainTicks).Step double
        _ _ := .popTick rfl
      have hslot : full t = tick := Function.update_self ..
      rw [← hslot]
      exact hs
    exact Exec.nil |>.snoc (.popTick rfl) |>.snoc hsee |>.snoc hcopy |>.snoc (.popTick rfl)
  refine ⟨_, _, (hreceive.trans (hpush.trans hpop)).snoc (.onTick rfl), ⟨rfl, rfl, rfl, _, _, _, rfl⟩, rfl,
    rfl, rfl⟩

theorem Waiting.rounds (hcap : 2 ≤ tickCap) {datagram : List UInt8} {tick : Tick}
    (hlen : datagram.length = sizeofTick) (hroute : route double datagram = [tick]) (h : p.Waiting)
    (n : ℕ) : ∃ tr s, Exec (Step double) p tr s ∧ s.Waiting ∧
      ProcessEvent.pricedTicks tr = List.replicate n tick ∧
      tr.filterMap ProcessEvent.trading? = [] := by
  induction n with
  | zero => exact ⟨[], p, .nil, h, rfl, rfl⟩
  | succ n ih =>
    obtain ⟨tr, s, hexec, hs, hpriced, htrading⟩ := ih
    obtain ⟨tr', s', hexec', hs', -, hpriced', htrading'⟩ := hs.round hcap hlen hroute
    refine ⟨tr ++ tr', s', hexec.trans hexec', hs', ?_, ?_⟩
    · rw [ProcessEvent.pricedTicks, List.filterMap_append, List.replicate_succ']
      exact congrArg₂ _ hpriced hpriced'
    · rw [List.filterMap_append, htrading, htrading', List.append_nil]

theorem exec_waiting (double : List UInt8 → ℚ) (tickBuffer : Fin tickCap → Tick)
    (execBuffer : Fin execCap → Execution) (execs : List Execution) :
    ∃ tr p, Exec (Step double) (boot tickBuffer execBuffer execs) tr p ∧ p.Waiting ∧ p.running = false :=
  ⟨_, _, Exec.nil |>.snoc (.launch rfl) |>.snoc (.enter rfl rfl) |>.snoc (.cycle rfl rfl) |>.snoc (.signal _),
    ⟨rfl, rfl, rfl, _, _, _, rfl⟩, rfl⟩

/-- Three ticks of AAPL come in after the signal. -/
theorem signal_response_aapl :
    let double : List UInt8 → ℚ := fun _ => 7
    let datagram := ascii "AAPL" ++ List.replicate 36 0
    ∃ tr tr', ∃ p s : Process 2 2,
      Exec (Step double) (boot (fun _ => ⟨0, 0, 0, 0, 0⟩) (fun _ => ⟨0, 0, 0, 0, 0, .buy, 0, 0⟩) []) tr p ∧
      p.running = false ∧ Exec (Step double) p tr' s ∧
      ProcessEvent.pricedTicks tr' = List.replicate 3 (.ofBytes double datagram) ∧
      tr'.countP ProcessEvent.ofMain ≤ 5 * (p.ticks.queue.stored.length + p.execs.queue.stored.length +
        tr'.countP ProcessEvent.isPushed) + 6 := by
  intro double datagram
  have hroute : route double datagram = [.ofBytes double datagram] :=
    route_subscribed (by decide) (by decide) (by decide : _ = subscribedField (ascii "AAPL"))
  obtain ⟨tr, p, hexec, hwaiting, hrun⟩ := @exec_waiting 2 2 _ _ double (fun _ => ⟨0, 0, 0, 0, 0⟩)
    (fun _ => ⟨0, 0, 0, 0, 0, .buy, 0, 0⟩) []
  obtain ⟨tr', s, hexec', -, hpriced, -⟩ := hwaiting.rounds le_rfl rfl hroute 3
  exact ⟨tr, tr', p, s, hexec, hrun, hexec', hpriced, signal_response hexec hrun hexec'⟩

/-- **No bound on the response without what is pushed.** While the feed brings in one tick after the other,
the main thread pops and applies any number of them after the signal, books no execution and is still in
its loop. -/
theorem signal_delayed (hcap : 2 ≤ tickCap) {datagram : List UInt8} {tick : Tick}
    (hlen : datagram.length = sizeofTick) (hroute : route double datagram = [tick])
    (tickBuffer : Fin tickCap → Tick) (execBuffer : Fin execCap → Execution) (execs : List Execution) :
    ∀ n, ∃ tr p tr' s, Exec (Step double) (boot tickBuffer execBuffer execs) tr p ∧ p.running = false ∧
      Exec (Step double) p tr' s ∧ s.main = .drainTicks ∧
      ProcessEvent.pricedTicks tr' = List.replicate n tick ∧
      SystemEvent.applied (tr'.filterMap ProcessEvent.trading?) = [] := by
  intro n
  obtain ⟨tr, p, hexec, hwaiting, hrun⟩ := exec_waiting double tickBuffer execBuffer execs
  obtain ⟨tr', s, hexec', hs, hpriced, htrading⟩ := hwaiting.rounds hcap hlen hroute n
  refine ⟨tr, p, tr', s, hexec, hrun, hexec', hs.main, hpriced, ?_⟩
  rw [htrading]
  rfl

/-- A thousand ticks of AAPL hold it up. -/
theorem signal_delayed_aapl :
    let double : List UInt8 → ℚ := fun _ => 7
    let datagram := ascii "AAPL" ++ List.replicate 36 0
    route double datagram = [.ofBytes double datagram] ∧
    ∃ tr tr', ∃ p s : Process 2 2,
      Exec (Step double) (boot (fun _ => ⟨0, 0, 0, 0, 0⟩) (fun _ => ⟨0, 0, 0, 0, 0, .buy, 0, 0⟩) []) tr p ∧
      p.running = false ∧ Exec (Step double) p tr' s ∧ s.main = .drainTicks ∧
      ProcessEvent.pricedTicks tr' = List.replicate 1000 (.ofBytes double datagram) := by
  intro double datagram
  have hroute : route double datagram = [.ofBytes double datagram] :=
    route_subscribed (by decide) (by decide) (by decide : _ = subscribedField (ascii "AAPL"))
  have hheld := @signal_delayed 2 2 _ _ double (by decide) datagram _ rfl hroute
    (fun _ => ⟨0, 0, 0, 0, 0⟩) (fun _ => ⟨0, 0, 0, 0, 0, .buy, 0, 0⟩) []
  obtain ⟨tr, p, tr', s, hexec, hrun, hexec', hmain, hpriced, -⟩ := hheld 1000
  exact ⟨hroute, tr, tr', p, s, hexec, hrun, hexec', hmain, hpriced⟩

/-! ### The way to the report -/

theorem Signalled.exists_step (double : List UInt8 → ℚ) (h : p.Signalled) (hloop : p.toLeave ≠ 0) :
    ∃ e p', p.Step double e p' ∧ e.returned? = none ∧ p'.Signalled ∧ p'.toLeave < p.toLeave := by
  have lower : ∀ {e : ProcessEvent} {p' : Process tickCap execCap}, p.Step double e p' →
      e.returned? = none → p'.toLeave < p.toLeave →
      ∃ e p', p.Step double e p' ∧ e.returned? = none ∧ p'.Signalled ∧ p'.toLeave < p.toLeave :=
    fun hs hquiet hlt => ⟨_, _, hs, hquiet, (h.step hs).1, hlt⟩
  cases hmain : p.main with
  | top => exact lower (.leave hmain h.running) rfl (by simp [toLeave, hmain])
  | drainTicks => exact lower (.popTick hmain) rfl (popTick_toLeave h.ticks hmain)
  | poppedTick tick => exact lower (.onTick hmain) rfl (by simp [toLeave, hmain])
  | drainExecs => exact lower (.popExec hmain) rfl (popExec_toLeave h.execs hmain)
  | poppedExec exec => exact lower (.onExecution hmain) rfl (by simp [toLeave, hmain])
  | _ => exact absurd (by simp [toLeave, hmain]) hloop

/-- The steps, at most, in which the feed thread comes to its end or back to `recvfrom`. -/
def feedLeft (double : List UInt8 → ℚ) (p : Process tickCap execCap) : ℕ :=
  match p.feed with
  | .setup => 3
  | .test => 2
  | .recvfrom => 1
  | .received buffer => 4 + 4 * (route double buffer).length
  | .calling => 3 + p.ticks.toPush
  | .ended => 0

/-- What is left for the main thread after the loop. -/
def joinsLeft (p : Process tickCap execCap) : ℕ :=
  match p.main with
  | .stopMetrics => 4
  | .stopping => 3
  | .joinFeed => 2
  | .joinExec => 1
  | _ => 0

/-- The steps, at most, of all the threads after the loop. -/
def toReport (double : List UInt8 → ℚ) (p : Process tickCap execCap) : ℕ :=
  p.joinsLeft + p.feedLeft double + p.execs.toPush

theorem exists_feed_step (double : List UInt8 → ℚ) (hended : p.feed ≠ .ended)
    (hrecv : p.feed ≠ .recvfrom) : ∃ e p', p.Step double e p' ∧ e.returned? = none ∧ p'.main = p.main ∧
      p'.execs = p.execs ∧ p'.feedLeft double < p.feedLeft double := by
  cases hfeed : p.feed with
  | setup => exact ⟨_, _, .launch hfeed, rfl, rfl, rfl, by simp [feedLeft, hfeed]⟩
  | test =>
    cases hflag : p.receiving with
    | true => exact ⟨_, _, .enter hfeed hflag, rfl, rfl, rfl, by simp [feedLeft, hfeed]⟩
    | false => exact ⟨_, _, .exit hfeed hflag, rfl, rfl, rfl, by simp [feedLeft, hfeed]⟩
  | recvfrom => exact absurd hfeed hrecv
  | received buffer =>
    by_cases hshort : buffer.length < sizeofTick
    · refine ⟨_, _, .malformed hfeed hshort, rfl, rfl, rfl, ?_⟩
      simp only [feedLeft, hfeed]
      omega
    · refine ⟨_, _, .dispatch hfeed hshort, rfl, rfl, rfl, ?_⟩
      simp only [feedLeft, hfeed, Lane.toPush]
      omega
  | calling =>
    cases hpending : p.ticks.pending with
    | nil =>
      refine ⟨_, _, .called hfeed hpending, rfl, rfl, rfl, ?_⟩
      simp only [feedLeft, hfeed]
      omega
    | cons tick rest =>
      refine ⟨_, _, .offer hfeed hpending, rfl, rfl, rfl, ?_⟩
      have hlt := Lane.push_toPush hpending
      simp only [feedLeft, hfeed]
      omega
  | ended => exact absurd hfeed hended

/-- **After the loop nothing is held up** but by `recvfrom`, once `metricsServer.stop()` has returned. -/
theorem exists_end_step (double : List UInt8 → ℚ) (hleft : p.toLeave = 0) (hreport : p.main ≠ .reported)
    (hrecv : ¬ (p.main = .joinFeed ∧ p.feed = .recvfrom ∧ p.execs.pending = [])) :
    ∃ e p', p.Step double e p' ∧ e.returned? = none ∧ p'.toLeave = 0 ∧
      p'.toReport double < p.toReport double := by
  cases hpending : p.execs.pending with
  | cons exec rest =>
    have hlt := Lane.push_toPush hpending
    refine ⟨_, _, .emit hpending, rfl, ?_, ?_⟩
    · unfold toLeave at hleft ⊢
      cases hmain : p.main <;> simp [hmain] at hleft ⊢
    · simp only [toReport, joinsLeft, feedLeft]
      omega
  | nil =>
    cases hmain : p.main with
    | stopMetrics =>
      refine ⟨_, _, .metricsStopped hmain, rfl, rfl, ?_⟩
      simp only [toReport, joinsLeft, hmain, feedLeft]
      omega
    | stopping =>
      refine ⟨_, _, .stop hmain, rfl, rfl, ?_⟩
      simp only [toReport, joinsLeft, hmain, feedLeft]
      omega
    | joinFeed =>
      by_cases hended : p.feed = .ended
      · refine ⟨_, _, .joinFeed hmain hended, rfl, rfl, ?_⟩
        simp only [toReport, joinsLeft, hmain, feedLeft]
        omega
      · obtain ⟨e, p', hs, hquiet, hmain', hexecs', hlt⟩ :=
          exists_feed_step double hended fun hfeed => hrecv ⟨hmain, hfeed, hpending⟩
        refine ⟨e, p', hs, hquiet, ?_, ?_⟩
        · simp only [toLeave, hmain', hmain]
        · simp only [toReport, joinsLeft, hmain', hmain, hexecs']
          omega
    | joinExec =>
      refine ⟨_, _, .report hmain hpending, rfl, rfl, ?_⟩
      simp only [toReport, joinsLeft, hmain, feedLeft]
      omega
    | reported => exact absurd hmain hreport
    | _ => simp [toLeave, hmain] at hleft

theorem returns_eq_nil (h : ∀ e ∈ tr, ProcessEvent.returned? e = none) :
    ProcessEvent.returns tr = [] := List.filterMap_eq_nil_iff.mpr h

theorem Step.metricsLeft (hs : p.Step double e p') :
    e.stopsMetrics.toNat + p'.main.metricsLeft ≤ p.main.metricsLeft := by
  have inside : ∀ {d : ProcessEvent} {main' : MainLoop}, d.stopsMetrics = false → p.main.metricsLeft = 1 →
      d.stopsMetrics.toNat + main'.metricsLeft ≤ p.main.metricsLeft := by
    intro d main' hd hmain
    rw [hd, hmain, Bool.toNat_false, Nat.zero_add]
    cases main' <;> simp [MainLoop.metricsLeft]
  cases hs with
  | cycle hmain _ => exact inside rfl (by rw [hmain]; rfl)
  | popTick hmain => exact inside rfl (by rw [hmain]; rfl)
  | onTick hmain => exact inside rfl (by rw [hmain]; rfl)
  | popExec hmain => exact inside rfl (by rw [hmain]; rfl)
  | onExecution hmain => exact inside rfl (by rw [hmain]; rfl)
  | leave hmain _ => exact inside rfl (by rw [hmain]; rfl)
  | metricsStopped hmain =>
    rw [hmain]
    exact le_rfl
  | stop _ => exact Nat.zero_le _
  | joinFeed _ _ => exact Nat.zero_le _
  | report _ _ => exact Nat.zero_le _
  | _ => exact (Nat.zero_add _).le

theorem countP_stopsMetrics_le {s : Process tickCap execCap} (h : Exec (Step double) p tr s) :
    tr.countP ProcessEvent.stopsMetrics ≤ 1 := by
  have hpaid : (tr.map fun e => e.stopsMetrics.toNat).sum + s.main.metricsLeft ≤ p.main.metricsLeft :=
    h.budget (I := fun _ => True) trivial fun _ _ _ _ hs => ⟨trivial, hs.metricsLeft⟩
  have hone : p.main.metricsLeft ≤ 1 := by cases p.main <;> simp [MainLoop.metricsLeft]
  rw [sum_map_toNat] at hpaid
  omega

/-- **The process can always end.** Wherever it is, it can get to its report, and all that is needed for it
from outside is at most one return of `recvfrom` and at most one of `metricsServer.stop()`. -/
theorem report_reachable (h : Exec (Step double) (boot tickBuffer execBuffer execs) tr p) :
    ∃ tr' s, Exec (Step double) p tr' s ∧ s.main = .reported ∧
      (ProcessEvent.returns tr').length ≤ 1 ∧ tr'.countP ProcessEvent.stopsMetrics ≤ 1 := by
  obtain ⟨hticks, hexecs⟩ := exec_inv h
  have hsignal : Exec (Step double) p [.trading .silent] { p with running := false } :=
    Exec.nil.snoc (.signal p)
  -- out of the loop
  have hout : ∃ tr₁ p₁, Exec (Step double) { p with running := false } tr₁ p₁ ∧
      (∀ e ∈ tr₁, e.returned? = none) ∧ p₁.Signalled ∧ p₁.toLeave = 0 :=
    Exec.reaches ⟨rfl, hticks, hexecs⟩ fun t ht hloop => ht.exists_step double hloop
  obtain ⟨tr₁, p₁, hexec₁, hquiet₁, -, hleft⟩ := hout
  -- to the report, or to where all wait for the feed thread, and it for a datagram
  have hend : ∃ tr₂ p₂, Exec (Step double) p₁ tr₂ p₂ ∧ (∀ e ∈ tr₂, e.returned? = none) ∧
      p₂.toLeave = 0 ∧ (p₂.main = .reported ∨
        (p₂.main = .joinFeed ∧ p₂.feed = .recvfrom ∧ p₂.execs.pending = [])) :=
    Exec.reaches hleft fun t ht hgoal =>
      exists_end_step double ht (fun e => hgoal (Or.inl e)) fun e => hgoal (Or.inr e)
  obtain ⟨tr₂, p₂, hexec₂, hquiet₂, -, hgoal⟩ := hend
  have hrun := hsignal.trans (hexec₁.trans hexec₂)
  have hreturns : ProcessEvent.returns ([.trading .silent] ++ (tr₁ ++ tr₂)) = [] := by
    refine returns_eq_nil fun e he => ?_
    rcases List.mem_append.mp he with he | he
    · rw [List.mem_singleton.mp he]
      rfl
    · exact (List.mem_append.mp he).elim (hquiet₁ e) (hquiet₂ e)
  rcases hgoal with hmain | ⟨hmain, hfeed, hpending⟩
  · refine ⟨_, p₂, hrun, hmain, ?_, countP_stopsMetrics_le hrun⟩
    rw [hreturns]
    exact Nat.zero_le _
  · have hlast := hrun |>.snoc (.failed hfeed) |>.snoc (.joinFeed hmain rfl) |>.snoc (.report rfl hpending)
    refine ⟨_, _, hlast, rfl, ?_, countP_stopsMetrics_le hlast⟩
    rw [ProcessEvent.returns_snoc, ProcessEvent.returns_snoc, ProcessEvent.returns_snoc, hreturns]
    exact le_rfl

/-- From the start, with one execution to come. -/
theorem report_reachable_boot :
    ∃ tr, ∃ p : Process 2 2, Exec (Step fun _ => 0) (boot (fun _ => ⟨0, 0, 0, 0, 0⟩)
      (fun _ => ⟨0, 0, 0, 0, 0, .buy, 0, 0⟩) [⟨0, 0, 0, 1, 5, .buy, 0, 0⟩]) tr p ∧ p.main = .reported := by
  obtain ⟨tr, p, hexec, hmain, -⟩ := report_reachable (.nil : Exec (Step fun _ => 0)
    (boot (fun _ => ⟨0, 0, 0, 0, 0⟩) (fun _ => ⟨0, 0, 0, 0, 0, .buy, 0, 0⟩)
      [⟨0, 0, 0, 1, 5, .buy, 0, 0⟩] : Process 2 2) [] _)
  exact ⟨tr, p, hexec, hmain⟩

end Process

end TradingSim
