import TradingSim.OrderBook.Simulation
import TradingSim.Queue.Spsc
import TradingSim.Risk.Position

/-!
The threads of `main` around the queue of executions: the execution thread, which pushes what the
replay of the order file emits, the main loop, which drains the queue into the ledger while `running`
is set, the signal handler, which clears it, and the shutdown, which joins the thread and writes the
final report.

The main loop looks at the queue only before it looks at `running`. What is in the queue when it
leaves, and what the execution thread pushes after that, stays there. So the report accounts for
every pushed execution exactly when the queue is empty and the replay is over by the time the loop is
left (`shutdown_lossless_iff`).
-/

namespace TradingSim

open Lib

/-! ### The threads -/

/-- Where the main thread is. -/
inductive MainThread where
  /-- At `while (running)`. -/
  | top
  /-- In the loop that drains `tickQueue`. -/
  | drainTicks
  /-- In the loop that drains `execQueue`, in a call of `pop`. -/
  | drainExecs
  /-- With an execution popped, before `onExecution`. -/
  | popped (exec : Execution)
  /-- Past the loop, up to the end of `executionThread.join()`. -/
  | joining
  /-- The final report is written. -/
  | reported

/-- The execution that is popped and not yet applied. -/
def MainThread.inHand : MainThread → List Execution
  | .popped exec => [exec]
  | _ => []

/-- The loop is behind the main thread. -/
def MainThread.left : MainThread → Prop
  | .joining => True
  | .reported => True
  | _ => False

/-- `execQueue` with the threads on its two sides. -/
structure TradingSystem (cap : ℕ) where
  execQueue : SpscQueue Execution cap
  /-- The executions still to be pushed; the one that is being pushed is the first. -/
  emitting : List Execution
  droppedExecs : ℕ
  running : Bool
  main : MainThread
  positions : Except Fault PositionManager

/-- What a step of the system shows. -/
inductive SystemEvent where
  | queue (e : SpscEvent Execution)
  | booked (exec : Execution)
  | leave
  | silent

namespace SystemEvent

def queue? : SystemEvent → Option (SpscEvent Execution)
  | .queue e => some e
  | _ => none

def booked? : SystemEvent → Option Execution
  | .booked exec => some exec
  | _ => none

/-- The accesses to the queue. -/
def accesses (tr : List SystemEvent) : List (SpscEvent Execution) := tr.filterMap queue?

/-- The operations on the queue that were completed. -/
def queueOps (tr : List SystemEvent) : List (FifoOp Execution) := SpscEvent.ops (accesses tr)

theorem queueOps_snoc (tr : List SystemEvent) (e : SystemEvent) :
    queueOps (tr ++ [e]) = queueOps tr ++ (e.queue?.bind SpscEvent.op?).toList := by
  unfold queueOps accesses SpscEvent.ops
  rw [List.filterMap_append, List.filterMap_append]
  cases e with
  | queue d => cases hd : d.op? <;> simp [queue?, hd]
  | _ => rfl

/-- The executions that were successfully pushed. -/
def pushed (tr : List SystemEvent) : List Execution := Fifo.pushes (queueOps tr)

/-- The executions that were applied to the ledger. -/
def applied (tr : List SystemEvent) : List Execution := tr.filterMap booked?

theorem applied_snoc (tr : List SystemEvent) (e : SystemEvent) :
    applied (tr ++ [e]) = applied tr ++ e.booked?.toList := Fifo.filterMap_snoc ..

end SystemEvent

namespace TradingSystem

variable {cap : ℕ} [NeZero cap]

/-- The start: the replay will emit `execs`. -/
def init (buffer : Fin cap → Execution) (execs : List Execution) : TradingSystem cap where
  execQueue := SpscQueue.new buffer
  emitting := execs
  droppedExecs := 0
  running := true
  main := .top
  positions := .ok PositionManager.new

/-- The execution thread, in the callback for `exec`: the next access of `push`, and when the call
returns, the count of drops and the next execution. -/
def emit (s : TradingSystem cap) (exec : Execution) (rest : List Execution) :
    SpscEvent Execution × TradingSystem cap :=
  let (e, q) := s.execQueue.push exec
  (e, { s with
    execQueue := q
    emitting := match e with
      | .done _ => rest
      | _ => s.emitting
    droppedExecs := match e with
      | .done (.full _) => s.droppedExecs + 1
      | _ => s.droppedExecs })

/-- The main thread, in `while (execQueue.pop(e))`: the next access of `pop`, and when the call
returns, the body of the loop or the way back to its outer one. -/
def drain (s : TradingSystem cap) : SpscEvent Execution × TradingSystem cap :=
  let (e, q) := s.execQueue.pop
  (e, { s with
    execQueue := q
    main := match e with
      | .done (.pop exec) => .popped exec
      | .done _ => .top
      | _ => .drainExecs })

/-- One step of one of the threads, or the signal. -/
inductive Step : TradingSystem cap → SystemEvent → TradingSystem cap → Prop
  /-- `handleSignal`, at any moment. -/
  | signal (s : TradingSystem cap) : Step s .silent { s with running := false }
  | emit {s : TradingSystem cap} {exec : Execution} {rest : List Execution} :
      s.emitting = exec :: rest → Step s (.queue (s.emit exec rest).1) (s.emit exec rest).2
  | enter {s : TradingSystem cap} : s.main = .top → s.running = true →
      Step s .silent { s with main := .drainTicks }
  /-- `tickQueue.pop` returned a tick, for the risk engine. -/
  | tick {s : TradingSystem cap} : s.main = .drainTicks → Step s .silent s
  | ticksDone {s : TradingSystem cap} : s.main = .drainTicks →
      Step s .silent { s with main := .drainExecs }
  | drain {s : TradingSystem cap} : s.main = .drainExecs → Step s (.queue s.drain.1) s.drain.2
  | book {s : TradingSystem cap} {exec : Execution} : s.main = .popped exec →
      Step s (.booked exec) { s with
        positions := s.positions >>= fun positions => positions.onExecution exec
        main := .drainExecs }
  | leave {s : TradingSystem cap} : s.main = .top → s.running = false →
      Step s .leave { s with main := .joining }
  /-- The execution thread has ended, and the report is written. -/
  | report {s : TradingSystem cap} : s.main = .joining → s.emitting = [] →
      Step s .silent { s with main := .reported }

/-! ### The queue under the system -/

variable {s s' : TradingSystem cap} {e : SystemEvent} {tr : List SystemEvent}
  {buffer : Fin cap → Execution} {execs : List Execution}

theorem Step.access (hs : s.Step e s') :
    (∀ d, e.queue? = some d → s.execQueue.Step d s'.execQueue) ∧
      (e.queue? = none → s'.execQueue = s.execQueue) := by
  cases hs with
  | emit _ =>
    refine ⟨?_, by simp [SystemEvent.queue?]⟩
    rintro _ ⟨⟩
    exact SpscQueue.Step.producer _ _
  | drain _ =>
    refine ⟨?_, by simp [SystemEvent.queue?]⟩
    rintro _ ⟨⟩
    exact SpscQueue.Step.consumer _
  | _ => exact ⟨by simp [SystemEvent.queue?], fun _ => rfl⟩

/-- **The accesses of a run** are an execution of the queue. -/
theorem exec_queue (h : Exec Step (init buffer execs) tr s) :
    Exec SpscQueue.Step (SpscQueue.new buffer) (SystemEvent.accesses tr) s.execQueue :=
  (h.refine (I := fun _ => True) (f := execQueue) trivial fun _ _ _ _ hs => ⟨trivial, hs.access⟩).2

/-! ### The books -/

/-- What is known of a run with the completed operations `ops` on the queue, and `done` applied to the
ledger: the calls of `push` so far are for the executions emitted so far, and the one in progress for
the next; what was popped is applied, but for the one in hand; and the ledger is that of what was
applied. -/
structure Accounted (execs : List Execution) (ops : List (FifoOp Execution)) (done : List Execution)
    (s : TradingSystem cap) : Prop where
  offers : Fifo.offers ops ++ s.emitting = execs
  current : ∀ x, s.execQueue.producer.item? = some x → s.emitting.head? = some x
  dropped : (Fifo.pushes ops).length + s.droppedExecs = (Fifo.offers ops).length
  applied : done ++ s.main.inHand = Fifo.pops ops
  positions : s.positions = PositionManager.new.applyAll done

variable {ops : List (FifoOp Execution)} {done : List Execution}

namespace Accounted

theorem emit {exec : Execution} {rest : List Execution} (h : Accounted execs ops done s)
    (hnext : s.emitting = exec :: rest) :
    Accounted execs (ops ++ (s.emit exec rest).1.op?.toList) done (s.emit exec rest).2 := by
  have hoffers := h.offers
  rw [hnext] at hoffers
  have hevent := s.execQueue.push_event exec
  unfold TradingSystem.emit
  generalize s.execQueue.push exec = step at hevent ⊢
  obtain ⟨e, q⟩ := step
  rcases hevent with ⟨x, hitem, hidle, hev⟩ | ⟨hsilent, hitem⟩
  · -- the call returns, and it was for the first of the executions
    obtain rfl : exec = x := by simpa [hnext] using h.current x hitem
    have hnone : q.producer.item? = none := congrArg Producer.item? hidle
    have hdropped := h.dropped
    -- pushed or dropped, the execution counts as offered
    rcases hev with rfl | rfl
    all_goals
      refine ⟨?_, by simp [hnone], ?_, ?_, h.positions⟩
      · simpa [Fifo.offers_snoc, SpscEvent.op?, Fifo.offered?] using hoffers
      · simp [Fifo.offers_snoc, Fifo.pushes_snoc, SpscEvent.op?, Fifo.offered?, Fifo.pushed?]
        omega
      · simpa [Fifo.pops_snoc, SpscEvent.op?, Fifo.popped?] using h.applied
  · have hcur : ∀ x, q.producer.item? = some x → s.emitting.head? = some x := by
      intro x hx
      rw [hitem, Option.some_inj] at hx
      cases hp : s.execQueue.producer.item? with
      | none => simp [← hx, hp, hnext]
      | some y =>
        rw [← hx, hp]
        exact h.current y hp
    have hdone : ∀ op, e ≠ .done op := by
      rintro op rfl
      cases hsilent
    cases e with
    | done op => exact absurd rfl (hdone op)
    | _ =>
      simp only [SpscEvent.op?, Option.toList_none, List.append_nil]
      exact ⟨h.offers, hcur, h.dropped, h.applied, h.positions⟩

theorem drain (h : Accounted execs ops done s) (hmain : s.main = .drainExecs) :
    Accounted execs (ops ++ s.drain.1.op?.toList) done s.drain.2 := by
  have happlied : done = Fifo.pops ops := by simpa [hmain, MainThread.inHand] using h.applied
  have hevent := s.execQueue.pop_event
  unfold TradingSystem.drain
  generalize s.execQueue.pop = step at hevent ⊢
  obtain ⟨e, q⟩ := step
  obtain ⟨hprod, hev⟩ := hevent
  have hcur : ∀ x, q.producer.item? = some x → s.emitting.head? = some x := by
    intro x hx
    apply h.current x
    rwa [← hprod]
  rcases hev with ⟨x, rfl⟩ | rfl | hsilent
  iterate 2
    -- a pop that returns offers nothing to the queue, with an execution or without
    · constructor
      · simpa [Fifo.offers_snoc, SpscEvent.op?, Fifo.offered?] using h.offers
      · exact hcur
      · simpa [Fifo.offers_snoc, Fifo.pushes_snoc, SpscEvent.op?, Fifo.offered?, Fifo.pushed?]
          using h.dropped
      · simp [Fifo.pops_snoc, SpscEvent.op?, Fifo.popped?, MainThread.inHand, happlied]
      · exact h.positions
  · cases e with
    | done op => cases hsilent
    | _ =>
      simp only [SpscEvent.op?, Option.toList_none, List.append_nil]
      exact ⟨h.offers, hcur, h.dropped, by simp [MainThread.inHand, happlied], h.positions⟩

/-- **One step** of the system. -/
theorem step (h : Accounted execs ops done s) (hs : s.Step e s') :
    Accounted execs (ops ++ (e.queue?.bind SpscEvent.op?).toList) (done ++ e.booked?.toList) s' := by
  -- the steps that touch neither the queue nor the ledger
  have quiet : ∀ {running main}, MainThread.inHand main = s.main.inHand →
      Accounted execs (ops ++ []) (done ++ []) { s with running := running, main := main } := by
    intro running main hhand
    rw [List.append_nil, List.append_nil]
    exact ⟨h.offers, h.current, h.dropped, (congrArg _ hhand).trans h.applied, h.positions⟩
  cases hs with
  | signal => exact quiet rfl
  | emit hnext =>
    rw [show SystemEvent.booked? (.queue _) = none from rfl, Option.toList_none, List.append_nil]
    exact h.emit hnext
  | enter hmain _ => exact quiet (by rw [hmain]; rfl)
  | tick _ => exact quiet rfl
  | ticksDone hmain => exact quiet (by rw [hmain]; rfl)
  | drain hmain =>
    rw [show SystemEvent.booked? (.queue _) = none from rfl, Option.toList_none, List.append_nil]
    exact h.drain hmain
  | @book exec hmain =>
    have happlied := h.applied
    rw [hmain] at happlied
    rw [show SystemEvent.queue? (.booked exec) = none from rfl, Option.bind_none, Option.toList_none,
      List.append_nil]
    refine ⟨h.offers, h.current, h.dropped, ?_, ?_⟩
    · simpa [MainThread.inHand, SystemEvent.booked?] using happlied
    · rw [SystemEvent.booked?, Option.toList_some, PositionManager.applyAll_snoc, ← h.positions]
  | leave hmain _ => exact quiet (by rw [hmain]; rfl)
  | report hmain _ => exact quiet (by rw [hmain]; rfl)

end Accounted

/-- **Every run** is accounted for. -/
theorem exec_accounted (h : Exec Step (init buffer execs) tr s) :
    Accounted execs (SystemEvent.queueOps tr) (SystemEvent.applied tr) s := by
  refine h.rule (I := fun tr s =>
    Accounted execs (SystemEvent.queueOps tr) (SystemEvent.applied tr) s) ?_ ?_
  · exact ⟨rfl, by simp [init, SpscQueue.new, Producer.item?], rfl, rfl, rfl⟩
  · intro tr t e t' ih hs
    rw [SystemEvent.queueOps_snoc, SystemEvent.applied_snoc]
    exact ih.step hs

/-! ### After the loop -/

theorem Step.leaves (hs : s.Step e s') (h : ¬ s.main.left) (h' : s'.main.left) :
    e = .leave ∧ s.main.inHand = [] ∧ s'.execQueue = s.execQueue ∧ s'.emitting = s.emitting ∧
      s'.main ≠ .reported := by
  cases hs with
  | signal => exact absurd h' h
  | emit _ => exact absurd h' h
  | tick _ => exact absurd h' h
  | leave hmain _ => exact ⟨rfl, by rw [hmain]; rfl, rfl, rfl, by simp⟩
  | report hmain _ => exact absurd (by rw [hmain]; trivial) h
  | drain _ =>
    exfalso
    revert h'
    unfold TradingSystem.drain
    generalize s.execQueue.pop = step
    obtain ⟨d, q⟩ := step
    cases d with
    | done op => cases op <;> exact id
    | _ => exact id
  | _ => exact h'.elim

/-- What has become of the queue since the loop was left in the state `t`. -/
structure Abandoned (t s : TradingSystem cap) : Prop where
  left : s.main.left
  inv : s.execQueue.Inv
  /-- Nothing is taken out. -/
  grows : ∃ more, s.execQueue.stored = t.execQueue.stored ++ more
  /-- The next execution ends up in the queue. -/
  fills : s.execQueue.stored = [] → s.emitting = t.emitting
  /-- Without one the queue stays as it is. -/
  rests : t.emitting = [] → s.execQueue = t.execQueue ∧ s.emitting = []
  ended : s.main = .reported → s.emitting = []

namespace Abandoned

variable {t : TradingSystem cap}

theorem emit {exec : Execution} {rest : List Execution} (hcap : 2 ≤ cap) (h : Abandoned t s)
    (hnext : s.emitting = exec :: rest) : Abandoned t (s.emit exec rest).2 := by
  have htakes := SpscQueue.push_takes h.inv exec
  have hevent := s.execQueue.push_event exec
  obtain ⟨more, hmore⟩ := h.grows
  have hrests : t.emitting ≠ [] := fun hnil => by simpa [hnext] using (h.rests hnil).2
  have hended : s.main ≠ .reported := fun hrep => by simpa [hnext] using h.ended hrep
  unfold TradingSystem.emit
  generalize s.execQueue.push exec = step at htakes hevent ⊢
  obtain ⟨e, q⟩ := step
  rcases hevent with ⟨x, -, -, rfl | rfl⟩ | ⟨hsilent, -⟩
  · have hstored : q.stored = s.execQueue.stored ++ [x] := (htakes.op _ rfl).eq_of_push
    refine ⟨h.left, htakes.inv, ⟨more ++ [x], ?_⟩, ?_, fun hnil => absurd hnil hrests,
      fun hrep => absurd hrep hended⟩
    · simp [hstored, hmore]
    · intro hnil
      simp [hstored] at hnil
  · -- a full queue is not empty
    obtain ⟨hlen, hstored⟩ : s.execQueue.stored.length = cap - 1 ∧ q.stored = s.execQueue.stored :=
      (htakes.op _ rfl).eq_of_full
    refine ⟨h.left, htakes.inv, ⟨more, hstored.trans hmore⟩, ?_, fun hnil => absurd hnil hrests,
      fun hrep => absurd hrep hended⟩
    intro hnil
    have hzero : s.execQueue.stored.length = 0 := by rw [← hstored, hnil, List.length_nil]
    omega
  · have hstored : q.stored = s.execQueue.stored := htakes.silent hsilent
    cases e with
    | done op => cases hsilent
    | _ =>
      exact ⟨h.left, htakes.inv, ⟨more, hstored.trans hmore⟩,
        fun hnil => h.fills (hstored.symm.trans hnil), fun hnil => absurd hnil hrests,
        fun hrep => absurd hrep hended⟩

/-- **One step** of the system. -/
theorem step (hcap : 2 ≤ cap) (h : Abandoned t s) (hs : s.Step e s') : Abandoned t s' := by
  have hleft := h.left
  cases hs with
  | signal => exact ⟨h.left, h.inv, h.grows, h.fills, h.rests, h.ended⟩
  | emit hnext => exact h.emit hcap hnext
  | report _ hnil => exact ⟨trivial, h.inv, h.grows, h.fills, h.rests, fun _ => hnil⟩
  | enter hmain _ => exact (hmain ▸ hleft).elim
  | tick hmain => exact (hmain ▸ hleft).elim
  | ticksDone hmain => exact (hmain ▸ hleft).elim
  | drain hmain => exact (hmain ▸ hleft).elim
  | book hmain => exact (hmain ▸ hleft).elim
  | leave hmain _ => exact (hmain ▸ hleft).elim

/-- At the end of the replay the queue is empty exactly when it was and nothing was left to emit. -/
theorem stored_eq_nil (h : Abandoned t s) (hrep : s.main = .reported) :
    s.execQueue.stored = [] ↔ t.execQueue.stored = [] ∧ t.emitting = [] := by
  obtain ⟨more, hmore⟩ := h.grows
  constructor
  · intro hnil
    refine ⟨?_, ?_⟩
    · rw [hnil] at hmore
      exact (List.append_eq_nil_iff.mp hmore.symm).1
    · rw [← h.fills hnil]
      exact h.ended hrep
  · rintro ⟨hnil, hover⟩
    rw [(h.rests hover).1]
    exact hnil

end Abandoned

/-! ### The report -/

/-- `SpscQueue<Execution> execQueue(100'000)`. -/
abbrev execQueueCapacity : ℕ := 100000

/-- **The final report.** In every run that ends with it, whatever the replay emits: each execution
was pushed or counted as dropped, the ledger is that of the applied ones, and the loop was left in
some state `t`. The applied executions are the pushed ones, each once and in that order, if and only
if in `t` the queue was empty and the execution thread had nothing left to emit. -/
theorem shutdown_lossless_iff (buffer : Fin execQueueCapacity → Execution) (execs : List Execution)
    {tr : List SystemEvent} {s : TradingSystem execQueueCapacity}
    (h : Exec Step (init buffer execs) tr s) (hrep : s.main = .reported) :
    Fifo.offers (SystemEvent.queueOps tr) = execs ∧ (SystemEvent.pushed tr).Sublist execs ∧
    (SystemEvent.pushed tr).length + s.droppedExecs = execs.length ∧
    s.positions = PositionManager.new.applyAll (SystemEvent.applied tr) ∧
    ∃ tr₁ t t' tr₂, tr = tr₁ ++ .leave :: tr₂ ∧ Exec Step (init buffer execs) tr₁ t ∧
      t.Step .leave t' ∧ Exec Step t' tr₂ s ∧
      (SystemEvent.applied tr = SystemEvent.pushed tr ↔
        t.execQueue.stored = [] ∧ t.emitting = []) := by
  have hacct := exec_accounted h
  obtain ⟨hinv, hfifo⟩ := SpscQueue.exec_fifo (exec_queue h)
  have hhistory : SystemEvent.pushed tr = SystemEvent.applied tr ++ s.execQueue.stored := by
    have happlied : SystemEvent.applied tr = Fifo.pops (SystemEvent.queueOps tr) := by
      simpa [hrep, MainThread.inHand] using hacct.applied
    rw [happlied]
    exact Fifo.history hfifo
  obtain ⟨tr₁, e, tr₂, t, t', rfl, h₁, ht, hleave, ht', h₂⟩ :=
    h.enters (P := fun s => s.main.left) (fun hleft => hleft) (by rw [hrep]; trivial)
  obtain ⟨rfl, -, hqueue, hemit, hnrep⟩ := hleave.leaves ht ht'
  have hinv₁ := (SpscQueue.exec_fifo (exec_queue h₁)).1
  -- nothing is taken out of the queue from here on
  have habandoned : Abandoned t s := by
    refine h₂.rule (I := fun _ s => Abandoned t s) ?_ fun _ _ _ _ hI hs => hI.step (by norm_num) hs
    exact ⟨ht', hqueue ▸ hinv₁, ⟨[], by rw [hqueue, List.append_nil]⟩, fun _ => hemit,
      fun hnil => ⟨hqueue, hemit.trans hnil⟩, fun hrep' => absurd hrep' hnrep⟩
  have hover := habandoned.ended hrep
  have hoffers : Fifo.offers (SystemEvent.queueOps (tr₁ ++ .leave :: tr₂)) = execs := by
    rw [← hacct.offers, hover, List.append_nil]
  refine ⟨hoffers, ?_, ?_, hacct.positions, tr₁, t, t', tr₂, rfl, h₁, hleave, h₂, ?_⟩
  · rw [← hoffers]
    exact Fifo.pushes_sublist_offers _
  · rw [← hoffers]
    exact hacct.dropped
  · rw [← habandoned.stored_eq_nil hrep, hhistory]
    constructor
    · intro heq
      simpa using heq
    · intro hnil
      rw [hnil, List.append_nil]

theorem drained_run (buffer : Fin execQueueCapacity → Execution) (exec : Execution) :
    ∃ tr, ∃ s : TradingSystem execQueueCapacity, Exec Step (init buffer [exec]) tr s ∧
      s.main = .reported ∧ SystemEvent.pushed tr = [exec] ∧ SystemEvent.applied tr = [exec] := by
  let zero : Fin execQueueCapacity := ⟨0, by norm_num⟩
  let one : Fin execQueueCapacity := ⟨1, by norm_num⟩
  let full : SpscQueue Execution execQueueCapacity :=
    ⟨Function.update buffer zero exec, zero, one, .idle, .idle⟩
  let empty : SpscQueue Execution execQueueCapacity :=
    ⟨Function.update buffer zero exec, one, one, .idle, .idle⟩
  have hpush : Exec Step (init buffer [exec])
      [.queue (.pushCall exec), .queue .pushAccess, .queue .pushAccess, .queue (.done (.push exec))]
      ⟨full, [], 0, true, .top, .ok PositionManager.new⟩ :=
    Exec.nil |>.snoc (.emit rfl) |>.snoc (.emit rfl) |>.snoc (.emit rfl) |>.snoc (.emit rfl)
  have hpop : Exec Step ⟨full, [], 0, true, .top, .ok PositionManager.new⟩
      [.silent, .silent, .queue .popCall, .queue .popAccess, .queue .popAccess, .queue (.done (.pop exec))]
      ⟨empty, [], 0, true, .popped exec, .ok PositionManager.new⟩ :=
    Exec.nil |>.snoc (.enter rfl rfl) |>.snoc (.ticksDone rfl)
      |>.snoc (.drain rfl) |>.snoc (.drain rfl) |>.snoc (.drain rfl) |>.snoc (.drain rfl)
  have hbook : Exec Step ⟨empty, [], 0, true, .popped exec, .ok PositionManager.new⟩
      [.booked exec, .queue .popCall, .queue (.done .empty), .silent, .leave, .silent]
      ⟨empty, [], 0, false, .reported, PositionManager.new.onExecution exec⟩ :=
    Exec.nil |>.snoc (.book rfl) |>.snoc (.drain rfl) |>.snoc (.drain rfl)
      |>.snoc (.signal _) |>.snoc (.leave rfl rfl) |>.snoc (.report rfl rfl)
  exact ⟨_, _, (hpush.trans hpop).trans hbook, rfl, rfl, rfl⟩

/-- One execution is pushed and drained before the signal, and the report accounts for it. -/
theorem shutdown_lossless_iff_drained :
    let exec : Execution := ⟨0, 0, fun _ => 0, 100, 10, .buy, 0, 0⟩
    ∃ tr, ∃ s : TradingSystem execQueueCapacity, Exec Step (init (fun _ => exec) [exec]) tr s ∧
      s.main = .reported ∧ SystemEvent.applied tr = SystemEvent.pushed tr ∧
      (SystemEvent.pushed tr).length + s.droppedExecs = 1 := by
  intro exec
  obtain ⟨tr, s, hrun, hrep, hpushed, happlied⟩ := drained_run (fun _ => exec) exec
  exact ⟨tr, s, hrun, hrep, happlied.trans hpushed.symm,
    (shutdown_lossless_iff (fun _ => exec) [exec] hrun hrep).2.2.1⟩

theorem lost_run (buffer : Fin execQueueCapacity → Execution) (exec : Execution) :
    ∃ tr, ∃ s : TradingSystem execQueueCapacity, Exec Step (init buffer [exec]) tr s ∧
      s.main = .reported ∧ s.droppedExecs = 0 ∧ SystemEvent.pushed tr = [exec] ∧
      SystemEvent.applied tr = [] ∧ s.positions = .ok PositionManager.new :=
  ⟨_, _, Exec.nil |>.snoc (.signal _) |>.snoc (.leave rfl rfl)
    |>.snoc (.emit rfl) |>.snoc (.emit rfl) |>.snoc (.emit rfl) |>.snoc (.emit rfl)
    |>.snoc (.report rfl rfl), rfl, rfl, rfl, rfl, rfl⟩

/-- **An execution is lost.** Two orders of 10 at 100 trade once. The signal comes before the main loop
looks at `running` for the first time; the execution is pushed while the main thread waits for the
replay to end, and the report is written without it. -/
theorem shutdown_loses_execution :
    ∃ book log, (OrderBook.new fun _ => 0).acceptAll
        [Order.plain .sell 100 10, Order.plain .buy 100 10] = .ok (book, log) ∧
      ∃ tr, ∃ s : TradingSystem execQueueCapacity,
        Exec Step (init (fun _ => ⟨0, 0, 0, 0, 0, .buy, 0, 0⟩) (log.map Trade.exec)) tr s ∧
        s.main = .reported ∧ s.droppedExecs = 0 ∧ (SystemEvent.pushed tr).length = 1 ∧
        SystemEvent.pushed tr = log.map Trade.exec ∧ SystemEvent.applied tr = [] ∧
        s.positions = .ok PositionManager.new := by
  obtain ⟨book, v, log, hall, -, -, -, -, hfills⟩ := OrderBook.acceptAll_models (fun _ => 0)
    (show ∀ o ∈ [Order.plain .sell 100 10, Order.plain .buy 100 10], 0 < o.quantity by decide)
  have hone : log.map (fun tr => tr.exec.fill) =
      [Textbook.fill (Order.plain .buy 100 10).limit (Order.plain .sell 100 10).limit 10] :=
    hfills.trans (by decide +kernel)
  obtain ⟨trade, _, rfl, -, hnil⟩ := List.map_eq_cons_iff.mp hone
  rw [List.map_eq_nil_iff] at hnil
  subst hnil
  obtain ⟨tr, s, hrun, hrep, hdropped, hpushed, happlied, hpos⟩ :=
    lost_run (fun _ => ⟨0, 0, 0, 0, 0, .buy, 0, 0⟩) trade.exec
  exact ⟨book, [trade], hall, tr, s, hrun, hrep, hdropped, by rw [hpushed]; rfl, hpushed, happlied,
    hpos⟩

end TradingSystem

end TradingSim
