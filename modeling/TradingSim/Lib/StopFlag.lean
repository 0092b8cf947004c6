import TradingSim.Lib.Transition

/-!
A worker that goes round its loop until another thread clears its flag, where it is the worker itself that
sets the flag before the loop:

    worker:  set-up;  running = true;  while (running && more) body;
    other:   running = false;

The other thread clears the flag once, at any moment. If the worker has set it by then, the request is
heeded: the worker finishes the round it is in and begins no other, so that what it still does is paid
for by what is left of one round (`Heeded.cost_le`), and it comes to its end unless a step of its body
waits (`exists_step`). If the worker is still in its set-up, the flag is clear already, and the worker
sets it afterwards as if nothing had been asked.
-/

namespace TradingSim.Lib

/-- Where a worker is. -/
inductive Phase where
  /-- Before it sets the flag. -/
  | starting
  /-- At the test of the loop. -/
  | testing
  /-- In the body. -/
  | working
  | ended
  deriving DecidableEq

/-- Where a step of the body leads to: it stays in the body, or goes to the test, or breaks. -/
inductive Next where
  | stay
  | again
  | quit
  deriving DecidableEq

/-- The phase that comes next. -/
def Next.phase : Next → Phase
  | .stay => .working
  | .again => .testing
  | .quit => .ended

/-- The loop of a worker on data `W`, with the steps of the body labelled. -/
structure StopLoop (W ε : Type*) where
  /-- The set-up comes to the store of the flag. -/
  ready : W → Prop
  /-- What the loop tests beside the flag. -/
  more : W → Prop
  /-- A step of the body. -/
  body : W → ε → Next → W → Prop
  /-- The body has a first step, and after a step in it another. -/
  enters : ∀ w, more w → ∃ e next w', body w e next w'
  stays : ∀ w e w', body w e .stay w' → ∃ e' next w'', body w' e' next w''

/-- The worker and the thread that stops it. -/
structure Worker (W : Type*) where
  running : Bool
  /-- The call that clears the flag has returned. -/
  stopped : Bool
  phase : Phase
  work : W

/-- What a step shows. -/
inductive StopEvent (ε : Type*) where
  | stop
  | silent
  | work (e : ε)

namespace StopEvent

variable {ε γ : Type*}

/-- What the work of a step shows, under `f`. -/
def shows (f : ε → List γ) : StopEvent ε → List γ
  | .work e => f e
  | _ => []

/-- What is shown in a run, in its order. -/
def collect (f : ε → List γ) (tr : List (StopEvent ε)) : List γ := tr.flatMap (shows f)

theorem collect_snoc (f : ε → List γ) (tr : List (StopEvent ε)) (e : StopEvent ε) :
    collect f (tr ++ [e]) = collect f tr ++ shows f e := by
  rw [collect, List.flatMap_append, List.flatMap_singleton]
  rfl

theorem length_collect (f : ε → List γ) (tr : List (StopEvent ε)) :
    (collect f tr).length = (tr.map fun e => (shows f e).length).sum := List.length_flatMap

end StopEvent

namespace Worker

variable {W ε : Type*}

def init (w : W) : Worker W := ⟨false, false, .starting, w⟩

/-- A step of the worker, or the stop. -/
inductive Step (P : StopLoop W ε) : Worker W → StopEvent ε → Worker W → Prop
  | stop {s : Worker W} : s.stopped = false →
      Step P s .stop { s with running := false, stopped := true }
  /-- The set-up fails, or finds nothing to do. -/
  | giveUp {s : Worker W} : s.phase = .starting → Step P s .silent { s with phase := .ended }
  | launch {s : Worker W} : s.phase = .starting → P.ready s.work →
      Step P s .silent { s with running := true, phase := .testing }
  | enter {s : Worker W} : s.phase = .testing → s.running = true → P.more s.work →
      Step P s .silent { s with phase := .working }
  | leave {s : Worker W} : s.phase = .testing → (s.running = false ∨ ¬ P.more s.work) →
      Step P s .silent { s with phase := .ended }
  | work {s : Worker W} {e : ε} {next : Next} {w : W} : s.phase = .working →
      P.body s.work e next w → Step P s (.work e) { s with phase := next.phase, work := w }

/-- The worker ends within `n` steps: it takes no more, and it has a step as long as it has not ended. -/
def EndsWithin (P : StopLoop W ε) (n : ℕ) (t : Worker W) : Prop :=
  ∀ tr s, Exec (Step P) t tr s → tr.length ≤ n ∧ (s.phase ≠ .ended → ∃ e s', Step P s e s')

variable {P : StopLoop W ε} {s s' t : Worker W} {e : StopEvent ε} {tr : List (StopEvent ε)} {w : W}

theorem Step.stop_frame (hs : Step P s .stop s') : s'.phase = s.phase ∧ s'.work = s.work := by
  cases hs with
  | stop _ => exact ⟨rfl, rfl⟩

theorem Step.eq_stop (hs : Step P s e s') (h : s.stopped = false) (h' : s'.stopped = true) : e = .stop := by
  cases hs with
  | stop _ => rfl
  | _ => exact absurd (h.symm.trans h') (by simp)

theorem Step.stay {d : ε} (hs : s.phase = .working) (h : P.body s.work d .stay w) :
    Step P s (.work d) { s with phase := .working, work := w } := .work hs h

theorem Step.again {d : ε} (hs : s.phase = .working) (h : P.body s.work d .again w) :
    Step P s (.work d) { s with phase := .testing, work := w } := .work hs h

theorem Step.quit {d : ε} (hs : s.phase = .working) (h : P.body s.work d .quit w) :
    Step P s (.work d) { s with phase := .ended, work := w } := .work hs h

theorem eq_of_starting (h : Exec (Step P) (init w) tr s) (hs : s.phase = .starting) :
    s.running = false ∧ s.work = w := by
  refine h.rule (I := fun _ s => s.phase = .starting → s.running = false ∧ s.work = w)
    (fun _ => ⟨rfl, rfl⟩) ?_ hs
  intro tr t e t' ih hstep hstart
  cases hstep with
  | stop _ => exact ⟨rfl, (ih hstart).2⟩
  | @work _ next _ _ _ => cases next <;> cases hstart
  | _ => cases hstart

theorem Step.stop_starting {t' : Worker W} (h : Exec (Step P) (init w) tr t) (hs : Step P t .stop t')
    (ht : t.phase = .starting) : t'.phase = .starting ∧ t'.work = w := by
  obtain ⟨hphase, hwork⟩ := hs.stop_frame
  exact ⟨hphase.trans ht, hwork.trans (eq_of_starting h ht).2⟩

/-! ### A stop in time -/

/-- The stop came after the worker had set its flag. -/
structure Heeded (s : Worker W) : Prop where
  running : s.running = false
  stopped : s.stopped = true
  phase : s.phase ≠ .starting

theorem Step.heeded (hs : Step P s .stop s') (h : s.phase ≠ .starting) : s'.Heeded := by
  cases hs with
  | stop _ => exact ⟨rfl, rfl, h⟩

/-- **What a worker can still do** after a stop in time: leave, or go on with its round. -/
theorem Heeded.step (h : s.Heeded) (hs : Step P s e s') : s'.Heeded ∧
    ((e = .silent ∧ s.phase = .testing ∧ s'.phase = .ended) ∨
      ∃ d next w, e = .work d ∧ s.phase = .working ∧ P.body s.work d next w ∧
        s'.phase = next.phase ∧ s'.work = w) := by
  have hrunning := h.running
  have hphase := h.phase
  cases hs with
  | stop hstopped =>
    rw [h.stopped] at hstopped
    cases hstopped
  | giveUp hstart => exact absurd hstart hphase
  | launch hstart _ => exact absurd hstart hphase
  | enter _ hrun _ =>
    rw [hrunning] at hrun
    cases hrun
  | leave htest _ => exact ⟨⟨hrunning, h.stopped, by simp⟩, Or.inl ⟨rfl, htest, rfl⟩⟩
  | @work d next w hwork hbody =>
    have hnext : next.phase ≠ .starting := by
      cases next <;> simp [Next.phase]
    exact ⟨⟨hrunning, h.stopped, hnext⟩, Or.inr ⟨d, next, w, rfl, hwork, hbody, rfl, rfl⟩⟩

/-- What is left to pay when one round may cost `left`, and leaving the loop `exit`. -/
def due (left : W → ℕ) (exit : ℕ) (s : Worker W) : ℕ :=
  match s.phase with
  | .working => left s.work + exit
  | .testing => exit
  | _ => 0

/-- **A stop in time costs no more than one round.** -/
theorem Heeded.cost_le {c : StopEvent ε → ℕ} {left : W → ℕ} (h : t.Heeded) (hexec : Exec (Step P) t tr s)
    (hbody : ∀ w d next w', P.body w d next w' →
      c (.work d) + (if next = .stay then left w' else 0) ≤ left w) :
    (tr.map c).sum ≤ left t.work + c .silent := by
  have hpaid : (tr.map c).sum + s.due left (c .silent) ≤ t.due left (c .silent) := by
    refine hexec.budget (I := Heeded) h ?_
    intro s e s' hs hstep
    obtain ⟨hs', ⟨rfl, htest, hend⟩ | ⟨d, next, w, rfl, hwork, hd, hnext, rfl⟩⟩ := hs.step hstep
    · refine ⟨hs', ?_⟩
      simp [due, htest, hend]
    · refine ⟨hs', ?_⟩
      have hle := hbody _ _ _ _ hd
      simp only [due, hwork, hnext]
      cases next with
      | stay =>
        rw [if_pos rfl] at hle
        simp only [Next.phase]
        omega
      | again =>
        simp only [Next.phase]
        omega
      | quit =>
        simp only [Next.phase]
        omega
  have hdue : t.due left (c .silent) ≤ left t.work + c .silent := by
    unfold due
    split <;> omega
  omega

theorem Heeded.length_collect_le {γ : Type*} {f : ε → List γ} {left : W → ℕ} (h : t.Heeded)
    (hexec : Exec (Step P) t tr s) (hbody : ∀ w d next w', P.body w d next w' →
      (f d).length + (if next = .stay then left w' else 0) ≤ left w) :
    (StopEvent.collect f tr).length ≤ left t.work := by
  rw [StopEvent.length_collect]
  exact h.cost_le hexec hbody

theorem Heeded.length_le {left : W → ℕ} (h : t.Heeded) (hexec : Exec (Step P) t tr s)
    (hbody : ∀ w d next w', P.body w d next w' →
      1 + (if next = .stay then left w' else 0) ≤ left w) : tr.length ≤ left t.work + 1 := by
  have hlength : (tr.map fun _ => 1).sum = tr.length := by simp
  rw [← hlength]
  exact h.cost_le hexec hbody

/-! ### No worker is stuck -/

/-- **A worker that has not ended has a step.** -/
theorem exists_step (h : Exec (Step P) (init w) tr s) (hend : s.phase ≠ .ended) :
    ∃ e s', Step P s e s' := by
  -- in its body it has a step there
  have hbody : s.phase = .working → ∃ e next w', P.body s.work e next w' := by
    refine h.rule (I := fun _ s => s.phase = .working → ∃ e next w', P.body s.work e next w')
      (fun hwork => by cases hwork) ?_
    intro tr t e t' ih hs hwork
    cases hs with
    | stop _ => exact ih hwork
    | enter _ _ hmore => exact P.enters _ hmore
    | @work _ next _ _ hd =>
      cases next with
      | stay => exact P.stays _ _ _ hd
      | again => cases hwork
      | quit => cases hwork
    | _ => cases hwork
  cases hphase : s.phase with
  | starting => exact ⟨_, _, .giveUp hphase⟩
  | testing =>
    by_cases hgo : s.running = true ∧ P.more s.work
    · exact ⟨_, _, .enter hphase hgo.1 hgo.2⟩
    · refine ⟨_, _, .leave hphase ?_⟩
      by_cases hrun : s.running = true
      · exact Or.inr fun hmore => hgo ⟨hrun, hmore⟩
      · exact Or.inl (by simpa using hrun)
  | working =>
    obtain ⟨e, next, w', hd⟩ := hbody hphase
    exact ⟨_, _, .work hphase hd⟩
  | ended => exact absurd hphase hend

end Worker

end TradingSim.Lib
