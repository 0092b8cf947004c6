import TradingSim.Lib.Events
import TradingSim.Lib.Transition

/-!
`MetricsServer`: the thread that accepts WebSocket clients, a detached thread for each of them, and the
owner of the server, who starts and stops it.

`stop()` clears the flag, closes the acceptor and joins the accept thread. From the moment it has cleared
the flag no client is added, a client that is not already about to write sends nothing more, and all
threads have a number of steps left that is known beforehand, under every schedule and whatever the network
does. Whether `stop()` returns is another matter: it waits for no client, but a call of `accept` that is
pending when the acceptor is closed returns by itself only where the close wakes it (`stop_winds_down`).
That it does is what the source says in a comment; of `close(2)` alone it is not true, so it is a parameter.
-/

namespace TradingSim

open Lib

/-- Where the thread of a client is in `serveClient`. -/
inductive ClientThread where
  /-- In `wss.accept()`. -/
  | handshake
  /-- At `while (running_)`. -/
  | test
  | sleeping
  /-- At `if (!running_) break`. -/
  | retest
  /-- Between the snapshot and the end of `wss.write`. -/
  | sending
  | closing
  | ended
  deriving DecidableEq

/-- Where the accept thread is in `acceptLoop`. -/
inductive AcceptThread where
  /-- There is no thread yet. -/
  | absent
  | test
  | accepting
  /-- `accept` has returned without an error, before `!running_` is looked at. -/
  | accepted
  | ended
  deriving DecidableEq

/-- Where the owner is in `start()` and `stop()`. -/
inductive Owner where
  | fresh
  /-- In `start()`, with the flag set. -/
  | starting
  | serving
  /-- In `stop()`, with the flag cleared. -/
  | closing
  | joining
  | stopped
  deriving DecidableEq

structure MetricsServer where
  running : Bool
  /-- `acceptor_` is closed. -/
  closed : Bool
  acceptThread : AcceptThread
  /-- The clients in the order they were accepted. -/
  clients : List ClientThread
  owner : Owner

/-- What a step shows. -/
inductive ServerEvent where
  /-- A step of a client, and whether a frame goes out with it. -/
  | client (i : ℕ) (frame : Bool)
  /-- A step of the accept thread on its own. -/
  | accept
  /-- `accept` returns for what has happened outside: a connection, or an error. -/
  | network
  /-- `running_.exchange(false)` finds the flag set. -/
  | clear
  | owner
  /-- A call of `stop()` that finds the flag clear. -/
  | again
  deriving DecidableEq

namespace ClientThread

/-- One step of `serveClient`, for a value of the flag: whether a frame goes out, and where it leads. -/
inductive Step (running : Bool) : ClientThread → Bool → ClientThread → Prop
  | upgrade : Step running .handshake false .test
  | badHandshake : Step running .handshake false .ended
  | enter : running = true → Step running .test false .sleeping
  | leave : running = false → Step running .test false .closing
  | wake : Step running .sleeping false .retest
  | snapshot : running = true → Step running .retest false .sending
  | quit : running = false → Step running .retest false .closing
  | written : Step running .sending true .test
  /-- The client has disconnected. -/
  | disconnected : Step running .sending false .closing
  /-- Whatever is thrown ends the thread. -/
  | thrown : Step running .sending false .ended
  | close : Step running .closing false .ended

/-- The steps that are left when the flag is clear. -/
def steps : ClientThread → ℕ
  | .handshake => 3
  | .test => 2
  | .sleeping => 3
  | .retest => 2
  | .sending => 3
  | .closing => 1
  | .ended => 0

variable {frame : Bool} {c c' : ClientThread}

end ClientThread

namespace MetricsServer

def new : MetricsServer := ⟨false, false, .absent, [], .fresh⟩

/-- One step of one of the threads, where `wakes` is whether the close of an acceptor makes a pending `accept`
return. A failure to listen ends the process. -/
inductive Step (wakes : Prop) : MetricsServer → ServerEvent → MetricsServer → Prop
  -- the owner
  | start {s : MetricsServer} : s.owner = .fresh →
      Step wakes s .owner { s with running := true, owner := .starting }
  | listen {s : MetricsServer} : s.owner = .starting →
      Step wakes s .owner { s with acceptThread := .test, owner := .serving }
  | clear {s : MetricsServer} : s.owner = .serving →
      Step wakes s .clear { s with running := false, owner := .closing }
  | close {s : MetricsServer} : s.owner = .closing →
      Step wakes s .owner { s with closed := true, owner := .joining }
  | join {s : MetricsServer} : s.owner = .joining → s.acceptThread = .ended →
      Step wakes s .owner { s with owner := .stopped }
  /-- `stop()` before `start()`, or once more. -/
  | again {s : MetricsServer} : s.owner = .fresh ∨ s.owner = .stopped → Step wakes s .again s
  -- the accept thread
  | enter {s : MetricsServer} : s.acceptThread = .test → s.running = true →
      Step wakes s .accept { s with acceptThread := .accepting }
  | exit {s : MetricsServer} : s.acceptThread = .test → s.running = false →
      Step wakes s .accept { s with acceptThread := .ended }
  /-- A client connects, be the acceptor closed in the meantime or not. -/
  | connect {s : MetricsServer} : s.acceptThread = .accepting →
      Step wakes s .network { s with acceptThread := .accepted }
  | failed {s : MetricsServer} : s.acceptThread = .accepting →
      Step wakes s .network { s with acceptThread := .ended }
  /-- `operation_aborted` -/
  | aborted {s : MetricsServer} : wakes → s.acceptThread = .accepting → s.closed = true →
      Step wakes s .accept { s with acceptThread := .ended }
  | refuse {s : MetricsServer} : s.acceptThread = .accepted → s.running = false →
      Step wakes s .accept { s with acceptThread := .ended }
  | spawn {s : MetricsServer} : s.acceptThread = .accepted → s.running = true →
      Step wakes s .accept { s with acceptThread := .test, clients := s.clients ++ [.handshake] }
  -- the clients
  | client {s : MetricsServer} {i : ℕ} {c c' : ClientThread} {frame : Bool} : s.clients[i]? = some c →
      ClientThread.Step s.running c frame c' →
      Step wakes s (.client i frame) { s with clients := s.clients.set i c' }

/-! ### After the flag is cleared -/

/-- `stop()` has cleared the flag. -/
structure Cleared (s : MetricsServer) : Prop where
  running : s.running = false
  owner : s.owner = .closing ∨ s.owner = .joining ∨ s.owner = .stopped
  closed : s.owner ≠ .closing → s.closed = true
  joined : s.owner = .stopped → s.acceptThread = .ended
  started : s.acceptThread ≠ .absent

/-- The steps that the accept thread can still take. -/
def acceptSteps (s : MetricsServer) : ℕ :=
  match s.acceptThread with
  | .test => 1
  | .accepting => 2
  | .accepted => 1
  | _ => 0

/-- The steps that the owner can still take. -/
def ownerSteps (s : MetricsServer) : ℕ :=
  match s.owner with
  | .closing => 2
  | .joining => 1
  | _ => 0

variable {wakes : Prop} {s s' t t' : MetricsServer} {e : ServerEvent} {tr tr' : List ServerEvent}

/-- **What can happen after the flag is cleared**: a step of the owner or of the accept thread, which
brings it nearer to its end, or of a client, and no client is added. -/
theorem Cleared.step (h : s.Cleared) (hs : s.Step wakes e s') : s'.Cleared ∧
    ((e = .again ∧ s' = s) ∨
      ((e = .owner ∨ e = .accept ∨ e = .network) ∧ s'.clients = s.clients ∧
        1 + s'.acceptSteps + s'.ownerSteps ≤ s.acceptSteps + s.ownerSteps) ∨
      ∃ i frame c c', e = .client i frame ∧ s.clients[i]? = some c ∧ ClientThread.Step false c frame c' ∧
        s'.clients = s.clients.set i c' ∧ s'.acceptSteps = s.acceptSteps ∧ s'.ownerSteps = s.ownerSteps) := by
  obtain ⟨hrunning, howner, hclosed, hjoined, hstarted⟩ := h
  obtain ⟨running, closed, acceptThread, clients, owner⟩ := s
  obtain rfl : running = false := hrunning
  cases hs with
  | start hfresh =>
    obtain rfl : owner = .fresh := hfresh
    simp at howner
  | listen hstart =>
    obtain rfl : owner = .starting := hstart
    simp at howner
  | clear hserving =>
    obtain rfl : owner = .serving := hserving
    simp at howner
  | close hclosing =>
    obtain rfl : owner = .closing := hclosing
    refine ⟨⟨rfl, by simp, fun _ => rfl, by simp, hstarted⟩, Or.inr (Or.inl ⟨Or.inl rfl, rfl, ?_⟩)⟩
    simp only [acceptSteps, ownerSteps]
    omega
  | join hjoining hended =>
    obtain rfl : owner = .joining := hjoining
    refine ⟨⟨rfl, by simp, fun _ => hclosed (by simp), fun _ => hended, hstarted⟩,
      Or.inr (Or.inl ⟨Or.inl rfl, rfl, ?_⟩)⟩
    simp only [acceptSteps, ownerSteps]
    omega
  | again _ => exact ⟨⟨rfl, howner, hclosed, hjoined, hstarted⟩, Or.inl ⟨rfl, rfl⟩⟩
  | enter _ hrun => cases hrun
  | exit htest _ =>
    obtain rfl : acceptThread = .test := htest
    refine ⟨⟨rfl, howner, hclosed, by simp, by simp⟩, Or.inr (Or.inl ⟨by simp, rfl, ?_⟩)⟩
    simp [acceptSteps, ownerSteps]
  | connect haccepting =>
    obtain rfl : acceptThread = .accepting := haccepting
    refine ⟨⟨rfl, howner, hclosed, fun hstop => ?_, by simp⟩, Or.inr (Or.inl ⟨by simp, rfl, ?_⟩)⟩
    · cases hjoined hstop
    · simp [acceptSteps, ownerSteps]
  | failed haccepting =>
    obtain rfl : acceptThread = .accepting := haccepting
    refine ⟨⟨rfl, howner, hclosed, by simp, by simp⟩, Or.inr (Or.inl ⟨by simp, rfl, ?_⟩)⟩
    simp [acceptSteps, ownerSteps]
  | aborted _ haccepting _ =>
    obtain rfl : acceptThread = .accepting := haccepting
    refine ⟨⟨rfl, howner, hclosed, by simp, by simp⟩, Or.inr (Or.inl ⟨by simp, rfl, ?_⟩)⟩
    simp [acceptSteps, ownerSteps]
  | refuse haccepted _ =>
    obtain rfl : acceptThread = .accepted := haccepted
    refine ⟨⟨rfl, howner, hclosed, by simp, by simp⟩, Or.inr (Or.inl ⟨by simp, rfl, ?_⟩)⟩
    simp [acceptSteps, ownerSteps]
  | spawn _ hrun => cases hrun
  | @client i c c' frame hi hc =>
    exact ⟨⟨rfl, howner, hclosed, hjoined, hstarted⟩,
      Or.inr (Or.inr ⟨i, frame, c, c', rfl, hi, hc, rfl, rfl, rfl⟩)⟩

end MetricsServer

end TradingSim
