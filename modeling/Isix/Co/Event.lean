import Isix.Co.Scheduler
import Isix.Lib.Runs

/-!
# Isix.Co.Event

`libisix/include/isix/cpp/co_event.hpp`: an event that coroutines wait on.  A
set from another thread or an interrupt latches the signal and queues the event
for dispatch in one critical section.  The thread that drives the scheduler may
apply its signal in place; it looks at the `queued` flag first, without a lock,
and an interrupt may come between the two.

The critical section of `await_ready` and the suspension behind it are one
step: what an interrupt does in between, it could do behind them.
-/

namespace Isix.Co.Event

open Function (update)

/-- Where the driving thread is in a call. -/
inductive Pc where
  | idle
  /-- in `set`, behind the test of `queued`, which was not set -/
  | direct (status : Int)
  /-- in `set`, on the way to `scheduler::signal` -/
  | inbox (status : Int)
  /-- in `dispatch`, behind the release of the link -/
  | dispatching
  deriving DecidableEq

/-- An `event` and its scheduler, and what happened so far. -/
structure State where
  sched : Scheduler
  signaled : Bool := false
  /-- `m_status`, 16 bits -/
  status : Int := isixEok
  /-- `m_signal.queued` -/
  queued : Bool := false
  pc : Pc := .idle
  /-- the status given to the last set that latched its signal -/
  latest : Int := isixEok
  /-- how often a signal was latched, and how often one was consumed -/
  latches : Nat := 0
  consumed : Nat := 0
  /-- what the waits returned -/
  returned : List Int := []

def State.init (time : Nat) : State := { sched := { time } }

/-- `m_waiters` -/
def State.waiters (s : State) : List NodeId := s.sched.waiters 0

/-! ## the calls -/

/-- `latch` -/
def latch (status : Int) (s : State) : State :=
  { s with signaled := true, status := toInt16 status, latest := status, latches := s.latches + 1 }

/-- `set` of another thread, `set_isr`: `scheduler::signal` with `latch`. -/
def set (status : Int) (s : State) : State := { latch status s with queued := true }

/-- The loop of `wake_all`: every waiter once, from the front. -/
def wakeAll (status : Int) (s : State) : State :=
  { s with sched := s.waiters.foldl (fun t n => t.wake n status) s.sched }

/-- `set` of the driving thread: the test of `queued`. -/
def setDriver (status : Int) (s : State) : State :=
  { s with pc := if s.queued then .inbox status else .direct status }

/-- The second half of it. -/
def apply (s : State) : State :=
  match s.pc with
  | .direct status => if s.waiters.isEmpty then { latch status s with pc := .idle } else { wakeAll status s with pc := .idle }
  | .inbox status => { set status s with pc := .idle }
  | _ => s

/-- `consume`, where the signal is latched -/
def consume (s : State) : State := { s with signaled := false, consumed := s.consumed + 1 }

/-- `dispatch`, behind the release of the link -/
def dispatch (s : State) : State :=
  if s.waiters.isEmpty ∨ s.signaled = false then { s with pc := .idle }
  else { wakeAll s.status (consume s) with pc := .idle }

def State.answer (result : Int) (s : State) : State := { s with returned := result :: s.returned }

/-- `co_await` of the event.  `cancelled` is the flag of the promise, `foreign` a
coroutine of another scheduler. -/
def await (n : NodeId) (h : Handle) (timeout : Nat) (cancelled foreign : Bool) (s : State) : State :=
  if s.signaled then (consume s).answer s.status
  else if timeout = timeDontwait then s.answer isixEtimeout
  else if cancelled then s.answer isixEcanceled
  else if foreign then s.answer isixEinvarg
  else { s with sched := s.sched.waitOn 0 n h timeout }

/-! ## runs -/

inductive Action where
  | set (status : Int)
  | setDriver (status : Int)
  | apply
  | await (n : NodeId) (h : Handle) (timeout : Nat) (cancelled foreign : Bool)
  /-- `drain_inbox` releases the link -/
  | release
  | dispatch
  | resume
  | background (b : Background)
  deriving DecidableEq

def step : Action → State → Option State
  | .set status, s => some (set status s)
  | .setDriver status, s => if s.pc = .idle then some (setDriver status s) else none
  | .apply, s => if s.pc ≠ .idle ∧ s.pc ≠ .dispatching then some (apply s) else none
  | .await n h timeout cancelled foreign, s =>
    if s.sched.running = some h ∧ (s.sched.node n).state = .idle ∧ s.pc = .idle then
      some (await n h timeout cancelled foreign s)
    else none
  | .release, s =>
    if s.queued = true ∧ s.pc = .idle ∧ s.sched.running = none then
      some { s with queued := false, pc := .dispatching }
    else none
  | .dispatch, s => if s.pc = .dispatching then some (dispatch s) else none
  | .resume, s =>
    if s.pc = .idle ∧ s.sched.running = none then
      s.sched.resume.map fun (n, sched) => { s with sched }.answer (s.sched.node n).result
    else none
  | .background b, s =>
    if s.pc = .idle ∨ b = .tick then (s.sched.background b).map fun sched => { s with sched } else none

def Step (a : Action) (s s' : State) : Prop := step a s = some s'

end Isix.Co.Event
