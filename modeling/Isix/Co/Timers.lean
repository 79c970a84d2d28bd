import Isix.Co.Scheduler
import Isix.Lib.Runs

/-!
# Isix.Co.Timers

The timeouts of a coroutine scheduler over a whole run: nodes are suspended
with and without a timeout, woken and resumed in any order, time passes, and
`process_due_timers` is called now and then.

Time is counted without bound; the scheduler sees 32 bits of it.  Beside the
scheduler the state keeps when each timeout is over and when
`process_due_timers` was called last.
-/

namespace Isix.Co

open Function (update)

structure TimerState where
  sched : Scheduler
  /-- the time at which the timeout of a node is over -/
  due : NodeId → Option Nat
  /-- the time of the last call of `process_due_timers` -/
  called : Nat

def TimerState.init (time : Nat) : TimerState := ⟨{ time }, fun _ => none, time⟩

def TimerState.awaiter (n : NodeId) (onAbort : Bool) (s : TimerState) : TimerState :=
  { s with sched := { s.sched with node := update s.sched.node n { s.sched.node n with onAbort } } }

def TimerState.children (n : NodeId) (kids : List Handle) (s : TimerState) : TimerState :=
  { s with sched := { s.sched with kids := update s.sched.kids n kids } }

def TimerState.suspend (n : NodeId) (h : Handle) (timeout : Nat) (timeoutResult : Int) (s : TimerState) : TimerState :=
  { s with
    sched := s.sched.suspend n h timeout timeoutResult
    due := update s.due n (if timeout = timeInfinite then none else some (s.sched.time + timeout)) }

inductive TimerEvent where
  /-- a wait or a sleep -/
  | suspend (n : NodeId) (h : Handle) (timeout : Nat) (timeoutResult : Int)
  /-- an awaiter is made -/
  | awaiter (n : NodeId) (onAbort : Bool)
  /-- the coroutines to cancel for the children of a wait -/
  | children (n : NodeId) (kids : List Handle)
  /-- a signal, the last child or the end of the primitive -/
  | wake (n : NodeId) (result : Int)
  | cancel (h : Handle)
  | resume
  | pass (ticks : Nat)
  | call
  deriving DecidableEq

/-- The steps of runs with timeouts up to `T` ticks and calls of
`process_due_timers` at most `G` ticks apart. -/
def timerStep (T G : Nat) : TimerEvent → TimerState → Option TimerState
  | .suspend n h timeout timeoutResult, s =>
    if (s.sched.node n).state = .idle ∧ timeout ≤ T then some (s.suspend n h timeout timeoutResult) else none
  | .awaiter n onAbort, s => if (s.sched.node n).state = .idle then some (s.awaiter n onAbort) else none
  | .children n kids, s => some (s.children n kids)
  | .wake n result, s => some { s with sched := s.sched.wake n result }
  | .cancel h, s => some { s with sched := s.sched.cancelWait s.sched.waiting.length h }
  | .resume, s => s.sched.resume.map fun p => { s with sched := p.2 }
  | .pass ticks, s =>
    if s.sched.time + ticks ≤ s.called + G then
      some { s with sched := { s.sched with time := s.sched.time + ticks } }
    else none
  | .call, s => some { s with sched := s.sched.processDueTimers, called := s.sched.time }

def TimerStep (T G : Nat) (e : TimerEvent) (s s' : TimerState) : Prop := timerStep T G e s = some s'

end Isix.Co
