import Isix.Co.Timers

/-!
# Isix.Co.Vtimer

`step_impl` and the one vtimer of a scheduler.  Before it blocks on the event
the driving thread makes sure with `arm_timer` that the vtimer runs for the
deadline in front of the timer list.  A start is a command in the queue of the
timer worker of the kernel; the worker takes the commands in order and calls
`vtimer_cb`, which sets the timer bit, some time after the timeout is over.
`m_vt_armed` and `m_vt_deadline` are what the driving thread remembers of it.
-/

namespace Isix.Co

/-- A start command: the time at which it was given and its timeout. -/
structure Command where
  issued : Nat
  timeout : Nat
  deriving DecidableEq

/-- Where the driving thread is in `step_impl`. -/
inductive DriverPc where
  | outside
  /-- after the first `process_due_timers` -/
  | polled
  /-- in `isix_event_wait` -/
  | waiting (block : Bool)
  /-- behind it: the signals are dispatched and the ready coroutines resumed -/
  | resuming
  deriving DecidableEq

structure VtimerState where
  timers : TimerState
  timerBit : Bool := false
  vtArmed : Bool := false
  vtDeadline : Nat := 0
  /-- the queue of the timer worker -/
  commands : List Command := []
  /-- the command the vtimer runs for and the time at which the worker took it -/
  vtimer : Option (Command × Nat) := none
  pc : DriverPc := .outside
  /-- how often `vtimer_cb` was called, and how often a wait returned the timer bit -/
  fires : Nat := 0
  passes : Nat := 0

namespace VtimerState

def init (time : Nat) : VtimerState := { timers := .init time }

/-- The command that no other one comes after. -/
def newest (s : VtimerState) : Option Command := s.commands.getLast?.or (s.vtimer.map (·.1))

/-- `arm_timer` -/
def armTimer (s : VtimerState) : Bool × VtimerState :=
  let sched := s.timers.sched
  match sched.timers with
  | [] => (true, s)
  | n :: _ =>
    let deadline := (sched.node n).deadline
    let now := sched.jiffies
    if ¬Scheduler.timeBefore now deadline then (false, s)
    else if s.vtArmed ∧ s.vtDeadline = deadline then (true, s)
    else
      (true, { s with
        commands := s.commands ++ [⟨sched.time, toTick (deadline + tickMod - now)⟩]
        vtArmed := true
        vtDeadline := deadline })

/-- `process_due_timers` -/
def processDueTimers (s : VtimerState) : VtimerState :=
  { s with timers := { s.timers with sched := s.timers.sched.processDueTimers, called := s.timers.sched.time } }

def setSched (sched : Scheduler) (s : VtimerState) : VtimerState := { s with timers := { s.timers with sched } }

end VtimerState

inductive VtimerEvent where
  /-- `step_impl` up to the first `process_due_timers` -/
  | poll
  /-- up to the wait -/
  | arm (inboxEmpty : Bool)
  /-- the wait returns; `others` tells whether a bit beside the timer bit is set -/
  | wakeUp (others : Bool)
  | call
  | suspend (n : NodeId) (h : Handle) (timeout : Nat) (timeoutResult : Int)
  | awaiter (n : NodeId) (onAbort : Bool)
  | children (n : NodeId) (kids : List Handle)
  | wake (n : NodeId) (result : Int)
  | cancel (h : Handle)
  | resume
  | done
  /-- the timer worker takes a command -/
  | command
  /-- the vtimer expires -/
  | fire
  | pass (ticks : Nat)
  deriving DecidableEq

open VtimerState

def vtimerStep : VtimerEvent → VtimerState → Option VtimerState
  | .poll, s => if s.pc = .outside then some { s.processDueTimers with pc := .polled } else none
  | .arm inboxEmpty, s =>
    if s.pc = .polled then
      let block := s.timers.sched.ready.isEmpty && !s.timers.sched.waiting.isEmpty && inboxEmpty
      if block then
        let (armed, s) := s.armTimer
        some { s with pc := .waiting armed }
      else some { s with pc := .waiting false }
    else none
  | .wakeUp others, s =>
    if s.pc = .waiting false ∨ s.pc = .waiting true ∧ (s.timerBit ∨ others) then
      some { s with
        pc := .resuming
        timerBit := false
        vtArmed := s.vtArmed && !s.timerBit
        passes := if s.timerBit then s.passes + 1 else s.passes }
    else none
  | .call, s => if s.pc = .resuming then some s.processDueTimers else none
  | .suspend n h timeout timeoutResult, s =>
    if s.pc = .resuming ∧ (s.timers.sched.node n).state = .idle ∧ timeout < 2 ^ 31 then
      some { s with timers := s.timers.suspend n h timeout timeoutResult }
    else none
  | .awaiter n onAbort, s =>
    if s.pc = .resuming ∧ (s.timers.sched.node n).state = .idle then some { s with timers := s.timers.awaiter n onAbort }
    else none
  | .children n kids, s => if s.pc = .resuming then some { s with timers := s.timers.children n kids } else none
  | .wake n result, s =>
    if s.pc = .resuming ∨ s.pc = .outside then some (s.setSched (s.timers.sched.wake n result)) else none
  | .cancel h, s =>
    if s.pc = .resuming ∨ s.pc = .outside then
      some (s.setSched (s.timers.sched.cancelWait s.timers.sched.waiting.length h))
    else none
  | .resume, s => if s.pc = .resuming then s.timers.sched.resume.map fun p => s.setSched p.2 else none
  | .done, s => if s.pc = .resuming then some { s with pc := .outside } else none
  | .command, s =>
    match s.commands with
    | [] => none
    | c :: rest => some { s with commands := rest, vtimer := some (c, s.timers.sched.time) }
  | .fire, s =>
    match s.vtimer with
    | none => none
    | some (c, started) =>
      if started + c.timeout ≤ s.timers.sched.time then
        some { s with vtimer := none, timerBit := true, fires := s.fires + 1 }
      else none
  | .pass ticks, s => some (s.setSched { s.timers.sched with time := s.timers.sched.time + ticks })

def VtimerStep (e : VtimerEvent) (s s' : VtimerState) : Prop := vtimerStep e s = some s'

end Isix.Co
