import Isix.Scheduler

/-!
# Isix.Semaphore

`libisix/kernel/semaphore.c`: counting semaphores with an optional limit.

A negative value counts the waiting tasks.  The loop of `isix_sem_wait` has
one round per sleep, `semWaitBody`; its locals `timeout` and `start` live in
the frame of the sleeping task.
-/

namespace Isix

open Function (update)
open Kernel

/-- `a - b` on `ostick_t` -/
def tickSub (a b : Nat) : Nat := toTick (a + (tickMod - toTick b))

variable [Config]

def Kernel.setSem (x : SemId) (a : AtomicSem) (s : Kernel) : Kernel :=
  { s with sem := update s.sem x a }

/-- `isix_sem_create_limited` -/
def isixSemCreateLimited (val limitVal : Int) (s : Kernel) : Kernel × Answer :=
  if limitVal < 0 then (s, .handle none)
  else
    ({ s with
        nsem := s.nsem + 1
        sem := update s.sem s.nsem { value := val, limit := limitVal }
        lists := update s.lists (.sem s.nsem) [] },
      .handle (some s.nsem))

/-- The part of the loop of `isix_sem_wait` that goes to sleep; the
semaphore is already decremented. -/
def semSleep (x : SemId) (timeout start tout : Nat) (s : Kernel) : Reply := do
  let s := s.withTask s.currp fun y => { y with obj := .sem x, waitAborted := false }
  let s ← isixpSetSleepTimeout .wtsem tout s
  let s := addToPrioQueue (.sem x) s.currp s
  let s := s.withTask s.currp fun y => { y with frame := .semWait x timeout start }
  pure (isixYield s, .blocked)

/-- One round of the loop of `isix_sem_wait`. -/
def semWaitBody (x : SemId) (timeout start : Nat) (s : Kernel) : Reply :=
  let s := s.setSem x (s.sem x).dec
  if 0 ≤ (s.sem x).value then .ok (s, .code isixEok)
  else if timeout = timeInfinite then semSleep x timeout start timeout s
  else
    -- remaining time after the wait was interrupted by suspend
    let elapsed := tickSub s.jiffies start
    if timeout ≤ elapsed then .ok (s.setSem x (s.sem x).inc, .code isixEtimeout)
    else semSleep x timeout start (timeout - elapsed) s

/-- `isix_sem_wait`; `start` is the tick count read before the first critical
section. -/
def isixSemWait (sem : Option SemId) (timeout start : Nat) (s : Kernel) : Reply :=
  match sem with
  | none => .ok (s, .code isixEinvarg)
  | some x =>
    if timeout = timeDontwait then
      .ok (s.setSem x (s.sem x).trydec,
        .code (if 0 < (s.sem x).value then isixEok else isixEtimeout))
    else semWaitBody x timeout start s

/-- Wake the task a signal was given to. -/
def signalTask (t : TaskId) (ctx : Context) (s : Kernel) : Res :=
  match ctx with
  | none => isixpWakeupTask t isixEok s
  | some elapsed => isixpWakeupTaskI t isixEok elapsed s

/-- Wake the first waiter, already taken from the list. -/
def signalWaiter (t : TaskId) (ctx : Context) (s : Kernel) : Res :=
  if (s.task t).state = .wtsem then signalTask t ctx s else .ok s

/-- `_isixp_sem_signal`, without the event notification -/
def isixpSemSignal (sem : Option SemId) (ctx : Context) (s : Kernel) : Reply :=
  match sem with
  | none => .ok (s, .code isixEinvarg)
  | some x =>
    let s := s.setSem x (s.sem x).inc
    if (s.sem x).value ≤ 0 then
      match s.lists (.sem x) with
      | [] => .ok (s, .code isixEok)
      | t :: _ => do
        let s ← s.listDelete t
        let s ← signalWaiter t ctx s
        pure (s, .code isixEok)
    else .ok (s, .code isixEok)

/-- `isix_sem_trywait` -/
def isixSemTrywait (sem : Option SemId) (s : Kernel) : Reply :=
  match sem with
  | none => .ok (s, .code isixEinvarg)
  | some x =>
    .ok (s.setSem x (s.sem x).trydec, .code (if 0 < (s.sem x).value then isixEok else isixEbusy))

/-- The loop of `sem_wakeup_all` and `condvar_broadcast_msg`: wake all tasks
on a list with the same message. -/
def wakeupAll (w : WaitHead) (msg : Int) (s : Kernel) : Res :=
  (s.lists w).foldlM (fun s t => removeAndWakeup t msg s) s

/-- `sem_wakeup_all` -/
def semWakeupAll (x : SemId) (msg : Int) (ctx : Context) (s : Kernel) : Res := do
  let wkup := (s.lists (.sem x)).head?
  let s ← wakeupAll (.sem x) msg s
  leaveCritical ctx wkup s

/-- `_isixp_sem_reset` -/
def isixpSemReset (sem : Option SemId) (val : Int) (ctx : Context) (s : Kernel) : Reply :=
  match sem with
  | none => .ok (s, .code isixEinvarg)
  | some x => do
    let s := s.setSem x ((s.sem x).writeVal val)
    let s ← semWakeupAll x isixEreset ctx s
    pure (s, .code isixEok)

/-- `isix_sem_destroy` -/
def isixSemDestroy (sem : Option SemId) (s : Kernel) : Reply :=
  match sem with
  | none => .ok (s, .code isixEinvarg)
  | some x => do
    let s ← semWakeupAll x isixEdestroy none s
    pure (s, .code isixEok)

end Isix
