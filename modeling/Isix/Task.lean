import Isix.Mutex

/-!
# Isix.Task

`libisix/kernel/task.c`, `isix_wait` of `ostime.c`, and the two functions of
`scheduler.c` that take a task out of the system: `_isixp_add_kill_or_set_suspend`
and `cleanup_tasks`.

A `NULL` task argument means the current task where the source allows it.
-/

namespace Isix

open Function (update)
open Kernel

variable [Config]

/-! ## creation and priority -/

/-- The control block `isix_task_create` fills in. -/
def taskBlock (priority : Nat) (suspended ref : Bool) : Task :=
  { Task.zero with
    prio := priority
    realPrio := priority
    state := if suspended then .suspend else .created
    refcnt := if ref then 1 else 0 }

/-- The part of `isix_task_create` that sets up the task. -/
def allocTask (priority : Nat) (suspended ref : Bool) (s : Kernel) : Kernel :=
  { s with
    ntask := s.ntask + 1
    task := update s.task s.ntask (taskBlock priority suspended ref)
    lists := update s.lists (.exit s.ntask) []
    inode := update s.inode s.ntask none }

/-- `isix_task_create`, with the flags `isix_task_flag_suspended` and
`isix_task_flag_ref` -/
def isixTaskCreate (priority : Nat) (suspended ref : Bool) (s : Kernel) : Reply :=
  if Config.numberOfPriorities - 1 < priority ∧ priority ≠ Config.numberOfPriorities then
    .ok (s, .handle none)
  else
    let t := s.ntask
    let s := allocTask priority suspended ref s
    if suspended then .ok (s, .handle (some t))
    else do
      let s ← isixpWakeupTask t isixEok s
      pure (s, .handle (some t))

/-- `isix_task_change_prio` -/
def isixTaskChangePrio (task : Option TaskId) (newPrio : Nat) (s : Kernel) : Reply :=
  if s.schrun = false then .ok (s, .code isixEstate)
  else if Config.numberOfPriorities - 1 < newPrio then .ok (s, .code isixEnoprio)
  else
    let t := task.getD s.currp
    let realPrio := (s.task t).realPrio
    if realPrio = newPrio then .ok (s, .code isixEok)
    else
      let s := s.withTask t fun x => { x with realPrio := newPrio }
      if (s.task t).prio = realPrio ∨ prioGt newPrio (s.task t).prio then do
        let s ← isixpReallocatePriority t newPrio s
        pure ({ s with pendsv := true }, .code realPrio)
      else .ok (s, .code realPrio)

/-! ## kill, suspend and resume -/

/-- The part of `_isixp_add_kill_or_set_suspend` that takes the task from the
list its state names. -/
def leaveQueue (t : TaskId) (suspend : Bool) (s : Kernel) : Res :=
  match (s.task t).state with
  | .ready | .running => deleteFromReadyList t s
  | .wtevt | .wtexit => do
    let s ← s.listDelete t
    pure (s.withTask t fun x => { x with waitAborted := suspend })
  | .wtsem => do
    let s ← semFastSignal t s
    let s ← s.listDelete t
    pure (s.withTask t fun x => { x with waitAborted := suspend })
  | .wtcond => s.listDelete t
  | .wtmtx =>
    match (s.task t).obj with
    | .mtx m => do
      let s ← s.listDelete t
      let s ← isixpMutexWaiterRemoved m s
      pure (s.withTask t fun x => { x with waitAborted := suspend })
    | _ => .error .wrongUnionMember
  | _ => .ok s

/-- `_isixp_add_kill_or_set_suspend` -/
def isixpAddKillOrSetSuspend (t : TaskId) (suspend : Bool) (s : Kernel) : Res := do
  let s ← leaveQueue t suspend (s.timeDeleteIfAssigned t)
  if suspend then pure (s.withTask t fun x => { x with state := .suspend })
  else
    let s := (s.withTask t fun x => { x with state := .zombie }).listInsertEnd .zombie t
    pure { s with numberOfTaskDeleted := s.numberOfTaskDeleted + 1 }

/-- The body of the loop of `wake_exit_waiters`; the second component is
`woken`. -/
def wakeExitOne (msg : Int) (acc : Kernel × Option TaskId) (t : TaskId) :
    Except Panic (Kernel × Option TaskId) := do
  let (s, woken) := acc
  let s ← removeAndWakeup t msg s
  pure (s, match woken with
    | none => some t
    | some w => if prioGt (s.task t).prio (s.task w).prio then some t else some w)

/-- `wake_exit_waiters` -/
def wakeExitWaiters (t : TaskId) (msg : Int) (s : Kernel) :
    Except Panic (Kernel × Option TaskId) :=
  (s.lists (.exit t)).foldlM (wakeExitOne msg) (s, none)

/-- The end of `isix_task_kill`: a task that killed itself gives up the CPU. -/
def leaveKill (t : TaskId) (woken : Option TaskId) (s : Kernel) : Res :=
  if t = s.currp then .ok (isixYield s) else leaveCritical none woken s

/-- `isix_task_kill` -/
def isixTaskKill (task : Option TaskId) (s : Kernel) : Reply :=
  let t := task.getD s.currp
  if (s.task t).state = .zombie ∨ (s.task t).state = .exited then .ok (s, .done)
  else do
    let s ← isixpMutexUnlockAllInTask t s
    let (s, woken) ← wakeExitWaiters t (if t = s.currp then isixEok else isixEdestroy) s
    let s ← isixpAddKillOrSetSuspend t false s
    let s ← leaveKill t woken s
    pure (s, .done)

/-- `isix_task_suspend` -/
def isixTaskSuspend (task : Option TaskId) (s : Kernel) : Reply :=
  let t := task.getD s.currp
  if (s.task t).state = .zombie ∨ (s.task t).state = .exited ∨ (s.task t).state = .suspend then
    .ok (s, .done)
  else do
    let s ← isixpAddKillOrSetSuspend t true s
    pure (if t = s.currp then isixYield s else s, .done)

/-- `isix_task_resume` -/
def isixTaskResume (task : Option TaskId) (s : Kernel) : Reply :=
  match task with
  | none => .ok (s, .code isixEinvarg)
  | some t =>
    if t = s.currp then .ok (s, .code isixEinvarg)
    else if (s.task t).state = .suspend then do
      let s ← isixpWakeupTask t isixEok s
      pure (s, .code isixEok)
    else .ok (s, .code isixEstate)

/-- `cleanup_tasks` -/
def cleanupTasks (s : Kernel) : Res :=
  if 0 < s.numberOfTaskDeleted then
    match s.lists .zombie with
    | [] => .ok s
    | t :: _ => do
      let s ← s.listDelete t
      let s := s.withTask t fun x => { x with state := .exited }
      pure { s with numberOfTaskDeleted := s.numberOfTaskDeleted - 1 }
  else .ok s

/-! ## references and waiting for a task -/

/-- `isix_task_ref` -/
def isixTaskRef (task : Option TaskId) (s : Kernel) : Reply :=
  let t := task.getD s.currp
  if osrefTMax ≤ (s.task t).refcnt then .ok (s, .code isixEinvarg)
  else .ok (s.withTask t fun x => { x with refcnt := x.refcnt + 1 }, .code isixEok)

/-- `isix_task_unref`, without the release of the control block -/
def isixTaskUnref (task : Option TaskId) (s : Kernel) : Reply :=
  let t := task.getD s.currp
  if (s.task t).refcnt < 1 then .ok (s, .code isixEinvarg)
  else .ok (s.withTask t fun x => { x with refcnt := x.refcnt - 1 }, .code isixEok)

/-- One round of the loop of `isix_task_wait_for`. -/
def waitForBody (t : TaskId) (s : Kernel) : Reply :=
  if (s.task t).refcnt = 0 then .ok (s, .code isixEnoref)
  else if (s.task t).state = .zombie ∨ (s.task t).state = .exited then .ok (s, .code isixEok)
  else do
    let s := s.withTask s.currp fun x => { x with waitAborted := false }
    let s ← isixpSetSleep .wtexit s
    let s := s.listInsertEnd (.exit t) s.currp
    let s := s.withTask s.currp fun x => { x with frame := .taskWaitFor t }
    pure (isixYield s, .blocked)

/-- `isix_task_wait_for` -/
def isixTaskWaitFor (task : Option TaskId) (s : Kernel) : Reply :=
  match task with
  | none => .ok (s, .code isixEinvarg)
  | some t => if t = s.currp then .ok (s, .code isixEinvarg) else waitForBody t s

/-- `isix_wait`; without the scheduler it waits in a loop and changes nothing -/
def isixWait (timeout : Nat) (s : Kernel) : Reply :=
  if s.schrun then do
    let s ← isixpSetSleepTimeout .sleeping timeout s
    let s := s.withTask s.currp fun x => { x with frame := .wait }
    pure ({ s with pendsv := true }, .blocked)
  else .ok (s, .code isixEok)

end Isix
