import Isix.Types

/-!
# Isix.Scheduler

`libisix/kernel/scheduler.c`: the ready queue, the two timeout lists, sleep
and wake-up, the tick and the context switch.

Every function takes the state last and returns the new one, or the panic
of the `isix_bug` it runs into.  The critical sections themselves are not
modelled, a whole section is one step (see `Isix.System`); what is left of
`isix_exit_critical` in the functions below is only the decision whether
`_isix_port_yield` is called.
-/

namespace Isix

open Function (update)
open Intrusive (insertBefore)

/-- `_isixp_prio_gt` -/
def prioGt (p1 p2 : Nat) : Bool := decide (p1 < p2)

namespace Kernel

/-! ## list.h -/

/-- Write to the control block of `t`. -/
def withTask (t : TaskId) (g : Task → Task) (s : Kernel) : Kernel :=
  { s with task := update s.task t (g (s.task t)) }

/-- Unlink the `inode` of `t` from the list of `h`. -/
def unlink (t : TaskId) (h : Head) (s : Kernel) : Kernel :=
  match h with
  | .prio e => { s with ready := s.ready.erase e t, inode := update s.inode t none }
  | .wait w =>
    { s with lists := update s.lists w ((s.lists w).erase t), inode := update s.inode t none }

/-- `list_delete( &task->inode )` -/
def listDelete (t : TaskId) (s : Kernel) : Res :=
  match s.inode t with
  | none => .error .nullLink
  | some h => .ok (s.unlink t h)

/-- Link the `inode` of `t` so that the list of `w` becomes `l`. -/
def link (t : TaskId) (w : WaitHead) (l : List TaskId) (s : Kernel) : Kernel :=
  { s with lists := update s.lists w l, inode := update s.inode t (some (.wait w)) }

/-- `list_insert_end( list, &task->inode )` -/
def listInsertEnd (w : WaitHead) (t : TaskId) (s : Kernel) : Kernel :=
  s.link t w (s.lists w ++ [t])

/-- Unlink the `inode_time` of `t` from `wait_lists[b]`. -/
def unlinkTime (t : TaskId) (b : Bool) (s : Kernel) : Kernel :=
  { s.withTask t fun x => { x with inodeTime := none } with
    waitLists := update s.waitLists b ((s.waitLists b).erase t) }

/-- `list_delete( &task->inode_time )` -/
def timeDelete (t : TaskId) (s : Kernel) : Res :=
  match (s.task t).inodeTime with
  | none => .error .nullLink
  | some b => .ok (s.unlinkTime t b)

/-- `if( list_is_elem_assigned( &task->inode_time ) ) list_delete( &task->inode_time )` -/
def timeDeleteIfAssigned (t : TaskId) (s : Kernel) : Kernel :=
  match (s.task t).inodeTime with
  | none => s
  | some b => s.unlinkTime t b

end Kernel

open Kernel

variable [Config]

/-! ## the ready queue -/

/-- The state after `task` was linked at the end of the `task_list` of `e`,
`q` being the new ready queue. -/
def enterReady (t : TaskId) (e : ElemId) (q : Buckets.Queue TaskId) (s : Kernel) : Kernel :=
  { s.withTask t fun x => { x with state := .ready } with
    ready := q
    inode := update s.inode t (some (.prio e))
    prioElem := update s.prioElem t e }

/-- `add_ready_list`; the search for the element of the priority and
`alloc_task_ready_t` are `Buckets.Queue.add`. -/
def addReadyList (t : TaskId) (s : Kernel) : Res :=
  let p := (s.task t).prio
  if Config.numberOfPriorities < p then .error .invalidTaskPriority
  else if (s.task t).state = .ready ∨ (s.task t).state = .zombie then .error .addInReadyOrZombie
  else
    match s.ready.add p t with
    | none => .error .priorityListNotAvailable
    | some (e, q) => .ok (enterReady t e q s)

/-- `delete_from_ready_list`; the element of the task goes back to the pool
when its last task left. -/
def deleteFromReadyList (t : TaskId) (s : Kernel) : Res := do
  let s ← s.listDelete t
  pure { s with ready := s.ready.release (s.prioElem t) }

/-! ## the timeout lists -/

/-- `add_task_to_waiting_list` -/
def addTaskToWaitingList (t : TaskId) (timeout : Nat) (s : Kernel) : Kernel :=
  let j := toTick (s.jiffies + timeout)
  let b := if j < s.jiffies then !s.pWaitList else s.pWaitList
  { s.withTask t fun x => { x with jiffies := j, inodeTime := some b } with
    waitLists := update s.waitLists b
      (insertBefore (fun w => decide (j < (s.task w).jiffies)) t (s.waitLists b)) }

/-- `_isixp_add_to_prio_queue` -/
def addToPrioQueue (w : WaitHead) (t : TaskId) (s : Kernel) : Kernel :=
  s.link t w (insertBefore (fun x => prioGt (s.task t).prio (s.task x).prio) t (s.lists w))

/-- `_isixp_sem_fast_signal` on the semaphore the task waits for -/
def semFastSignal (t : TaskId) (s : Kernel) : Res :=
  match (s.task t).obj with
  | .sem x => .ok { s with sem := update s.sem x (s.sem x).inc }
  | _ => .error .wrongUnionMember

/-- The body of the loop of `expire_waiting_tasks` for one task. -/
def expireTask (t : TaskId) (s : Kernel) : Res := do
  let s ← s.timeDelete t
  let s ← match (s.task t).state with
    | .wtsem => do
      let s ← s.listDelete t
      let s ← semFastSignal t s
      pure (s.withTask t fun x => { x with obj := .dmsg isixEtimeout })
    | .wtevt | .wtcond => do
      let s ← s.listDelete t
      pure (s.withTask t fun x => { x with obj := .dmsg isixEtimeout })
    | _ => pure s
  addReadyList t s

/-- The loop of `expire_waiting_tasks`.  A round removes only the first task
from the list, so the tasks it meets are those on the list at its start. -/
def expireLoop (now : Nat) : List TaskId → Kernel → Res
  | [], s => .ok s
  | t :: rest, s =>
    if (s.task t).jiffies ≤ now then expireTask t s >>= expireLoop now rest else .ok s

/-- `expire_waiting_tasks` -/
def expireWaitingTasks (now : Nat) (s : Kernel) : Res :=
  expireLoop now (s.waitLists s.pWaitList) s

/-- `expire_waiting_tasks` when the scheduler runs. -/
def expireIfRunning (now : Nat) (s : Kernel) : Res :=
  if s.schrun then expireWaitingTasks now s else .ok s

/-- `advance_jiffies` up to the last tick before the wrap of the counter. -/
def reachWrap (toWrap : Nat) (s : Kernel) : Res :=
  if 1 < toWrap then
    expireIfRunning timeMaxTick { s with jiffies := toTick (s.jiffies + (toWrap - 1)) }
  else .ok s

/-- The tick of the wrap: the two timeout lists change places. -/
def passWrap (s : Kernel) : Res :=
  let s := { s with jiffies := toTick (s.jiffies + 1) }
  if s.schrun then expireWaitingTasks 0 { s with pWaitList := !s.pWaitList } else .ok s

/-- One round of `advance_jiffies` over the wrap of the counter. -/
def crossWrap (toWrap : Nat) (s : Kernel) : Res := reachWrap toWrap s >>= passWrap

/-- The loop of `advance_jiffies`: every round uses up at least one tick, so
`ticks` rounds are enough. -/
def advanceLoop : Nat → Nat → Kernel → Res
  | 0, _, s => .ok s
  | fuel + 1, ticks, s =>
    if ticks = 0 then .ok s
    else
      let toWrap := timeMaxTick - s.jiffies + 1
      if ticks < toWrap then
        expireIfRunning (toTick (s.jiffies + ticks))
          { s with jiffies := toTick (s.jiffies + ticks) }
      else crossWrap toWrap s >>= advanceLoop fuel (ticks - toWrap)

/-- `advance_jiffies` -/
def advanceJiffies (ticks : Nat) (s : Kernel) : Res := advanceLoop ticks ticks s

/-- Ticks that arrive while the scheduler is locked are counted and used by
the unlock. -/
def accountTicks (ticks : Nat) (s : Kernel) : Res :=
  if s.schedLock.value ≠ 0 then
    .ok { s with jiffiesSkipped := toInt32 (s.jiffiesSkipped + toInt32 ticks) }
  else advanceJiffies ticks s

/-- `catch_up_missed_ticks` -/
def catchUpMissedTicks (elapsed : Nat) (s : Kernel) : Res :=
  if elapsed = 0 ∨ s.schrun = false then .ok s else accountTicks elapsed s

/-- `_isixp_systimer_announce` -/
def isixpSystimerAnnounce (ticks : Nat) (s : Kernel) : Res := accountTicks ticks s

/-! ## the scheduler -/

/-- `isix_yield` -/
def isixYield (s : Kernel) : Kernel := if s.schrun then { s with pendsv := true } else s

/-- `_isixp_lock_scheduler` -/
def isixpLockScheduler (s : Kernel) : Kernel := { s with schedLock := s.schedLock.inc }

/-- The ticks counted while the scheduler was locked. -/
def advanceSkipped (s : Kernel) : Res :=
  let skipped := s.jiffiesSkipped
  let s := { s with jiffiesSkipped := 0 }
  if 0 < skipped then advanceJiffies skipped.toNat s else .ok s

/-- The context switch that was asked for while the scheduler was locked. -/
def yieldIfPending (s : Kernel) : Kernel :=
  if s.yieldPending then { s with pendsv := true, yieldPending := false } else s

/-- `_isixp_unlock_scheduler` -/
def isixpUnlockScheduler (s : Kernel) : Res :=
  let s := { s with schedLock := s.schedLock.dec }
  if s.schedLock.value < 0 then .error .unlockWithoutLock
  else if s.schedLock.value = 0 then do
    let s ← advanceSkipped s
    pure (yieldIfPending s)
  else .ok s

/-- A RUNNING task goes behind the other tasks of its priority. -/
def requeueCurrent (s : Kernel) : Res :=
  if (s.task s.currp).state = .running then
    if s.inode s.currp = none then .error .runningNotLinked
    else do
      let s ← s.listDelete s.currp
      let e := s.prioElem s.currp
      pure (enterReady s.currp e (s.ready.append e s.currp) s)
  else .ok s

/-- The first task of the first element becomes the current one. -/
def selectFirst (s : Kernel) : Res :=
  match s.ready.active with
  | [] => .error .emptyList
  | e :: _ =>
    match s.ready.items e with
    | [] => .error .emptyList
    | t :: _ =>
      if (s.task t).state ≠ .ready then .error .notInReadyState
      else if (s.task t).prio ≠ s.ready.prio e then .error .priorityMismatch
      else .ok { s.withTask t fun x => { x with state := .running } with currp := t }

/-- `_isixp_schedule` -/
def isixpSchedule (s : Kernel) : Res :=
  if s.schedLock.value ≠ 0 then .ok { s with yieldPending := true }
  else requeueCurrent s >>= selectFirst

/-- `_isixp_do_reschedule` -/
def isixpDoReschedule (t : TaskId) (s : Kernel) : Kernel :=
  if prioGt (s.task t).prio (s.task s.currp).prio then
    if s.schrun then { s with pendsv := true } else { s with currp := t }
  else s

/-- `_isixp_exit_critical_isr`; `elapsed` is what `_isix_port_systimer_resync`
returned, 0 when the system timer was not stopped. -/
def isixpExitCriticalIsr (woken : Option TaskId) (elapsed : Nat) (s : Kernel) : Res :=
  match woken with
  | none => .ok s
  | some w => do
    let s ← catchUpMissedTicks elapsed s
    pure (if s.schrun ∧ prioGt (s.task w).prio (s.task s.currp).prio then
      { s with pendsv := true } else s)

/-! ## sleep and wake-up -/

/-- `wakeup_task`, also `_isixp_wakeup_task_l` -/
def wakeupTask (t : TaskId) (msg : Int) (s : Kernel) : Res :=
  addReadyList t ((s.withTask t fun x => { x with obj := .dmsg msg }).timeDeleteIfAssigned t)

/-- `list_delete( &task->inode )` and `wakeup_task` -/
def removeAndWakeup (t : TaskId) (msg : Int) (s : Kernel) : Res :=
  s.listDelete t >>= wakeupTask t msg

/-- `_isixp_wakeup_task` -/
def isixpWakeupTask (t : TaskId) (msg : Int) (s : Kernel) : Res := do
  let s ← wakeupTask t msg s
  pure (isixpDoReschedule t s)

/-- `_isixp_wakeup_task_i` -/
def isixpWakeupTaskI (t : TaskId) (msg : Int) (elapsed : Nat) (s : Kernel) : Res := do
  let s ← wakeupTask t msg s
  isixpExitCriticalIsr (some t) elapsed s

/-- The context a service that exists in a task and an ISR variant is called
from; in an ISR with the result of the timer resynchronisation. -/
abbrev Context := Option Nat

/-- `_isixp_do_reschedule` or `_isixp_exit_critical_isr`, as the context asks;
a task that woke nobody only leaves the critical section. -/
def leaveCritical (ctx : Context) (woken : Option TaskId) (s : Kernel) : Res :=
  match ctx, woken with
  | none, some w => .ok (isixpDoReschedule w s)
  | none, none => .ok s
  | some elapsed, woken => isixpExitCriticalIsr woken elapsed s

/-- `_isixp_set_sleep` -/
def isixpSetSleep (newstate : ThrState) (s : Kernel) : Res := do
  let s ← deleteFromReadyList s.currp s
  pure (s.withTask s.currp fun x => { x with state := newstate })

/-- `_isixp_set_sleep_timeout` -/
def isixpSetSleepTimeout (newstate : ThrState) (timeout : Nat) (s : Kernel) : Res := do
  let s ← isixpSetSleep newstate s
  pure (if timeout ≠ timeInfinite then addTaskToWaitingList s.currp timeout s else s)

/-- Requeue a waiting task after its priority changed. -/
def requeueWaiter (t : TaskId) (newprio : Nat) (w : WaitHead) (s : Kernel) : Res := do
  let s ← s.listDelete t
  pure (addToPrioQueue w t (s.withTask t fun x => { x with prio := newprio }))

/-- `_isixp_reallocate_priority` -/
def isixpReallocatePriority (t : TaskId) (newprio : Nat) (s : Kernel) : Res :=
  match (s.task t).state with
  | .ready | .running => do
    let s ← deleteFromReadyList t s
    addReadyList t (s.withTask t fun x => { x with prio := newprio, state := .schedule })
  | .wtsem =>
    match (s.task t).obj with
    | .sem x => requeueWaiter t newprio (.sem x) s
    | _ => .error .wrongUnionMember
  | .wtmtx =>
    match (s.task t).obj with
    | .mtx m => requeueWaiter t newprio (.mtx m) s
    | _ => .error .wrongUnionMember
  | .wtcond =>
    match (s.task t).obj with
    | .cond c => requeueWaiter t newprio (.cond c) s
    | _ => .error .wrongUnionMember
  | _ => .ok (s.withTask t fun x => { x with prio := newprio })

end Isix
