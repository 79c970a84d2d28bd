import Isix.Scheduler

/-!
# Isix.Mutex

`libisix/kernel/mutex.c`: recursive mutexes with priority inheritance.

The mutexes a task owns are on its `owned_mutexes` list, `Mutex.inode` names
the task whose list the mutex is on.  `isix_mutex_lock` is a loop whose body
either returns or puts the caller to sleep; `mutexLockBody` is one round, the
return after the sleep is in `Isix.System`.
-/

namespace Isix

open Function (update)
open Kernel

variable [Config]

namespace Kernel

/-- Write to a mutex. -/
def withMutex (m : MtxId) (g : Mutex → Mutex) (s : Kernel) : Kernel :=
  { s with mutex := update s.mutex m (g (s.mutex m)) }

/-- Unlink a mutex from the `owned_mutexes` list of `o`. -/
def unlinkMutex (m : MtxId) (o : TaskId) (s : Kernel) : Kernel :=
  (s.withMutex m fun x => { x with inode := none }).withTask o
    fun x => { x with ownedMutexes := x.ownedMutexes.erase m }

/-- `list_delete( &mutex->inode )` -/
def mutexDelete (m : MtxId) (s : Kernel) : Res :=
  match (s.mutex m).inode with
  | none => .error .nullLink
  | some o => .ok (s.unlinkMutex m o)

/-- `if( list_is_elem_assigned( &mutex->inode ) ) list_delete( &mutex->inode )` -/
def mutexDeleteIfAssigned (m : MtxId) (s : Kernel) : Kernel :=
  match (s.mutex m).inode with
  | none => s
  | some o => s.unlinkMutex m o

/-- The list after `list_insert_first`, which links the new element behind
the first one. -/
def insertFirst (m : MtxId) : List MtxId → List MtxId
  | [] => [m]
  | a :: l => a :: m :: l

/-- `list_insert_first( &task->owned_mutexes, &mutex->inode )` -/
def linkMutex (m : MtxId) (o : TaskId) (s : Kernel) : Kernel :=
  (s.withMutex m fun x => { x with inode := some o }).withTask o
    fun x => { x with ownedMutexes := insertFirst m x.ownedMutexes }

end Kernel

/-! ## ownership -/

/-- `transfer_mtx_ownership_to_next_waiting_task` -/
def transferMtxOwnershipToNextWaitingTask (m : MtxId) (s : Kernel) : Except Panic (Kernel × TaskId) :=
  match s.lists (.mtx m) with
  | [] => .error .emptyList
  | next :: _ => do
    let s := s.withMutex m fun x => { x with count := 1, owner := some next }
    let s ← s.listDelete next
    pure ((s.mutexDeleteIfAssigned m).linkMutex m next, next)

/-- `set_ownership_to_current` -/
def setOwnershipToCurrent (m : MtxId) (s : Kernel) : Res :=
  if (s.mutex m).count ≠ 0 then .error .mutexCounterNotZero
  else .ok ((s.withMutex m fun x =>
    { x with count := toInt32 (x.count + 1), owner := some s.currp }).linkMutex m s.currp)

/-- The best of `newprio` and the first waiter of a mutex. -/
def raisedBy (s : Kernel) (newprio : Nat) (m : MtxId) : Nat :=
  match s.lists (.mtx m) with
  | [] => newprio
  | t :: _ => if prioGt (s.task t).prio newprio then (s.task t).prio else newprio

/-- `calc_inherited_priority` -/
def calcInheritedPriority (owner : TaskId) (s : Kernel) : Nat :=
  (s.task owner).ownedMutexes.foldl (raisedBy s) (s.task owner).realPrio

/-- Give a task the priority `calc_inherited_priority` says. -/
def recalcPriority (t : TaskId) (s : Kernel) : Res :=
  let newprio := calcInheritedPriority t s
  if newprio ≠ (s.task t).prio then isixpReallocatePriority t newprio s else .ok s

/-- `_isixp_mutex_waiter_removed` -/
def isixpMutexWaiterRemoved (m : MtxId) (s : Kernel) : Res :=
  match (s.mutex m).owner with
  | none => .ok s
  | some owner => recalcPriority owner s

/-! ## services -/

/-- `isix_mutex_create` -/
def isixMutexCreate (s : Kernel) : Kernel × Answer :=
  ({ s with
      nmtx := s.nmtx + 1
      mutex := update s.mutex s.nmtx { count := 0, owner := none, inode := none }
      lists := update s.lists (.mtx s.nmtx) [] },
    .handle (some s.nmtx))

/-- The priority inheritance of `isix_mutex_lock`. -/
def boostOwner (owner : TaskId) (s : Kernel) : Res :=
  if prioGt (s.task s.currp).prio (s.task owner).prio then
    isixpReallocatePriority owner (s.task s.currp).prio s
  else .ok s

/-- One round of the loop of `isix_mutex_lock`. -/
def mutexLockBody (m : MtxId) (s : Kernel) : Reply :=
  match (s.mutex m).owner with
  | some owner =>
    if (s.mutex m).count < 1 then .error .mutexCounterNotPositive
    else if owner = s.currp then
      .ok (s.withMutex m fun x => { x with count := toInt32 (x.count + 1) }, .code isixEok)
    else do
      let s ← boostOwner owner s
      let s := s.withTask s.currp fun x => { x with waitAborted := false }
      let s ← isixpSetSleep .wtmtx s
      let s := addToPrioQueue (.mtx m) s.currp s
      let s := s.withTask s.currp fun x => { x with obj := .mtx m, frame := .mutexLock m }
      pure (isixYield s, .blocked)
  | none => do
    let s ← setOwnershipToCurrent m s
    pure (s, .code isixEok)

/-- `isix_mutex_lock` -/
def isixMutexLock (mutex : Option MtxId) (s : Kernel) : Reply :=
  match mutex with
  | none => .ok (s, .code isixEinvarg)
  | some m => mutexLockBody m s

/-- `isix_mutex_trylock` -/
def isixMutexTrylock (mutex : Option MtxId) (s : Kernel) : Reply :=
  match mutex with
  | none => .ok (s, .code isixEinvarg)
  | some m =>
    match (s.mutex m).owner with
    | some owner =>
      if (s.mutex m).count < 1 then .error .invalidMtxLockCount
      else if owner = s.currp then
        .ok (s.withMutex m fun x => { x with count := toInt32 (x.count + 1) }, .code isixEok)
      else .ok (s, .code isixEperm)
    | none => do
      let s ← setOwnershipToCurrent m s
      pure (s, .code isixEok)

/-- The last unlock: the mutex goes to its first waiter or becomes free. -/
def releaseMutex (m : MtxId) (s : Kernel) : Res :=
  if m ∉ (s.task s.currp).ownedMutexes then .error .notInOwnershipList
  else do
    let s ← s.mutexDelete m
    if (s.lists (.mtx m)).isEmpty then pure (s.withMutex m fun x => { x with owner := none })
    else do
      let s ← isixpReallocatePriority s.currp (calcInheritedPriority s.currp s) s
      let (s, t) ← transferMtxOwnershipToNextWaitingTask m s
      isixpWakeupTask t isixEok s

/-- `isix_mutex_unlock` -/
def isixMutexUnlock (mutex : Option MtxId) (s : Kernel) : Reply :=
  match mutex with
  | none => .ok (s, .code isixEinvarg)
  | some m =>
    match (s.mutex m).owner with
    | none => .ok (s, .code isixEnotlocked)
    | some owner =>
      if (s.mutex m).count < 1 then .error .mutexNotPositive
      else if owner ≠ s.currp then .ok (s, .code isixEperm)
      else
        let s := s.withMutex m fun x => { x with count := toInt32 (x.count - 1) }
        if (s.mutex m).count = 0 then do
          let s ← releaseMutex m s
          pure (s, .code isixEok)
        else .ok (s, .code isixEok)

/-- The body of the loop of `_isixp_mutex_unlock_all_in_task`; the second
component is `wkup_task`. -/
def unlockOne (acc : Kernel × Option TaskId) (m : MtxId) :
    Except Panic (Kernel × Option TaskId) :=
  let (s, wkup) := acc
  if (s.lists (.mtx m)).isEmpty then do
    let s ← s.mutexDelete m
    pure (s.withMutex m fun x => { x with count := 0, owner := none }, wkup)
  else do
    let (s, t) ← transferMtxOwnershipToNextWaitingTask m s
    let s ← wakeupTask t isixEok s
    pure (s, wkup <|> some t)

/-- The current task may have lost inherited priority. -/
def recalcIfCurrent (utask : TaskId) (s : Kernel) : Res :=
  if utask = s.currp then recalcPriority utask s else .ok s

/-- `_isixp_mutex_unlock_all_in_task` -/
def isixpMutexUnlockAllInTask (utask : TaskId) (s : Kernel) : Res := do
  let (s, wkup) ← (s.task utask).ownedMutexes.foldlM unlockOne (s, none)
  let s ← recalcIfCurrent utask s
  leaveCritical none wkup s

/-- `isix_mutex_unlock_all` -/
def isixMutexUnlockAll (s : Kernel) : Res := isixpMutexUnlockAllInTask s.currp s

/-- The body of the loop of `isix_mutex_destroy`; the second component is
`wkup_task`. -/
def destroyOne (acc : Kernel × Option TaskId) (t : TaskId) :
    Except Panic (Kernel × Option TaskId) := do
  let (s, wkup) := acc
  let s ← s.listDelete t
  let s := s.withTask t fun x => { x with prio := calcInheritedPriority t s }
  let s ← wakeupTask t isixEdestroy s
  pure (s, wkup <|> some t)

/-- Take a mutex that is destroyed from its owner. -/
def disownMutex (m : MtxId) (s : Kernel) : Res :=
  match (s.mutex m).owner with
  | none => .ok s
  | some _ => do
    let s ← s.mutexDelete m
    pure (s.withMutex m fun x => { x with owner := none, count := 0 })

/-- The owner of a destroyed mutex loses the priority of its waiters. -/
def recalcOwner (owner : Option TaskId) (s : Kernel) : Res :=
  match owner with
  | none => .ok s
  | some o => recalcPriority o s

/-- `isix_mutex_destroy` -/
def isixMutexDestroy (mutex : Option MtxId) (s : Kernel) : Reply :=
  match mutex with
  | none => .ok (s, .code isixEinvarg)
  | some m => do
    let owner := (s.mutex m).owner
    let s ← disownMutex m s
    let (s, wkup) ← (s.lists (.mtx m)).foldlM destroyOne (s, none)
    let s ← recalcOwner owner s
    let s ← leaveCritical none wkup s
    pure (s, .code isixEok)

/-- `_isixp_get_top_currt_mutex` -/
def isixpGetTopCurrtMutex (s : Kernel) : Option MtxId := (s.task s.currp).ownedMutexes.head?

end Isix
