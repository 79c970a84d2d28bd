import Isix.Lib.Buckets
import Isix.Lib.Outcome

/-!
# Isix.Types

The data model of the kernel: task control blocks, semaphores, mutexes,
events, the two-level ready queue and the system record `csys`.

Pointers are identifiers.  A list head (`list_entry_t`) is a `Head`;
`Core.lists` maps a head to the tasks whose `inode` is on its list, the lists
of the ready queue are in `Kernel.ready`.  The link of a task (`inode`,
`inode_time`) and of a mutex (`inode`) names the list it is on, `none`
standing for the `NULL` links `list_delete` leaves.

One step of the model is one critical section.  What a task still has to do
after `isix_yield` inside a blocking call is kept in its `Frame`, the part
of its stack frame the rest of the call reads.
-/

namespace Isix

/-! ## constants -/

/-- `CONFIG_ISIX_NUMBER_OF_PRIORITIES` of the application's `isixconf.h`;
the idle task has this priority and `osprio_t` is 8 bits wide. -/
class Config where
  numberOfPriorities : Nat
  pos : 0 < numberOfPriorities
  le_max : numberOfPriorities ≤ 255

def timeInfinite : Nat := 0

def timeDontwait : Nat := 0xFFFFFFFF

def timeMaxTick : Nat := 0xFFFFFFFF

/-- The number of values of `ostick_t`. -/
def tickMod : Nat := 4294967296

def isixEok : Int := 0
def isixEtimeout : Int := -3
def isixEinvarg : Int := -4
def isixEbusy : Int := -6
def isixEnoprio : Int := -7
def isixEreset : Int := -9
def isixEdestroy : Int := -10
def isixEstate : Int := -11
def isixEperm : Int := -12
def isixEnotlocked : Int := -14
def isixEnoref : Int := -15

/-- `OSREF_T_MAX`, the largest value of the 16-bit reference counter. -/
def osrefTMax : Nat := 65535

/-- The value a 32-bit `int` holds after a computation. -/
def toInt32 (x : Int) : Int := x.bmod 4294967296

/-- The value an `ostick_t` holds after a computation. -/
def toTick (n : Nat) : Nat := n % tickMod

/-! ## identifiers -/

abbrev TaskId := Nat
abbrev SemId := Nat
abbrev MtxId := Nat
abbrev CondId := Nat
abbrev EvtId := Nat

/-- A `task_ready_t` element of the pool allocated by `isix_init`. -/
abbrev ElemId := Nat

abbrev Bits := BitVec 32

/-- `ISIX_EVENT_CTRL_ALL_MATCH_FLAG` -/
def ctrlAllMatchFlag : Bits := 0x80000000#32

/-- `ISIX_EVENT_CTRL_CLEAR_EXIT_FLAG` -/
def ctrlClearExitFlag : Bits := 0x40000000#32

/-- `ISIX_EVENT_CTRL_BITS` -/
def ctrlBits : Bits := ctrlAllMatchFlag ||| ctrlClearExitFlag

/-- `ISIX_EVENT_EVBITS` -/
def evBits : Bits := ~~~ctrlBits

/-- The list heads outside of the ready queue. -/
inductive WaitHead where
  /-- `csys.zombie_list` -/
  | zombie
  /-- `wait_list` of a semaphore, mutex, condition variable or event -/
  | sem (x : SemId)
  | mtx (m : MtxId)
  | cond (c : CondId)
  | evt (v : EvtId)
  /-- `waiting_tasks` of a task -/
  | exit (t : TaskId)
  deriving DecidableEq, Repr

/-- The list heads a task's `inode` can be linked on: the `task_list` of a
ready queue element, or another list. -/
inductive Head where
  | prio (e : ElemId)
  | wait (w : WaitHead)
  deriving DecidableEq, Repr

/-! ## tasks -/

/-- `enum osthr_state` -/
inductive ThrState where
  | ready | running | created | sleeping | wtsem | zombie | schedule
  | wtevt | suspend | wtmtx | wtcond | wtexit | exited
  deriving DecidableEq, Repr

/-- The union `obj` of a task. -/
inductive Obj where
  | sem (x : SemId)
  | mtx (m : MtxId)
  | evbits (b : Bits)
  | cond (c : CondId)
  | dmsg (msg : Int)
  deriving DecidableEq, Repr

/-- What a blocked task does after `isix_yield`: the call it is in, with the
arguments and locals the rest of the call reads. -/
inductive Frame where
  /-- not in a kernel call -/
  | user
  | semWait (x : SemId) (timeout start : Nat)
  | mutexLock (m : MtxId)
  | condvarWait (m : MtxId)
  | eventWait (v : EvtId) (bits : Bits) (clear all : Bool) (timeout start : Nat)
  | eventSync (v : EvtId) (bits : Bits) (timeout start : Nat)
  | taskWaitFor (t : TaskId)
  | wait
  deriving DecidableEq, Repr

/-- `struct isix_task`, without stack and C library data.  Its members `inode`
and `prio_elem` are `Kernel.inode` and `Kernel.prioElem`. -/
structure Task where
  prio : Nat
  realPrio : Nat
  refcnt : Nat
  ownedMutexes : List MtxId
  state : ThrState
  waitAborted : Bool
  jiffies : Nat
  obj : Obj
  /-- which of `wait_lists[0]`, `wait_lists[1]` the task is on -/
  inodeTime : Option Bool
  frame : Frame
  deriving DecidableEq, Repr

/-- The control block `memset` clears; also what the identifiers of tasks
not yet created map to. -/
def Task.zero : Task :=
  { prio := 0, realPrio := 0, refcnt := 0, ownedMutexes := [], state := .created,
    waitAborted := false, jiffies := 0, obj := .dmsg 0, inodeTime := none, frame := .user }

/-! ## objects -/

/-- `_isix_port_atomic_sem_t` -/
structure AtomicSem where
  value : Int
  limit : Int
  deriving DecidableEq, Repr

namespace AtomicSem

/-- `_isix_port_atomic_sem_dec`; the result is the stored value. -/
def dec (a : AtomicSem) : AtomicSem := { a with value := toInt32 (a.value - 1) }

/-- `_isix_port_atomic_sem_trydec`, the state; the result is the old value. -/
def trydec (a : AtomicSem) : AtomicSem :=
  let v := toInt32 (a.value - 1)
  { a with value := if v < 0 then toInt32 (v + 1) else v }

/-- `_isix_port_atomic_sem_inc`; the result is the stored value.  The limit
is compared after the addition, so the addition itself can wrap. -/
def inc (a : AtomicSem) : AtomicSem :=
  let v := toInt32 (a.value + 1)
  { a with value := if 0 < a.limit ∧ a.limit < v then a.limit else v }

/-- `_isix_port_atomic_sem_write_val` -/
def writeVal (a : AtomicSem) (val : Int) : AtomicSem :=
  let v := if 0 < a.limit ∧ a.limit < val then a.limit else val
  { a with value := if v < 0 then 0 else v }

end AtomicSem

/-- `struct isix_mutex`; `inode` names the task whose `owned_mutexes` list
the mutex is on. -/
structure Mutex where
  count : Int
  owner : Option TaskId
  inode : Option TaskId
  deriving DecidableEq, Repr

/-! ## the system -/

/-- The calls of `isix_bug`, and the accesses a sane kernel never makes. -/
inductive Panic where
  /-- "Invalid task priority" -/
  | invalidTaskPriority
  /-- "add: in READY or ZOMBIE state" -/
  | addInReadyOrZombie
  /-- "Priority list not available" -/
  | priorityListNotAvailable
  /-- "RUNNING task inode is not linked" -/
  | runningNotLinked
  /-- "Not in READY state. Mem corrupted?" -/
  | notInReadyState
  /-- "Task priority doesn't match to element priority" -/
  | priorityMismatch
  /-- "Invalid state task->state != OSTHR_STATE_WTCOND" -/
  | invalidCondState
  /-- "Mutex counter is not zero" -/
  | mutexCounterNotZero
  /-- "mutex counter is not positive", in `isix_mutex_lock` -/
  | mutexCounterNotPositive
  /-- "Invalid mtx lock count", in `isix_mutex_trylock` -/
  | invalidMtxLockCount
  /-- "Mutex not positive", in `isix_mutex_unlock` -/
  | mutexNotPositive
  /-- "Not in mutex ownership list" -/
  | notInOwnershipList
  /-- "Scheduler unlock without lock" -/
  | unlockWithoutLock
  /-- `list_delete` of a link that is `NULL` -/
  | nullLink
  /-- `list_first_entry` of an empty list -/
  | emptyList
  /-- a member of `obj` read that was not the last one written -/
  | wrongUnionMember
  deriving DecidableEq, Repr

/-- `csys`, the current task and all kernel objects, without the ready queue
and the links of the tasks. -/
structure Core where
  schedLock : AtomicSem
  waitLists : Bool → List TaskId
  /-- `p_wait_list`; `pov_wait_list` is the other of the two -/
  pWaitList : Bool
  jiffies : Nat
  jiffiesSkipped : Int
  numberOfTaskDeleted : Nat
  yieldPending : Bool
  /-- `_isix_current_task` -/
  currp : TaskId
  /-- `_isix_scheduler_running` -/
  schrun : Bool
  /-- a context switch was requested with `_isix_port_yield` and is pending -/
  pendsv : Bool
  lists : WaitHead → List TaskId
  ntask : Nat
  nsem : Nat
  nmtx : Nat
  ncond : Nat
  nevt : Nat
  task : TaskId → Task
  sem : SemId → AtomicSem
  mutex : MtxId → Mutex
  /-- `bitset` of the events -/
  event : EvtId → Bits

/-- The whole kernel state. -/
structure Kernel extends Core where
  /-- the ready queue: its records are the `task_ready_t` elements, `active`
  is `ready_list` and `free` is `free_prio_elem` -/
  ready : Buckets.Queue TaskId
  /-- `inode` of the tasks -/
  inode : TaskId → Option Head
  /-- `prio_elem` of the tasks -/
  prioElem : TaskId → ElemId

/-- Result of a kernel function: the new state, or a panic. -/
abbrev Res := Except Panic Kernel

/-- How a kernel call left its critical section: it returned a code, or the
caller went to sleep inside it. -/
inductive Answer where
  | code (r : Int)
  /-- return from a `void` function -/
  | done
  /-- the identifier of a new object, `none` for `NULL` -/
  | handle (h : Option Nat)
  | blocked
  deriving DecidableEq, Repr

/-- Result of a service. -/
abbrev Reply := Except Panic (Kernel × Answer)

end Isix
