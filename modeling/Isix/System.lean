import Isix.Condvar
import Isix.Events
import Isix.Task

/-!
# Isix.System

The kernel as a state machine.  An `Event` is one critical section: a service
called by the running task, the rest of a blocking service after the task got
the CPU back, a service called by an interrupt handler, the tick, the context
switch, and the work of the idle task.  Interrupts and context switches happen
between critical sections, so runs of events are all interleavings.

`enabled` says when an event can happen; it is about who runs and which
handles exist, not about what the service finds.
-/

namespace Isix

open Function (update)
open Kernel

/-- The identifier of the idle task, the first one created. -/
def idle : TaskId := 0

variable [Config]

/-! ## initialisation -/

/-- `csys` when `isix_init` has initialised the lists. -/
def Kernel.empty : Kernel :=
  { schedLock := { value := 0, limit := 0 }
    waitLists := fun _ => []
    pWaitList := false
    jiffies := 0
    jiffiesSkipped := 0
    numberOfTaskDeleted := 0
    yieldPending := false
    currp := idle
    schrun := false
    pendsv := false
    lists := fun _ => []
    ntask := 0
    nsem := 0
    nmtx := 0
    ncond := 0
    nevt := 0
    task := fun _ => Task.zero
    sem := fun _ => { value := 0, limit := 0 }
    mutex := fun _ => { count := 0, owner := none, inode := none }
    event := fun _ => 0#32
    ready :=
      { active := [], free := List.range (Config.numberOfPriorities + 1)
        prio := fun _ => 0, items := fun _ => [] }
    inode := fun _ => none
    prioElem := fun _ => 0 }

/-- `isix_init`; the first task created becomes the current one. -/
def isixInit : Res := do
  let (s, _) ← isixTaskCreate Config.numberOfPriorities false false Kernel.empty
  pure s

/-- `isix_start_scheduler` -/
def isixStartScheduler (s : Kernel) : Kernel :=
  { s.withTask s.currp fun x => { x with state := .running } with jiffies := 0, schrun := true }

/-! ## services -/

/-- Services that may be called from tasks and from interrupt handlers. -/
inductive Service where
  | semSignal (sem : Option SemId)
  | semTrywait (sem : Option SemId)
  | semReset (sem : Option SemId) (val : Int)
  | condvarSignal (cv : Option CondId)
  | condvarBroadcast (cv : Option CondId)
  | eventSet (evth : Option EvtId) (bits : Bits)
  | eventClear (evth : Option EvtId) (bits : Bits)

def Service.exec (ctx : Context) : Service → Kernel → Reply
  | .semSignal sem => isixpSemSignal sem ctx
  | .semTrywait sem => isixSemTrywait sem
  | .semReset sem val => isixpSemReset sem val ctx
  | .condvarSignal cv => isixpCondvarSignal cv ctx
  | .condvarBroadcast cv => isixpCondvarBroadcast cv ctx
  | .eventSet evth bits => isixpEventSet evth bits ctx
  | .eventClear evth bits => isixpEventClear evth bits

/-- Services of the kernel, as called by a task. -/
inductive Call where
  | service (v : Service)
  | taskCreate (priority : Nat) (suspended ref : Bool)
  | taskChangePrio (task : Option TaskId) (newPrio : Nat)
  | taskKill (task : Option TaskId)
  | taskSuspend (task : Option TaskId)
  | taskResume (task : Option TaskId)
  | taskRef (task : Option TaskId)
  | taskUnref (task : Option TaskId)
  | taskWaitFor (task : Option TaskId)
  | semCreate (val limitVal : Int)
  | semWait (sem : Option SemId) (timeout start : Nat)
  | semDestroy (sem : Option SemId)
  | mutexCreate
  | mutexLock (mutex : Option MtxId)
  | mutexTrylock (mutex : Option MtxId)
  | mutexUnlock (mutex : Option MtxId)
  | mutexUnlockAll
  | mutexDestroy (mutex : Option MtxId)
  | condvarCreate
  | condvarWait (cv : Option CondId) (timeout : Nat)
  | condvarDestroy (cv : Option CondId)
  | eventCreate
  | eventWait (evth : Option EvtId) (bits : Bits) (clear all : Bool) (timeout start : Nat)
  | eventSync (evth : Option EvtId) (bitsToSet bits : Bits) (timeout start : Nat)
  | eventDestroy (evth : Option EvtId)
  | wait (timeout : Nat)

def Call.exec : Call → Kernel → Reply
  | .service v => v.exec none
  | .taskCreate priority suspended ref => isixTaskCreate priority suspended ref
  | .taskChangePrio task newPrio => isixTaskChangePrio task newPrio
  | .taskKill task => isixTaskKill task
  | .taskSuspend task => isixTaskSuspend task
  | .taskResume task => isixTaskResume task
  | .taskRef task => isixTaskRef task
  | .taskUnref task => isixTaskUnref task
  | .taskWaitFor task => isixTaskWaitFor task
  | .semCreate val limitVal => fun s => .ok (isixSemCreateLimited val limitVal s)
  | .semWait sem timeout start => isixSemWait sem timeout start
  | .semDestroy sem => isixSemDestroy sem
  | .mutexCreate => fun s => .ok (isixMutexCreate s)
  | .mutexLock mutex => isixMutexLock mutex
  | .mutexTrylock mutex => isixMutexTrylock mutex
  | .mutexUnlock mutex => isixMutexUnlock mutex
  | .mutexUnlockAll => fun s => do
    let s ← isixMutexUnlockAll s
    pure (s, .done)
  | .mutexDestroy mutex => isixMutexDestroy mutex
  | .condvarCreate => fun s => .ok (isixCondvarCreate s)
  | .condvarWait cv timeout => isixCondvarWait cv timeout
  | .condvarDestroy cv => isixCondvarDestroy cv
  | .eventCreate => fun s => .ok (isixEventCreate s)
  | .eventWait evth bits clear all timeout start => isixEventWait evth bits clear all timeout start
  | .eventSync evth bitsToSet bits timeout start => isixEventSync evth bitsToSet bits timeout start
  | .eventDestroy evth => isixEventDestroy evth
  | .wait timeout => isixWait timeout

/-! ## the rest of a blocking service -/

/-- `return currp->obj.dmsg` -/
def returnMessage (s : Kernel) : Reply :=
  match (s.task s.currp).obj with
  | .dmsg r => .ok (s, .code r)
  | _ => .error .wrongUnionMember

/-- The end of `isix_event_wait` and `isix_event_sync`: bits without a
control bit are returned as bits, anything else as an error code. -/
def returnBits (s : Kernel) : Reply :=
  match (s.task s.currp).obj with
  | .dmsg r =>
    let b := BitVec.ofInt 32 r
    if b &&& ctrlBits = 0#32 then .ok (s, .code b.toInt) else .ok (s, .code r)
  | _ => .error .wrongUnionMember

/-- `isix_event_sync` resumed after suspend: only wait for the bits, for the
remaining time. -/
def eventSyncAgain (v : EvtId) (bits : Bits) (timeout start start' : Nat) (s : Kernel) : Reply :=
  if timeout = timeInfinite then isixEventWait (some v) bits true true timeout start' s
  else
    let elapsed := tickSub s.jiffies start
    if timeout ≤ elapsed then .ok (s, .code isixEtimeout)
    else isixEventWait (some v) bits true true (timeout - elapsed) start' s

/-- What the current task does after `isix_yield` in a blocking service.
`start'` is the tick count read by the inner `isix_event_wait`. -/
def afterYield (start' : Nat) (s : Kernel) : Reply :=
  let x := s.task s.currp
  let s := s.withTask s.currp fun x => { x with frame := .user }
  match x.frame with
  | .user => .ok (s, .done)
  | .semWait i timeout start =>
    if x.waitAborted then semWaitBody i timeout start s else returnMessage s
  | .mutexLock m => if x.waitAborted then mutexLockBody m s else returnMessage s
  | .condvarWait m => do
    let (s, ret) ← returnMessage s
    if ret = .code isixEok then mutexLockBody m s else pure (s, ret)
  | .eventWait v bits clear all timeout start =>
    if x.waitAborted then eventWaitBody v bits clear all timeout start s else returnBits s
  | .eventSync v bits timeout start =>
    if x.waitAborted then eventSyncAgain v bits timeout start start' s else returnBits s
  | .taskWaitFor t => if x.waitAborted then waitForBody t s else returnMessage s
  | .wait => .ok (s, .code isixEok)

/-- `main` does not leave the CPU: a service that went to sleep for it returns what `obj` holds then. -/
def mainGoesOn (current : TaskId) : Kernel × Answer → Kernel × Answer
  | (s, .blocked) => (s.withTask current fun x => { x with frame := .user }, .blocked)
  | r => r

/-! ## events -/

inductive Event where
  /-- the running task calls a service -/
  | call (c : Call)
  /-- the running task goes on after the `isix_yield` of a blocking service -/
  | proceed (start : Nat)
  /-- the running task calls `isix_yield` -/
  | yield
  /-- the running task locks or unlocks the scheduler -/
  | lock
  | unlock
  /-- an interrupt handler calls a service; `elapsed` is the result of
  `_isix_port_systimer_resync` -/
  | isr (v : Service) (elapsed : Nat)
  /-- `systick_isr_vector` -/
  | tick (ticks : Nat)
  /-- `_isixp_schedule`, called by the `PendSV` handler -/
  | schedule
  /-- the idle task reclaims a finished task, or ends a tickless sleep -/
  | cleanup
  | resync (elapsed : Nat)
  /-- `main` calls a service before it starts the scheduler -/
  | boot (c : Call)
  | start

/-- The state after an event, and the answer of the service. -/
def step : Event → Kernel → Reply
  | .call c, s => c.exec s
  | .proceed start, s => afterYield start s
  | .yield, s => .ok (isixYield s, .done)
  | .lock, s => .ok (isixpLockScheduler s, .done)
  | .unlock, s => do
    let s ← isixpUnlockScheduler s
    pure (s, .done)
  | .isr v elapsed, s => v.exec (some elapsed) s
  | .tick ticks, s => do
    let s ← isixpSystimerAnnounce ticks s
    pure (isixYield s, .done)
  | .schedule, s => do
    let s ← isixpSchedule { s with pendsv := false }
    pure (s, .done)
  | .cleanup, s => do
    let s ← cleanupTasks s
    pure (s, .done)
  | .resync elapsed, s => do
    let s ← catchUpMissedTicks elapsed s
    pure (s, .done)
  | .boot c, s => (c.exec s).map (mainGoesOn s.currp)
  | .start, s => .ok (isixStartScheduler s, .done)

/-! ## when an event can happen -/

/-- A handle is `NULL` or names an object that was created. -/
def validHandle (n : Nat) : Option Nat → Bool
  | none => true
  | some x => decide (x < n)

/-- A task handle; `isix_init` keeps that of the idle task to itself. -/
def validTask (n : Nat) : Option TaskId → Bool
  | none => true
  | some t => decide (t < n) && decide (t ≠ idle)

def validInt (v : Int) : Bool := decide (-2147483648 ≤ v) && decide (v ≤ 2147483647)

def validTick (n : Nat) : Bool := decide (n < tickMod)

/-- The arguments of a service are of their types. -/
def Service.valid (s : Kernel) : Service → Bool
  | .semSignal sem => validHandle s.nsem sem
  | .semTrywait sem => validHandle s.nsem sem
  | .semReset sem val => validHandle s.nsem sem && validInt val
  | .condvarSignal cv => validHandle s.ncond cv
  | .condvarBroadcast cv => validHandle s.ncond cv
  | .eventSet evth _ => validHandle s.nevt evth
  | .eventClear evth _ => validHandle s.nevt evth

def Call.valid (s : Kernel) : Call → Bool
  | .service v => v.valid s
  | .taskCreate _ _ _ | .mutexCreate | .mutexUnlockAll | .condvarCreate | .eventCreate => true
  | .taskChangePrio task _ | .taskKill task | .taskSuspend task | .taskResume task
  | .taskRef task | .taskUnref task | .taskWaitFor task => validTask s.ntask task
  | .semCreate val limitVal => validInt val && validInt limitVal
  | .semWait sem timeout start => validHandle s.nsem sem && validTick timeout && validTick start
  | .semDestroy sem => validHandle s.nsem sem
  | .mutexLock mutex | .mutexTrylock mutex | .mutexUnlock mutex | .mutexDestroy mutex =>
    validHandle s.nmtx mutex
  | .condvarWait cv timeout => validHandle s.ncond cv && validTick timeout
  | .condvarDestroy cv => validHandle s.ncond cv
  | .eventWait evth _ _ _ timeout start =>
    validHandle s.nevt evth && validTick timeout && validTick start
  | .eventSync evth _ _ timeout start =>
    validHandle s.nevt evth && validTick timeout && validTick start
  | .eventDestroy evth => validHandle s.nevt evth
  | .wait timeout => validTick timeout

/-- The service can take the CPU from its caller: not allowed while the
scheduler is locked. -/
def Call.blocking (s : Kernel) : Call → Bool
  | .semWait _ timeout _ => decide (timeout ≠ timeDontwait)
  | .mutexLock _ | .condvarWait _ _ | .eventWait _ _ _ _ _ _ | .eventSync _ _ _ _ _
  | .taskWaitFor _ | .wait _ => true
  | .taskKill task | .taskSuspend task => decide (task.getD s.currp = s.currp)
  | _ => false

/-- The time of a wait that began at `start` is over. -/
def timeOver (s : Kernel) (timeout start : Nat) : Bool :=
  decide (timeout ≠ timeInfinite) && decide (timeout ≤ tickSub s.jiffies start)

/-- What the service wants is not there, so that it has to wait. -/
def Call.waits (s : Kernel) : Call → Bool
  | .semWait (some x) timeout start =>
    decide (timeout ≠ timeDontwait) && decide ((s.sem x).dec.value < 0) && !timeOver s timeout start
  | .mutexLock (some m) => (s.mutex m).owner.any fun o => decide (o ≠ s.currp)
  | .condvarWait (some _) timeout => decide (timeout ≠ timeDontwait) && (isixpGetTopCurrtMutex s).isSome
  | .eventWait (some v) bits _ all timeout start =>
    decide (bits ≠ 0#32 ∧ bits &&& ctrlBits = 0#32) && !checkCond (s.event v) bits all &&
      decide (timeout ≠ timeDontwait) && !timeOver s timeout start
  | .eventSync (some v) bitsToSet bits timeout _ =>
    decide (bitsToSet &&& ctrlBits = 0#32) && decide (bits ≠ 0#32 ∧ bits &&& ctrlBits = 0#32) &&
      decide ((s.event v ||| bitsToSet) &&& bits ≠ bits) && decide (timeout ≠ timeDontwait)
  | .taskWaitFor (some t) =>
    decide (t ≠ s.currp) && decide ((s.task t).refcnt ≠ 0) && decide ((s.task t).state ≠ .zombie) &&
      decide ((s.task t).state ≠ .exited)
  | _ => false

/-- The current task executes its own code. -/
def taskRuns (s : Kernel) : Bool :=
  s.schrun && decide (s.currp ≠ idle) && decide ((s.task s.currp).frame = .user) &&
    decide ((s.task s.currp).state = .ready ∨ (s.task s.currp).state = .running)

def enabled (s : Kernel) : Event → Bool
  | .call c => taskRuns s && c.valid s && (!c.blocking s || decide (s.schedLock.value = 0))
  | .proceed start =>
    s.schrun && decide ((s.task s.currp).frame ≠ .user) &&
      decide ((s.task s.currp).state = .running) && decide (s.schedLock.value = 0) &&
      validTick start
  | .yield => taskRuns s
  | .lock => taskRuns s && decide (0 ≤ s.schedLock.value) && decide (s.schedLock.value < 2147483647)
  | .unlock => taskRuns s && decide (0 < s.schedLock.value)
  | .isr v elapsed => v.valid s && validTick elapsed
  | .tick ticks => validTick ticks
  | .schedule => s.schrun
  | .cleanup => s.schrun && decide (s.currp = idle)
  | .resync elapsed => s.schrun && decide (s.currp = idle) && validTick elapsed
  | .boot c => !s.schrun && c.valid s
  | .start => !s.schrun

/-! ## runs -/

/-- The states reached from `isix_init` by events that are possible and meet
the condition `C`. -/
inductive Reachable (C : Event → Kernel → Prop) : Kernel → Prop
  | init {s : Kernel} (h : isixInit = .ok s) : Reachable C s
  | step {s s' : Kernel} {e : Event} {a : Answer} (h : Reachable C s) (he : enabled s e = true)
      (hc : C e s) (hs : Isix.step e s = .ok (s', a)) : Reachable C s'

/-- The state after a list of events, if each of them is possible and meets
`C` when its turn comes. -/
def run (C : Event → Kernel → Prop) [∀ e s, Decidable (C e s)] : List Event → Kernel → Option Kernel
  | [], s => some s
  | e :: es, s =>
    if enabled s e = true ∧ C e s then
      match step e s with
      | .ok (s', _) => run C es s'
      | .error _ => none
    else none

theorem Reachable.run {C : Event → Kernel → Prop} [∀ e s, Decidable (C e s)] {es : List Event}
    {s s' : Kernel} (h : Reachable C s) (hr : Isix.run C es s = some s') : Reachable C s' := by
  induction es generalizing s with
  | nil =>
    cases hr
    exact h
  | cons e es ih =>
    rw [Isix.run] at hr
    split at hr
    · rename_i he
      cases hs : Isix.step e s with
      | error p =>
        rw [hs] at hr
        cases hr
      | ok r =>
        rw [hs] at hr
        exact ih (.step h he.1 he.2 hs) hr
    · cases hr

/-- Three priorities for tasks and one for the idle task. -/
abbrev smallConfig : Config := ⟨3, by decide, by decide⟩

/-- A run from `isix_init` that ends in a state with `P`. -/
theorem exists_reachable {C : Event → Kernel → Prop} [∀ e s, Decidable (C e s)] (es : List Event)
    {P : Kernel → Prop} [DecidablePred P]
    (h : ((isixInit.toOption.bind (Isix.run C es)).any fun s => decide (P s)) = true) :
    ∃ s, Reachable C s ∧ P s := by
  cases hi : isixInit with
  | error p =>
    rw [hi] at h
    cases h
  | ok s₀ =>
    rw [hi] at h
    cases hr : Isix.run C es s₀ with
    | none => simp [Except.toOption, hr] at h
    | some s => exact ⟨s, (Reachable.init hi).run hr, by simpa [Except.toOption, hr] using h⟩

end Isix
