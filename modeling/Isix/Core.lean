import Isix.System

/-!
# Isix.Core

The kernel seen without its ready queue.  `Kernel.toCore` forgets the queue
and the links into it; what is left changes only by a small number of actions
— a task is woken, goes to sleep, changes its priority, is taken out of the
system, a mutex changes hands — and `Act` lists them.  An action is a total
function on `Core` with a guard.

`Path A c c'` says that `c'` is reached from `c` by actions allowed by `A`.
The modules `Isix.Refine*` show that every critical section of the kernel is
such a path; an invariant of `Core` is then proved action by action, and does
not look at the kernel functions again.
-/

namespace Isix

open Function (update)
open Intrusive (insertBefore)

/-! ## states and lists -/

/-- States in which a task may be on a timeout list. -/
def ThrState.timed : ThrState → Bool
  | .sleeping | .wtsem | .wtevt | .wtcond => true
  | _ => false

/-- States from which a task can be made ready. -/
def ThrState.asleep : ThrState → Bool
  | .created | .sleeping | .wtsem | .wtevt | .suspend | .wtmtx | .wtcond | .wtexit => true
  | _ => false

/-- States of a task on the ready queue. -/
def ThrState.active : ThrState → Bool
  | .ready | .running => true
  | _ => false

def ThrState.dead : ThrState → Bool
  | .zombie | .exited => true
  | _ => false

/-- Wait lists kept in priority order. -/
def WaitHead.byPrio : WaitHead → Bool
  | .sem _ | .mtx _ | .cond _ => true
  | _ => false

/-- The object a wait list belongs to exists. -/
def WaitHead.exists? (c : Core) : WaitHead → Prop
  | .zombie => True
  | .sem x => x < c.nsem
  | .mtx m => m < c.nmtx
  | .cond v => v < c.ncond
  | .evt v => v < c.nevt
  | .exit t => t < c.ntask

namespace Core

def withTask (t : TaskId) (g : Task → Task) (c : Core) : Core :=
  { c with task := update c.task t (g (c.task t)) }

@[simp] theorem withTask_self (t : TaskId) (g : Task → Task) (c : Core) :
    (c.withTask t g).task t = g (c.task t) := by simp [withTask]

theorem withTask_of_ne {t u : TaskId} (g : Task → Task) (c : Core) (h : u ≠ t) :
    (c.withTask t g).task u = c.task u := by simp [withTask, h]

/-- What holds of the new content of `t` and of the other tasks. -/
theorem forall_withTask {P : TaskId → Task → Prop} {t : TaskId} {g : Task → Task} {c : Core}
    (ht : P t (g (c.task t))) (h : ∀ u, u ≠ t → P u (c.task u)) (u : TaskId) :
    P u ((c.withTask t g).task u) := by
  by_cases hu : u = t
  · subst hu
    rw [withTask_self]
    exact ht
  · rw [withTask_of_ne g c hu]
    exact h u hu

def withMutex (m : MtxId) (g : Mutex → Mutex) (c : Core) : Core :=
  { c with mutex := update c.mutex m (g (c.mutex m)) }

def dequeue (t : TaskId) (w : WaitHead) (c : Core) : Core :=
  { c with lists := update c.lists w ((c.lists w).erase t) }

def dequeue? (t : TaskId) (w : Option WaitHead) (c : Core) : Core :=
  { c with
    lists := match w with
      | none => c.lists
      | some w => update c.lists w ((c.lists w).erase t) }

/-- The place of `t` on a list is given by its priority or by its arrival. -/
def enqueue (t : TaskId) (w : WaitHead) (c : Core) : Core :=
  { c with
    lists := update c.lists w
      (if w.byPrio then
        insertBefore (fun x => prioGt (c.task t).prio (c.task x).prio) t (c.lists w)
      else c.lists w ++ [t]) }

def enqueue? (t : TaskId) (w : Option WaitHead) (c : Core) : Core :=
  match w with
  | none => c
  | some w => c.enqueue t w

/-- Take `t` off the timeout list it is on, if any. -/
def untime (t : TaskId) (c : Core) : Core :=
  { c.withTask t fun x => { x with inodeTime := none } with
    waitLists := match (c.task t).inodeTime with
      | none => c.waitLists
      | some b => update c.waitLists b ((c.waitLists b).erase t) }

/-- Put `t` on the timeout list its deadline belongs to. -/
def addTime (t : TaskId) (timeout : Nat) (c : Core) : Core :=
  let j := toTick (c.jiffies + timeout)
  let b := if j < c.jiffies then !c.pWaitList else c.pWaitList
  { c.withTask t fun x => { x with jiffies := j, inodeTime := some b } with
    waitLists := update c.waitLists b
      (insertBefore (fun w => decide (j < (c.task w).jiffies)) t (c.waitLists b)) }

def addTime? (t : TaskId) (timeout : Nat) (c : Core) : Core :=
  if timeout = timeInfinite then c else c.addTime t timeout

def setSem (x : SemId) (a : AtomicSem) (c : Core) : Core := { c with sem := update c.sem x a }

/-- The semaphore a task waits for gets back the unit the task took. -/
def giveBack (t : TaskId) (c : Core) : Core :=
  { c with
    sem := match (c.task t).state, (c.task t).obj with
      | .wtsem, .sem x => update c.sem x (c.sem x).inc
      | _, _ => c.sem }

def makeReady (t : TaskId) (o : Obj) (c : Core) : Core :=
  (c.withTask t fun x => { x with obj := o }).withTask t fun x => { x with state := .ready }

/-- The list a waiting task is requeued on when its priority changes. -/
def prioHead (x : Task) : Option WaitHead :=
  match x.state, x.obj with
  | .wtsem, .sem i => some (.sem i)
  | .wtmtx, .mtx m => some (.mtx m)
  | .wtcond, .cond c => some (.cond c)
  | _, _ => none

/-- Take a mutex off the list of its owner, if it is on one. -/
def unlinkMutex (m : MtxId) (c : Core) : Core :=
  { c.withMutex m fun x => { x with inode := none } with
    task := match (c.mutex m).inode with
      | none => c.task
      | some o =>
        update c.task o { c.task o with ownedMutexes := (c.task o).ownedMutexes.erase m } }

def linkMutex (m : MtxId) (o : TaskId) (c : Core) : Core :=
  (c.withMutex m fun x => { x with inode := some o }).withTask o
    fun x => { x with ownedMutexes := Kernel.insertFirst m x.ownedMutexes }

end Core

/-! ## actions -/

/-- The ways the current task goes to sleep, with what the sleep stores. -/
inductive Sleep where
  | sem (x : SemId) (timeout start tout : Nat)
  | mutex (m : MtxId)
  | cond (c : CondId) (m : MtxId) (tout : Nat)
  | event (v : EvtId) (evbits : Bits) (tout : Nat) (frame : Frame)
  | exit (t : TaskId)
  | time (tout : Nat)

namespace Sleep

def state : Sleep → ThrState
  | .sem _ _ _ _ => .wtsem
  | .mutex _ => .wtmtx
  | .cond _ _ _ => .wtcond
  | .event _ _ _ _ => .wtevt
  | .exit _ => .wtexit
  | .time _ => .sleeping

def head : Sleep → Option WaitHead
  | .sem x _ _ _ => some (.sem x)
  | .mutex m => some (.mtx m)
  | .cond c _ _ => some (.cond c)
  | .event v _ _ _ => some (.evt v)
  | .exit t => some (.exit t)
  | .time _ => none

def timeout : Sleep → Nat
  | .sem _ _ _ tout | .cond _ _ tout | .event _ _ tout _ | .time tout => tout
  | .mutex _ | .exit _ => 0

/-- What the sleep writes to the control block. -/
def write (k : Sleep) (x : Task) : Task :=
  match k with
  | .sem i timeout start _ =>
    { x with state := k.state, obj := .sem i, waitAborted := false,
             frame := .semWait i timeout start }
  | .mutex m =>
    { x with state := k.state, obj := .mtx m, waitAborted := false, frame := .mutexLock m }
  | .cond c m _ => { x with state := k.state, obj := .cond c, frame := .condvarWait m }
  | .event _ evbits _ frame =>
    { x with state := k.state, obj := .evbits evbits, waitAborted := false, frame := frame }
  | .exit t => { x with state := k.state, waitAborted := false, frame := .taskWaitFor t }
  | .time _ => { x with state := k.state, frame := .wait }

end Sleep

/-- A task that goes to sleep on a semaphore takes a unit first. -/
def Core.takeUnit (k : Sleep) (c : Core) : Core :=
  { c with
    sem := match k with
      | .sem x _ _ _ => update c.sem x (c.sem x).dec
      | _ => c.sem }

/-- A suspended task leaves its wait with the flag set; a condition variable
does not look at it. -/
def abortWait (suspend : Bool) (x : Task) : Task :=
  { x with
    waitAborted := if x.state = .wtevt ∨ x.state = .wtexit ∨ x.state = .wtsem ∨ x.state = .wtmtx then
      suspend else x.waitAborted }

/-- The actions. -/
inductive Act where
  /-- `t` is taken from a list and made ready, with a message -/
  | wake (t : TaskId) (w : Option WaitHead) (msg : Int)
  /-- a signal on a semaphore reaches its first waiter -/
  | signal (x : SemId) (t : TaskId)
  /-- the deadline of `t` is reached -/
  | expire (t : TaskId) (w : Option WaitHead)
  /-- the current task goes to sleep -/
  | sleep (k : Sleep)
  /-- the effective priority of `t` changes -/
  | reprio (t : TaskId) (p : Nat)
  /-- `t` leaves its lists, to be suspended or killed -/
  | detach (t : TaskId) (w : Option WaitHead)
  | park (t : TaskId) (suspend : Bool)
  /-- the current task takes a free mutex, or takes or returns its own again -/
  | own (m : MtxId)
  | count (m : MtxId) (n : Int)
  /-- a mutex without waiters becomes free -/
  | free (m : MtxId)
  /-- a mutex leaves the list of its owner, waiters are still queued; `clear`
  when it is destroyed -/
  | strip (m : MtxId) (clear : Bool)
  /-- a mutex goes to its first waiter, who is woken -/
  | handover (m : MtxId) (t : TaskId)
  /-- a waiter of a destroyed mutex is woken with its new priority -/
  | evict (m : MtxId) (t : TaskId) (p : Nat)
  | setSem (x : SemId) (a : AtomicSem)
  | setEvent (v : EvtId) (b : Bits)
  /-- the current task is back from a blocking service -/
  | unframe
  | realPrio (t : TaskId) (p : Nat)
  | refcnt (t : TaskId) (n : Nat)
  /-- bookkeeping of the context switch and the tick -/
  | pend
  | lock (a : AtomicSem)
  | skipped (n : Int)
  | yieldPending (b : Bool)
  | jiffies (n : Nat)
  /-- the tick counter wraps, and the timeout lists change places -/
  | swap
  | unpend
  /-- `t` gets the CPU -/
  | switch (t : TaskId)
  /-- a better task is created before the scheduler runs -/
  | current (t : TaskId)
  /-- a finished task is reclaimed -/
  | reap (t : TaskId)
  | newTask (x : Task)
  | newSem (a : AtomicSem)
  | newMutex
  | newCond
  | newEvent
  | start

namespace Act

/-- The state after an action. -/
def apply : Act → Core → Core
  | .wake t w msg, c => ((c.dequeue? t w).untime t).makeReady t (.dmsg msg)
  | .signal x t, c =>
    (((c.setSem x (c.sem x).inc).dequeue t (.sem x)).untime t).makeReady t (.dmsg isixEok)
  | .expire t w, c =>
    let c' := ((c.untime t).dequeue? t w).giveBack t
    c'.makeReady t (if w = none then (c.task t).obj else .dmsg isixEtimeout)
  | .sleep k, c =>
    (((c.takeUnit k).withTask c.currp k.write).addTime? c.currp k.timeout).enqueue? c.currp k.head
  | .reprio t p, c =>
    ((c.dequeue? t (Core.prioHead (c.task t))).withTask t fun x =>
      { x with prio := p, state := if x.state.active then .ready else x.state }).enqueue? t
        (Core.prioHead (c.task t))
  | .detach t w, c => ((c.untime t).giveBack t).dequeue? t w
  | .park t suspend, c =>
    let c := c.withTask t fun x =>
      { abortWait suspend x with state := if suspend then .suspend else .zombie }
    if suspend then c
    else { c.enqueue t .zombie with numberOfTaskDeleted := c.numberOfTaskDeleted + 1 }
  | .own m, c =>
    (c.withMutex m fun x => { x with count := toInt32 (x.count + 1), owner := some c.currp }).linkMutex
      m c.currp
  | .count m n, c => c.withMutex m fun x => { x with count := n }
  | .free m, c => (c.unlinkMutex m).withMutex m fun x => { x with count := 0, owner := none }
  | .strip m clear, c =>
    (c.unlinkMutex m).withMutex m fun x =>
      { x with count := 0, owner := if clear then none else x.owner }
  | .handover m t, c =>
    let c := (c.withMutex m fun x => { x with count := 1, owner := some t }).dequeue t (.mtx m)
    (((c.unlinkMutex m).linkMutex m t).untime t).makeReady t (.dmsg isixEok)
  | .evict m t p, c =>
    (((c.dequeue t (.mtx m)).withTask t fun x => { x with prio := p }).untime t).makeReady t
      (.dmsg isixEdestroy)
  | .setSem x a, c => c.setSem x a
  | .setEvent v b, c => { c with event := update c.event v b }
  | .unframe, c => c.withTask c.currp fun x => { x with frame := .user }
  | .realPrio t p, c => c.withTask t fun x => { x with realPrio := p }
  | .refcnt t n, c => c.withTask t fun x => { x with refcnt := n }
  | .pend, c => { c with pendsv := true }
  | .lock a, c => { c with schedLock := a }
  | .skipped n, c => { c with jiffiesSkipped := n }
  | .yieldPending b, c => { c with yieldPending := b }
  | .jiffies n, c => { c with jiffies := n }
  | .swap, c => { c with jiffies := 0, pWaitList := !c.pWaitList }
  | .unpend, c => { c with pendsv := false }
  | .switch t, c =>
    let c := c.withTask c.currp fun x =>
      { x with state := if x.state = .running then .ready else x.state }
    { c.withTask t fun x => { x with state := .running } with currp := t }
  | .current t, c => { c with currp := t }
  | .reap t, c =>
    { (c.dequeue t .zombie).withTask t fun x => { x with state := .exited } with
      numberOfTaskDeleted := c.numberOfTaskDeleted - 1 }
  | .newTask x, c =>
    { c with
      ntask := c.ntask + 1
      task := update c.task c.ntask x
      lists := update c.lists (.exit c.ntask) [] }
  | .newSem a, c =>
    { c with
      nsem := c.nsem + 1
      sem := update c.sem c.nsem a
      lists := update c.lists (.sem c.nsem) [] }
  | .newMutex, c =>
    { c with
      nmtx := c.nmtx + 1
      mutex := update c.mutex c.nmtx { count := 0, owner := none, inode := none }
      lists := update c.lists (.mtx c.nmtx) [] }
  | .newCond, c =>
    { c with ncond := c.ncond + 1, lists := update c.lists (.cond c.ncond) [] }
  | .newEvent, c =>
    { c with
      nevt := c.nevt + 1
      event := update c.event c.nevt 0#32
      lists := update c.lists (.evt c.nevt) [] }
  | .start, c =>
    { c.withTask c.currp fun x => { x with state := .running } with jiffies := 0, schrun := true }

end Act

/-! ## guards and paths -/

/-- What a task's state says about the wait list it is on. -/
def Waits (x : Task) : Option WaitHead → Prop
  | some (.sem i) => x.state = .wtsem ∧ x.obj = .sem i
  | some (.mtx m) => x.state = .wtmtx ∧ x.obj = .mtx m
  | some (.cond c) => x.state = .wtcond ∧ x.obj = .cond c
  | some (.evt _) => x.state = .wtevt ∧ ∃ b, x.obj = .evbits b
  | some (.exit _) => x.state = .wtexit
  | some .zombie => x.state = .zombie
  | none => x.state ≠ .wtsem ∧ x.state ≠ .wtmtx ∧ x.state ≠ .wtcond ∧ x.state ≠ .wtevt ∧
    x.state ≠ .wtexit ∧ x.state ≠ .zombie

/-- `t` waits on `w`, and is on no other list. -/
structure Sits (t : TaskId) (w : Option WaitHead) (c : Core) : Prop where
  waits : Waits (c.task t) w
  count : ∀ w', (c.lists w').count t = if w = some w' then 1 else 0
  lt : t < c.ntask

/-- A blocked call on the event `v` that stored `evbits`. -/
def Frame.asks (v : EvtId) (evbits : Bits) : Frame → Prop
  | .eventWait v' bits clear all timeout _ =>
    v' = v ∧ evbits = waitBits bits clear all ∧ bits &&& ctrlBits = 0#32 ∧ timeout < tickMod
  | .eventSync v' bits timeout _ =>
    v' = v ∧ evbits = waitBits bits true true ∧ bits &&& ctrlBits = 0#32 ∧ timeout < tickMod
  | _ => False

/-- What a sleep refers to exists, and the timeouts are in range. -/
def Sleep.valid (c : Core) : Sleep → Prop
  | .sem x timeout _ tout => x < c.nsem ∧ timeout < tickMod ∧ tout < tickMod
  | .mutex m => m < c.nmtx ∧ ∃ o, (c.mutex m).owner = some o ∧ o ≠ c.currp
  | .cond v m tout => v < c.ncond ∧ m < c.nmtx ∧ tout < tickMod
  | .event v evbits tout frame => v < c.nevt ∧ tout < tickMod ∧ frame.asks v evbits
  | .exit t => t < c.ntask ∧ t ≠ c.currp
  | .time tout => tout < tickMod

/-- The messages `t` can be woken with. -/
def Wakes (t : TaskId) (msg : Int) (c : Core) : Option WaitHead → Prop
  | none => msg = isixEok ∧ ((c.task t).state = .created ∨ (c.task t).state = .suspend)
  | some (.sem _) => msg = isixEreset ∨ msg = isixEdestroy
  | some (.cond _) => msg = isixEok ∨ msg = isixEdestroy
  | some (.evt v) => msg = isixEdestroy ∨
    msg = (c.event v).toInt ∧ ∃ b, (c.task t).obj = .evbits b ∧ checkCond2 (c.event v) b
  | some (.exit u) => msg = isixEdestroy ∨ msg = isixEok ∧ u = c.currp
  | some (.mtx _) | some .zombie => False

/-- The values of the scheduler lock, a counter without limit. -/
def AtomicSem.LockRange (a : AtomicSem) : Prop := 0 ≤ a.value ∧ a.value ≤ 2147483647 ∧ a.limit = 0

/-- When an action may happen. -/
def Act.guard [Config] : Act → Core → Prop
  | .wake t w msg, c => Sits t w c ∧ (c.task t).state.asleep ∧ Wakes t msg c w
  | .signal x t, c => Sits t (some (.sem x)) c ∧ (c.lists (.sem x)).head? = some t
  | .expire t w, c => Sits t w c ∧ (c.task t).state.timed ∧ (c.task t).inodeTime ≠ none
  | .sleep k, c =>
    Sits c.currp none c ∧ c.currp ≠ idle ∧ c.schrun = true ∧ (c.task c.currp).state.active ∧
      k.valid c
  | .reprio t p, c => (∃ w, Sits t w c) ∧ p ≤ Config.numberOfPriorities
  | .detach t w, c =>
    Sits t w c ∧ (c.task t).state.dead = false ∧ t ≠ idle ∧ (c.schrun = false → t ≠ c.currp)
  | .park t suspend, c =>
    (∀ w, t ∉ c.lists w) ∧ t < c.ntask ∧ (c.task t).state.dead = false ∧
      (c.task t).inodeTime = none ∧ t ≠ idle ∧ (c.schrun = false → t ≠ c.currp) ∧
      (suspend = false → (c.task t).ownedMutexes = [])
  | .own m, c => (c.mutex m).owner = none ∧ m < c.nmtx ∧ (c.task c.currp).state.active
  | .count m _, c => (c.mutex m).owner = some c.currp
  | .free m, c => (c.mutex m).owner ≠ none ∧ c.lists (.mtx m) = []
  | .strip m _, c => (c.mutex m).owner ≠ none
  | .handover m t, c => Sits t (some (.mtx m)) c ∧ (c.lists (.mtx m)).head? = some t
  | .evict m t p, c => Sits t (some (.mtx m)) c ∧ p ≤ Config.numberOfPriorities
  | .unframe, c => Sits c.currp none c ∧ (c.task c.currp).state.active
  | .realPrio t p, c => t < c.ntask ∧ p ≤ Config.numberOfPriorities
  | .refcnt t _, c => t < c.ntask
  | .lock a, _ => a.LockRange
  | .switch t, c => (c.task t).state.active ∧ t < c.ntask ∧ c.schrun = true
  | .current t, c => c.schrun = false ∧ t < c.ntask ∧ (c.task t).state = .ready
  | .reap t, c => Sits t (some .zombie) c
  | .newTask x, c =>
    x.prio ≤ Config.numberOfPriorities ∧ x.realPrio ≤ Config.numberOfPriorities ∧
      x.state.asleep ∧ x.ownedMutexes = [] ∧ x.inodeTime = none ∧ (∀ w, c.ntask ∉ c.lists w) ∧
      x.state ≠ .sleeping ∧ x.frame = .user
  | .jiffies n, c =>
    n < tickMod ∧ (∀ t ∈ c.waitLists c.pWaitList, n < (c.task t).jiffies) ∧
      ∀ t ∈ c.waitLists (!c.pWaitList), (c.task t).jiffies < n
  | .swap, c => c.waitLists c.pWaitList = [] ∧ ∀ t ∈ c.waitLists (!c.pWaitList), 0 < (c.task t).jiffies
  | .start, c => c.schrun = false ∧ (c.task c.currp).state = .ready
  | _, _ => True

/-- Actions of the tick and of the bookkeeping, which every service may do. -/
def Act.quiet : Act → Bool
  | .expire _ _ | .pend | .skipped _ | .yieldPending _ | .jiffies _ | .swap | .current _ => true
  | _ => false

/-- `c'` is reached from `c` by actions `A` allows. -/
inductive Path [Config] (A : Act → Core → Prop) : Core → Core → Prop
  | refl (c : Core) : Path A c c
  | step {c c' : Core} (a : Act) (h : Path A c c') (ha : A a c') (hg : a.guard c') :
      Path A c (a.apply c')

namespace Path

variable [Config] {A B : Act → Core → Prop} {c c' c'' : Core}

theorem single (a : Act) (ha : A a c) (hg : a.guard c) : Path A c (a.apply c) :=
  .step a (.refl c) ha hg

theorem trans (h : Path A c c') (h' : Path A c' c'') : Path A c c'' := by
  induction h' with
  | refl => exact h
  | step a _ ha hg ih => exact .step a ih ha hg

theorem mono (h : Path A c c') (hAB : ∀ a c, A a c → B a c) : Path B c c' := by
  induction h with
  | refl => exact .refl _
  | step a _ ha hg ih => exact .step a ih (hAB a _ ha) hg

/-- An invariant of the actions is an invariant of the path. -/
theorem invariant {P : Core → Prop} (h : Path A c c') (hc : P c)
    (hP : ∀ a c, A a c → a.guard c → P c → P (a.apply c)) : P c' := by
  induction h with
  | refl => exact hc
  | step a _ ha hg ih => exact hP a _ ha hg ih

end Path

end Isix
