import Isix.Co.Scheduler
import Isix.Lib.Runs

/-!
# Isix.Co.Mutex

`libisix/include/isix/cpp/co_mutex.hpp`: a mutex for the coroutines of one
scheduler.  All its calls are made in the scheduler thread.  `release` passes
the mutex to the first waiter, which owns it from then on although it is only
queued for resumption.

Beside the mutex the state keeps which coroutines are between a successful lock
and its unlock: a coroutine enters `held` when a lock or a `try_lock` succeeds
or the mutex is passed to it, and leaves it when it unlocks or when the scoped
lock that it made unlocks.
-/

namespace Isix.Co.Mutex

open Function (update)

/-- A `mutex` and its scheduler, and what happened so far. -/
structure State where
  sched : Scheduler
  locked : Bool := false
  owner : Option Handle := none
  /-- the node belongs to a `scoped_awaiter` -/
  isScoped : NodeId → Bool := fun _ => false
  /-- the coroutine that made the `scoped_lock` that owns the mutex -/
  guard : Option Handle := none
  held : List Handle := []
  /-- the locks are numbered in the order in which they begin -/
  locks : Nat := 0
  ticket : NodeId → Nat := fun _ => 0
  /-- how often the lock of a node got the mutex -/
  got : NodeId → Nat := fun _ => 0
  /-- the locks that got the mutex -/
  served : List Nat := []
  /-- the result of a lock that returned, and how often it got the mutex -/
  returned : List (Int × Nat) := []

def State.init (time : Nat) : State := { sched := { time } }

/-- `m_waiters` -/
def State.waiters (s : State) : List NodeId := s.sched.waiters 0

/-! ## the calls -/

/-- `try_lock` where the mutex is free -/
def State.take (s : State) : State := { s with locked := true, owner := s.sched.running }

/-- `release` -/
def State.release (s : State) : State :=
  match s.waiters with
  | n :: _ => { s with owner := some (s.sched.node n).h, sched := s.sched.wake n isixEok }
  | [] => { s with locked := false, owner := none }

/-- `try_lock` -/
def tryLock (s : State) : Bool × State :=
  if s.locked then (false, s) else (true, s.take)

/-- `unlock` -/
def unlock (s : State) : Int × State :=
  if s.locked = false then (isixEnotlocked, s)
  else if s.owner ≠ s.sched.running then (isixEperm, s)
  else (isixEok, s.release)

/-- The `unlock` of a `scoped_lock` that owns the mutex. -/
def unlockScoped (s : State) : State := { s.release with guard := none }

/-! ## what happened -/

/-- The coroutine `h` got the mutex. -/
def State.enter (h : Handle) (s : State) : State := { s with held := s.held ++ [h] }

/-- The coroutine `h` gave the mutex away between `s` and `t`: it is passed to the first waiter of `s`. -/
def State.leave (h : Handle) (s t : State) : State :=
  match s.waiters with
  | n :: _ =>
    { t with
      held := t.held.erase h ++ [(s.sched.node n).h]
      got := update t.got n (t.got n + 1)
      served := t.served ++ [s.ticket n] }
  | [] => { t with held := t.held.erase h }

/-- A lock begins. -/
def State.begin (n : NodeId) (isScoped : Bool) (s : State) : State :=
  { s with
    locks := s.locks + 1
    ticket := update s.ticket n s.locks
    got := update s.got n 0
    isScoped := update s.isScoped n isScoped }

/-- `await_resume` of the two awaiters: a `scoped_awaiter` makes a `scoped_lock`. -/
def State.answer (n : NodeId) (h : Handle) (result : Int) (s : State) : State :=
  { s with
    returned := (result, s.got n) :: s.returned
    guard := if s.isScoped n = true ∧ result = isixEok then some h else s.guard }

/-- `co_await mtx.lock(timeout)` and `mtx.scoped(timeout)`.  `cancelled` is the
flag of the promise, `foreign` a coroutine of another scheduler. -/
def lock (n : NodeId) (h : Handle) (timeout : Nat) (isScoped cancelled foreign : Bool) (s : State) : State :=
  let s := s.begin n isScoped
  if s.waiters.isEmpty ∧ s.locked = false then
    let s := s.take.enter h
    { s with got := update s.got n (s.got n + 1), served := s.served ++ [s.ticket n] }.answer n h isixEok
  else if timeout = timeDontwait then s.answer n h isixEtimeout
  else if cancelled then s.answer n h isixEcanceled
  else if foreign then s.answer n h isixEinvarg
  else { s with sched := s.sched.waitOn 0 n h timeout }

/-! ## runs -/

inductive Event where
  | tryLock (h : Handle)
  /-- a mutex that a scoped lock owns is not unlocked by its owner as well -/
  | unlock (h : Handle)
  | unlockScoped
  | lock (n : NodeId) (h : Handle) (timeout : Nat) (isScoped cancelled foreign : Bool)
  | resume
  /-- a coroutine that is not the owner is destroyed while it is suspended in a lock -/
  | detach (n : NodeId)
  | background (b : Background)
  deriving DecidableEq

def step : Event → State → Option State
  | .tryLock h, s =>
    if s.sched.running = some h then
      some (if (tryLock s).1 then (tryLock s).2.enter h else (tryLock s).2)
    else none
  | .unlock h, s =>
    if s.sched.running = some h ∧ (s.owner = some h → s.guard = none) then
      some (if (unlock s).1 = isixEok then s.leave h (unlock s).2 else (unlock s).2)
    else none
  | .unlockScoped, s => s.guard.map fun h => s.leave h (unlockScoped s)
  | .lock n h timeout isScoped cancelled foreign, s =>
    if s.sched.running = some h ∧ (s.sched.node n).state = .idle then
      some (lock n h timeout isScoped cancelled foreign s)
    else none
  | .resume, s =>
    if s.sched.running = none then
      s.sched.resume.map fun (n, sched) => { s with sched }.answer n (s.sched.node n).h (s.sched.node n).result
    else none
  | .detach n, s => if (s.sched.node n).h ∉ s.held then some { s with sched := s.sched.detach n } else none
  | .background b, s => (s.sched.background b).map fun sched => { s with sched }

def Step (e : Event) (s s' : State) : Prop := step e s = some s'

end Isix.Co.Mutex
