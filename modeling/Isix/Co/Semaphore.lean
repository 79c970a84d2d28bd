import Isix.Co.Scheduler
import Isix.Lib.Runs

/-!
# Isix.Co.Semaphore

`libisix/include/isix/cpp/co_semaphore.hpp`: a counting semaphore for
coroutines.  `signal` adds a token and queues the semaphore for dispatch in one
critical section of any thread or interrupt; the dispatch, in the scheduler
thread, hands the tokens to the waiters, one critical section for each.
-/

namespace Isix.Co.Semaphore

open Function (update)

/-- A `semaphore` and its scheduler, and what happened so far. -/
structure State where
  sched : Scheduler
  count : Int
  /-- `m_signal.queued` -/
  queued : Bool := false
  /-- the scheduler thread is in `dispatch` -/
  dispatching : Bool := false
  /-- the takes are numbered in the order in which they begin -/
  takes : Nat := 0
  ticket : NodeId → Nat := fun _ => 0
  /-- the tokens consumed for the take of a node -/
  tokens : NodeId → Nat := fun _ => 0
  /-- the takes that got a token -/
  served : List Nat := []
  /-- the result of a take that returned, and the tokens consumed for it -/
  returned : List (Int × Nat) := []
  /-- for a signal that was dropped, the tokens stored minus the coroutines waiting -/
  dropped : List Int := []

def State.init (time : Nat) (initial : Int) : State := { sched := { time }, count := initial }

/-- `m_waiters` -/
def State.waiters (s : State) : List NodeId := s.sched.waiters 0

/-! ## the calls -/

/-- `signal` and `signal_isr`: `add_token` and the queueing of the link. -/
def signal (limit : Int) (s : State) : State :=
  if s.count < limit then { s with count := s.count + 1, queued := true }
  else { s with queued := true, dropped := (s.count - s.waiters.length) :: s.dropped }

/-- A `co_await` of `take` that does not suspend. -/
def State.answer (n : NodeId) (result : Int) (s : State) : State :=
  { s with returned := (result, s.tokens n) :: s.returned }

/-- A token goes to the take of a node. -/
def State.consume (n : NodeId) (s : State) : State :=
  { s with
    count := s.count - 1
    tokens := update s.tokens n (s.tokens n + 1)
    served := s.served ++ [s.ticket n] }

/-- A take begins. -/
def State.begin (n : NodeId) (s : State) : State :=
  { s with takes := s.takes + 1, ticket := update s.ticket n s.takes, tokens := update s.tokens n 0 }

/-- `co_await sem.take(timeout)`: `await_ready` and `await_suspend`.  `cancelled`
is the flag of the promise, `foreign` a coroutine of another scheduler. -/
def take (n : NodeId) (h : Handle) (timeout : Nat) (cancelled foreign : Bool) (s : State) : State :=
  let s := s.begin n
  if s.waiters.isEmpty ∧ 0 < s.count then (s.consume n).answer n isixEok
  else if timeout = timeDontwait then s.answer n isixEtimeout
  else if cancelled then s.answer n isixEcanceled
  else if foreign then s.answer n isixEinvarg
  else { s with sched := s.sched.waitOn 0 n h timeout }

/-- One round of the loop of `dispatch`. -/
def serve (s : State) : State :=
  match s.waiters with
  | [] => { s with dispatching := false }
  | n :: _ =>
    if 0 < s.count then { s.consume n with sched := s.sched.wake n isixEok }
    else { s with dispatching := false }

/-! ## runs -/

inductive Event where
  | signal
  /-- `try_take`, by anyone -/
  | tryTake
  | take (n : NodeId) (h : Handle) (timeout : Nat) (cancelled foreign : Bool)
  /-- `drain_inbox` releases the link and calls `dispatch` -/
  | dispatch
  | serve
  | resume
  | background (b : Background)
  deriving DecidableEq

def step (limit : Int) : Event → State → Option State
  | .signal, s => some (signal limit s)
  | .tryTake, s => if 0 < s.count then some { s with count := s.count - 1 } else none
  | .take n h timeout cancelled foreign, s =>
    if s.sched.running = some h ∧ (s.sched.node n).state = .idle ∧ s.dispatching = false then
      some (take n h timeout cancelled foreign s)
    else none
  | .dispatch, s =>
    if s.queued = true ∧ s.dispatching = false ∧ s.sched.running = none then
      some { s with queued := false, dispatching := true }
    else none
  | .serve, s => if s.dispatching = true then some (serve s) else none
  | .resume, s =>
    if s.dispatching = false ∧ s.sched.running = none then
      s.sched.resume.map fun (n, sched) => { s.answer n (s.sched.node n).result with sched }
    else none
  | .background b, s =>
    if s.dispatching = false ∨ b = .tick then (s.sched.background b).map fun sched => { s with sched } else none

def Step (limit : Int) (e : Event) (s s' : State) : Prop := step limit e s = some s'

end Isix.Co.Semaphore
