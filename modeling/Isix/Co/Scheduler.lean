import Isix.Types

/-!
# Isix.Co.Scheduler

`libisix/include/isix/cpp/coroutine_scheduler.hpp`: the lists of the coroutine
scheduler and the calls that move a wait node between them.

A wait node (`wait_node`) is the record of one suspension.  Its `sched_link` is
on `m_waiting` or on `m_ready`, its `timer_link` on `m_timers`, its `wait_link`
on the list of waiters of a primitive.  The intrusive lists are lists of node
numbers here: to unlink a node is to erase it from the list it is on.

Only the scheduler thread touches these lists.  What happens to them between
two critical sections is therefore one step in the models of the primitives.
-/

namespace Isix.Co

open Function (update)

def isixEcanceled : Int := -13

/-- A `wait_node`, or the `ready_item` of a promise. -/
abbrev NodeId := Nat

/-- A `std::coroutine_handle<>`. -/
abbrev Handle := Nat

/-- The list of waiters of a primitive. -/
abbrev ListId := Nat

/-- `static_cast<std::int16_t>` of an `int`. -/
def toInt16 (x : Int) : Int := x.bmod 65536

/-- `static_cast<std::int8_t>` of an `int`. -/
def toInt8 (x : Int) : Int := x.bmod 256

/-- `node_state` -/
inductive NodeState where
  | idle | waiting | ready
  deriving DecidableEq

/-- `wait_node` without its links, and with the members of its `ready_item`. -/
structure WaitNode where
  h : Handle := 0
  state : NodeState := .idle
  deadline : Nat := 0
  /-- there is an `on_abort` -/
  onAbort : Bool := false
  result : Int := isixEok
  timeoutResult : Int := isixEtimeout
  deriving DecidableEq

/-- `scheduler`, the members that concern wait nodes. -/
structure Scheduler where
  /-- the ticks since the start; `isix::get_jiffies` has 32 bits of them -/
  time : Nat := 0
  node : NodeId → WaitNode := fun _ => {}
  ready : List NodeId := []
  waiting : List NodeId := []
  timers : List NodeId := []
  /-- the `m_waiters` of the primitives -/
  waiters : ListId → List NodeId := fun _ => []
  /-- the coroutines that `on_abort` of a node cancels: for each child that still runs, the one it awaits in the end -/
  kids : NodeId → List Handle := fun _ => []
  running : Option Handle := none

namespace Scheduler

def jiffies (s : Scheduler) : Nat := toTick s.time

/-! ## timers -/

/-- `time_before`: the sign of the 32-bit difference. -/
def timeBefore (a b : Nat) : Bool := toInt32 ((a : Int) - b) < 0

/-- The loop of `insert_timer`: before the first node with a later deadline. -/
def insertBefore (deadline : NodeId → Nat) (n : NodeId) : List NodeId → List NodeId
  | [] => [n]
  | m :: l => if timeBefore (deadline n) (deadline m) then n :: m :: l else m :: insertBefore deadline n l

def insertTimer (n : NodeId) (s : Scheduler) : Scheduler :=
  { s with timers := insertBefore (fun m => (s.node m).deadline) n s.timers }

/-! ## the moves of a node -/

/-- `suspend`; the coroutine gives the processor back to `resume_ready`. -/
def suspend (n : NodeId) (h : Handle) (timeout : Nat) (timeoutResult : Int) (s : Scheduler) : Scheduler :=
  let node := { s.node n with h, result := isixEok, timeoutResult := toInt8 timeoutResult, state := .waiting }
  let s := { s with node := update s.node n node, waiting := s.waiting ++ [n], running := none }
  if timeout ≠ timeInfinite then
    insertTimer n { s with node := update s.node n { node with deadline := toTick (s.jiffies + timeout) } }
  else s

/-- `wait_link` put on the list of a primitive, and `suspend`. -/
def waitOn (q : ListId) (n : NodeId) (h : Handle) (timeout : Nat) (s : Scheduler) : Scheduler :=
  suspend n h timeout isixEtimeout { s with waiters := update s.waiters q (s.waiters q ++ [n]) }

/-- `wake` -/
def wake (n : NodeId) (result : Int) (s : Scheduler) : Scheduler :=
  if (s.node n).state ≠ .waiting then s
  else
    { s with
      waiters := fun q => (s.waiters q).erase n
      timers := s.timers.erase n
      waiting := s.waiting.erase n
      node := update s.node n { s.node n with result := toInt16 result, state := .ready }
      ready := s.ready ++ [n] }

/-- The node `cancel_wait` finds: the first one of the coroutine on `m_waiting`. -/
def waitingOf (h : Handle) (s : Scheduler) : Option NodeId := s.waiting.find? fun n => (s.node n).h = h

/-- `cancel_wait`: a node with an `on_abort` stays where it is, and its children are cancelled.  `depth` bounds how
deep such waits are nested. -/
def cancelWait : Nat → Handle → Scheduler → Scheduler
  | 0, _, s => s
  | depth + 1, h, s =>
    match s.waitingOf h with
    | none => s
    | some n =>
      if (s.node n).onAbort then (s.kids n).foldl (fun t c => cancelWait depth c t) s
      else s.wake n isixEcanceled

/-- `on_abort`; nested waits are different nodes on `m_waiting`. -/
def abort (n : NodeId) (s : Scheduler) : Scheduler :=
  (s.kids n).foldl (fun t c => t.cancelWait s.waiting.length c) s

/-- The loop of `process_due_timers`; every round takes a node off `m_timers`. -/
def fireDue (now : Nat) : Nat → Scheduler → Scheduler
  | 0, s => s
  | fuel + 1, s =>
    match s.timers with
    | [] => s
    | n :: rest =>
      if timeBefore now (s.node n).deadline then s
      else
        let t := { s with timers := rest }
        fireDue now fuel (if (s.node n).onAbort then t.abort n else t.wake n (s.node n).timeoutResult)

/-- `process_due_timers` -/
def processDueTimers (s : Scheduler) : Scheduler := fireDue s.jiffies s.timers.length s

/-- `wait_node::detach`: the frame of the coroutine is destroyed while it is suspended. -/
def detach (n : NodeId) (s : Scheduler) : Scheduler :=
  { s with
    waiters := fun q => (s.waiters q).erase n
    timers := s.timers.erase n
    waiting := s.waiting.erase n
    ready := s.ready.erase n
    node := update s.node n { s.node n with state := .idle } }

/-- One round of `resume_ready`, up to `h.resume()`, for the node in front. -/
def resume (s : Scheduler) : Option (NodeId × Scheduler) :=
  match s.ready with
  | [] => none
  | n :: rest =>
    some (n, { s with
      ready := rest
      node := update s.node n { s.node n with state := .idle }
      running := some (s.node n).h })

end Scheduler

/-! ## what the scheduler does on its own -/

/-- The steps that no primitive takes part in. -/
inductive Background where
  | tick
  /-- `process_due_timers` -/
  | timers
  /-- `cancel_promise` of the innermost awaited coroutine -/
  | cancel (h : Handle)
  /-- the coroutine suspends on something else, or ends -/
  | leave
  /-- it goes on after that, or a new coroutine starts -/
  | enter (h : Handle)
  deriving DecidableEq

/-- No node of the coroutine waits or is ready. -/
def Scheduler.Free (s : Scheduler) (h : Handle) : Prop :=
  (∀ n ∈ s.waiting, (s.node n).h ≠ h) ∧ ∀ n ∈ s.ready, (s.node n).h ≠ h

instance (s : Scheduler) (h : Handle) : Decidable (s.Free h) := inferInstanceAs (Decidable (_ ∧ _))

def Scheduler.background : Background → Scheduler → Option Scheduler
  | .tick, s => some { s with time := s.time + 1 }
  | .timers, s => if s.running = none then some s.processDueTimers else none
  | .cancel h, s => some (s.cancelWait s.waiting.length h)
  | .leave, s => some { s with running := none }
  | .enter h, s => if s.running = none ∧ s.Free h then some { s with running := some h } else none

end Isix.Co
