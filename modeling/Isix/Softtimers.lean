import Isix.Semaphore

/-!
# Isix.Softtimers

`libisix/kernel/softtimers.c`: virtual timers.  A worker task takes commands
from a queue and keeps the running timers on two lists sorted by deadline, one
for the deadlines before the next wrap of the tick counter and one for those
after it.

A callback is user code; the only thing it can do to a timer at once is
`isix_vtimer_mod`, everything else goes through the queue.  `Callbacks` says
for each invocation which calls of `isix_vtimer_mod` it makes.  The two loops
of the worker that insert a timer again need not end, so they take fuel.
-/

namespace Isix.Softtimers

open Function (update)
open Intrusive (insertBefore next?)

abbrev TmrId := Nat

/-- `OSVTIMER_CB_CANCEL` -/
def osvtimerCbCancel : Nat := 0

/-- `struct isix_vtimer`; `callback` is `none` for `NULL`. -/
structure Vtimer where
  jiffies : Nat
  timeout : Nat
  callback : Option Nat
  arg : Nat
  /-- which of `_vtimer_list_[0]`, `_vtimer_list_[1]` the timer is on -/
  inode : Option Bool
  cyclic : Bool
  isActive : Bool
  deriving DecidableEq, Repr

/-- The timer as `isix_vtimer_create` returns it. -/
def Vtimer.zero : Vtimer :=
  { jiffies := 0, timeout := 0, callback := none, arg := 0, inode := none, cyclic := false
    isActive := false }

/-- One call of a timer callback. -/
structure Invocation where
  timer : TmrId
  callback : Nat
  arg : Nat
  deriving DecidableEq, Repr

/-- `struct vtimer_context` and the timers; `invoked` records the calls of the
callbacks, in order. -/
structure VtimerContext where
  vtimer : TmrId → Vtimer
  lists : Bool → List TmrId
  /-- `p_vtimer_list`; `pov_vtimer_list` is the other of the two -/
  pVtimerList : Bool
  invoked : List Invocation

/-- The arguments of the calls of `isix_vtimer_mod` made by the callback that
is invoked as number `n`. -/
abbrev Callbacks := Nat → List (TmrId × Nat)

namespace VtimerContext

def withTimer (x : TmrId) (g : Vtimer → Vtimer) (c : VtimerContext) : VtimerContext :=
  { c with vtimer := update c.vtimer x (g (c.vtimer x)) }

/-- `list_delete( &timer->inode )`; the callers have the timer on a list. -/
def listDelete (x : TmrId) (c : VtimerContext) : VtimerContext :=
  match (c.vtimer x).inode with
  | none => c
  | some b =>
    { c.withTimer x fun v => { v with inode := none } with
      lists := update c.lists b ((c.lists b).erase x) }

end VtimerContext

open VtimerContext

/-- `isix_vtimer_mod` -/
def isixVtimerMod (x : TmrId) (newTimeout : Nat) (c : VtimerContext) : VtimerContext × Int :=
  if (c.vtimer x).cyclic = false then (c, isixEinvarg)
  else if newTimeout = osvtimerCbCancel then
    (c.withTimer x fun v => { v with cyclic := false, callback := none }, isixEok)
  else (c.withTimer x fun v => { v with timeout := newTimeout }, isixEok)

/-- The calls of `isix_vtimer_mod` made by one invocation of a callback. -/
def applyMods (mods : List (TmrId × Nat)) (c : VtimerContext) : VtimerContext :=
  mods.foldl (fun c m => (isixVtimerMod m.1 m.2 c).1) c

section

variable (cb : Callbacks) (tnow : Nat)

/-- `timer->callback( timer->arg )`, if there is a callback. -/
def invoke (x : TmrId) (c : VtimerContext) : VtimerContext :=
  match (c.vtimer x).callback with
  | none => c
  | some f =>
    applyMods (cb c.invoked.length)
      { c with invoked := c.invoked ++ [⟨x, f, (c.vtimer x).arg⟩] }

/-- `exec_timer_callback` -/
def execTimerCallback (x : TmrId) (c : VtimerContext) : VtimerContext :=
  let c := invoke cb x c
  if (c.vtimer x).cyclic then c else c.withTimer x fun v => { v with isActive := false }

/-- `add_list_with_prio`, on the list `b` -/
def addListWithPrio (b : Bool) (x : TmrId) (c : VtimerContext) : VtimerContext :=
  { c.withTimer x fun v => { v with inode := some b } with
    lists := update c.lists b
      (insertBefore (fun w => decide ((c.vtimer x).jiffies < (c.vtimer w).jiffies)) x (c.lists b)) }

/-- `add_vtimer_to_list` -/
def addVtimerToList (x : TmrId) (c : VtimerContext) : VtimerContext :=
  let c := c.withTimer x fun v => { v with jiffies := toTick (v.jiffies + v.timeout) }
  addListWithPrio (if (c.vtimer x).jiffies < tnow then !c.pVtimerList else c.pVtimerList) x c

/-- `struct start_param` -/
structure StartParam where
  tmr : TmrId
  callback : Option Nat
  args : Nat
  tout : Nat
  itime : Nat
  cyclic : Bool
  deriving DecidableEq, Repr

/-- `handle_add` -/
def handleAdd (param : StartParam) (c : VtimerContext) : VtimerContext :=
  let c := c.withTimer param.tmr fun v =>
    { v with
      jiffies := param.itime, timeout := param.tout, callback := param.callback
      arg := param.args, cyclic := param.cyclic, isActive := true }
  if param.tout ≤ tickSub tnow param.itime then
    -- the deadline passed before the command was read
    let c := execTimerCallback cb param.tmr c
    if (c.vtimer param.tmr).cyclic then
      addVtimerToList tnow param.tmr (c.withTimer param.tmr fun v => { v with jiffies := tnow })
    else c
  else addVtimerToList tnow param.tmr c

/-- The loop of `cyclic_reschedule_after_fire` and what follows it. -/
def cyclicLoop (x : TmrId) : Nat → Nat → VtimerContext → Option VtimerContext
  | 0, _, _ => none
  | fuel + 1, next, c =>
    if next ≤ tnow then
      let before := (c.vtimer x).timeout
      let c := execTimerCallback cb x c
      if (c.vtimer x).cyclic = false then some c
      else if (c.vtimer x).timeout ≠ before then
        some (addVtimerToList tnow x (c.withTimer x fun v => { v with jiffies := tnow }))
      else cyclicLoop x fuel (toTick (next + (c.vtimer x).timeout)) c
    else
      some (addVtimerToList tnow x
        (c.withTimer x fun v => { v with jiffies := tickSub next v.timeout }))

/-- `cyclic_reschedule_after_fire` -/
def cyclicRescheduleAfterFire (fuel : Nat) (x : TmrId) (c : VtimerContext) : Option VtimerContext :=
  if (c.vtimer x).timeout = 0 then some (addVtimerToList tnow x c)
  else cyclicLoop cb tnow x fuel (toTick ((c.vtimer x).jiffies + (c.vtimer x).timeout)) c

/-- `if( vtimer->cyclic ) cyclic_reschedule_after_fire( vtimer, tnow )` -/
def rescheduleIfCyclic (fuel : Nat) (x : TmrId) (c : VtimerContext) : Option VtimerContext :=
  if (c.vtimer x).cyclic then cyclicRescheduleAfterFire cb tnow fuel x c else some c

/-- The loop of `switch_timer_list`: `list_for_each_entry_safe` reads the next
timer before the body unlinks the current one. -/
def switchLoop : Nat → Option TmrId → VtimerContext → Option VtimerContext
  | _, none, c => some c
  | 0, some _, _ => none
  | fuel + 1, some x, c =>
    let tmp := next? x (c.lists c.pVtimerList)
    (rescheduleIfCyclic cb tnow fuel x (execTimerCallback cb x (c.listDelete x))).bind
      (switchLoop fuel tmp)

/-- `switch_timer_list` -/
def switchTimerList (fuel : Nat) (c : VtimerContext) : Option VtimerContext :=
  (switchLoop cb tnow fuel (c.lists c.pVtimerList).head? c).map fun c =>
    { c with pVtimerList := !c.pVtimerList }

/-- The loop of `handle_time`. -/
def handleTimeLoop : Nat → VtimerContext → Option VtimerContext
  | 0, _ => none
  | fuel + 1, c =>
    match c.lists c.pVtimerList with
    | [] => some c
    | x :: _ =>
      if (c.vtimer x).jiffies ≤ tnow then
        (rescheduleIfCyclic cb tnow fuel x ((execTimerCallback cb x c).listDelete x)).bind
          (handleTimeLoop fuel)
      else some c

/-- How long the worker may wait for the next command. -/
def nextWait (c : VtimerContext) : Nat :=
  match c.lists c.pVtimerList with
  | [] => tickSub 0 tnow
  | x :: _ => tickSub (c.vtimer x).jiffies tnow

/-- `switch_timer_list` when the tick counter has wrapped -/
def switchIf (fuel : Nat) (overflow : Bool) (c : VtimerContext) : Option VtimerContext :=
  if overflow then switchTimerList cb tnow fuel c else some c

/-- `handle_time` -/
def handleTime (fuel : Nat) (overflow : Bool) (c : VtimerContext) : Option (VtimerContext × Nat) :=
  ((switchIf cb tnow fuel overflow c).bind (handleTimeLoop cb tnow fuel)).map fun c =>
    (c, nextWait tnow c)

/-- `handle_cancel` -/
def handleCancel (x : TmrId) (c : VtimerContext) : VtimerContext :=
  if (c.vtimer x).inode.isSome then
    (c.listDelete x).withTimer x fun v => { v with isActive := false }
  else c

/-- `command_t` -/
inductive Command where
  | add (param : StartParam)
  | cancel (tmr : TmrId)
  | execnow (fn arg : Nat)
  | delete (tmr : TmrId)
  deriving DecidableEq, Repr

/-- The `switch` of `worker_thread`; `none` is a timeout of the queue.  What
`isix_free` does to a deleted timer is not modelled. -/
def handleCommand (cmd : Option Command) (c : VtimerContext) : VtimerContext :=
  match cmd with
  | some (.add param) => handleAdd cb tnow param (handleCancel param.tmr c)
  | some (.cancel x) | some (.delete x) => handleCancel x c
  | some (.execnow _ _) | none => c

/-- The locals of `worker_thread` that live from one round to the next. -/
structure Worker where
  tctx : VtimerContext
  pjiff : Nat
  tout : Nat

/-- One round of the loop of `worker_thread`, at the tick `tnow`. -/
def workerRound (fuel : Nat) (cmd : Option Command) (w : Worker) : Option Worker :=
  (switchIf cb tnow fuel (decide (tnow < w.pjiff)) w.tctx).bind fun c =>
    (handleTime cb tnow fuel false (handleCommand cb tnow cmd c)).map fun r =>
      { tctx := r.1, pjiff := tnow, tout := r.2 }

end

/-- The worker when `isix_vtimer_initialize` has created it. -/
def Worker.init : Worker :=
  { tctx := { vtimer := fun _ => Vtimer.zero, lists := fun _ => [], pVtimerList := false, invoked := [] }
    pjiff := 0
    tout := 1 }

/-! ## requests in real time -/

/-- The calls that put a command into the queue.  `stamp` is the number of
ticks since the start of the system when `isix_vtimer_start` was called. -/
inductive Request where
  | start (timer : TmrId) (callback : Option Nat) (arg timeout : Nat) (cyclic : Bool) (stamp : Nat)
  | cancel (timer : TmrId)
  | destroy (timer : TmrId)
  | work (fn arg : Nat)
  deriving DecidableEq, Repr

/-- The command `_isixp_vtimer_start`, `_isixp_vtimer_cancel`,
`isix_vtimer_destroy` and `isix_schedule_work_isr` write to the queue. -/
def Request.command : Request → Command
  | .start timer callback arg timeout cyclic stamp =>
    .add { tmr := timer, callback := callback, args := arg, tout := timeout
           itime := toTick stamp, cyclic := cyclic }
  | .cancel timer => .cancel timer
  | .destroy timer => .delete timer
  | .work fn arg => .execnow fn arg

/-- The timer a request is about. -/
def Request.timer? : Request → Option TmrId
  | .start timer _ _ _ _ _ | .cancel timer | .destroy timer => some timer
  | .work _ _ => none

/-- A round of the worker at the real time `time`, counted in ticks without
wrap, and the request it has found in the queue. -/
structure Round where
  time : Nat
  request : Option Request
  deriving DecidableEq, Repr

/-- The command a round finds. -/
def Round.command (r : Round) : Option Command := r.request.map Request.command

/-- The worker after a sequence of rounds. -/
def runRounds (cb : Callbacks) (fuel : Nat) : List Round → Worker → Option Worker
  | [], w => some w
  | r :: rs, w => (workerRound cb (toTick r.time) fuel r.command w).bind (runRounds cb fuel rs)

end Isix.Softtimers
