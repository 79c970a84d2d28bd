import Isix.Semaphore

/-!
# Isix.Events

`libisix/kernel/events.c`: sets of event bits.  A waiting task keeps the bits
it waits for in `obj.evbits`, with the two control bits for the kind of the
wait; a wake-up replaces them by the bits found, as a message.  An error code
is negative, so it has the control bits set.
-/

namespace Isix

open Function (update)
open Kernel

/-- `check_cond` -/
def checkCond (curr waitFor : Bits) (all : Bool) : Bool :=
  if all then curr &&& waitFor == waitFor else curr &&& waitFor != 0#32

/-- `check_cond2` -/
def checkCond2 (curr waitFor : Bits) : Bool :=
  checkCond curr (waitFor &&& evBits) (waitFor &&& ctrlAllMatchFlag != 0#32)

/-- The bits read from `obj.evbits`; a message has the same 32 bits. -/
def Obj.evbits? : Obj → Option Bits
  | .evbits b => some b
  | .dmsg r => some (BitVec.ofInt 32 r)
  | _ => none

/-- `_isixp_max_prio` -/
def isixpMaxPrio (t1 t2 : TaskId) (s : Kernel) : TaskId :=
  if (s.task t2).prio < (s.task t1).prio then t2 else t1

variable [Config]

def Kernel.setEvent (v : EvtId) (b : Bits) (s : Kernel) : Kernel :=
  { s with event := update s.event v b }

/-- `isix_event_create` -/
def isixEventCreate (s : Kernel) : Kernel × Answer :=
  ({ s with
      nevt := s.nevt + 1
      event := update s.event s.nevt 0#32
      lists := update s.lists (.evt s.nevt) [] },
    .handle (some s.nevt))

/-- The body of the loop of `isix_event_destroy`; the second component is
`wkup_task`. -/
def destroyEventOne (acc : Kernel × TaskId) (t : TaskId) : Except Panic (Kernel × TaskId) := do
  let (s, wkup) := acc
  let s ← removeAndWakeup t isixEdestroy s
  pure (s, isixpMaxPrio wkup t s)

/-- `isix_event_destroy` -/
def isixEventDestroy (evh : Option EvtId) (s : Kernel) : Reply :=
  match evh with
  | none => .ok (s, .code isixEinvarg)
  | some v => do
    let (s, wkup) ← (s.lists (.evt v)).foldlM destroyEventOne (s, s.currp)
    pure (isixpDoReschedule wkup s, .code isixEok)

/-- The sleep of `isix_event_wait` and `isix_event_sync`. -/
def eventSleep (v : EvtId) (evbits : Bits) (tout : Nat) (frame : Frame) (s : Kernel) : Res := do
  let s := s.withTask s.currp fun x => { x with waitAborted := false }
  let s ← isixpSetSleepTimeout .wtevt tout s
  let s := s.listInsertEnd (.evt v) s.currp
  pure (s.withTask s.currp fun x => { x with obj := .evbits evbits, frame := frame })

/-- The bits stored by a wait, with its control bits. -/
def waitBits (bits : Bits) (clear all : Bool) : Bits :=
  bits ||| (if all then ctrlAllMatchFlag else 0#32) ||| (if clear then ctrlClearExitFlag else 0#32)

/-- The part of the loop of `isix_event_wait` that goes to sleep. -/
def eventWaitSleep (v : EvtId) (bits : Bits) (clear all : Bool) (timeout start tout : Nat)
    (s : Kernel) : Reply := do
  let s ← eventSleep v (waitBits bits clear all) tout (.eventWait v bits clear all timeout start) s
  pure (isixYield s, .blocked)

/-- One round of the loop of `isix_event_wait`. -/
def eventWaitBody (v : EvtId) (bits : Bits) (clear all : Bool) (timeout start : Nat)
    (s : Kernel) : Reply :=
  if checkCond (s.event v) bits all then
    .ok (if clear then s.setEvent v (s.event v &&& ~~~bits) else s, .code (s.event v).toInt)
  else if timeout = timeDontwait then .ok (s, .code (s.event v).toInt)
  else if timeout = timeInfinite then eventWaitSleep v bits clear all timeout start timeout s
  else
    let elapsed := tickSub s.jiffies start
    if timeout ≤ elapsed then .ok (s, .code isixEtimeout)
    else eventWaitSleep v bits clear all timeout start (timeout - elapsed) s

/-- `isix_event_wait`; `start` is the tick count read before the first
critical section. -/
def isixEventWait (evth : Option EvtId) (bits : Bits) (clear all : Bool) (timeout start : Nat)
    (s : Kernel) : Reply :=
  match evth with
  | none => .ok (s, .code isixEinvarg)
  | some v =>
    if bits = 0#32 ∨ bits &&& ctrlBits ≠ 0#32 then .ok (s, .code isixEinvarg)
    else eventWaitBody v bits clear all timeout start s

/-- `_isixp_event_clear` -/
def isixpEventClear (evth : Option EvtId) (bits : Bits) (s : Kernel) : Reply :=
  match evth with
  | none => .ok (s, .code isixEinvarg)
  | some v =>
    if bits &&& ctrlBits ≠ 0#32 then .ok (s, .code isixEinvarg)
    else .ok (s.setEvent v (s.event v &&& ~~~bits), .code (s.event v).toInt)

/-- `wkup_task` and `clr_bits` of `event_set`. -/
structure SetAcc where
  s : Kernel
  wkup : TaskId
  clr : Bits

/-- The body of the loop of `event_set`. -/
def eventSetOne (v : EvtId) (acc : SetAcc) (t : TaskId) : Except Panic SetAcc :=
  match (acc.s.task t).obj.evbits? with
  | none => .error .wrongUnionMember
  | some b =>
    if checkCond2 (acc.s.event v) b then do
      let s ← removeAndWakeup t (acc.s.event v).toInt acc.s
      pure
        { s := s
          wkup := isixpMaxPrio acc.wkup t s
          clr := if b &&& ctrlClearExitFlag ≠ 0#32 then acc.clr ||| (b &&& evBits) else acc.clr }
    else .ok acc

/-- `event_set` -/
def eventSet (v : EvtId) (bits : Bits) (s : Kernel) : Except Panic (Kernel × TaskId) := do
  let s := s.setEvent v (s.event v ||| bits)
  let acc ← (s.lists (.evt v)).foldlM (eventSetOne v) { s := s, wkup := s.currp, clr := 0#32 }
  pure (acc.s.setEvent v (acc.s.event v &&& ~~~acc.clr), acc.wkup)

/-- The event that `_isixp_event_set` sets, if its two checks pass. -/
def eventToSet (evth : Option EvtId) (bits : Bits) : Option EvtId :=
  if bits &&& ctrlBits ≠ 0#32 then none else evth

/-- `_isixp_event_set` -/
def isixpEventSet (evth : Option EvtId) (bits : Bits) (ctx : Context) (s : Kernel) : Reply :=
  match eventToSet evth bits with
  | none => .ok (s, .code isixEinvarg)
  | some v => do
    let (s, wkup) ← eventSet v bits s
    let retval := (s.event v).toInt
    let s ← leaveCritical ctx (some wkup) s
    pure (s, .code retval)

/-- The part of `isix_event_sync` that goes to sleep; the bits are set. -/
def eventSyncSleep (v : EvtId) (bits : Bits) (timeout start : Nat) (wkup : TaskId)
    (s : Kernel) : Reply := do
  let evbits := bits ||| ctrlAllMatchFlag ||| ctrlClearExitFlag
  let s ← eventSleep v evbits timeout (.eventSync v bits timeout start) s
  pure (if wkup ≠ s.currp then isixpDoReschedule wkup s else isixYield s, .blocked)

/-- `isix_event_sync`; `start` is the tick count read before the critical
section. -/
def isixEventSync (evth : Option EvtId) (bitsToSet bits : Bits) (timeout start : Nat)
    (s : Kernel) : Reply :=
  match evth with
  | none => .ok (s, .code isixEinvarg)
  | some v =>
    if bitsToSet &&& ctrlBits ≠ 0#32 then .ok (s, .code isixEinvarg)
    else if bits = 0#32 ∨ bits &&& ctrlBits ≠ 0#32 then .ok (s, .code isixEinvarg)
    else do
      let orgbits := s.event v
      let (s, wkup) ← eventSet v bitsToSet s
      if (orgbits ||| bitsToSet) &&& bits = bits then
        pure (isixpDoReschedule wkup (s.setEvent v (s.event v &&& ~~~bits)),
          .code (orgbits ||| bitsToSet).toInt)
      else if timeout = timeDontwait then
        pure (isixpDoReschedule wkup s, .code (s.event v).toInt)
      else eventSyncSleep v bits timeout start wkup s

end Isix
