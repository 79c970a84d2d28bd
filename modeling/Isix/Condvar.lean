import Isix.Mutex
import Isix.Semaphore

/-!
# Isix.Condvar

`libisix/kernel/condvar.c`: condition variables.  A wait releases the mutex
at the head of the caller's `owned_mutexes` list and takes it again after the
wake-up.
-/

namespace Isix

open Kernel

variable [Config]

/-- `isix_condvar_create` -/
def isixCondvarCreate (s : Kernel) : Kernel × Answer :=
  ({ s with ncond := s.ncond + 1, lists := Function.update s.lists (.cond s.ncond) [] },
    .handle (some s.ncond))

/-- `_isixp_condvar_signal` -/
def isixpCondvarSignal (cv : Option CondId) (ctx : Context) (s : Kernel) : Reply :=
  match cv with
  | none => .ok (s, .code isixEinvarg)
  | some c =>
    match s.lists (.cond c) with
    | [] => .ok (s, .code isixEok)
    | t :: _ => do
      let s ← s.listDelete t
      if (s.task t).state = .wtcond then do
        let s ← signalTask t ctx s
        pure (s, .code isixEok)
      else .error .invalidCondState

/-- `condvar_broadcast_msg` -/
def condvarBroadcastMsg (c : CondId) (msg : Int) (ctx : Context) (s : Kernel) : Res := do
  let wkup := (s.lists (.cond c)).head?
  let s ← wakeupAll (.cond c) msg s
  leaveCritical ctx wkup s

/-- `_isixp_condvar_broadcast` -/
def isixpCondvarBroadcast (cv : Option CondId) (ctx : Context) (s : Kernel) : Reply :=
  match cv with
  | none => .ok (s, .code isixEinvarg)
  | some c => do
    let s ← condvarBroadcastMsg c isixEok ctx s
    pure (s, .code isixEok)

/-- The sleep of `isix_condvar_wait`; `m` is the mutex to lock again. -/
def condvarSleep (c : CondId) (m : MtxId) (timeout : Nat) (s : Kernel) : Reply := do
  let s ← isixpSetSleepTimeout .wtcond timeout s
  let s := addToPrioQueue (.cond c) s.currp s
  let s := s.withTask s.currp fun x => { x with obj := .cond c, frame := .condvarWait m }
  pure (isixYield s, .blocked)

/-- `isix_condvar_wait` -/
def isixCondvarWait (cv : Option CondId) (timeout : Nat) (s : Kernel) : Reply :=
  match cv with
  | none => .ok (s, .code isixEinvarg)
  | some c =>
    if timeout = timeDontwait then .ok (s, .code isixEinvarg)
    else
      match isixpGetTopCurrtMutex s with
      | none => .ok (s, .code isixEinvarg)
      | some m => do
        let (s, ret) ← isixMutexUnlock (some m) s
        if ret = .code isixEok then condvarSleep c m timeout s else pure (s, ret)

/-- `isix_condvar_destroy` -/
def isixCondvarDestroy (cv : Option CondId) (s : Kernel) : Reply :=
  match cv with
  | none => .ok (s, .code isixEinvarg)
  | some c => do
    let s ← condvarBroadcastMsg c isixEdestroy none s
    pure (s, .code isixEok)

end Isix
