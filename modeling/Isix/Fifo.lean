import Isix.Lib.Ring
import Isix.Lib.Runs
import Isix.Types

/-!
# Isix.Fifo

`libisix/kernel/fifo.c`: a ring of elements between two semaphores.  A write
takes a token of `tx_sem`, copies its item under the lock of the fifo and
signals `rx_sem`; a read does the same the other way round.

A call is split at these points and any number of calls, from tasks and
interrupts, are under way at once.  The lock is a critical section, or the
scheduler lock for a fifo that interrupts may not use, so the copy is one
step.  Memory is addressed relative to `mem_p`.  A semaphore counts up to the
number of elements and down to minus the number of tasks asleep on it, which
are objects in memory: its value does not leave the range of `int`.
-/

namespace Isix.Fifo

open Function (update)

def isixEfifofull : Int := -5
def isixEfifoempty : Int := -16

abbrev Item := List UInt8

/-- `struct isix_fifo`, the members `isix_fifo_create_ex` fixes, and `n_elem`,
the first value of `tx_sem`. -/
structure IsixFifo where
  nElem : Nat
  elemSize : Nat
  size : Nat
  noirq : Bool
  deriving DecidableEq

/-- `isix_fifo_create_ex` for positive arguments.  The size is an `int`; a
negative one asks `isix_alloc` for more memory than there is. -/
def fifoCreateEx (nElem elemSize : Nat) (noirq : Bool) : Option IsixFifo :=
  let size := toInt32 (nElem * elemSize)
  if size < 0 then none else some ⟨nElem, elemSize, size.toNat, noirq⟩

/-- The two semaphores. -/
inductive Side where
  | tx | rx
  deriving DecidableEq

inductive Op where
  | write (item : Item)
  | read
  deriving DecidableEq

/-- The semaphore a call waits for, and the one it signals. -/
def Op.takes : Op → Side
  | .write _ => .tx
  | .read => .rx

def Op.gives : Op → Side
  | .write _ => .rx
  | .read => .tx

/-- What an interrupt gets that finds no token. -/
def Op.isrError : Op → Int
  | .write _ => isixEfifofull
  | .read => isixEfifoempty

inductive Pc where
  | user
  /-- asleep in `isix_sem_wait` -/
  | waiting (op : Op)
  /-- has a token -/
  | copying (op : Op)
  /-- has copied -/
  | signalling (op : Op)
  | returned (code : Int) (copied : Bool)
  deriving DecidableEq

/-- The call is asleep on the semaphore. -/
def Pc.waitsFor (σ : Side) : Pc → Bool
  | .waiting op => decide (op.takes = σ)
  | _ => false

/-- `m` callers of one fifo. -/
structure State (m : Nat) where
  mem : Nat → UInt8
  txP : Nat
  rxP : Nat
  sem : Side → Int
  calls : Fin m → Pc
  /-- the items copied in and out so far -/
  written : List Item
  read : List Item

variable {m : Nat}

def State.init (f : IsixFifo) (mem : Nat → UInt8) : State m where
  mem := mem
  txP := 0
  rxP := 0
  sem
    | .tx => f.nElem
    | .rx => 0
  calls _ := .user
  written := []
  read := []

def State.goto (c : Fin m) (pc : Pc) (s : State m) : State m := { s with calls := update s.calls c pc }

def State.setSem (σ : Side) (v : Int) (s : State m) : State m := { s with sem := update s.sem σ v }

/-! ## the steps of a call -/

/-- The wait of a task: it does not wait (`ISIX_TIME_DONTWAIT`), its time is
over when it gets to the critical section, or it goes to sleep. -/
inductive Wait where
  | dontwait | expired | sleep
  deriving DecidableEq

/-- `isix_sem_trywait`, also the wait with `ISIX_TIME_DONTWAIT`; `code` is
what the call returns when there is no token. -/
def trywait (c : Fin m) (op : Op) (code : Int) (s : State m) : State m :=
  if 0 < s.sem op.takes then (s.setSem op.takes (s.sem op.takes - 1)).goto c (.copying op)
  else s.goto c (.returned code false)

/-- `isix_fifo_write` and `isix_fifo_read` up to the end of the critical
section of `isix_sem_wait` -/
def call (c : Fin m) (op : Op) (wait : Wait) (s : State m) : State m :=
  if wait = .dontwait then trywait c op isixEtimeout s
  else
    let v := s.sem op.takes - 1
    if 0 ≤ v then (s.setSem op.takes v).goto c (.copying op)
    else if wait = .expired then (s.setSem op.takes (v + 1)).goto c (.returned isixEtimeout false)
    else (s.setSem op.takes v).goto c (.waiting op)

/-- `isix_fifo_write_isr` and `isix_fifo_read_isr` up to `isix_sem_trywait` -/
def callIsr (f : IsixFifo) (c : Fin m) (op : Op) (s : State m) : State m :=
  if f.noirq then s.goto c (.returned isixEinvarg false) else trywait c op op.isrError s

/-- The timeout of a task asleep: the tick takes it off the wait list. -/
def expire (c : Fin m) (op : Op) (s : State m) : State m :=
  (s.setSem op.takes (s.sem op.takes + 1)).goto c (.returned isixEtimeout false)

/-- The copy under the lock. -/
def copy (f : IsixFifo) (c : Fin m) (op : Op) (s : State m) : State m :=
  match op with
  | .write item =>
    { s.goto c (.signalling op) with
      mem := Ring.blit s.txP item s.mem
      txP := Ring.advance f.size f.elemSize s.txP
      written := s.written ++ [item] }
  | .read =>
    { s.goto c (.signalling op) with
      rxP := Ring.advance f.size f.elemSize s.rxP
      read := s.read ++ [Ring.slice s.rxP f.elemSize s.mem] }

/-- `isix_sem_signal`: a task asleep gets the token, if there is one.  Which
one it is follows from their priorities, here it is any of them. -/
def signal (c : Fin m) (op : Op) (woken : Option (Fin m)) (s : State m) : Option (State m) :=
  let v := s.sem op.gives + 1
  let s' := (s.setSem op.gives v).goto c (.returned isixEok true)
  if v ≤ 0 then
    match woken with
    | none => if ∀ d, (s.calls d).waitsFor op.gives = false then some s' else none
    | some w =>
      match s.calls w with
      | .waiting op' => if op'.takes = op.gives then some (s'.goto w (.copying op')) else none
      | _ => none
  else some s'

/-- `isix_fifo_count` -/
def fifoCount (s : State m) : Int := if 0 < s.sem .rx then s.sem .rx else 0

/-! ## the system -/

inductive Step (m : Nat) where
  | call (c : Fin m) (op : Op) (wait : Wait)
  | callIsr (c : Fin m) (op : Op)
  | expire (c : Fin m)
  | copy (c : Fin m)
  | signal (c : Fin m) (woken : Option (Fin m))
  /-- the caller goes on -/
  | leave (c : Fin m)

/-- The item of a write is an element of the fifo. -/
def Op.fits (f : IsixFifo) : Op → Prop
  | .write item => item.length = f.elemSize
  | .read => True

instance (f : IsixFifo) (op : Op) : Decidable (op.fits f) := by
  cases op <;> unfold Op.fits <;> infer_instance

/-- The state after a step, `none` when the caller is not at its start. -/
def next (f : IsixFifo) : Step m → State m → Option (State m)
  | .call c op wait, s => if s.calls c = .user ∧ op.fits f then some (call c op wait s) else none
  | .callIsr c op, s => if s.calls c = .user ∧ op.fits f then some (callIsr f c op s) else none
  | .expire c, s =>
    match s.calls c with
    | .waiting op => some (expire c op s)
    | _ => none
  | .copy c, s =>
    match s.calls c with
    | .copying op => some (copy f c op s)
    | _ => none
  | .signal c woken, s =>
    match s.calls c with
    | .signalling op => signal c op woken s
    | _ => none
  | .leave c, s =>
    match s.calls c with
    | .returned _ _ => some (s.goto c .user)
    | _ => none

/-- The step `e` leads from `s` to `s'`. -/
def Takes (f : IsixFifo) (e : Step m) (s s' : State m) : Prop := next f e s = some s'

end Isix.Fifo
