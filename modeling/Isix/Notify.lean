import Isix.Lib.Runs
import Isix.System

/-!
# Isix.Notify

`libisix/kernel/fifo_event.c` and the notification of `semaphore.c`: a fifo or
a semaphore tells an event that something arrived.

The event and the bit number are two atomic members of the object.  A connect
exchanges the first and then stores the second, a disconnect does the same the
other way; a write to a fifo reads one after the other, the signal of a
semaphore reads both in its critical section.  Any number of calls are under
way at the same time, each at its own point (`Pc`), and the kernel goes on
between their steps.
-/

namespace Isix.Notify

open Function (update)

/-- The object that notifies: a fifo, through its `rx_sem`, or a semaphore. -/
inductive Kind where
  | fifo | sem
  deriving DecidableEq

/-- How far a call is, with the arguments and locals it still reads. -/
inductive Pc where
  /-- no call -/
  | idle
  /-- connect: `evt` was exchanged, `bitno` is not stored yet -/
  | connecting (evt : EvtId) (bit : Nat)
  /-- disconnect: `evt` was cleared, `bitno` is not -/
  | disconnecting
  /-- connect or disconnect is over -/
  | returned (code : Int)
  /-- write: the item is counted -/
  | stored (ctx : Context)
  | loadedEvt (ctx : Context) (evt : Option EvtId)
  | loaded (ctx : Context) (evt : Option EvtId) (bitno : Nat)
  /-- write or signal is over; it `stored` an item or token and raised a bit -/
  | notified (stored : Bool) (raised : Option (EvtId × Nat))
  deriving DecidableEq

/-- The call is between the two stores of `evt` and `bitno`. -/
def Pc.updating : Pc → Bool
  | .connecting _ _ | .disconnecting => true
  | _ => false

/-- The call is between the two loads of `evt` and `bitno`. -/
def Pc.loading : Pc → Bool
  | .loadedEvt _ _ => true
  | _ => false

/-- `n` callers of one object. -/
structure State (n : Nat) where
  kernel : Kernel
  evt : Option EvtId
  bitno : Nat
  calls : Fin n → Pc
  /-- the arguments of the connect calls made so far -/
  asked : List (EvtId × Nat)

variable {n : Nat}

/-- The object after `memset`. -/
def State.init (k : Kernel) : State n :=
  { kernel := k, evt := none, bitno := 0, calls := fun _ => .idle, asked := [] }

def State.goto (c : Fin n) (pc : Pc) (s : State n) : State n := { s with calls := update s.calls c pc }

/-- `ISIX_FIFO_EVENT_INVALID_BITS`, `ISIX_SEM_EVENT_INVALID_BITS` -/
def invalidBits : Nat := 0xff

/-- `isix_fifo_event_connect` and `isix_sem_event_connect` up to the exchange -/
def connect (c : Fin n) (evt : Option EvtId) (bit : Int) (s : State n) : State n :=
  match evt with
  | none => s.goto c (.returned isixEinvarg)
  | some v =>
    if bit < 0 ∨ 31 < bit then s.goto c (.returned isixEinvarg)
    else
      let s := { s with asked := (v, bit.toNat) :: s.asked }
      if s.evt ≠ none then s.goto c (.returned isixEbusy)
      else { s.goto c (.connecting v bit.toNat) with evt := some v }

/-- `isix_fifo_event_disconnect` and `isix_sem_event_disconnect` up to the exchange -/
def disconnect (c : Fin n) (evt : Option EvtId) (s : State n) : State n :=
  if evt = none then s.goto c (.returned isixEinvarg)
  else if s.evt ≠ evt then s.goto c (.returned isixEbusy)
  else { s.goto c .disconnecting with evt := none }

/-- The store of `bitno` that ends a connect or a disconnect. -/
def storeBit (c : Fin n) (s : State n) : Option (State n) :=
  match s.calls c with
  | .connecting _ bit => some { s.goto c (.returned isixEok) with bitno := bit }
  | .disconnecting => some { s.goto c (.returned isixEok) with bitno := invalidBits }
  | _ => none

inductive Step (n : Nat) where
  | connect (c : Fin n) (evt : Option EvtId) (bit : Int)
  | disconnect (c : Fin n) (evt : Option EvtId)
  | storeBit (c : Fin n)
  /-- the critical section of the signal, in a task or an ISR -/
  | signal (c : Fin n) (ctx : Context)
  | loadEvt (c : Fin n)
  | loadBit (c : Fin n)
  /-- the event is set with the values read, and the call returns -/
  | raise (c : Fin n)
  /-- the caller goes on -/
  | leave (c : Fin n)
  /-- anything else the kernel does, event waits among it -/
  | kernel (e : Event)

section

variable [Config]

/-- `isix_sem_signal` on the semaphore `x`.  A fifo reads its members later;
a semaphore that wakes a task stores no token and does not notify. -/
def signal (kind : Kind) (x : SemId) (c : Fin n) (ctx : Context) (s : State n) : Option (State n) :=
  match isixpSemSignal (some x) ctx s.kernel with
  | .error _ => none
  | .ok (k, _) =>
    let s' := { s with kernel := k }
    match kind with
    | .fifo => some (s'.goto c (.stored ctx))
    | .sem =>
      if (s.kernel.sem x).inc.value ≤ 0 then some (s'.goto c (.notified false none))
      else some (s'.goto c (.loaded ctx s.evt s.bitno))

/-- `isix_event_set` or `isix_event_set_isr` with `1U<<bitno`.  Its result is
dropped, also where `_isixp_event_set` refuses the bit. -/
def raise (c : Fin n) (ctx : Context) (evt : Option EvtId) (bitno : Nat) (s : State n) :
    Option (State n) :=
  match evt with
  | none => some (s.goto c (.notified true none))
  | some v =>
    if bitno ≤ 31 then
      match isixpEventSet (some v) (1#32 <<< bitno) ctx s.kernel with
      | .error _ => none
      | .ok (k, _) =>
        let raised := (eventToSet (some v) (1#32 <<< bitno)).map fun v => (v, bitno)
        some { s.goto c (.notified true raised) with kernel := k }
    else some (s.goto c (.notified true none))

/-- The state after a step; `none` when the caller is not at its start, or
the kernel stops. -/
def next (kind : Kind) (x : SemId) : Step n → State n → Option (State n)
  | .connect c evt bit, s => if s.calls c = .idle then some (connect c evt bit s) else none
  | .disconnect c evt, s => if s.calls c = .idle then some (disconnect c evt s) else none
  | .storeBit c, s => storeBit c s
  | .signal c ctx, s => if s.calls c = .idle then signal kind x c ctx s else none
  | .loadEvt c, s =>
    match s.calls c with
    | .stored ctx => some (s.goto c (.loadedEvt ctx s.evt))
    | _ => none
  | .loadBit c, s =>
    match s.calls c with
    | .loadedEvt ctx evt => some (s.goto c (.loaded ctx evt s.bitno))
    | _ => none
  | .raise c, s =>
    match s.calls c with
    | .loaded ctx evt bitno => raise c ctx evt bitno s
    | _ => none
  | .leave c, s =>
    match s.calls c with
    | .returned _ | .notified _ _ => some (s.goto c .idle)
    | _ => none
  | .kernel e, s =>
    if enabled s.kernel e then
      match Isix.step e s.kernel with
      | .error _ => none
      | .ok (k, _) => some { s with kernel := k }
    else none

end

/-! ## calls that keep out of each other's way -/

/-- A condition on the steps of a run: no connect that takes effect uses a
control bit, no connect or disconnect takes effect while another call is between
its two stores or its two loads, and nothing is loaded between two stores. -/
def Apart (kind : Kind) : Step n → State n → Prop
  | .connect _ evt bit, s => evt ≠ none ∧ 0 ≤ bit ∧ bit ≤ 31 ∧ s.evt = none →
    bit < 30 ∧ ∀ d, (s.calls d).updating = false ∧ (s.calls d).loading = false
  | .disconnect _ evt, s => evt ≠ none ∧ s.evt = evt →
    ∀ d, (s.calls d).updating = false ∧ (s.calls d).loading = false
  | .loadEvt _, s => ∀ d, (s.calls d).updating = false
  | .signal _ _, s => kind = .sem → ∀ d, (s.calls d).updating = false
  | _, _ => True

instance (kind : Kind) (e : Step n) (s : State n) : Decidable (Apart kind e s) := by
  cases e <;> unfold Apart <;> infer_instance

/-- The step does not end the connection. -/
def StaysConnected (e : Step n) (s : State n) : Prop :=
  match e with
  | .disconnect _ evt => s.evt ≠ evt
  | _ => True

instance (e : Step n) (s : State n) : Decidable (StaysConnected e s) := by
  cases e <;> unfold StaysConnected <;> infer_instance

/-- A step is possible, meets `C`, and leads from one state to the other. -/
abbrev Takes [Config] (kind : Kind) (x : SemId) (C : Step n → State n → Prop) : Step n → State n → State n → Prop :=
  Runs.Meeting (fun e s s' => next kind x e s = some s') C

end Isix.Notify
