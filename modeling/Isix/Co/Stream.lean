import Isix.Co.Scheduler
import Isix.Lib.Runs

/-!
# Isix.Co.Stream

`libisix/include/isix/cpp/co_stream.hpp`: a ring of `N` bytes.  A thread or an
interrupt writes to it; bytes that do not fit are dropped and counted.  A
coroutine that reads waits until enough bytes are there and takes them, in a
critical section of its own, when it goes on.

`std::size_t` has 32 bits.  Beside the buffer the state keeps what was offered
to the stream, what was accepted and what the reads returned.
-/

namespace Isix.Co.Stream

open Function (update)

abbrev Byte := UInt8

/-- The number of values of `std::size_t`. -/
def sizeMod : Nat := 4294967296

/-- A read under way: the size of its buffer and `m_min`. -/
structure Read where
  size : Nat := 0
  min : Nat := 0
  deriving DecidableEq

/-- A `stream_buffer` and its scheduler, and what happened so far. -/
structure State where
  sched : Scheduler
  buf : Nat → Byte
  head : Nat := 0
  tail : Nat := 0
  count : Nat := 0
  dropped : Nat := 0
  want : Nat := 0
  /-- `m_signal.queued` -/
  queued : Bool := false
  /-- how many writes have not signalled the stream yet -/
  signalling : Nat := 0
  /-- the read of the node is about to take its bytes -/
  popping : Option NodeId := none
  read : NodeId → Read := fun _ => {}
  /-- the number of bytes of all writes -/
  offered : Nat := 0
  /-- the bytes that were stored -/
  accepted : List Byte := []
  /-- what the reads returned -/
  reads : List (Except Int (List Byte)) := []

def State.init (time : Nat) (buf : Nat → Byte) : State := { sched := { time }, buf }

/-- `m_waiters` -/
def State.waiters (s : State) : List NodeId := s.sched.waiters 0

/-! ## the ring -/

/-- The index behind `i`. -/
def next (N i : Nat) : Nat := if i + 1 = N then 0 else i + 1

/-- The loop of `push`. -/
def fill (N : Nat) : List Byte → (Nat → Byte) × Nat → (Nat → Byte) × Nat
  | [], p => p
  | b :: data, (buf, tail) => fill N data (update buf tail b, next N tail)

/-- The loop of `pop`: the bytes and the new head. -/
def drain (N : Nat) (buf : Nat → Byte) : Nat → Nat → List Byte × Nat
  | 0, head => ([], head)
  | k + 1, head =>
    let (out, head') := drain N buf k (next N head)
    (buf head :: out, head')

/-- `push` -/
def push (N : Nat) (data : List Byte) (s : State) : State :=
  let n := min data.length (N - s.count)
  let (buf, tail) := fill N (data.take n) (s.buf, s.tail)
  { s with
    buf, tail
    count := s.count + n
    dropped := (s.dropped + (data.length - n)) % sizeMod
    offered := s.offered + data.length
    accepted := s.accepted ++ data.take n }

/-- `pop` into a buffer of `size` bytes -/
def pop (N size : Nat) (s : State) : List Byte × State :=
  let n := min size s.count
  let (out, head) := drain N s.buf n s.head
  (out, { s with head, count := s.count - n })

/-! ## the calls -/

/-- `write`, `write_isr`, up to the signal -/
def write (N : Nat) (data : List Byte) (s : State) : State :=
  let stored := min data.length (N - s.count)
  let s := push N data s
  if 0 < stored then { s with signalling := s.signalling + 1 } else s

def State.fail (code : Int) (s : State) : State := { s with reads := s.reads ++ [.error code] }

/-- `co_await sb.read(buf, min_bytes, timeout)`, up to `await_resume`. -/
def read (N : Nat) (n : NodeId) (h : Handle) (size minBytes timeout : Nat) (cancelled foreign : Bool) (s : State) :
    State :=
  let min := max 1 (min minBytes (min N size))
  if size = 0 then s.fail isixEinvarg
  else if ¬s.waiters.isEmpty then s.fail isixEbusy
  else if min ≤ s.count then { s with read := update s.read n ⟨size, min⟩, popping := some n }
  else if timeout = timeDontwait then s.fail isixEtimeout
  else if cancelled then s.fail isixEcanceled
  else if foreign then s.fail isixEinvarg
  else { s with read := update s.read n ⟨size, min⟩, want := min, sched := s.sched.waitOn 0 n h timeout }

/-- The `pop` of `await_resume`. -/
def finish (N : Nat) (n : NodeId) (s : State) : State :=
  let (out, s) := pop N (s.read n).size s
  { s with popping := none, reads := s.reads ++ [.ok out] }

/-- `dispatch` -/
def dispatch (s : State) : State :=
  match s.waiters with
  | [] => s
  | n :: _ => if s.want ≤ s.count then { s with sched := s.sched.wake n isixEok } else s

/-! ## runs -/

inductive Event where
  | write (data : List Byte)
  /-- `scheduler::signal` or `signal_isr` of a write -/
  | signal
  | read (n : NodeId) (h : Handle) (size minBytes timeout : Nat) (cancelled foreign : Bool)
  /-- `await_resume` of a read that goes on -/
  | finish
  /-- `drain_inbox` releases the link and calls `dispatch` -/
  | dispatch
  | resume
  | background (b : Background)

def step (N : Nat) : Event → State → Option State
  | .write data, s => some (write N data s)
  | .signal, s =>
    if 0 < s.signalling then some { s with signalling := s.signalling - 1, queued := true } else none
  | .read n h size minBytes timeout cancelled foreign, s =>
    if s.sched.running = some h ∧ (s.sched.node n).state = .idle ∧ s.popping = none then
      some (read N n h size minBytes timeout cancelled foreign s)
    else none
  | .finish, s => s.popping.map fun n => finish N n s
  | .dispatch, s =>
    if s.queued = true ∧ s.popping = none ∧ s.sched.running = none then some (dispatch { s with queued := false })
    else none
  | .resume, s =>
    if s.popping = none ∧ s.sched.running = none then
      s.sched.resume.map fun (n, sched) =>
        let result := (s.sched.node n).result
        if result ≠ isixEok then { s with sched }.fail result else { s with sched, popping := some n }
    else none
  | .background b, s =>
    if s.popping = none ∨ b = .tick then (s.sched.background b).map fun sched => { s with sched } else none

def Step (N : Nat) (e : Event) (s s' : State) : Prop := step N e s = some s'

end Isix.Co.Stream
