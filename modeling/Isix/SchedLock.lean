import Isix.Lib.Runs
import Isix.System

/-!
# Isix.SchedLock

`_isixp_lock_scheduler` and `_isixp_unlock_scheduler`, step by step.

The unlock is two steps: it decrements the counter, and when the counter
became zero it enters a critical section that uses the skipped ticks and asks
for the switch that was put off.  Between the two an interrupt or another task
can do anything, also lock the scheduler again.  `State` keeps the kernel, the
number of unlock calls between their two steps, and three counters the code
does not have: the ticks the timer announced, those `advance_jiffies` was called
for, and those of the current locked interval.
-/

namespace Isix.SchedLock

open Kernel Outcome

/-! ## the steps -/

structure State where
  kernel : Kernel
  /-- unlock calls that decremented the counter to zero and are not in their
  critical section yet -/
  unlocking : Nat
  /-- ticks announced by the timer or caught up after a tickless sleep -/
  announced : Nat
  /-- ticks `advance_jiffies` was called for -/
  used : Nat
  /-- ticks since the counter was last zero -/
  interval : Nat

/-- No unlock is under way, and the timer has announced the ticks `jiffies`
counts. -/
def start (k : Kernel) : State := ⟨k, 0, k.jiffies, k.jiffies, 0⟩

/-- The value of `csys.sched_lock`. -/
abbrev State.locks (s : State) : Int := s.kernel.schedLock.value

inductive Step where
  | lock
  /-- the decrement of `_isixp_unlock_scheduler` -/
  | decrement
  /-- the critical section of `_isixp_unlock_scheduler` -/
  | drain
  | announce (ticks : Nat)
  | catchUp (elapsed : Nat)
  | yield
  /-- the `PendSV` handler calls `_isixp_schedule` -/
  | schedule

section

variable [Config]

def decrement (s : State) : Except Panic State :=
  let k := { s.kernel with schedLock := s.kernel.schedLock.dec }
  if k.schedLock.value < 0 then .error .unlockWithoutLock
  else if k.schedLock.value = 0 then .ok { s with kernel := k, unlocking := s.unlocking + 1 }
  else .ok { s with kernel := k }

def drain (s : State) : Except Panic State := do
  let k ← advanceSkipped s.kernel
  pure { s with
    kernel := yieldIfPending k
    unlocking := s.unlocking - 1
    used := s.used + s.kernel.jiffiesSkipped.toNat }

/-- `n` ticks arrived and left the kernel `k`. -/
def State.count (s : State) (n : Nat) (k : Kernel) : State :=
  { s with kernel := k
           announced := s.announced + n
           used := if s.locks ≠ 0 then s.used else s.used + n
           interval := if s.locks ≠ 0 then s.interval + n else 0 }

def exec : Step → State → Except Panic State
  | .lock, s => .ok { s with
    kernel := isixpLockScheduler s.kernel
    interval := if s.locks = 0 then 0 else s.interval }
  | .decrement, s => decrement s
  | .drain, s => drain s
  | .announce ticks, s => do
    let k ← isixpSystimerAnnounce ticks s.kernel
    pure (s.count ticks k)
  | .catchUp elapsed, s => do
    let k ← catchUpMissedTicks elapsed s.kernel
    pure (s.count elapsed k)
  | .yield, s => .ok { s with kernel := isixYield s.kernel }
  | .schedule, s => do
    let k ← isixpSchedule { s.kernel with pendsv := false }
    pure { s with kernel := k }

/-- The two steps of an unlock, one after the other, are `_isixp_unlock_scheduler`. -/
theorem isixpUnlockScheduler_eq (s : State) :
    isixpUnlockScheduler s.kernel = (do
      let s₁ ← decrement s
      if s₁.locks = 0 then do
        let s₂ ← drain s₁
        pure s₂.kernel
      else pure s₁.kernel) := by
  unfold isixpUnlockScheduler decrement
  dsimp only
  split
  · rfl
  · split
    · rename_i h₀
      rw [ok_bind, if_pos h₀]
      unfold drain
      cases advanceSkipped { s.kernel with schedLock := s.kernel.schedLock.dec } <;> rfl
    · rename_i h₀
      rw [ok_bind, if_neg h₀]
      rfl

end

/-- When a step can be taken; `room` bounds the ticks that arrive while the
scheduler is locked. -/
def Enabled (room : State → Nat → Prop) (s : State) : Step → Prop
  | .lock => s.locks < 2147483647
  | .decrement => 0 < s.locks
  | .drain => 0 < s.unlocking
  | .announce ticks | .catchUp ticks => ticks < tickMod ∧ (s.locks ≠ 0 → room s ticks)
  | .yield => True
  | .schedule => s.kernel.pendsv = true

instance (room : State → Nat → Prop) [∀ s n, Decidable (room s n)] (s : State) (e : Step) :
    Decidable (Enabled room s e) := by
  cases e <;> unfold Enabled <;> infer_instance

/-- Less than 2^31 ticks arrive in one locked interval. -/
def IntervalRoom (s : State) (n : Nat) : Prop := s.interval + n < 2147483648

/-- Less than 2^31 ticks arrive in the locked intervals since an unlock last
used the skipped ticks. -/
def DrainRoom (s : State) (n : Nat) : Prop := s.kernel.jiffiesSkipped + n < 2147483648

instance (s : State) (n : Nat) : Decidable (IntervalRoom s n) := by
  unfold IntervalRoom
  infer_instance

instance (s : State) (n : Nat) : Decidable (DrainRoom s n) := by
  unfold DrainRoom
  infer_instance

section

variable [Config] {room : State → Nat → Prop}

/-- A step that can be taken and does not panic. -/
def Takes (room : State → Nat → Prop) (e : Step) (s s' : State) : Prop :=
  Enabled room s e ∧ exec e s = .ok s'

/-- `Takes`, by evaluation. -/
def take (room : State → Nat → Prop) [∀ s n, Decidable (room s n)] (e : Step) (s : State) :
    Option State :=
  if Enabled room s e then (exec e s).toOption else none

theorem takes_of_take [∀ s n, Decidable (room s n)] (e : Step) (s s' : State)
    (h : take room e s = some s') : Takes room e s s' := by
  obtain ⟨he, h⟩ := Option.ite_none_right_eq_some.mp h
  cases hs : exec e s with
  | error p =>
    rw [hs] at h
    cases h
  | ok u =>
    rw [hs] at h
    cases h
    exact ⟨he, hs⟩

end

end Isix.SchedLock
