import Isix.Lib.Word
import Isix.Softtimers
import Isix.System

/-!
# Isix.Tickless

How long tasks and the core sleep: `isix_ms2tick` and `isix_wait_ms` of `ostime.c`,
`calculate_next_timeout` of the tickless idle with the part the virtual timers have in it,
and the functions of `systimer.c` that turn the result into a period of the counter and, after an
early wake-up, back into ticks.  `ostick_t`, `uint32_t` and `unsigned long` have 32 bits; the
arithmetic wraps where the source's does.  The functions whose intermediate values matter take the
arithmetic of `Isix.Lib.Word`.
-/

namespace Isix

/-! ## milliseconds -/

/-- `isix_ms2tick`; `hz` is `CONFIG_ISIX_HZ` -/
def isixMs2tick (hz ms : Nat) : Nat :=
  let ticks := toTick (hz * ms) / 1000
  if ticks = 0 then ticks + 1 else ticks

/-- `isix_wait_ms` with the scheduler running -/
def isixWaitMs (hz ms : Nat) (s : Kernel) : Reply := isixWait (isixMs2tick hz ms) s

/-! ## the next timeout -/

section

variable {m : Type → Type} [Monad m] (ar : Word.Arith m)

/-- `_isixp_vtimers_next_timeout_delta`; `tctx` is `none` before the worker is created -/
def isixpVtimersNextTimeoutDelta (tctx : Option Softtimers.VtimerContext) (now : Nat) : m Nat :=
  match tctx with
  | none => pure timeMaxTick
  | some c =>
    match c.lists c.pVtimerList with
    | [] => pure timeMaxTick
    | first :: _ =>
      if now ≤ (c.vtimer first).jiffies then ar.sub 32 (c.vtimer first).jiffies now else pure 0

/-- The ticks to the first deadline on the current timeout list. -/
def firstTimeout (currentJiffies : Nat) (s : Kernel) : m Nat :=
  match s.waitLists s.pWaitList with
  | [] => pure timeMaxTick
  | first :: _ =>
    if currentJiffies ≤ (s.task first).jiffies then ar.sub 32 (s.task first).jiffies currentJiffies
    else pure timeMaxTick

/-- `calculate_next_timeout` -/
def calculateNextTimeout (tctx : Option Softtimers.VtimerContext) (s : Kernel) : m Nat := do
  let currentJiffies := s.jiffies
  let left ← ar.sub 64 timeMaxTick currentJiffies
  let tw64 ← ar.add 64 left 1
  let tw64 := if timeMaxTick < tw64 then timeMaxTick else tw64
  let ticksToWraparound := toTick tw64
  let ticksUntilTimeout ← firstTimeout ar currentJiffies s
  let vtd ← isixpVtimersNextTimeoutDelta ar tctx currentJiffies
  let ticksUntilTimeout := if vtd < ticksUntilTimeout then vtd else ticksUntilTimeout
  -- the deadlines after the wrap are not known here
  let ticksUntilTimeout ← if ticksToWraparound < ticksUntilTimeout then ar.sub 32 ticksToWraparound 1
    else pure ticksUntilTimeout
  pure (if ticksUntilTimeout = 0 then 1 else ticksUntilTimeout)

namespace Systimer

/-- `g_tick_cycles`, the microseconds of a tick, and
`CONFIG_ISIX_TICKLESS_TIMER_COMPENSATION_TICKS`. -/
structure Setup where
  tickCycles : Nat
  usPerTick : Nat
  compensation : Nat

/-- `_isix_port_systimer_max_ticks` -/
def isixPortSystimerMaxTicks (tickCycles : Nat) : m Nat :=
  let maxTicks := 0x1000000 / tickCycles
  if maxTicks < 2 then pure 1 else ar.add 32 maxTicks 1

/-- What `_isix_port_systimer_set_timeout` does: `g_expected` and `STK_RVR` of the long period, the
value that is put back into `STK_RVR` if the boundary was reached before, and the result. -/
structure Programmed where
  period : Option (Nat × Nat)
  restored : Option Nat
  result : Nat
  deriving DecidableEq

/-- The writes of `_isix_port_systimer_set_timeout`; `passed` is the test of the boundary after
`STK_RVR` is written -/
def programPeriod (c : Setup) (passed : Bool) (ticks : Nat) : m Programmed := do
  let longCycles ← ar.mul 32 ticks c.tickCycles
  let rvr ← ar.sub 32 longCycles 1
  if passed then do
    let tick ← ar.sub 32 c.tickCycles 1
    pure ⟨some (ticks, rvr), some tick, 1⟩
  else do
    let result ← ar.add 32 ticks 1
    pure ⟨some (ticks, rvr), none, result⟩

/-- `_isix_port_systimer_set_timeout` from the limit on -/
def limitPeriod (c : Setup) (passed : Bool) (ticks : Nat) : m Programmed := do
  let max ← isixPortSystimerMaxTicks ar c.tickCycles
  let maxTicks ← ar.sub 32 max 1
  let ticks := if maxTicks < ticks then maxTicks else ticks
  -- the long period must be longer than the tick period
  if ticks < 2 then pure ⟨none, none, 1⟩ else programPeriod ar c passed ticks

/-- `_isix_port_systimer_set_timeout`; `off` is `g_state == st_off` -/
def isixPortSystimerSetTimeout (c : Setup) (off passed : Bool) (timeout : Nat) : m Programmed :=
  if off = false ∨ timeout < 2 then pure ⟨none, none, 1⟩
  else do
    let ticks ← ar.sub 32 timeout 1
    if c.compensation < ticks then do
      let ticks ← ar.sub 32 ticks c.compensation
      limitPeriod ar c passed ticks
    else limitPeriod ar c passed ticks

end Systimer

end

/-! ## an early wake-up -/

namespace Systimer

/-- A wake-up in a long period of `longCycles` cycles, with the counter at `cvr`; `before` ticks were
periodic since the last one. -/
structure WakeUp where
  before : Nat
  longCycles : Nat
  cvr : Nat

/-- `systimer_split` for any skew: the ticks that have run and the first period -/
def split (longCycles cvr tpp skew : Nat) : Nat × Nat :=
  let ran := if cvr < longCycles then longCycles - 1 - cvr else 0
  let n := ran / tpp
  let first := tpp - ran % tpp
  -- the period starts later than the sample
  let first := if skew < first then first - skew else 0
  if 2 * 64 ≤ tpp ∧ first < 64 then (toTick (n + 1), toTick (first + tpp)) else (n, first)

/-- The cycles from a boundary to the first tick after the last wake-up, and the ticks counted up to it. -/
structure Clock where
  cycles : Nat := 0
  ticks : Nat := 0

/-- The timer runs periodic ticks, then the long period up to the sample; `skew` cycles later it
starts again with the first period.  The ticks that have run are counted at once, the next one at
the end of the first period. -/
def Clock.wakeUp (tpp skew : Nat) (c : Clock) (w : WakeUp) : Clock :=
  let ran := w.longCycles - 1 - w.cvr
  let r := split w.longCycles w.cvr tpp skew
  { cycles := c.cycles + w.before * tpp + (ran + skew + r.2)
    ticks := c.ticks + w.before + (r.1 + 1) }

end Systimer

end Isix
