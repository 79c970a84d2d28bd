import Isix.Lib.Word
import Isix.Types

/-!
# Isix.Upcounter

`libisix/include/isix/prv/systimer_upcounter.h`: the arithmetic of the system
timer ports with a free running up counter.

The difference of two counter values wraps by intention; the products and sums
are written over an arithmetic, so that their overflow can be observed.
-/

namespace Isix

open Word (Arith)

variable {m : Type → Type} [Monad m]

def uint64Max : Nat := 0xFFFFFFFFFFFFFFFF

/-- `_isixp_upcounter_elapsed` -/
def isixpUpcounterElapsed (now last mask : Nat) : Nat := (now + (2 ^ 64 - last)) % 2 ^ 64 &&& mask

/-- `_isixp_upcounter_ticks`: the ticks and the new carry. -/
def isixpUpcounterTicks (ar : Arith m) (elapsed freq hz carry : Nat) : m (Nat × Nat) := do
  let total ← ar.add 64 (← ar.mul 64 elapsed hz) carry
  pure (toTick (total / freq), total % freq)

/-- `_isixp_upcounter_max_ticks` -/
def isixpUpcounterMaxTicks (ar : Arith m) (mask freq hz : Nat) : m Nat := do
  let half := mask / 2
  -- the elapsed time times the tick frequency must fit in 64 bits
  let half := if uint64Max / hz < half then uint64Max / hz else half
  let ticks ← ar.add 64 (← ar.mul 64 (half / freq) hz) ((← ar.mul 64 (half % freq) hz) / freq)
  let limit := 0xFFFFFFFF / 2
  pure (toTick (if limit < ticks then limit else ticks))

/-- A port that reads its counter again and again: the ticks and the carry
after each conversion. -/
def convert (ar : Arith m) (mask freq hz : Nat) : Nat → Nat → List Nat → m (List (Nat × Nat))
  | _, _, [] => pure []
  | last, carry, now :: rest => do
    let r ← isixpUpcounterTicks ar (isixpUpcounterElapsed now last mask) freq hz carry
    let rs ← convert ar mask freq hz now r.2 rest
    pure (r :: rs)

end Isix
