import Mathlib.Algebra.Group.Nat.Defs
import Mathlib.Control.Basic

/-!
# Isix.Lib.Word

Unsigned machine arithmetic in two readings.  `wrapping` computes modulo `2 ^ w`,
as the machine does; `checked` stops at a result that does not fit.  A function
written over `Arith` has both readings, and what is proved for `Exact`
arithmetic holds in both: the machine computes the exact values, and nothing
overflows on the way (`Computes`).
-/

namespace Word

/-- Sum, difference and product of words of a width. -/
structure Arith (m : Type → Type) where
  add (w a b : Nat) : m Nat
  sub (w a b : Nat) : m Nat
  mul (w a b : Nat) : m Nat

def wrapping : Arith Id where
  add w a b := (a + b) % 2 ^ w
  sub w a b := (a + (2 ^ w - b % 2 ^ w)) % 2 ^ w
  mul w a b := a * b % 2 ^ w

def checked : Arith Option where
  add w a b := if a + b < 2 ^ w then some (a + b) else none
  sub w a b := if b ≤ a ∧ a < 2 ^ w then some (a - b) else none
  mul w a b := if a * b < 2 ^ w then some (a * b) else none

/-- Results that fit are the exact ones. -/
structure Exact {m : Type → Type} [Monad m] (ar : Arith m) : Prop where
  add : ∀ {w a b : Nat}, a + b < 2 ^ w → ar.add w a b = pure (a + b)
  sub : ∀ {w a b : Nat}, b ≤ a → a < 2 ^ w → ar.sub w a b = pure (a - b)
  mul : ∀ {w a b : Nat}, a * b < 2 ^ w → ar.mul w a b = pure (a * b)

theorem wrapping_exact : Exact wrapping where
  add h := Nat.mod_eq_of_lt h
  sub {w a b} h hlt := by
    show (a + (2 ^ w - b % 2 ^ w)) % 2 ^ w = a - b
    rw [Nat.mod_eq_of_lt (Nat.lt_of_le_of_lt h hlt), show a + (2 ^ w - b) = a - b + 2 ^ w by omega,
      Nat.add_mod_right, Nat.mod_eq_of_lt (by omega)]
  mul h := Nat.mod_eq_of_lt h

theorem checked_exact : Exact checked where
  add h := if_pos h
  sub h hlt := if_pos ⟨h, hlt⟩
  mul h := if_pos h

/-- The function has the result `n` in every exact arithmetic. -/
def Computes {α : Type} (f : ∀ (m : Type → Type) [Monad m], Arith m → m α) (n : α) : Prop :=
  ∀ (m : Type → Type) [Monad m] [LawfulMonad m] (ar : Arith m), Exact ar → f m ar = pure n

namespace Computes

variable {α : Type} {f : ∀ (m : Type → Type) [Monad m], Arith m → m α} {n : α}

theorem wrapping (h : Computes f n) : f Id Word.wrapping = n := h Id _ wrapping_exact

theorem checked (h : Computes f n) : f Option Word.checked = some n := h Option _ checked_exact

end Computes

end Word
