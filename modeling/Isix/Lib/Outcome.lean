import Mathlib.Data.List.Basic

/-!
# Isix.Lib.Outcome

Pre- and postconditions for computations that may stop with an error.
`Holds P m Q` says that `m` either ends normally with a result satisfying
`Q`, or stops with an error satisfying `P`.  With `P := fun _ => False` it
is total correctness.  The rules follow the way such computations are put
together: a result, an error, a sequence, and a loop over a list.
-/

namespace Outcome

variable {ε α β : Type}

/-- `m` ends with a result in `Q`, or stops with an error in `P`. -/
def Holds (P : ε → Prop) (m : Except ε α) (Q : α → Prop) : Prop :=
  match m with
  | .ok a => Q a
  | .error e => P e

variable {P : ε → Prop} {Q : α → Prop} {m : Except ε α}

theorem Holds.mono {R : α → Prop} (h : Holds P m Q) (hqr : ∀ a, Q a → R a) : Holds P m R := by
  cases m with
  | ok a => exact hqr a h
  | error e => exact h

/-- The result of a step that holds `Q` is a result in `Q`. -/
theorem Holds.of_ok {a : α} (h : Holds P m Q) (ha : m = .ok a) : Q a := by
  subst ha
  exact h

theorem Holds.of_error {e : ε} (h : Holds P m Q) (he : m = .error e) : P e := by
  subst he
  exact h

theorem Holds.and {R : α → Prop} (h : Holds P m Q) (h' : Holds (fun _ => True) m R) :
    Holds P m fun a => Q a ∧ R a := by
  cases m with
  | ok a => exact ⟨h, h'⟩
  | error e => exact h

variable {f : α → Except ε β}

theorem ok_bind {a : α} : (.ok a >>= f) = f a := rfl

theorem pure_bind {a : α} : ((pure a : Except ε α) >>= f) = f a := rfl

theorem of_bind_ok {b : β} (h : (m >>= f) = .ok b) :
    ∃ a, m = .ok a ∧ f a = .ok b := by
  cases m with
  | ok a => exact ⟨a, rfl, h⟩
  | error e => cases h

/-- Sequencing. -/
theorem Holds.bind {R : β → Prop} (h : Holds P m Q)
    (hf : ∀ a, Q a → Holds P (f a) R) : Holds P (m >>= f) R := by
  cases m with
  | ok a => exact hf a h
  | error e => exact h

/-- A loop over a list keeps what each round keeps. -/
theorem Holds.foldlM {I : List α → β → Prop} {f : β → α → Except ε β} :
    ∀ (l : List α) {b : β}, I l b →
      (∀ x xs b, I (x :: xs) b → Holds P (f b x) (I xs)) →
      Holds P (l.foldlM f b) (I [])
  | [], _, hb, _ => hb
  | x :: xs, b, hb, hf => by
    exact (hf x xs b hb).bind fun b' hb' => Holds.foldlM xs hb' hf

end Outcome
