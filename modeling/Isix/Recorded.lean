import Isix.Refine.System

/-!
# Isix.Recorded

Runs of the kernel with a record of what happened.  A recorder sees every
event, the state before it and the result; it does not change the run.
-/

namespace Isix

/-- The record after an event, from the record before it. -/
abbrev Recorder (γ : Type) := Event → Kernel → Kernel × Answer → γ → γ

variable [Config] {γ : Type} {f : Recorder γ} {C C' : Event → Kernel → Prop} {i g : γ} {s : Kernel}

/-- The states reached from `isix_init` by events that are possible and meet
`C`, each with its record. -/
inductive Recorded (f : Recorder γ) (C : Event → Kernel → Prop) (i : γ) : Kernel → γ → Prop
  | init {s : Kernel} (h : isixInit = .ok s) : Recorded f C i s i
  | step {s : Kernel} {g : γ} {e : Event} {r : Kernel × Answer} (h : Recorded f C i s g)
      (he : enabled s e = true) (hc : C e s) (hs : Isix.step e s = .ok r) :
      Recorded f C i r.1 (f e s r g)

namespace Recorded

theorem reachable (h : Recorded f C i s g) : Reachable C s := by
  induction h with
  | init hi => exact .init hi
  | step _ he hc hs ih => exact ih.step he hc hs

theorem inv (h : Recorded f C i s g) (hC : ∀ e s, C e s → BootOk e s) : Inv s :=
  h.reachable.inv hC

/-- **Invariant of recorded runs**: it may rely on the invariant of the kernel. -/
theorem keeps {P : Kernel → γ → Prop} (hC : ∀ e s, C e s → BootOk e s)
    (h₀ : ∀ s, isixInit = .ok s → P s i)
    (hP : ∀ e s g r, Inv s → P s g → enabled s e = true → C e s → Isix.step e s = .ok r →
      P r.1 (f e s r g))
    (h : Recorded f C i s g) : P s g := by
  induction h with
  | init hi => exact h₀ _ hi
  | step h he hc hs ih => exact hP _ _ _ _ (h.inv hC) ih he hc hs

end Recorded

/-! ## runs by evaluation -/

/-- The state and the record after a list of events. -/
def runRecorded (f : Recorder γ) (C : Event → Kernel → Prop) [∀ e s, Decidable (C e s)] :
    List Event → Kernel → γ → Option (Kernel × γ)
  | [], s, g => some (s, g)
  | e :: es, s, g =>
    if enabled s e = true ∧ C e s then
      match step e s with
      | .ok r => runRecorded f C es r.1 (f e s r g)
      | .error _ => none
    else none

theorem Recorded.run [∀ e s, Decidable (C e s)] {es : List Event} {p : Kernel × γ}
    (h : Recorded f C i s g) (hr : runRecorded f C es s g = some p) : Recorded f C i p.1 p.2 := by
  induction es generalizing s g with
  | nil =>
    cases hr
    exact h
  | cons e es ih =>
    rw [runRecorded] at hr
    split at hr
    · rename_i he
      cases hs : Isix.step e s with
      | error p =>
        rw [hs] at hr
        cases hr
      | ok r =>
        rw [hs] at hr
        exact ih (h.step he.1 he.2 hs) hr
    · cases hr

/-- A run from `isix_init` that ends in a state with `P`. -/
theorem exists_recorded [∀ e s, Decidable (C e s)] (es : List Event) {P : Kernel → γ → Prop}
    [∀ s g, Decidable (P s g)]
    (h : ((isixInit.toOption.bind fun s => runRecorded f C es s i).any fun p =>
      decide (P p.1 p.2)) = true) : ∃ s g, Recorded f C i s g ∧ P s g := by
  cases hi : isixInit with
  | error p =>
    rw [hi] at h
    cases h
  | ok s₀ =>
    rw [hi] at h
    cases hr : runRecorded f C es s₀ i with
    | none => simp [Except.toOption, hr] at h
    | some p =>
      exact ⟨p.1, p.2, (Recorded.init hi).run hr, by simpa [Except.toOption, hr] using h⟩

end Isix
