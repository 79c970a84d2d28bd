import Mathlib.Algebra.BigOperators.Fin

/-!
# Isix.Lib.Runs

Runs of a transition system with labelled steps.  The system is a relation
`R e s s'`: the step `e` leads from `s` to `s'`.  A property that every step
keeps holds along every run; a run that is wanted as an example is found by
evaluating a list of steps.  For systems of `m` parties, each at a point of
its own program, `tally` counts the parties at points of a kind.
-/

namespace Runs

variable {σ ε : Type}

/-- Any number of steps, in any order. -/
inductive Run (R : ε → σ → σ → Prop) : σ → σ → Prop
  | refl (s : σ) : Run R s s
  | step {s s' s'' : σ} {e : ε} (h : Run R s s') (hs : R e s' s'') : Run R s s''

variable {R R' : ε → σ → σ → Prop} {s s' s'' : σ}

namespace Run

theorem trans (h : Run R s s') (h' : Run R s' s'') : Run R s s'' := by
  induction h' with
  | refl => exact h
  | step _ hs ih => exact ih.step hs

theorem one {e : ε} (hs : R e s s') : Run R s s' := (refl s).step hs

theorem mono (hR : ∀ e s s', R e s s' → R' e s s') (h : Run R s s') : Run R' s s' := by
  induction h with
  | refl => exact refl _
  | step _ hs ih => exact ih.step (hR _ _ _ hs)

/-- What every step keeps, a run keeps. -/
theorem keeps {P : σ → Prop} (hP : ∀ e s s', P s → R e s s' → P s') (h : Run R s s') (h₀ : P s) :
    P s' := by
  induction h with
  | refl => exact h₀
  | step _ hs ih => exact hP _ _ _ ih hs

end Run

/-! ## runs by evaluation -/

/-- The state after a list of steps, if each of them is possible. -/
def runList (f : ε → σ → Option σ) : List ε → σ → Option σ
  | [], s => some s
  | e :: es, s => (f e s).bind (runList f es)

variable {f : ε → σ → Option σ}

theorem run_of_runList (hf : ∀ e s s', f e s = some s' → R e s s') (es : List ε)
    (h : runList f es s = some s') : Run R s s' := by
  induction es generalizing s with
  | nil =>
    cases h
    exact .refl _
  | cons e es ih =>
    obtain ⟨u, hu, hrest⟩ := Option.bind_eq_some_iff.mp h
    exact (Run.one (hf e s u hu)).trans (ih hrest)

theorem runList_append {es es' : List ε} (h : runList f es s = some s') :
    runList f (es ++ es') s = runList f es' s' := by
  induction es generalizing s with
  | nil =>
    cases h
    rfl
  | cons e es ih =>
    obtain ⟨u, hu, hrest⟩ := Option.bind_eq_some_iff.mp h
    simp only [List.cons_append, runList, hu, Option.bind_some]
    exact ih hrest

/-- A step with a guard was allowed, and leads to its state. -/
theorem of_guard {p : Prop} [Decidable p] (h : (if p then some s else none) = some s') : p ∧ s = s' := by
  obtain ⟨hp, hs⟩ := Option.ite_none_right_eq_some.mp h
  exact ⟨hp, Option.some.inj hs⟩

/-- The same of a step that depends on a result. -/
theorem of_guard_map {p : Prop} [Decidable p] {α : Type} {o : Option α} {g : α → σ}
    (h : (if p then o.map g else none) = some s) : p ∧ ∃ a, o = some a ∧ g a = s := by
  obtain ⟨hp, hs⟩ := Option.ite_none_right_eq_some.mp h
  exact ⟨hp, Option.map_eq_some_iff.mp hs⟩

/-- A step that ends in `P`. -/
theorem exists_step (hf : ∀ e s s', f e s = some s' → R e s s') {e : ε}
    {P : σ → Prop} [DecidablePred P] (h : ((f e s).any fun s' => decide (P s')) = true) :
    ∃ s', R e s s' ∧ P s' := by
  cases hs : f e s with
  | none =>
    rw [hs] at h
    cases h
  | some s' =>
    rw [hs] at h
    exact ⟨s', hf e s s' hs, of_decide_eq_true h⟩

/-- A state that a run reaches, with what is known of it. -/
structure Reached (R : ε → σ → σ → Prop) (s : σ) (P : σ → Prop) where
  state : σ
  run : Run R s state
  holds : P state

/-- The state at the end of a list of steps. -/
def reached {f : ε → σ → Option σ} (hf : ∀ e s s', f e s = some s' → R e s s') (es : List ε)
    {P : σ → Prop} [DecidablePred P] (h : ((runList f es s).any fun s' => decide (P s')) = true) : Reached R s P :=
  match hr : runList f es s with
  | none => absurd h (by simp [hr])
  | some s' => ⟨s', run_of_runList hf es hr, of_decide_eq_true (by simpa [hr] using h)⟩

theorem Reached.exists {P : σ → Prop} (r : Reached R s P) : ∃ s', Run R s s' ∧ P s' := ⟨r.state, r.run, r.holds⟩

/-- A list of steps that ends in `P`. -/
theorem exists_run (hf : ∀ e s s', f e s = some s' → R e s s') (es : List ε)
    {P : σ → Prop} [DecidablePred P] (h : ((runList f es s).any fun s' => decide (P s')) = true) :
    ∃ s', Run R s s' ∧ P s' := (reached hf es h).exists

/-! ## runs under a condition -/

/-- The steps that meet a condition. -/
def Meeting (R : ε → σ → σ → Prop) (C : ε → σ → Prop) (e : ε) (s s' : σ) : Prop := R e s s' ∧ C e s

/-- The steps of `f` that meet a condition. -/
def guarded (f : ε → σ → Option σ) (C : ε → σ → Prop) [∀ e s, Decidable (C e s)] (e : ε) (s : σ) : Option σ :=
  if C e s then f e s else none

theorem meeting_of_guarded {C : ε → σ → Prop} [∀ e s, Decidable (C e s)]
    (hf : ∀ e s s', f e s = some s' → R e s s') (e : ε) (s s' : σ) (h : guarded f C e s = some s') :
    Meeting R C e s s' := by
  obtain ⟨hC, hs⟩ := Option.ite_none_right_eq_some.mp h
  exact ⟨hf e s s' hs, hC⟩

/-! ## counting parties -/

open Function (update)

variable {α : Type} {m : Nat}

/-- The sum of the weights of the points the parties are at. -/
def tally (f : α → Nat) (g : Fin m → α) : Nat := ∑ c, f (g c)

/-- One party moves. -/
theorem tally_update (f : α → Nat) (g : Fin m → α) (c : Fin m) (x : α) :
    tally f (update g c x) + f (g c) = tally f g + f x := by
  unfold tally
  have hsplit : ∀ h : Fin m → α, ∑ d, f (h d) = f (h c) + ∑ d ∈ Finset.univ.erase c, f (h d) :=
    fun h => (Finset.add_sum_erase _ _ (Finset.mem_univ c)).symm
  have hrest : ∑ d ∈ Finset.univ.erase c, f (update g c x d) =
      ∑ d ∈ Finset.univ.erase c, f (g d) := by
    apply Finset.sum_congr rfl
    intro d hd
    rw [Function.update_of_ne (Finset.ne_of_mem_erase hd)]
  rw [hsplit (update g c x), hsplit g, hrest, Function.update_self]
  omega

variable {f : α → Nat} {g : Fin m → α}

theorem le_tally (c : Fin m) : f (g c) ≤ tally f g := by
  unfold tally
  rw [← Finset.add_sum_erase _ _ (Finset.mem_univ c)]
  exact Nat.le_add_right _ _

theorem tally_const_zero {x : α} (h : f x = 0) : tally f (fun _ : Fin m => x) = 0 := by
  simp [tally, h]

/-- A positive tally has a party that counts. -/
theorem exists_of_tally_pos (h : 0 < tally f g) : ∃ c, 0 < f (g c) := by
  by_contra hn
  have hz : tally f g = 0 := Finset.sum_eq_zero fun c _ => Nat.eq_zero_of_not_pos fun hc => hn ⟨c, hc⟩
  omega

end Runs
