import Isix.Tickless

/-!
# Isix.Properties.Tickless

Sleeping for the time that was asked for.  `isix_ms2tick` is exact if and only if the product of the
tick rate and the milliseconds fits in 32 bits.  A restart of the counter after an early wake-up keeps
the ticks on the grid they were on if and only if the next boundary is not closer than the restart takes and
the first period fits in its type; a sequence of such wake-ups does not drift.
-/

namespace Isix

/-! ## milliseconds -/

section

variable {hz ms ms₁ ms₂ : Nat}

theorem isixMs2tick_eq (h : hz * ms < tickMod) : isixMs2tick hz ms = max 1 (hz * ms / 1000) := by
  unfold isixMs2tick toTick
  rw [Nat.mod_eq_of_lt h]
  simp only
  split <;> omega

/-- A product that wraps gives fewer ticks than were asked for. -/
theorem isixMs2tick_lt (h : tickMod ≤ hz * ms) : isixMs2tick hz ms < hz * ms / 1000 := by
  unfold isixMs2tick toTick
  have hlt : hz * ms % tickMod / 1000 < hz * ms / 1000 ∧ 1 < hz * ms / 1000 := by
    simp only [tickMod] at h ⊢
    omega
  simp only
  split <;> omega

theorem isixMs2tick_pos : 0 < isixMs2tick hz ms := by
  unfold isixMs2tick
  simp only
  split <;> omega

/-- The caller of `isix_wait` sleeps until its deadline. -/
theorem isixWait_sleeps {s : Kernel} {h : Head} {timeout : Nat} (hrun : s.schrun = true)
    (hi : s.inode s.currp = some h) (ht : timeout ≠ timeInfinite) : ∃ s' b, isixWait timeout s = .ok (s', .blocked) ∧
      (s'.task s.currp).state = .sleeping ∧ (s'.task s.currp).jiffies = toTick (s.jiffies + timeout) ∧
      (s'.task s.currp).inodeTime = some b ∧ s.currp ∈ s'.waitLists b := by
  let u := s.unlink s.currp h
  let s₁ : Kernel := { u with ready := u.ready.release (u.prioElem s.currp) }
  have hdel : deleteFromReadyList s.currp s = .ok s₁ := by
    unfold deleteFromReadyList Kernel.listDelete
    rw [hi]
    rfl
  have hcur : s₁.currp = s.currp := by cases h <;> rfl
  have hjif : s₁.jiffies = s.jiffies := by cases h <;> rfl
  let s₂ := s₁.withTask s₁.currp fun x => { x with state := .sleeping }
  have hsleep : isixpSetSleepTimeout .sleeping timeout s = .ok (addTaskToWaitingList s₂.currp timeout s₂) := by
    unfold isixpSetSleepTimeout isixpSetSleep
    rw [hdel]
    exact congrArg Except.ok (if_pos ht)
  have hwait : isixWait timeout s = .ok ({ (addTaskToWaitingList s₂.currp timeout s₂).withTask s₂.currp fun x =>
      { x with frame := .wait } with pendsv := true }, .blocked) := by
    unfold isixWait
    rw [if_pos hrun, hsleep]
    rfl
  refine ⟨_, if toTick (s₂.jiffies + timeout) < s₂.jiffies then !s₂.pWaitList else s₂.pWaitList, hwait, ?_⟩
  simp [addTaskToWaitingList, Kernel.withTask, s₂, hcur, hjif]

/-- **Milliseconds to ticks**: the number of ticks is exact and at least one, a longer time is not fewer ticks,
and the caller of `isix_wait_ms` goes to sleep with its deadline that many ticks ahead, if and only if the
product of the tick rate and the milliseconds fits in 32 bits. -/
theorem waitMs_ticks (hz ms₁ ms₂ : Nat) (hle : ms₁ ≤ ms₂) :
    (isixMs2tick hz ms₁ ≤ isixMs2tick hz ms₂ ∧
      isixMs2tick hz ms₁ = max 1 (hz * ms₁ / 1000) ∧ isixMs2tick hz ms₂ = max 1 (hz * ms₂ / 1000) ∧
      ∀ s : Kernel, s.schrun = true → s.inode s.currp ≠ none → ∃ s' b, isixWaitMs hz ms₂ s = .ok (s', .blocked) ∧
        (s'.task s.currp).state = .sleeping ∧
        (s'.task s.currp).jiffies = toTick (s.jiffies + max 1 (hz * ms₂ / 1000)) ∧
        (s'.task s.currp).inodeTime = some b ∧ s.currp ∈ s'.waitLists b) ↔
      hz * ms₂ < tickMod := by
  refine ⟨fun ⟨_, _, h₂, _⟩ => ?_, fun hfit => ?_⟩
  · by_contra hwrap
    have hlt := isixMs2tick_lt (Nat.le_of_not_lt hwrap)
    omega
  have hmul : hz * ms₁ ≤ hz * ms₂ := Nat.mul_le_mul_left hz hle
  have h₁ := isixMs2tick_eq (Nat.lt_of_le_of_lt hmul hfit)
  have h₂ := isixMs2tick_eq hfit
  refine ⟨?_, h₁, h₂, fun s hrun hi => ?_⟩
  · have hdiv : hz * ms₁ / 1000 ≤ hz * ms₂ / 1000 := Nat.div_le_div_right hmul
    rw [h₁, h₂]
    omega
  · obtain ⟨h, hi⟩ := Option.ne_none_iff_exists'.mp hi
    rw [← h₂]
    exact isixWait_sleeps hrun hi (Nat.ne_of_gt isixMs2tick_pos)

/-- At 1000 Hz the longest time that is still exact is 4294967 ms. -/
theorem waitMs_ticks_longest : isixMs2tick 1000 4294966 ≤ isixMs2tick 1000 4294967 ∧
    isixMs2tick 1000 4294967 = 4294967 := by
  obtain ⟨hle, -, heq, -⟩ := (waitMs_ticks 1000 4294966 4294967 (by decide)).mpr (by decide)
  exact ⟨hle, heq⟩

/-- One millisecond more, and the product wraps: the wait is one tick long. -/
theorem isixMs2tick_wraps : 1000 * 4294968 / 1000 < tickMod ∧ isixMs2tick 1000 4294968 = 1 ∧
    isixMs2tick 1000 4294968 < isixMs2tick 1000 4294967 := by
  decide

end

/-! ## an early wake-up -/

namespace Systimer

variable {tpp skew : Nat}

/-- The cycles of a long period that have run. -/
def ran (longCycles cvr : Nat) : Nat := if cvr < longCycles then longCycles - 1 - cvr else 0

/-- The next boundary is not closer to the sample than the restart takes, and a first period that goes on to the
boundary after it fits in its type. -/
def WakeUp.Early (tpp skew : Nat) (w : WakeUp) : Prop :=
  skew ≤ tpp - ran w.longCycles w.cvr % tpp ∧
    (tpp - ran w.longCycles w.cvr % tpp - skew < 64 → tpp - ran w.longCycles w.cvr % tpp - skew + tpp < tickMod)

/-- The sample is one of a long period. -/
def WakeUp.Valid (w : WakeUp) : Prop := w.cvr < w.longCycles ∧ w.longCycles < tickMod

section

variable {w : WakeUp} (htpp : 128 ≤ tpp) (hfit : tpp < tickMod) (hw : w.Valid)

include htpp hfit hw

/-- The first period of a restart ends on a boundary of the grid, with the ticks up to it counted, exactly for
early wake-ups. -/
theorem split_on_grid : (w.longCycles - 1 - w.cvr) + skew + (split w.longCycles w.cvr tpp skew).2 =
    ((split w.longCycles w.cvr tpp skew).1 + 1) * tpp ↔ w.Early tpp skew := by
  have hran : ran w.longCycles w.cvr = w.longCycles - 1 - w.cvr := if_pos hw.1
  have hlt : ran w.longCycles w.cvr < tickMod := Nat.lt_of_le_of_lt (hran ▸ by omega) hw.2
  unfold split WakeUp.Early
  rw [show (if w.cvr < w.longCycles then w.longCycles - 1 - w.cvr else 0) = ran w.longCycles w.cvr from rfl, ← hran]
  generalize ran w.longCycles w.cvr = x at hlt ⊢
  have hdiv := Nat.div_add_mod x tpp
  have hmod := Nat.mod_lt x (show tpp > 0 by omega)
  have hn : x / tpp + 1 < tickMod := by
    have := Nat.div_le_div_left (a := x) htpp (by decide)
    simp only [tickMod] at hlt ⊢
    omega
  rw [Nat.mul_comm] at hdiv
  -- the cycles to the boundary, less the skew
  have hfirst : (if skew < tpp - x % tpp then tpp - x % tpp - skew else 0) = tpp - x % tpp - skew := by
    split <;> omega
  simp only [hfirst]
  split
  next hlow =>
    rw [toTick, toTick, Nat.mod_eq_of_lt hn, Nat.add_mul, Nat.add_mul]
    rcases Nat.lt_or_ge (tpp - x % tpp - skew + tpp) tickMod with hle | hge
    · rw [Nat.mod_eq_of_lt hle]
      omega
    · rw [Nat.mod_eq_sub_mod hge, Nat.mod_eq_of_lt (by omega)]
      omega
  next hhigh =>
    show x + skew + (tpp - x % tpp - skew) = (x / tpp + 1) * tpp ↔ _
    rw [Nat.add_mul]
    omega

theorem Clock.wakeUp_on_grid {c : Clock} (he : w.Early tpp skew) (hc : c.cycles = c.ticks * tpp) :
    (c.wakeUp tpp skew w).cycles = (c.wakeUp tpp skew w).ticks * tpp := by
  have hsplit := (split_on_grid htpp hfit hw).mpr he
  show c.cycles + w.before * tpp + (_ + skew + _) = (c.ticks + w.before + (_ + 1)) * tpp
  rw [hsplit, hc, Nat.add_mul (c.ticks + w.before), Nat.add_mul c.ticks]

end

/-- **Early wake-ups keep the phase**: the first period ends on the boundary after the ticks that are counted if
and only if the next boundary is not closer to the sample than the skew and the first period does not wrap, and
any number of such wake-ups leaves the time of the next tick a multiple of the tick, as many as were counted. -/
theorem wakeUps_in_phase (tpp skew : Nat) (htpp : 128 ≤ tpp) (hfit : tpp < tickMod) :
    (∀ w : WakeUp, w.Valid → ((w.longCycles - 1 - w.cvr) + skew + (split w.longCycles w.cvr tpp skew).2 =
      ((split w.longCycles w.cvr tpp skew).1 + 1) * tpp ↔ w.Early tpp skew)) ∧
    ∀ ws : List WakeUp, (∀ w ∈ ws, w.Valid ∧ w.Early tpp skew) →
      (ws.foldl (Clock.wakeUp tpp skew) {}).cycles = (ws.foldl (Clock.wakeUp tpp skew) {}).ticks * tpp := by
  refine ⟨fun w hw => split_on_grid htpp hfit hw, fun ws hws => ?_⟩
  suffices hloop : ∀ c : Clock, c.cycles = c.ticks * tpp →
      (ws.foldl (Clock.wakeUp tpp skew) c).cycles = (ws.foldl (Clock.wakeUp tpp skew) c).ticks * tpp from
    hloop {} (Nat.zero_mul tpp).symm
  induction ws with
  | nil => exact fun c hc => hc
  | cons w ws ih =>
    intro c hc
    obtain ⟨hw, he⟩ := hws w (List.mem_cons_self ..)
    exact ih (fun v hv => hws v (List.mem_cons_of_mem w hv)) _ (Clock.wakeUp_on_grid htpp hfit hw he hc)

/-- Two wake-ups in long periods of ten ticks, the second one right before a boundary that is counted at once. -/
theorem twoWakeUps_in_phase : ([⟨0, 1280, 1000⟩, ⟨3, 1280, 1090⟩].foldl (Clock.wakeUp 128 59) {}).cycles =
    ([⟨0, 1280, 1000⟩, ⟨3, 1280, 1090⟩].foldl (Clock.wakeUp 128 59) {}).ticks * 128 :=
  (wakeUps_in_phase 128 59 (by decide) (by decide)).2 [⟨0, 1280, 1000⟩, ⟨3, 1280, 1090⟩] (by
    unfold WakeUp.Valid WakeUp.Early
    decide)

/-- A sample one cycle before the boundary: the first period is a whole tick, counted from the end of the
restart, and all later ticks come 58 cycles late. -/
theorem wakeUp_drifts : (split 1280 1152 128 59) = (1, 128) ∧ (1280 - 1 - 1152) + 59 + 128 = (1 + 1) * 128 + 58 := by
  decide

end Systimer

end Isix
