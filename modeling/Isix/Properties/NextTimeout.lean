import Isix.Refine.System
import Isix.Tickless

/-!
# Isix.Properties.NextTimeout

The tickless idle does not sleep past a deadline.  `calculate_next_timeout` knows
the first deadline before the wrap of the tick counter; the ones after it are at
least as far away as the wrap (`DeadlineInv`).  The timer is programmed for no
more ticks than that, and its period fits the counter.  None of the computations
overflows: they are the same in wrapping and in exact arithmetic.
-/

namespace Isix

open Word (Computes)

/-! ## the next timeout -/

/-- The ticks to the deadline of a task with a timeout. -/
def ticksToDeadline (s : Kernel) (t : TaskId) : Nat :=
  if (s.task t).inodeTime = some s.pWaitList then (s.task t).jiffies - s.jiffies
  else tickMod - s.jiffies + (s.task t).jiffies

/-- What the virtual timers ask for is a tick value. -/
theorem isixpVtimersNextTimeoutDelta_computes {tctx : Option Softtimers.VtimerContext} (now : Nat)
    (ht : ∀ c ∈ tctx, ∀ x, (c.vtimer x).jiffies < tickMod) :
    ∃ n : Nat, Computes (fun _ _ ar => isixpVtimersNextTimeoutDelta ar tctx now) n := by
  unfold isixpVtimersNextTimeoutDelta
  cases tctx with
  | none => exact ⟨timeMaxTick, fun _ _ _ _ _ => rfl⟩
  | some c =>
    dsimp only
    cases c.lists c.pVtimerList with
    | nil => exact ⟨timeMaxTick, fun _ _ _ _ _ => rfl⟩
    | cons first rest =>
      by_cases hle : now ≤ (c.vtimer first).jiffies
      · simp only [if_pos hle]
        exact ⟨_, fun _ _ _ ar har => har.sub hle (ht c rfl first)⟩
      · simp only [if_neg hle]
        exact ⟨0, fun _ _ _ _ _ => rfl⟩

theorem firstTimeout_computes {s : Kernel} (h : DeadlineInv s.toCore) :
    ∃ n : Nat, Computes (fun _ _ ar => firstTimeout ar s.jiffies s) n ∧ n ≤ timeMaxTick ∧
      ∀ t ∈ s.waitLists s.pWaitList, n ≤ (s.task t).jiffies - s.jiffies := by
  unfold firstTimeout
  cases hl : s.waitLists s.pWaitList with
  | nil => exact ⟨timeMaxTick, fun _ _ _ _ _ => rfl, Nat.le_refl _, fun t ht => by cases ht⟩
  | cons first rest =>
    have hmem : first ∈ s.waitLists s.pWaitList := by simp [hl]
    have hcur : s.jiffies < (s.task first).jiffies := h.current first hmem
    have hlt : (s.task first).jiffies < tickMod := h.lt _ first hmem
    simp only [if_pos (Nat.le_of_lt hcur)]
    refine ⟨_, fun _ _ _ ar har => har.sub (Nat.le_of_lt hcur) hlt, ?_, fun t ht => ?_⟩
    · simp only [timeMaxTick, tickMod] at *
      omega
    · -- the first deadline is the earliest one
      have hsort : (s.waitLists s.pWaitList).Pairwise _ := h.sorted s.pWaitList
      rw [hl] at hsort
      rcases List.mem_cons.mp ht with rfl | ht
      · exact Nat.le_refl _
      · exact Nat.sub_le_sub_right ((List.pairwise_cons.mp hsort).1 t ht) _

/-- The result of `calculate_next_timeout` from its parts. -/
def nextTimeout (jiffies first vtd : Nat) : Nat :=
  let toWrap := min (tickMod - jiffies) timeMaxTick
  let n := min vtd first
  max 1 (if toWrap < n then toWrap - 1 else n)

theorem calculateNextTimeout_computes {s : Kernel}
    {tctx : Option Softtimers.VtimerContext} (h : DeadlineInv s.toCore)
    (ht : ∀ c ∈ tctx, ∀ x, (c.vtimer x).jiffies < tickMod) :
    ∃ first vtd : Nat, first ≤ timeMaxTick ∧
      (∀ t ∈ s.waitLists s.pWaitList, first ≤ (s.task t).jiffies - s.jiffies) ∧
        Computes (fun _ _ ar => calculateNextTimeout ar tctx s) (nextTimeout s.jiffies first vtd) := by
  have htick : s.jiffies < tickMod := h.tick
  obtain ⟨first, hfirst, hmax, hle⟩ := firstTimeout_computes h
  obtain ⟨vtd, hvtd⟩ := isixpVtimersNextTimeoutDelta_computes s.jiffies ht
  refine ⟨first, vtd, hmax, hle, fun m _ _ ar har => ?_⟩
  have hleft : ar.sub 64 timeMaxTick s.jiffies = pure (timeMaxTick - s.jiffies) := by
    refine har.sub ?_ (by decide)
    simp only [timeMaxTick, tickMod] at *
    omega
  have hone : ar.add 64 (timeMaxTick - s.jiffies) 1 = pure (timeMaxTick - s.jiffies + 1) := by
    refine har.add ?_
    simp only [timeMaxTick, tickMod] at *
    omega
  -- the ticks to the wrap, clipped to a tick value
  have hwrap : toTick (if timeMaxTick < timeMaxTick - s.jiffies + 1 then timeMaxTick
      else timeMaxTick - s.jiffies + 1) = min (tickMod - s.jiffies) timeMaxTick := by
    unfold toTick
    split <;> simp only [timeMaxTick, tickMod] at * <;> omega
  have hmin : (if vtd < first then vtd else first) = min vtd first := by
    split <;> omega
  unfold calculateNextTimeout
  simp only [hleft, hone, hfirst m ar har, hvtd m ar har, pure_bind, hwrap, hmin]
  unfold nextTimeout
  dsimp only
  by_cases hlt : min (tickMod - s.jiffies) timeMaxTick < min vtd first
  · have hsub : ar.sub 32 (min (tickMod - s.jiffies) timeMaxTick) 1 =
        pure (min (tickMod - s.jiffies) timeMaxTick - 1) := by
      refine har.sub ?_ ?_ <;> simp only [timeMaxTick, tickMod] at * <;> omega
    rw [if_pos hlt, if_pos hlt, hsub, pure_bind]
    congr 1
    split <;> omega
  · rw [if_neg hlt, if_neg hlt]
    congr 1
    split <;> omega

theorem nextTimeout_bounds {jiffies first : Nat} (vtd : Nat) (hj : jiffies < tickMod) (hf : first ≤ timeMaxTick) :
    1 ≤ nextTimeout jiffies first vtd ∧ nextTimeout jiffies first vtd ≤ timeMaxTick ∧
      nextTimeout jiffies first vtd ≤ max 1 first ∧ nextTimeout jiffies first vtd ≤ max 1 (tickMod - jiffies) := by
  unfold nextTimeout
  dsimp only
  split <;> simp only [timeMaxTick, tickMod] at * <;> omega

/-! ## the period of the timer -/

namespace Systimer

variable {c : Setup} {timeout : Nat}

theorem isixPortSystimerMaxTicks_computes :
    ∃ n, Computes (fun _ _ ar => isixPortSystimerMaxTicks ar c.tickCycles) n ∧ 1 ≤ n ∧ n < 2 ^ 32 ∧
      (n - 1) * c.tickCycles ≤ 0x1000000 := by
  have hdiv : 0x1000000 / c.tickCycles ≤ 0x1000000 := Nat.div_le_self _ _
  have hmul : 0x1000000 / c.tickCycles * c.tickCycles ≤ 0x1000000 := Nat.div_mul_le_self _ _
  unfold isixPortSystimerMaxTicks
  by_cases hshort : 0x1000000 / c.tickCycles < 2
  · simp only [if_pos hshort]
    exact ⟨1, fun _ _ _ _ _ => rfl, Nat.le_refl _, by decide, by simp⟩
  · simp only [if_neg hshort]
    refine ⟨_, fun _ _ _ ar har => har.add (by omega), by omega, by omega, ?_⟩
    rw [Nat.add_sub_cancel]
    exact hmul

/-- What is programmed lies within the request and within the counter. -/
structure Programmed.Fits (c : Setup) (timeout : Nat) (r : Programmed) : Prop where
  result : r.result ≤ max 1 timeout
  period : ∀ ticks rvr, r.period = some (ticks, rvr) → ticks + 1 ≤ timeout ∧
    ticks * c.tickCycles ≤ 2 ^ 24 ∧ rvr = ticks * c.tickCycles - 1 ∧ rvr < 2 ^ 24
  restored : ∀ rvr, r.restored = some rvr → rvr = c.tickCycles - 1 ∧ rvr < 2 ^ 24

theorem Programmed.Fits.one : Programmed.Fits c timeout ⟨none, none, 1⟩ where
  result := Nat.le_max_left 1 timeout
  period _ _ hp := by cases hp
  restored _ hr := by cases hr

theorem programPeriod_computes (passed : Bool) {ticks : Nat} (htpp : 1 ≤ c.tickCycles) (h24 : c.tickCycles ≤ 2 ^ 24)
    (h2 : 2 ≤ ticks) (hle : ticks + 1 ≤ timeout) (hfit : ticks * c.tickCycles ≤ 2 ^ 24) :
    ∃ r : Programmed, Computes (fun _ _ ar => programPeriod ar c passed ticks) r ∧ r.Fits c timeout := by
  have hpos : 1 ≤ ticks * c.tickCycles := Nat.mul_pos (by omega) htpp
  have hticks : ticks ≤ ticks * c.tickCycles := Nat.le_mul_of_pos_right ticks htpp
  unfold programPeriod
  cases passed with
  | true =>
    refine ⟨⟨some (ticks, ticks * c.tickCycles - 1), some (c.tickCycles - 1), 1⟩, fun m _ _ ar har => ?_,
      Nat.le_max_left 1 timeout, fun a b hp => ?_, fun b hr => ?_⟩
    · dsimp only
      rw [har.mul (by omega), pure_bind, har.sub hpos (by omega), pure_bind, if_pos rfl,
        har.sub htpp (by omega), pure_bind]
    · cases hp
      exact ⟨hle, hfit, rfl, by omega⟩
    · cases hr
      exact ⟨rfl, by omega⟩
  | false =>
    refine ⟨⟨some (ticks, ticks * c.tickCycles - 1), none, ticks + 1⟩, fun m _ _ ar har => ?_,
      by dsimp only; omega, fun a b hp => ?_, fun b hr => by cases hr⟩
    · dsimp only
      rw [har.mul (by omega), pure_bind, har.sub hpos (by omega), pure_bind, if_neg (by decide),
        har.add (by omega), pure_bind]
    · cases hp
      exact ⟨hle, hfit, rfl, by omega⟩

theorem limitPeriod_computes (passed : Bool) {k : Nat} (htpp : 1 ≤ c.tickCycles) (h24 : c.tickCycles ≤ 2 ^ 24)
    (hk : k + 1 ≤ timeout) :
    ∃ r : Programmed, Computes (fun _ _ ar => limitPeriod ar c passed k) r ∧ r.Fits c timeout := by
  obtain ⟨n, hn, hn1, hn32, hcycles⟩ := isixPortSystimerMaxTicks_computes
  have hle : (if n - 1 < k then n - 1 else k) ≤ n - 1 ∧ (if n - 1 < k then n - 1 else k) ≤ k := by
    split <;> omega
  have hfit : (if n - 1 < k then n - 1 else k) * c.tickCycles ≤ 2 ^ 24 :=
    (Nat.mul_le_mul_right _ hle.1).trans hcycles
  unfold limitPeriod
  by_cases hmin : (if n - 1 < k then n - 1 else k) < 2
  · refine ⟨_, fun m _ _ ar har => ?_, Programmed.Fits.one⟩
    simp only [hn m ar har, pure_bind, har.sub hn1 hn32]
    rw [if_pos hmin]
  · obtain ⟨r, hr, hrfit⟩ := programPeriod_computes passed htpp h24 (Nat.le_of_not_lt hmin)
      (show _ ≤ timeout by omega) hfit
    refine ⟨r, fun m _ _ ar har => ?_, hrfit⟩
    simp only [hn m ar har, pure_bind, har.sub hn1 hn32]
    rw [if_neg hmin]
    exact hr m ar har

theorem isixPortSystimerSetTimeout_computes (off passed : Bool) (htpp : 1 ≤ c.tickCycles) (h24 : c.tickCycles ≤ 2 ^ 24)
    (ht : timeout < 2 ^ 32) :
    ∃ r : Programmed, Computes (fun _ _ ar => isixPortSystimerSetTimeout ar c off passed timeout) r ∧
      r.Fits c timeout := by
  unfold isixPortSystimerSetTimeout
  by_cases hnot : off = false ∨ timeout < 2
  · simp only [if_pos hnot]
    exact ⟨_, fun _ _ _ _ _ => rfl, Programmed.Fits.one⟩
  · simp only [if_neg hnot]
    have h2 : 2 ≤ timeout := Nat.le_of_not_lt fun hlt => hnot (.inr hlt)
    by_cases hcomp : c.compensation < timeout - 1
    · obtain ⟨r, hr, hfit⟩ := limitPeriod_computes passed htpp h24
        (show timeout - 1 - c.compensation + 1 ≤ timeout by omega)
      refine ⟨r, fun m _ _ ar har => ?_, hfit⟩
      dsimp only
      rw [har.sub (by omega) ht, pure_bind, if_pos hcomp, har.sub (Nat.le_of_lt hcomp) (by omega), pure_bind]
      exact hr m ar har
    · obtain ⟨r, hr, hfit⟩ := limitPeriod_computes passed htpp h24 (show timeout - 1 + 1 ≤ timeout by omega)
      refine ⟨r, fun m _ _ ar har => ?_, hfit⟩
      dsimp only
      rw [har.sub (by omega) ht, pure_bind, if_neg hcomp]
      exact hr m ar har

end Systimer

/-! ## the idle task -/

section

variable [Config]

/-- **The tickless idle does not oversleep**: in every state reached after a
proper boot and for all virtual timers the next timeout is between 1 and the
largest tick value and not after any deadline; the timer is programmed for no
more ticks than it is asked for, with a period that fits its 24 bits.  The
checked computations succeed, so nothing overflows. -/
theorem tickless_never_oversleeps :
    (∀ (s : Kernel) (tctx : Option Softtimers.VtimerContext), Reachable BootOk s →
      (∀ c ∈ tctx, ∀ x, (c.vtimer x).jiffies < tickMod) →
      ∃ n : Nat, calculateNextTimeout Word.checked tctx s = some n ∧
        calculateNextTimeout Word.wrapping tctx s = n ∧ 1 ≤ n ∧ n ≤ timeMaxTick ∧
          ∀ b, ∀ t ∈ s.waitLists b, n ≤ max 1 (ticksToDeadline s t)) ∧
    ∀ (c : Systimer.Setup) (off passed : Bool) (timeout : Nat), 1 ≤ c.tickCycles → c.tickCycles ≤ 2 ^ 24 →
      timeout < tickMod →
      ∃ r : Systimer.Programmed, Systimer.isixPortSystimerSetTimeout Word.checked c off passed timeout = some r ∧
        Systimer.isixPortSystimerSetTimeout Word.wrapping c off passed timeout = r ∧ r.Fits c timeout := by
  refine ⟨fun s tctx hr ht => ?_, fun c off passed timeout htpp h24 ht => ?_⟩
  · have hi : Inv s := hr.inv fun _ _ hc => hc
    have hd : DeadlineInv s.toCore := hi.good.core.time.deadlines
    have hlink := hi.good.core.time.linked
    have htick : s.jiffies < tickMod := hd.tick
    obtain ⟨first, vtd, hmax, hle, hn⟩ := calculateNextTimeout_computes hd ht
    obtain ⟨hpos, hn32, hfirst, hwrap⟩ := nextTimeout_bounds vtd htick hmax
    refine ⟨_, hn.checked, hn.wrapping, hpos, hn32, fun b t hmem => ?_⟩
    have hb : (s.task t).inodeTime = some b := hlink.mem_iff.mp hmem
    unfold ticksToDeadline
    by_cases hbp : b = s.pWaitList
    · subst hbp
      rw [if_pos hb]
      have := hle t hmem
      omega
    · rw [if_neg (by rw [hb]; simpa using hbp)]
      omega
  · obtain ⟨r, hr, hfit⟩ := Systimer.isixPortSystimerSetTimeout_computes off passed htpp h24 ht
    exact ⟨r, hr.checked, hr.wrapping, hfit⟩

end

/-- A task sleeps for five ticks, and the timer is asked for ten ticks of 8000
cycles. -/
theorem tickless_of_sleeper : ∃ (_ : Config) (s : Kernel), Reachable BootOk s ∧
    (∃ n : Nat, calculateNextTimeout Word.checked none s = some n ∧ 1 ≤ n ∧ n ≤ max 1 (ticksToDeadline s 1)) ∧
    ∃ r : Systimer.Programmed, Systimer.isixPortSystimerSetTimeout Word.checked ⟨8000, 1000, 1⟩ true false 10 =
      some r ∧ r.Fits ⟨8000, 1000, 1⟩ 10 := by
  let _ := smallConfig
  obtain ⟨s, hr, hl⟩ := exists_reachable (C := BootOk)
    [.boot (.taskCreate 1 false false), .start, .call (.wait 5), .schedule]
    (P := fun s => 1 ∈ s.waitLists false) (by decide +kernel)
  obtain ⟨hnext, hset⟩ := tickless_never_oversleeps
  obtain ⟨n, hn, -, h1, -, hle⟩ := hnext s none hr (fun c hc => by cases hc)
  obtain ⟨r, hr', -, hfit⟩ := hset ⟨8000, 1000, 1⟩ true false 10 (by decide) (by decide) (by decide)
  exact ⟨smallConfig, s, hr, ⟨n, hn, h1, hle false 1 hl⟩, r, hr', hfit⟩

/-- `main` waits for a semaphore before it starts the scheduler: the task that is started first is on a timeout list.
When it goes to sleep again it stays at the head with a later deadline, in front of the other task. -/
theorem boot_wait_oversleeps : ∃ (_ : Config) (s : Kernel), Reachable (fun _ _ => True) s ∧
    2 ∈ s.waitLists false ∧ calculateNextTimeout Word.checked none s = some 100 ∧ ticksToDeadline s 2 = 50 := by
  let _ := smallConfig
  obtain ⟨s, hr, hs⟩ := exists_reachable (C := fun _ _ => True)
    [.boot (.taskCreate 1 false false), .boot (.taskCreate 1 false false), .boot (.semCreate 0 0),
      .boot (.semWait (some 0) 5 0), .start, .schedule, .call (.wait 50), .schedule, .call (.wait 100), .schedule]
    (P := fun s => 2 ∈ s.waitLists false ∧ calculateNextTimeout Word.checked none s = some 100 ∧
      ticksToDeadline s 2 = 50) (by decide +kernel)
  exact ⟨_, s, hr, hs⟩

end Isix
