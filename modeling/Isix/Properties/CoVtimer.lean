import Isix.Co.Vtimer
import Isix.Properties.CoTimers

/-!
# Isix.Properties.CoVtimer

When the driving thread blocks with timers pending, the timer bit is set or
the newest start command of the vtimer aims at a time that is not later than
any pending deadline.  The cache of `arm_timer` (`Cached`) stands for the
newest command as long as the timer bit is not set: whatever the worker does
with older commands, it gets to the newest one, and the only thing it can do
before is to set the bit.

The deadline in front of the list is the nearest one only while the list is
sorted.  A timeout that is registered long after the last look at the timers
can end up in front of a timer that is overdue; the vtimer is then armed for
the wrong one.
-/

namespace Isix.Co

open Runs (Run Reached reached Meeting guarded meeting_of_guarded of_guard of_guard_map)

variable {T G : Nat} {s s' : VtimerState} {n : NodeId} {d : Nat}

namespace VtimerState

/-! ## the newest command -/

theorem newest_command {c : Command} {rest : List Command} (h : s.commands = c :: rest) :
    newest { s with commands := rest, vtimer := some (c, s.timers.sched.time) } = s.newest := by
  cases rest with
  | nil => simp [newest, h]
  | cons b rest => simp [newest, h, List.getLast?_cons]

/-! ## the invariant -/

/-- The newest command aims at the time `d` or an earlier one. -/
def Aims (s : VtimerState) (d : Nat) : Prop := ∃ c, s.newest = some c ∧ c.issued + c.timeout ≤ d

/-- What the driving thread remembers is the newest command. -/
def Cached (s : VtimerState) : Prop := ∃ c, s.newest = some c ∧ toTick (c.issued + c.timeout) = s.vtDeadline

structure Armed (T : Nat) (s : VtimerState) : Prop where
  sorted : s.timers.Sorted T
  issued : ∀ c, s.newest = some c → c.issued ≤ s.timers.sched.time ∧ c.timeout < tickMod
  cached : s.vtArmed = true → s.timerBit = true ∨ s.Cached
  blocked : s.pc = .waiting true → s.timerBit = true ∨
    ∀ n ∈ s.timers.sched.timers, ∀ d, s.timers.due n = some d → s.Aims d
  counted : s.passes + s.timerBit.toNat ≤ s.fires

/-- A step of the driving thread that touches only the scheduler. -/
theorem Armed.of_sorted {timers : TimerState} {pc : DriverPc} (hs : s.Armed T) (h : timers.Sorted T)
    (htime : s.timers.sched.time ≤ timers.sched.time) (hpc : pc ≠ .waiting true) : Armed T { s with timers, pc } where
  sorted := h
  issued c hc := ⟨Nat.le_trans (hs.issued c hc).1 htime, (hs.issued c hc).2⟩
  cached := hs.cached
  blocked hb := absurd hb hpc
  counted := hs.counted

theorem Armed.processDueTimers {pc : DriverPc} (hT : T ≤ 2 ^ 31) (hs : s.Armed T) (hp : s.timers.Prompt)
    (hpc : pc ≠ .waiting true) : Armed T { s.processDueTimers with pc } :=
  hs.of_sorted (hs.sorted.call hT hp) (hs.sorted.fired hT hp).time.ge hpc

/-! ## arming -/

/-- The first timer, if it is not due, is in the future, and no other one is nearer. -/
theorem Armed.front {rest : List NodeId} (hT : T ≤ 2 ^ 31) (hs : s.Armed T) (hp : s.timers.Prompt)
    (ht : s.timers.sched.timers = n :: rest)
    (hdue : Scheduler.timeBefore s.timers.sched.jiffies (s.timers.sched.node n).deadline = true) :
    ∃ d, s.timers.InWindow T n d ∧ s.timers.sched.time < d ∧
      ∀ m ∈ s.timers.sched.timers, ∀ e, s.timers.due m = some e → d ≤ e := by
  obtain ⟨d, hd⟩ := hs.sorted.window n (by simp [ht])
  refine ⟨d, hd, ?_, ?_⟩
  · have := hp n (by simp [ht]) d hd.due
    have := hd.high
    rw [hd.deadline, Scheduler.jiffies, Scheduler.timeBefore_toTick (by omega) (by omega)] at hdue
    simpa using hdue
  · intro m hm e he
    have hsorted := hs.sorted.sorted
    rw [ht] at hsorted hm
    rcases List.mem_cons.mp hm with rfl | hm
    · rw [hd.due] at he
      cases he
      exact Nat.le_refl _
    · exact (List.pairwise_cons.mp hsorted).1 m hm d e hd.due he

/-- The command that is already under way aims at the deadline or a whole turn before it. -/
theorem Armed.aims_of_cached (hs : s.Armed T) (hc : s.Cached) (hd : s.vtDeadline = toTick d)
    (hlt : s.timers.sched.time < d) : s.Aims d := by
  obtain ⟨c, hnew, heq⟩ := hc
  obtain ⟨hissued, htimeout⟩ := hs.issued c hnew
  refine ⟨c, hnew, ?_⟩
  rw [hd] at heq
  unfold toTick tickMod at *
  omega

theorem toTick_aim {time : Nat} (hlt : time < d) (hd : d < time + tickMod) :
    time + toTick (toTick d + tickMod - toTick time) = d := by
  unfold toTick tickMod at *
  omega

/-- A new command for the deadline in front. -/
theorem Armed.start {c : Command} (hs : s.Armed T) (hissued : c.issued = s.timers.sched.time)
    (htimeout : c.timeout < tickMod) (haim : c.issued + c.timeout = d)
    (hnearest : ∀ m ∈ s.timers.sched.timers, ∀ e, s.timers.due m = some e → d ≤ e) :
    Armed T { s with
      commands := s.commands ++ [c], vtArmed := true, vtDeadline := toTick d, pc := .waiting true } := by
  have hnew : newest { s with
      commands := s.commands ++ [c], vtArmed := true, vtDeadline := toTick d, pc := .waiting true } = some c := by
    simp [newest]
  refine ⟨hs.sorted, ?_, fun _ => .inr ⟨c, hnew, by rw [haim]⟩, fun _ => .inr fun m hm e he => ?_, hs.counted⟩
  · intro c' hc'
    cases hc'.symm.trans hnew
    exact ⟨hissued.le, htimeout⟩
  · exact ⟨c, hnew, haim ▸ hnearest m hm e he⟩

section

variable {rest : List NodeId} (ht : s.timers.sched.timers = n :: rest)
include ht

theorem armTimer_due (hdue : Scheduler.timeBefore s.timers.sched.jiffies (s.timers.sched.node n).deadline = false) :
    s.armTimer = (false, s) := by
  simp [armTimer, ht, hdue]

variable (hdue : Scheduler.timeBefore s.timers.sched.jiffies (s.timers.sched.node n).deadline = true)
include hdue

theorem armTimer_cached (h : s.vtArmed = true ∧ s.vtDeadline = (s.timers.sched.node n).deadline) :
    s.armTimer = (true, s) := by
  simp [armTimer, ht, hdue, h]

theorem armTimer_start (h : ¬(s.vtArmed = true ∧ s.vtDeadline = (s.timers.sched.node n).deadline)) :
    s.armTimer = (true, { s with
      commands := s.commands ++
        [⟨s.timers.sched.time, toTick ((s.timers.sched.node n).deadline + tickMod - s.timers.sched.jiffies)⟩]
      vtArmed := true
      vtDeadline := (s.timers.sched.node n).deadline }) := by
  simp [armTimer, ht, hdue, h]

end

theorem Armed.armTimer (hT : T ≤ 2 ^ 31) (hs : s.Armed T) (hp : s.timers.Prompt) :
    Armed T { s.armTimer.2 with pc := .waiting s.armTimer.1 } := by
  cases ht : s.timers.sched.timers with
  | nil =>
    have harm : s.armTimer = (true, s) := by simp [VtimerState.armTimer, ht]
    rw [harm]
    refine { hs with blocked := fun _ => .inr ?_ }
    simp [ht]
  | cons n rest =>
    cases hdue : Scheduler.timeBefore s.timers.sched.jiffies (s.timers.sched.node n).deadline with
    | false =>
      rw [armTimer_due ht hdue]
      exact hs.of_sorted hs.sorted (Nat.le_refl _) nofun
    | true =>
      obtain ⟨d, hd, hlt, hnearest⟩ := hs.front hT hp ht hdue
      by_cases harmed : s.vtArmed = true ∧ s.vtDeadline = (s.timers.sched.node n).deadline
      · rw [armTimer_cached ht hdue harmed]
        refine { hs with blocked := fun _ => ?_ }
        cases hs.cached harmed.1 with
        | inl hbit => exact .inl hbit
        | inr hcached =>
          obtain ⟨c, hnew, hle⟩ := hs.aims_of_cached hcached (harmed.2.trans hd.deadline) hlt
          exact .inr fun m hm e he => ⟨c, hnew, Nat.le_trans hle (hnearest m hm e he)⟩
      · rw [armTimer_start ht hdue harmed]
        have hturn : d < s.timers.sched.time + tickMod := by
          have := hd.high
          unfold tickMod
          omega
        rw [hd.deadline]
        exact hs.start rfl (Nat.mod_lt _ (by decide)) (toTick_aim hlt hturn) hnearest

/-! ## all steps -/

/-- The condition on the steps: the timeouts are at most `T` ticks, a timeout is registered at most
`G` ticks after the last look at the timers, and no look at them is half a turn of the counter late. -/
def OnTime (T G : Nat) : VtimerEvent → VtimerState → Prop
  | .suspend _ _ timeout _, s => timeout ≤ T ∧ s.timers.sched.time ≤ s.timers.called + G
  | .poll, s => s.timers.Prompt
  | .call, s => s.timers.Prompt
  | .arm _, s => s.timers.Prompt
  | _, _ => True

theorem Armed.step {e : VtimerEvent} (hTG : T + G ≤ 2 ^ 31) (hs : s.Armed T) (hp : OnTime T G e s)
    (h : VtimerStep e s s') : s'.Armed T := by
  have hT : T ≤ 2 ^ 31 := by omega
  unfold VtimerStep vtimerStep at h
  cases e with
  | poll =>
    obtain ⟨-, rfl⟩ := of_guard h
    exact hs.processDueTimers hT hp (by simp)
  | arm inboxEmpty =>
    obtain ⟨-, he⟩ := Option.ite_none_right_eq_some.mp h
    simp only at he
    split at he
    · cases he
      exact hs.armTimer hT hp
    · cases he
      exact hs.of_sorted hs.sorted (Nat.le_refl _) (by simp)
  | wakeUp others =>
    obtain ⟨-, rfl⟩ := of_guard h
    refine ⟨hs.sorted, hs.issued, ?_, by simp, ?_⟩
    · intro harmed
      simp only [Bool.and_eq_true, Bool.not_eq_true'] at harmed
      exact .inr ((hs.cached harmed.1).resolve_left (by simp [harmed.2]))
    · have := hs.counted
      cases hb : s.timerBit <;> simp_all
  | call =>
    obtain ⟨hpc, rfl⟩ := of_guard h
    exact hs.processDueTimers hT hp (by simp [hpc])
  | suspend n c timeout r =>
    obtain ⟨⟨hpc, hn, -⟩, rfl⟩ := of_guard h
    refine hs.of_sorted (hs.sorted.suspend hTG hp.2 hn hp.1) ?_ (by simp [hpc])
    simp [TimerState.suspend, Scheduler.suspend_eq]
  | awaiter n onAbort =>
    obtain ⟨⟨hpc, hn⟩, rfl⟩ := of_guard h
    exact hs.of_sorted (hs.sorted.awaiter hn) (Nat.le_refl _) (by simp [hpc])
  | children n kids =>
    obtain ⟨hpc, rfl⟩ := of_guard h
    exact hs.of_sorted hs.sorted.children (Nat.le_refl _) (by simp [hpc])
  | wake n r =>
    obtain ⟨hpc, rfl⟩ := of_guard h
    have hm : Scheduler.Moved s.timers.sched (s.timers.sched.wake n r) := .wake hs.sorted.linked
    exact hs.of_sorted (hs.sorted.moved hm) hm.time.ge (by rcases hpc with hpc | hpc <;> simp [hpc])
  | cancel c =>
    obtain ⟨hpc, rfl⟩ := of_guard h
    have hm := hs.sorted.linked.cancelWait_moved s.timers.sched.waiting.length c
    exact hs.of_sorted (hs.sorted.moved hm) hm.time.ge (by rcases hpc with hpc | hpc <;> simp [hpc])
  | resume =>
    obtain ⟨hpc, ⟨n, t⟩, hr, rfl⟩ := of_guard_map h
    refine hs.of_sorted (hs.sorted.resume hr) ?_ (by simp [hpc])
    obtain ⟨rest, -, rfl⟩ := Scheduler.exists_of_resume hr
    exact Nat.le_refl _
  | done =>
    obtain ⟨-, rfl⟩ := of_guard h
    exact hs.of_sorted hs.sorted (Nat.le_refl _) (by simp)
  | command =>
    simp only at h
    cases hc : s.commands with
    | nil => simp [hc] at h
    | cons c rest =>
      rw [hc] at h
      cases h
      have hnew := newest_command hc
      refine ⟨hs.sorted, hnew.symm ▸ hs.issued, ?_, ?_, hs.counted⟩
      · simpa only [Cached, hnew] using hs.cached
      · simpa only [Aims, hnew] using hs.blocked
  | fire =>
    cases hv : s.vtimer with
    | none => simp [hv] at h
    | some p =>
      simp only [hv] at h
      obtain ⟨-, rfl⟩ := of_guard h
      refine ⟨hs.sorted, fun c hc => hs.issued c ?_, fun _ => .inl rfl, fun _ => .inl rfl, ?_⟩
      · have hlast : s.commands.getLast? = some c := by simpa [newest] using hc
        simp [newest, hlast]
      · have := hs.counted
        show s.passes + 1 ≤ s.fires + 1
        omega
  | pass k =>
    cases h
    refine ⟨hs.sorted.pass k, fun c hc => ?_, hs.cached, hs.blocked, hs.counted⟩
    exact ⟨Nat.le_add_right_of_le (hs.issued c hc).1, (hs.issued c hc).2⟩

end VtimerState

open VtimerState

instance (T G : Nat) : ∀ e s, Decidable (OnTime T G e s)
  | .suspend .., _ => inferInstanceAs (Decidable (_ ∧ _))
  | .poll, s => inferInstanceAs (Decidable s.timers.Prompt)
  | .call, s => inferInstanceAs (Decidable s.timers.Prompt)
  | .arm _, s => inferInstanceAs (Decidable s.timers.Prompt)
  | .wakeUp _, _ | .awaiter .., _ | .children .., _ | .wake .., _ | .cancel _, _ | .resume, _ | .done, _ | .command, _
  | .fire, _ | .pass _, _ => isTrue trivial

end Isix.Co
