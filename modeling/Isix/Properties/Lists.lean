import Isix.Refine.System

/-!
# Isix.Properties.Lists

The lists of the kernel over whole runs: every task is linked where its state
says and nowhere else, the ready queue keeps its form, and the context switch
takes the best task.

Both need the boot code to leave the task it starts alone.  `isix_task_kill` and
`isix_task_suspend` do not look at the scheduler state, so `main` can take the
current task off the ready queue; `isix_start_scheduler` then runs it anyway.
-/

namespace Isix

open Function (update)
open Kernel Outcome

/-! ## list membership -/

section

variable (s : Kernel) (t : TaskId)

/-- `inode` of `t` is on the list of `l`, once, and on no other list. -/
def LinkedOn (l : Head) : Prop :=
  s.inode t = some l ∧ ∀ k, (s.listOf k).count t = if k = l then 1 else 0

def Unlinked : Prop := s.inode t = none ∧ ∀ k, (s.listOf k).count t = 0

/-- The one list the state of a task names. -/
def InPlace : Prop :=
  match (s.task t).state with
  | .ready | .running => LinkedOn s t (.prio (s.prioElem t))
  | .wtsem => ∃ x, (s.task t).obj = .sem x ∧ LinkedOn s t (.wait (.sem x))
  | .wtmtx => ∃ m, (s.task t).obj = .mtx m ∧ LinkedOn s t (.wait (.mtx m))
  | .wtcond => ∃ c, (s.task t).obj = .cond c ∧ LinkedOn s t (.wait (.cond c))
  | .wtevt => ∃ v, LinkedOn s t (.wait (.evt v))
  | .wtexit => ∃ u, LinkedOn s t (.wait (.exit u))
  | .zombie => LinkedOn s t (.wait .zombie)
  | .sleeping | .suspend | .exited | .created | .schedule => Unlinked s t

/-- The two links of every task, and the counter of the finished tasks. -/
structure ListsAgree : Prop where
  inode : ∀ t, InPlace s t
  inodeTime : ∀ t b, (s.waitLists b).count t = if (s.task t).inodeTime = some b then 1 else 0
  timed : ∀ t, (s.task t).inodeTime ≠ none → (s.task t).state = .sleeping ∨ (s.task t).state = .wtsem ∨
    (s.task t).state = .wtevt ∨ (s.task t).state = .wtcond
  deleted : s.numberOfTaskDeleted = (s.lists .zombie).length

end

/-- The panics of `isix_bug` that are about the state or the links of a task,
or about the ready queue. -/
def Panic.aboutTasks : Panic → Bool
  | .mutexCounterNotPositive | .invalidMtxLockCount | .mutexNotPositive => false
  | _ => true

theorem not_aboutTasks {p : Panic} (h : CountPanic p) : p.aboutTasks = false := by
  rcases h with rfl | rfl | rfl <;> rfl

section

variable [Config] {s : Kernel} {t : TaskId} {X : Set TaskId}

theorem Wired.linkedOn {l : Head} (h : Wired X s) (hi : s.inode t = some l) : LinkedOn s t l := by
  refine ⟨hi, fun k => ?_⟩
  rw [h.linked k t, hi]
  simp only [Option.some.injEq, eq_comm]

theorem Wired.unlinked (h : Wired X s) (hi : s.inode t = none) : Unlinked s t := by
  refine ⟨hi, fun k => ?_⟩
  rw [h.linked k t, hi]
  simp

/-- A waiting task is on the list `waitOf` finds. -/
theorem Wired.linkedOn_wait {w : WaitHead} (h : Wired X s) (hX : t ∉ X)
    (ha : (s.task t).state.active = false) (hw : waitOf (s.inode t) = some w) :
    LinkedOn s t (.wait w) := by
  refine h.linkedOn ?_
  rw [h.inode_of_waits hX ha, hw]
  rfl

theorem Wired.inPlace (h : Wired ∅ s) (t : TaskId) : InPlace s t := by
  have hX := Set.notMem_empty t
  have hw := h.waits hX
  have hfree : (s.task t).state.active = false → waitOf (s.inode t) = none → Unlinked s t := by
    intro ha hn
    refine h.unlinked ?_
    rw [h.inode_of_waits hX ha, hn]
    rfl
  unfold InPlace
  cases hst : (s.task t).state with
  | ready | running => exact h.linkedOn (h.inode_of_active hX (by rw [hst]; rfl))
  | wtsem =>
    obtain ⟨x, hwt, ho⟩ := hw.wtsem hst
    exact ⟨x, ho, h.linkedOn_wait hX (by rw [hst]; rfl) hwt⟩
  | wtmtx =>
    obtain ⟨m, hwt, ho⟩ := hw.wtmtx hst
    exact ⟨m, ho, h.linkedOn_wait hX (by rw [hst]; rfl) hwt⟩
  | wtcond =>
    obtain ⟨c, hwt, ho⟩ := hw.wtcond hst
    exact ⟨c, ho, h.linkedOn_wait hX (by rw [hst]; rfl) hwt⟩
  | wtevt =>
    obtain ⟨v, hwt⟩ := hw.wtevt hst
    exact ⟨v, h.linkedOn_wait hX (by rw [hst]; rfl) hwt⟩
  | wtexit =>
    obtain ⟨u, hwt⟩ := hw.wtexit hst
    exact ⟨u, h.linkedOn_wait hX (by rw [hst]; rfl) hwt⟩
  | zombie => exact h.linkedOn_wait hX (by rw [hst]; rfl) (hw.zombie hst)
  | sleeping | suspend | exited | created | schedule =>
    exact hfree (by rw [hst]; rfl) (hw.free (by rw [hst]; rfl))

theorem Good.listsAgree (h : Good s) : ListsAgree s := by
  refine ⟨h.wired.inPlace, fun t b => h.core.time.linked b t, fun t ht => ?_, h.core.list.zombies⟩
  have := h.core.time.timed t ht
  cases hst : (s.task t).state <;> simp_all [ThrState.timed]

/-- **List membership**: in every run whose boot code leaves the first task
alone, each task is linked on exactly the list its state names, and no event
runs into an `isix_bug` about the state of a task. -/
theorem lists_agree (h : Reachable BootOk s) :
    ListsAgree s ∧ ∀ e p, enabled s e = true → BootOk e s → Isix.step e s = .error p →
      p.aboutTasks = false := by
  have hinv := h.inv fun _ _ => id
  refine ⟨hinv.good.listsAgree, fun e p he hb hs => ?_⟩
  exact not_aboutTasks ((step_does hinv he hb).of_error hs)

end

/-- A task waits for a semaphore, with a timeout, while the idle task runs. -/
theorem lists_agree_waiting : ∃ (_ : Config) (s : Kernel), Reachable BootOk s ∧
    (s.task 1).state = .wtsem ∧ (s.task 1).inodeTime = some false ∧ ListsAgree s := by
  let _ := smallConfig
  obtain ⟨s, hr, hs, hi⟩ := exists_reachable (C := BootOk)
    [.boot (.taskCreate 1 false false), .boot (.semCreate 0 0), .start,
      .call (.semWait (some 0) 5 0), .schedule]
    (P := fun s => (s.task 1).state = .wtsem ∧ (s.task 1).inodeTime = some false) (by decide +kernel)
  exact ⟨smallConfig, s, hr, hs, hi, (lists_agree hr).1⟩

/-- `main` suspends the task it is about to start: the task is RUNNING, on no
list, and the first context switch stops the system. -/
theorem start_of_suspended_task : ∃ (_ : Config) (s : Kernel), Reachable (fun _ _ => True) s ∧
    ¬ListsAgree s ∧ enabled s .schedule = true ∧ Isix.step .schedule s = .error .runningNotLinked := by
  let _ := smallConfig
  obtain ⟨s, hr, hs, hi, he, hp⟩ := exists_reachable (C := fun _ _ => True)
    [.boot (.taskCreate 1 false false), .boot (.taskSuspend (some 1)), .start]
    (P := fun s => (s.task 1).state = .running ∧ s.inode 1 = none ∧ enabled s .schedule = true ∧
      (match Isix.step .schedule s with | .error .runningNotLinked => true | _ => false) = true)
    (by decide +kernel)
  refine ⟨smallConfig, s, hr, fun hl => ?_, he, ?_⟩
  · have hin := hl.inode 1
    rw [InPlace, hs] at hin
    have hlink : s.inode 1 = some (.prio (s.prioElem 1)) := hin.1
    rw [hi] at hlink
    cases hlink
  · split at hp
    · assumption
    · cases hp

/-! ## the ready queue -/

/-- The queue is rotated inside its elements only. -/
theorem rotated_active {s : Kernel} :
    s.rotated.active = s.ready.active ∧ s.rotated.prio = s.ready.prio := by
  unfold Kernel.rotated
  split <;> exact ⟨rfl, rfl⟩

section

variable [Config] {s s' : Kernel} {t : TaskId}

/-- The two levels of the ready queue: `active` is `ready_list`, `items` the
`task_list` of an element. -/
structure ReadyQueue (s : Kernel) : Prop where
  sorted : s.ready.active.Pairwise fun a b => s.ready.prio a < s.ready.prio b
  nonempty : ∀ e ∈ s.ready.active, s.ready.items e ≠ []
  member : ∀ e ∈ s.ready.active, ∀ t ∈ s.ready.items e,
    (s.task t).prio = s.ready.prio e ∧ s.prioElem t = e
  pool : (s.ready.active ++ s.ready.free).Perm (List.range (Config.numberOfPriorities + 1))

theorem Wired.readyQueue (h : Wired ∅ s) : ReadyQueue s := by
  refine { h.queue with member := fun e _ t ht => ⟨h.keyed t e ht, ?_⟩ }
  have hpl := h.placed t (Set.notMem_empty _)
  rw [h.mem_items.mp ht] at hpl
  exact hpl.2.symm

/-- The tasks of one priority when the current task, if it is RUNNING, has gone
behind them. -/
def turn (s : Kernel) (l : List TaskId) : List TaskId :=
  if (s.task s.currp).state = .running ∧ s.currp ∈ l then l.erase s.currp ++ [s.currp] else l

/-- What `_isixp_schedule` selects: the first of the best tasks, in turn. -/
structure Selects (s s' : Kernel) : Prop where
  active : (s.task s'.currp).state.active
  running : (s'.task s'.currp).state = .running
  best : ∀ u, (s.task u).state.active → (s.task s'.currp).prio ≤ (s.task u).prio
  order : ∀ p, s'.ready.bucket p = turn s (s.ready.bucket p)
  first : (turn s (s.ready.bucket (s.task s'.currp).prio)).head? = some s'.currp

theorem bucket_rotated (h : Good s) (p : Nat) : s.rotated.bucket p = turn s (s.ready.bucket p) := by
  unfold Kernel.rotated turn
  by_cases hs : (s.task s.currp).state = .running
  · have hi := h.wired.inode_of_active (Set.notMem_empty s.currp) (by rw [hs]; rfl)
    have hmem := h.wired.mem_items.mpr hi
    have hprio := h.wired.keyed _ _ hmem
    have hact := h.wired.queue.mem_active hmem
    rw [if_pos hs, Buckets.bucket_rotate h.wired.queue hmem]
    by_cases hp : p = s.ready.prio (s.prioElem s.currp)
    · have hcur : s.currp ∈ s.ready.bucket p := by
        rw [hp, Buckets.bucket_of_mem h.wired.queue hact]
        exact hmem
      rw [if_pos hp, if_pos ⟨hs, hcur⟩]
    · rw [if_neg hp, if_neg]
      rintro ⟨-, hc⟩
      obtain ⟨e, he, rfl, hce⟩ := Buckets.mem_bucket hc
      rw [(h.wired.readyQueue.member e he _ hce).2] at hp
      exact hp rfl
  · rw [if_neg hs, if_neg fun hc => hs hc.1]

theorem isixpSchedule_selects (h : Good s) (hrun : s.schrun = true) (hlock : s.schedLock.value = 0) :
    Holds (fun _ => False) (isixpSchedule s) (Selects s) := by
  unfold isixpSchedule
  rw [if_neg (not_not.mpr hlock)]
  refine (schedule_spec h hrun).mono fun s' hs' => ?_
  obtain ⟨hw, hr, e, es, t, l, ha, hl, hc, hg⟩ := hs'
  have hcur : s'.currp = t := by
    rw [hc]
    rfl
  have htask : (s'.task t).prio = (s.task t).prio := by
    rw [hc]
    simp only [Act.apply, Core.withTask_self]
    exact Core.forall_withTask (P := fun u y => y.prio = (s.task u).prio) rfl (fun _ _ => rfl) t
  have hmem : t ∈ s'.ready.items e := by
    rw [hr, hl]
    exact List.mem_cons_self
  have hprio : (s.task t).prio = s.ready.prio e := by
    rw [← htask, hw.keyed t e hmem, hr, rotated_active.2]
  have hfirst : (s.rotated.bucket (s.task t).prio).head? = some t := by
    have he : e ∈ s'.ready.active := hw.queue.mem_active hmem
    have hb := Buckets.bucket_of_mem hw.queue he
    rw [hr, rotated_active.2, ← hprio, hl] at hb
    rw [hb]
    rfl
  refine ⟨?_, ?_, fun u hu => ?_, fun p => ?_, ?_⟩
  · rw [hcur]
    exact hg.1
  · rw [hcur, hc]
    simp only [Act.apply, Core.withTask_self]
  · rw [hcur, hprio]
    have humem := h.wired.mem_items.mpr (h.wired.inode_of_active (Set.notMem_empty u) hu)
    rw [h.wired.keyed u _ humem]
    exact h.wired.queue.prio_head_le (rotated_active.1 ▸ ha) (h.wired.queue.mem_active humem)
  · rw [hr]
    exact bucket_rotated h p
  · rw [hcur, ← bucket_rotated h]
    exact hfirst

/-- **Ready queue**: in every run whose boot code leaves the first task alone
the ready queue keeps its form, the pool of elements is enough, and a context
switch with the scheduler unlocked takes the best task, in turn. -/
theorem ready_queue_in_order (h : Reachable BootOk s) :
    ReadyQueue s ∧
      (∀ e, enabled s e = true → BootOk e s → Isix.step e s ≠ .error .priorityListNotAvailable ∧
        Isix.step e s ≠ .error .priorityMismatch) ∧
      (enabled s .schedule = true → s.schedLock.value = 0 →
        ∃ s', Isix.step .schedule s = .ok (s', .done) ∧ Selects s s') := by
  have hinv := h.inv fun _ _ => id
  refine ⟨hinv.good.wired.readyQueue, fun e he hb => ⟨fun hs => ?_, fun hs => ?_⟩, fun he hlock => ?_⟩
  · cases not_aboutTasks ((step_does hinv he hb).of_error hs)
  · cases not_aboutTasks ((step_does hinv he hb).of_error hs)
  · have hgood : Good { s with pendsv := false } :=
      ⟨hinv.good.wired.congr rfl rfl rfl rfl (Nat.le_refl _) (fun _ _ _ => rfl) fun _ _ hp => hp,
        hinv.good.core.congr rfl rfl rfl rfl rfl rfl rfl rfl rfl rfl rfl fun w hw => by cases w <;> exact hw⟩
    have hsel := isixpSchedule_selects hgood he hlock
    simp only [Isix.step]
    cases hm : isixpSchedule { s with pendsv := false } with
    | error p =>
      rw [hm] at hsel
      exact hsel.elim
    | ok s' =>
      rw [hm] at hsel
      exact ⟨s', rfl, hsel.active, hsel.running, hsel.best, hsel.order, hsel.first⟩

end

/-- Two tasks of one priority: the RUNNING one goes behind its peer. -/
theorem ready_queue_in_turn : ∃ (_ : Config) (s s' : Kernel), Reachable BootOk s ∧ ReadyQueue s ∧
    s.currp = 1 ∧ s.ready.bucket 1 = [1, 2] ∧ Isix.step .schedule s = .ok (s', .done) ∧ Selects s s' := by
  let _ := smallConfig
  obtain ⟨s, hr, hc, hb, he, hl⟩ := exists_reachable (C := BootOk)
    [.boot (.taskCreate 1 false false), .boot (.taskCreate 1 false false), .start, .yield]
    (P := fun s => s.currp = 1 ∧ s.ready.bucket 1 = [1, 2] ∧ enabled s .schedule = true ∧
      s.schedLock.value = 0) (by decide +kernel)
  obtain ⟨hq, -, hsel⟩ := ready_queue_in_order hr
  obtain ⟨s', hs, hs'⟩ := hsel he hl
  exact ⟨smallConfig, s, s', hr, hq, hc, hb, hs, hs'⟩

/-- The context switch goes through and ends in `P`. -/
def switchesTo [Config] (s : Kernel) (P : Kernel → Bool) : Bool :=
  match Isix.step .schedule s with
  | .ok (s', .done) => P s'
  | _ => false

theorem exists_of_switchesTo [Config] {s : Kernel} {P : Kernel → Bool} (h : switchesTo s P = true) :
    ∃ s', Isix.step .schedule s = .ok (s', .done) ∧ P s' = true := by
  unfold switchesTo at h
  split at h
  next s' hs => exact ⟨s', hs, h⟩
  · cases h

/-- `main` kills the task it is about to start: the context switch puts it on
an element that is back in the pool, and the idle task gets the CPU although a
better task is READY. -/
theorem start_of_killed_task : ∃ (_ : Config) (s s' : Kernel), Reachable (fun _ _ => True) s ∧
    s.schedLock.value = 0 ∧ enabled s .schedule = true ∧ Isix.step .schedule s = .ok (s', .done) ∧
      s'.currp = idle ∧ (s'.task 1).state = .ready ∧ (s'.task 1).prio < (s'.task idle).prio ∧
      ¬Selects s s' := by
  let _ := smallConfig
  obtain ⟨s, hr, hl, he, hrun, hp⟩ := exists_reachable (C := fun _ _ => True)
    [.boot (.taskCreate 1 false false), .boot (.taskKill (some 1)), .start]
    (P := fun s => s.schedLock.value = 0 ∧ enabled s .schedule = true ∧ (s.task 1).state = .running ∧
      switchesTo s (fun s' => decide (s'.currp = idle ∧ (s'.task 1).state = .ready ∧
        (s'.task 1).prio < (s'.task idle).prio ∧ (s.task 1).prio < (s.task idle).prio)) = true) (by decide +kernel)
  obtain ⟨s', hs, hp⟩ := exists_of_switchesTo hp
  obtain ⟨hc, h1, hlt, hlt'⟩ := of_decide_eq_true hp
  refine ⟨smallConfig, s, s', hr, hl, he, hs, hc, h1, hlt, fun hsel => ?_⟩
  have hbest := hsel.best 1 (by rw [hrun]; rfl)
  rw [hc] at hbest
  omega

end Isix
