import Isix.Refine.Mutex

/-!
# Isix.Refine.Task

The services of `Isix.Task` as paths of actions: creation, change of priority,
kill, suspend and resume, and the reclaiming of finished tasks.
-/

namespace Isix

open Function (update)
open Kernel Outcome

variable {s s' : Kernel} {t : TaskId}

theorem Act.detach_self {c : Core} {w : Option WaitHead} :
    ((Act.detach t w).apply c).task t = { c.task t with inodeTime := none } := by
  exact Core.untime_self

theorem Act.detach_of_ne {c : Core} {w : Option WaitHead} {u : TaskId} (hu : u ≠ t) :
    ((Act.detach t w).apply c).task u = c.task u := by
  show (c.untime t).task u = _
  simp [Core.untime, Core.withTask, hu]

namespace Act

variable {c : Core} {suspend : Bool} {u : TaskId}

theorem park_of_ne (hu : u ≠ t) : ((Act.park t suspend).apply c).task u = c.task u := by
  cases suspend <;> simp [apply, Core.withTask, Core.enqueue, hu]

theorem park_ntask : ((Act.park t suspend).apply c).ntask = c.ntask := by
  cases suspend <;> rfl

theorem park_currp : ((Act.park t suspend).apply c).currp = c.currp := by
  cases suspend <;> rfl

end Act

theorem dead_eq_false {st : ThrState} (h : ¬(st = .zombie ∨ st = .exited)) : st.dead = false := by
  cases st <;> simp_all [ThrState.dead]

/-- The task is on no timeout list then. -/
theorem timeDeleteIfAssigned_task : (s.timeDeleteIfAssigned t).task t = { s.task t with inodeTime := none } := by
  rw [toCore_timeDeleteIfAssigned, Core.untime_self]

theorem timeDeleteIfAssigned_state : ((s.timeDeleteIfAssigned t).task t).state = (s.task t).state := by
  rw [timeDeleteIfAssigned_task]

/-- Without a semaphore nothing is given back. -/
theorem giveBack_untimed (hne : (s.task t).state ≠ .wtsem) : (s.toCore.untime t).giveBack t = s.toCore.untime t :=
  Core.giveBack_of_ne (by rw [Core.untime_self]; exact hne)

theorem toCore_unlink_untimed {w : WaitHead} (hne : (s.task t).state ≠ .wtsem) :
    ((s.timeDeleteIfAssigned t).unlink t (.wait w)).toCore = (Act.detach t (some w)).apply s.toCore := by
  show (s.timeDeleteIfAssigned t).toCore.dequeue t w = ((s.toCore.untime t).giveBack t).dequeue t w
  rw [toCore_timeDeleteIfAssigned, giveBack_untimed hne]

variable [Config] {E : Panic → Prop} {A : Act → Core → Prop}

/-! ## a task on no list is made ready -/

theorem Wired.loosen {X : Set TaskId} (h : Wired X s) (hi : s.inode t = none) :
    Wired (insert t X) s := by
  refine h.mono (Set.subset_insert t X) ?_
  rintro u (rfl | hu)
  · exact hi
  · exact h.loose u hu

theorem wakeupTask_leads (h : Good s) (hlt : t < s.ntask)
    (hs : (s.task t).state = .created ∨ (s.task t).state = .suspend)
    (hA : A (.wake t none isixEok) s.toCore) :
    Holds E (wakeupTask t isixEok s) fun s' => Does A s s' ∧ Woken s' t := by
  have hfree : (s.task t).state.free ∧ (s.task t).state.active = false ∧ (s.task t).state.asleep ∧
      (s.task t).state ≠ .ready ∧ (s.task t).state ≠ .zombie := by
    rcases hs with hs | hs <;> rw [hs] <;> decide
  have hw := (h.wired.waits (Set.notMem_empty t)).free hfree.1
  have hi : s.inode t = none := by
    rw [h.wired.inode_of_waits (Set.notMem_empty t) hfree.2.1, hw]
    rfl
  have hsit := h.wired.sits (Set.notMem_empty t) hlt
  rw [hw] at hsit
  have hg : (Act.wake t none isixEok).guard s.toCore := ⟨hsit, hfree.2.2.1, rfl, hs⟩
  refine (wakeupTask_spec (h.wired.loosen hi) (Set.notMem_empty t) hlt (h.core.task.prio_le t)
    hfree.2.2.2.1 hfree.2.2.2.2).mono fun s' hs' => ?_
  obtain ⟨hw', hc⟩ := hs'
  refine ⟨.act hw' (h.core.wake hg) hc hA hg, ?_, ?_⟩
  · rw [hc]
    simp [Core.makeReady]
  · rw [hc]
    exact hlt

theorem isixpWakeupTask_does (hQ : Quiet A) (h : Good s) (hlt : t < s.ntask)
    (hs : (s.task t).state = .created ∨ (s.task t).state = .suspend)
    (hA : A (.wake t none isixEok) s.toCore) :
    Holds E (isixpWakeupTask t isixEok s) (Does A s) := by
  refine (wakeupTask_leads h hlt hs hA).bind fun s₁ hs₁ => ?_
  exact hs₁.1.trans (isixpDoReschedule_does hQ hs₁.1.ok (.inl hs₁.2.1) hs₁.2.2)

variable {task : Option TaskId}

theorem isixTaskResume_does (hQ : Quiet A)
    (hA : ∀ t c, task = some t → A (.wake t none isixEok) c) (h : Good s)
    (ht : ∀ t, task = some t → t < s.ntask) :
    Holds E (isixTaskResume task s) fun r => Does A s r.1 := by
  unfold isixTaskResume
  cases task with
  | none => exact Leads.refl h
  | some t =>
    simp only
    split
    · exact Leads.refl h
    · split
      · rename_i hs
        exact (isixpWakeupTask_does hQ h (ht t rfl) (.inr hs) (hA t _ rfl)).bind fun s₁ h₁ => h₁
      · exact Leads.refl h

/-! ## creation and priority -/

theorem allocTask_does {priority : Nat} {suspended ref : Bool} (h : Good s)
    (hp : priority ≤ Config.numberOfPriorities) (hA : ∀ y c, A (.newTask y) c) :
    Does A s (allocTask priority suspended ref s) := by
  have hnone : s.inode s.ntask = none := by
    by_contra hne
    exact Nat.lt_irrefl _ (h.wired.bound s.ntask hne)
  have hg : (Act.newTask (taskBlock priority suspended ref)).guard s.toCore := by
    refine ⟨hp, hp, ?_, rfl, rfl, h.wired.not_mem_of_loose hnone, ?_, rfl⟩
    all_goals cases suspended <;> simp [taskBlock, ThrState.asleep]
  refine .act ?_ (h.core.newTask hg) rfl (hA _ _) hg
  refine h.wired.congr rfl ?_ rfl ?_ (Nat.le_succ _) ?_ ?_
  · show update s.inode s.ntask none = s.inode
    rw [← hnone]
    exact Function.update_eq_self _ _
  · exact h.core.list.reset (Nat.lt_irrefl _)
  · intro u e hi
    have hne : u ≠ s.ntask := by
      rintro rfl
      rw [hnone] at hi
      cases hi
    simp [allocTask, hne]
  · intro u _ hpl
    by_cases hne : u = s.ntask
    · subst hne
      rw [hnone]
      cases suspended <;> simp [allocTask, taskBlock, Placed, Waits, ThrState.active]
    · simpa [allocTask, hne] using hpl

theorem isixTaskCreate_does {priority : Nat} {suspended ref : Bool} (hQ : Quiet A)
    (hA : ∀ y c, A (.newTask y) c) (hW : ∀ c, A (.wake s.ntask none isixEok) c) (h : Good s) :
    Holds E (isixTaskCreate priority suspended ref s) fun r => Does A s r.1 := by
  unfold isixTaskCreate
  split
  · exact Leads.refl h
  · rename_i hprio
    have hp : priority ≤ Config.numberOfPriorities := by
      omega
    have h₁ : Does A s (allocTask priority suspended ref s) := allocTask_does h hp hA
    split
    · exact h₁
    · rename_i hs
      have hstate : ((allocTask priority suspended ref s).task s.ntask).state = .created := by
        simp [allocTask, taskBlock, hs]
      exact (isixpWakeupTask_does hQ h₁.ok (Nat.lt_succ_self _) (.inl hstate) (hW _)).bind
        fun s₂ h₂ => h₁.trans h₂

theorem Does.realPrio {p : Nat} (h : Good s) (hlt : t < s.ntask) (hp : p ≤ Config.numberOfPriorities)
    (hA : A (.realPrio t p) s.toCore) : Does A s (s.withTask t fun x => { x with realPrio := p }) := by
  have hg : (Act.realPrio t p).guard s.toCore := ⟨hlt, hp⟩
  exact .act (h.wired.write_quiet rfl rfl rfl) (h.core.realPrio hg) rfl hA hg

theorem isixTaskChangePrio_does {newPrio : Nat} (hQ : Quiet A)
    (hA : ∀ c, A (.realPrio (task.getD s.currp) newPrio) c)
    (hR : ∀ c, A (.reprio (task.getD s.currp) newPrio) c) (h : Good s)
    (hlt : task.getD s.currp < s.ntask) :
    Holds E (isixTaskChangePrio task newPrio s) fun r => Does A s r.1 := by
  unfold isixTaskChangePrio
  split
  · exact Leads.refl h
  · split
    · exact Leads.refl h
    · rename_i hprio
      have hp : newPrio ≤ Config.numberOfPriorities := by omega
      simp only
      split
      · exact Leads.refl h
      · have h₁ := Does.realPrio h hlt hp (hA _)
        split
        · refine (isixpReallocatePriority_leads h₁.ok (Set.notMem_empty _) hlt hp (by simp)
            (hR _)).bind fun s₂ hs₂ => ?_
          have h₂ := h₁.trans hs₂.1
          exact h₂.trans (Does.pend hQ h₂.ok)
        · exact h₁

theorem Does.refcnt {n : Nat} (h : Good s) (hlt : t < s.ntask) (hA : A (.refcnt t n) s.toCore) :
    Does A s (s.withTask t fun x => { x with refcnt := n }) := by
  have hc := h.core.withTask_quiet (g := fun x => { x with refcnt := n }) hlt rfl rfl rfl rfl rfl rfl
  exact .act (a := .refcnt t n) (h.wired.write_quiet rfl rfl rfl) hc rfl hA hlt

theorem isixTaskRef_does (hA : ∀ n c, A (.refcnt (task.getD s.currp) n) c)
    (h : Good s) (hlt : task.getD s.currp < s.ntask) : Holds E (isixTaskRef task s) fun r => Does A s r.1 := by
  unfold isixTaskRef
  simp only
  split
  · exact Leads.refl h
  · exact Does.refcnt h hlt (hA _ _)

theorem isixTaskUnref_does (hA : ∀ n c, A (.refcnt (task.getD s.currp) n) c)
    (h : Good s) (hlt : task.getD s.currp < s.ntask) : Holds E (isixTaskUnref task s) fun r => Does A s r.1 := by
  unfold isixTaskUnref
  simp only
  split
  · exact Leads.refl h
  · exact Does.refcnt h hlt (hA _ _)

/-! ## waiting for a task and sleeping -/

theorem waitForBody_replies (hQ : Quiet A) (hK : A (.sleep (.exit t)) s.toCore) (h : Good s)
    (hcall : Caller s) (hlt : t < s.ntask) (hne : t ≠ s.currp) :
    Holds E (waitForBody t s) (Replies A s) := by
  unfold waitForBody
  split
  · exact .of_does (.refl h)
  · split
    · exact .of_does (.refl h)
    · have hs := sleep_spec (E := E) (.exit t) rfl
        (f := fun y => { y with waitAborted := false })
        (g := fun y => { y with frame := .taskWaitFor t }) h hcall.active (fun _ => rfl)
        (fun _ => ⟨rfl, rfl⟩) (fun _ => ⟨rfl, rfl⟩) fun _ _ _ => rfl
      rw [show (Sleep.exit t).timeout = timeInfinite from rfl, isixpSetSleepTimeout_infinite] at hs
      refine hs.bind fun s₁ hs₁ => .blocked fun hrun => ?_
      obtain ⟨hw, hc⟩ := hs₁ _ (.inr ⟨rfl, rfl⟩)
      have h₁ := Does.sleep h hcall hrun hK ⟨hlt, hne⟩ hw hc
      exact h₁.trans (isixYield_does hQ h₁.ok)

theorem isixTaskWaitFor_replies (hQ : Quiet A)
    (hK : ∀ t c, task = some t → A (.sleep (.exit t)) c) (h : Good s) (hcall : Caller s)
    (hlt : ∀ t, task = some t → t < s.ntask) :
    Holds E (isixTaskWaitFor task s) (Replies A s) := by
  unfold isixTaskWaitFor
  cases task with
  | none => exact .of_does (.refl h)
  | some t =>
    simp only
    split
    · exact .of_does (.refl h)
    · rename_i hne
      exact waitForBody_replies hQ (hK t _ rfl) h hcall (hlt t rfl) hne

theorem isixWait_replies {timeout : Nat} (hQ : Quiet A) (hK : A (.sleep (.time timeout)) s.toCore)
    (h : Good s) (hcall : Caller s) (ht : timeout < tickMod) :
    Holds E (isixWait timeout s) (Replies A s) := by
  unfold isixWait
  split
  swap
  · exact .of_does (.refl h)
  refine (isixpSetSleepTimeout_spec h.wired hcall.active).bind fun s₁ hs₁ => .blocked fun hrun => ?_
  obtain ⟨hw, hc⟩ := hs₁
  have hcur : s₁.currp = s.currp := by
    rw [hc]
    unfold Core.addTime?
    split <;> rfl
  have hcore : (s₁.withTask s₁.currp fun x => { x with frame := .wait }).toCore =
      (Act.sleep (.time timeout)).apply s.toCore := by
    rw [hcur, Kernel.toCore_withTask, hc, Core.addTime?_withTask rfl fun _ _ => rfl,
      Core.withTask_withTask]
    rfl
  have hstate : ((s₁.withTask s₁.currp fun x => { x with frame := .wait }).task s.currp).state =
      .sleeping := by
    obtain ⟨j, b, hjb⟩ := Core.addTime?_self
    rw [hcore]
    show ((Core.addTime? _ _ (Core.withTask _ _ _)).task s.currp).state = _
    exact (congrArg Task.state hjb).trans (by simp [Sleep.write, Sleep.state])
  have hw₁ : Wired ∅ (s₁.withTask s₁.currp fun x => { x with frame := .wait }) := by
    rw [hcur] at hstate ⊢
    refine (hw.write (.inl rfl)).settle (by rw [hstate]; rfl) ?_
    unfold Waits
    rw [hstate]
    simp
  have h₁ := Does.sleep h hcall hrun hK ht hw₁ hcore
  exact h₁.trans (Does.pend hQ h₁.ok)

/-! ## kill and suspend -/

/-- What `_isixp_add_kill_or_set_suspend` finds when the task left its lists:
`c` is the core before the flag of an aborted wait is set. -/
structure Detached (A : Act → Core → Prop) (t : TaskId) (suspend : Bool) (s s' : Kernel) (c : Core) :
    Prop where
  path : Path A s.toCore c
  core : CoreInv none c
  wired : Wired (insert t ∅) s'
  eq : s'.toCore = c.withTask t (abortWait suspend)
  dead : (c.task t).state.dead = false
  time : (c.task t).inodeTime = none
  owned : (c.task t).ownedMutexes = (s.task t).ownedMutexes
  woken : ∀ u, u ≠ t → (s.task u).state = .ready → (c.task u).state = .ready
  currp : c.currp = s.currp
  schrun : c.schrun = s.schrun
  ntask : c.ntask = s.ntask

/-- The task left its lists and nothing else happened. -/
theorem Detached.of_detach {suspend : Bool} {w : Option WaitHead} (h : Good s)
    (hD : ∀ w c, A (.detach t w) c) (hg : (Act.detach t w).guard s.toCore)
    (hw : Wired (insert t ∅) s')
    (he : s'.toCore = ((Act.detach t w).apply s.toCore).withTask t (abortWait suspend)) :
    Detached A t suspend s s' ((Act.detach t w).apply s.toCore) := by
  refine ⟨.single _ (hD _ _) hg, h.core.detach hg, hw, he, ?_, ?_, ?_, ?_, rfl, rfl, rfl⟩
  · rw [Act.detach_self]
    exact hg.2.1
  · rw [Act.detach_self]
  · rw [Act.detach_self]
  · intro u hu hs
    rw [Act.detach_of_ne hu]
    exact hs

theorem listDelete_untimed {w : WaitHead} (h : Good s) (hw : Wired.waitOf (s.inode t) = some w) :
    (s.timeDeleteIfAssigned t).listDelete t = .ok ((s.timeDeleteIfAssigned t).unlink t (.wait w)) ∧
      Wired (insert t ∅) ((s.timeDeleteIfAssigned t).unlink t (.wait w)) := by
  have hwired := h.wired.timeDeleteIfAssigned (t := t)
  have hmem : t ∈ (s.timeDeleteIfAssigned t).lists w := by
    rw [toCore_timeDeleteIfAssigned]
    exact h.wired.mem_of_waitOf hw
  exact ⟨hwired.listDelete_of_mem hmem, hwired.unlinkWait (hwired.mem_lists.mp hmem)⟩

section

variable {suspend : Bool} (hD : ∀ w c, A (.detach t w) c) (h : Good s)
  (hg : (Act.detach t (Wired.waitOf (s.inode t))).guard s.toCore)

include hD h hg

/-- The semaphore counts first, then the task leaves the list. -/
theorem leaveQueue_wtsem (hst : (s.task t).state = .wtsem) :
    Holds E (leaveQueue t suspend (s.timeDeleteIfAssigned t)) fun s' => ∃ c, Detached A t suspend s s' c := by
  obtain ⟨i, hww, ho⟩ := (h.wired.waits (Set.notMem_empty t)).wtsem hst
  rw [hww] at hg
  let s₁ : Kernel := { s.timeDeleteIfAssigned t with
    sem := update (s.timeDeleteIfAssigned t).sem i ((s.timeDeleteIfAssigned t).sem i).inc }
  have hw₁ : Wired ∅ s₁ :=
    h.wired.timeDeleteIfAssigned.congr rfl rfl rfl rfl le_rfl (fun _ _ _ => rfl) fun _ _ hp => hp
  have hmem : t ∈ s₁.lists (.sem i) := by
    show t ∈ (s.timeDeleteIfAssigned t).lists (.sem i)
    rw [toCore_timeDeleteIfAssigned]
    exact h.wired.mem_of_waitOf hww
  have hc₁ : s₁.toCore = (s.toCore.untime t).giveBack t := by
    rw [Core.giveBack_sem (by rw [Core.untime_self]; exact hst) (by rw [Core.untime_self]; exact ho),
      ← toCore_timeDeleteIfAssigned]
    rfl
  have hsem : semFastSignal t (s.timeDeleteIfAssigned t) = .ok s₁ := by
    unfold semFastSignal
    rw [timeDeleteIfAssigned_task, ho]
  have hc₂ : (s₁.unlink t (.wait (.sem i))).toCore = (Act.detach t (some (.sem i))).apply s.toCore := by
    show s₁.toCore.dequeue t (.sem i) = ((s.toCore.untime t).giveBack t).dequeue t (.sem i)
    rw [hc₁]
  unfold leaveQueue
  simp only [timeDeleteIfAssigned_state, hst, hsem, ok_bind, hw₁.listDelete_of_mem hmem]
  refine ⟨_, .of_detach h hD hg ((hw₁.unlinkWait (hw₁.mem_lists.mp hmem)).write (.inl rfl)) ?_⟩
  rw [Kernel.toCore_withTask, hc₂]
  exact Core.withTask_congr (by rw [Act.detach_self]; simp [abortWait, hst])

/-- The owner of the mutex may get a lower priority when the task has left the list. -/
theorem leaveQueue_wtmtx (hR : ∀ u p c, A (.reprio u p) c) (hst : (s.task t).state = .wtmtx) :
    Holds E (leaveQueue t suspend (s.timeDeleteIfAssigned t)) fun s' => ∃ c, Detached A t suspend s s' c := by
  obtain ⟨m, hww, ho⟩ := (h.wired.waits (Set.notMem_empty t)).wtmtx hst
  rw [hww] at hg
  obtain ⟨hdel, hw₁⟩ := listDelete_untimed h hww
  have hc₁ := toCore_unlink_untimed (w := .mtx m) (show (s.task t).state ≠ .wtsem by simp [hst])
  have h₁ : Ok (insert t ∅) none ((s.timeDeleteIfAssigned t).unlink t (.wait (.mtx m))) :=
    ⟨hw₁, by rw [hc₁]; exact h.core.detach hg⟩
  have hmtx : ((s.timeDeleteIfAssigned t).unlink t (.wait (.mtx m))).mutex = s.mutex := by
    rw [hc₁]
    rfl
  have hne : ∀ o, (s.mutex m).owner = some o → o ≠ t := fun o hown hot =>
    h.core.mutex.waiter_ne m (by simp) t (h.wired.mem_of_waitOf hww) (hot ▸ hown)
  unfold leaveQueue
  simp only [timeDeleteIfAssigned_task, hst, ho, hdel, ok_bind]
  refine (isixpMutexWaiterRemoved_leads h₁ (fun o hown => ?_) hR).bind fun s₃ ⟨hl, o, hrep, hor⟩ => ?_
  · rw [hmtx] at hown
    simpa using hne o hown
  · have h₃ : s₃.task t = { s.task t with inodeTime := none } := by
      rw [← Act.detach_self (w := some (.mtx m)), ← hc₁]
      rcases hor with hown | rfl
      · exact hrep.other t (hne o (by rw [← hmtx]; exact hown)).symm
      · rfl
    refine ⟨s₃.toCore, (Path.single _ (hD _ _) hg).trans (hc₁ ▸ hl.path), hl.ok.core, hl.ok.wired.write (.inl rfl),
      ?_, ?_, ?_, ?_, ?_, ?_, ?_, ?_⟩
    · rw [Kernel.toCore_withTask]
      exact Core.withTask_congr (by rw [h₃]; simp [abortWait, hst])
    · rw [h₃]
      exact hg.2.1
    · rw [h₃]
    · rw [h₃]
    · intro u hu hs
      have hu₁ : (((s.timeDeleteIfAssigned t).unlink t (.wait (.mtx m))).task u).state = .ready := by
        rw [hc₁, Act.detach_of_ne hu]
        exact hs
      rcases hrep.state u with he | he
      · rw [he]
        exact hu₁
      · exact he.2
    · rw [hrep.currp, hc₁]
      rfl
    · rw [hrep.schrun, hc₁]
      rfl
    · rw [hrep.ntask, hc₁]
      rfl

end

theorem leaveQueue_spec {suspend : Bool} (hD : ∀ w c, A (.detach t w) c)
    (hR : ∀ u p c, A (.reprio u p) c) (h : Good s) (hlt : t < s.ntask)
    (hd : (s.task t).state.dead = false) (hidle : t ≠ idle) (hboot : s.schrun = false → t ≠ s.currp) :
    Holds E (leaveQueue t suspend (s.timeDeleteIfAssigned t)) fun s' => ∃ c, Detached A t suspend s s' c := by
  have hw := h.wired.timeDeleteIfAssigned (t := t)
  have hwaits := h.wired.waits (Set.notMem_empty t)
  have hg : (Act.detach t (Wired.waitOf (s.inode t))).guard s.toCore :=
    ⟨h.wired.sits (Set.notMem_empty t) hlt, hd, hidle, hboot⟩
  -- what is left of the task in the core
  have hself : ∀ w, ((Act.detach t w).apply s.toCore).task t = { s.task t with inodeTime := none } :=
    fun w => Act.detach_self
  -- a wait that can be aborted
  have hflag : ∀ w, Wired.waitOf (s.inode t) = some w → (s.task t).state = .wtevt ∨ (s.task t).state = .wtexit →
      Holds E (leaveQueue t suspend (s.timeDeleteIfAssigned t)) fun s' => ∃ c, Detached A t suspend s s' c := by
    intro w hww hst
    rw [hww] at hg
    obtain ⟨hdel, hw₁⟩ := listDelete_untimed h hww
    unfold leaveQueue
    rcases hst with hst | hst <;>
    · simp only [timeDeleteIfAssigned_state, hst, hdel, ok_bind]
      refine ⟨_, .of_detach h hD hg (hw₁.write (.inl rfl)) ?_⟩
      rw [Kernel.toCore_withTask, toCore_unlink_untimed (by rw [hst]; simp)]
      exact Core.withTask_congr (by rw [hself]; simp [abortWait, hst])
  cases hst : (s.task t).state with
  | ready | running =>
    have hww := hwaits.free (by rw [hst]; rfl)
    rw [hww] at hg
    simp only [leaveQueue, timeDeleteIfAssigned_state, hst]
    refine (hw.deleteFromReadyList_spec (hw.inode_of_active (Set.notMem_empty t)
      (by rw [timeDeleteIfAssigned_state, hst]; rfl))).mono fun s' hs' => ⟨_, .of_detach h hD hg hs'.1 ?_⟩
    rw [Core.withTask_id (by rw [hself]; simp [abortWait, hst]), hs'.2.1, toCore_timeDeleteIfAssigned]
    exact (giveBack_untimed (by rw [hst]; simp)).symm
  | wtevt =>
    obtain ⟨v, hww⟩ := hwaits.wtevt hst
    exact hflag _ hww (.inl hst)
  | wtexit =>
    obtain ⟨u, hww⟩ := hwaits.wtexit hst
    exact hflag _ hww (.inr hst)
  | wtcond =>
    obtain ⟨v, hww, -⟩ := hwaits.wtcond hst
    rw [hww] at hg
    obtain ⟨hdel, hw₁⟩ := listDelete_untimed h hww
    simp only [leaveQueue, timeDeleteIfAssigned_state, hst, hdel]
    refine ⟨_, .of_detach h hD hg hw₁ ?_⟩
    rw [toCore_unlink_untimed (by rw [hst]; simp), Core.withTask_id (by rw [hself]; simp [abortWait, hst])]
  | wtsem => exact leaveQueue_wtsem hD h hg hst
  | wtmtx => exact leaveQueue_wtmtx hD h hg hR hst
  | zombie | exited =>
    rw [hst] at hd
    cases hd
  | created | sleeping | schedule | suspend =>
    have hww := hwaits.free (by rw [hst]; rfl)
    rw [hww] at hg
    have hnone : (s.timeDeleteIfAssigned t).inode t = none := by
      have hstate := timeDeleteIfAssigned_state.trans hst
      rw [hw.inode_of_waits (Set.notMem_empty t) (by rw [hstate]; rfl),
        (hw.waits (Set.notMem_empty t)).free (by rw [hstate]; rfl)]
      rfl
    simp only [leaveQueue, timeDeleteIfAssigned_state, hst]
    refine ⟨_, .of_detach h hD hg (hw.loosen hnone) ?_⟩
    rw [Core.withTask_id (by rw [hself]; simp [abortWait, hst]), toCore_timeDeleteIfAssigned]
    exact (giveBack_untimed (by rw [hst]; simp)).symm

/-- The actions of `_isixp_add_kill_or_set_suspend`. -/
structure ParkOk (A : Act → Core → Prop) (t : TaskId) (suspend : Bool) : Prop where
  detach : ∀ w c, A (.detach t w) c
  park : ∀ c, A (.park t suspend) c
  reprio : ∀ u p c, A (.reprio u p) c

/-- What `_isixp_add_kill_or_set_suspend` leaves alone. -/
structure Parked (t : TaskId) (s s' : Kernel) : Prop where
  woken : ∀ u, u ≠ t → Woken s u → Woken s' u
  currp : s'.currp = s.currp

theorem isixpAddKillOrSetSuspend_does {suspend : Bool} (hA : ParkOk A t suspend) (h : Good s)
    (hlt : t < s.ntask) (hd : (s.task t).state.dead = false) (hidle : t ≠ idle)
    (hboot : s.schrun = false → t ≠ s.currp)
    (hown : suspend = false → (s.task t).ownedMutexes = []) :
    Holds E (isixpAddKillOrSetSuspend t suspend s) fun s' => Does A s s' ∧ Parked t s s' := by
  refine (leaveQueue_spec hA.detach hA.reprio h hlt hd hidle hboot).bind fun s₁ ⟨c, hc⟩ => ?_
  have hout : ∀ w, t ∉ c.lists w := by
    intro w
    have hmem := hc.wired.not_mem_of_loose (hc.wired.loose t (.inl rfl)) w
    rw [hc.eq] at hmem
    exact hmem
  have hg : (Act.park t suspend).guard c :=
    ⟨hout, hc.ntask ▸ hlt, hc.dead, hc.time, hidle, fun hr => hc.currp ▸ hboot (hc.schrun ▸ hr),
      fun hs => hc.owned.trans (hown hs)⟩
  -- the result is the parked core
  have hdone : ∀ s', Wired ∅ s' → s'.toCore = (Act.park t suspend).apply c →
      Does A s s' ∧ Parked t s s' := by
    intro s' hw he
    refine ⟨⟨⟨hw, he ▸ hc.core.park hg⟩, he ▸ hc.path.trans (.single _ (hA.park _) hg)⟩, ?_, ?_⟩
    · rintro u hu ⟨hr, hul⟩
      constructor
      · rw [he, Act.park_of_ne hu]
        exact hc.woken u hu hr
      · rw [he, Act.park_ntask, hc.ntask]
        exact hul
    · rw [he, Act.park_currp, hc.currp]
  have hstate : ∀ st, (s₁.withTask t fun x => { x with state := st }).toCore =
      c.withTask t fun x => { abortWait suspend x with state := st } := by
    intro st
    rw [Kernel.toCore_withTask, hc.eq, Core.withTask_withTask]
  cases suspend with
  | true =>
    refine hdone _ ?_ (hstate .suspend)
    exact (hc.wired.write (.inl rfl)).settle (by simp [withTask]; rfl)
      (by simp [withTask, Waits])
  | false =>
    refine hdone _ ?_ ?_
    · refine (hc.wired.write (.inl rfl)).join (Set.notMem_empty t)
        (List.perm_append_singleton _ _) rfl rfl rfl rfl rfl ?_ (fun _ _ => rfl) ?_
      · show t < s₁.ntask
        rw [hc.eq]
        exact hc.ntask ▸ hlt
      · simp [withTask, listInsertEnd, link, Waits]
    · have hz := hstate .zombie
      generalize s₁.withTask t (fun x => { x with state := .zombie }) = s₂ at hz
      show { s₂.toCore.enqueue t .zombie with
        numberOfTaskDeleted := s₂.toCore.numberOfTaskDeleted + 1 } = _
      rw [hz]
      rfl

/-- The loop of `wake_exit_waiters`: what it woke is not the task itself. -/
theorem wakeExitWaiters_spec {msg : Int} (h : Good s)
    (hm : ∀ u c, c.currp = s.currp → Wakes u msg c (some (.exit t)))
    (hA : ∀ u c, c.currp = s.currp → A (.wake u (some (.exit t)) msg) c) :
    Holds E (wakeExitWaiters t msg s) fun r =>
      Swept A ∅ none (.exit t) s [] r.1 ∧ ∀ w, r.2 = some w → Woken r.1 w ∧ w ≠ t := by
  refine Holds.foldlM (I := fun l r =>
    Swept A ∅ none (.exit t) s l r.1 ∧ ∀ w, r.2 = some w → Woken r.1 w ∧ w ≠ t) _ (b := (s, none))
    ⟨.start h, fun _ hw => by cases hw⟩ ?_
  rintro u l ⟨s₁, wk⟩ ⟨hs₁, hwk⟩
  have hut : u ≠ t := by
    rintro rfl
    exact hs₁.leads.ok.core.list.exit_ne u hs₁.head_mem
  refine (removeAndWakeup_leads hs₁.leads.ok hs₁.head_mem (hm u _ hs₁.currp)
    (hA _ _ hs₁.currp)).bind
    fun s₂ hs₂ => ⟨hs₁.round hs₂.1 hs₂.2, ?_⟩
  intro w hw
  cases wk with
  | none =>
    cases hw
    exact ⟨hs₂.2.woken, hut⟩
  | some w' =>
    have hold := hwk w' rfl
    simp only at hw
    split at hw
    · cases hw
      exact ⟨hs₂.2.woken, hut⟩
    · cases hw
      exact ⟨hs₂.2.keeps hold.1, hold.2⟩

/-- A task that is killed has no mutexes left. -/
theorem isixTaskKill_spec (hQ : Quiet A)
    (hA : ReleaseOk A (task.getD s.currp) fun _ => True)
    (hP : ParkOk A (task.getD s.currp) false)
    (hW : ∀ u c, A (.wake u (some (.exit (task.getD s.currp)))
      (if task.getD s.currp = c.currp then isixEok else isixEdestroy)) c) (h : Good s)
    (hlt : task.getD s.currp < s.ntask) (hidle : task.getD s.currp ≠ idle)
    (hboot : s.schrun = false → task.getD s.currp ≠ s.currp) :
    Holds E (isixTaskKill task s) fun r =>
      Does A s r.1 ∧ (r.1.task (task.getD s.currp)).ownedMutexes = [] := by
  unfold isixTaskKill
  simp only
  generalize task.getD s.currp = t at *
  split
  · rename_i hst
    refine ⟨Leads.refl h, h.core.mutex.dead t ?_⟩
    rcases hst with hs | hs <;> rw [hs] <;> rfl
  rename_i hst
  refine (isixpMutexUnlockAllInTask_does hQ hA h).bind fun s₁ ⟨h₁, hun⟩ => ?_
  refine (wakeExitWaiters_spec h₁.ok (fun u c hc => ?_)
    fun u c hc => hc ▸ hW u c).bind
    fun r ⟨hsw, hwk⟩ => ?_
  · split
    · rename_i heq
      exact .inr ⟨rfl, heq.trans hc.symm⟩
    · exact .inl rfl
  obtain ⟨s₂, woken⟩ := r
  have hcur : s.schrun = false → t ≠ s₁.currp := by
    intro hr
    rcases hun.currp with he | ⟨-, hne⟩
    · rw [he]
      exact hboot hr
    · exact hne.symm
  have hown : (s₂.task t).ownedMutexes = [] := (hsw.owned t).trans hun.owned
  refine (isixpAddKillOrSetSuspend_does (A := fun a c => A a c ∧ a.keepsOwned)
    ⟨fun w c => ⟨hP.detach w c, rfl⟩, fun c => ⟨hP.park c, rfl⟩, fun u p c => ⟨hP.reprio u p c, rfl⟩⟩
    hsw.leads.ok ?_ ?_ hidle ?_ fun _ => hown).bind fun s₃ ⟨h₃, hpk⟩ => ?_
  · rw [hsw.ntask, hun.ntask]
    exact hlt
  · exact hsw.dead t (hun.dead (dead_eq_false hst))
  · rw [hsw.schrun, hun.schrun, hsw.currp]
    exact hcur
  · have h₃' : Does A s s₃ :=
      (h₁.trans hsw.leads).trans ⟨h₃.ok, h₃.path.mono fun _ _ ha => ha.1⟩
    have hQ' : Quiet fun a c => A a c ∧ a.keepsOwned := fun a c ha => by
      refine ⟨hQ a c ha, ?_⟩
      cases a <;> first | rfl | cases ha
    have hleave : Holds E (leaveKill t woken s₃) (Does (fun a c => A a c ∧ a.keepsOwned) s₃) := by
      unfold leaveKill
      split
      · exact isixYield_does hQ' h₃.ok
      · refine leaveCritical_does hQ' h₃.ok fun w hw => ?_
        have hww := hwk w hw
        exact (hpk.woken w hww.2 hww.1).candidate
    refine hleave.bind fun s₄ h₄ => ⟨h₃'.trans ⟨h₄.ok, h₄.path.mono fun _ _ ha => ha.1⟩, ?_⟩
    exact (h₄.path.owned t).trans ((h₃.path.owned t).trans hown)

theorem isixTaskSuspend_does (hQ : Quiet A)
    (hP : ParkOk A (task.getD s.currp) true) (h : Good s)
    (hlt : task.getD s.currp < s.ntask) (hidle : task.getD s.currp ≠ idle)
    (hboot : s.schrun = false → task.getD s.currp ≠ s.currp) :
    Holds E (isixTaskSuspend task s) fun r => Does A s r.1 := by
  unfold isixTaskSuspend
  simp only
  generalize task.getD s.currp = t at *
  split
  · exact Leads.refl h
  rename_i hst
  refine (isixpAddKillOrSetSuspend_does hP h hlt (dead_eq_false ?_) hidle hboot (by simp)).bind
    fun s₁ ⟨h₁, _⟩ => ?_
  · tauto
  · split
    · exact h₁.trans (isixYield_does hQ h₁.ok)
    · exact h₁

/-- `cleanup_tasks` reclaims the first finished task. -/
theorem cleanupTasks_does (hA : ∀ t c, A (.reap t) c) (h : Good s) :
    Holds E (cleanupTasks s) (Does A s) := by
  unfold cleanupTasks
  split
  · split
    · exact Leads.refl h
    · rename_i t l hl
      have hmem : t ∈ s.lists .zombie := by
        rw [hl]
        exact List.mem_cons_self
      have hg : (Act.reap t).guard s.toCore := h.wired.sits_of_mem hmem
      rw [h.wired.listDelete_of_mem hmem, ok_bind]
      have hw : Wired ∅ ((s.unlink t (.wait .zombie)).withTask t
          fun x => { x with state := .exited }) :=
        ((h.wired.unlinkWait (h.wired.mem_lists.mp hmem)).write (.inl rfl)).settle
          (by simp [withTask]; rfl) (by simp [withTask, Waits])
      refine .act (hw.congr rfl rfl rfl rfl (Nat.le_refl _) (fun _ _ _ => rfl) fun _ _ hp => hp)
        (h.core.reap hg) rfl (hA t _) hg
  · exact Leads.refl h

end Isix
