import Isix.Refine.Scheduler

/-!
# Isix.Refine.Switch

The context switch, and the two ways a task changes between the ready queue
and the wait lists in a critical section: the current task goes to sleep, and
waiting tasks are woken.
-/

namespace Isix

open Function (update)
open Kernel Outcome

/-! ## equations of the core -/

namespace Core

variable {c : Core} {g : Task → Task} {t : TaskId} {w : WaitHead}

theorem enqueue_withTask (hp : (g (c.task t)).prio = (c.task t).prio) :
    (c.enqueue t w).withTask t g = (c.withTask t g).enqueue t w := by
  have hprio : ∀ u, ((c.withTask t g).task u).prio = (c.task u).prio :=
    forall_withTask (P := fun u y => y.prio = (c.task u).prio) hp fun _ _ => rfl
  simp only [enqueue, hprio]
  rfl

theorem addTime_withTask {n : Nat} (hj : (g (c.task t)).jiffies = (c.task t).jiffies)
    (hg : ∀ j b, g { c.task t with jiffies := j, inodeTime := b } =
      { g (c.task t) with jiffies := j, inodeTime := b }) :
    (c.addTime t n).withTask t g = (c.withTask t g).addTime t n := by
  have hjiff : ∀ u, ((c.withTask t g).task u).jiffies = (c.task u).jiffies :=
    forall_withTask (P := fun u y => y.jiffies = (c.task u).jiffies) hj fun _ _ => rfl
  simp only [addTime, hjiff]
  simp only [withTask, Function.update_self, Function.update_idem]
  rw [hg]
  rfl

theorem addTime?_withTask {n : Nat} (hj : (g (c.task t)).jiffies = (c.task t).jiffies)
    (hg : ∀ j b, g { c.task t with jiffies := j, inodeTime := b } =
      { g (c.task t) with jiffies := j, inodeTime := b }) :
    (c.addTime? t n).withTask t g = (c.withTask t g).addTime? t n := by
  unfold addTime?
  split
  · rfl
  · exact addTime_withTask hj hg

/-- The current task goes to sleep; the unit of a semaphore is already taken. -/
def fallAsleep (k : Sleep) (c : Core) : Core :=
  ((c.withTask c.currp k.write).addTime? c.currp k.timeout).enqueue? c.currp k.head

theorem addTime?_self {n : Nat} :
    ∃ j b, (c.addTime? t n).task t = { c.task t with jiffies := j, inodeTime := b } := by
  unfold addTime?
  split
  · exact ⟨_, _, rfl⟩
  · refine ⟨toTick (c.jiffies + n), some (if toTick (c.jiffies + n) < c.jiffies then !c.pWaitList
      else c.pWaitList), ?_⟩
    simp [addTime]

theorem addTime?_of_ne {n : Nat} {u : TaskId} (hu : u ≠ t) :
    (c.addTime? t n).task u = c.task u := by
  unfold addTime?
  split
  · rfl
  · simp [addTime, withTask, hu]

end Core

namespace Act

variable {c : Core} {k : Sleep} {u : TaskId}

theorem sleep_of_ne (hu : u ≠ c.currp) : ((Act.sleep k).apply c).task u = c.task u := by
  have h₁ : (((c.takeUnit k).withTask c.currp k.write).addTime? c.currp k.timeout).task u = c.task u := by
    rw [Core.addTime?_of_ne hu, Core.withTask_of_ne _ _ hu]
    rfl
  show (Core.enqueue? _ _ _).task u = _
  unfold Core.enqueue?
  split <;> exact h₁

theorem sleep_currp : ((Act.sleep k).apply c).currp = c.currp := by
  show (Core.enqueue? _ _ (Core.addTime? _ _ _)).currp = _
  unfold Core.enqueue? Core.addTime?
  split <;> split <;> rfl

theorem sleep_ntask : ((Act.sleep k).apply c).ntask = c.ntask := by
  show (Core.enqueue? _ _ (Core.addTime? _ _ _)).ntask = _
  unfold Core.enqueue? Core.addTime?
  split <;> split <;> rfl

end Act

theorem isixpSetSleepTimeout_infinite (st : ThrState) (s : Kernel) :
    isixpSetSleepTimeout st timeInfinite s = isixpSetSleep st s := by
  unfold isixpSetSleepTimeout
  cases isixpSetSleep st s with
  | ok s₁ => rfl
  | error e => rfl

variable [Config] {s s' : Kernel} {X : Set TaskId} {t : TaskId} {w : WaitHead} {E : Panic → Prop}
  {A : Act → Core → Prop} {x : Option MtxId}

/-! ## the context switch -/

/-- The tasks of a priority change their order. -/
theorem Wired.reorder (h : Wired X s) (hq : Buckets.WF Config.numberOfPriorities s'.ready)
    (hperm : ∀ e, (s'.ready.items e).Perm (s.ready.items e)) (hprio : s'.ready.prio = s.ready.prio)
    (hi : s'.inode = s.inode) (he : s'.prioElem = s.prioElem) (hl : s'.lists = s.lists)
    (hn : s'.ntask = s.ntask) (hp : ∀ t, (s'.task t).prio = (s.task t).prio)
    (ht : ∀ t, Placed (s.task t) (s.prioElem t) (s.inode t) →
      Placed (s'.task t) (s.prioElem t) (s.inode t)) : Wired X s' := by
  refine ⟨?_, ?_, ?_, hq, ?_, ?_⟩
  · intro k u
    have hc := h.linked k u
    rw [hi, ← hc]
    cases k with
    | prio e => exact (hperm e).count_eq u
    | wait w => exact congrArg (List.count u) (congrFun hl w)
  · intro u hu
    rw [he, hi]
    exact ht u (h.placed u hu)
  · rw [hi]
    exact h.loose
  · intro u e hu
    rw [hp, hprio]
    exact h.keyed u e ((hperm e).mem_iff.mp hu)
  · rw [hi, hn]
    exact h.bound

/-- The queue after the first part of `_isixp_schedule`. -/
def Kernel.rotated (s : Kernel) : Buckets.Queue TaskId :=
  if (s.task s.currp).state = .running then
    (s.ready.erase (s.prioElem s.currp) s.currp).append (s.prioElem s.currp) s.currp
  else s.ready

theorem requeueCurrent_spec (h : Wired X s) (hX : s.currp ∉ X) :
    Holds E (requeueCurrent s) fun s' => Wired X s' ∧ s'.ready = s.rotated ∧
      s'.toCore = s.toCore.withTask s.currp fun x =>
        { x with state := if x.state = .running then .ready else x.state } := by
  unfold requeueCurrent
  by_cases hs : (s.task s.currp).state = .running
  · have hi := h.inode_of_active hX (by rw [hs]; rfl)
    have hmem := h.mem_items.mpr hi
    have hrot : s.rotated =
        (s.ready.erase (s.prioElem s.currp) s.currp).append (s.prioElem s.currp) s.currp := if_pos hs
    rw [if_pos hs, if_neg (by rw [hi]; simp), listDelete, hi]
    refine ⟨?_, hrot.symm, ?_⟩
    · refine h.reorder ?_ ?_ ?_ ?_ ?_ ?_ ?_ ?_ ?_
      · exact h.queue.rotate hmem
      · intro e
        by_cases hee : e = s.prioElem s.currp
        · subst hee
          simpa [enterReady, Buckets.Queue.append, Buckets.Queue.erase, Kernel.unlink] using
            (List.perm_append_singleton _ _).trans (List.perm_cons_erase hmem).symm
        · simp [enterReady, Buckets.Queue.append, Buckets.Queue.erase, Kernel.unlink, hee]
      · rfl
      · funext u
        by_cases hu : u = s.currp
        · subst hu
          simp [enterReady, Kernel.unlink, hi]
        · simp [enterReady, Kernel.unlink, hu]
      · exact Function.update_eq_self _ _
      · rfl
      · rfl
      · intro u
        by_cases hu : u = s.currp
        · subst hu
          simp [enterReady, withTask, Kernel.unlink]
        · simp [enterReady, withTask, Kernel.unlink, hu]
      · intro u hpl
        by_cases hu : u = s.currp
        · subst hu
          rw [hi]
          simp [enterReady, withTask, Kernel.unlink, Placed, ThrState.active]
        · simpa [enterReady, withTask, Kernel.unlink, hu] using hpl
    · show s.toCore.withTask s.currp (fun x => { x with state := .ready }) = _
      exact Core.withTask_congr (by simp [hs])
  · rw [if_neg hs]
    refine ⟨h, (if_neg hs).symm, ?_⟩
    rw [Core.withTask_id (by simp [hs])]

theorem selectFirst_spec (h : Wired ∅ s) (hrun : ∀ u, (s.task u).state ≠ .running)
    (hidle : (s.task idle).state.active) :
    Holds E (selectFirst s) fun s' => Wired ∅ s' ∧ s'.ready = s.ready ∧ ∃ e es t l,
      s.ready.active = e :: es ∧ s.ready.items e = t :: l ∧ (s.task t).state = .ready ∧ t < s.ntask ∧
      s'.toCore = { s.toCore.withTask t (fun x => { x with state := .running }) with currp := t } := by
  have hmem := h.mem_items.mpr (h.inode_of_active (Set.notMem_empty _) hidle)
  have hact := h.queue.mem_active hmem
  cases ha : s.ready.active with
  | nil =>
    rw [ha] at hact
    cases hact
  | cons e es =>
    cases hl : s.ready.items e with
    | nil => exact absurd hl (h.queue.nonempty e (by rw [ha]; exact List.mem_cons_self))
    | cons t l =>
      have ht : t ∈ s.ready.items e := by rw [hl]; exact List.mem_cons_self
      have hpl := h.placed t (Set.notMem_empty _)
      have hi := h.mem_items.mp ht
      rw [hi] at hpl
      have hready : (s.task t).state = .ready := by
        have hne := hrun t
        have := hpl.1
        cases hst : (s.task t).state <;> simp_all [ThrState.active]
      have heq : selectFirst s =
          .ok { s.withTask t fun x => { x with state := .running } with currp := t } := by
        simp [selectFirst, ha, hl, hready, h.keyed t e ht]
      rw [heq]
      refine ⟨?_, rfl, e, es, t, l, rfl, hl, hready, h.bound t (by rw [hi]; simp), rfl⟩
      have hw : Wired ∅ (s.withTask t fun x => { x with state := .running }) := by
        refine h.write_placed rfl fun _ => ?_
        rw [hi]
        exact ⟨rfl, hpl.2⟩
      exact hw.congr rfl rfl rfl rfl (Nat.le_refl _) (fun _ _ _ => rfl) fun _ _ => id

/-- `_isixp_schedule` with the scheduler unlocked. -/
theorem schedule_spec (h : Good s) (hrun : s.schrun = true) :
    Holds E (requeueCurrent s >>= selectFirst) fun s' => Wired ∅ s' ∧ s'.ready = s.rotated ∧
      ∃ e es t l, s.rotated.active = e :: es ∧ s.rotated.items e = t :: l ∧
        s'.toCore = (Act.switch t).apply s.toCore ∧ (Act.switch t).guard s.toCore := by
  refine (requeueCurrent_spec h.wired (Set.notMem_empty _)).bind fun s₁ hs₁ => ?_
  obtain ⟨hw₁, hr₁, hc₁⟩ := hs₁
  have htask : ∀ u, (s₁.task u).state ≠ .running ∧
      ((s₁.task u).state.active ↔ (s.task u).state.active) := by
    intro u
    rw [show s₁.task = s₁.toCore.task from rfl, hc₁]
    by_cases hu : u = s.currp
    · subst hu
      rw [Core.withTask_self]
      show (if (s.task s.currp).state = .running then ThrState.ready else (s.task s.currp).state) ≠ _ ∧
        ((if (s.task s.currp).state = .running then ThrState.ready
          else (s.task s.currp).state).active ↔ (s.task s.currp).state.active)
      by_cases hst : (s.task s.currp).state = .running
      · simp [hst, ThrState.active]
      · simp [hst]
    · rw [Core.withTask_of_ne _ _ hu]
      exact ⟨fun hs => hu (h.core.task.running u hs).2, Iff.rfl⟩
  refine (selectFirst_spec hw₁ (fun u => (htask u).1)
    ((htask idle).2.mpr h.core.task.idle_active)).mono fun s₂ hs₂ => ?_
  obtain ⟨hw₂, hr₂, e, es, t, l, ha, hl, hready, hlt, hc₂⟩ := hs₂
  refine ⟨hw₂, hr₂.trans hr₁, e, es, t, l, hr₁ ▸ ha, hr₁ ▸ hl, ?_, ?_⟩
  · rw [hc₂, hc₁]
    rfl
  · refine ⟨(htask t).2.mp (by rw [hready]; rfl), ?_, hrun⟩
    have : s₁.ntask = s.ntask := by rw [hc₁]; rfl
    exact this ▸ hlt

theorem isixpSchedule_does (hA : Quiet A) (hS : ∀ t c, A (.switch t) c) (h : Good s)
    (hrun : s.schrun = true) : Holds E (isixpSchedule s) (Does A s) := by
  unfold isixpSchedule
  split
  · exact Does.yieldPending hA h
  · refine (schedule_spec h hrun).mono fun s' hs' => ?_
    obtain ⟨hw, -, e, es, t, l, -, -, hc, hg⟩ := hs'
    exact .act hw (h.core.switch hg) hc (hS _ _) hg

/-! ## going to sleep -/

/-- `_isixp_set_sleep_timeout`: the current task is on no list. -/
theorem isixpSetSleepTimeout_spec {st : ThrState} {n : Nat} (h : Wired ∅ s)
    (ha : (s.task s.currp).state.active) :
    Holds E (isixpSetSleepTimeout st n s) fun s' => Wired (insert s.currp ∅) s' ∧
      s'.toCore = (s.toCore.withTask s.currp fun x => { x with state := st }).addTime? s.currp n := by
  have hd := h.deleteFromReadyList_spec (E := E) (h.inode_of_active (Set.notMem_empty _) ha)
  refine (hd.bind fun s₁ hs₁ => ?_).bind (Q := fun s₂ => Wired (insert s.currp ∅) s₂ ∧
    s₂.toCore = s.toCore.withTask s.currp fun x => { x with state := st }) fun s₂ hs₂ => ?_
  · obtain ⟨hw, hc, -⟩ := hs₁
    have hcur : s₁.currp = s.currp := by rw [hc]
    refine ⟨?_, ?_⟩
    · rw [hcur]
      exact hw.write (.inl rfl)
    · rw [hcur, Kernel.toCore_withTask, hc]
  · obtain ⟨hw, hc⟩ := hs₂
    have hcur : s₂.currp = s.currp := by
      rw [hc]
      rfl
    by_cases hn : n = timeInfinite
    · simp only [hn, ne_eq, not_true, if_false]
      exact ⟨hw, by rw [hc]; rfl⟩
    · simp only [hn, ne_eq, not_false_iff, if_true]
      refine ⟨?_, ?_⟩
      · rw [hcur]
        exact (hw.write (g := fun x => { x with
          jiffies := toTick (s₂.jiffies + n)
          inodeTime := some (if toTick (s₂.jiffies + n) < s₂.jiffies then !s₂.pWaitList
            else s₂.pWaitList) }) (.inl rfl)).congr rfl rfl rfl rfl (Nat.le_refl _)
          (fun _ _ _ => rfl) fun _ _ => id
      · rw [hcur, ← hc]
        show s₂.toCore.addTime s.currp n = _
        unfold Core.addTime?
        rw [if_neg hn]

/-- A task that went to sleep joins a wait list; `g` is what the service
writes afterwards. -/
theorem sleep_spec (k : Sleep) (hk : k.head = some w) {f g : Task → Task} (h : Good s)
    (ha : (s.task s.currp).state.active)
    (hg : ∀ x, g { f x with state := k.state } = k.write x)
    (hp₀ : ∀ x, (f x).prio = x.prio ∧ (f x).state = x.state)
    (hp₁ : ∀ x, (g x).prio = x.prio ∧ (g x).jiffies = x.jiffies)
    (hcomm : ∀ x j b, g { x with jiffies := j, inodeTime := b } =
      { g x with jiffies := j, inodeTime := b }) :
    Holds E (isixpSetSleepTimeout k.state k.timeout (s.withTask s.currp f)) fun s₁ =>
      ∀ s₂, (s₂ = addToPrioQueue w s₁.currp s₁ ∧ w.byPrio ∨
          s₂ = s₁.listInsertEnd w s₁.currp ∧ w.byPrio = false) →
        Wired ∅ (s₂.withTask s₂.currp g) ∧
          (s₂.withTask s₂.currp g).toCore = s.toCore.fallAsleep k := by
  have h₀ : Wired ∅ (s.withTask s.currp f) :=
    h.wired.write_active (Set.notMem_empty _) ha (hp₀ _).1 (hp₀ _).2
  have hself : (s.withTask s.currp f).task s.currp = f (s.task s.currp) := by simp [withTask]
  have ha₀ : ((s.withTask s.currp f).task s.currp).state.active := by
    rw [hself, (hp₀ _).2]
    exact ha
  refine (isixpSetSleepTimeout_spec h₀ ha₀).mono fun s₁ hs₁ s₂ hs₂ => ?_
  obtain ⟨hw₁, hc₁⟩ := hs₁
  have hw₁' : Wired (insert s.currp ∅) s₁ := hw₁
  have hcur₁ : s₁.currp = s.currp := by
    rw [hc₁]
    unfold Core.addTime?
    split <;> rfl
  have hcore₁ : s₁.toCore.withTask s.currp g =
      (s.toCore.withTask s.currp k.write).addTime? s.currp k.timeout := by
    rw [hc₁]
    show Core.withTask s.currp g (Core.addTime? s.currp k.timeout ((Core.withTask s.currp f
      s.toCore).withTask s.currp fun x => { x with state := k.state })) = _
    rw [Core.addTime?_withTask (hp₁ _).2 (fun j b => hcomm _ j b), Core.withTask_withTask,
      Core.withTask_withTask]
    refine congrArg _ (Core.withTask_congr ?_)
    exact hg _
  have hcur₂ : s₂.currp = s.currp := by
    rcases hs₂ with ⟨rfl, -⟩ | ⟨rfl, -⟩ <;> exact hcur₁
  have hc₂ : s₂.toCore = s₁.toCore.enqueue s.currp w := by
    rcases hs₂ with ⟨rfl, hw⟩ | ⟨rfl, hw⟩
    · rw [toCore_addToPrioQueue hw, hcur₁]
    · rw [toCore_listInsertEnd hw, hcur₁]
  have hcore : (s₂.withTask s₂.currp g).toCore = s.toCore.fallAsleep k := by
    rw [hcur₂, Kernel.toCore_withTask, hc₂, Core.enqueue_withTask (hp₁ _).1, hcore₁]
    unfold Core.fallAsleep
    rw [hk]
    rfl
  refine ⟨?_, hcore⟩
  obtain ⟨l, hl, hlists, hready, hinode, helem⟩ : ∃ l, l.Perm (s.currp :: s₁.lists w) ∧
      s₂.lists = update s₁.lists w l ∧ s₂.ready = s₁.ready ∧
      s₂.inode = update s₁.inode s.currp (some (.wait w)) ∧ s₂.prioElem = s₁.prioElem := by
    rcases hs₂ with ⟨rfl, -⟩ | ⟨rfl, -⟩
    · rw [hcur₁]
      exact ⟨_, Intrusive.insertBefore_perm _ _ _, rfl, rfl, rfl, rfl⟩
    · rw [hcur₁]
      exact ⟨_, List.perm_append_singleton _ _, rfl, rfl, rfl, rfl⟩
  have htask₂ : s₂.task = s₁.task := by
    rw [hc₂]
    rfl
  rw [hcur₂]
  refine hw₁'.join (Set.notMem_empty _) hl hready hinode helem hlists ?_ ?_ ?_ ?_
  · show s₂.ntask = s₁.ntask
    rw [hc₂]
    rfl
  · have hn : s₁.ntask = s.ntask := by
      rw [hc₁]
      unfold Core.addTime?
      split <;> rfl
    rw [hn]
    exact h.core.task.currp_lt
  · intro u hu
    simp [withTask, hu, htask₂]
  · have hfin : (s₂.withTask s.currp g).task s.currp =
        ((s.toCore.withTask s.currp k.write).addTime? s.currp k.timeout).task s.currp := by
      rw [← hcore₁]
      simp [withTask, htask₂]
    rw [hfin]
    obtain ⟨j, b, hjb⟩ := Core.addTime?_self
    rw [hjb, Core.withTask_self]
    cases k <;> cases hk <;> first | exact ⟨rfl, rfl⟩ | exact ⟨rfl, _, rfl⟩ | rfl

end Isix
