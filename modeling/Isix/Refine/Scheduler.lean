import Isix.Wired

/-!
# Isix.Refine.Scheduler

The functions of `Isix.Scheduler` on a kernel whose links are in order: none
of them panics, the links stay in order, and on the core each of them is one
action.
-/

namespace Isix

open Function (update update_self)
open Kernel Outcome

/-! ## equations of the core -/

namespace Core

variable {c : Core} {t : TaskId} {g g' : Task → Task}

theorem withTask_withTask : (c.withTask t g).withTask t g' = c.withTask t fun x => g' (g x) := by
  simp [withTask]

theorem withTask_congr (h : g (c.task t) = g' (c.task t)) : c.withTask t g = c.withTask t g' := by
  simp [withTask, h]

theorem withTask_id (h : g (c.task t) = c.task t) : c.withTask t g = c := by
  unfold withTask
  rw [h, Function.update_eq_self]

theorem untime_of_none (h : (c.task t).inodeTime = none) : c.untime t = c := by
  unfold untime
  rw [withTask_id (by rw [← h]), h]

/-- A write that does not touch `inode_time` commutes with leaving the
timeout list. -/
theorem untime_withTask (hi : (g (c.task t)).inodeTime = (c.task t).inodeTime)
    (hg : { g (c.task t) with inodeTime := none } = g { c.task t with inodeTime := none }) :
    (c.withTask t g).untime t = (c.untime t).withTask t g := by
  simp [untime, withTask, hi, hg]

theorem giveBack_sem {i : SemId} (hs : (c.task t).state = .wtsem) (ho : (c.task t).obj = .sem i) :
    c.giveBack t = c.setSem i (c.sem i).inc := by
  simp [giveBack, setSem, hs, ho]

theorem giveBack_of_ne (hs : (c.task t).state ≠ .wtsem) : c.giveBack t = c := by
  unfold giveBack
  split
  · rename_i hs' _
    exact absurd hs' hs
  · rfl

theorem untime_self : (c.untime t).task t = { c.task t with inodeTime := none } := by
  simp [untime]

end Core

variable {s : Kernel} {X : Set TaskId} {t : TaskId} {w : WaitHead} {E : Panic → Prop}

/-! ## single functions -/

theorem Kernel.toCore_withTask (g : Task → Task) :
    (s.withTask t g).toCore = s.toCore.withTask t g := rfl

theorem toCore_timeDeleteIfAssigned (s : Kernel) (t : TaskId) :
    (s.timeDeleteIfAssigned t).toCore = s.toCore.untime t := by
  unfold timeDeleteIfAssigned
  cases hi : (s.task t).inodeTime with
  | none => exact (Core.untime_of_none hi).symm
  | some b => simp [unlinkTime, Core.untime, hi, Kernel.withTask, Core.withTask]

theorem toCore_unlinkTime {b : Bool} (hi : (s.task t).inodeTime = some b) :
    (s.unlinkTime t b).toCore = s.toCore.untime t := by
  rw [← toCore_timeDeleteIfAssigned]
  unfold timeDeleteIfAssigned
  rw [hi]

theorem toCore_addToPrioQueue (hw : w.byPrio) :
    (addToPrioQueue w t s).toCore = s.toCore.enqueue t w := by
  simp [addToPrioQueue, link, Core.enqueue, hw]

theorem toCore_listInsertEnd (hw : w.byPrio = false) :
    (s.listInsertEnd w t).toCore = s.toCore.enqueue t w := by
  simp [listInsertEnd, link, Core.enqueue, hw]

variable {p : Nat}

theorem Act.apply_reprio {c : Core} : (Act.reprio t p).apply c =
    ((c.dequeue? t (Core.prioHead (c.task t))).withTask t fun x =>
      { x with prio := p, state := if x.state.active then .ready else x.state }).enqueue? t
        (Core.prioHead (c.task t)) := rfl

theorem Act.apply_reprio_none {c : Core} (hh : Core.prioHead (c.task t) = none) :
    (Act.reprio t p).apply c = c.withTask t fun x =>
      { x with prio := p, state := if x.state.active then .ready else x.state } := by
  rw [Act.apply_reprio, hh]
  rfl

/-- A task on no prioritised list keeps its place. -/
theorem toCore_reprio_none (ha : (s.task t).state.active = false)
    (hh : Core.prioHead (s.task t) = none) :
    (s.withTask t fun x => { x with prio := p }).toCore = (Act.reprio t p).apply s.toCore := by
  rw [Act.apply_reprio_none hh, Kernel.toCore_withTask]
  refine Core.withTask_congr ?_
  simp [ha]

theorem toCore_reprio_some (hh : Core.prioHead (s.task t) = some w) :
    ((s.toCore.dequeue t w).withTask t fun x => { x with prio := p }).enqueue t w =
      (Act.reprio t p).apply s.toCore := by
  have ha : (s.task t).state.active = false := by
    unfold Core.prioHead at hh
    cases hs : (s.task t).state <;> simp_all [ThrState.active]
  rw [Act.apply_reprio, hh]
  refine congrArg _ (Core.withTask_congr ?_)
  simp [Core.dequeue, ha]

/-! ## what the state of a task says -/

variable {x : Task}

theorem Waits.wtsem {w : Option WaitHead} (h : Waits x w) (hs : x.state = .wtsem) :
    ∃ i, w = some (.sem i) ∧ x.obj = .sem i := by
  rcases w with _ | (_ | i | _ | _ | _ | _) <;> simp_all [Waits]

theorem Waits.wtmtx {w : Option WaitHead} (h : Waits x w) (hs : x.state = .wtmtx) :
    ∃ m, w = some (.mtx m) ∧ x.obj = .mtx m := by
  rcases w with _ | (_ | _ | m | _ | _ | _) <;> simp_all [Waits]

theorem Waits.wtcond {w : Option WaitHead} (h : Waits x w) (hs : x.state = .wtcond) :
    ∃ v, w = some (.cond v) ∧ x.obj = .cond v := by
  rcases w with _ | (_ | _ | _ | v | _ | _) <;> simp_all [Waits]

theorem Waits.wtevt {w : Option WaitHead} (h : Waits x w) (hs : x.state = .wtevt) :
    ∃ v, w = some (.evt v) := by
  rcases w with _ | (_ | _ | _ | _ | v | _) <;> simp_all [Waits]

theorem Waits.wtexit {w : Option WaitHead} (h : Waits x w) (hs : x.state = .wtexit) :
    ∃ u, w = some (.exit u) := by
  rcases w with _ | (_ | _ | _ | _ | _ | u) <;> simp_all [Waits]

theorem Waits.zombie {w : Option WaitHead} (h : Waits x w) (hs : x.state = .zombie) :
    w = some .zombie := by
  rcases w with _ | (_ | _ | _ | _ | _ | u) <;> simp_all [Waits]

/-- States in which a task is on no wait list. -/
def ThrState.free : ThrState → Bool
  | .wtsem | .wtmtx | .wtcond | .wtevt | .wtexit | .zombie => false
  | _ => true

theorem Waits.free {w : Option WaitHead} (h : Waits x w) (hs : x.state.free) :
    w = none := by
  rcases w with _ | (_ | _ | _ | _ | _ | u) <;> simp_all [Waits, ThrState.free]

theorem not_ready_of_waits {w : WaitHead} (h : Waits x (some w)) : x.state ≠ .ready := by
  intro hs
  have := not_active_of_waits h
  rw [hs] at this
  cases this

theorem not_zombie_of_waits {w : WaitHead} (h : Waits x (some w)) (hw : w ≠ .zombie) :
    x.state ≠ .zombie := by
  cases w with
  | zombie => exact absurd rfl hw
  | exit u =>
    have hs : x.state = .wtexit := h
    simp [hs]
  | sem i | mtx m | cond v | evt v => simp [h.1]

theorem isixpDoReschedule_cases (t : TaskId) (s : Kernel) : isixpDoReschedule t s = s ∨
    isixpDoReschedule t s = { s with pendsv := true } ∨
    s.schrun = false ∧ isixpDoReschedule t s = { s with currp := t } := by
  unfold isixpDoReschedule
  split
  · split
    · exact .inr (.inl rfl)
    · rename_i hr
      exact .inr (.inr ⟨by simpa using hr, rfl⟩)
  · exact .inl rfl

variable [Config]

theorem Wired.unlinkTime {b : Bool} (h : Wired X s) : Wired X (s.unlinkTime t b) :=
  (h.write_quiet (g := fun x => { x with inodeTime := none }) rfl rfl rfl).congr
    rfl rfl rfl rfl (Nat.le_refl _) (fun _ _ _ => rfl) fun _ _ => id

theorem Wired.timeDeleteIfAssigned (h : Wired X s) : Wired X (s.timeDeleteIfAssigned t) := by
  unfold Kernel.timeDeleteIfAssigned
  cases (s.task t).inodeTime with
  | none => exact h
  | some b => exact h.unlinkTime

/-! ## waking -/

theorem wakeupTask_spec {msg : Int} (h : Wired (insert t X) s) (htX : t ∉ X) (hlt : t < s.ntask)
    (hp : (s.task t).prio ≤ Config.numberOfPriorities) (hr : (s.task t).state ≠ .ready)
    (hz : (s.task t).state ≠ .zombie) :
    Holds E (wakeupTask t msg s) fun s' =>
      Wired X s' ∧ s'.toCore = (s.toCore.untime t).makeReady t (.dmsg msg) := by
  have h₁ := (h.write (g := fun x => { x with obj := .dmsg msg })
    (.inl rfl)).timeDeleteIfAssigned (t := t)
  have hcore : ((s.withTask t fun x => { x with obj := .dmsg msg }).timeDeleteIfAssigned t).toCore =
      (s.toCore.untime t).withTask t fun x => { x with obj := .dmsg msg } := by
    rw [toCore_timeDeleteIfAssigned]
    exact Core.untime_withTask (g := fun x => { x with obj := .dmsg msg }) rfl rfl
  have htask : ((s.withTask t fun x => { x with obj := .dmsg msg }).timeDeleteIfAssigned t).task t =
      { s.task t with obj := .dmsg msg, inodeTime := none } := by
    rw [hcore]
    simp [Core.untime, Core.withTask]
  have hn : ((s.withTask t fun x => { x with obj := .dmsg msg }).timeDeleteIfAssigned t).ntask =
      s.ntask := by
    rw [hcore]
    rfl
  refine (h₁.addReadyList_spec htX (by rw [hn]; exact hlt) (by rw [htask]; exact hp)
    (by rw [htask]; exact hr) (by rw [htask]; exact hz)).mono fun s' hs' => ⟨hs'.1, ?_⟩
  rw [hs'.2, hcore]
  rfl

section

variable (h : Wired X s)

include h

theorem Wired.mem_of_waitOf (hw : waitOf (s.inode t) = some w) : t ∈ s.lists w := by
  rw [h.mem_lists]
  cases hi : s.inode t with
  | none =>
    rw [hi] at hw
    cases hw
  | some l =>
    rw [hi] at hw
    cases l with
    | prio e => cases hw
    | wait w' =>
      cases hw
      rfl

theorem removeAndWakeup_spec {msg : Int} {x : Option MtxId} (hc : CoreInv x s.toCore)
    (ht : t ∈ s.lists w) (hw : w ≠ .zombie) :
    Holds E (removeAndWakeup t msg s) fun s' =>
      Wired X s' ∧ s'.toCore = (Act.wake t (some w) msg).apply s.toCore := by
  have hi := h.mem_lists.mp ht
  have hsit := h.sits_of_mem ht
  have htX : t ∉ X := fun hX => by
    rw [h.loose t hX] at hi
    cases hi
  rw [removeAndWakeup, h.listDelete_of_mem ht]
  exact wakeupTask_spec (h.unlinkWait hi) htX hsit.lt (hc.task.prio_le t)
    (not_ready_of_waits hsit.waits) (not_zombie_of_waits hsit.waits hw)

/-! ## changing a priority -/

theorem requeueWaiter_spec (ht : t ∈ s.lists w) (hw : w.byPrio) :
    Holds E (requeueWaiter t p w s) fun s' => Wired X s' ∧
      s'.toCore = ((s.toCore.dequeue t w).withTask t fun x => { x with prio := p }).enqueue t w := by
  have hi := h.mem_lists.mp ht
  have hsit := h.sits_of_mem ht
  have htX : t ∉ X := fun hX => by
    rw [h.loose t hX] at hi
    cases hi
  rw [requeueWaiter, h.listDelete_of_mem ht]
  refine ⟨?_, toCore_addToPrioQueue hw⟩
  have h₁ := (h.unlinkWait hi).write (g := fun x => { x with prio := p }) (.inl rfl)
  refine h₁.join htX (Intrusive.insertBefore_perm _ _ _) rfl rfl rfl rfl rfl hsit.lt
    (fun u _ => rfl) ?_
  have hwaits : Waits (s.task t) (some w) := hsit.waits
  show Waits (update s.task t _ t) _
  rw [update_self]
  cases w <;> exact hwaits

/-- The priority of a task outside of the ready queue. -/
theorem Wired.write_prio (ht : t ∉ X)
    (ha : (s.task t).state.active = false) : Wired X (s.withTask t fun x => { x with prio := p }) := by
  refine h.congr rfl rfl rfl rfl (Nat.le_refl _) ?_ ?_
  · intro u e hi
    have hut : u ≠ t := by
      rintro rfl
      have hpl := h.placed u ht
      rw [hi] at hpl
      rw [hpl.1] at ha
      cases ha
    simp [withTask, hut]
  · exact fun u _ hpl => Core.forall_withTask
      (g := fun x => { x with prio := p })
      (P := fun u y => Placed (s.task u) (s.prioElem u) (s.inode u) →
        Placed y (s.prioElem u) (s.inode u)) (fun hpl => hpl.congr rfl rfl) (fun u _ => id) u hpl

theorem isixpReallocatePriority_spec (ht : t ∉ X) (hlt : t < s.ntask)
    (hp : p ≤ Config.numberOfPriorities) :
    Holds E (isixpReallocatePriority t p s) fun s' =>
      Wired X s' ∧ s'.toCore = (Act.reprio t p).apply s.toCore := by
  have hwaits := h.waits ht
  have hready : (s.task t).state.active → Holds E (do
      let s ← deleteFromReadyList t s
      addReadyList t (s.withTask t fun x => { x with prio := p, state := .schedule }))
      fun s' => Wired X s' ∧ s'.toCore = (Act.reprio t p).apply s.toCore := by
    intro ha
    refine (h.deleteFromReadyList_spec (h.inode_of_active ht ha)).bind fun s₁ hs₁ => ?_
    obtain ⟨hw₁, hc₁, -⟩ := hs₁
    have hself : (s₁.withTask t fun x => { x with prio := p, state := .schedule }).task t =
        { s.task t with prio := p, state := .schedule } := by
      show update s₁.task t _ t = _
      rw [update_self, hc₁]
    have hn : s₁.ntask = s.ntask := by rw [hc₁]
    refine ((hw₁.write (.inl rfl)).addReadyList_spec ht (hn ▸ hlt) (by rw [hself]; exact hp)
      (by rw [hself]; simp) (by rw [hself]; simp)).mono fun s₂ hs₂ => ⟨hs₂.1, ?_⟩
    have hhead : Core.prioHead (s.task t) = none := by
      unfold Core.prioHead
      cases hs : (s.task t).state <;> simp_all [ThrState.active]
    rw [hs₂.2, Kernel.toCore_withTask, hc₁, Core.withTask_withTask, Act.apply_reprio_none hhead]
    refine Core.withTask_congr ?_
    simp [ha]
  have hwait : ∀ w, Core.prioHead (s.task t) = some w →
      Holds E (requeueWaiter t p w s) fun s' =>
        Wired X s' ∧ s'.toCore = (Act.reprio t p).apply s.toCore := by
    intro w hh
    rw [prioHead_of_waits hwaits] at hh
    obtain ⟨hw, hb⟩ := Option.filter_eq_some_iff.mp hh
    refine (requeueWaiter_spec h (h.mem_of_waitOf hw) hb).mono fun s' hs' => ⟨hs'.1, ?_⟩
    rw [hs'.2]
    exact toCore_reprio_some (by rw [prioHead_of_waits hwaits, hh])
  have hrest : (s.task t).state.active = false → Core.prioHead (s.task t) = none →
      Holds E (.ok (s.withTask t fun x => { x with prio := p })) fun s' =>
        Wired X s' ∧ s'.toCore = (Act.reprio t p).apply s.toCore :=
    fun ha hh => ⟨h.write_prio ht ha, toCore_reprio_none ha hh⟩
  unfold isixpReallocatePriority
  cases hs : (s.task t).state with
  | ready | running => exact hready (by rw [hs]; rfl)
  | wtsem =>
    obtain ⟨i, -, ho⟩ := hwaits.wtsem hs
    simp only [ho]
    exact hwait _ (by simp [Core.prioHead, hs, ho])
  | wtmtx =>
    obtain ⟨m, -, ho⟩ := hwaits.wtmtx hs
    simp only [ho]
    exact hwait _ (by simp [Core.prioHead, hs, ho])
  | wtcond =>
    obtain ⟨v, -, ho⟩ := hwaits.wtcond hs
    simp only [ho]
    exact hwait _ (by simp [Core.prioHead, hs, ho])
  | _ => exact hrest (by rw [hs]; rfl) (by simp [Core.prioHead, hs])

/-! ## expiry -/

section

variable {b : Bool} (htX : t ∉ X) (hlt : t < s.ntask) (hp : (s.task t).prio ≤ Config.numberOfPriorities)
  (hi : (s.task t).inodeTime = some b) (hs : (s.task t).state.timed)

include htX hlt hp hi hs

/-- A task leaves its list and becomes ready with the message; `f` are the semaphores then. -/
theorem expireWaiter_spec (f : SemId → AtomicSem) (hw : Wired.waitOf (s.inode t) = some w) :
    Holds E (addReadyList t (({ (s.unlinkTime t b).unlink t (.wait w) with sem := f } : Kernel).withTask t
      fun x => { x with obj := .dmsg isixEtimeout })) fun s' =>
      Wired X s' ∧ s'.toCore = ({ (s.toCore.untime t).dequeue t w with sem := f } : Core).makeReady t
        (.dmsg isixEtimeout) := by
  have h₁ : Wired X (s.unlinkTime t b) := h.unlinkTime
  have hmem : t ∈ (s.unlinkTime t b).lists w := h.mem_of_waitOf hw
  have h₂ : Wired (insert t X) { (s.unlinkTime t b).unlink t (.wait w) with sem := f } :=
    (h₁.unlinkWait (h₁.mem_lists.mp hmem)).congr rfl rfl rfl rfl (Nat.le_refl _) (fun _ _ _ => rfl) fun _ _ => id
  have hself : (({ (s.unlinkTime t b).unlink t (.wait w) with sem := f } : Kernel).withTask t
      fun x => { x with obj := .dmsg isixEtimeout }).task t =
      { s.task t with inodeTime := none, obj := .dmsg isixEtimeout } := by
    simp [withTask, Kernel.unlink, unlinkTime]
  refine ((h₂.write (.inl rfl)).addReadyList_spec htX hlt (by rw [hself]; exact hp) ?_ ?_).mono
    fun s' hs' => ⟨hs'.1, ?_⟩
  · rw [hself]
    intro hr
    rw [hr] at hs
    cases hs
  · rw [hself]
    intro hz
    rw [hz] at hs
    cases hs
  · rw [hs'.2, ← toCore_unlinkTime hi]
    rfl

/-- The same where no semaphore gets anything back. -/
theorem expireUncounted_spec (hw : Wired.waitOf (s.inode t) = some w) (hne : (s.task t).state ≠ .wtsem) :
    Holds E (addReadyList t (((s.unlinkTime t b).unlink t (.wait w)).withTask t
      fun x => { x with obj := .dmsg isixEtimeout })) fun s' =>
      Wired X s' ∧ s'.toCore = (Act.expire t (some w)).apply s.toCore := by
  refine (expireWaiter_spec h htX hlt hp hi hs s.sem hw).mono fun s' hs' => ⟨hs'.1, ?_⟩
  rw [hs'.2]
  show _ = (((s.toCore.untime t).dequeue t w).giveBack t).makeReady t (.dmsg isixEtimeout)
  rw [Core.giveBack_of_ne]
  · rfl
  · simpa [Core.dequeue, Core.untime_self] using hne

/-- A task that only slept keeps its `obj`. -/
theorem expireSleeper_spec (hst : (s.task t).state = .sleeping) :
    Holds E (addReadyList t (s.unlinkTime t b)) fun s' =>
      Wired X s' ∧ s'.toCore = (Act.expire t (Wired.waitOf (s.inode t))).apply s.toCore := by
  have hw := (h.waits htX).free (by rw [hst]; rfl)
  have hnone : s.inode t = none := by
    rw [h.inode_of_waits htX (by rw [hst]; rfl), hw]
    rfl
  have htask : (s.unlinkTime t b).task t = { s.task t with inodeTime := none } := by
    simp [unlinkTime, withTask]
  have h₁ : Wired (insert t X) (s.unlinkTime t b) := by
    refine h.unlinkTime.mono (Set.subset_insert t X) ?_
    rintro u (rfl | hu)
    · exact hnone
    · exact h.loose u hu
  refine (h₁.addReadyList_spec htX hlt (by rw [htask]; exact hp) (by simp [htask, hst])
    (by simp [htask, hst])).mono fun s' hs' => ⟨hs'.1, ?_⟩
  rw [hs'.2, toCore_unlinkTime hi, hw]
  show _ = (((s.toCore.untime t).dequeue? t none).giveBack t).makeReady t (s.task t).obj
  rw [Core.giveBack_of_ne]
  · unfold Core.makeReady
    rw [Core.withTask_id (g := fun x => { x with obj := (s.task t).obj })]
    · rfl
    · simp [Core.dequeue?, Core.untime_self]
  · simp [Core.dequeue?, Core.untime_self, hst]

theorem expireTask_spec : Holds E (expireTask t s) fun s' =>
    Wired X s' ∧ s'.toCore = (Act.expire t (Wired.waitOf (s.inode t))).apply s.toCore := by
  have hwaits := h.waits htX
  have htask : (s.unlinkTime t b).task t = { s.task t with inodeTime := none } := by
    simp [unlinkTime, withTask]
  have hdel : ∀ w, Wired.waitOf (s.inode t) = some w →
      (s.unlinkTime t b).listDelete t = .ok ((s.unlinkTime t b).unlink t (.wait w)) :=
    fun w hw => h.unlinkTime.listDelete_of_mem (h.mem_of_waitOf hw)
  have hstate : ((s.unlinkTime t b).task t).state = (s.task t).state := by rw [htask]
  unfold expireTask timeDelete
  simp only [hi, ok_bind, hstate]
  cases hst : (s.task t).state with
  | wtsem =>
    obtain ⟨i, hw, ho⟩ := hwaits.wtsem hst
    have hobj : (((s.unlinkTime t b).unlink t (.wait (.sem i))).task t).obj = .sem i := by
      show ((s.unlinkTime t b).task t).obj = _
      rw [htask]
      exact ho
    simp only [hdel _ hw, ok_bind, semFastSignal, hobj, pure_bind]
    rw [hw]
    refine (expireWaiter_spec h htX hlt hp hi hs _ hw).mono fun s' hs' => ⟨hs'.1, ?_⟩
    rw [hs'.2]
    show _ = (((s.toCore.untime t).dequeue t (.sem i)).giveBack t).makeReady t (.dmsg isixEtimeout)
    rw [Core.giveBack_sem (by rw [← hst]; simp [Core.dequeue, Core.untime_self])
      (by rw [← ho]; simp [Core.dequeue, Core.untime_self])]
    rfl
  | wtevt =>
    obtain ⟨v, hw⟩ := hwaits.wtevt hst
    simp only [hdel _ hw, ok_bind, pure_bind]
    rw [hw]
    exact expireUncounted_spec h htX hlt hp hi hs hw (by simp [hst])
  | wtcond =>
    obtain ⟨v, hw, -⟩ := hwaits.wtcond hst
    simp only [hdel _ hw, ok_bind, pure_bind]
    rw [hw]
    exact expireUncounted_spec h htX hlt hp hi hs hw (by simp [hst])
  | sleeping => exact expireSleeper_spec h htX hlt hp hi hs hst
  | _ =>
    rw [hst] at hs
    cases hs

end

end

/-! ## paths of the kernel -/

/-- The links and the core of a kernel are in order, apart from the tasks `X`
and the mutex `x` in the middle of a critical section. -/
structure Ok (X : Set TaskId) (x : Option MtxId) (s : Kernel) : Prop where
  wired : Wired X s
  core : CoreInv x s.toCore

/-- `s'` is in order and reached from `s` by actions `A` allows. -/
structure Leads (A : Act → Core → Prop) (X : Set TaskId) (x : Option MtxId) (s s' : Kernel) :
    Prop where
  ok : Ok X x s'
  path : Path A s.toCore s'.toCore

/-- `A` allows the actions of the tick and of the bookkeeping. -/
def Quiet (A : Act → Core → Prop) : Prop := ∀ a c, a.quiet → A a c

variable {A : Act → Core → Prop} {x : Option MtxId} {s' s'' : Kernel}

namespace Leads

theorem refl (h : Ok X x s) : Leads A X x s s := ⟨h, .refl _⟩

theorem trans (h : Leads A X x s s') {Y : Set TaskId} {y : Option MtxId}
    (h' : Leads A Y y s' s'') : Leads A Y y s s'' :=
  ⟨h'.ok, h.path.trans h'.path⟩

/-- One action. -/
theorem act {a : Act} (hw : Wired X s') (hc : CoreInv x (a.apply s.toCore))
    (he : s'.toCore = a.apply s.toCore) (ha : A a s.toCore) (hg : a.guard s.toCore) :
    Leads A X x s s' := by
  refine ⟨⟨hw, ?_⟩, ?_⟩
  · rw [he]
    exact hc
  · rw [he]
    exact .single a ha hg

/-- An action that touches neither links nor tasks. -/
theorem book {a : Act} (h : Ok X x s) (hr : s'.ready = s.ready) (hi : s'.inode = s.inode)
    (hp : s'.prioElem = s.prioElem) (he : s'.toCore = a.apply s.toCore) (ha : A a s.toCore)
    (hg : a.guard s.toCore) (ht : s'.task = s.task) (hl : s'.lists = s.lists)
    (hn : s'.ntask = s.ntask) (hc : CoreInv x (a.apply s.toCore)) : Leads A X x s s' :=
  .act (h.wired.congr hr hi hp hl (Nat.le_of_eq hn.symm) (fun _ _ _ => by rw [ht])
    fun _ _ hpl => by rw [ht]; exact hpl) hc he ha hg

end Leads

/-! ## the tick -/

theorem CoreInv.lt_of_timed {c : Core} (h : CoreInv x c) (ht : (c.task t).inodeTime ≠ none) :
    t < c.ntask := by
  by_contra hle
  rw [h.task.fresh t (Nat.not_lt.mp hle)] at ht
  exact ht rfl

/-- The kernel with another value of the tick counter and another current
timeout list.  The expiry of a task looks at neither, so its actions can be
counted before the tick. -/
def Kernel.back (j : Nat) (p : Bool) (s : Kernel) : Kernel := { s with jiffies := j, pWaitList := p }

/-- What the loop of `expire_waiting_tasks` leaves alone. -/
structure Expires (s s' : Kernel) : Prop where
  jiffies : s'.jiffies = s.jiffies
  list : s'.pWaitList = s.pWaitList

variable {j : Nat} {p : Bool}

theorem expireTask_leads (h : Ok X x (s.back j p)) (hA : Quiet A) (htX : t ∉ X) {rest : List TaskId}
    (hl : s.waitLists s.pWaitList = t :: rest) :
    Holds E (expireTask t s) fun s' => Leads A X x (s.back j p) (s'.back j p) ∧ Expires s s' ∧
      s'.waitLists s'.pWaitList = rest := by
  have hi : (s.task t).inodeTime = some s.pWaitList :=
    h.core.time.linked.mem_iff.mp (show t ∈ s.waitLists s.pWaitList by simp [hl])
  have hne : (s.task t).inodeTime ≠ none := by simp [hi]
  have hlt : t < s.ntask := h.core.lt_of_timed hne
  have hs : (s.task t).state.timed := h.core.time.timed t hne
  have hwired : Wired X s := h.wired.congr rfl rfl rfl rfl (Nat.le_refl _) (fun _ _ _ => rfl) fun _ _ hp => hp
  refine (expireTask_spec hwired htX hlt (h.core.task.prio_le t) hi hs).mono fun s' hs' => ?_
  obtain ⟨hw, hc⟩ := hs'
  have hg : (Act.expire t (Wired.waitOf (s.inode t))).guard (s.back j p).toCore :=
    ⟨h.wired.sits htX hlt, hs, hne⟩
  have hw' : Wired X (s'.back j p) := hw.congr rfl rfl rfl rfl (Nat.le_refl _) (fun _ _ _ => rfl) fun _ _ hp => hp
  have hc' : (s'.back j p).toCore = (Act.expire t (Wired.waitOf (s.inode t))).apply (s.back j p).toCore := by
    show ({ s'.toCore with jiffies := j, pWaitList := p } : Core) = _
    rw [hc]
    rfl
  refine ⟨.act hw' (h.core.expire hg) hc' (hA _ _ rfl) hg, ⟨?_, ?_⟩, ?_⟩
  · rw [hc]
    rfl
  · rw [hc]
    rfl
  · rw [hc]
    show (s.toCore.untime t).waitLists s.pWaitList = rest
    simp [Core.untime, hi, hl]

theorem expireLoop_leads {now : Nat} (hA : Quiet A) (l : List TaskId) (hX : ∀ t ∈ l, t ∉ X)
    (h : Ok X x (s.back j p)) (hl : s.waitLists s.pWaitList = l) :
    Holds E (expireLoop now l s) fun s' => Leads A X x (s.back j p) (s'.back j p) ∧ Expires s s' ∧
      ∀ t ∈ s'.waitLists s'.pWaitList, now < (s'.task t).jiffies := by
  induction l generalizing s with
  | nil =>
    refine ⟨.refl h, ⟨rfl, rfl⟩, fun t ht => ?_⟩
    rw [hl] at ht
    cases ht
  | cons t rest ih =>
    rw [expireLoop]
    split
    · refine (expireTask_leads h hA (hX t List.mem_cons_self) hl).bind fun s' hs' => ?_
      obtain ⟨hlead, hexp, hrest⟩ := hs'
      refine (ih (fun u hu => hX u (List.mem_cons_of_mem _ hu)) hlead.ok hrest).mono fun s'' hs'' => ?_
      exact ⟨hlead.trans hs''.1, ⟨hs''.2.1.jiffies.trans hexp.jiffies, hs''.2.1.list.trans hexp.list⟩,
        hs''.2.2⟩
    · rename_i hnot
      refine ⟨.refl h, ⟨rfl, rfl⟩, fun u hu => ?_⟩
      -- the list is in order, so the loop can stop at the first task that is not due
      have hsort : (s.waitLists s.pWaitList).Pairwise _ := h.core.time.deadlines.sorted s.pWaitList
      rw [hl] at hsort hu
      rcases List.mem_cons.mp hu with rfl | hu
      · exact Nat.lt_of_not_le hnot
      · exact Nat.lt_of_lt_of_le (Nat.lt_of_not_le hnot) ((List.pairwise_cons.mp hsort).1 u hu)

/-- Between critical sections. -/
abbrev Good (s : Kernel) : Prop := Ok ∅ none s

/-- What a critical section does. -/
abbrev Does (A : Act → Core → Prop) (s s' : Kernel) : Prop := Leads A ∅ none s s'

theorem expireWaitingTasks_does {now : Nat} (hA : Quiet A) (h : Good (s.back j p)) :
    Holds E (expireWaitingTasks now s) fun s' => Does A (s.back j p) (s'.back j p) ∧ Expires s s' ∧
      ∀ t ∈ s'.waitLists s'.pWaitList, now < (s'.task t).jiffies :=
  expireLoop_leads hA _ (fun _ _ => Set.notMem_empty _) h rfl

theorem Does.jiffies {n : Nat} (hA : Quiet A) (h : Good s) (hg : (Act.jiffies n).guard s.toCore) :
    Does A s { s with jiffies := n } :=
  .book h rfl rfl rfl rfl (hA _ _ rfl) hg rfl rfl rfl (h.core.jiffies hg)

theorem Does.swap (hA : Quiet A) (h : Good s) (hg : Act.swap.guard s.toCore) :
    Does A s { s with jiffies := 0, pWaitList := !s.pWaitList } :=
  .book h rfl rfl rfl rfl (hA _ _ rfl) hg rfl rfl rfl (h.core.swap hg)

theorem Does.pend (hA : Quiet A) (h : Good s) : Does A s { s with pendsv := true } :=
  .book (a := .pend) h rfl rfl rfl rfl (hA _ _ rfl) trivial rfl rfl rfl
    (h.core.congr rfl rfl rfl rfl rfl rfl rfl rfl rfl rfl rfl fun w he => by cases w <;> exact he)

theorem Does.skipped {n : Int} (hA : Quiet A) (h : Good s) :
    Does A s { s with jiffiesSkipped := n } :=
  .book (a := .skipped n) h rfl rfl rfl rfl (hA _ _ rfl) trivial rfl rfl rfl
    (h.core.congr rfl rfl rfl rfl rfl rfl rfl rfl rfl rfl rfl fun w he => by cases w <;> exact he)

theorem Does.lock {a : AtomicSem} (h : Good s) (hA : A (.lock a) s.toCore) (hl : a.LockRange) :
    Does A s { s with schedLock := a } :=
  .book h rfl rfl rfl rfl hA hl rfl rfl rfl
    (h.core.congr rfl rfl rfl rfl rfl rfl rfl rfl rfl rfl rfl fun w he => by cases w <;> exact he)

theorem Does.yieldPending {b : Bool} (hA : Quiet A) (h : Good s) :
    Does A s { s with yieldPending := b } :=
  .book (a := .yieldPending b) h rfl rfl rfl rfl (hA _ _ rfl) trivial rfl rfl rfl
    (h.core.congr rfl rfl rfl rfl rfl rfl rfl rfl rfl rfl rfl fun w he => by cases w <;> exact he)

theorem Does.current (hA : Quiet A) (h : Good s) (hr : s.schrun = false)
    (ht : (s.task t).state = .ready) (hlt : t < s.ntask) : Does A s { s with currp := t } := by
  have hg : (Act.current t).guard s.toCore := ⟨hr, hlt, ht⟩
  exact .book h rfl rfl rfl rfl (hA _ _ rfl) hg rfl rfl rfl (h.core.current hg)

/-- Before the scheduler runs no task has a timeout. -/
theorem Good.stopped {n : Nat} (h : Good s) (hr : s.schrun = false) (hn : n < tickMod) :
    (Act.jiffies n).guard s.toCore := by
  have hnil := h.core.time.deadlines.stopped hr
  refine ⟨hn, fun t ht => ?_, fun t ht => ?_⟩ <;> rw [hnil] at ht <;> cases ht

section

variable (hA : Quiet A)

include hA

/-- The tick counter goes on to `n`, without a wrap. -/
theorem expireIfRunning_does {n : Nat} (h : Good s) (hle : s.jiffies ≤ n) (hn : n < tickMod) :
    Holds E (expireIfRunning n { s with jiffies := n }) fun s' => Does A s s' ∧ s'.jiffies = n := by
  unfold expireIfRunning
  by_cases hr : s.schrun = true
  · rw [if_pos hr]
    refine (expireWaitingTasks_does (s := { s with jiffies := n })
      hA h).mono fun s' hs' => ?_
    obtain ⟨hd, hexp, hdue⟩ := hs'
    have hj : s'.jiffies = n := hexp.jiffies
    have hp : s'.pWaitList = s.pWaitList := hexp.list
    have hd' : Does A s (s'.back s.jiffies s.pWaitList) := hd
    have hg : (Act.jiffies n).guard (s'.back s.jiffies s.pWaitList).toCore := by
      refine ⟨hn, fun t ht => hdue t ?_, fun t ht => ?_⟩
      · rw [hp]
        exact ht
      · exact Nat.lt_of_lt_of_le (hd'.ok.core.time.deadlines.later t ht) hle
    have hback : ({ s'.back s.jiffies s.pWaitList with jiffies := n } : Kernel) = s' := by
      rw [← hj, ← hp]
      rfl
    exact ⟨hback ▸ hd'.trans (Does.jiffies hA hd'.ok hg), hj⟩
  · rw [if_neg hr]
    exact ⟨Does.jiffies hA h (h.stopped (by simpa using hr) hn), rfl⟩

theorem reachWrap_does (h : Good s) :
    Holds E (reachWrap (timeMaxTick - s.jiffies + 1) s) fun s' => Does A s s' ∧ s'.jiffies = timeMaxTick := by
  have htick := h.core.time.deadlines.tick
  have hle : s.jiffies ≤ timeMaxTick := by
    simp only [timeMaxTick, tickMod] at *
    omega
  unfold reachWrap
  by_cases hmore : 1 < timeMaxTick - s.jiffies + 1
  · have hlast : toTick (s.jiffies + (timeMaxTick - s.jiffies + 1 - 1)) = timeMaxTick := by
      simp only [toTick, timeMaxTick, tickMod] at *
      omega
    rw [if_pos hmore, hlast]
    exact expireIfRunning_does hA h hle (by decide)
  · rw [if_neg hmore]
    exact ⟨.refl h, by omega⟩

theorem passWrap_does (h : Good s) (hj : s.jiffies = timeMaxTick) :
    Holds E (passWrap s) (Does A s) := by
  have hzero : toTick (s.jiffies + 1) = 0 := by
    rw [hj]
    rfl
  unfold passWrap
  simp only [hzero]
  by_cases hr : s.schrun = true
  · rw [if_pos hr]
    refine (expireWaitingTasks_does (s := { s with jiffies := 0, pWaitList := !s.pWaitList })
      hA h).mono fun s' hs' => ?_
    obtain ⟨hd, hexp, hdue⟩ := hs'
    have hj' : s'.jiffies = 0 := hexp.jiffies
    have hp : s'.pWaitList = !s.pWaitList := hexp.list
    have hd' : Does A s (s'.back s.jiffies s.pWaitList) := hd
    have hg : Act.swap.guard (s'.back s.jiffies s.pWaitList).toCore := by
      refine ⟨List.eq_nil_iff_forall_not_mem.mpr fun t ht => ?_, fun t ht => hdue t ?_⟩
      · -- a deadline on the old list would be after the last tick
        have hlt : s.jiffies < (s'.task t).jiffies := hd'.ok.core.time.deadlines.current t ht
        have hmax := hd'.ok.core.time.deadlines.lt _ t ht
        have hmax' : (s'.task t).jiffies < tickMod := hmax
        rw [hj] at hlt
        simp only [timeMaxTick, tickMod] at *
        omega
      · rw [hp]
        exact ht
    have hback : ({ s'.back s.jiffies s.pWaitList with
        jiffies := 0, pWaitList := !(s'.back s.jiffies s.pWaitList).pWaitList } : Kernel) = s' := by
      show ({ s' with jiffies := 0, pWaitList := !s.pWaitList } : Kernel) = s'
      rw [← hj', ← hp]
    exact hback ▸ hd'.trans (Does.swap hA hd'.ok hg)
  · rw [if_neg hr]
    exact Does.jiffies hA h (h.stopped (by simpa using hr) (by decide : 0 < tickMod))

theorem crossWrap_does (h : Good s) :
    Holds E (crossWrap (timeMaxTick - s.jiffies + 1) s) (Does A s) :=
  (reachWrap_does hA h).bind fun _ h₁ => (passWrap_does hA h₁.1.ok h₁.2).mono fun _ => h₁.1.trans

theorem advanceLoop_does (fuel ticks : Nat) (h : Good s) :
    Holds E (advanceLoop fuel ticks s) (Does A s) := by
  induction fuel generalizing s ticks with
  | zero => exact .refl h
  | succ fuel ih =>
    rw [advanceLoop]
    split
    · exact .refl h
    · simp only
      split
      · rename_i hlt
        have htick := h.core.time.deadlines.tick
        have hsum : toTick (s.jiffies + ticks) = s.jiffies + ticks := by
          simp only [toTick, timeMaxTick, tickMod] at *
          omega
        rw [hsum]
        refine (expireIfRunning_does hA h (Nat.le_add_right _ _) ?_).mono fun _ hs => hs.1
        simp only [timeMaxTick, tickMod] at *
        omega
      · exact (crossWrap_does hA h).bind fun s₁ h₁ => (ih _ h₁.ok).mono fun _ => h₁.trans

theorem accountTicks_does {ticks : Nat} (h : Good s) :
    Holds E (accountTicks ticks s) (Does A s) := by
  unfold accountTicks
  split
  · exact Does.skipped hA h
  · exact advanceLoop_does hA _ _ h

theorem catchUpMissedTicks_does {elapsed : Nat} (h : Good s) :
    Holds E (catchUpMissedTicks elapsed s) (Does A s) := by
  unfold catchUpMissedTicks
  split
  · exact .refl h
  · exact accountTicks_does hA h

/-! ## the decision to reschedule -/

theorem isixYield_does (h : Good s) : Does A s (isixYield s) := by
  unfold isixYield
  split
  · exact Does.pend hA h
  · exact .refl h

theorem advanceSkipped_does (h : Good s) :
    Holds E (advanceSkipped s) (Does A s) := by
  have h₁ := Does.skipped hA h (n := 0)
  unfold advanceSkipped
  simp only
  split
  · exact (advanceLoop_does hA _ _ h₁.ok).mono fun _ => h₁.trans
  · exact h₁

theorem yieldIfPending_does (h : Good s) : Does A s (yieldIfPending s) := by
  unfold yieldIfPending
  split
  · have h₁ := Does.pend hA h
    exact h₁.trans (Does.yieldPending hA h₁.ok)
  · exact .refl h

theorem isixpUnlockScheduler_does (hL : ∀ a c, A (.lock a) c) (h : Good s)
    (hl : s.schedLock.dec.LockRange) : Holds E (isixpUnlockScheduler s) (Does A s) := by
  have h₁ := Does.lock h (hL s.schedLock.dec _) hl
  have hpos := hl.1
  unfold isixpUnlockScheduler
  simp only
  rw [if_neg (by omega)]
  split
  · refine (advanceSkipped_does hA h₁.ok).bind fun s₂ h₂ => ?_
    have h₃ := h₁.trans h₂
    exact h₃.trans (yieldIfPending_does hA h₃.ok)
  · exact h₁

theorem isixpDoReschedule_does (h : Good s) (ht : (s.task t).state = .ready ∨ t = s.currp)
    (hlt : t < s.ntask) : Does A s (isixpDoReschedule t s) := by
  unfold isixpDoReschedule
  split
  · split
    · exact Does.pend hA h
    · rename_i hr
      rcases ht with ht | rfl
      · exact Does.current hA h (by simpa using hr) ht hlt
      · exact .refl h
  · exact .refl h

theorem isixpExitCriticalIsr_does {woken : Option TaskId} {elapsed : Nat} (h : Good s) :
    Holds E (isixpExitCriticalIsr woken elapsed s) (Does A s) := by
  cases woken with
  | none => exact .refl h
  | some w =>
    refine (catchUpMissedTicks_does hA h).bind fun s₁ h₁ => ?_
    split
    · exact h₁.trans (Does.pend hA h₁.ok)
    · exact h₁

theorem leaveCritical_does {ctx : Context} {woken : Option TaskId} (h : Good s)
    (hw : ∀ w, woken = some w → ((s.task w).state = .ready ∨ w = s.currp) ∧ w < s.ntask) :
    Holds E (leaveCritical ctx woken s) (Does A s) := by
  cases ctx with
  | none =>
    cases woken with
    | none => exact .refl h
    | some w => exact isixpDoReschedule_does hA h (hw w rfl).1 (hw w rfl).2
  | some elapsed => exact isixpExitCriticalIsr_does hA h

end

end Isix
