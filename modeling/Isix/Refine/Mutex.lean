import Isix.Effect
import Isix.Refine.Wake

/-!
# Isix.Refine.Mutex

The services of `Isix.Mutex` as paths of actions.  The only panics left are
those of a mutex whose 32-bit lock counter was driven over its range.
-/

namespace Isix

open Function (update update_eq_self)
open Kernel Outcome

/-- The panics of a lock counter that is not positive. -/
def CountPanic (p : Panic) : Prop :=
  p = .mutexCounterNotPositive ∨ p = .invalidMtxLockCount ∨ p = .mutexNotPositive

/-! ## equations -/

variable {s s' : Kernel} {t : TaskId} {m : MtxId}

theorem toCore_mutexDeleteIfAssigned (s : Kernel) (m : MtxId) :
    (s.mutexDeleteIfAssigned m).toCore = s.toCore.unlinkMutex m := by
  unfold mutexDeleteIfAssigned Core.unlinkMutex
  cases hi : (s.mutex m).inode with
  | none =>
    have : (s.toCore.withMutex m fun x => { x with inode := none }) = s.toCore := by
      have hself : ({ s.mutex m with inode := none } : Mutex) = s.mutex m := by rw [← hi]
      show ({ s.toCore with mutex := update s.mutex m { s.mutex m with inode := none } } : Core) = _
      rw [hself, update_eq_self]
    rw [this]
  | some o => rfl

variable {c : Core}

theorem Core.withMutex_congr {f g : Mutex → Mutex}
    (h : f (c.mutex m) = g (c.mutex m)) : c.withMutex m f = c.withMutex m g := by
  unfold withMutex
  rw [h]

theorem Kernel.toCore_withMutex (f : Mutex → Mutex) :
    (s.withMutex m f).toCore = s.toCore.withMutex m f := rfl

variable {o : TaskId}

theorem mutexDeleteIfAssigned_of_some (hi : (s.mutex m).inode = some o) :
    s.mutexDelete m = .ok (s.mutexDeleteIfAssigned m) := by
  unfold mutexDelete mutexDeleteIfAssigned
  rw [hi]

theorem Core.unlinkMutex_owned (u : TaskId) :
    ∃ l, (c.unlinkMutex m).task u = { c.task u with ownedMutexes := l } := by
  rw [unlinkMutex_task]
  split
  · exact ⟨_, rfl⟩
  · exact ⟨_, rfl⟩

theorem Act.handover_task {u : TaskId} (hu : u ≠ t) :
    ((Act.handover m t).apply c).task u = (c.unlinkMutex m).task u := by
  rw [Core.unlinkMutex_task]
  simp only [Act.apply, Core.makeReady, Core.untime, Core.linkMutex, Core.withTask, Core.withMutex,
    Function.update_of_ne hu]
  rw [Core.unlinkMutex_task]
  simp [Core.dequeue]

theorem Act.handover_ntask : ((Act.handover m t).apply c).ntask = c.ntask := by
  simp only [Act.apply, Core.makeReady, Core.untime, Core.linkMutex, Core.unlinkMutex, Core.dequeue,
    Core.withTask, Core.withMutex]

/-- The mutex `m` left the list of its owner `o`. -/
structure Released (m : MtxId) (o : TaskId) (s s' : Kernel) : Prop where
  owned : (s'.task o).ownedMutexes = (s.task o).ownedMutexes.erase m
  self : (s'.task o).state = (s.task o).state
  active : ∀ u, (s.task u).state.active → (s'.task u).state = (s.task u).state
  currp : s'.currp = s.currp
  schrun : s'.schrun = s.schrun
  ntask : s'.ntask = s.ntask

theorem Released.woken {o u : TaskId} (h : Released m o s s') (hu : Woken s u) : Woken s' u := by
  refine ⟨?_, h.ntask ▸ hu.2⟩
  rw [h.active u (by rw [hu.1]; rfl)]
  exact hu.1

theorem Released.of_unlink (hin : (s.mutex m).inode = some o) (P : TaskId → Prop)
    (hact : ∀ u, (s.task u).state.active → P u) (ho : P o)
    (ht : ∀ u, P u → s'.task u = (s.toCore.unlinkMutex m).task u) (hc : s'.currp = s.currp)
    (hr : s'.schrun = s.schrun) (hn : s'.ntask = s.ntask) : Released m o s s' := by
  refine ⟨?_, ?_, ?_, hc, hr, hn⟩
  · rw [ht o ho, Core.unlinkMutex_task, if_pos hin]
  · obtain ⟨l, hl⟩ := Core.unlinkMutex_owned o
    rw [ht o ho, hl]
  · intro u hu
    obtain ⟨l, hl⟩ := Core.unlinkMutex_owned u
    rw [ht u (hact u hu), hl]

variable {p : Nat}

theorem Act.evict_of_ne {u : TaskId} (hu : u ≠ t) :
    ((Act.evict m t p).apply c).task u = c.task u := by
  simp [Act.apply, Core.makeReady, Core.untime, Core.dequeue, Core.withTask, hu]

theorem raisedBy_le {n : Nat} (h : ∀ t, (s.task t).prio ≤ n) (l : List MtxId)
    (hp : p ≤ n) : l.foldl (raisedBy s) p ≤ n := by
  induction l generalizing p with
  | nil => exact hp
  | cons m l ih =>
    rw [List.foldl_cons]
    refine ih ?_
    unfold raisedBy
    split
    · exact hp
    · split
      · exact h _
      · exact hp

/-- What a change of priority leaves alone. -/
structure Repriced (t : TaskId) (s s' : Kernel) : Prop where
  state : ∀ u, (s'.task u).state = (s.task u).state ∨
    (s.task u).state.active ∧ (s'.task u).state = .ready
  owned : ∀ u, (s'.task u).ownedMutexes = (s.task u).ownedMutexes
  other : ∀ u, u ≠ t → s'.task u = s.task u
  mutex : s'.mutex = s.mutex
  lists : (s.task t).state.active → s'.lists = s.lists
  mem : ∀ u w, u ∈ s'.lists w ↔ u ∈ s.lists w
  currp : s'.currp = s.currp
  schrun : s'.schrun = s.schrun
  ntask : s'.ntask = s.ntask
  nmtx : s'.nmtx = s.nmtx

/-- A change of priority writes to one task and to the lists. -/
theorem Act.reprio_shape : ∃ l, (Act.reprio t p).apply c =
    { c.withTask t (fun x => { x with prio := p, state := if x.state.active then .ready else x.state })
      with lists := l } := by
  rw [Act.apply_reprio]
  unfold Core.enqueue?
  split
  · exact ⟨_, rfl⟩
  · exact ⟨_, rfl⟩

theorem Core.enqueue?_task {w : Option WaitHead} : (c.enqueue? t w).task = c.task := by
  unfold enqueue?
  split <;> rfl

theorem Act.reprio_self : ((Act.reprio t p).apply c).task t =
    { c.task t with prio := p, state := if (c.task t).state.active then .ready else (c.task t).state } := by
  rw [Act.apply_reprio, Core.enqueue?_task, Core.withTask_self]
  rfl

theorem Act.reprio_of_ne {u : TaskId} (hu : u ≠ t) :
    ((Act.reprio t p).apply c).task u = c.task u := by
  rw [Act.apply_reprio, Core.enqueue?_task, Core.withTask_of_ne _ _ hu]
  rfl

theorem Act.reprio_lists_of_active (ha : (c.task t).state.active) :
    ((Act.reprio t p).apply c).lists = c.lists := by
  have hh : Core.prioHead (c.task t) = none := by
    unfold Core.prioHead
    cases hs : (c.task t).state <;> simp_all [ThrState.active]
  rw [Act.apply_reprio_none hh]
  rfl

/-- Requeueing a waiter permutes its list. -/
theorem Act.reprio_mem {w : Option WaitHead} (hs : Sits t w c) (u : TaskId)
    (w' : WaitHead) : u ∈ ((Act.reprio t p).apply c).lists w' ↔ u ∈ c.lists w' := by
  rw [Act.apply_reprio, prioHead_of_waits hs.waits]
  cases hf : w.filter WaitHead.byPrio with
  | none => exact Iff.rfl
  | some w₁ =>
    obtain ⟨rfl, hb⟩ := Option.filter_eq_some_iff.mp hf
    by_cases hw : w' = w₁
    · subst hw
      have ht := mem_of_sits hs
      have hmem : u ∈ ((((c.dequeue? t (some w')).withTask t fun x =>
          { x with prio := p, state := if x.state.active then .ready else x.state }).enqueue? t
            (some w')).lists w') ↔ u = t ∨ u ∈ (c.lists w').erase t := by
        simp [Core.enqueue?, Core.enqueue, hb, Core.dequeue?, Core.withTask]
      rw [hmem]
      constructor
      · rintro (rfl | hu)
        · exact ht
        · exact List.mem_of_mem_erase hu
      · intro hu
        by_cases hut : u = t
        · exact .inl hut
        · exact .inr ((List.mem_erase_of_ne hut).mpr hu)
    · simp [Core.enqueue?, Core.enqueue, Core.dequeue?, Core.withTask, hw]

theorem Repriced.refl : Repriced t s s :=
  ⟨fun _ => .inl rfl, fun _ => rfl, fun _ _ => rfl, rfl, fun _ => rfl, fun _ _ => Iff.rfl, rfl, rfl, rfl,
    rfl⟩

theorem Repriced.of_eq {w : Option WaitHead} (hs : Sits t w s.toCore)
    (hc : s'.toCore = (Act.reprio t p).apply s.toCore) : Repriced t s s' := by
  have hself : s'.task t = _ := (congrArg (fun c => c.task t) hc).trans Act.reprio_self
  have hother : ∀ u, u ≠ t → s'.task u = s.task u := fun u hu =>
    (congrArg (fun c => c.task u) hc).trans (Act.reprio_of_ne hu)
  obtain ⟨l, hl⟩ := Act.reprio_shape (c := s.toCore) (t := t) (p := p)
  refine ⟨?_, ?_, hother, ?_, ?_, ?_, ?_, ?_, ?_, ?_⟩
  · intro u
    by_cases hu : u = t
    · subst hu
      rw [hself]
      show (if (s.task u).state.active then ThrState.ready else (s.task u).state) = (s.task u).state ∨
        (s.task u).state.active ∧
          (if (s.task u).state.active then ThrState.ready else (s.task u).state) = .ready
      by_cases ha : (s.task u).state.active
      · exact .inr ⟨ha, if_pos ha⟩
      · exact .inl (if_neg ha)
    · exact .inl (by rw [hother u hu])
  · intro u
    by_cases hu : u = t
    · subst hu
      rw [hself]
    · rw [hother u hu]
  · rw [hc, hl]
    rfl
  · intro ha
    rw [hc]
    exact Act.reprio_lists_of_active ha
  · intro u w'
    rw [hc]
    exact Act.reprio_mem hs u w'
  all_goals
    rw [hc, hl]
    rfl

theorem Repriced.woken {u : TaskId} (h : Repriced t s s') (hu : Woken s u) : Woken s' u := by
  refine ⟨?_, h.ntask ▸ hu.2⟩
  rcases h.state u with hs | hs
  · rw [hs]
    exact hu.1
  · exact hs.2

variable [Config] {X : Set TaskId} {E : Panic → Prop} {A : Act → Core → Prop} {x : Option MtxId}

theorem calcInheritedPriority_le (h : CoreInv x s.toCore) :
    calcInheritedPriority t s ≤ Config.numberOfPriorities :=
  raisedBy_le h.task.prio_le _ (h.task.realPrio_le t)

/-! ## links -/

theorem Wired.withMutex {f : Mutex → Mutex} (h : Wired X s) : Wired X (s.withMutex m f) :=
  h.congr rfl rfl rfl rfl (Nat.le_refl _) (fun _ _ _ => rfl) fun _ _ => id

theorem Wired.mutexDeleteIfAssigned (h : Wired X s) : Wired X (s.mutexDeleteIfAssigned m) := by
  unfold Kernel.mutexDeleteIfAssigned
  cases (s.mutex m).inode with
  | none => exact h
  | some o => exact h.withMutex.write_quiet rfl rfl rfl

theorem Wired.linkMutex (h : Wired X s) : Wired X (s.linkMutex m o) :=
  h.withMutex.write_quiet rfl rfl rfl

/-! ## priorities -/

theorem isixpReallocatePriority_leads (h : Ok X x s) (ht : t ∉ X) (hlt : t < s.ntask)
    (hp : p ≤ Config.numberOfPriorities) (hx : ∀ m, x = some m → t ∉ s.lists (.mtx m))
    (hA : A (.reprio t p) s.toCore) :
    Holds E (isixpReallocatePriority t p s) fun s' => Leads A X x s s' ∧ Repriced t s s' := by
  refine (isixpReallocatePriority_spec h.wired ht hlt hp).mono fun s' hs' => ?_
  have hsit := h.wired.sits ht hlt
  have hg : (Act.reprio t p).guard s.toCore := ⟨⟨_, hsit⟩, hp⟩
  exact ⟨.act hs'.1 (h.core.reprio hg hx) hs'.2 hA hg, .of_eq hsit hs'.2⟩

theorem recalcPriority_leads (h : Ok X x s) (ht : t ∉ X) (hlt : t < s.ntask)
    (hx : ∀ m, x = some m → t ∉ s.lists (.mtx m)) (hA : ∀ p c, A (.reprio t p) c) :
    Holds E (recalcPriority t s) fun s' => Leads A X x s s' ∧ Repriced t s s' := by
  unfold recalcPriority
  simp only
  split
  · exact isixpReallocatePriority_leads h ht hlt (calcInheritedPriority_le h.core) hx (hA _ _)
  · exact ⟨.refl h, .refl⟩

/-- Only a created task owns a mutex. -/
theorem CoreInv.owner_lt (h : CoreInv none c)
    (ho : (c.mutex m).owner = some o) : o < c.ntask :=
  lt_of_inode h.task h.mutex (by rw [← h.mutex.owner m (by simp), ho])

theorem isixpMutexWaiterRemoved_leads (h : Ok X none s) (hX : ∀ o, (s.mutex m).owner = some o → o ∉ X)
    (hA : ∀ t p c, A (.reprio t p) c) :
    Holds E (isixpMutexWaiterRemoved m s) fun s' =>
      Leads A X none s s' ∧ ∃ o, Repriced o s s' ∧ ((s.mutex m).owner = some o ∨ s' = s) := by
  unfold isixpMutexWaiterRemoved
  cases ho : (s.mutex m).owner with
  | none => exact ⟨.refl h, idle, .refl, .inr rfl⟩
  | some o =>
    refine (recalcPriority_leads h (hX o ho) (h.core.owner_lt ho) (by simp) (hA o)).mono
      fun s' hs' => ⟨hs'.1, o, hs'.2, .inl rfl⟩

/-! ## taking a mutex -/

/-- The actions on the mutex `m` of the task that holds it, or wants it. -/
structure MutexOk (A : Act → Core → Prop) (m : MtxId) : Prop where
  own : ∀ c, A (.own m) c
  count : ∀ n c, A (.count m n) c
  sleep : ∀ c, A (.sleep (.mutex m)) c
  reprio : ∀ t p c, A (.reprio t p) c

theorem Does.count {n : Int} (h : Good s) (ho : (s.mutex m).owner = some s.currp)
    (hA : A (.count m n) s.toCore) : Does A s (s.withMutex m fun x => { x with count := n }) := by
  have hg : (Act.count m n).guard s.toCore := ho
  exact .book h rfl rfl rfl rfl hA hg rfl rfl rfl (h.core.count hg)

theorem setOwnershipToCurrent_does (h : Good s) (hcall : Caller s) (ho : (s.mutex m).owner = none)
    (hm : m < s.nmtx) (hA : A (.own m) s.toCore) :
    Holds E (setOwnershipToCurrent m s) (Does A s) := by
  have hcount := (h.core.mutex.unowned m (by simp) ho).1
  have hg : (Act.own m).guard s.toCore := ⟨ho, hm, hcall.active⟩
  unfold setOwnershipToCurrent
  rw [if_neg (by rw [hcount]; simp)]
  exact .act h.wired.withMutex.linkMutex (h.core.own hg) rfl hA hg

section

variable (hE : ∀ p, CountPanic p → E p)

include hE

theorem mutexLockBody_replies (hQ : Quiet A) (hA : MutexOk A m)
    (h : Good s) (hcall : Caller s) (hm : m < s.nmtx) :
    Holds E (mutexLockBody m s) (Replies A s) := by
  unfold mutexLockBody
  cases ho : (s.mutex m).owner with
  | none =>
    exact (setOwnershipToCurrent_does h hcall ho hm (hA.own _)).bind fun s₁ h₁ => .of_does h₁
  | some owner =>
    simp only
    split
    · exact hE _ (.inl rfl)
    · split
      · rename_i heq
        exact .of_does (Does.count h (by rw [ho, heq]) (hA.count _ _))
      · rename_i hne
        have hlt := h.core.owner_lt ho
        have hboost : Holds E (boostOwner owner s) fun s' => Does A s s' ∧ Repriced owner s s' := by
          unfold boostOwner
          split
          · exact isixpReallocatePriority_leads h (Set.notMem_empty _) hlt (h.core.task.prio_le _)
              (by simp) (hA.reprio _ _ _)
          · exact ⟨.refl h, .refl⟩
        refine hboost.bind fun s₁ hs₁ => ?_
        obtain ⟨h₁, hr⟩ := hs₁
        have hcur : s₁.task s₁.currp = s.task s.currp := by
          rw [hr.currp]
          exact hr.other _ (Ne.symm hne)
        have hcall₁ : Caller s₁ := by
          refine ⟨?_, ?_⟩
          · rw [hcur]
            exact hcall.active
          · rw [hr.schrun, hr.currp]
            exact hcall.not_idle
        have hs := sleep_spec (E := E) (.mutex m) rfl
          (f := fun y => { y with waitAborted := false })
          (g := fun y => { y with obj := .mtx m, frame := .mutexLock m }) h₁.ok hcall₁.active
          (fun _ => rfl) (fun _ => ⟨rfl, rfl⟩) (fun _ => ⟨rfl, rfl⟩) fun _ _ _ => rfl
        rw [show (Sleep.mutex m).timeout = timeInfinite from rfl, isixpSetSleepTimeout_infinite] at hs
        refine hs.bind fun s₂ hs₂ => .blocked fun hrun => ?_
        obtain ⟨hw, hc⟩ := hs₂ _ (.inl ⟨rfl, rfl⟩)
        have hvalid : (Sleep.mutex m).valid s₁.toCore := by
          refine ⟨hr.nmtx ▸ hm, owner, ?_, ?_⟩
          · rw [hr.mutex]
            exact ho
          · rw [hr.currp]
            exact hne
        have h₂ := h₁.trans (Does.sleep h₁.ok hcall₁ (hr.schrun.trans hrun) (hA.sleep _) hvalid hw hc)
        exact h₂.trans (isixYield_does hQ h₂.ok)

theorem isixMutexLock_replies {mutex : Option MtxId} (hQ : Quiet A)
    (hA : ∀ m, mutex = some m → MutexOk A m) (h : Good s) (hcall : Caller s)
    (hm : ∀ m, mutex = some m → m < s.nmtx) : Holds E (isixMutexLock mutex s) (Replies A s) := by
  cases mutex with
  | none => exact .of_does (.refl h)
  | some m => exact mutexLockBody_replies hE hQ (hA m rfl) h hcall (hm m rfl)

theorem isixMutexTrylock_does {mutex : Option MtxId}
    (hO : ∀ m c, mutex = some m → A (.own m) c) (hC : ∀ m n c, mutex = some m → A (.count m n) c)
    (h : Good s) (hcall : Caller s) (hm : ∀ m, mutex = some m → m < s.nmtx) :
    Holds E (isixMutexTrylock mutex s) fun r => Does A s r.1 := by
  unfold isixMutexTrylock
  cases mutex with
  | none => exact Leads.refl h
  | some m =>
    simp only
    cases ho : (s.mutex m).owner with
    | none =>
      exact (setOwnershipToCurrent_does h hcall ho (hm m rfl) (hO m _ rfl)).bind
        fun s₁ h₁ => h₁
    | some owner =>
      simp only
      split
      · exact hE _ (.inr (.inl rfl))
      · split
        · rename_i heq
          exact Does.count h (by rw [ho, heq]) (hC m _ _ rfl)
        · exact Leads.refl h

end

/-! ## giving up a mutex -/

/-- The actions of the services that take the mutexes `M` from their owner `o`. -/
structure ReleaseOk (A : Act → Core → Prop) (o : TaskId) (M : MtxId → Prop) : Prop where
  free : ∀ m c, M m → (c.mutex m).owner = some o → A (.free m) c
  strip : ∀ m c, M m → (c.mutex m).owner = some o → A (.strip m false) c
  handover : ∀ m t c, M m → (c.mutex m).owner = some o → A (.handover m t) c
  reprio : ∀ t p c, A (.reprio t p) c

theorem transfer_spec {l : List TaskId} (h : Wired X s) (hl : s.lists (.mtx m) = t :: l) :
    ∃ s₁, transferMtxOwnershipToNextWaitingTask m s = .ok (s₁, t) ∧ Wired (insert t X) s₁ ∧
      s₁.toCore = (((s.toCore.withMutex m fun x => { x with count := 1, owner := some t }).dequeue t
        (.mtx m)).unlinkMutex m).linkMutex m t := by
  have hmem : t ∈ s.lists (.mtx m) := by
    rw [hl]
    exact List.mem_cons_self
  have h₁ : Wired X (s.withMutex m fun x => { x with count := 1, owner := some t }) := h.withMutex
  refine ⟨((((s.withMutex m fun x => { x with count := 1, owner := some t }).unlink t
    (.wait (.mtx m))).mutexDeleteIfAssigned m).linkMutex m t), ?_, ?_, ?_⟩
  · simp only [transferMtxOwnershipToNextWaitingTask, hl,
      h₁.listDelete_of_mem hmem, ok_bind]
    rfl
  · exact (h₁.unlinkWait (h.mem_lists.mp hmem)).mutexDeleteIfAssigned.linkMutex
  · show Core.linkMutex m t (Kernel.toCore (mutexDeleteIfAssigned m _)) = _
    rw [toCore_mutexDeleteIfAssigned]
    rfl

theorem handover_leads {l : List TaskId} (h : Ok X x s) (hx : x = none ∨ x = some m)
    (hl : s.lists (.mtx m) = t :: l) (hA : A (.handover m t) s.toCore) :
    ∃ s₁, transferMtxOwnershipToNextWaitingTask m s = .ok (s₁, t) ∧
      Holds E (wakeupTask t isixEok s₁) fun s' => Leads A X none s s' ∧ Woken s' t ∧
        s'.toCore = (Act.handover m t).apply s.toCore := by
  have hmem : t ∈ s.lists (.mtx m) := by
    rw [hl]
    exact List.mem_cons_self
  have hsit := h.wired.sits_of_mem hmem
  have hX : t ∉ X := fun hX => by
    have := h.wired.loose t hX
    rw [h.wired.mem_lists.mp hmem] at this
    cases this
  have hg : (Act.handover m t).guard s.toCore :=
    ⟨hsit, by rw [show s.toCore.lists (.mtx m) = t :: l from hl]; rfl⟩
  obtain ⟨s₁, htr, hw₁, hc₁⟩ := transfer_spec h.wired hl
  have htask : (s₁.task t).state = (s.task t).state ∧ (s₁.task t).prio = (s.task t).prio ∧
      s₁.ntask = s.ntask := by
    obtain ⟨l', hl'⟩ := Core.unlinkMutex_owned
      (c := (s.toCore.withMutex m fun x => { x with count := 1, owner := some t }).dequeue t (.mtx m)) t
    rw [hc₁, Core.linkMutex, Core.withTask_self]
    simp only [Core.dequeue, Core.withMutex, Core.unlinkMutex, Core.withTask] at hl' ⊢
    rw [hl']
    exact ⟨rfl, rfl, trivial⟩
  refine ⟨s₁, htr, ?_⟩
  refine (wakeupTask_spec hw₁ hX (htask.2.2 ▸ hsit.lt) (htask.2.1 ▸ h.core.task.prio_le t)
    (htask.1 ▸ not_ready_of_waits hsit.waits)
    (htask.1 ▸ not_zombie_of_waits hsit.waits (by simp))).mono fun s' hs' => ?_
  obtain ⟨hw', hc'⟩ := hs'
  have hc : s'.toCore = (Act.handover m t).apply s.toCore := by
    rw [hc', hc₁]
    rfl
  refine ⟨.act hw' (h.core.handover hx hg) hc hA hg, ⟨?_, ?_⟩, hc⟩
  · rw [hc']
    simp [Core.makeReady]
  · rw [hc, Act.handover_ntask]
    exact hsit.lt

/-- The inode of a mutex names its owner. -/
theorem Good.inode_of_owner (h : Good s) (ho : (s.mutex m).owner = some o) :
    (s.mutex m).inode = some o := by
  rw [← h.core.mutex.owner m (by simp), ho]

theorem Does.free {f : Mutex → Mutex} (h : Good s) (ho : (s.mutex m).owner ≠ none)
    (hl : s.lists (.mtx m) = []) (hA : A (.free m) s.toCore)
    (hf : f ((s.toCore.unlinkMutex m).mutex m) = { count := 0, owner := none, inode := none }) :
    Does A s ((s.mutexDeleteIfAssigned m).withMutex m f) := by
  have hg : (Act.free m).guard s.toCore := ⟨ho, hl⟩
  refine .act h.wired.mutexDeleteIfAssigned.withMutex (h.core.free hg) ?_ hA hg
  have hself : ((s.toCore.unlinkMutex m).mutex m).inode = none := by
    simp [Core.unlinkMutex, Core.withMutex]
  rw [Kernel.toCore_withMutex, toCore_mutexDeleteIfAssigned]
  refine Core.withMutex_congr (g := fun x => { x with count := 0, owner := none }) ?_
  rw [hf]
  rw [hself]

/-- A mutex with waiters leaves the list of its owner. -/
theorem Leads.strip (h : Good s) (ho : (s.mutex m).owner ≠ none) (hc : (s.mutex m).count = 0)
    (hA : A (.strip m false) s.toCore) : Leads A ∅ (some m) s (s.mutexDeleteIfAssigned m) := by
  have hg : (Act.strip m false).guard s.toCore := ho
  refine .act h.wired.mutexDeleteIfAssigned (h.core.strip hg) ?_ hA hg
  rw [toCore_mutexDeleteIfAssigned]
  show _ = (s.toCore.unlinkMutex m).withMutex m fun x => { x with count := 0, owner := x.owner }
  have hcount : ((s.toCore.unlinkMutex m).mutex m).count = 0 := by
    simpa [Core.unlinkMutex, Core.withMutex] using hc
  unfold Core.withMutex
  rw [← hcount, update_eq_self]

/-- A mutex that is released has another owner, or none. -/
theorem releaseMutex_spec {M : MtxId → Prop} (hQ : Quiet A) (hA : ReleaseOk A o M)
    (hM : M m) (h : Good s) (ho' : o = s.currp) (hcall : Caller s)
    (ho : (s.mutex m).owner = some s.currp) (hc : (s.mutex m).count = 0) :
    Holds E (releaseMutex m s) fun s' => Does A s s' ∧ (s'.mutex m).owner ≠ some s.currp := by
  subst ho'
  have hin := h.inode_of_owner ho
  have hmem : m ∈ (s.task s.currp).ownedMutexes := h.core.mutex.linked.mem_iff.mpr hin
  have hne : (s.mutex m).owner ≠ none := by simp [ho]
  have hcur : s.currp ∉ s.lists (.mtx m) := fun hw =>
    h.core.mutex.waiter_ne m (by simp) s.currp hw ho
  have hcore := toCore_mutexDeleteIfAssigned s m
  have hlists : (s.mutexDeleteIfAssigned m).lists = s.lists := by
    rw [hcore]
    rfl
  have hcurrp : (s.mutexDeleteIfAssigned m).currp = s.currp := by
    rw [hcore]
    rfl
  unfold releaseMutex
  rw [if_neg (not_not.mpr hmem), mutexDeleteIfAssigned_of_some hin, ok_bind, hlists]
  cases hl : s.lists (.mtx m) with
  | nil =>
    simp only [List.isEmpty_nil, if_true]
    refine ⟨Does.free h hne hl (hA.free m _ hM ho) ?_, by simp [Kernel.withMutex]⟩
    simp [Core.unlinkMutex, Core.withMutex, hc]
  | cons t l =>
    simp only [List.isEmpty_cons, Bool.false_eq_true, if_false]
    have h₁ := Leads.strip h hne hc (hA.strip m _ hM ho)
    have hact : ((s.mutexDeleteIfAssigned m).task s.currp).state.active := by
      obtain ⟨l', hl'⟩ := Core.unlinkMutex_owned s.currp
      rw [hcore, hl']
      exact hcall.active
    have hre := isixpReallocatePriority_leads (E := E) h₁.ok
      (Set.notMem_empty _) (by rw [hcore]; exact h.core.task.currp_lt)
      (calcInheritedPriority_le (t := s.currp) h₁.ok.core)
      (fun m' hm' => by cases hm'; rw [hlists]; exact hcur) (hA.reprio _ _ _)
    rw [hcurrp]
    refine hre.bind fun s₂ hs₂ => ?_
    obtain ⟨h₂, hr⟩ := hs₂
    have hl₂ : s₂.lists (.mtx m) = t :: l := by rw [hr.lists hact, hlists, hl]
    have ho₂ : (s₂.mutex m).owner = some s.currp := by
      rw [hr.mutex, hcore]
      simpa [Core.unlinkMutex, Core.withMutex] using ho
    obtain ⟨s₃, htr, hwake⟩ := handover_leads h₂.ok (.inr rfl) hl₂
      (hA.handover m t _ hM ho₂)
    rw [htr, ok_bind]
    refine hwake.bind fun s₄ hs₄ => ?_
    have h₄ := h₁.trans (h₂.trans hs₄.1)
    refine ⟨h₄.trans (isixpDoReschedule_does hQ h₄.ok (.inl hs₄.2.1.1) hs₄.2.1.2), ?_⟩
    have hnext : (s₄.mutex m).owner = some t := by
      rw [show s₄.mutex m = s₄.toCore.mutex m from rfl, hs₄.2.2, Act.mutex_apply]
      simp [Act.onMutex]
    have hmtx : (isixpDoReschedule t s₄).mutex = s₄.mutex := by
      rcases isixpDoReschedule_cases t s₄ with he | he | ⟨-, he⟩ <;> rw [he]
    rw [hmtx, hnext]
    rintro he
    cases he
    exact hcur (by rw [hl]; exact List.mem_cons_self)

theorem releaseMutex_does {M : MtxId → Prop} (hQ : Quiet A) (hA : ReleaseOk A o M)
    (hM : M m) (h : Good s) (ho' : o = s.currp) (hcall : Caller s)
    (ho : (s.mutex m).owner = some s.currp) (hc : (s.mutex m).count = 0) :
    Holds E (releaseMutex m s) (Does A s) :=
  (releaseMutex_spec hQ hA hM h ho' hcall ho hc).mono fun _ hs => hs.1

theorem isixMutexUnlock_does {mutex : Option MtxId} (hE : ∀ p, CountPanic p → E p) (hQ : Quiet A)
    (hR : ReleaseOk A s.currp fun m => mutex = some m)
    (hA : ∀ m n c, mutex = some m → A (.count m n) c) (h : Good s) (hcall : Caller s) :
    Holds E (isixMutexUnlock mutex s) fun r => Does A s r.1 := by
  unfold isixMutexUnlock
  cases mutex with
  | none => exact Leads.refl h
  | some m =>
    simp only
    cases ho : (s.mutex m).owner with
    | none => exact Leads.refl h
    | some owner =>
      simp only
      split
      · exact hE _ (.inr (.inr rfl))
      · split
        · exact Leads.refl h
        · rename_i hown
          have hcur : owner = s.currp := not_not.mp hown
          have h₁ := Does.count h (n := toInt32 ((s.mutex m).count - 1)) (by rw [ho, hcur]) (hA m _ _ rfl)
          split
          · rename_i hz
            refine (releaseMutex_does hQ hR rfl h₁.ok rfl ⟨hcall.active, hcall.not_idle⟩ ?_ hz).bind
              fun s₂ h₂ => h₁.trans h₂
            simp [Kernel.withMutex, ho, hcur]
          · exact h₁

/-! ## giving up all mutexes -/

theorem unlockOne_spec {wk : Option TaskId} (hA : ReleaseOk A o fun _ => True)
    (h : Good s) (hin : (s.mutex m).inode = some o) :
    Holds E (unlockOne (s, wk) m) fun r => Does A s r.1 ∧ Released m o s r.1 ∧
      ∀ u, r.2 = some u → wk = some u ∨ Woken r.1 u ∧ u ≠ o := by
  have ho : (s.mutex m).owner = some o := by rw [h.core.mutex.owner m (by simp), hin]
  unfold unlockOne
  cases hl : s.lists (.mtx m) with
  | nil =>
    simp only [hl, List.isEmpty_nil, if_true, mutexDeleteIfAssigned_of_some hin, ok_bind]
    have hfree := Does.free h (by simp [ho]) hl (hA.free m _ trivial ho)
      (f := fun x => { x with count := 0, owner := none }) (by simp [Core.unlinkMutex, Core.withMutex])
    refine ⟨hfree, ?_, fun u hu => .inl hu⟩
    have hcore := toCore_mutexDeleteIfAssigned s m
    refine .of_unlink hin (fun _ => True) (fun _ _ => trivial) trivial (fun u _ => ?_) ?_ ?_ ?_
    · rw [← hcore]
      rfl
    all_goals
      simp only [Kernel.withMutex, hcore, Core.unlinkMutex, Core.withMutex]
  | cons t l =>
    simp only [hl, List.isEmpty_cons, Bool.false_eq_true, if_false]
    obtain ⟨s₁, htr, hwake⟩ := handover_leads h (.inl rfl) hl
      (hA.handover m t _ trivial ho)
    rw [htr, ok_bind]
    refine hwake.bind fun s₂ hs₂ => ?_
    obtain ⟨h₂, hwk, hc⟩ := hs₂
    have hmem : t ∈ s.lists (.mtx m) := by
      rw [hl]
      exact List.mem_cons_self
    have hsit := h.wired.sits_of_mem hmem
    have hot : t ≠ o := by
      rintro rfl
      exact h.core.mutex.waiter_ne m (by simp) t hmem ho
    refine ⟨h₂, ?_, ?_⟩
    · refine .of_unlink hin (fun u => u ≠ t) ?_ hot.symm (fun u hu => ?_) ?_ ?_ ?_
      · rintro u hu rfl
        rw [not_active_of_waits hsit.waits] at hu
        cases hu
      · rw [hc]
        exact Act.handover_task hu
      all_goals
        rw [hc]
        simp only [Act.apply, Core.makeReady, Core.untime, Core.linkMutex, Core.unlinkMutex,
          Core.dequeue, Core.withTask, Core.withMutex]
    · intro u hu
      cases wk with
      | none =>
        cases hu
        exact .inr ⟨hwk, hot⟩
      | some w => exact .inl hu

/-- The state in the loop of `_isixp_mutex_unlock_all_in_task`; the mutexes `l`
are still to come. -/
structure Unlocking (A : Act → Core → Prop) (s : Kernel) (o : TaskId) (l : List MtxId)
    (r : Kernel × Option TaskId) : Prop where
  does : Does A s r.1
  owned : (r.1.task o).ownedMutexes = l
  woken : ∀ u, r.2 = some u → Woken r.1 u ∧ u ≠ o
  self : (r.1.task o).state = (s.task o).state
  active : ∀ u, (s.task u).state.active → (r.1.task u).state = (s.task u).state
  currp : r.1.currp = s.currp
  schrun : r.1.schrun = s.schrun
  ntask : r.1.ntask = s.ntask

theorem Unlocking.round {l : List MtxId} {r : Kernel × Option TaskId}
    (hA : ReleaseOk A o fun _ => True) (h : Unlocking A s o (m :: l) r) :
    Holds E (unlockOne r m) (Unlocking A s o l) := by
  obtain ⟨s₁, wk⟩ := r
  have hin : (s₁.mutex m).inode = some o := by
    have hmem : m ∈ (s₁.task o).ownedMutexes := by
      rw [h.owned]
      exact List.mem_cons_self
    exact h.does.ok.core.mutex.linked.mem_iff.mp hmem
  refine (unlockOne_spec hA h.does.ok hin).mono fun r hr => ?_
  obtain ⟨h₂, hrel, hwk⟩ := hr
  refine ⟨h.does.trans h₂, ?_, ?_, hrel.self.trans h.self, ?_, hrel.currp.trans h.currp,
    hrel.schrun.trans h.schrun, hrel.ntask.trans h.ntask⟩
  · rw [hrel.owned, h.owned, List.erase_cons_head]
  · intro u hu
    rcases hwk u hu with hw | hw
    · exact ⟨hrel.woken (h.woken u hw).1, (h.woken u hw).2⟩
    · exact hw
  · intro u hu
    have hu₁ := h.active u hu
    rw [hrel.active u (by rw [hu₁]; exact hu), hu₁]

theorem unlockAll_loop (hA : ReleaseOk A o fun _ => True) (h : Good s) :
    Holds E ((s.task o).ownedMutexes.foldlM unlockOne (s, none)) (Unlocking A s o []) := by
  refine Holds.foldlM _ ?_ fun m l r hr => hr.round hA
  exact ⟨.refl h, rfl, fun _ hu => (by cases hu), rfl, fun _ _ => rfl, rfl, rfl, rfl⟩

/-- What the release of all mutexes of `t` leaves alone. -/
structure Unlocked (t : TaskId) (s s' : Kernel) : Prop where
  owned : (s'.task t).ownedMutexes = []
  dead : (s.task t).state.dead = false → (s'.task t).state.dead = false
  currp : s'.currp = s.currp ∨ s.schrun = false ∧ s'.currp ≠ t
  schrun : s'.schrun = s.schrun
  ntask : s'.ntask = s.ntask

theorem isixpMutexUnlockAllInTask_does (hQ : Quiet A) (hA : ReleaseOk A t fun _ => True) (h : Good s) :
    Holds E (isixpMutexUnlockAllInTask t s) fun s' => Does A s s' ∧ Unlocked t s s' := by
  refine (unlockAll_loop hA h).bind fun r hr => ?_
  obtain ⟨s₁, wk⟩ := r
  have hrecalc : Holds E (recalcIfCurrent t s₁) fun s' => Does A s₁ s' ∧ Repriced t s₁ s' := by
    unfold recalcIfCurrent
    split
    · rename_i heq
      refine recalcPriority_leads hr.does.ok (Set.notMem_empty _) ?_ (by simp) (hA.reprio t)
      rw [heq]
      exact hr.does.ok.core.task.currp_lt
    · exact ⟨.refl hr.does.ok, .refl⟩
  refine hrecalc.bind fun s₂ hs₂ => ?_
  obtain ⟨h₂, hre⟩ := hs₂
  have h₁₂ := hr.does.trans h₂
  have hown : (s₂.task t).ownedMutexes = [] := (hre.owned t).trans hr.owned
  have hdead : (s.task t).state.dead = false → (s₂.task t).state.dead = false := by
    intro hd
    rcases hre.state t with hs | hs
    · rw [hs, hr.self]
      exact hd
    · rw [hs.2]
      rfl
  have hcur : s₂.currp = s.currp := hre.currp.trans hr.currp
  have hrun : s₂.schrun = s.schrun := hre.schrun.trans hr.schrun
  have hn : s₂.ntask = s.ntask := hre.ntask.trans hr.ntask
  cases wk with
  | none => exact ⟨h₁₂, hown, hdead, .inl hcur, hrun, hn⟩
  | some w =>
    obtain ⟨hwk, hne⟩ := hr.woken w rfl
    have hwk₂ := hre.woken hwk
    refine ⟨h₁₂.trans (isixpDoReschedule_does hQ h₁₂.ok (.inl hwk₂.1) hwk₂.2), ?_⟩
    rcases isixpDoReschedule_cases w s₂ with he | he | ⟨hf, he⟩
    · rw [he]
      exact ⟨hown, hdead, .inl hcur, hrun, hn⟩
    · rw [he]
      exact ⟨hown, hdead, .inl hcur, hrun, hn⟩
    · rw [he]
      exact ⟨hown, hdead, .inr ⟨hrun ▸ hf, hne⟩, hrun, hn⟩

/-! ## destroying a mutex -/

/-- The state in the loop of `isix_mutex_destroy`; the waiters `l` are still to
come. -/
structure Destroying (A : Act → Core → Prop) (x : Option MtxId) (m : MtxId) (s : Kernel)
    (l : List TaskId) (r : Kernel × Option TaskId) : Prop where
  leads : Leads A ∅ x s r.1
  list : r.1.lists (.mtx m) = l
  woken : ∀ u, r.2 = some u → Woken r.1 u
  mutex : r.1.mutex = s.mutex
  ntask : r.1.ntask = s.ntask

theorem Destroying.round {l : List TaskId} {r : Kernel × Option TaskId}
    (hA : ∀ t p c, A (.evict m t p) c) (h : Destroying A x m s (t :: l) r) :
    Holds E (destroyOne r t) (Destroying A x m s l) := by
  obtain ⟨s₁, wk⟩ := r
  have hok : Ok ∅ x s₁ := h.leads.ok
  have hlist : s₁.lists (.mtx m) = t :: l := h.list
  have ht : t ∈ s₁.lists (.mtx m) := by
    rw [hlist]
    exact List.mem_cons_self
  have hi := hok.wired.mem_lists.mp ht
  have hsit := hok.wired.sits_of_mem ht
  have hp : calcInheritedPriority t (s₁.unlink t (.wait (.mtx m))) ≤ Config.numberOfPriorities :=
    raisedBy_le (s := s₁.unlink t (.wait (.mtx m))) hok.core.task.prio_le _
      (hok.core.task.realPrio_le t)
  have hg : (Act.evict m t (calcInheritedPriority t (s₁.unlink t (.wait (.mtx m))))).guard s₁.toCore :=
    ⟨hsit, hp⟩
  have hw := (hok.wired.unlinkWait hi).write (g := fun x =>
    { x with prio := calcInheritedPriority t (s₁.unlink t (.wait (.mtx m))) }) (.inl rfl)
  have hself : ((s₁.unlink t (.wait (.mtx m))).withTask t fun x =>
      { x with prio := calcInheritedPriority t (s₁.unlink t (.wait (.mtx m))) }).task t =
      { s₁.task t with prio := calcInheritedPriority t (s₁.unlink t (.wait (.mtx m))) } := by
    simp [Kernel.withTask, Kernel.unlink]
  unfold destroyOne
  simp only [hok.wired.listDelete_of_mem ht, ok_bind]
  have hready : (s₁.task t).state ≠ .ready := not_ready_of_waits hsit.waits
  have hzombie : (s₁.task t).state ≠ .zombie := not_zombie_of_waits hsit.waits (by simp)
  refine (wakeupTask_spec hw (Set.notMem_empty _) hsit.lt (by rw [hself]; exact hp)
    (by rw [hself]; exact hready) (by rw [hself]; exact hzombie)).bind fun s₂ hs₂ => ?_
  obtain ⟨hw₂, hc⟩ := hs₂
  have hlead : Leads A ∅ x s₁ s₂ := .act hw₂ (hok.core.evict hg) hc (hA _ _ _) hg
  have hn : s₂.ntask = s₁.ntask := by
    rw [hc]
    rfl
  have hwk : Woken s₂ t := by
    refine ⟨?_, hn ▸ hsit.lt⟩
    rw [hc]
    simp [Core.makeReady]
  refine ⟨h.leads.trans hlead, ?_, ?_, ?_, hn.trans h.ntask⟩
  · rw [hc]
    show update s₁.lists (.mtx m) ((s₁.lists (.mtx m)).erase t) (.mtx m) = l
    rw [Function.update_self, hlist, List.erase_cons_head]
  · intro u hu
    cases wk with
    | none =>
      cases hu
      exact hwk
    | some w =>
      obtain ⟨hs, hlt⟩ := h.woken u hu
      have hut : u ≠ t := by
        rintro rfl
        exact not_ready_of_waits hsit.waits hs
      refine ⟨?_, hn ▸ hlt⟩
      rw [hc]
      exact (congrArg Task.state (Act.evict_of_ne hut)).trans hs
  · rw [hc]
    exact h.mutex

theorem disownMutex_leads (h : Good s) (hA : A (.strip m true) s.toCore) :
    Holds E (disownMutex m s) fun s' => ∃ x, Leads A ∅ x s s' ∧ (x = none ∨ x = some m ∧
      s'.mutex m = { count := 0, owner := none, inode := none }) ∧ s'.ntask = s.ntask := by
  unfold disownMutex
  cases ho : (s.mutex m).owner with
  | none => exact ⟨none, .refl h, .inl rfl, rfl⟩
  | some o =>
    have hg : (Act.strip m true).guard s.toCore := by
      show (s.mutex m).owner ≠ none
      simp [ho]
    have hcore := toCore_mutexDeleteIfAssigned s m
    simp only [mutexDeleteIfAssigned_of_some (h.inode_of_owner ho), ok_bind]
    refine ⟨some m, .act h.wired.mutexDeleteIfAssigned.withMutex
      (h.core.strip hg) ?_ hA hg, .inr ⟨rfl, ?_⟩, ?_⟩
    · rw [Kernel.toCore_withMutex, hcore]
      rfl
    · simp [Kernel.withMutex, hcore, Core.unlinkMutex, Core.withMutex]
    · simp only [Kernel.withMutex, hcore, Core.unlinkMutex, Core.withMutex]

theorem isixMutexDestroy_does {mutex : Option MtxId} (hQ : Quiet A)
    (hS : ∀ m c, mutex = some m → A (.strip m true) c) (hR : ∀ t p c, A (.reprio t p) c)
    (hA : ∀ m t p c, mutex = some m → A (.evict m t p) c) (h : Good s) :
    Holds E (isixMutexDestroy mutex s) fun r => Does A s r.1 := by
  cases mutex with
  | none => exact Leads.refl h
  | some m =>
    refine (disownMutex_leads h (hS m _ rfl)).bind fun s₁ hs₁ => ?_
    obtain ⟨x, h₁, hx, hn₁⟩ := hs₁
    have hloop := Holds.foldlM (P := E) (I := Destroying A x m s₁)
      (s₁.lists (.mtx m)) (b := (s₁, none))
      ⟨.refl h₁.ok, rfl, fun _ hu => (by cases hu), rfl, rfl⟩
      fun t l r hr => hr.round fun t p c => hA m t p c rfl
    refine hloop.bind fun r hr => ?_
    obtain ⟨s₂, wk⟩ := r
    have hgood : Good s₂ := by
      refine ⟨hr.leads.ok.wired, ?_⟩
      rcases hx with rfl | ⟨rfl, hm⟩
      · exact hr.leads.ok.core
      · have hmutex : s₂.mutex m = { count := 0, owner := none, inode := none } := by
          rw [show s₂.mutex = s₁.mutex from hr.mutex]
          exact hm
        exact CoreInv.of_rest hr.leads.ok.core.rest
          (hr.leads.ok.core.mutex.settle (by rw [hmutex]) (fun _ => ⟨by rw [hmutex], hr.list⟩) (by simp [hmutex]))
    have h₂ : Does A s s₂ := ⟨hgood, h₁.path.trans hr.leads.path⟩
    have hrecalc : Holds E (recalcOwner (s.mutex m).owner s₂) fun s' =>
        Does A s₂ s' ∧ ∃ o, Repriced o s₂ s' := by
      cases ho : (s.mutex m).owner with
      | none => exact ⟨.refl hgood, idle, .refl⟩
      | some o =>
        have hlt : o < s₂.ntask := by
          rw [show s₂.ntask = s.ntask from hr.ntask.trans hn₁]
          exact h.core.owner_lt ho
        exact (recalcPriority_leads hgood (Set.notMem_empty _) hlt (by simp) (hR o)).mono
          fun s' hs' => ⟨hs'.1, o, hs'.2⟩
    refine hrecalc.bind fun s₃ hs₃ => ?_
    obtain ⟨h₃, o, hre⟩ := hs₃
    refine (leaveCritical_does hQ h₃.ok fun w hw => ?_).bind fun s₄ h₄ => (h₂.trans h₃).trans h₄
    obtain ⟨hs, hlt⟩ := hre.woken (hr.woken w hw)
    exact ⟨.inl hs, hlt⟩

end Isix
