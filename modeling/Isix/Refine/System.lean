import Isix.Refine.Condvar
import Isix.Refine.Events
import Isix.Refine.Task
import Isix.Returns

/-!
# Isix.Refine.System

Every event of the system is a path of actions, and `Event.allows` says which:
a semaphore's counter is changed by the services called on that semaphore, a
mutex changes hands in the services of its owner, a task is taken out of the
system by the kill or suspend that names it.  `step_does` is the refinement,
`Inv` the invariant it keeps, and `Reachable.inv` what holds after every run.
-/

namespace Isix

open Function (update)
open Kernel Outcome

/-! ## which actions an event may do -/

namespace Event

/-- The service an event calls, from a task, an interrupt handler or `main`. -/
def call? : Event → Option Call
  | .call c | .boot c => some c
  | .isr v _ => some (.service v)
  | _ => none

/-- The blocked call an event goes on with. -/
def frame? (s : Kernel) : Event → Option Frame
  | .proceed _ => some (s.task s.currp).frame
  | _ => none

end Event

/-- The semaphore a service is called on, destruction apart. -/
def Call.sem? : Call → Option SemId
  | .service (.semSignal x) | .service (.semTrywait x) | .service (.semReset x _) | .semWait x _ _ => x
  | _ => none

def Frame.sem? : Frame → Option SemId
  | .semWait x _ _ => some x
  | _ => none

def Event.sem? (s : Kernel) (e : Event) : Option SemId :=
  (e.call?.bind Call.sem?).or ((e.frame? s).bind Frame.sem?)

/-- The event a service is called on, destruction apart. -/
def Call.event? : Call → Option EvtId
  | .service (.eventSet v _) | .service (.eventClear v _) | .eventWait v _ _ _ _ _ | .eventSync v _ _ _ _ =>
    v
  | _ => none

def Frame.event? : Frame → Option EvtId
  | .eventWait v _ _ _ _ _ | .eventSync v _ _ _ => some v
  | _ => none

def Event.event? (s : Kernel) (e : Event) : Option EvtId :=
  (e.call?.bind Call.event?).or ((e.frame? s).bind Frame.event?)

/-- The mutex a service wants to own. -/
def Call.locks? : Call → Option MtxId
  | .mutexLock m | .mutexTrylock m => m
  | _ => none

def Frame.locks? : Frame → Option MtxId
  | .mutexLock m | .condvarWait m => some m
  | _ => none

def Event.locks? (s : Kernel) (e : Event) : Option MtxId :=
  (e.call?.bind Call.locks?).or ((e.frame? s).bind Frame.locks?)

/-- The mutex a service gives back once. -/
def Event.unlocks? (s : Kernel) (e : Event) : Option MtxId :=
  match e.call? with
  | some (.mutexUnlock m) => m
  | some (.condvarWait _ _) => isixpGetTopCurrtMutex s
  | _ => none

/-- The task that loses all its mutexes. -/
def Event.unlocksAll? (s : Kernel) (e : Event) : Option TaskId :=
  match e.call? with
  | some .mutexUnlockAll => some s.currp
  | some (.taskKill task) => some (task.getD s.currp)
  | _ => none

/-- Services that change the priority of tasks. -/
def Call.reprices : Call → Bool
  | .taskChangePrio _ _ | .taskKill _ | .taskSuspend _ | .mutexLock _ | .mutexUnlock _ | .mutexUnlockAll
  | .mutexDestroy _ | .condvarWait _ _ => true
  | _ => false

def Event.reprices (s : Kernel) (e : Event) : Bool :=
  (e.call?.any Call.reprices) || ((e.frame? s).any fun f => f.locks?.isSome)

/-- The messages of a wake-up from a list. -/
def Event.wakes (s : Kernel) (e : Event) (t : TaskId) (msg : Int) (c : Core) : Option WaitHead → Prop
  | none => (∃ p f r, e.call? = some (.taskCreate p f r) ∧ t = s.ntask) ∨
    e.call? = some (.taskResume (some t))
  | some (.sem x) =>
    (∃ val, e.call? = some (.service (.semReset (some x) val)) ∧ msg = isixEreset) ∨
      e.call? = some (.semDestroy (some x)) ∧ msg = isixEdestroy
  | some (.cond v) =>
    (e.call? = some (.service (.condvarSignal (some v))) ∨
      e.call? = some (.service (.condvarBroadcast (some v)))) ∧ msg = isixEok ∨
      e.call? = some (.condvarDestroy (some v)) ∧ msg = isixEdestroy
  | some (.evt v) =>
    e.event? s = some v ∧ msg = (c.event v).toInt ∨
      e.call? = some (.eventDestroy (some v)) ∧ msg = isixEdestroy
  | some (.exit u) => ∃ task, e.call? = some (.taskKill task) ∧ u = task.getD s.currp ∧
    msg = if u = c.currp then isixEok else isixEdestroy
  | some (.mtx _) | some .zombie => False

/-- The call or the frame a task goes to sleep in. -/
def Event.sleeps (s : Kernel) (e : Event) : Sleep → Prop
  | .sem x timeout stamp _ => e.call? = some (.semWait (some x) timeout stamp) ∨
    e.frame? s = some (.semWait x timeout stamp)
  | .mutex m => e.call? = some (.mutexLock (some m)) ∨ e.frame? s = some (.mutexLock m) ∨
    e.frame? s = some (.condvarWait m)
  | .cond v m tout => e.call? = some (.condvarWait (some v) tout) ∧ isixpGetTopCurrtMutex s = some m
  | .event v _ _ _ => e.event? s = some v
  | .exit t => e.call? = some (.taskWaitFor (some t)) ∨ e.frame? s = some (.taskWaitFor t)
  | .time tout => e.call? = some (.wait tout)

/-- A mutex leaves its owner. -/
def Event.releases (s : Kernel) (e : Event) (m : MtxId) (c : Core) : Prop :=
  e.unlocks? s = some m ∧ (c.mutex m).owner = some s.currp ∨
    ∃ o, e.unlocksAll? s = some o ∧ (c.mutex m).owner = some o

/-- The actions of an event. -/
def Event.allows (s : Kernel) (e : Event) : Act → Core → Prop
  | .wake t w msg, c => e.wakes s t msg c w
  | .signal x _, _ => e.call? = some (.service (.semSignal (some x)))
  | .sleep k, _ => e.sleeps s k
  | .reprio _ _, _ => e.reprices s
  | .detach t _, _ => ∃ task, (e.call? = some (.taskKill task) ∨ e.call? = some (.taskSuspend task)) ∧
    t = task.getD s.currp
  | .park t suspend, _ => ∃ task, e.call? = some (if suspend then .taskSuspend task else .taskKill task) ∧
    t = task.getD s.currp
  | .own m, _ => e.locks? s = some m
  | .count m _, _ => e.locks? s = some m ∨ e.unlocks? s = some m
  | .free m, c | .strip m false, c | .handover m _, c => e.releases s m c
  | .strip m true, _ | .evict m _ _, _ => e.call? = some (.mutexDestroy (some m))
  | .setSem x _, _ => e.sem? s = some x
  | .setEvent v _, _ => e.event? s = some v
  | .unframe, _ => ∃ n, e = .proceed n
  | .realPrio t p, _ => ∃ task, e.call? = some (.taskChangePrio task p) ∧ t = task.getD s.currp
  | .refcnt t _, _ => ∃ task, (e.call? = some (.taskRef task) ∨ e.call? = some (.taskUnref task)) ∧
    t = task.getD s.currp
  | .lock _, _ => e = .lock ∨ e = .unlock
  | .unpend, _ | .switch _, _ => e = .schedule
  | .reap _, _ => e = .cleanup
  | .newTask _, _ => ∃ p f r, e.call? = some (.taskCreate p f r)
  | .newSem _, _ => ∃ v l, e.call? = some (.semCreate v l)
  | .newMutex, _ => e.call? = some .mutexCreate
  | .newCond, _ => e.call? = some .condvarCreate
  | .newEvent, _ => e.call? = some .eventCreate
  | .start, _ => e = .start
  | .expire _ _, _ | .pend, _ | .skipped _, _ | .yieldPending _, _ | .jiffies _, _ | .swap, _
  | .current _, _ => True

theorem Event.allows_quiet (e : Event) (s : Kernel) : Quiet (e.allows s) := by
  intro a c ha
  cases a <;> trivial

/-! ## services -/

namespace Event

variable {s : Kernel} {e : Event}

theorem sem?_of_call {c : Call} (he : e.call? = some c) : e.sem? s = c.sem? := by
  cases e <;> simp_all [Event.sem?, call?, frame?]

theorem event?_of_call {c : Call} (he : e.call? = some c) : e.event? s = c.event? := by
  cases e <;> simp_all [Event.event?, call?, frame?]

theorem locks?_of_call {c : Call} (he : e.call? = some c) : e.locks? s = c.locks? := by
  cases e <;> simp_all [Event.locks?, call?, frame?]

end Event

theorem validTask_iff {n : Nat} {task : Option TaskId} (h : validTask n task = true) :
    ∀ t, task = some t → t < n ∧ t ≠ idle := by
  rintro t rfl
  simpa [validTask] using h

theorem validHandle_iff {n : Nat} {x : Option Nat} (h : validHandle n x = true) :
    ∀ i, x = some i → i < n := by
  rintro i rfl
  simpa [validHandle] using h

variable {s : Kernel}

/-- The event a service is called on. -/
theorem eventOk_of {e : Event} {v : EvtId} (hv : e.event? s = some v) :
    EventOk (e.allows s) v :=
  ⟨fun _ _ => hv, fun _ _ => .inl ⟨hv, rfl⟩⟩

theorem target_ne_idle {task : Option TaskId} (hcall : Caller s) (hv : validTask s.ntask task = true)
    (hb : s.schrun = false → task.getD s.currp ≠ s.currp) : task.getD s.currp ≠ idle := by
  cases task with
  | none =>
    cases hr : s.schrun with
    | true => exact hcall.not_idle hr
    | false => exact absurd rfl (hb hr)
  | some t => exact (validTask_iff hv t rfl).2

variable {c : Call}

theorem reprices_of_call {e : Event} (he : e.call? = some c) (hc : c.reprices) : e.reprices s = true := by
  simp [Event.reprices, he, hc]

/-- A mutex wanted by its caller. -/
theorem mutexOk_of_locks {e : Event} {m : MtxId} (hl : e.locks? s = some m) (hs : e.sleeps s (.mutex m))
    (hr : e.reprices s = true) : MutexOk (e.allows s) m :=
  ⟨fun _ => hl, fun _ _ => .inl hl, fun _ => hs, fun _ _ _ => hr⟩

/-- The mutexes of one task. -/
theorem releaseOk_of_unlocksAll {e : Event} {o : TaskId} (ho : e.unlocksAll? s = some o) (hr : e.reprices s = true) :
    ReleaseOk (e.allows s) o fun _ => True :=
  ⟨fun _ _ _ hown => .inr ⟨o, ho, hown⟩, fun _ _ _ hown => .inr ⟨o, ho, hown⟩,
    fun _ _ _ _ hown => .inr ⟨o, ho, hown⟩, fun _ _ _ => hr⟩

/-- One mutex of the current task. -/
theorem releaseOk_of_unlocks {e : Event} {M : MtxId → Prop} (hu : ∀ m, M m → e.unlocks? s = some m)
    (hr : e.reprices s = true) : ReleaseOk (e.allows s) s.currp M :=
  ⟨fun m _ hm hown => .inl ⟨hu m hm, hown⟩, fun m _ hm hown => .inl ⟨hu m hm, hown⟩,
    fun m _ _ hm hown => .inl ⟨hu m hm, hown⟩, fun _ _ _ => hr⟩

/-- The task to kill or suspend is not the current one while `main` runs. -/
def Call.bootOk (s : Kernel) : Call → Prop
  | .taskKill task | .taskSuspend task => s.schrun = false → task.getD s.currp ≠ s.currp
  | _ => True

/-- **Condition on the boot code**: before the scheduler runs, `main` does not
kill or suspend the task that is to be started first, and calls no service that
has to wait. -/
def BootOk (e : Event) (s : Kernel) : Prop :=
  match e with
  | .boot (.taskKill task) | .boot (.taskSuspend task) => task.getD s.currp ≠ s.currp
  | .boot c => c.waits s = false
  | _ => True

instance (e : Event) (s : Kernel) : Decidable (BootOk e s) := by
  unfold BootOk
  split <;> infer_instance

theorem BootOk.call (h : BootOk (.boot c) s) : c.bootOk s := by
  cases c with
  | taskKill task | taskSuspend task => exact fun _ => h
  | _ => trivial

theorem BootOk.waits (h : BootOk (.boot c) s) : c.waits s = false := by
  cases c with
  | taskKill task | taskSuspend task => rfl
  | _ => exact h

theorem toInt32_of_range {v : Int} (h : -2147483648 ≤ v) (h' : v ≤ 2147483647) : toInt32 v = v := by
  exact Int.bmod_eq_of_le (by omega) (by omega)

theorem AtomicSem.LockRange.inc {a : AtomicSem} (h : a.LockRange) (hlt : a.value < 2147483647) :
    a.inc.LockRange := by
  obtain ⟨h₀, h₁, hl⟩ := h
  have hv : a.inc.value = a.value + 1 := by
    simp only [AtomicSem.inc, hl]
    rw [if_neg (by omega), toInt32_of_range (by omega) (by omega)]
  exact ⟨by omega, by omega, hl⟩

theorem AtomicSem.LockRange.dec {a : AtomicSem} (h : a.LockRange) (hlt : 0 < a.value) :
    a.dec.LockRange := by
  obtain ⟨h₀, h₁, hl⟩ := h
  have hv : a.dec.value = a.value - 1 := toInt32_of_range (by omega) (by omega)
  exact ⟨by omega, by omega, hl⟩

theorem returnMessage_spec {E : Panic → Prop} {r : Int} (ho : (s.task s.currp).obj = .dmsg r) :
    Holds E (returnMessage s) fun x => x.1 = s := by
  unfold returnMessage
  rw [ho]
  rfl

theorem returnBits_spec {E : Panic → Prop} {r : Int} (ho : (s.task s.currp).obj = .dmsg r) :
    Holds E (returnBits s) fun x => x.1 = s := by
  unfold returnBits
  rw [ho]
  simp only
  split <;> rfl

variable [Config] {s s' : Kernel} {e : Event} {E : Panic → Prop} {A : Act → Core → Prop}

theorem Service.exec_does {v : Service} {ctx : Context} (he : e.call? = some (.service v)) (h : Good s) :
    Holds E (v.exec ctx s) fun r => Does (e.allows s) s r.1 := by
  have hQ := e.allows_quiet s
  have hsem := Event.sem?_of_call (s := s) he
  have hevt := Event.event?_of_call (s := s) he
  cases v with
  | semSignal sem =>
    refine isixpSemSignal_does hQ (fun i hi a c => hsem.trans hi) (fun i t c hi => ?_) h
    subst hi
    exact he
  | semTrywait sem => exact isixSemTrywait_does (fun i hi a c => hsem.trans hi) h
  | semReset sem val =>
    refine isixpSemReset_does hQ (fun i hi a c => hsem.trans hi) (fun i t c hi => ?_) h
    exact .inl ⟨val, hi ▸ he, rfl⟩
  | condvarSignal cv =>
    exact isixpCondvarSignal_does hQ (fun v t c hv => .inl ⟨.inl (hv ▸ he), rfl⟩) h
  | condvarBroadcast cv =>
    exact isixpCondvarBroadcast_does hQ (fun v t c hv => .inl ⟨.inr (hv ▸ he), rfl⟩) h
  | eventSet evth bits =>
    exact isixpEventSet_does hQ (fun v hv => eventOk_of (hevt.trans hv)) h
  | eventClear evth bits =>
    exact isixpEventClear_does (fun v hv => eventOk_of (hevt.trans hv)) h

/-- A new object: its list is empty already. -/
theorem Does.create {a : Act} {w : WaitHead} (h : Good s) (hw : ¬w.exists? s.toCore)
    (hr : s'.ready = s.ready) (hi : s'.inode = s.inode) (hp : s'.prioElem = s.prioElem)
    (hl : s'.lists = update s.lists w []) (hn : s'.ntask = s.ntask) (ht : s'.task = s.task)
    (he : s'.toCore = a.apply s.toCore) (hc : CoreInv none (a.apply s.toCore)) (hg : a.guard s.toCore)
    (hA : A a s.toCore) : Does A s s' :=
  .book h hr hi hp he hA hg ht (hl.trans (h.core.list.reset hw)) hn hc

theorem target_lt {task : Option TaskId} (h : Good s) (hv : validTask s.ntask task = true) :
    task.getD s.currp < s.ntask := by
  cases task with
  | none => exact h.core.task.currp_lt
  | some t => exact (validTask_iff hv t rfl).1

section

variable {task : Option TaskId} (h : Good s) (hcall : Caller s)

include h hcall

theorem taskKill_does (he : e.call? = some (.taskKill task)) (hv : (Call.taskKill task).valid s = true)
    (hb : (Call.taskKill task).bootOk s) : Holds E (isixTaskKill task s) fun r => Does (e.allows s) s r.1 := by
  have hrep := reprices_of_call (s := s) he rfl
  refine (isixTaskKill_spec (e.allows_quiet s) ?_ ⟨?_, ?_, ?_⟩ ?_ h (target_lt h hv) (target_ne_idle hcall hv hb)
    hb).mono fun _ hr => hr.1
  · exact releaseOk_of_unlocksAll (by simp [Event.unlocksAll?, he]) hrep
  · exact fun w c => ⟨task, .inl he, rfl⟩
  · exact fun c => ⟨task, he, rfl⟩
  · exact fun _ _ _ => hrep
  · exact fun u c => ⟨task, he, rfl, rfl⟩

theorem taskSuspend_does (he : e.call? = some (.taskSuspend task)) (hv : (Call.taskSuspend task).valid s = true)
    (hb : (Call.taskSuspend task).bootOk s) : Holds E (isixTaskSuspend task s) fun r => Does (e.allows s) s r.1 := by
  refine isixTaskSuspend_does (e.allows_quiet s) ⟨?_, ?_, ?_⟩ h (target_lt h hv) (target_ne_idle hcall hv hb) hb
  · exact fun w c => ⟨task, .inr he, rfl⟩
  · exact fun c => ⟨task, he, rfl⟩
  · exact fun _ _ _ => reprices_of_call (s := s) he rfl

theorem condvarWait_replies {cv : Option CondId} {timeout : Nat} (he : e.call? = some (.condvarWait cv timeout))
    (hv : (Call.condvarWait cv timeout).valid s = true) :
    Holds CountPanic (isixCondvarWait cv timeout s) (Replies (e.allows s) s) := by
  simp only [Call.valid, Bool.and_eq_true] at hv
  have hun : e.unlocks? s = isixpGetTopCurrtMutex s := by simp [Event.unlocks?, he]
  refine isixCondvarWait_replies (fun _ => id) (e.allows_quiet s)
    (releaseOk_of_unlocks (fun m hm => hun.trans hm) (reprices_of_call (s := s) he rfl))
    (fun m n c hm => .inr (hun.trans hm)) (fun v m c hcv hm => ?_) h hcall (validHandle_iff hv.1)
    (by simpa [validTick] using hv.2)
  subst hcv
  exact ⟨he, hm⟩

end

theorem Call.exec_replies (he : e.call? = some c) (h : Good s) (hcall : Caller s)
    (hv : c.valid s = true) (hb : c.bootOk s) :
    Holds CountPanic (c.exec s) (Replies (e.allows s) s) := by
  have hQ := e.allows_quiet s
  have hE : ∀ p, CountPanic p → CountPanic p := fun _ => id
  have hsem := Event.sem?_of_call (s := s) he
  have hevt := Event.event?_of_call (s := s) he
  have hlock := Event.locks?_of_call (s := s) he
  have hrep := reprices_of_call (s := s) he
  have hdoes : ∀ {m : Reply}, Holds CountPanic m (fun r => Does (e.allows s) s r.1) →
      Holds CountPanic m (Replies (e.allows s) s) := fun hm => hm.mono fun _ hr => .of_does hr
  cases c with
  | service v => exact hdoes (Service.exec_does he h)
  | taskCreate priority suspended ref =>
    refine hdoes (isixTaskCreate_does hQ (fun y c => ?_) (fun c => ?_) h)
    · exact ⟨_, _, _, he⟩
    · exact .inl ⟨_, _, _, he, rfl⟩
  | taskChangePrio task newPrio =>
    refine hdoes (isixTaskChangePrio_does hQ (fun c => ?_) (fun c => hrep rfl) h (target_lt h hv))
    exact ⟨task, he, rfl⟩
  | taskKill task => exact hdoes (taskKill_does h hcall he hv hb)
  | taskSuspend task => exact hdoes (taskSuspend_does h hcall he hv hb)
  | taskResume task =>
    refine hdoes (isixTaskResume_does hQ (fun t c ht => ?_) h fun t ht => (validTask_iff hv t ht).1)
    subst ht
    exact .inr he
  | taskRef task => exact hdoes (isixTaskRef_does (fun n c => ⟨task, .inl he, rfl⟩) h (target_lt h hv))
  | taskUnref task => exact hdoes (isixTaskUnref_does (fun n c => ⟨task, .inr he, rfl⟩) h (target_lt h hv))
  | taskWaitFor task =>
    refine isixTaskWaitFor_replies hQ (fun t c ht => ?_) h hcall fun t ht => (validTask_iff hv t ht).1
    subst ht
    exact .inl he
  | semCreate val limitVal =>
    show Replies _ s (isixSemCreateLimited val limitVal s)
    unfold isixSemCreateLimited
    split
    · exact .of_does (.refl h)
    · exact .of_does (.create h (Nat.lt_irrefl _) rfl rfl rfl rfl rfl
        rfl rfl h.core.newSem trivial ⟨val, limitVal, he⟩)
  | semWait sem timeout start =>
    simp only [Call.valid, Bool.and_eq_true] at hv
    refine isixSemWait_replies hQ (fun i hi a c => hsem.trans hi) (fun i n c hi => ?_) h hcall
      (validHandle_iff hv.1.1) (by simpa [validTick] using hv.1.2)
    subst hi
    exact .inl he
  | semDestroy sem =>
    refine hdoes (isixSemDestroy_does hQ (fun i t c hi => ?_) h)
    subst hi
    exact .inr ⟨he, rfl⟩
  | mutexCreate =>
    exact .of_does (.create h (Nat.lt_irrefl _) rfl rfl rfl rfl rfl rfl
      rfl h.core.newMutex trivial he)
  | mutexLock mutex =>
    refine isixMutexLock_replies hE hQ (fun m hm => ?_) h hcall (validHandle_iff hv)
    subst hm
    exact mutexOk_of_locks hlock (.inl he) (hrep rfl)
  | mutexTrylock mutex =>
    exact hdoes (isixMutexTrylock_does hE (fun m c hm => hlock.trans hm)
      (fun m n c hm => .inl (hlock.trans hm)) h hcall (validHandle_iff hv))
  | mutexUnlock mutex =>
    refine hdoes (isixMutexUnlock_does hE hQ (releaseOk_of_unlocks (fun m hm => ?_) (hrep rfl))
      (fun m n c hm => .inr ?_) h hcall)
    · simp [Event.unlocks?, he, hm]
    · simp [Event.unlocks?, he, hm]
  | mutexUnlockAll =>
    refine hdoes ((isixpMutexUnlockAllInTask_does hQ ?_ h).bind fun s₁ hs₁ => hs₁.1)
    exact releaseOk_of_unlocksAll (by simp [Event.unlocksAll?, he]) (hrep rfl)
  | mutexDestroy mutex =>
    refine hdoes (isixMutexDestroy_does hQ (fun m c hm => ?_) (fun _ _ _ => hrep rfl)
      (fun m t p c hm => ?_) h)
    · subst hm
      exact he
    · subst hm
      exact he
  | condvarCreate =>
    exact .of_does (.create h (Nat.lt_irrefl _) rfl rfl rfl rfl rfl rfl
      rfl h.core.newCond trivial he)
  | condvarWait cv timeout => exact condvarWait_replies h hcall he hv
  | condvarDestroy cv =>
    refine hdoes (isixCondvarDestroy_does hQ (fun v t c hv => ?_) h)
    subst hv
    exact .inr ⟨he, rfl⟩
  | eventCreate =>
    exact .of_does (.create h (Nat.lt_irrefl _) rfl rfl rfl rfl rfl rfl
      rfl h.core.newEvent trivial he)
  | eventWait evth bits clear all timeout start =>
    simp only [Call.valid, Bool.and_eq_true] at hv
    exact isixEventWait_replies hQ (fun v hv => eventOk_of (hevt.trans hv))
      (fun v b n frame c hv => hevt.trans hv) h hcall (validHandle_iff hv.1.1)
      (by simpa [validTick] using hv.1.2)
  | eventSync evth bitsToSet bits timeout start =>
    simp only [Call.valid, Bool.and_eq_true] at hv
    exact isixEventSync_replies hQ (fun v hv => eventOk_of (hevt.trans hv))
      (fun v b n frame c hv => hevt.trans hv) h hcall (validHandle_iff hv.1.1)
      (by simpa [validTick] using hv.1.2)
  | eventDestroy evth =>
    refine hdoes (isixEventDestroy_does hQ (fun v t c hv => ?_) h)
    subst hv
    exact .inr ⟨he, rfl⟩
  | wait timeout => exact isixWait_replies hQ he h hcall (by simpa [Call.valid, validTick] using hv)

/-! ## the rest of a blocking service -/

/-- What holds between two events. -/
structure Inv (s : Kernel) : Prop where
  good : Good s
  frames : FrameInv s.toCore
  lock : s.schedLock.LockRange

theorem eventSyncAgain_replies {v : EvtId} {bits : Bits} {timeout start start' : Nat} (hQ : Quiet A)
    (hA : EventOk A v) (hK : ∀ b n frame c, A (.sleep (.event v b n frame)) c) (h : Good s)
    (hcall : Caller s) (hv : v < s.nevt) (ht : timeout < tickMod) :
    Holds E (eventSyncAgain v bits timeout start start' s) (Replies A s) := by
  have hwait : ∀ n, n < tickMod →
      Holds E (isixEventWait (some v) bits true true n start' s) (Replies A s) := fun n hn =>
    isixEventWait_replies hQ (fun _ hv' => by cases hv'; exact hA)
      (fun _ b n frame c hv' => by cases hv'; exact hK b n frame c) h hcall
      (fun _ hv' => by cases hv'; exact hv) hn
  unfold eventSyncAgain
  split
  · exact hwait _ ht
  · simp only
    split
    · exact .of_does (.refl h)
    · exact hwait _ (Nat.lt_of_le_of_lt (Nat.sub_le _ _) ht)

/-- The current task leaves its blocked call. -/
theorem Does.unframe (h : Good s) (ha : (s.task s.currp).state.active) (hA : A .unframe s.toCore) :
    Does A s (s.withTask s.currp fun x => { x with frame := .user }) := by
  have hg : Act.unframe.guard s.toCore := ⟨h.sits_current ha, ha⟩
  exact .act (a := .unframe) (h.wired.write_quiet rfl rfl rfl)
    (h.core.withTask_quiet (g := fun x => { x with frame := .user }) h.core.task.currp_lt rfl rfl rfl rfl rfl
      rfl) rfl hA hg

/-- The current task is back in its own code, as far as the rest of the call
sees it. -/
structure Resumed (A : Act → Core → Prop) (s s' : Kernel) : Prop where
  does : Does A s s'
  caller : Caller s'
  currp : s'.currp = s.currp
  schrun : s'.schrun = s.schrun
  grows : s.toCore.Grows s'.toCore
  msg : (s.task s.currp).frame ≠ .wait → ∃ r, (s'.task s'.currp).obj = .dmsg r

theorem Inv.resumed (h : Inv s) (hrun : (s.task s.currp).state = .running)
    (hf : (s.task s.currp).frame ≠ .user) (hA : A .unframe s.toCore) :
    Resumed A s (s.withTask s.currp fun x => { x with frame := .user }) := by
  have hact : (s.task s.currp).state.active := by rw [hrun]; rfl
  have hself : (s.withTask s.currp fun x => { x with frame := .user }).task s.currp =
      { s.task s.currp with frame := .user } := by simp [withTask]
  refine ⟨.unframe h.good hact hA, ⟨?_, fun _ he => ?_⟩, rfl, rfl, ?_, fun hw => ?_⟩
  · show ((s.withTask s.currp fun x => { x with frame := .user }).task s.currp).state.active
    rw [hself]
    exact hact
  · rw [show s.currp = idle from he] at hf
    exact hf h.frames.idle
  · exact Act.grows .unframe s.toCore
  · show ∃ r, ((s.withTask s.currp fun x => { x with frame := .user }).task s.currp).obj = .dmsg r
    rw [hself]
    rcases (h.frames.thread s.currp).ready hact with hu | hu | hr
    · exact absurd hu hf
    · exact absurd hu hw
    · exact hr

theorem afterYield_replies {start : Nat} (h : Inv s) (hrun : (s.task s.currp).state = .running)
    (hf : (s.task s.currp).frame ≠ .user) :
    Holds CountPanic (afterYield start s) (Replies ((Event.proceed start).allows s) s) := by
  have hQ := (Event.proceed start).allows_quiet s
  have hvalid := h.frames.valid s.currp
  have hr := h.resumed (A := (Event.proceed start).allows s) hrun hf ⟨start, rfl⟩
  have hframe : (Event.proceed start).frame? s = some (s.task s.currp).frame := rfl
  have hE : ∀ p, CountPanic p → CountPanic p := fun _ => id
  unfold afterYield
  simp only
  generalize (s.withTask s.currp fun x => { x with frame := .user }) = s₁ at hr
  have hagain : ∀ {m : Reply}, Holds CountPanic m (Replies ((Event.proceed start).allows s) s₁) →
      Holds CountPanic m (Replies ((Event.proceed start).allows s) s) :=
    fun hm => hm.mono fun _ hx => hx.after hr.does hr.schrun
  have hreturn : ∀ {m : Reply}, Holds CountPanic m (fun x => x.1 = s₁) →
      Holds CountPanic m (Replies ((Event.proceed start).allows s) s) :=
    fun hm => hm.mono fun x hx => by
      obtain ⟨s₂, a⟩ := x
      have hs₂ : s₂ = s₁ := hx
      exact .of_does (hs₂ ▸ hr.does)
  have hlock : ∀ {m : MtxId}, (Event.proceed start).frame? s = some (.mutexLock m) ∨
      (Event.proceed start).frame? s = some (.condvarWait m) → m < s.nmtx →
      Holds CountPanic (mutexLockBody m s₁) (Replies ((Event.proceed start).allows s) s) := fun hfr hm => by
    refine hagain (mutexLockBody_replies hE hQ (mutexOk_of_locks ?_ (.inr hfr) ?_) hr.does.ok hr.caller
      (Nat.lt_of_lt_of_le hm hr.grows.nmtx))
    · rcases hfr with hfr | hfr <;> simp [Event.locks?, Event.call?, hfr, Frame.locks?]
    · rcases hfr with hfr | hfr <;> simp [Event.reprices, Event.call?, hfr, Frame.locks?]
  cases hfr : (s.task s.currp).frame with
  | user => exact absurd hfr hf
  | wait => exact .of_does hr.does
  | semWait i timeout stamp =>
    rw [hfr] at hvalid hframe
    simp only
    split
    · refine hagain (semWaitBody_replies hQ (fun a c => ?_) (fun n c => .inr hframe) hr.does.ok
        hr.caller (Nat.lt_of_lt_of_le hvalid.1 hr.grows.nsem) hvalid.2)
      show (Event.proceed start).sem? s = some i
      simp [Event.sem?, Event.call?, hframe, Frame.sem?]
    · obtain ⟨r, ho⟩ := hr.msg (by rw [hfr]; simp)
      exact hreturn (returnMessage_spec ho)
  | mutexLock m =>
    rw [hfr] at hvalid hframe
    simp only
    split
    · exact hlock (.inl hframe) hvalid
    · obtain ⟨r, ho⟩ := hr.msg (by rw [hfr]; simp)
      exact hreturn (returnMessage_spec ho)
  | condvarWait m =>
    rw [hfr] at hvalid hframe
    obtain ⟨r, ho⟩ := hr.msg (by rw [hfr]; simp)
    refine (returnMessage_spec ho).bind fun ⟨s₂, ret⟩ hx => ?_
    have hs₂ : s₂ = s₁ := hx
    subst hs₂
    split
    · exact hlock (.inr hframe) hvalid
    · exact .of_does hr.does
  | eventWait v bits clear all timeout stamp =>
    rw [hfr] at hvalid hframe
    have hv : (Event.proceed start).event? s = some v := by
      simp [Event.event?, Event.call?, hframe, Frame.event?]
    simp only
    split
    · exact hagain (eventWaitBody_replies hQ (eventOk_of hv) (fun n frame c => hv) hr.does.ok hr.caller
        (Nat.lt_of_lt_of_le hvalid.1 hr.grows.nevt) hvalid.2.1 hvalid.2.2)
    · obtain ⟨r, ho⟩ := hr.msg (by rw [hfr]; simp)
      exact hreturn (returnBits_spec ho)
  | eventSync v bits timeout stamp =>
    rw [hfr] at hvalid hframe
    have hv : (Event.proceed start).event? s = some v := by
      simp [Event.event?, Event.call?, hframe, Frame.event?]
    simp only
    split
    · exact hagain (eventSyncAgain_replies hQ (eventOk_of hv) (fun b n frame c => hv) hr.does.ok
        hr.caller (Nat.lt_of_lt_of_le hvalid.1 hr.grows.nevt) hvalid.2.2)
    · obtain ⟨r, ho⟩ := hr.msg (by rw [hfr]; simp)
      exact hreturn (returnBits_spec ho)
  | taskWaitFor u =>
    rw [hfr] at hvalid hframe
    simp only
    split
    · refine hagain (waitForBody_replies hQ (.inr hframe) hr.does.ok hr.caller
        (Nat.lt_of_lt_of_le hvalid.1 hr.grows.ntask) ?_)
      rw [hr.currp]
      exact hvalid.2
    · obtain ⟨r, ho⟩ := hr.msg (by rw [hfr]; simp)
      exact hreturn (returnMessage_spec ho)

/-! ## one event -/

omit [Config] in
theorem caller_of_call (he : enabled s (.call c) = true) :
    s.schrun = true ∧ Caller s ∧ c.valid s = true := by
  simp only [enabled, taskRuns, Bool.and_eq_true, decide_eq_true_eq] at he
  obtain ⟨⟨⟨⟨⟨hrun, hidle⟩, -⟩, hstate⟩, hv⟩, -⟩ := he
  exact ⟨hrun, ⟨by rcases hstate with hs | hs <;> rw [hs] <;> rfl, fun _ => hidle⟩, hv⟩

theorem caller_of_boot (h : Inv s) (he : enabled s (.boot c) = true) :
    Caller s ∧ c.valid s = true := by
  simp only [enabled, Bool.and_eq_true, Bool.not_eq_true'] at he
  obtain ⟨hrun, hv⟩ := he
  refine ⟨⟨?_, fun hr => ?_⟩, hv⟩
  · rw [h.good.core.task.boot hrun]
    rfl
  · rw [hrun] at hr
    cases hr

/-- `main` does not sleep. -/
theorem boot_returns (he : enabled s (.boot c) = true) (hb : BootOk (.boot c) s) : Returns (c.exec s) := by
  simp only [enabled, Bool.and_eq_true, Bool.not_eq_true'] at he
  exact Call.exec_returns hb.waits he.1

theorem step_boot (he : enabled s (.boot c) = true) (hb : BootOk (.boot c) s) : step (.boot c) s = c.exec s := by
  have hret := boot_returns he hb
  show (c.exec s).map (mainGoesOn s.currp) = c.exec s
  cases hm : c.exec s with
  | error p => rfl
  | ok r =>
    obtain ⟨s₁, a⟩ := r
    cases a with
    | blocked => exact absurd hm (hret s₁)
    | _ => rfl

/-- **Refinement**: an event that can happen is a path of the actions it
allows.  It fails only when a mutex was locked 2^31 times. -/
theorem step_does (h : Inv s) (he : enabled s e = true) (hb : BootOk e s) :
    Holds CountPanic (step e s) fun r => Does (e.allows s) s r.1 := by
  have hQ := e.allows_quiet s
  cases e with
  | call c =>
    obtain ⟨hrun, hcall, hv⟩ := caller_of_call he
    have hboot : c.bootOk s := by
      cases c <;> first | trivial | exact fun hr => (by rw [hrun] at hr; cases hr)
    refine (Call.exec_replies rfl h.good hcall hv hboot).mono fun r hr => hr fun hf => ?_
    rw [hrun] at hf
    cases hf
  | proceed start =>
    simp only [enabled, Bool.and_eq_true, decide_eq_true_eq] at he
    obtain ⟨⟨⟨⟨hrun, hf⟩, hstate⟩, -⟩, -⟩ := he
    refine (afterYield_replies h hstate hf).mono fun r hr => hr fun hf => ?_
    rw [hrun] at hf
    cases hf
  | yield => exact isixYield_does hQ h.good
  | lock =>
    simp only [enabled, Bool.and_eq_true, decide_eq_true_eq] at he
    exact Does.lock h.good (.inl rfl) (h.lock.inc he.2)
  | unlock =>
    simp only [enabled, Bool.and_eq_true, decide_eq_true_eq] at he
    exact (isixpUnlockScheduler_does hQ (fun _ _ => .inr rfl) h.good (h.lock.dec he.2)).bind
      fun s₁ h₁ => h₁
  | isr v elapsed => exact Service.exec_does rfl h.good
  | tick ticks =>
    refine (accountTicks_does hQ h.good).bind fun s₁ h₁ => ?_
    exact h₁.trans (isixYield_does hQ h₁.ok)
  | schedule =>
    have h₁ : Does (Event.schedule.allows s) s { s with pendsv := false } :=
      .book (a := .unpend) h.good rfl rfl rfl rfl rfl trivial rfl rfl rfl
        (h.good.core.congr rfl rfl rfl rfl rfl rfl rfl rfl rfl rfl rfl fun w he => by cases w <;> exact he)
    exact (isixpSchedule_does hQ (fun _ _ => rfl) h₁.ok he).bind fun s₂ h₂ => h₁.trans h₂
  | cleanup => exact (cleanupTasks_does (fun _ _ => rfl) h.good).bind fun s₁ h₁ => h₁
  | resync elapsed => exact (catchUpMissedTicks_does hQ h.good).bind fun s₁ h₁ => h₁
  | boot c =>
    obtain ⟨hcall, hv⟩ := caller_of_boot h he
    have hexec := Call.exec_replies (e := .boot c) rfl h.good hcall hv hb.call
    rw [step_boot he hb]
    cases hm : c.exec s with
    | error p =>
      rw [hm] at hexec
      exact hexec
    | ok r =>
      rw [hm] at hexec
      exact hexec fun _ hbl => boot_returns he hb r.1 (by rw [hm, ← hbl])
  | start =>
    simp only [enabled, Bool.not_eq_true'] at he
    have hready := h.good.core.task.boot he
    have hg : Act.start.guard s.toCore := ⟨he, hready⟩
    have hact : (s.task s.currp).state.active := by
      rw [hready]
      rfl
    refine .act ?_ (h.good.core.start hg) rfl rfl hg
    have hw : Wired ∅ (s.withTask s.currp fun x => { x with state := .running }) := by
      refine h.good.wired.write_placed rfl fun _ => ?_
      rw [h.good.wired.inode_of_active (Set.notMem_empty _) hact]
      exact ⟨rfl, rfl⟩
    exact hw.congr rfl rfl rfl rfl (Nat.le_refl _) (fun _ _ _ => rfl) fun _ _ hp => hp

/-! ## runs -/

/-- The control block of the idle task after `isix_init`. -/
def idleBlock : Task :=
  { taskBlock Config.numberOfPriorities false false with state := .ready, obj := .dmsg isixEok }

/-- The system `isix_init` leaves: the idle task and nothing else. -/
structure Fresh (c : Core) : Prop where
  idle : c.task idle = idleBlock
  other : ∀ t, t ≠ Isix.idle → c.task t = Task.zero
  lists : ∀ w, c.lists w = []
  waitLists : ∀ b, c.waitLists b = []
  jiffies : c.jiffies = 0
  mutex : ∀ m, c.mutex m = { count := 0, owner := none, inode := none }
  ntask : c.ntask = 1
  currp : c.currp = Isix.idle
  schrun : c.schrun = false
  deleted : c.numberOfTaskDeleted = 0
  lock : c.schedLock = { value := 0, limit := 0 }

namespace Fresh

variable {c : Core}

/-- What holds of the idle task and of a cleared control block. -/
theorem forall_task (h : Fresh c) {P : Task → Prop} (hi : P idleBlock) (hz : P Task.zero) (t : TaskId) :
    P (c.task t) := by
  by_cases ht : t = Isix.idle
  · rw [ht, h.idle]
    exact hi
  · rw [h.other t ht]
    exact hz

theorem coreInv (h : Fresh c) : CoreInv none c := by
  refine ⟨⟨?_, ?_, ?_, ?_, ?_, ?_, ?_⟩, ⟨?_, ?_, ?_⟩, ⟨?_, ?_, ?_, ?_, ?_⟩, ⟨?_, ?_, ?_, ?_, ?_, ?_⟩⟩
  · exact h.forall_task (P := fun x => x.prio ≤ _) (Nat.le_refl _) (Nat.zero_le _)
  · exact h.forall_task (P := fun x => x.realPrio ≤ _) (Nat.le_refl _) (Nat.zero_le _)
  · intro t hs
    exact absurd hs (h.forall_task (P := fun x => x.state ≠ .running) (by simp [idleBlock])
      (by simp [Task.zero]) t)
  · rw [h.idle]
    rfl
  · rw [h.currp, h.idle]
    exact fun _ => rfl
  · intro t ht
    refine h.other t ?_
    rintro rfl
    rw [h.ntask] at ht
    exact absurd ht (by decide)
  · rw [h.currp, h.ntask]
    decide
  · intro b t
    have hn : (c.task t).inodeTime = none := h.forall_task (P := fun x => x.inodeTime = none) rfl rfl t
    simp [h.waitLists, hn]
  · exact fun t hs => absurd (h.forall_task (P := fun x => x.inodeTime = none) rfl rfl t) hs
  · refine .of_nil ?_ h.waitLists
    rw [h.jiffies]
    decide
  · intro w _
    rw [h.lists]
    exact .nil
  · intro w
    rw [h.lists]
    exact .nil
  · rw [h.deleted, h.lists]
    rfl
  · exact fun w _ => h.lists w
  · intro t
    rw [h.lists]
    exact List.not_mem_nil
  · intro t m
    have hn : (c.task t).ownedMutexes = [] := h.forall_task (P := fun x => x.ownedMutexes = []) rfl rfl t
    simp [hn, h.mutex]
  · intro m _
    rw [h.mutex]
  · intro m _ _
    rw [h.mutex, h.lists]
    exact ⟨rfl, rfl⟩
  · intro m _ t ht
    rw [h.lists] at ht
    cases ht
  · exact fun t _ => h.forall_task (P := fun x => x.ownedMutexes = []) rfl rfl t
  · exact fun m _ => h.mutex m

theorem frames (h : Fresh c) : FrameInv c := by
  have hu : ∀ t, (c.task t).frame = .user := h.forall_task (P := fun x => x.frame = .user) rfl rfl
  refine ⟨fun t => ?_, hu _, fun w t ht => ?_, fun t => ⟨fun hs => ?_, fun _ => .inl (hu t)⟩⟩
  · rw [hu]
    trivial
  · rw [h.lists] at ht
    cases ht
  · exact h.forall_task (P := fun x => x.state = .sleeping → x.frame = .wait) (fun hs => by cases hs)
      (fun hs => by cases hs) t hs

end Fresh

/-- The control block of the idle task is set up, and on no list yet. -/
theorem wired_alloc :
    Wired (insert idle ∅) (allocTask Config.numberOfPriorities false false Kernel.empty) := by
  have hinode : ∀ t, (allocTask Config.numberOfPriorities false false Kernel.empty).inode t = none := by
    intro t
    simp [allocTask, Kernel.empty]
  have hlist : ∀ l, (allocTask Config.numberOfPriorities false false Kernel.empty).listOf l = [] := by
    intro l
    cases l with
    | prio e => rfl
    | wait w => simp [Kernel.listOf, allocTask, Kernel.empty]
  refine ⟨?_, ?_, fun t _ => hinode t, ⟨?_, ?_, ?_, ?_, ?_⟩, ?_, ?_⟩
  · intro l t
    rw [hlist, hinode]
    simp
  · intro t ht
    have hne : t ≠ 0 := fun he => ht (.inl he)
    rw [hinode]
    simp [Placed, Waits, allocTask, Kernel.empty, hne, Task.zero, ThrState.active]
  · exact .nil
  · exact .refl _
  all_goals
    intros
    first | rfl | exact absurd (hinode _) (by assumption) | (rename_i hm; cases hm)

theorem fresh_alloc : Fresh (((allocTask Config.numberOfPriorities false false
    Kernel.empty).toCore.untime idle).makeReady idle (.dmsg isixEok)) := by
  constructor
  · simp [Core.makeReady, Core.untime, allocTask, Kernel.empty, idle, idleBlock, taskBlock, Task.zero]
  · intro t ht
    have hne : t ≠ 0 := ht
    simp [Core.makeReady, Core.untime, Core.withTask, allocTask, Kernel.empty, hne, ht]
  · intro w
    simp [Core.makeReady, Core.untime, Core.withTask, allocTask, Kernel.empty]
  · intro b
    simp [Core.makeReady, Core.untime, Core.withTask, allocTask, Kernel.empty, idle, taskBlock, Task.zero]
  all_goals first | rfl | exact fun _ => rfl

/-- `isix_init` succeeds. -/
theorem isixInit_core : Holds E isixInit fun s => Wired ∅ s ∧ s.toCore =
    ((allocTask Config.numberOfPriorities false false Kernel.empty).toCore.untime idle).makeReady idle
      (.dmsg isixEok) := by
  unfold isixInit isixTaskCreate
  rw [if_neg (by omega)]
  simp only [Bool.false_eq_true, if_false]
  refine Holds.bind ?_ fun _ hr => hr
  have hself : (allocTask Config.numberOfPriorities false false Kernel.empty).task idle =
      taskBlock Config.numberOfPriorities false false := by
    simp [allocTask, Kernel.empty, idle]
  have hwake : Holds E (wakeupTask idle isixEok _) _ := wakeupTask_spec wired_alloc
    (Set.notMem_empty _) (by decide : (0 : Nat) < 1) (by rw [hself]; exact Nat.le_refl _) (by rw [hself]; simp [taskBlock])
    (by rw [hself]; simp [taskBlock])
  refine Holds.bind (hwake.bind fun s hs => ?_) fun s hs => hs
  have hsame : isixpDoReschedule idle s = s := by
    unfold isixpDoReschedule
    rw [show s.currp = idle from (hs.2 ▸ fresh_alloc : Fresh s.toCore).currp]
    simp [prioGt]
  show Wired ∅ (isixpDoReschedule idle s) ∧ (isixpDoReschedule idle s).toCore = _
  rw [hsame]
  exact hs

theorem isixInit_spec : Holds E isixInit fun s => Wired ∅ s ∧ Fresh s.toCore :=
  isixInit_core.mono fun _ hs => ⟨hs.1, hs.2 ▸ fresh_alloc⟩

theorem Inv.init (h : isixInit = .ok s) : Inv s := by
  obtain ⟨hw, hf⟩ := (isixInit_spec (E := fun _ => True)).of_ok h
  refine ⟨⟨hw, hf.coreInv⟩, hf.frames, ?_⟩
  rw [show s.schedLock = _ from hf.lock]
  exact ⟨by decide, by decide, rfl⟩

/-- Only the lock services write the scheduler lock. -/
theorem lockRange_apply {a : Act} {c : Core} (hg : a.guard c) (h : c.schedLock.LockRange) :
    (a.apply c).schedLock.LockRange := by
  cases a with
  | lock b => exact hg
  | sleep k =>
    simp only [Act.apply, Core.addTime?]
    cases k.head <;> split <;> exact h
  | reprio t p =>
    simp only [Act.apply]
    cases Core.prioHead (c.task t) <;> exact h
  | park t suspend => cases suspend <;> exact h
  | _ =>
    simp only [Act.apply, Core.makeReady, Core.untime, Core.linkMutex, Core.unlinkMutex, Core.dequeue,
      Core.dequeue?, Core.giveBack, Core.setSem, Core.withTask, Core.withMutex]
    exact h

theorem Does.inv {A : Act → Core → Prop} (hd : Does A s s') (h : Inv s) : Inv s' :=
  ⟨hd.ok, .path hd.path h.frames, hd.path.invariant h.lock fun _ _ _ hg => lockRange_apply hg⟩

/-- **Step**: an event that can happen keeps the invariant. -/
theorem Inv.step {a : Answer} (h : Inv s) (he : enabled s e = true) (hb : BootOk e s)
    (hs : Isix.step e s = .ok (s', a)) : Inv s' :=
  Does.inv ((step_does h he hb).of_ok hs) h

/-- **Runs**: the invariant holds in every state reached. -/
theorem Reachable.inv {C : Event → Kernel → Prop} (hC : ∀ e s, C e s → BootOk e s)
    (h : Reachable C s) : Inv s := by
  induction h with
  | init hi => exact .init hi
  | step _ he hc hs ih => exact ih.step he (hC _ _ hc) hs

end Isix
