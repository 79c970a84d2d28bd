import Isix.Core

/-!
# Isix.Effect

What one action does to one task, to one list and to one mutex.  `Act.onTask`
gives the part of a control block the blocked calls are about, `Act.queue` the
tasks on a wait list, `Act.onMutex` a mutex and `Act.onOwned` the mutexes of a
task; everything said about them over whole runs starts from these four.
-/

namespace Isix

open Function (update update_self update_of_ne update_apply)
open Intrusive (insertBefore)

/-! ## one task -/

/-- The part of a control block a blocked call reads and its wake-up writes. -/
structure Thread where
  state : ThrState
  obj : Obj
  waitAborted : Bool
  frame : Frame

def Task.thread (x : Task) : Thread := { x with }

/-- The control block of `u` after an action, as far as `Task.thread` sees it. -/
def Act.onTask (c : Core) (u : TaskId) (a : Act) : Task :=
  let x := c.task u
  match a with
  | .wake t _ msg => if u = t then { x with state := .ready, obj := .dmsg msg } else x
  | .signal _ t | .handover _ t =>
    if u = t then { x with state := .ready, obj := .dmsg isixEok } else x
  | .evict _ t _ => if u = t then { x with state := .ready, obj := .dmsg isixEdestroy } else x
  | .expire t w =>
    if u = t then
      { x with state := .ready, obj := if w = none then x.obj else .dmsg isixEtimeout }
    else x
  | .sleep k => if u = c.currp then k.write x else x
  | .reprio t _ =>
    if u = t then { x with state := if x.state.active then .ready else x.state } else x
  | .park t suspend =>
    if u = t then { abortWait suspend x with state := if suspend then .suspend else .zombie } else x
  | .unframe => if u = c.currp then { x with frame := .user } else x
  | .switch t =>
    if u = t then { x with state := .running }
    else if u = c.currp then { x with state := if x.state = .running then .ready else x.state }
    else x
  | .reap t => if u = t then { x with state := .exited } else x
  | .newTask y => if u = c.ntask then y else x
  | .start => if u = c.currp then { x with state := .running } else x
  | _ => x

namespace Core

variable {c : Core} {t u : TaskId}

theorem thread_withTask (g : Task → Task) :
    ((c.withTask t g).task u).thread = (if u = t then g (c.task u) else c.task u).thread := by
  by_cases hu : u = t
  · subst hu
    rw [withTask_self, if_pos rfl]
  · rw [withTask_of_ne g c hu, if_neg hu]

/-- A write of something else. -/
theorem thread_update {f : TaskId → Task} {y : Task} (hy : y.thread = (f t).thread) :
    (update f t y u).thread = (f u).thread := by
  by_cases hu : u = t
  · subst hu
    rw [update_self, hy]
  · rw [update_of_ne hu]

theorem thread_untime : ((c.untime t).task u).thread = (c.task u).thread :=
  thread_update rfl

theorem thread_addTime? {n : Nat} : ((c.addTime? t n).task u).thread = (c.task u).thread := by
  unfold addTime?
  split
  · rfl
  · exact thread_update rfl

theorem task_enqueue? {w : Option WaitHead} : (c.enqueue? t w).task = c.task := by
  cases w <;> rfl

theorem thread_linkMutex {m : MtxId} : ((c.linkMutex m t).task u).thread = (c.task u).thread :=
  thread_update rfl

theorem thread_unlinkMutex {m : MtxId} : ((c.unlinkMutex m).task u).thread = (c.task u).thread := by
  simp only [unlinkMutex]
  cases (c.mutex m).inode with
  | none => rfl
  | some o => exact thread_update rfl

theorem thread_makeReady {o : Obj} : ((c.makeReady t o).task u).thread =
    if u = t then { (c.task u).thread with state := .ready, obj := o } else (c.task u).thread := by
  unfold makeReady
  rw [thread_withTask]
  split
  · rename_i hu
    subst hu
    rw [withTask_self]
    rfl
  · rename_i hu
    rw [withTask_of_ne _ _ hu]

/-- What a woken task looks like. -/
theorem thread_woken {o : Obj} {c' : Core} (hc : ∀ u, (c'.task u).thread = (c.task u).thread) :
    ((c'.makeReady t o).task u).thread =
      (if u = t then { c.task u with state := .ready, obj := o } else c.task u).thread := by
  rw [thread_makeReady, hc]
  split <;> rfl

end Core

/-- **Effect on a task**: `Act.onTask` is what an action does to a thread. -/
theorem Act.thread_apply (a : Act) (c : Core) (u : TaskId) :
    ((a.apply c).task u).thread = (a.onTask c u).thread := by
  cases a with
  | wake t w msg => exact Core.thread_woken fun v => Core.thread_untime
  | signal x t =>
    exact Core.thread_woken fun v =>
      Core.thread_untime
  | expire t w =>
    refine (Core.thread_woken (c := c) fun v => ?_).trans ?_
    · exact Core.thread_untime
    · show _ = (if u = t then _ else _ : Task).thread
      split
      · rename_i hu
        rw [hu]
      · rfl
  | sleep k =>
    show ((Core.enqueue? c.currp k.head _).task u).thread = _
    rw [Core.task_enqueue?, Core.thread_addTime?]
    exact Core.thread_withTask k.write
  | reprio t p =>
    show ((Core.enqueue? t _ _).task u).thread = _
    rw [Core.task_enqueue?]
    refine (Core.thread_withTask _).trans ?_
    show _ = (if u = t then _ else _ : Task).thread
    split <;> rfl
  | park t suspend =>
    cases suspend
    all_goals simp only [apply, onTask, Core.enqueue, Core.thread_withTask, if_true, if_false,
      Bool.false_eq_true]
  | handover m t =>
    refine Core.thread_woken fun v => ?_
    rw [Core.thread_untime, Core.thread_linkMutex, Core.thread_unlinkMutex]
    rfl
  | evict m t p =>
    refine Core.thread_woken fun v => ?_
    rw [Core.thread_untime]
    exact Core.thread_update rfl
  | own m => exact Core.thread_linkMutex
  | free m => exact Core.thread_unlinkMutex
  | strip m clear => exact Core.thread_unlinkMutex
  | detach t w => exact Core.thread_untime
  | unframe => simp only [apply, onTask, Core.thread_withTask]
  | realPrio t p => exact Core.thread_update rfl
  | refcnt t n => exact Core.thread_update rfl
  | switch t =>
    simp only [apply, onTask, Core.thread_withTask]
    by_cases hu : u = t
    · subst hu
      simp only [if_true, Core.withTask, update_apply]
      split <;> rename_i he
      · rw [he]
      · rfl
    · simp only [hu, if_false, Core.thread_withTask]
  | reap t => simp only [apply, onTask, Core.thread_withTask, Core.dequeue]
  | newTask y =>
    show (update c.task c.ntask y u).thread = (if u = c.ntask then _ else _ : Task).thread
    rw [update_apply]
  | start => simp only [apply, onTask, Core.thread_withTask]
  | count m n | setSem x b | setEvent v b | pend | lock b | skipped n | yieldPending b | jiffies n | swap
  | unpend | current t | newSem b | newMutex | newCond | newEvent => rfl

/-! ## one list -/

/-- The tasks on the list of `w` after an action, in some order. -/
def Act.queue (c : Core) (w : WaitHead) : Act → List TaskId
  | .wake t w' _ | .expire t w' | .detach t w' =>
    if w' = some w then (c.lists w).erase t else c.lists w
  | .signal x t => if WaitHead.sem x = w then (c.lists w).erase t else c.lists w
  | .handover m t | .evict m t _ => if WaitHead.mtx m = w then (c.lists w).erase t else c.lists w
  | .sleep k => if k.head = some w then c.currp :: c.lists w else c.lists w
  | .park t suspend => if suspend = false ∧ WaitHead.zombie = w then t :: c.lists w else c.lists w
  | .reap t => if WaitHead.zombie = w then (c.lists w).erase t else c.lists w
  | .newTask _ => if WaitHead.exit c.ntask = w then [] else c.lists w
  | .newSem _ => if WaitHead.sem c.nsem = w then [] else c.lists w
  | .newMutex => if WaitHead.mtx c.nmtx = w then [] else c.lists w
  | .newCond => if WaitHead.cond c.ncond = w then [] else c.lists w
  | .newEvent => if WaitHead.evt c.nevt = w then [] else c.lists w
  | _ => c.lists w

namespace Core

variable {c : Core} {t : TaskId} {w : WaitHead}

theorem lists_dequeue {w' : WaitHead} :
    (c.dequeue t w').lists w = if w' = w then (c.lists w).erase t else c.lists w := by
  simp only [dequeue, update_apply, eq_comm]
  split
  · rename_i h
    rw [h]
  · rfl

theorem lists_dequeue? {w' : Option WaitHead} :
    (c.dequeue? t w').lists w = if w' = some w then (c.lists w).erase t else c.lists w := by
  cases w' with
  | none => rfl
  | some w' =>
    rw [show (c.dequeue? t (some w')).lists w = (c.dequeue t w').lists w from rfl, lists_dequeue]
    simp only [Option.some.injEq]

theorem lists_enqueue {w' : WaitHead} : ((c.enqueue t w').lists w).Perm
    (if w' = w then t :: c.lists w else c.lists w) := by
  simp only [enqueue, update_apply, eq_comm]
  split
  · rename_i h
    subst h
    split
    · exact Intrusive.insertBefore_perm _ _ _
    · exact List.perm_append_singleton _ _
  · exact .refl _

theorem lists_enqueue? {w' : Option WaitHead} : ((c.enqueue? t w').lists w).Perm
    (if w' = some w then t :: c.lists w else c.lists w) := by
  cases w' with
  | none => exact .refl _
  | some w' =>
    simp only [Option.some.injEq]
    exact lists_enqueue

theorem lists_addTime? {n : Nat} : (c.addTime? t n).lists = c.lists := by
  unfold addTime?
  split <;> rfl

/-- The list a waiting task is requeued on holds it. -/
theorem prioHead_of_sits {w' : Option WaitHead} (h : Sits t w' c) (hp : prioHead (c.task t) = some w) :
    t ∈ c.lists w := by
  have hw' : w' = some w := by
    unfold prioHead at hp
    split at hp
    all_goals cases hp
    all_goals
      rename_i hs ho
      have hwaits := h.waits
      cases w' with
      | none => simp [Waits, hs] at hwaits
      | some w' => cases w' <;> simp_all [Waits]
  have hc := h.count w
  rw [if_pos hw'] at hc
  exact List.count_pos_iff.mp (by omega)

end Core

/-- **Effect on a list**: `Act.queue` is what an action leaves on a list. -/
theorem Act.lists_apply [Config] {a : Act} {c : Core} (hg : a.guard c) (w : WaitHead) :
    ((a.apply c).lists w).Perm (a.queue c w) := by
  cases a with
  | wake t w' msg => exact .of_eq Core.lists_dequeue?
  | signal x t => exact .of_eq (Core.lists_dequeue)
  | expire t w' => exact .of_eq Core.lists_dequeue?
  | detach t w' => exact .of_eq (Core.lists_dequeue?)
  | sleep k =>
    refine (Core.lists_enqueue?).trans (.of_eq ?_)
    rw [Core.lists_addTime?]
    rfl
  | reprio t p =>
    obtain ⟨⟨w', hsit⟩, -⟩ := hg
    refine (Core.lists_enqueue?).trans ?_
    have hl : ∀ w' : Option WaitHead, (Core.withTask t (fun x => { x with
        prio := p, state := if x.state.active then .ready else x.state }) (c.dequeue? t w')).lists w =
        (c.dequeue? t w').lists w := fun _ => rfl
    rw [hl, Core.lists_dequeue?]
    split
    · rename_i hp
      exact (List.perm_cons_erase (Core.prioHead_of_sits hsit hp)).symm
    · exact .refl _
  | park t suspend =>
    cases suspend with
    | true => exact .refl _
    | false =>
      have hperm : ((Core.enqueue t .zombie (c.withTask t fun x => { abortWait false x with
          state := .zombie })).lists w).Perm (if WaitHead.zombie = w then t :: c.lists w else c.lists w) :=
        Core.lists_enqueue
      simp only [queue, true_and]
      exact hperm
  | handover m t =>
    simp only [apply, Core.makeReady, Core.untime, Core.linkMutex, Core.unlinkMutex, Core.withTask,
      Core.withMutex]
    exact .of_eq Core.lists_dequeue
  | evict m t p => exact .of_eq Core.lists_dequeue
  | reap t => exact .of_eq Core.lists_dequeue
  | newTask x | newSem b | newMutex | newCond | newEvent =>
    refine .of_eq ?_
    simp only [apply, queue, update_apply, eq_comm]
  | own m | count m n | free m | strip m clear | setSem x b | setEvent v b | unframe | realPrio t p
  | refcnt t n | pend | lock b | skipped n | yieldPending b | jiffies n | swap | unpend | switch t
  | current t | start => exact .refl _

/-! ## one mutex -/

/-- A mutex after an action. -/
def Act.onMutex (c : Core) (m : MtxId) (a : Act) : Mutex :=
  let x := c.mutex m
  match a with
  | .own m' =>
    if m = m' then { count := toInt32 (x.count + 1), owner := some c.currp, inode := some c.currp }
    else x
  | .count m' n => if m = m' then { x with count := n } else x
  | .free m' => if m = m' then { count := 0, owner := none, inode := none } else x
  | .strip m' clear =>
    if m = m' then { count := 0, owner := if clear then none else x.owner, inode := none } else x
  | .handover m' t => if m = m' then { count := 1, owner := some t, inode := some t } else x
  | .newMutex => if m = c.nmtx then { count := 0, owner := none, inode := none } else x
  | _ => x

/-- The mutexes of `u` after an action. -/
def Act.onOwned (c : Core) (u : TaskId) (a : Act) : List MtxId :=
  let l := (c.task u).ownedMutexes
  match a with
  | .own m => if u = c.currp then Kernel.insertFirst m l else l
  | .free m | .strip m _ => if (c.mutex m).inode = some u then l.erase m else l
  | .handover m t =>
    let l := if (c.mutex m).inode = some u then l.erase m else l
    if u = t then Kernel.insertFirst m l else l
  | .newTask y => if u = c.ntask then y.ownedMutexes else l
  | _ => l

namespace Core

variable {c : Core} {t u : TaskId} {m m' : MtxId}

theorem mutex_enqueue? {w : Option WaitHead} : (c.enqueue? t w).mutex = c.mutex := by
  cases w <;> rfl

theorem mutex_addTime? {n : Nat} : (c.addTime? t n).mutex = c.mutex := by
  unfold addTime?
  split <;> rfl

/-- A write of something else. -/
theorem owned_write {f : TaskId → Task} {y : Task} (hy : y.ownedMutexes = (f t).ownedMutexes) :
    (update f t y u).ownedMutexes = (f u).ownedMutexes := by
  by_cases hu : u = t
  · subst hu
    rw [update_self, hy]
  · rw [update_of_ne hu]

theorem owned_untime : ((c.untime t).task u).ownedMutexes = (c.task u).ownedMutexes :=
  owned_write rfl

theorem owned_addTime? {n : Nat} : ((c.addTime? t n).task u).ownedMutexes = (c.task u).ownedMutexes := by
  unfold addTime?
  split
  · rfl
  · exact owned_write rfl

theorem owned_makeReady {o : Obj} :
    ((c.makeReady t o).task u).ownedMutexes = (c.task u).ownedMutexes := by
  have hobj : ((c.withTask t fun x => { x with obj := o }).task u).ownedMutexes =
      (c.task u).ownedMutexes := owned_write rfl
  rw [← hobj]
  exact owned_write (f := (c.withTask t fun x => { x with obj := o }).task) rfl

/-- What `unlinkMutex` does to the tasks. -/
theorem unlinkMutex_task (u : TaskId) : (c.unlinkMutex m).task u =
    if (c.mutex m).inode = some u then
      { c.task u with ownedMutexes := (c.task u).ownedMutexes.erase m } else c.task u := by
  unfold unlinkMutex
  cases hi : (c.mutex m).inode with
  | none => simp
  | some o =>
    by_cases hu : u = o
    · subst hu
      simp
    · have : o ≠ u := fun he => hu he.symm
      simp [hu, this]

theorem owned_unlinkMutex : ((c.unlinkMutex m).task u).ownedMutexes =
    if (c.mutex m).inode = some u then (c.task u).ownedMutexes.erase m
    else (c.task u).ownedMutexes := by
  rw [unlinkMutex_task]
  split <;> rfl

theorem owned_linkMutex : ((c.linkMutex m t).task u).ownedMutexes =
    if u = t then Kernel.insertFirst m (c.task u).ownedMutexes else (c.task u).ownedMutexes := by
  unfold linkMutex
  split
  · rename_i hu
    subst hu
    rw [withTask_self]
    rfl
  · rename_i hu
    rw [withTask_of_ne _ _ hu]
    rfl

end Core

/-- **Effect on a mutex**: `Act.onMutex` is what an action leaves of a mutex. -/
theorem Act.mutex_apply (a : Act) (c : Core) (m : MtxId) : (a.apply c).mutex m = a.onMutex c m := by
  cases a with
  | own m' | count m' n | free m' | strip m' clear | handover m' t =>
    simp only [apply, onMutex, Core.makeReady, Core.untime, Core.dequeue, Core.linkMutex, Core.unlinkMutex,
      Core.withTask, Core.withMutex]
    by_cases hm : m = m'
    · subst hm
      simp
    · simp [hm]
  | newMutex =>
    show update c.mutex c.nmtx _ m = _
    rw [update_apply]
    rfl
  | sleep k =>
    show ((Core.enqueue? c.currp k.head _).mutex m) = _
    rw [Core.mutex_enqueue?, Core.mutex_addTime?]
    rfl
  | reprio t p =>
    show ((Core.enqueue? t _ _).mutex m) = _
    rw [Core.mutex_enqueue?]
    rfl
  | park t suspend => cases suspend <;> rfl
  | wake t w msg | signal x t | expire t w | detach t w | evict m' t p | setSem x b | setEvent v b | unframe
  | realPrio t p | refcnt t n | pend | lock b | skipped n | yieldPending b | jiffies n | swap | unpend
  | switch t | current t | reap t | newTask y | newSem b | newCond | newEvent | start => rfl

/-- **Effect on an owner**: `Act.onOwned` is what an action leaves on an
`owned_mutexes` list. -/
theorem Act.owned_apply (a : Act) (c : Core) (u : TaskId) :
    ((a.apply c).task u).ownedMutexes = a.onOwned c u := by
  cases a with
  | wake t w msg =>
    show (((Core.untime t _).makeReady t _).task u).ownedMutexes = _
    rw [Core.owned_makeReady, Core.owned_untime]
    rfl
  | signal x t =>
    show (((Core.untime t _).makeReady t _).task u).ownedMutexes = _
    rw [Core.owned_makeReady, Core.owned_untime]
    rfl
  | expire t w =>
    show ((Core.makeReady t _ _).task u).ownedMutexes = _
    rw [Core.owned_makeReady]
    exact Core.owned_untime
  | sleep k =>
    show ((Core.enqueue? c.currp k.head _).task u).ownedMutexes = _
    rw [Core.task_enqueue?, Core.owned_addTime?]
    refine Core.owned_write ?_
    cases k <;> rfl
  | reprio t p =>
    show ((Core.enqueue? t _ _).task u).ownedMutexes = _
    rw [Core.task_enqueue?]
    exact Core.owned_write rfl
  | detach t w => exact Core.owned_untime
  | park t suspend =>
    cases suspend
    all_goals exact Core.owned_write rfl
  | own m => exact Core.owned_linkMutex
  | free m => exact Core.owned_unlinkMutex
  | strip m clear => exact Core.owned_unlinkMutex
  | handover m t =>
    show (((Core.untime t (Core.linkMutex m t (Core.unlinkMutex m _))).makeReady t _).task u).ownedMutexes = _
    rw [Core.owned_makeReady, Core.owned_untime, Core.owned_linkMutex, Core.owned_unlinkMutex]
    simp only [onOwned, Core.dequeue, Core.withMutex, update_self]
  | evict m t p =>
    show (((Core.untime t (Core.withTask t _ (c.dequeue t _))).makeReady t _).task u).ownedMutexes = _
    rw [Core.owned_makeReady, Core.owned_untime]
    exact Core.owned_write rfl
  | unframe | realPrio t p | refcnt t n | start => exact Core.owned_write rfl
  | switch t =>
    have hleft : ((c.withTask c.currp fun x => { x with
        state := if x.state = .running then .ready else x.state }).task u).ownedMutexes =
        (c.task u).ownedMutexes := Core.owned_write rfl
    refine Eq.trans ?_ hleft
    exact Core.owned_write (f := (c.withTask c.currp fun x => { x with
      state := if x.state = .running then .ready else x.state }).task) rfl
  | reap t => exact Core.owned_write rfl
  | newTask y =>
    show (update c.task c.ntask y u).ownedMutexes = _
    rw [update_apply]
    simp only [onOwned]
    split <;> rfl
  | count m n | setSem x b | setEvent v b | pend | lock b | skipped n | yieldPending b | jiffies n | swap
  | unpend | current t | newSem b | newMutex | newCond | newEvent => rfl

/-- Actions that leave the `owned_mutexes` lists alone. -/
def Act.keepsOwned : Act → Bool
  | .own _ | .free _ | .strip _ _ | .handover _ _ | .newTask _ => false
  | _ => true

theorem Path.owned [Config] {A : Act → Core → Prop} {c c' : Core}
    (h : Path (fun a c => A a c ∧ a.keepsOwned) c c') (t : TaskId) :
    (c'.task t).ownedMutexes = (c.task t).ownedMutexes := by
  induction h with
  | refl => rfl
  | step a _ ha hg ih =>
    rw [Act.owned_apply, ← ih]
    cases a <;> first | rfl | cases ha.2

end Isix
