import Isix.Effect

/-!
# Isix.Frames

The frames of the blocked calls.  A frame refers to objects that exist; a task
on a wait list is in the call that put it there, with the bits it asked for and
a clear `wait_aborted`; a task that can run again has its message.
-/

namespace Isix

open Function (update)

/-! ## the invariant -/

/-- The arguments in the frame of `t` are in range. -/
def Frame.valid (c : Core) (t : TaskId) : Frame → Prop
  | .user | .wait => True
  | .semWait x timeout _ => x < c.nsem ∧ timeout < tickMod
  | .mutexLock m | .condvarWait m => m < c.nmtx
  | .eventWait v bits _ _ timeout _ | .eventSync v bits timeout _ =>
    v < c.nevt ∧ bits &&& ctrlBits = 0#32 ∧ timeout < tickMod
  | .taskWaitFor u => u < c.ntask ∧ u ≠ t

/-- The thread of a task on the list of `w`. -/
def Thread.waitsOn (x : Thread) : WaitHead → Prop
  | .sem i => (∃ timeout start, x.frame = .semWait i timeout start) ∧ x.waitAborted = false
  | .mtx m => x.frame = .mutexLock m ∧ x.waitAborted = false
  | .cond _ => ∃ m, x.frame = .condvarWait m
  | .evt v => (∃ b, x.obj = .evbits b ∧ x.frame.asks v b) ∧ x.waitAborted = false
  | .exit u => x.frame = .taskWaitFor u ∧ x.waitAborted = false
  | .zombie => True

/-- Only the state of a thread changed. -/
theorem Thread.waitsOn.congr {x y : Thread} {w : WaitHead} (h : x.waitsOn w) (ho : y.obj = x.obj)
    (ha : y.waitAborted = x.waitAborted) (hf : y.frame = x.frame) : y.waitsOn w := by
  cases w <;> simp only [Thread.waitsOn, ho, ha, hf] at * <;> exact h

/-- The thread of a task, whatever list it is on. -/
structure Thread.Inv (x : Thread) : Prop where
  sleeping : x.state = .sleeping → x.frame = .wait
  ready : x.state.active → x.frame = .user ∨ x.frame = .wait ∨ ∃ r, x.obj = .dmsg r

namespace Thread.Inv

variable {x y : Thread}

/-- A woken task has its message. -/
theorem woken (x : Task) (msg : Int) :
    ({ x with state := .ready, obj := .dmsg msg } : Task).thread.Inv :=
  ⟨fun h => (by cases h), fun _ => .inr (.inr ⟨msg, rfl⟩)⟩

theorem other (hs : x.state ≠ .sleeping) (ha : x.state.active = false) : x.Inv :=
  ⟨fun h => absurd h hs, fun h => (by rw [ha] at h; cases h)⟩

/-- The state changes between READY and RUNNING. -/
theorem runs (h : x.Inv) (ha : x.state.active) (hs : y.state ≠ .sleeping) (ho : y.obj = x.obj)
    (hf : y.frame = x.frame) : y.Inv := by
  refine ⟨fun h => absurd h hs, fun _ => ?_⟩
  rw [ho, hf]
  exact h.ready ha

end Thread.Inv

structure FrameInv (c : Core) : Prop where
  valid : ∀ t, (c.task t).frame.valid c t
  idle : (c.task idle).frame = .user
  listed : ∀ w, ∀ t ∈ c.lists w, (c.task t).thread.waitsOn w
  thread : ∀ t, (c.task t).thread.Inv

/-! ## objects are not removed -/

/-- `c'` has the objects of `c`. -/
structure Core.Grows (c c' : Core) : Prop where
  ntask : c.ntask ≤ c'.ntask
  nsem : c.nsem ≤ c'.nsem
  nmtx : c.nmtx ≤ c'.nmtx
  ncond : c.ncond ≤ c'.ncond
  nevt : c.nevt ≤ c'.nevt

theorem Core.Grows.refl (c : Core) : c.Grows c := by constructor <;> exact Nat.le_refl _

theorem Core.Grows.trans {c c' c'' : Core} (h : c.Grows c') (h' : c'.Grows c'') : c.Grows c'' :=
  ⟨h.ntask.trans h'.ntask, h.nsem.trans h'.nsem, h.nmtx.trans h'.nmtx, h.ncond.trans h'.ncond,
    h.nevt.trans h'.nevt⟩

variable {c : Core} {t : TaskId}

theorem Core.grows_enqueue? {w : Option WaitHead} : c.Grows (c.enqueue? t w) := by
  cases w with
  | none => exact .refl c
  | some w => constructor <;> exact Nat.le_refl _

theorem Core.grows_addTime? {n : Nat} : c.Grows (c.addTime? t n) := by
  unfold addTime?
  split
  · exact .refl c
  · constructor <;> simp only [addTime, withTask, Nat.le_refl]

theorem Act.grows (a : Act) (c : Core) : c.Grows (a.apply c) := by
  cases a with
  | newTask x | newSem b | newMutex | newCond | newEvent => constructor <;> simp [apply]
  | sleep k =>
    have h : c.Grows ((c.takeUnit k).withTask c.currp k.write) := by
      constructor <;> simp only [Core.takeUnit, Core.withTask, Nat.le_refl]
    exact (h.trans Core.grows_addTime?).trans Core.grows_enqueue?
  | reprio t p =>
    refine Core.Grows.trans ?_ Core.grows_enqueue?
    constructor <;> simp only [Core.dequeue?, Core.withTask, Nat.le_refl]
  | park t suspend =>
    cases suspend
    all_goals constructor <;> simp only [apply, Core.enqueue, Core.withTask, if_true, if_false,
      Bool.false_eq_true, Nat.le_refl]
  | _ =>
    constructor
    all_goals
      simp only [apply, Core.makeReady, Core.untime, Core.linkMutex, Core.unlinkMutex, Core.dequeue,
        Core.dequeue?, Core.giveBack, Core.setSem, Core.withTask, Core.withMutex, Nat.le_refl]

theorem Frame.valid.mono {c c' : Core} {f : Frame} (h : f.valid c t) (hc : c.Grows c') :
    f.valid c' t := by
  cases f with
  | user | wait => trivial
  | semWait x timeout start => exact ⟨Nat.lt_of_lt_of_le h.1 hc.nsem, h.2⟩
  | mutexLock m | condvarWait m => exact Nat.lt_of_lt_of_le h hc.nmtx
  | eventWait v bits clear all timeout start | eventSync v bits timeout start =>
    exact ⟨Nat.lt_of_lt_of_le h.1 hc.nevt, h.2⟩
  | taskWaitFor u => exact ⟨Nat.lt_of_lt_of_le h.1 hc.ntask, h.2⟩

/-! ## actions -/

/-- The frame a sleep stores. -/
theorem Sleep.valid.frame {k : Sleep} (h : k.valid c) (x : Task) :
    (k.write x).frame.valid c c.currp := by
  cases k with
  | sem x timeout start tout => exact ⟨h.1, h.2.1⟩
  | mutex m => exact h.1
  | cond v m tout => exact h.2.1
  | event v evbits tout frame =>
    obtain ⟨hv, -, hasks⟩ := h
    cases frame with
    | eventWait v' bits clear all timeout start =>
      obtain ⟨rfl, -, hbits, ht⟩ := hasks
      exact ⟨hv, hbits, ht⟩
    | eventSync v' bits timeout start =>
      obtain ⟨rfl, -, hbits, ht⟩ := hasks
      exact ⟨hv, hbits, ht⟩
    | _ => exact hasks.elim
  | exit t => exact h
  | time tout => trivial

/-- The list a sleep ends on. -/
theorem Sleep.valid.waitsOn {k : Sleep} {w : WaitHead} (h : k.valid c) (x : Task)
    (hk : k.head = some w) : (k.write x).thread.waitsOn w := by
  cases k with
  | sem i timeout start tout =>
    cases hk
    exact ⟨⟨timeout, start, rfl⟩, rfl⟩
  | mutex m =>
    cases hk
    exact ⟨rfl, rfl⟩
  | cond v m tout =>
    cases hk
    exact ⟨m, rfl⟩
  | event v evbits tout frame =>
    cases hk
    exact ⟨⟨evbits, rfl, h.2.2⟩, rfl⟩
  | exit t =>
    cases hk
    exact ⟨rfl, rfl⟩
  | time tout => cases hk

theorem Sleep.inv (k : Sleep) (x : Task) : (k.write x).thread.Inv := by
  constructor
  · cases k <;> intro h <;> first | rfl | cases h
  · cases k <;> intro h <;> cases h

theorem Sits.eq_of_mem {w : Option WaitHead} {w' : WaitHead} (h : Sits t w c)
    (ht : t ∈ c.lists w') : w = some w' := by
  by_contra hne
  have hc := h.count w'
  rw [if_neg hne] at hc
  exact List.count_eq_zero.mp hc ht

/-- A task that leaves its list is not on it afterwards. -/
theorem Sits.not_mem_erase {w : Option WaitHead} {w' : WaitHead}
    (h : Sits t w c) : t ∉ (c.lists w').erase t := by
  intro ht
  have hc := h.count w'
  have hpos := List.count_pos_iff.mpr ht
  rw [List.count_erase_self] at hpos
  split at hc <;> omega

/-- A task stays on a list by waiting: but for its state an action leaves alone
the tasks that are on a list afterwards, the one that goes to sleep apart. -/
theorem Act.listed [Config] {w : WaitHead} {u : TaskId} (a : Act) (hg : a.guard c)
    (hz : w ≠ .zombie) (hu : u ∈ a.queue c w)
    (hk : ∀ k, a = .sleep k → k.head = some w → u ≠ c.currp) :
    u ∈ c.lists w ∧ (a.onTask c u).thread =
      { (c.task u).thread with state := (a.onTask c u).state } := by
  -- the task that leaves its list, or was on none, is not the one asked about
  have hleft : ∀ {t : TaskId} {w' : Option WaitHead}, Sits t w' c →
      u ∈ (if w' = some w then (c.lists w).erase t else c.lists w) → u ∈ c.lists w ∧ u ≠ t := by
    intro t w' hsit hmem
    split at hmem
    · refine ⟨List.mem_of_mem_erase hmem, ?_⟩
      rintro rfl
      exact hsit.not_mem_erase hmem
    · rename_i hne
      refine ⟨hmem, ?_⟩
      rintro rfl
      exact hne (hsit.eq_of_mem hmem)
  have hcurr : Sits c.currp none c → u ∈ c.lists w → u ≠ c.currp := by
    rintro hsit hmem rfl
    cases hsit.eq_of_mem hmem
  cases a with
  | wake t w' msg | expire t w' =>
    obtain ⟨hmem, hne⟩ := hleft hg.1 hu
    simp only [Act.onTask, if_neg hne]
    exact ⟨hmem, rfl⟩
  | signal x t | handover m t | evict m t p =>
    obtain ⟨hmem, hne⟩ := hleft hg.1 (by simpa only [Act.queue, Option.some.injEq] using hu)
    simp only [Act.onTask, if_neg hne]
    exact ⟨hmem, rfl⟩
  | detach t w' => exact ⟨(hleft hg.1 hu).1, rfl⟩
  | sleep k =>
    simp only [Act.queue] at hu
    by_cases hw : k.head = some w
    · rw [if_pos hw] at hu
      have hne := hk k rfl hw
      simp only [Act.onTask, if_neg hne]
      exact ⟨(List.mem_cons.mp hu).resolve_left hne, rfl⟩
    · rw [if_neg hw] at hu
      simp only [Act.onTask, if_neg (hcurr hg.1 hu)]
      exact ⟨hu, rfl⟩
  | park t suspend =>
    simp only [Act.queue] at hu
    rw [if_neg fun h => hz h.2.symm] at hu
    have hne : u ≠ t := by
      rintro rfl
      exact hg.1 w hu
    simp only [Act.onTask, if_neg hne]
    exact ⟨hu, rfl⟩
  | unframe =>
    simp only [Act.onTask, if_neg (hcurr hg.1 hu)]
    exact ⟨hu, rfl⟩
  | reprio t p | start =>
    simp only [Act.onTask]
    split <;> exact ⟨hu, rfl⟩
  | switch t =>
    simp only [Act.onTask]
    split
    · exact ⟨hu, rfl⟩
    · split <;> exact ⟨hu, rfl⟩
  | reap t =>
    have hmem : u ∈ c.lists w := by
      simp only [Act.queue] at hu
      split at hu
      · exact List.mem_of_mem_erase hu
      · exact hu
    simp only [Act.onTask]
    split <;> exact ⟨hmem, rfl⟩
  | newTask y =>
    simp only [Act.queue] at hu
    split at hu
    · cases hu
    · have hne : u ≠ c.ntask := by
        rintro rfl
        exact hg.2.2.2.2.2.1 w hu
      simp only [Act.onTask, if_neg hne]
      exact ⟨hu, rfl⟩
  | newSem b | newMutex | newCond | newEvent =>
    simp only [Act.queue] at hu
    split at hu
    · cases hu
    · exact ⟨hu, rfl⟩
  | _ => exact ⟨hu, rfl⟩

/-- The frame of a task stays or is cleared, unless the task goes to sleep. -/
theorem Act.frame_onTask [Config] {c : Core} {a : Act} (hg : a.guard c) (u : TaskId) :
    (a.onTask c u).frame = (c.task u).frame ∨ (a.onTask c u).frame = .user ∨ ∃ k, a = .sleep k ∧ u = c.currp := by
  cases a with
  | sleep k =>
    simp only [Act.onTask]
    split
    next hu => exact .inr (.inr ⟨k, rfl, hu⟩)
    next => exact .inl rfl
  | unframe =>
    simp only [Act.onTask]
    split
    · exact .inr (.inl rfl)
    · exact .inl rfl
  | newTask y =>
    simp only [Act.onTask]
    split
    · exact .inr (.inl hg.2.2.2.2.2.2.2)
    · exact .inl rfl
  | switch t =>
    simp only [Act.onTask]
    split
    · exact .inl rfl
    · split <;> exact .inl rfl
  | wake t w msg | signal x t | handover m t | evict m t p | expire t w | reprio t p | park t suspend
  | reap t | start =>
    simp only [Act.onTask]
    split <;> exact .inl rfl
  | _ => exact .inl rfl

namespace FrameInv

variable [Config] {c : Core} {a : Act} {w : WaitHead} {t : TaskId}

section

variable (h : FrameInv c)

include h

section

variable (hg : a.guard c)

include hg

theorem frame_valid (u : TaskId) :
    (a.onTask c u).frame.valid c u := by
  rcases Act.frame_onTask hg u with hf | hf | ⟨k, rfl, rfl⟩
  · rw [hf]
    exact h.valid u
  · rw [hf]
    trivial
  · simp only [Act.onTask, if_true]
    exact hg.2.2.2.2.frame _

theorem frame_idle : (a.onTask c Isix.idle).frame = .user := by
  rcases Act.frame_onTask hg Isix.idle with hf | hf | ⟨k, rfl, hu⟩
  · exact hf.trans h.idle
  · exact hf
  · exact (hg.2.1 hu.symm).elim

theorem thread_inv (u : TaskId) : (a.onTask c u).thread.Inv := by
  have hu := h.thread u
  cases a with
  | wake t w msg | signal x t | handover m t | evict m t p =>
    simp only [Act.onTask]
    split
    · exact .woken _ _
    · exact hu
  | expire t w =>
    simp only [Act.onTask]
    split
    · rename_i hut
      subst hut
      cases w with
      | none =>
        -- no list: the task is in `isix_wait`
        have hs : (c.task u).state = .sleeping := by
          have hw := hg.1.waits
          have ht := hg.2.1
          cases hst : (c.task u).state <;> simp_all [Waits, ThrState.timed]
        exact ⟨fun h => (by cases h), fun _ => .inr (.inl (hu.sleeping hs))⟩
      | some w => exact .woken _ _
    · exact hu
  | sleep k =>
    simp only [Act.onTask]
    split
    · exact k.inv _
    · exact hu
  | reprio t p =>
    simp only [Act.onTask]
    split
    · cases ha : (c.task u).state.active with
      | true => exact hu.runs ha (by simp [Task.thread]) rfl rfl
      | false => exact hu
    · exact hu
  | park t suspend =>
    simp only [Act.onTask]
    split
    · cases suspend
      · exact .other (by simp [Task.thread]) rfl
      · exact .other (by simp [Task.thread]) rfl
    · exact hu
  | unframe =>
    simp only [Act.onTask]
    split
    · rename_i hut
      subst hut
      refine ⟨fun hs => ?_, fun _ => .inl rfl⟩
      have ha := hg.2
      rw [show (c.task c.currp).state = .sleeping from hs] at ha
      cases ha
    · exact hu
  | switch t =>
    simp only [Act.onTask]
    split
    · rename_i hut
      subst hut
      exact hu.runs hg.1 (by simp [Task.thread]) rfl rfl
    · split
      · split
        · rename_i hrun
          exact hu.runs (show (c.task u).state.active by rw [hrun]; rfl) (by simp [Task.thread]) rfl rfl
        · exact hu
      · exact hu
  | reap t =>
    simp only [Act.onTask]
    split
    · exact .other (by simp [Task.thread]) rfl
    · exact hu
  | newTask y =>
    simp only [Act.onTask]
    split
    · refine .other hg.2.2.2.2.2.2.1 ?_
      have hasl := hg.2.2.1
      show y.state.active = false
      cases hst : y.state <;> simp_all [ThrState.asleep, ThrState.active]
    · exact hu
  | start =>
    simp only [Act.onTask]
    split
    · rename_i hut
      subst hut
      exact hu.runs (show (c.task c.currp).state.active by rw [hg.2]; rfl) (by simp [Task.thread])
        rfl rfl
    · exact hu
  | _ => exact hu

theorem waitsOn_queue {u : TaskId} (hu : u ∈ a.queue c w) :
    (a.onTask c u).thread.waitsOn w := by
  by_cases hz : w = .zombie
  · rw [hz]
    trivial
  by_cases hk : ∃ k, a = .sleep k ∧ k.head = some w ∧ u = c.currp
  · obtain ⟨k, rfl, hk, rfl⟩ := hk
    simp only [Act.onTask, if_true]
    exact hg.2.2.2.2.waitsOn _ hk
  · obtain ⟨hmem, hsame⟩ := a.listed hg hz hu fun k ha hk' hu' => hk ⟨k, ha, hk', hu'⟩
    rw [hsame]
    exact (h.listed w u hmem).congr rfl rfl rfl

/-- **Step**: every action keeps the frames in order. -/
theorem act : FrameInv (a.apply c) := by
  refine ⟨fun t => ?_, ?_, fun w t ht => ?_, fun t => ?_⟩
  · have hf : ((a.apply c).task t).frame = (a.onTask c t).frame :=
      congrArg Thread.frame (a.thread_apply c t)
    rw [hf]
    exact (h.frame_valid hg t).mono (a.grows c)
  · have hf : ((a.apply c).task Isix.idle).frame = (a.onTask c Isix.idle).frame :=
      congrArg Thread.frame (a.thread_apply c _)
    rw [hf]
    exact h.frame_idle hg
  · rw [a.thread_apply c t]
    exact h.waitsOn_queue hg ((Act.lists_apply hg w).mem_iff.mp ht)
  · rw [a.thread_apply c t]
    exact h.thread_inv hg t

end

end

theorem path {A : Act → Core → Prop} {c' : Core} (hp : Path A c c') (h : FrameInv c) : FrameInv c' :=
  hp.invariant h fun _ _ _ hg hc => hc.act hg

end FrameInv

end Isix
