import Isix.Core

/-!
# Isix.Invariant

The invariant of the core: timeout lists that agree with `inode_time`, ordered
wait lists, the count of the zombies, the ownership lists of the mutexes,
priorities in range and one RUNNING task.

Every part has its rules for the functions the actions are made of (a write to
one task, leaving and joining a list, a mutex changing hands); `CoreInv.act`
puts them together, action by action.  In the middle of an unlock or a destroy
one mutex has waiters but is on no list: `CoreInv (some m)` allows that.
-/

namespace Isix

open Function (update update_self update_eq_self)
open Intrusive (Linked insertBefore)

/-! ## the parts -/

/-- The timeout lists are in order; the deadlines on the current list come before
the tick counter wraps, those on the other one after that. -/
structure DeadlineInv (c : Core) : Prop where
  tick : c.jiffies < tickMod
  sorted : ∀ b, (c.waitLists b).Pairwise fun t u => (c.task t).jiffies ≤ (c.task u).jiffies
  lt : ∀ b, ∀ t ∈ c.waitLists b, (c.task t).jiffies < tickMod
  current : ∀ t ∈ c.waitLists c.pWaitList, c.jiffies < (c.task t).jiffies
  later : ∀ t ∈ c.waitLists (!c.pWaitList), (c.task t).jiffies < c.jiffies
  stopped : c.schrun = false → ∀ b, c.waitLists b = []

/-- The timeout lists and `inode_time` agree, and only sleeping tasks have a
timeout. -/
structure TimeInv (c : Core) : Prop where
  linked : Linked c.waitLists fun t => (c.task t).inodeTime
  timed : ∀ t, (c.task t).inodeTime ≠ none → (c.task t).state.timed
  deadlines : DeadlineInv c

/-- The wait lists of semaphores, mutexes and condition variables are in
priority order; no task waits for its own end. -/
structure ListInv (c : Core) : Prop where
  sorted : ∀ w, w.byPrio → (c.lists w).Pairwise fun a b => (c.task a).prio ≤ (c.task b).prio
  nodup : ∀ w, (c.lists w).Nodup
  zombies : c.numberOfTaskDeleted = (c.lists .zombie).length
  valid : ∀ w, ¬w.exists? c → c.lists w = []
  exit_ne : ∀ t, t ∉ c.lists (.exit t)

/-- A mutex is on the list of its owner; only an owned mutex has waiters. -/
structure MutexInv (x : Option MtxId) (c : Core) : Prop where
  linked : Linked (fun t => (c.task t).ownedMutexes) fun m => (c.mutex m).inode
  owner : ∀ m, x ≠ some m → (c.mutex m).owner = (c.mutex m).inode
  unowned : ∀ m, x ≠ some m → (c.mutex m).owner = none →
    (c.mutex m).count = 0 ∧ c.lists (.mtx m) = []
  waiter_ne : ∀ m, x ≠ some m → ∀ t ∈ c.lists (.mtx m), (c.mutex m).owner ≠ some t
  dead : ∀ t, (c.task t).state.dead → (c.task t).ownedMutexes = []
  fresh : ∀ m, c.nmtx ≤ m → c.mutex m = { count := 0, owner := none, inode := none }

variable {c : Core} {x : Option MtxId} {t : TaskId} {g : Task → Task} {w : WaitHead}

/-! ## writing to one task -/

variable {c' : Core}

/-- Tasks may leave the timeout lists. -/
theorem DeadlineInv.congr (h : DeadlineInv c) (hj : c'.jiffies = c.jiffies)
    (hp : c'.pWaitList = c.pWaitList) (hr : c'.schrun = c.schrun)
    (hw : ∀ b, (c'.waitLists b).Sublist (c.waitLists b))
    (ht : ∀ b, ∀ t ∈ c'.waitLists b, (c'.task t).jiffies = (c.task t).jiffies) : DeadlineInv c' := by
  refine ⟨hj ▸ h.tick, fun b => ?_, fun b t hm => ?_, fun t hm => ?_, fun t hm => ?_, fun hs b => ?_⟩
  · refine ((h.sorted b).sublist (hw b)).imp_of_mem fun hm hm' hle => ?_
    rw [ht b _ hm, ht b _ hm']
    exact hle
  · rw [ht b t hm]
    exact h.lt b t ((hw b).subset hm)
  · rw [ht _ t hm, hj]
    rw [hp] at hm
    exact h.current t ((hw _).subset hm)
  · rw [ht _ t hm, hj]
    rw [hp] at hm
    exact h.later t ((hw _).subset hm)
  · have hnil := h.stopped (hr ▸ hs) b
    exact List.sublist_nil.mp (hnil ▸ hw b)

theorem DeadlineInv.of_nil (ht : c.jiffies < tickMod) (hn : ∀ b, c.waitLists b = []) : DeadlineInv c := by
  refine ⟨ht, fun b => ?_, fun b t hm => ?_, fun t hm => ?_, fun t hm => ?_, fun _ => hn⟩
  · rw [hn]
    exact .nil
  all_goals
    rw [hn] at hm
    cases hm

theorem TimeInv.withTask (h : TimeInv c)
    (hi : (g (c.task t)).inodeTime = (c.task t).inodeTime)
    (hj : (g (c.task t)).jiffies = (c.task t).jiffies ∨ (c.task t).inodeTime = none)
    (htd : (c.task t).inodeTime ≠ none → (g (c.task t)).state.timed) :
    TimeInv (c.withTask t g) := by
  refine ⟨?_, ?_, ?_⟩
  rotate_left 2
  · refine h.deadlines.congr rfl rfl rfl (fun b => List.Sublist.refl _) fun b => ?_
    refine Core.forall_withTask (P := fun u y => u ∈ c.waitLists b → y.jiffies = (c.task u).jiffies) ?_
      fun u _ _ => rfl
    intro hm
    refine hj.resolve_right fun hn => ?_
    rw [h.linked.mem_iff, hn] at hm
    cases hm
  · exact h.linked.congr (Core.forall_withTask
      (P := fun u y => y.inodeTime = (c.task u).inodeTime) hi fun u _ => rfl)
  · refine Core.forall_withTask (P := fun _ y => y.inodeTime ≠ none → y.state.timed) ?_ ?_
    · rw [hi]
      exact htd
    · exact fun u _ => h.timed u

theorem ListInv.withTask (h : ListInv c)
    (hp : (g (c.task t)).prio = (c.task t).prio ∨ ∀ w, w.byPrio → t ∉ c.lists w) :
    ListInv (c.withTask t g) := by
  refine { h with sorted := ?_ }
  intro w hw
  have hprio : ∀ u, u ∈ c.lists w → ((c.withTask t g).task u).prio = (c.task u).prio := by
    refine Core.forall_withTask (P := fun u y => u ∈ c.lists w → y.prio = (c.task u).prio) ?_ ?_
    · exact fun hmem => hp.resolve_right fun hn => hn w hw hmem
    · exact fun u _ _ => rfl
  refine (h.sorted w hw).imp_of_mem fun {a b} ha hb hab => ?_
  rw [hprio a ha, hprio b hb]
  exact hab

theorem MutexInv.withTask (h : MutexInv x c)
    (ho : (g (c.task t)).ownedMutexes = (c.task t).ownedMutexes)
    (hd : (g (c.task t)).state.dead → (c.task t).ownedMutexes = []) :
    MutexInv x (c.withTask t g) := by
  refine { h with linked := ?_, dead := ?_ }
  · refine fun u m => (congrArg (List.count m) ?_).trans (h.linked u m)
    exact Core.forall_withTask (P := fun u y => y.ownedMutexes = (c.task u).ownedMutexes) ho
      (fun u _ => rfl) u
  · refine Core.forall_withTask (P := fun _ y => y.state.dead → y.ownedMutexes = []) ?_ ?_
    · rw [ho]
      exact hd
    · exact fun u _ => h.dead u

/-! ## leaving and joining a list -/

/-- A task leaves a list; `n` is the count of the zombies that are left. -/
theorem ListInv.dequeue {n : Nat} (h : ListInv c) (hz : n = ((c.dequeue t w).lists .zombie).length) :
    ListInv { c.dequeue t w with numberOfTaskDeleted := n } := by
  have hsub : ∀ w', ((c.dequeue t w).lists w').Sublist (c.lists w') := by
    intro w'
    by_cases hww : w' = w
    · subst hww
      simpa [Core.dequeue] using List.erase_sublist
    · simp [Core.dequeue, hww]
  refine ⟨fun w' hw' => (h.sorted w' hw').sublist (hsub w'), fun w' => (h.nodup w').sublist (hsub w'),
    hz, fun w' hw' => ?_, fun u hu => h.exit_ne u ((hsub _).subset hu)⟩
  have := hsub w'
  rwa [h.valid w' hw', List.sublist_nil] at this

theorem MutexInv.dequeue (h : MutexInv x c) : MutexInv x (c.dequeue t w) := by
  have hsub : ∀ m, ((c.dequeue t w).lists (.mtx m)).Sublist (c.lists (.mtx m)) := by
    intro m
    by_cases hww : WaitHead.mtx m = w
    · subst hww
      simpa [Core.dequeue] using List.erase_sublist
    · simp [Core.dequeue, hww]
  refine ⟨h.linked, h.owner, ?_, ?_, h.dead, h.fresh⟩
  · intro m hx hown
    obtain ⟨hc, hl⟩ := h.unowned m hx hown
    refine ⟨hc, ?_⟩
    have := hsub m
    rwa [hl, List.sublist_nil] at this
  · intro m hx u hu
    exact h.waiter_ne m hx u ((hsub m).subset hu)

/-- A task joins a list; `n` is the count of the zombies then. -/
theorem ListInv.enqueue {n : Nat} (h : ListInv c) (hz : n = ((c.enqueue t w).lists .zombie).length) (hex : w.exists? c)
    (ht : t ∉ c.lists w) (hne : w ≠ .exit t) : ListInv { c.enqueue t w with numberOfTaskDeleted := n } := by
  refine ⟨?_, ?_, hz, ?_, ?_⟩
  · intro w' hw'
    by_cases hww : w' = w
    · subst hww
      simpa [Core.enqueue, hw', prioGt] using
        Intrusive.pairwise_insertBefore (h.sorted w' hw')
    · simpa [Core.enqueue, hww] using h.sorted w' hw'
  · intro w'
    by_cases hww : w' = w
    · subst hww
      have hnd : (t :: c.lists w').Nodup := List.nodup_cons.mpr ⟨ht, h.nodup w'⟩
      simp only [Core.enqueue, update_self]
      split
      · exact (Intrusive.insertBefore_perm _ _ _).nodup_iff.mpr hnd
      · exact (List.perm_append_singleton _ _).nodup_iff.mpr hnd
    · simpa [Core.enqueue, hww] using h.nodup w'
  · intro w' hw'
    have hww : w' ≠ w := by
      rintro rfl
      exact hw' hex
    simpa [Core.enqueue, hww] using h.valid w' hw'
  · intro u hu
    by_cases hww : WaitHead.exit u = w
    · subst hww
      have hmem : u ∈ c.lists (.exit u) ∨ u = t := by
        simpa [Core.enqueue, WaitHead.byPrio] using hu
      rcases hmem with hmem | rfl
      · exact h.exit_ne u hmem
      · exact hne rfl
    · exact h.exit_ne u (by simpa [Core.enqueue, hww] using hu)

theorem MutexInv.enqueue (h : MutexInv x c)
    (hm : ∀ m, w = .mtx m → ∃ o, (c.mutex m).owner = some o ∧ o ≠ t) :
    MutexInv x (c.enqueue t w) := by
  refine ⟨h.linked, h.owner, ?_, ?_, h.dead, h.fresh⟩
  · intro m hx hown
    obtain ⟨hc, hl⟩ := h.unowned m hx hown
    have hww : WaitHead.mtx m ≠ w := by
      rintro rfl
      obtain ⟨o, ho, -⟩ := hm m rfl
      have : (c.mutex m).owner = none := hown
      rw [this] at ho
      cases ho
    exact ⟨hc, by simpa [Core.enqueue, hww] using hl⟩
  · intro m hx u hu
    by_cases hww : WaitHead.mtx m = w
    · subst hww
      have hmem : u = t ∨ u ∈ c.lists (.mtx m) := by
        simpa [Core.enqueue, WaitHead.byPrio] using hu
      rcases hmem with rfl | hmem
      · obtain ⟨o, ho, hne⟩ := hm m rfl
        show (c.mutex m).owner ≠ some u
        rw [ho]
        simpa using hne
      · exact h.waiter_ne m hx u hmem
    · refine h.waiter_ne m hx u ?_
      simpa [Core.enqueue, hww] using hu

/-! ## the timeout lists -/

theorem TimeInv.untime (h : TimeInv c) : TimeInv (c.untime t) := by
  refine ⟨?_, ?_, ?_⟩
  · have hhome : (fun u => ((c.untime t).task u).inodeTime) =
        update (fun u => (c.task u).inodeTime) t none := by
      funext u
      by_cases hu : u = t
      · subst hu
        simp [Core.untime]
      · simp [Core.untime, Core.withTask, hu]
    rw [hhome]
    cases hi : (c.task t).inodeTime with
    | none =>
      have hself : update (fun u => (c.task u).inodeTime) t none = fun u => (c.task u).inodeTime := by
        rw [← hi]
        exact update_eq_self t _
      rw [hself]
      simpa [Core.untime, hi] using h.linked
    | some b => simpa [Core.untime, hi] using h.linked.unlink hi
  · refine Core.forall_withTask (g := fun y => { y with inodeTime := none })
      (P := fun _ y => y.inodeTime ≠ none → y.state.timed) ?_ ?_
    · exact fun hn => absurd rfl hn
    · exact fun u _ => h.timed u
  · refine h.deadlines.congr rfl rfl rfl (fun b => ?_) fun b => ?_
    · unfold Core.untime
      cases hi : (c.task t).inodeTime with
      | none => exact List.Sublist.refl _
      | some b' =>
        by_cases hb : b = b'
        · subst hb
          simp [List.erase_sublist]
        · simp [hb]
    · exact Core.forall_withTask (g := fun y => { y with inodeTime := none })
        (P := fun u y => u ∈ (c.untime t).waitLists b → y.jiffies = (c.task u).jiffies) (fun _ => rfl)
        fun u _ _ => rfl

/-- A deadline less than a counter range ahead goes to its list. -/
theorem DeadlineInv.addTime {timeout : Nat} (h : DeadlineInv c) (hn : ∀ b, t ∉ c.waitLists b)
    (hr : c.schrun = true) (h0 : timeout ≠ 0) (hlt : timeout < tickMod) : DeadlineInv (c.addTime t timeout) := by
  have htick := h.tick
  have hj : ∀ u, u ≠ t → ((c.addTime t timeout).task u).jiffies = (c.task u).jiffies := by
    intro u hu
    simp [Core.addTime, Core.withTask, hu]
  have hjt : ((c.addTime t timeout).task t).jiffies = toTick (c.jiffies + timeout) := by simp [Core.addTime]
  have hmem : ∀ b u, u ∈ (c.addTime t timeout).waitLists b → u ≠ t → u ∈ c.waitLists b := by
    intro b u hu hut
    by_cases hb : b = if toTick (c.jiffies + timeout) < c.jiffies then !c.pWaitList else c.pWaitList
    · rw [Core.addTime] at hu
      simp only [hb, update_self, Intrusive.mem_insertBefore] at hu
      rw [hb]
      exact hu.resolve_left hut
    · simpa [Core.addTime, hb] using hu
  have hplace : ∀ b, t ∈ (c.addTime t timeout).waitLists b →
      b = if toTick (c.jiffies + timeout) < c.jiffies then !c.pWaitList else c.pWaitList := by
    intro b hb
    by_contra hne
    exact hn b (by simpa [Core.addTime, hne] using hb)
  refine ⟨htick, fun b => ?_, fun b u hu => ?_, fun u hu => ?_, fun u hu => ?_, fun hs => ?_⟩
  · by_cases hb : b = if toTick (c.jiffies + timeout) < c.jiffies then !c.pWaitList else c.pWaitList
    · have hsort := Intrusive.pairwise_insertBefore (x := t)
        (f := fun u => ((c.addTime t timeout).task u).jiffies)
        ((h.sorted b).imp_of_mem fun {u v} hu hv huv => by
          rw [hj u fun he => hn b (he ▸ hu), hj v fun he => hn b (he ▸ hv)]
          exact huv)
      have hlist : (c.addTime t timeout).waitLists b = insertBefore (fun u => decide
          (((c.addTime t timeout).task t).jiffies < ((c.addTime t timeout).task u).jiffies)) t (c.waitLists b) := by
        rw [hjt]
        subst hb
        refine (update_self _ _ _).trans ?_
        exact Intrusive.insertBefore_congr t fun u hu =>
          decide_eq_decide.mpr (by rw [hj u fun he => hn _ (he ▸ hu)])
      rw [hlist]
      exact hsort
    · have hlist : (c.addTime t timeout).waitLists b = c.waitLists b := by simp [Core.addTime, hb]
      rw [hlist]
      refine (h.sorted b).imp_of_mem fun {u v} hu hv huv => ?_
      rw [hj u fun he => hn b (he ▸ hu), hj v fun he => hn b (he ▸ hv)]
      exact huv
  · by_cases hut : u = t
    · subst hut
      rw [hjt]
      exact Nat.mod_lt _ (by decide)
    · rw [hj u hut]
      exact h.lt b u (hmem b u hu hut)
  · by_cases hut : u = t
    · subst hut
      have hb := hplace _ hu
      rw [hjt]
      show c.jiffies < _
      have hp : (c.addTime u timeout).pWaitList = c.pWaitList := rfl
      rw [hp] at hb
      split at hb
      · exact absurd hb (by cases c.pWaitList <;> simp)
      · rename_i hge
        simp only [toTick, tickMod] at *
        omega
    · rw [hj u hut]
      exact h.current u (hmem _ u hu hut)
  · by_cases hut : u = t
    · subst hut
      have hb := hplace _ hu
      rw [hjt]
      have hp : (c.addTime u timeout).pWaitList = c.pWaitList := rfl
      rw [hp] at hb
      split at hb
      · rename_i hlt'
        exact hlt'
      · exact absurd hb (by cases c.pWaitList <;> simp)
    · rw [hj u hut]
      exact h.later u (hmem _ u hu hut)
  · have hs' : c.schrun = false := hs
    rw [hr] at hs'
    cases hs'

theorem TimeInv.addTime {timeout : Nat} (h : TimeInv c) (hi : (c.task t).inodeTime = none)
    (ht : (c.task t).state.timed) (hr : c.schrun = true) (h0 : timeout ≠ 0) (hlt : timeout < tickMod) :
    TimeInv (c.addTime t timeout) := by
  refine ⟨?_, ?_, ?_⟩
  · have hhome : (fun u => ((c.addTime t timeout).task u).inodeTime) =
        update (fun u => (c.task u).inodeTime) t
          (some (if toTick (c.jiffies + timeout) < c.jiffies then !c.pWaitList else c.pWaitList)) := by
      funext u
      by_cases hu : u = t
      · subst hu
        simp [Core.addTime]
      · simp [Core.addTime, Core.withTask, hu]
    rw [hhome]
    exact h.linked.link hi (Intrusive.insertBefore_perm _ t _)
  · intro u
    by_cases hu : u = t
    · subst hu
      simpa [Core.addTime] using ht
    · simpa [Core.addTime, Core.withTask, hu] using h.timed u
  · refine h.deadlines.addTime (fun b hm => ?_) hr h0 hlt
    rw [h.linked.mem_iff, hi] at hm
    cases hm

/-! ## mutexes changing hands -/

theorem insertFirst_perm (m : MtxId) (l : List MtxId) : (Kernel.insertFirst m l).Perm (m :: l) := by
  cases l with
  | nil => exact .refl _
  | cons a l => exact .swap m a l

variable {m : MtxId}

/-- A mutex on no list: its owner and count may be anything. -/
theorem MutexInv.withMutex {f : Mutex → Mutex} (h : MutexInv x c) (hx : x = none ∨ x = some m)
    (hm : m < c.nmtx) (hi : (f (c.mutex m)).inode = (c.mutex m).inode) :
    MutexInv (some m) (c.withMutex m f) := by
  have hother : ∀ m', some m ≠ some m' → x ≠ some m' ∧ (c.withMutex m f).mutex m' = c.mutex m' := by
    intro m' hne
    have hmm : m' ≠ m := fun he => hne (by rw [he])
    refine ⟨?_, by simp [Core.withMutex, hmm]⟩
    rcases hx with rfl | rfl
    · simp
    · simpa using Ne.symm hmm
  refine ⟨?_, ?_, ?_, ?_, h.dead, ?_⟩
  · refine h.linked.congr fun m' => ?_
    by_cases hmm : m' = m
    · subst hmm
      simpa [Core.withMutex] using hi
    · simp [Core.withMutex, hmm]
  · intro m' hne
    obtain ⟨hx', heq⟩ := hother m' hne
    rw [heq]
    exact h.owner m' hx'
  · intro m' hne hown
    obtain ⟨hx', heq⟩ := hother m' hne
    rw [heq] at hown ⊢
    exact h.unowned m' hx' hown
  · intro m' hne u hu
    obtain ⟨hx', heq⟩ := hother m' hne
    rw [heq]
    exact h.waiter_ne m' hx' u hu
  · intro m' hm'
    have hmm : m' ≠ m := by
      rintro rfl
      exact absurd hm (Nat.not_lt.mpr hm')
    simpa [Core.withMutex, hmm] using h.fresh m' hm'

variable {o : TaskId}

/-- An update of the ownership list of one task. -/
theorem owned_update {l : List MtxId} :
    (fun u => (update c.task o { c.task o with ownedMutexes := l } u).ownedMutexes) =
      update (fun u => (c.task u).ownedMutexes) o l := by
  funext u
  by_cases hu : u = o
  · subst hu
    simp
  · simp [hu]

theorem MutexInv.unlinkMutex (h : MutexInv x c) (hx : x = none ∨ x = some m)
    (hm : m < c.nmtx) : MutexInv (some m) (c.unlinkMutex m) := by
  have hw := h.withMutex (f := fun y => { y with inode := (c.mutex m).inode }) hx hm rfl
  have hother : ∀ m', some m ≠ some m' → (c.unlinkMutex m).mutex m' =
      (c.withMutex m fun y => { y with inode := (c.mutex m).inode }).mutex m' := by
    intro m' hne
    have hmm : m' ≠ m := fun he => hne (by rw [he])
    simp [Core.unlinkMutex, Core.withMutex, hmm]
  refine ⟨?_, ?_, ?_, ?_, ?_, ?_⟩
  · have hhome : (fun m' => ((c.unlinkMutex m).mutex m').inode) =
        update (fun m' => (c.mutex m').inode) m none := by
      funext m'
      by_cases hmm : m' = m
      · subst hmm
        simp [Core.unlinkMutex, Core.withMutex]
      · simp [Core.unlinkMutex, Core.withMutex, hmm]
    rw [hhome]
    cases hi : (c.mutex m).inode with
    | none =>
      have hself : update (fun m' => (c.mutex m').inode) m none = fun m' => (c.mutex m').inode := by
        rw [← hi]
        exact update_eq_self m _
      rw [hself]
      simpa [Core.unlinkMutex, hi] using h.linked
    | some o =>
      simp only [Core.unlinkMutex, hi, owned_update]
      exact h.linked.unlink hi
  · intro m' hne
    rw [hother m' hne]
    exact hw.owner m' hne
  · intro m' hne
    rw [hother m' hne]
    exact hw.unowned m' hne
  · intro m' hne
    rw [hother m' hne]
    exact hw.waiter_ne m' hne
  · intro u
    cases hi : (c.mutex m).inode with
    | none => simpa [Core.unlinkMutex, hi] using h.dead u
    | some o =>
      by_cases hu : u = o
      · subst hu
        intro hd
        have : (c.task u).ownedMutexes = [] := h.dead u (by simpa [Core.unlinkMutex, hi] using hd)
        simp [Core.unlinkMutex, hi, this]
      · simpa [Core.unlinkMutex, hi, hu] using h.dead u
  · intro m' hm'
    have hmm : m' ≠ m := by
      rintro rfl
      exact absurd hm (Nat.not_lt.mpr hm')
    simpa [Core.unlinkMutex, Core.withMutex, hmm] using h.fresh m' hm'

/-- The exception ends when the mutex is as the others are. -/
theorem MutexInv.settle (h : MutexInv (some m) c) (hi : (c.mutex m).owner = (c.mutex m).inode)
    (hn : (c.mutex m).owner = none → (c.mutex m).count = 0 ∧ c.lists (.mtx m) = [])
    (hw : ∀ t ∈ c.lists (.mtx m), (c.mutex m).owner ≠ some t) : MutexInv none c := by
  have hall : ∀ {P : MtxId → Prop}, P m → (∀ m', some m ≠ some m' → P m') → ∀ m', none ≠ some m' → P m' := by
    intro P hm ho m' _
    by_cases hmm : m' = m
    · exact hmm ▸ hm
    · exact ho m' (by simpa using Ne.symm hmm)
  exact ⟨h.linked, hall hi h.owner, hall hn h.unowned, hall hw h.waiter_ne, h.dead, h.fresh⟩

/-- The mutex joins the list of its new owner. -/
theorem MutexInv.linkMutex (h : MutexInv (some m) c) (hm : m < c.nmtx)
    (hi : (c.mutex m).inode = none) (hown : (c.mutex m).owner = some o)
    (hw : o ∉ c.lists (.mtx m)) (hd : (c.task o).state.dead = false) :
    MutexInv none (c.linkMutex m o) := by
  have hself : (c.linkMutex m o).mutex m = { c.mutex m with inode := some o } := by
    simp [Core.linkMutex, Core.withMutex, Core.withTask]
  have hother : ∀ m', some m ≠ some m' → (c.linkMutex m o).mutex m' = c.mutex m' := fun m' hne => by
    have hmm : m' ≠ m := fun he => hne (by rw [he])
    simp [Core.linkMutex, Core.withMutex, Core.withTask, hmm]
  refine MutexInv.settle (m := m) ⟨?_, fun m' hne => ?_, fun m' hne => ?_, fun m' hne => ?_, ?_, ?_⟩
    (by rw [hself, hown]) (fun hnone => ?_) fun u hu => ?_
  · have hhome : (fun m' => ((c.linkMutex m o).mutex m').inode) =
        update (fun m' => (c.mutex m').inode) m (some o) := by
      funext m'
      by_cases hmm : m' = m
      · subst hmm
        simp [Core.linkMutex, Core.withMutex, Core.withTask]
      · simp [Core.linkMutex, Core.withMutex, Core.withTask, hmm]
    rw [hhome]
    simp only [Core.linkMutex, Core.withMutex, Core.withTask, owned_update]
    exact h.linked.link hi (insertFirst_perm m _)
  · rw [hother m' hne]
    exact h.owner m' hne
  · rw [hother m' hne]
    exact h.unowned m' hne
  · rw [hother m' hne]
    exact h.waiter_ne m' hne
  · refine Core.forall_withTask (c := c.withMutex m fun y => { y with inode := some o })
      (P := fun _ y => y.state.dead → y.ownedMutexes = []) ?_ ?_
    · intro hdead
      have : (c.task o).state.dead = true := hdead
      rw [hd] at this
      cases this
    · exact fun u _ => h.dead u
  · intro m' hm'
    have hmm : m' ≠ m := by
      rintro rfl
      exact absurd hm (Nat.not_lt.mpr hm')
    simpa [Core.linkMutex, Core.withMutex, Core.withTask, hmm] using h.fresh m' hm'
  · rw [hself, hown] at hnone
    cases hnone
  · rw [hself, hown]
    rintro ⟨⟩
    exact hw hu

/-! ## what a guard says -/

theorem ne_zombie_of_waits {y : Task} {w : Option WaitHead} (hw : Waits y w)
    (hs : y.state.dead = false) : w ≠ some .zombie := by
  rintro rfl
  have : y.state = .zombie := hw
  rw [this] at hs
  cases hs

theorem asleep_not_dead {st : ThrState} (h : st.asleep) : st.dead = false := by
  cases st <;> first | rfl | cases h

theorem not_mem_of_sits {w : Option WaitHead} {w' : WaitHead} (hs : Sits t w c) (hne : w ≠ some w') :
    t ∉ c.lists w' := by
  have := hs.count w'
  rw [if_neg hne] at this
  exact List.count_eq_zero.mp this

theorem mem_of_sits (hs : Sits t (some w) c) : t ∈ c.lists w := by
  have := hs.count w
  rw [if_pos rfl] at this
  exact List.count_pos_iff.mp (by omega)

/-- The list a task is requeued on is the prioritised list it is on. -/
theorem prioHead_of_waits {y : Task} {w : Option WaitHead} (hw : Waits y w) :
    Core.prioHead y = w.filter WaitHead.byPrio := by
  cases w with
  | none =>
    obtain ⟨h₁, h₂, h₃, -, -, -⟩ := hw
    unfold Core.prioHead
    cases hst : y.state <;> simp_all
  | some w =>
    cases w with
    | zombie =>
      have hst : y.state = .zombie := hw
      simp [Core.prioHead, hst, Option.filter, WaitHead.byPrio]
    | sem i => simp [Core.prioHead, hw.1, hw.2, Option.filter, WaitHead.byPrio]
    | mtx m => simp [Core.prioHead, hw.1, hw.2, Option.filter, WaitHead.byPrio]
    | cond v => simp [Core.prioHead, hw.1, hw.2, Option.filter, WaitHead.byPrio]
    | evt v => simp [Core.prioHead, hw.1, Option.filter, WaitHead.byPrio]
    | exit u =>
      have hst : y.state = .wtexit := hw
      simp [Core.prioHead, hst, Option.filter, WaitHead.byPrio]

theorem Sleep.valid.exists? {k : Sleep} (h : k.valid c) (hk : k.head = some w) : w.exists? c := by
  cases k <;> cases hk <;> exact h.1

theorem Sleep.valid.exit_ne {k : Sleep} (h : k.valid c) : k.head ≠ some (.exit c.currp) := by
  intro hk
  cases k <;> cases hk
  exact h.2 rfl

theorem Sleep.valid.timeout_lt {k : Sleep} (h : k.valid c) : k.timeout < tickMod := by
  cases k with
  | sem i timeout start tout => exact h.2.2
  | cond v m tout => exact h.2.2
  | event v b tout frame => exact h.2.1
  | time tout => exact h
  | mutex m => exact (by decide : 0 < tickMod)
  | exit u => exact (by decide : 0 < tickMod)

theorem Sleep.valid.owner {k : Sleep} {m : MtxId} (h : k.valid c) (hk : k.head = some (.mtx m)) :
    ∃ o, (c.mutex m).owner = some o ∧ o ≠ c.currp := by
  cases k <;> cases hk
  exact h.2

/-! ## only some fields matter -/

theorem TimeInv.congr (h : TimeInv c) (ht : c'.task = c.task)
    (hw : c'.waitLists = c.waitLists) (hj : c'.jiffies = c.jiffies) (hp : c'.pWaitList = c.pWaitList)
    (hr : c'.schrun = c.schrun) : TimeInv c' := by
  refine ⟨?_, ?_, ?_⟩
  · rw [ht, hw]
    exact h.linked
  · rw [ht]
    exact h.timed
  · exact h.deadlines.congr hj hp hr (fun b => by rw [hw]) fun b u _ => by rw [ht]

theorem ListInv.congr (h : ListInv c) (ht : c'.task = c.task)
    (hl : c'.lists = c.lists) (hz : c'.numberOfTaskDeleted = c.numberOfTaskDeleted)
    (hv : ∀ w : WaitHead, w.exists? c → w.exists? c') : ListInv c' := by
  refine ⟨?_, ?_, ?_, ?_, ?_⟩
  · rw [ht, hl]
    exact h.sorted
  · rw [hl]
    exact h.nodup
  · rw [hz, hl]
    exact h.zombies
  · intro w hw
    rw [hl]
    exact h.valid w fun he => hw (hv w he)
  · rw [hl]
    exact h.exit_ne

theorem MutexInv.congr (h : MutexInv x c) (ht : c'.task = c.task)
    (hm : c'.mutex = c.mutex) (hl : c'.lists = c.lists) (hn : c'.nmtx = c.nmtx) :
    MutexInv x c' := by
  refine ⟨?_, ?_, ?_, ?_, ?_, ?_⟩
  · rw [ht, hm]
    exact h.linked
  · rw [hm]
    exact h.owner
  · rw [hm, hl]
    exact h.unowned
  · rw [hm, hl]
    exact h.waiter_ne
  · rw [ht]
    exact h.dead
  · rw [hm, hn]
    exact h.fresh

/-- The list of an object that does not exist yet is empty. -/
theorem ListInv.reset (h : ListInv c) (hw : ¬w.exists? c) : update c.lists w [] = c.lists := by
  rw [← h.valid w hw]
  exact update_eq_self w c.lists

/-! ## the core -/

variable [Config]

/-- Priorities are in range, only the current task is RUNNING, the idle task
can always run, and so can the current task as long as `main` runs. -/
structure TaskInv (c : Core) : Prop where
  prio_le : ∀ t, (c.task t).prio ≤ Config.numberOfPriorities
  realPrio_le : ∀ t, (c.task t).realPrio ≤ Config.numberOfPriorities
  running : ∀ t, (c.task t).state = .running → c.schrun = true ∧ t = c.currp
  idle_active : (c.task idle).state.active
  boot : c.schrun = false → (c.task c.currp).state = .ready
  fresh : ∀ t, c.ntask ≤ t → c.task t = Task.zero
  currp_lt : c.currp < c.ntask

structure CoreInv (x : Option MtxId) (c : Core) : Prop where
  task : TaskInv c
  time : TimeInv c
  list : ListInv c
  mutex : MutexInv x c

theorem TaskInv.congr (h : TaskInv c) (ht : c'.task = c.task)
    (hs : c'.schrun = c.schrun) (hc : c'.currp = c.currp) (hn : c'.ntask = c.ntask) :
    TaskInv c' := by
  refine ⟨?_, ?_, ?_, ?_, ?_, ?_, ?_⟩
  · rw [ht]
    exact h.prio_le
  · rw [ht]
    exact h.realPrio_le
  · rw [ht, hs, hc]
    exact h.running
  · rw [ht]
    exact h.idle_active
  · rw [ht, hs, hc]
    exact h.boot
  · rw [ht, hn]
    exact h.fresh
  · rw [hc, hn]
    exact h.currp_lt

/-- A task that can run goes on being able to, or it is one that may stop: not
the idle task, and not the one `main` runs as. -/
def Keeps (c : Core) (t : TaskId) (st : ThrState) : Prop :=
  ((c.task t).state.active → st.active) ∧ ((c.task t).state = .ready → st = .ready) ∨
    t ≠ idle ∧ (c.schrun = false → t ≠ c.currp)

theorem TaskInv.withTask (h : TaskInv c) (ht : t < c.ntask)
    (hp : (g (c.task t)).prio ≤ Config.numberOfPriorities)
    (hr : (g (c.task t)).realPrio ≤ Config.numberOfPriorities)
    (hrun : (g (c.task t)).state = .running → (c.task t).state = .running)
    (hkeep : Keeps c t (g (c.task t)).state) : TaskInv (c.withTask t g) := by
  refine ⟨?_, ?_, ?_, ?_, ?_, ?_, h.currp_lt⟩
  · exact Core.forall_withTask (P := fun _ y => y.prio ≤ Config.numberOfPriorities) hp
      fun u _ => h.prio_le u
  · exact Core.forall_withTask (P := fun _ y => y.realPrio ≤ Config.numberOfPriorities) hr
      fun u _ => h.realPrio_le u
  · exact Core.forall_withTask (P := fun u y => y.state = .running → c.schrun = true ∧ u = c.currp)
      (fun hs => h.running t (hrun hs)) fun u _ => h.running u
  · refine Core.forall_withTask (P := fun u y => u = idle → y.state.active) ?_ ?_ idle rfl
    · rintro rfl
      rcases hkeep with hkeep | hkeep
      · exact hkeep.1 h.idle_active
      · exact absurd rfl hkeep.1
    · rintro u - rfl
      exact h.idle_active
  · intro hs
    refine Core.forall_withTask (P := fun u y => u = c.currp → y.state = .ready) ?_ ?_ c.currp rfl
    · rintro rfl
      rcases hkeep with hkeep | hkeep
      · exact hkeep.2 (h.boot hs)
      · exact absurd rfl (hkeep.2 hs)
    · rintro u - rfl
      exact h.boot hs
  · refine Core.forall_withTask (P := fun u y => c.ntask ≤ u → y = Task.zero) ?_ ?_
    · exact fun hle => absurd ht (Nat.not_lt.mpr hle)
    · exact fun u _ => h.fresh u

namespace CoreInv

section

variable (h : CoreInv x c)

include h

/-- A write to one task that leaves its links and its mutexes alone. -/
theorem withTask (ht : t < c.ntask)
    (hp : (g (c.task t)).prio = (c.task t).prio ∨
      (g (c.task t)).prio ≤ Config.numberOfPriorities ∧ ∀ w, w.byPrio → t ∉ c.lists w)
    (hr : (g (c.task t)).realPrio ≤ Config.numberOfPriorities)
    (ho : (g (c.task t)).ownedMutexes = (c.task t).ownedMutexes)
    (hi : (g (c.task t)).inodeTime = (c.task t).inodeTime)
    (hj : (g (c.task t)).jiffies = (c.task t).jiffies)
    (htd : (c.task t).inodeTime ≠ none → (g (c.task t)).state.timed)
    (hrun : (g (c.task t)).state = .running → (c.task t).state = .running)
    (hkeep : Keeps c t (g (c.task t)).state)
    (hd : (g (c.task t)).state.dead → (c.task t).ownedMutexes = []) :
    CoreInv x (c.withTask t g) := by
  have hple : (g (c.task t)).prio ≤ Config.numberOfPriorities := by
    rcases hp with hp | hp
    · rw [hp]
      exact h.task.prio_le t
    · exact hp.1
  exact ⟨h.task.withTask ht hple hr hrun hkeep, h.time.withTask hi (.inl hj) htd,
    h.list.withTask (hp.imp_right fun hp => hp.2), h.mutex.withTask ho hd⟩

/-- A write that changes neither priority, state, links nor mutexes. -/
theorem withTask_quiet (ht : t < c.ntask)
    (hp : (g (c.task t)).prio = (c.task t).prio)
    (hr : (g (c.task t)).realPrio = (c.task t).realPrio)
    (hs : (g (c.task t)).state = (c.task t).state)
    (ho : (g (c.task t)).ownedMutexes = (c.task t).ownedMutexes)
    (hi : (g (c.task t)).inodeTime = (c.task t).inodeTime)
    (hj : (g (c.task t)).jiffies = (c.task t).jiffies) : CoreInv x (c.withTask t g) := by
  refine h.withTask ht (.inl hp) ?_ ho hi hj ?_ ?_ ?_ ?_
  · rw [hr]
    exact h.task.realPrio_le t
  · rw [hs]
    exact h.time.timed t
  · rw [hs]
    exact id
  · rw [hs]
    exact .inl ⟨id, id⟩
  · rw [hs]
    exact h.mutex.dead t

theorem dequeue (hw : w ≠ .zombie) : CoreInv x (c.dequeue t w) :=
  ⟨h.task.congr rfl rfl rfl rfl, h.time.congr rfl rfl rfl rfl rfl,
    h.list.dequeue (by simpa [Core.dequeue, hw.symm] using h.list.zombies), h.mutex.dequeue⟩

theorem dequeue? {w : Option WaitHead} (hw : w ≠ some .zombie) :
    CoreInv x (c.dequeue? t w) := by
  cases w with
  | none => exact h
  | some w => exact h.dequeue fun he => hw (by rw [he])

theorem enqueue (hw : w ≠ .zombie) (hex : w.exists? c) (ht : t ∉ c.lists w)
    (hne : w ≠ .exit t)
    (hm : ∀ m, w = .mtx m → ∃ o, (c.mutex m).owner = some o ∧ o ≠ t) :
    CoreInv x (c.enqueue t w) :=
  ⟨h.task.congr rfl rfl rfl rfl, h.time.congr rfl rfl rfl rfl rfl,
    h.list.enqueue (by simpa [Core.enqueue, hw.symm] using h.list.zombies) hex ht hne, h.mutex.enqueue hm⟩

/-- Timeout lists and timeout of one task change. -/
theorem relist {l : Bool → List TaskId} (ht : t < c.ntask) (hp : (g (c.task t)).prio = (c.task t).prio)
    (hr : (g (c.task t)).realPrio = (c.task t).realPrio) (hs : (g (c.task t)).state = (c.task t).state)
    (ho : (g (c.task t)).ownedMutexes = (c.task t).ownedMutexes)
    (hT : TimeInv { c.withTask t g with waitLists := l }) : CoreInv x { c.withTask t g with waitLists := l } := by
  refine ⟨(h.task.withTask ht (hp ▸ h.task.prio_le t) (hr ▸ h.task.realPrio_le t) (hs ▸ id) ?_).congr rfl rfl rfl rfl, hT,
    (h.list.withTask (.inl hp)).congr rfl rfl rfl fun _ he => he, (h.mutex.withTask ho ?_).congr rfl rfl rfl rfl⟩
  · rw [hs]
    exact .inl ⟨id, id⟩
  · rw [hs]
    exact h.mutex.dead t

theorem untime (ht : t < c.ntask) : CoreInv x (c.untime t) :=
  h.relist (g := fun y => { y with inodeTime := none }) ht rfl rfl rfl rfl h.time.untime

theorem addTime {timeout : Nat} (ht : t < c.ntask)
    (hi : (c.task t).inodeTime = none) (hs : (c.task t).state.timed) (hr : c.schrun = true)
    (h0 : timeout ≠ 0) (hto : timeout < tickMod) : CoreInv x (c.addTime t timeout) :=
  h.relist (g := fun y => { y with
    jiffies := toTick (c.jiffies + timeout)
    inodeTime := some (if toTick (c.jiffies + timeout) < c.jiffies then !c.pWaitList else c.pWaitList) }) ht
    rfl rfl rfl rfl (h.time.addTime hi hs hr h0 hto)

/-- The semaphores are not part of the invariant. -/
theorem of_sem {f : SemId → AtomicSem} : CoreInv x { c with sem := f } :=
  ⟨h.task.congr rfl rfl rfl rfl, h.time.congr rfl rfl rfl rfl rfl, h.list.congr rfl rfl rfl fun _ he => he,
    h.mutex.congr rfl rfl rfl rfl⟩

theorem makeReady {o : Obj} (ht : t < c.ntask)
    (hi : (c.task t).inodeTime = none) : CoreInv x (c.makeReady t o) := by
  have h₁ := h.withTask_quiet (g := fun y => { y with obj := o }) ht rfl rfl rfl rfl rfl rfl
  refine h₁.withTask ht (.inl rfl) (h₁.task.realPrio_le t) rfl rfl rfl ?_ ?_ ?_ ?_
  · intro hn
    rw [Core.withTask_self] at hn
    exact absurd hi hn
  · intro hs
    cases hs
  · exact .inl ⟨fun _ => rfl, fun _ => rfl⟩
  · intro hd
    cases hd

/-! ## the actions -/

/-- A task that leaves its timeout list can be made ready. -/
theorem ready_of_untime {o : Obj} (ht : t < c.ntask) :
    CoreInv x ((c.untime t).makeReady t o) :=
  (h.untime ht).makeReady ht (by simp [Core.untime])

theorem wake {w : Option WaitHead} {msg : Int}
    (hg : (Act.wake t w msg).guard c) : CoreInv x ((Act.wake t w msg).apply c) := by
  obtain ⟨hsit, hs, -⟩ := hg
  have hw := ne_zombie_of_waits hsit.waits (asleep_not_dead hs)
  exact (h.dequeue? hw).ready_of_untime hsit.lt

theorem signal {i : SemId} (hg : (Act.signal i t).guard c) :
    CoreInv x ((Act.signal i t).apply c) := by
  obtain ⟨hsit, -⟩ := hg
  have h₁ : CoreInv x (c.setSem i (c.sem i).inc) := h.of_sem
  exact (h₁.dequeue (by simp)).ready_of_untime hsit.lt

theorem expire {w : Option WaitHead} (hg : (Act.expire t w).guard c) :
    CoreInv x ((Act.expire t w).apply c) := by
  obtain ⟨hsit, hs, -⟩ := hg
  have hd : (c.task t).state.dead = false := by
    cases hst : (c.task t).state <;> simp_all [ThrState.timed, ThrState.dead]
  have h₁ := (h.untime hsit.lt).dequeue? (t := t) (ne_zombie_of_waits hsit.waits hd)
  have h₂ : CoreInv x (((c.untime t).dequeue? t w).giveBack t) := h₁.of_sem
  refine h₂.makeReady hsit.lt ?_
  simp [Core.untime, Core.dequeue?, Core.giveBack]

theorem detach {w : Option WaitHead} (hg : (Act.detach t w).guard c) :
    CoreInv x ((Act.detach t w).apply c) := by
  obtain ⟨hsit, hd, -, -⟩ := hg
  have h₁ : CoreInv x ((c.untime t).giveBack t) := (h.untime hsit.lt).of_sem
  exact h₁.dequeue? (ne_zombie_of_waits hsit.waits hd)

/-- A task that can run has no timeout. -/
theorem inodeTime_of_active (hs : (c.task t).state.active) :
    (c.task t).inodeTime = none := by
  by_contra hn
  have := h.time.timed t hn
  cases hst : (c.task t).state <;> simp_all [ThrState.timed, ThrState.active]

theorem sleep {k : Sleep} (hg : (Act.sleep k).guard c) :
    CoreInv x ((Act.sleep k).apply c) := by
  obtain ⟨hsit, hidle, hrun, hact, hvalid⟩ := hg
  have hin := h.inodeTime_of_active hact
  have h₁ : CoreInv x (c.takeUnit k) := h.of_sem
  have h₂ : CoreInv x ((c.takeUnit k).withTask c.currp k.write) := by
    refine h₁.withTask hsit.lt ?_ ?_ ?_ ?_ ?_ ?_ ?_ ?_ ?_
    · left
      cases k <;> rfl
    · have := h.task.realPrio_le c.currp
      cases k <;> exact this
    · cases k <;> rfl
    · cases k <;> rfl
    · cases k <;> rfl
    · exact fun hn => absurd hin hn
    · intro hr
      cases k <;> cases hr
    · refine .inr ⟨hidle, fun hs => ?_⟩
      have hs' : c.schrun = false := hs
      rw [hrun] at hs'
      cases hs'
    · intro hd
      cases k <;> cases hd
  have h₃ : CoreInv x (((c.takeUnit k).withTask c.currp k.write).addTime? c.currp k.timeout) := by
    unfold Core.addTime?
    split
    · exact h₂
    · rename_i htime
      refine h₂.addTime hsit.lt ?_ ?_ hrun htime hvalid.timeout_lt
      · rw [Core.withTask_self]
        cases k <;> exact hin
      · rw [Core.withTask_self]
        cases k <;> first | rfl | exact absurd rfl htime
  have hlists : (((c.takeUnit k).withTask c.currp k.write).addTime? c.currp k.timeout).lists =
      c.lists := by
    unfold Core.addTime?
    split <;> rfl
  show CoreInv x (Core.enqueue? _ _ _)
  cases hh : k.head with
  | none => exact h₃
  | some w =>
    refine h₃.enqueue ?_ ?_ ?_ ?_ ?_
    · rintro rfl
      cases k <;> cases hh
    · have := hvalid.exists? hh
      unfold Core.addTime?
      split <;> cases w <;> exact this
    · rw [hlists]
      exact not_mem_of_sits hsit (by simp)
    · rintro rfl
      exact hvalid.exit_ne hh
    · rintro m rfl
      have := hvalid.owner hh
      unfold Core.addTime?
      split <;> exact this

theorem reprio {p : Nat} (hg : (Act.reprio t p).guard c)
    (hx : ∀ m, x = some m → t ∉ c.lists (.mtx m)) : CoreInv x ((Act.reprio t p).apply c) := by
  obtain ⟨⟨w, hsit⟩, hp⟩ := hg
  have hhead := prioHead_of_waits hsit.waits
  have hne : Core.prioHead (c.task t) ≠ some .zombie := by
    rw [hhead]
    cases w with
    | none => simp
    | some w => cases w <;> simp [Option.filter, WaitHead.byPrio]
  have h₁ : CoreInv x (c.dequeue? t (Core.prioHead (c.task t))) := h.dequeue? hne
  -- `t` is now on no prioritised list
  have hout : ∀ w', w'.byPrio → t ∉ (c.dequeue? t (Core.prioHead (c.task t))).lists w' := by
    intro w' hw'
    rw [hhead]
    by_cases hww : w = some w'
    · subst hww
      simpa [Option.filter, hw', Core.dequeue?] using (h.list.nodup w').not_mem_erase
    · have hnot := not_mem_of_sits hsit hww
      cases w with
      | none => exact hnot
      | some w =>
        have hne' : w' ≠ w := fun he => hww (by rw [he])
        cases hb : w.byPrio <;> simpa [Option.filter, hb, Core.dequeue?, hne'] using hnot
  have h₂ := h₁.withTask (g := fun y : Task =>
    { y with prio := p, state := if y.state.active then .ready else y.state }) hsit.lt
    (.inr ⟨hp, hout⟩) (h.task.realPrio_le t) rfl rfl rfl
    (by
      intro hn
      have htd : (c.task t).state.timed := h.time.timed t hn
      show (if (c.task t).state.active then ThrState.ready else (c.task t).state).timed
      cases hst : (c.task t).state <;> simp_all [ThrState.timed, ThrState.active])
    (by
      intro hr
      have hr' : (if (c.task t).state.active then ThrState.ready else (c.task t).state) = .running := hr
      cases hst : (c.task t).state <;> simp_all [ThrState.active])
    (by
      left
      show ((c.task t).state.active →
          (if (c.task t).state.active then ThrState.ready else (c.task t).state).active) ∧
        ((c.task t).state = .ready →
          (if (c.task t).state.active then ThrState.ready else (c.task t).state) = .ready)
      cases hst : (c.task t).state <;> simp_all [ThrState.active])
    (by
      intro hd
      refine h.mutex.dead t ?_
      have hd' : (if (c.task t).state.active then ThrState.ready else (c.task t).state).dead := hd
      cases hst : (c.task t).state <;> simp_all [ThrState.active, ThrState.dead])
  show CoreInv x (Core.enqueue? _ _ _)
  cases hh : Core.prioHead (c.task t) with
  | none =>
    rw [hh] at h₂
    exact h₂
  | some w' =>
    rw [hh] at h₂ hout hhead
    obtain ⟨hw, hb⟩ := Option.filter_eq_some_iff.mp hhead.symm
    subst hw
    have hmem := mem_of_sits hsit
    refine h₂.enqueue (fun he => hne (by rw [hh, he])) ?_ (hout w' hb) ?_ ?_
    · by_contra hex
      have : c.lists w' = [] := h.list.valid w' (by cases w' <;> exact hex)
      rw [this] at hmem
      cases hmem
    · rintro rfl
      cases hb
    · rintro m rfl
      have hxm : x ≠ some m := fun he => hx m he hmem
      have hown := h.mutex.waiter_ne m hxm t hmem
      show ∃ o, (c.mutex m).owner = some o ∧ o ≠ t
      cases ho : (c.mutex m).owner with
      | none =>
        rw [(h.mutex.unowned m hxm ho).2] at hmem
        cases hmem
      | some o => exact ⟨o, rfl, fun he => hown (by rw [ho, he])⟩

theorem park {suspend : Bool} (hg : (Act.park t suspend).guard c) :
    CoreInv x ((Act.park t suspend).apply c) := by
  obtain ⟨hout, hlt, hdead, hin, hidle, hboot, hown⟩ := hg
  have h₁ := h.withTask (g := fun y : Task =>
    { y with
      waitAborted := if y.state = .wtevt ∨ y.state = .wtexit ∨ y.state = .wtsem ∨
        y.state = .wtmtx then suspend else y.waitAborted
      state := if suspend then .suspend else .zombie }) hlt (.inl rfl) (h.task.realPrio_le t)
    rfl rfl rfl (fun hn => absurd hin hn)
    (by
      intro hr
      cases suspend <;> cases hr)
    (.inr ⟨hidle, hboot⟩)
    (by
      intro hd
      cases suspend with
      | false => exact hown rfl
      | true => cases hd)
  cases suspend with
  | true => exact h₁
  | false =>
    have hm := h₁.mutex.enqueue (t := t) (w := .zombie) fun m he => by cases he
    have hl := h₁.list.enqueue (t := t) (w := .zombie) (n := c.numberOfTaskDeleted + 1)
      (by simpa [Core.enqueue, Core.withTask, WaitHead.byPrio] using h.list.zombies) trivial (hout _) nofun
    exact ⟨h₁.task.congr rfl rfl rfl rfl, h₁.time.congr rfl rfl rfl rfl rfl, hl, hm.congr rfl rfl rfl rfl⟩

theorem reap (hg : (Act.reap t).guard c) : CoreInv x ((Act.reap t).apply c) := by
  have hst : (c.task t).state = .zombie := hg.waits
  have hmem := mem_of_sits hg
  have h₁ : CoreInv x (c.withTask t fun y => { y with state := .exited }) := by
    refine h.withTask hg.lt (.inl rfl) (h.task.realPrio_le t) rfl rfl rfl ?_ ?_ ?_ ?_
    · intro hn
      have := h.time.timed t hn
      rw [hst] at this
      cases this
    · intro hr
      cases hr
    · left
      rw [hst]
      constructor
      · intro ha
        cases ha
      · intro hr
        cases hr
    · intro _
      exact h.mutex.dead t (by rw [hst]; rfl)
  have hl := h₁.list.dequeue (t := t) (w := .zombie) (n := c.numberOfTaskDeleted - 1)
    (by simp [Core.dequeue, Core.withTask, List.length_erase_of_mem hmem, h.list.zombies])
  exact ⟨h₁.task.congr rfl rfl rfl rfl, h₁.time.congr rfl rfl rfl rfl rfl, hl,
    (h₁.mutex.dequeue).congr rfl rfl rfl rfl⟩

end

/-! ### mutexes -/

/-- The parts of the invariant that do not look at the mutexes. -/
structure Rest (c : Core) : Prop where
  task : TaskInv c
  time : TimeInv c
  list : ListInv c

theorem rest (h : CoreInv x c) : Rest c := { h with }

theorem Rest.withMutex {f : Mutex → Mutex} (h : Rest c) : Rest (c.withMutex m f) :=
  ⟨h.task.congr rfl rfl rfl rfl, h.time.congr rfl rfl rfl rfl rfl, h.list.congr rfl rfl rfl fun _ he => he⟩

theorem Rest.owned {f : Task → List MtxId} (h : Rest c) (ho : o < c.ntask) :
    Rest (c.withTask o fun y => { y with ownedMutexes := f y }) :=
  ⟨h.task.withTask ho (h.task.prio_le o) (h.task.realPrio_le o) id (.inl ⟨id, id⟩),
    h.time.withTask rfl (.inl rfl) (h.time.timed o), h.list.withTask (.inl rfl)⟩

theorem Rest.linkMutex (h : Rest c) (ho : o < c.ntask) : Rest (c.linkMutex m o) :=
  Rest.owned
    (h.withMutex (f := fun y => { y with inode := some o })) ho

/-- Only a created task owns a mutex. -/
theorem lt_of_inode (ht : TaskInv c) (hm : MutexInv x c)
    (hi : (c.mutex m).inode = some o) : o < c.ntask := by
  by_contra hlt
  have hmem := hm.linked.mem_iff.mpr hi
  rw [ht.fresh o (Nat.not_lt.mp hlt)] at hmem
  cases hmem

theorem Rest.unlinkMutex (h : Rest c) (hm : MutexInv x c) : Rest (c.unlinkMutex m) := by
  cases hi : (c.mutex m).inode with
  | none =>
    have hc : c.unlinkMutex m = c.withMutex m fun y => { y with inode := none } := by
      simp [Core.unlinkMutex, hi, Core.withMutex]
    rw [hc]
    exact h.withMutex
  | some o =>
    have ho := lt_of_inode h.task hm hi
    have hc : c.unlinkMutex m = (c.withMutex m fun y => { y with inode := none }).withTask o
        fun y => { y with ownedMutexes := y.ownedMutexes.erase m } := by
      simp [Core.unlinkMutex, hi, Core.withMutex, Core.withTask]
    rw [hc]
    exact Rest.owned
      (h.withMutex (f := fun y => { y with inode := none })) ho

theorem of_rest (h : Rest c) (hm : MutexInv x c) : CoreInv x c := ⟨h.task, h.time, h.list, hm⟩

theorem own (h : CoreInv none c) (hg : (Act.own m).guard c) : CoreInv none ((Act.own m).apply c) := by
  obtain ⟨hown, hm, hact⟩ := hg
  have hi : (c.mutex m).inode = none := by rw [← h.mutex.owner m (by simp), hown]
  have hl := (h.mutex.unowned m (by simp) hown).2
  have h₁ := h.mutex.withMutex (f := fun y =>
    { y with count := toInt32 (y.count + 1), owner := some c.currp }) (.inl rfl) hm rfl
  have hd : (c.task c.currp).state.dead = false := by
    cases hst : (c.task c.currp).state <;> simp_all [ThrState.active, ThrState.dead]
  have h₂ := h₁.linkMutex hm (by simpa [Core.withMutex] using hi)
    (by simp [Core.withMutex]) (by simp [Core.withMutex, hl]) hd
  exact of_rest (h.rest.withMutex.linkMutex h.task.currp_lt) h₂

theorem lt_of_owner (h : CoreInv x c) (hown : (c.mutex m).owner ≠ none) : m < c.nmtx := by
  by_contra hm
  have := h.mutex.fresh m (Nat.not_lt.mp hm)
  rw [this] at hown
  exact hown rfl

theorem count {n : Int} (h : CoreInv none c) (hg : (Act.count m n).guard c) :
    CoreInv none ((Act.count m n).apply c) := by
  have hown : (c.mutex m).owner ≠ none := by
    rw [show (c.mutex m).owner = some c.currp from hg]
    simp
  have hm := h.lt_of_owner hown
  refine ⟨h.task.congr rfl rfl rfl rfl, h.time.congr rfl rfl rfl rfl rfl, h.list.congr rfl rfl rfl fun _ he => he, ?_⟩
  have h₁ := h.mutex.withMutex (f := fun y => { y with count := n }) (.inl rfl) hm rfl
  have hself : (c.withMutex m fun y => { y with count := n }).mutex m = { c.mutex m with count := n } := update_self _ _ _
  refine h₁.settle ?_ ?_ ?_
  · rw [hself]
    exact h.mutex.owner m (by simp)
  · rw [hself]
    exact fun hn => absurd hn hown
  · rw [hself]
    exact h.mutex.waiter_ne m (by simp)

/-- The mutex leaves the list of its owner. -/
theorem unlinkMutex (h : CoreInv x c) (hx : x = none ∨ x = some m) (hm : m < c.nmtx) :
    CoreInv (some m) (c.unlinkMutex m) :=
  of_rest (h.rest.unlinkMutex h.mutex) (h.mutex.unlinkMutex hx hm)

theorem withMutex {f : Mutex → Mutex} (h : CoreInv x c) (hx : x = none ∨ x = some m)
    (hm : m < c.nmtx) (hi : (f (c.mutex m)).inode = (c.mutex m).inode) :
    CoreInv (some m) (c.withMutex m f) :=
  of_rest h.rest.withMutex (h.mutex.withMutex hx hm hi)

/-- The mutex moves to the list of the owner it was given. -/
theorem relink (h : CoreInv (some m) c) (hm : m < c.nmtx)
    (hown : (c.mutex m).owner = some o) (hw : o ∉ c.lists (.mtx m))
    (hd : (c.task o).state.dead = false) (ho : o < c.ntask) :
    CoreInv none ((c.unlinkMutex m).linkMutex m o) := by
  have h₁ := h.unlinkMutex (.inr rfl) hm
  have hstate : ((c.unlinkMutex m).task o).state = (c.task o).state := by
    unfold Core.unlinkMutex
    cases (c.mutex m).inode with
    | none => rfl
    | some o' =>
      by_cases hoo : o = o'
      · subst hoo
        simp
      · simp [hoo]
  refine of_rest (h₁.rest.linkMutex ho) (h₁.mutex.linkMutex hm ?_ ?_ hw ?_)
  · simp [Core.unlinkMutex, Core.withMutex]
  · simpa [Core.unlinkMutex, Core.withMutex] using hown
  · rw [hstate, hd]

theorem free (h : CoreInv none c) (hg : (Act.free m).guard c) :
    CoreInv none ((Act.free m).apply c) := by
  obtain ⟨hown, hl⟩ := hg
  have hm := h.lt_of_owner hown
  have h₁ := (h.unlinkMutex (.inl rfl) hm).withMutex
    (f := fun y => { y with count := 0, owner := none }) (.inr rfl) hm rfl
  refine of_rest h₁.rest (h₁.mutex.settle ?_ (fun _ => ⟨?_, hl⟩) ?_)
  · simp [Core.withMutex, Core.unlinkMutex]
  · simp [Core.withMutex]
  · simp [Core.withMutex]

theorem strip {clear : Bool} (h : CoreInv none c) (hg : (Act.strip m clear).guard c) :
    CoreInv (some m) ((Act.strip m clear).apply c) := by
  have hm := h.lt_of_owner hg
  exact (h.unlinkMutex (.inl rfl) hm).withMutex
    (f := fun y => { y with count := 0, owner := if clear then none else y.owner })
    (.inr rfl) hm rfl

section

variable (h : CoreInv x c)

include h

theorem handover (hx : x = none ∨ x = some m)
    (hg : (Act.handover m t).guard c) : CoreInv none ((Act.handover m t).apply c) := by
  obtain ⟨hsit, hhead⟩ := hg
  have hmem := mem_of_sits hsit
  have hm : m < c.nmtx := by
    by_contra hn
    have : c.lists (.mtx m) = [] := h.list.valid (.mtx m) hn
    rw [this] at hmem
    cases hmem
  let c₁ := (c.withMutex m fun y => { y with count := 1, owner := some t }).dequeue t (.mtx m)
  have h₁ : CoreInv (some m) c₁ := (h.withMutex hx hm rfl).dequeue (by simp)
  have hown : (c₁.mutex m).owner = some t := by simp [c₁, Core.dequeue, Core.withMutex]
  have hout : t ∉ c₁.lists (.mtx m) := by
    simpa [c₁, Core.dequeue, Core.withMutex] using (h.list.nodup (.mtx m)).not_mem_erase
  have hd : (c₁.task t).state.dead = false := by
    show (c.task t).state.dead = false
    rw [hsit.waits.1]
    rfl
  have h₂ := h₁.relink hm hown hout hd hsit.lt
  have hlt : t < ((c₁.unlinkMutex m).linkMutex m t).ntask := by
    simpa only [c₁, Core.linkMutex, Core.unlinkMutex, Core.dequeue, Core.withTask, Core.withMutex]
      using hsit.lt
  exact h₂.ready_of_untime hlt

theorem evict {p : Nat} (hg : (Act.evict m t p).guard c) :
    CoreInv x ((Act.evict m t p).apply c) := by
  obtain ⟨hsit, hp⟩ := hg
  have h₁ : CoreInv x (c.dequeue t (.mtx m)) := h.dequeue (by simp)
  have hout : ∀ w, w.byPrio → t ∉ (c.dequeue t (.mtx m)).lists w := by
    intro w _
    by_cases hw : w = .mtx m
    · subst hw
      simpa [Core.dequeue] using (h.list.nodup (.mtx m)).not_mem_erase
    · simpa [Core.dequeue, hw] using not_mem_of_sits hsit (by simpa using Ne.symm hw)
  have h₂ := h₁.withTask (g := fun y => { y with prio := p }) hsit.lt (.inr ⟨hp, hout⟩)
    (h.task.realPrio_le t) rfl rfl rfl (h.time.timed t) id (.inl ⟨id, id⟩) (h.mutex.dead t)
  exact h₂.ready_of_untime hsit.lt

/-! ### the context switch -/

/-- The CPU goes to a task that can run while no task is RUNNING. -/
theorem select (hnone : ∀ u, (c.task u).state ≠ .running)
    (hact : (c.task t).state.active) (hlt : t < c.ntask)
    (htask : c'.task = (c.withTask t fun y => { y with state := .running }).task)
    (hcurrp : c'.currp = t) (hrun : c'.schrun = true) (hn : c'.ntask = c.ntask)
    (hw : c'.waitLists = c.waitLists) (hd : DeadlineInv c') (hl : c'.lists = c.lists)
    (hz : c'.numberOfTaskDeleted = c.numberOfTaskDeleted) (hm : c'.mutex = c.mutex)
    (hnm : c'.nmtx = c.nmtx) (hv : ∀ w : WaitHead, w.exists? c → w.exists? c') : CoreInv x c' := by
  have hin := h.inodeTime_of_active hact
  refine ⟨⟨?_, ?_, ?_, ?_, ?_, ?_, ?_⟩, ?_, ?_, ?_⟩
  · rw [htask]
    exact Core.forall_withTask (P := fun _ y => y.prio ≤ Config.numberOfPriorities)
      (h.task.prio_le t) fun u _ => h.task.prio_le u
  · rw [htask]
    exact Core.forall_withTask (P := fun _ y => y.realPrio ≤ Config.numberOfPriorities)
      (h.task.realPrio_le t) fun u _ => h.task.realPrio_le u
  · rw [htask, hcurrp]
    exact Core.forall_withTask (P := fun u y => y.state = .running → c'.schrun = true ∧ u = t)
      (fun _ => ⟨hrun, rfl⟩) fun u _ hs => absurd hs (hnone u)
  · rw [htask]
    exact Core.forall_withTask (P := fun u y => u = idle → y.state.active) (fun _ => rfl)
      (fun u _ hu => hu ▸ h.task.idle_active) idle rfl
  · intro hs
    rw [hrun] at hs
    cases hs
  · rw [htask, hn]
    refine Core.forall_withTask (P := fun u y => c.ntask ≤ u → y = Task.zero) ?_ ?_
    · exact fun hle => absurd hlt (Nat.not_lt.mpr hle)
    · exact fun u _ => h.task.fresh u
  · rw [hcurrp, hn]
    exact hlt
  · have hT := h.time.withTask (g := fun y => { y with state := .running }) rfl (.inl rfl)
      fun hne => absurd hin hne
    refine ⟨?_, ?_, hd⟩
    · rw [htask, hw]
      exact hT.linked
    · rw [htask]
      exact hT.timed
  · have hL := h.list.withTask (t := t) (g := fun y => { y with state := .running }) (.inl rfl)
    exact hL.congr htask hl hz hv
  · have hM := h.mutex.withTask (t := t) (g := fun y => { y with state := .running }) rfl
      fun hd => by cases hd
    exact hM.congr htask hm hl hnm

theorem switch (hg : (Act.switch t).guard c) :
    CoreInv x ((Act.switch t).apply c) := by
  obtain ⟨hact, hlt, hrun⟩ := hg
  have hin : ∀ u, (c.task u).state.active → (c.task u).inodeTime = none :=
    fun u hu => h.inodeTime_of_active hu
  have hcur : ∀ u, ((c.withTask c.currp fun y =>
      { y with state := if y.state = .running then .ready else y.state }).task u).state ≠ .running := by
    intro u
    by_cases hu : u = c.currp
    · subst hu
      rw [Core.withTask_self]
      split
      · simp
      · assumption
    · rw [Core.withTask_of_ne _ _ hu]
      exact fun hs => hu (h.task.running u hs).2
  have h₁ : CoreInv x (c.withTask c.currp fun y =>
      { y with state := if y.state = .running then .ready else y.state }) := by
    refine h.withTask h.task.currp_lt (.inl rfl) (h.task.realPrio_le _) rfl rfl rfl ?_ ?_ ?_ ?_
    · intro hn
      have htd := h.time.timed _ hn
      split
      · simp_all [ThrState.timed]
      · exact htd
    · intro hr
      exact absurd (by rwa [Core.withTask_self]) (hcur c.currp)
    · left
      show ((c.task c.currp).state.active → (if (c.task c.currp).state = .running then ThrState.ready
          else (c.task c.currp).state).active) ∧
        ((c.task c.currp).state = .ready → (if (c.task c.currp).state = .running then ThrState.ready
          else (c.task c.currp).state) = .ready)
      split
      · exact ⟨fun _ => rfl, fun _ => rfl⟩
      · exact ⟨id, id⟩
    · intro hd
      refine h.mutex.dead _ ?_
      have hd' : (if (c.task c.currp).state = .running then ThrState.ready
        else (c.task c.currp).state).dead := hd
      split at hd'
      · cases hd'
      · exact hd'
  have hact' : ((c.withTask c.currp fun y =>
      { y with state := if y.state = .running then .ready else y.state }).task t).state.active := by
    by_cases ht : t = c.currp
    · subst ht
      rw [Core.withTask_self]
      split
      · rfl
      · exact hact
    · rw [Core.withTask_of_ne _ _ ht]
      exact hact
  refine h₁.select hcur hact' hlt rfl rfl hrun rfl rfl ?_ rfl rfl rfl rfl fun _ he => he
  have hT := h₁.time.withTask (g := fun y => { y with state := .running }) rfl (.inl rfl)
    fun hne => absurd (h₁.inodeTime_of_active hact') hne
  exact hT.deadlines.congr rfl rfl rfl (fun _ => List.Sublist.refl _) fun _ _ _ => rfl

theorem current (hg : (Act.current t).guard c) :
    CoreInv x ((Act.current t).apply c) := by
  obtain ⟨hrun, hlt, hready⟩ := hg
  refine ⟨{ h.task with running := ?_, boot := fun _ => hready, currp_lt := hlt },
    h.time.congr rfl rfl rfl rfl rfl, h.list.congr rfl rfl rfl fun _ he => he, h.mutex.congr rfl rfl rfl rfl⟩
  intro u hu
  have := (h.task.running u hu).1
  rw [hrun] at this
  cases this

theorem start (hg : Act.start.guard c) : CoreInv x (Act.start.apply c) := by
  have hrun : c.schrun = false := hg.1
  have hnone : ∀ u, (c.task u).state ≠ .running := by
    intro u hu
    have := (h.task.running u hu).1
    rw [hrun] at this
    cases this
  refine h.select hnone (by rw [h.task.boot hrun]; rfl) h.task.currp_lt rfl rfl rfl rfl rfl ?_ rfl rfl rfl rfl
    fun _ he => he
  -- no task has a timeout before the scheduler runs
  refine .of_nil (by decide : 0 < tickMod) (h.time.deadlines.stopped hrun)

/-! ### new objects -/

theorem newTask {y : Task} (hg : (Act.newTask y).guard c) :
    CoreInv x ((Act.newTask y).apply c) := by
  obtain ⟨hp, hr, hs, hown, hin, hmem, -⟩ := hg
  have hzero : c.task c.ntask = Task.zero := h.task.fresh c.ntask (Nat.le_refl _)
  have hlists : ((Act.newTask y).apply c).lists = c.lists :=
    h.list.reset (Nat.lt_irrefl c.ntask)
  have htask : ((Act.newTask y).apply c).task = (c.withTask c.ntask fun _ => y).task := rfl
  have hidle : idle ≠ c.ntask := by
    intro he
    have := h.task.idle_active
    rw [he, hzero] at this
    cases this
  refine ⟨⟨?_, ?_, ?_, ?_, ?_, ?_, ?_⟩, ?_, ?_, ?_⟩
  · rw [htask]
    exact Core.forall_withTask (P := fun _ y => y.prio ≤ Config.numberOfPriorities) hp
      fun u _ => h.task.prio_le u
  · rw [htask]
    exact Core.forall_withTask (P := fun _ y => y.realPrio ≤ Config.numberOfPriorities) hr
      fun u _ => h.task.realPrio_le u
  · rw [htask]
    refine Core.forall_withTask (P := fun u y => y.state = .running → c.schrun = true ∧ u = c.currp)
      ?_ fun u _ => h.task.running u
    intro hrun
    rw [hrun] at hs
    cases hs
  · rw [htask, Core.withTask_of_ne _ _ hidle]
    exact h.task.idle_active
  · intro hs
    rw [htask, show ((Act.newTask y).apply c).currp = c.currp from rfl,
      Core.withTask_of_ne _ _ (Nat.ne_of_lt h.task.currp_lt)]
    exact h.task.boot hs
  · rw [htask]
    refine Core.forall_withTask (P := fun u y => c.ntask + 1 ≤ u → y = Task.zero) ?_ ?_
    · exact fun hle => absurd hle (Nat.not_succ_le_self c.ntask)
    · exact fun u _ hle => h.task.fresh u (Nat.le_of_succ_le hle)
  · exact Nat.lt_succ_of_lt h.task.currp_lt
  · have hT := h.time.withTask (g := fun _ => y) (by rw [hin, hzero]; rfl)
      (.inr (by rw [hzero]; rfl)) fun hne => absurd (by rw [hzero]; rfl) hne
    exact hT.congr htask rfl rfl rfl rfl
  · have hL := h.list.withTask (g := fun _ => y) (.inr fun w _ => hmem w)
    refine hL.congr htask hlists rfl fun w he => ?_
    cases w <;> first | exact he | exact Nat.lt_succ_of_lt he
  · have hM := h.mutex.withTask (g := fun _ => y) (by rw [hown, hzero]; rfl)
      fun hd => by rw [hzero]; rfl
    exact hM.congr htask rfl hlists rfl

/-- Creating an object leaves its list empty and nothing else changed. -/
theorem create (hw : ¬w.exists? c) (ht : c'.task = c.task)
    (hr : c'.schrun = c.schrun) (hc : c'.currp = c.currp) (hn : c'.ntask = c.ntask)
    (hwl : c'.waitLists = c.waitLists) (hj : c'.jiffies = c.jiffies) (hpl : c'.pWaitList = c.pWaitList)
    (hl : c'.lists = update c.lists w [])
    (hz : c'.numberOfTaskDeleted = c.numberOfTaskDeleted) (hm : c'.mutex = c.mutex)
    (hnm : c.nmtx ≤ c'.nmtx) (hv : ∀ w : WaitHead, w.exists? c → w.exists? c') : CoreInv x c' := by
  rw [h.list.reset hw] at hl
  refine ⟨h.task.congr ht hr hc hn, h.time.congr ht hwl hj hpl hr, h.list.congr ht hl hz hv, ?_⟩
  have hM : MutexInv x { c' with nmtx := c.nmtx } := h.mutex.congr ht hm hl rfl
  exact { hM with fresh := fun m hle => hM.fresh m (Nat.le_trans hnm hle) }

theorem newSem {a : AtomicSem} : CoreInv x ((Act.newSem a).apply c) := by
  refine h.create (Nat.lt_irrefl _) rfl rfl rfl rfl rfl rfl rfl rfl rfl rfl
    (Nat.le_refl _) fun w he => ?_
  cases w <;> first | exact he | exact Nat.lt_succ_of_lt he

theorem newMutex : CoreInv x (Act.newMutex.apply c) := by
  have hm : (Act.newMutex.apply c).mutex = c.mutex := by
    show update c.mutex c.nmtx _ = c.mutex
    rw [← h.mutex.fresh c.nmtx (Nat.le_refl _)]
    exact update_eq_self c.nmtx c.mutex
  refine h.create (Nat.lt_irrefl _) rfl rfl rfl rfl rfl rfl rfl rfl rfl hm
    (Nat.le_succ _) fun w he => ?_
  cases w <;> first | exact he | exact Nat.lt_succ_of_lt he

theorem newCond : CoreInv x (Act.newCond.apply c) := by
  refine h.create (Nat.lt_irrefl _) rfl rfl rfl rfl rfl rfl rfl rfl rfl rfl
    (Nat.le_refl _) fun w he => ?_
  cases w <;> first | exact he | exact Nat.lt_succ_of_lt he

theorem newEvent : CoreInv x (Act.newEvent.apply c) := by
  refine h.create (Nat.lt_irrefl _) rfl rfl rfl rfl rfl rfl rfl rfl rfl rfl
    (Nat.le_refl _) fun w he => ?_
  cases w <;> first | exact he | exact Nat.lt_succ_of_lt he

/-! ### bookkeeping -/

/-- The fields an action of the bookkeeping may change. -/
theorem congr (ht : c'.task = c.task) (hr : c'.schrun = c.schrun)
    (hc : c'.currp = c.currp) (hn : c'.ntask = c.ntask) (hwl : c'.waitLists = c.waitLists)
    (hj : c'.jiffies = c.jiffies) (hpl : c'.pWaitList = c.pWaitList)
    (hl : c'.lists = c.lists) (hz : c'.numberOfTaskDeleted = c.numberOfTaskDeleted)
    (hm : c'.mutex = c.mutex) (hnm : c'.nmtx = c.nmtx)
    (hv : ∀ w : WaitHead, w.exists? c → w.exists? c') : CoreInv x c' :=
  ⟨h.task.congr ht hr hc hn, h.time.congr ht hwl hj hpl hr, h.list.congr ht hl hz hv,
    h.mutex.congr ht hm hl hnm⟩

theorem jiffies {n : Nat} (hg : (Act.jiffies n).guard c) :
    CoreInv x ((Act.jiffies n).apply c) :=
  ⟨h.task.congr rfl rfl rfl rfl, ⟨h.time.linked, h.time.timed,
    { h.time.deadlines with tick := hg.1, current := hg.2.1, later := hg.2.2 }⟩,
    h.list.congr rfl rfl rfl fun _ he => he, h.mutex.congr rfl rfl rfl rfl⟩

/-- No deadline is left before the wrap, and none at it. -/
theorem swap (hg : Act.swap.guard c) : CoreInv x (Act.swap.apply c) := by
  have hd := h.time.deadlines
  refine ⟨h.task.congr rfl rfl rfl rfl, ⟨h.time.linked, h.time.timed,
    ⟨(by decide : 0 < tickMod), hd.sorted, hd.lt, hg.2, fun t ht => ?_, hd.stopped⟩⟩,
    h.list.congr rfl rfl rfl fun _ he => he, h.mutex.congr rfl rfl rfl rfl⟩
  have ht' : t ∈ c.waitLists (!!c.pWaitList) := ht
  rw [Bool.not_not, hg.1] at ht'
  cases ht'

theorem realPrio {p : Nat} (hg : (Act.realPrio t p).guard c) :
    CoreInv x ((Act.realPrio t p).apply c) :=
  h.withTask (g := fun y => { y with realPrio := p }) hg.1 (.inl rfl) hg.2 rfl rfl rfl
    (h.time.timed t) id (.inl ⟨id, id⟩) (h.mutex.dead t)

end

end CoreInv

end Isix
