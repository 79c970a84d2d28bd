import Isix.Invariant

/-!
# Isix.Wired

The links of the kernel.  `Wired X s` says that every list is a list of the
tasks whose `inode` names it, that the `inode` of a task is on the list its
state names, and that the ready queue is well formed.

Inside a critical section a task is between two lists for a while: the tasks
in `X` are on no list, whatever their state says.  The rules below are those
of `list_delete`, `list_insert`, `add_ready_list` and `delete_from_ready_list`;
each says which `Core` the function leaves.
-/

namespace Isix

open Function (update update_self update_of_ne)
open Intrusive (Linked insertBefore)
open Kernel Outcome

/-! ## the invariant -/

/-- The list of a head. -/
def Kernel.listOf (s : Kernel) : Head → List TaskId
  | .prio e => s.ready.items e
  | .wait w => s.lists w

/-- What the state of a task says about its `inode` and `prio_elem`. -/
def Placed (x : Task) (e : ElemId) : Option Head → Prop
  | some (.prio e') => x.state.active ∧ e' = e
  | some (.wait w) => Waits x (some w)
  | none => x.state.active = false ∧ Waits x none

theorem not_active_of_waits {x : Task} {w : WaitHead} (h : Waits x (some w)) :
    x.state.active = false := by
  cases w with
  | zombie | exit u =>
    have hs : x.state = _ := h
    rw [hs]
    rfl
  | sem i | mtx m | cond v | evt v =>
    rw [h.1]
    rfl

/-- A task that can run waits for nothing. -/
theorem waits_none_of_active {x : Task} (h : x.state.active) : Waits x none := by
  unfold Waits
  cases hs : x.state <;> simp_all [ThrState.active]

theorem Placed.congr {x y : Task} {e : ElemId} {l : Option Head} (h : Placed x e l)
    (hs : y.state = x.state) (ho : y.obj = x.obj) : Placed y e l := by
  unfold Placed Waits at *
  rw [hs, ho]
  exact h

theorem Kernel.listOf_unlink (s : Kernel) (t : TaskId) (l : Head) :
    (s.unlink t l).listOf = update s.listOf l ((s.listOf l).erase t) := by
  funext k
  cases l with
  | prio e =>
    by_cases hk : k = .prio e
    · subst hk
      simp [unlink, Kernel.listOf, Buckets.Queue.erase]
    · rw [update_of_ne hk]
      cases k with
      | prio e' =>
        have : e' ≠ e := fun he => hk (by rw [he])
        simp [unlink, Kernel.listOf, Buckets.Queue.erase, this]
      | wait w => rfl
  | wait w =>
    by_cases hk : k = .wait w
    · subst hk
      simp [unlink, Kernel.listOf]
    · rw [update_of_ne hk]
      cases k with
      | prio e => rfl
      | wait w' =>
        have : w' ≠ w := fun he => hk (by rw [he])
        simp [unlink, Kernel.listOf, this]

theorem Kernel.inode_unlink (s : Kernel) (t : TaskId) (l : Head) : (s.unlink t l).inode = update s.inode t none := by
  cases l <;> rfl

variable [Config] {s s' : Kernel} {X : Set TaskId} {t : TaskId} {w : WaitHead} {E : Panic → Prop}

structure Wired (X : Set TaskId) (s : Kernel) : Prop where
  linked : Linked s.listOf s.inode
  placed : ∀ t, t ∉ X → Placed (s.task t) (s.prioElem t) (s.inode t)
  loose : ∀ t ∈ X, s.inode t = none
  queue : Buckets.WF Config.numberOfPriorities s.ready
  keyed : ∀ t e, t ∈ s.ready.items e → (s.task t).prio = s.ready.prio e
  bound : ∀ t, s.inode t ≠ none → t < s.ntask

namespace Wired

theorem mem_lists (h : Wired X s) : t ∈ s.lists w ↔ s.inode t = some (.wait w) :=
  h.linked.mem_iff (k := .wait w)

theorem mem_items (h : Wired X s) {e : ElemId} : t ∈ s.ready.items e ↔ s.inode t = some (.prio e) :=
  h.linked.mem_iff (k := .prio e)

theorem not_mem_of_loose (h : Wired X s) (ht : s.inode t = none) (w : WaitHead) : t ∉ s.lists w := by
  rw [h.mem_lists, ht]
  simp

/-- The wait list an `inode` is on. -/
def waitOf : Option Head → Option WaitHead
  | some (.wait w) => some w
  | _ => none

section

variable (h : Wired X s)

include h

theorem waits (ht : t ∉ X) : Waits (s.task t) (waitOf (s.inode t)) := by
  have hp := h.placed t ht
  cases hi : s.inode t with
  | none =>
    rw [hi] at hp
    exact hp.2
  | some l =>
    rw [hi] at hp
    cases l with
    | prio e => exact waits_none_of_active hp.1
    | wait w => exact hp

theorem sits (ht : t ∉ X) (hlt : t < s.ntask) :
    Sits t (waitOf (s.inode t)) s.toCore := by
  refine ⟨h.waits ht, fun w => ?_, hlt⟩
  have hc := h.linked (.wait w) t
  have hiff : s.inode t = some (.wait w) ↔ waitOf (s.inode t) = some w := by
    cases hi : s.inode t with
    | none => simp [waitOf]
    | some l => cases l <;> simp [waitOf]
  simp only [hiff] at hc
  exact hc

theorem sits_of_mem (ht : t ∈ s.lists w) : Sits t (some w) s.toCore := by
  have hi := h.mem_lists.mp ht
  have hX : t ∉ X := fun hX => by
    rw [h.loose t hX] at hi
    cases hi
  have hsit := h.sits hX (h.bound t (by rw [hi]; simp))
  rwa [hi] at hsit

/-- A task on the ready queue. -/
theorem inode_of_active (ht : t ∉ X) (ha : (s.task t).state.active) :
    s.inode t = some (.prio (s.prioElem t)) := by
  have hp := h.placed t ht
  cases hi : s.inode t with
  | none =>
    rw [hi] at hp
    rw [hp.1] at ha
    cases ha
  | some l =>
    rw [hi] at hp
    cases l with
    | prio e => rw [hp.2]
    | wait w =>
      rw [not_active_of_waits hp] at ha
      cases ha

/-- A task that does not run is on the list its state names, and nowhere else. -/
theorem inode_of_waits (ht : t ∉ X) (ha : (s.task t).state.active = false) :
    s.inode t = (waitOf (s.inode t)).map Head.wait := by
  have hp := h.placed t ht
  cases hi : s.inode t with
  | none => rfl
  | some l =>
    rw [hi] at hp
    cases l with
    | prio e =>
      rw [hp.1] at ha
      cases ha
    | wait w => rfl

/-! ## changes that leave the links alone -/

theorem mono {Y : Set TaskId} (hXY : X ⊆ Y) (hY : ∀ t ∈ Y, s.inode t = none) :
    Wired Y s :=
  ⟨h.linked, fun t ht => h.placed t fun hX => ht (hXY hX), hY, h.queue, h.keyed, h.bound⟩

/-- The priorities of the queued tasks and the states of those outside of `X`
matter. -/
theorem congr (hr : s'.ready = s.ready) (hi : s'.inode = s.inode)
    (he : s'.prioElem = s.prioElem) (hl : s'.lists = s.lists) (hn : s.ntask ≤ s'.ntask)
    (hp : ∀ t e, s.inode t = some (.prio e) → (s'.task t).prio = (s.task t).prio)
    (ht : ∀ t, t ∉ X → Placed (s.task t) (s.prioElem t) (s.inode t) →
      Placed (s'.task t) (s.prioElem t) (s.inode t)) : Wired X s' := by
  refine ⟨?_, ?_, ?_, ?_, ?_, ?_⟩
  · have : s'.listOf = s.listOf := by
      funext l
      cases l with
      | prio e => exact congrFun (congrArg Buckets.Queue.items hr) e
      | wait w => exact congrFun hl w
    rw [this, hi]
    exact h.linked
  · intro t hX
    rw [he, hi]
    exact ht t hX (h.placed t hX)
  · rw [hi]
    exact h.loose
  · rw [hr]
    exact h.queue
  · intro t e hmem
    rw [hr] at hmem ⊢
    rw [hp t e (h.mem_items.mp hmem)]
    exact h.keyed t e hmem
  · intro t hne
    rw [hi] at hne
    exact Nat.lt_of_lt_of_le (h.bound t hne) hn

variable {g : Task → Task}

/-- A task between two lists may be written to freely. -/
theorem write (ht : t ∈ X) : Wired X (s.withTask t g) := by
  refine h.congr rfl rfl rfl rfl (Nat.le_refl _) ?_ ?_
  · intro u e hi
    have hu : u ≠ t := by
      rintro rfl
      rw [h.loose u ht] at hi
      cases hi
    simp [withTask, hu]
  · intro u hX hplaced
    have hu : u ≠ t := by
      rintro rfl
      exact hX ht
    simpa [withTask, hu] using hplaced

/-- A write that keeps the priority and what the state says about the links. -/
theorem write_placed (hp : (g (s.task t)).prio = (s.task t).prio)
    (hpl : Placed (s.task t) (s.prioElem t) (s.inode t) →
      Placed (g (s.task t)) (s.prioElem t) (s.inode t)) :
    Wired X (s.withTask t g) := by
  refine h.congr rfl rfl rfl rfl (Nat.le_refl _) ?_ ?_
  · exact fun u _ _ => Core.forall_withTask
      (P := fun u y => y.prio = (s.task u).prio) hp (fun u _ => rfl) u
  · exact fun u _ => Core.forall_withTask
      (P := fun u y => Placed (s.task u) (s.prioElem u) (s.inode u) →
        Placed y (s.prioElem u) (s.inode u)) hpl (fun u _ => id) u

theorem write_quiet (hp : (g (s.task t)).prio = (s.task t).prio)
    (hs : (g (s.task t)).state = (s.task t).state) (ho : (g (s.task t)).obj = (s.task t).obj) :
    Wired X (s.withTask t g) :=
  h.write_placed hp fun hpl => hpl.congr hs ho

/-- The object of a task that can run is free. -/
theorem write_active (ht : t ∉ X)
    (ha : (s.task t).state.active) (hp : (g (s.task t)).prio = (s.task t).prio)
    (hs : (g (s.task t)).state = (s.task t).state) : Wired X (s.withTask t g) := by
  refine h.write_placed hp fun _ => ?_
  rw [h.inode_of_active ht ha]
  exact ⟨by rw [hs]; exact ha, rfl⟩

/-! ## leaving a list -/

/-- `list_delete` on a wait list. -/
theorem unlinkWait (ht : s.inode t = some (.wait w)) :
    Wired (insert t X) (s.unlink t (.wait w)) := by
  refine ⟨?_, ?_, ?_, h.queue, h.keyed, ?_⟩
  · rw [listOf_unlink, inode_unlink]
    exact h.linked.unlink ht
  · intro u hu
    have hne : u ≠ t := fun he => hu (.inl he)
    rw [inode_unlink, update_of_ne hne]
    exact h.placed u fun hX => hu (.inr hX)
  · rw [inode_unlink]
    rintro u (rfl | hu)
    · simp
    · by_cases hut : u = t
      · subst hut
        simp
      · rw [update_of_ne hut]
        exact h.loose u hu
  · intro u hne
    rw [inode_unlink] at hne
    by_cases hut : u = t
    · subst hut
      simp at hne
    · rw [update_of_ne hut] at hne
      exact h.bound u hne

theorem listDelete_of_mem (ht : t ∈ s.lists w) :
    s.listDelete t = .ok (s.unlink t (.wait w)) := by
  rw [listDelete, h.mem_lists.mp ht]

/-- `delete_from_ready_list` -/
theorem deleteFromReadyList_spec (ht : s.inode t = some (.prio (s.prioElem t))) :
    Holds E (deleteFromReadyList t s) fun s' => Wired (insert t X) s' ∧ s'.toCore = s.toCore ∧
      s'.ready = (s.ready.erase (s.prioElem t) t).release (s.prioElem t) := by
  have hmem := h.mem_items.mpr ht
  have heq : deleteFromReadyList t s = .ok { s.unlink t (.prio (s.prioElem t)) with
      ready := (s.ready.erase (s.prioElem t) t).release (s.prioElem t) } := by
    rw [deleteFromReadyList, listDelete, ht]
    rfl
  rw [heq]
  refine ⟨?_, rfl, rfl⟩
  · refine ⟨?_, ?_, ?_, ?_, ?_, ?_⟩
    · have hl := h.linked.unlink ht
      rw [← listOf_unlink] at hl
      have hlist : Kernel.listOf { s.unlink t (.prio (s.prioElem t)) with
          ready := (s.ready.erase (s.prioElem t) t).release (s.prioElem t) } =
          (s.unlink t (.prio (s.prioElem t))).listOf := by
        funext k
        cases k with
        | prio e => simp [Kernel.listOf, unlink]
        | wait w => rfl
      rw [hlist]
      exact hl
    · intro u hu
      have hne : u ≠ t := fun he => hu (.inl he)
      show Placed (s.task u) (s.prioElem u) (update s.inode t none u)
      rw [update_of_ne hne]
      exact h.placed u fun hX => hu (.inr hX)
    · rintro u (rfl | hu)
      · exact update_self _ _ _
      · show update s.inode t none u = none
        by_cases hut : u = t
        · subst hut
          simp
        · rw [update_of_ne hut]
          exact h.loose u hu
    · exact h.queue.remove hmem
    · intro u e hu
      rw [Buckets.items_release] at hu
      rw [Buckets.prio_release]
      refine h.keyed u e ?_
      by_cases hee : e = s.prioElem t
      · subst hee
        have hu' : u ∈ (s.ready.items (s.prioElem t)).erase t := by
          simpa [Buckets.Queue.erase] using hu
        exact List.mem_of_mem_erase hu'
      · simpa [Buckets.Queue.erase, hee] using hu
    · intro u hne
      refine h.bound u fun hi => hne ?_
      show update s.inode t none u = none
      by_cases hut : u = t
      · subst hut
        simp
      · rw [update_of_ne hut]
        exact hi

end

/-! ## joining a list -/

/-- A task joins a wait list and is written to, so that its state names the list. -/
theorem join (h : Wired (insert t X) s) (htX : t ∉ X) {l : List TaskId}
    (hl : l.Perm (t :: s.lists w)) (hr : s'.ready = s.ready)
    (hi : s'.inode = update s.inode t (some (.wait w))) (he : s'.prioElem = s.prioElem)
    (hls : s'.lists = update s.lists w l) (hn : s'.ntask = s.ntask) (hlt : t < s.ntask)
    (hother : ∀ u, u ≠ t → s'.task u = s.task u) (hw : Waits (s'.task t) (some w)) :
    Wired X s' := by
  have hloose : s.inode t = none := h.loose t (.inl rfl)
  refine ⟨?_, ?_, ?_, ?_, ?_, ?_⟩
  · have hlist : s'.listOf = update s.listOf (.wait w) l := by
      funext k
      by_cases hk : k = .wait w
      · subst hk
        simp [Kernel.listOf, hls]
      · rw [update_of_ne hk]
        cases k with
        | prio e => exact congrFun (congrArg Buckets.Queue.items hr) e
        | wait w' =>
          have : w' ≠ w := fun he => hk (by rw [he])
          simp [Kernel.listOf, hls, this]
    rw [hlist, hi]
    exact h.linked.link hloose hl
  · intro u hu
    rw [he, hi]
    by_cases hut : u = t
    · subst hut
      rw [update_self]
      exact hw
    · rw [update_of_ne hut, hother u hut]
      refine h.placed u ?_
      rintro (hc | hc)
      · exact hut hc
      · exact hu hc
  · intro u hu
    have hut : u ≠ t := by
      rintro rfl
      exact htX hu
    rw [hi, update_of_ne hut]
    exact h.loose u (.inr hu)
  · rw [hr]
    exact h.queue
  · intro u e hmem
    rw [hr] at hmem ⊢
    have hut : u ≠ t := by
      rintro rfl
      rw [h.mem_items, hloose] at hmem
      cases hmem
    rw [hother u hut]
    exact h.keyed u e hmem
  · intro u hne
    rw [hi] at hne
    rw [hn]
    by_cases hut : u = t
    · subst hut
      exact hlt
    · rw [update_of_ne hut] at hne
      exact h.bound u hne

/-- A task that is on no list by its state. -/
theorem settle (h : Wired (insert t X) s) (hs : (s.task t).state.active = false)
    (hw : Waits (s.task t) none) : Wired X s := by
  refine ⟨h.linked, ?_, fun u hu => h.loose u (.inr hu), h.queue, h.keyed, h.bound⟩
  intro u hu
  by_cases hut : u = t
  · subst hut
    rw [h.loose u (.inl rfl)]
    exact ⟨hs, hw⟩
  · refine h.placed u ?_
    rintro (hc | hc)
    · exact hut hc
    · exact hu hc

/-- `add_ready_list` -/
theorem addReadyList_spec (h : Wired (insert t X) s) (htX : t ∉ X) (hlt : t < s.ntask)
    (hp : (s.task t).prio ≤ Config.numberOfPriorities) (hr : (s.task t).state ≠ .ready)
    (hz : (s.task t).state ≠ .zombie) :
    Holds E (addReadyList t s) fun s' => Wired X s' ∧
      s'.toCore = s.toCore.withTask t (fun x => { x with state := .ready }) := by
  obtain ⟨e, q, hadd, hq⟩ := Buckets.add_spec (x := t) h.queue hp
  have hloose : s.inode t = none := h.loose t (.inl rfl)
  have heq : addReadyList t s = .ok (enterReady t e q s) := by
    rw [addReadyList]
    simp only [if_neg (Nat.not_lt.mpr hp), hr, hz, or_self, if_false, hadd]
  rw [heq]
  refine ⟨?_, rfl⟩
  · refine ⟨?_, ?_, ?_, hq.wf, ?_, ?_⟩
    · have hlist : (enterReady t e q s).listOf =
          update s.listOf (.prio e) (s.ready.items e ++ [t]) := by
        funext k
        cases k with
        | prio e' =>
          show q.items e' = _
          rw [hq.items]
          by_cases hee : e' = e
          · subst hee
            simp
          · have : Head.prio e' ≠ .prio e := fun he => hee (by cases he; rfl)
            rw [update_of_ne hee, update_of_ne this]
            rfl
        | wait w => simp [Kernel.listOf, enterReady, withTask]
      rw [hlist]
      exact h.linked.link hloose (List.perm_append_singleton _ _)
    · intro u hu
      by_cases hut : u = t
      · subst hut
        simp [enterReady, withTask, Placed, ThrState.active]
      · have hp' := h.placed u (by
          rintro (hc | hc)
          · exact hut hc
          · exact hu hc)
        simpa [enterReady, withTask, hut] using hp'
    · intro u hu
      have hut : u ≠ t := by
        rintro rfl
        exact htX hu
      simpa [enterReady, hut] using h.loose u (.inr hu)
    · intro u e' hmem
      show ((s.withTask t fun x => { x with state := .ready }).task u).prio = q.prio e'
      have hprio : ((s.withTask t fun x => { x with state := .ready }).task u).prio = (s.task u).prio := by
        by_cases hut : u = t
        · subst hut
          simp [withTask]
        · simp [withTask, hut]
      rw [hprio]
      have hmem' : u ∈ q.items e' := hmem
      rw [hq.items] at hmem'
      by_cases hee : e' = e
      · subst hee
        rw [update_self, List.mem_append] at hmem'
        rcases hmem' with hmem' | hmem'
        · rw [hq.prio_of_mem e' (h.queue.mem_active hmem')]
          exact h.keyed u e' hmem'
        · rw [hq.prio_self, List.mem_singleton.mp hmem']
      · rw [update_of_ne hee] at hmem'
        rw [hq.prio_of_mem e' (h.queue.mem_active hmem')]
        exact h.keyed u e' hmem'
    · intro u hne
      by_cases hut : u = t
      · subst hut
        exact hlt
      · refine h.bound u ?_
        simpa [enterReady, hut] using hne

end Wired

end Isix
