import Isix.Refine.System

/-!
# Isix.Ownership

What an event does to the `owned_mutexes` lists: a task keeps its list, gets
one mutex more, loses the one mutex the event drops, or loses them all
(`step_owned`).
-/

namespace Isix

open Function (update)
open Kernel Outcome

/-! ## waiters -/

/-- No action but a sleep on the mutex makes a task a waiter of it. -/
theorem Act.waiter [Config] {a : Act} {c : Core} {m : MtxId} {t : TaskId} (hg : a.guard c)
    (ha : a ≠ .sleep (.mutex m)) (ht : t ∈ (a.apply c).lists (.mtx m)) : t ∈ c.lists (.mtx m) := by
  refine (a.listed hg (by simp) ((Act.lists_apply hg _).mem_iff.mp ht) fun k hk hhead => ?_).1
  cases k with
  | mutex m' =>
    cases hhead
    exact absurd hk ha
  | _ => cases hhead

/-! ## the mutexes an event is about -/

/-- The mutex that leaves its owner: it is destroyed, or this is the last
unlock of it. -/
def Event.drops? (s : Kernel) (e : Event) : Option MtxId :=
  match e.call? with
  | some (.mutexDestroy m) => m
  | _ => (e.unlocks? s).filter fun m => decide (toInt32 ((s.mutex m).count - 1) = 0)

/-- The event can take the mutex `m` from `t`. -/
def Event.takes (s : Kernel) (e : Event) (t : TaskId) (m : MtxId) : Prop :=
  e.unlocks? s = some m ∧ t = s.currp ∨ e.unlocksAll? s = some t ∨
    e.call? = some (.mutexDestroy (some m))

def Event.robs (s : Kernel) (e : Event) (t : TaskId) : Prop := ∃ m, e.takes s t m

namespace Event

variable {s : Kernel} {e : Event} {m m' : MtxId} {t : TaskId} {c c' : Core}

/-- The calls that release a mutex. -/
theorem releases.call (h : e.releases s m c) : ∃ call, e.call? = some call ∧ call.locks? = none ∧
    ∀ m, call ≠ .mutexDestroy (some m) := by
  rcases h with ⟨hu, -⟩ | ⟨o, hu, -⟩
  · unfold unlocks? at hu
    split at hu
    · rename_i hc
      exact ⟨_, hc, rfl, by simp⟩
    · rename_i hc
      exact ⟨_, hc, rfl, by simp⟩
    · cases hu
  · unfold unlocksAll? at hu
    split at hu
    · rename_i hc
      exact ⟨_, hc, rfl, by simp⟩
    · rename_i hc
      exact ⟨_, hc, rfl, by simp⟩
    · cases hu

/-- The events that take a mutex do not release one. -/
theorem releases.not_locks (h : e.releases s m c) (hl : e.locks? s = some m') : False := by
  obtain ⟨call, hc, hnone, -⟩ := h.call
  rw [locks?_of_call hc, hnone] at hl
  cases hl

theorem releases.takes (h : e.releases s m c) (ho : (c.mutex m).owner = some t) : e.takes s t m := by
  rcases h with ⟨hu, hown⟩ | ⟨o, hu, hown⟩
  · cases hown.symm.trans ho
    exact .inl ⟨hu, rfl⟩
  · cases hown.symm.trans ho
    exact .inr (.inl hu)

theorem unlocksAll?_of_unlocks (hu : e.unlocks? s = some m) : e.unlocksAll? s = none := by
  unfold unlocks? at hu
  split at hu
  · rename_i hc
    simp [unlocksAll?, hc]
  · rename_i hc
    simp [unlocksAll?, hc]
  · cases hu

theorem drops?_of_unlocks (hu : e.unlocks? s = some m) (hz : toInt32 ((s.mutex m).count - 1) = 0) :
    e.drops? s = some m := by
  have hd : e.drops? s = (e.unlocks? s).filter fun m => decide (toInt32 ((s.mutex m).count - 1) = 0) := by
    unfold drops?
    split
    · rename_i hc
      simp [unlocks?, hc] at hu
    · rfl
  rw [hd, hu, Option.filter_some, if_pos (by simpa using hz)]

/-- The calls that rob a task. -/
theorem robs.call (h : e.robs s t) : ∃ call, e.call? = some call ∧ call.locks? = none ∧
    ∀ p f r, call ≠ .taskCreate p f r := by
  obtain ⟨m, ⟨hu, -⟩ | hu | hc⟩ := h
  · unfold unlocks? at hu
    split at hu
    · rename_i hc
      exact ⟨_, hc, rfl, by simp⟩
    · rename_i hc
      exact ⟨_, hc, rfl, by simp⟩
    · cases hu
  · unfold unlocksAll? at hu
    split at hu
    · rename_i hc
      exact ⟨_, hc, rfl, by simp⟩
    · rename_i hc
      exact ⟨_, hc, rfl, by simp⟩
    · cases hu
  · exact ⟨_, hc, rfl, by simp⟩

/-- A service that takes no mutex does not wait for one. -/
theorem not_sleeps_mutex {call : Call} (hc : e.call? = some call) (hnone : call.locks? = none) :
    ¬e.sleeps s (.mutex m) := by
  rintro (hcall | hf | hf)
  · rw [hc] at hcall
    cases hcall
    cases hnone
  · cases e <;> first | cases hf | cases hc
  · cases e <;> first | cases hf | cases hc

end Event

/-! ## a task the event does not rob -/

variable [Config] {s s' : Kernel} {e : Event} {m : MtxId} {t : TaskId} {c : Core} {a : Act}

/-- Only one mutex comes to a task in one event: the one it asked for, or the
one it was waiting for. -/
def Fed (s : Kernel) (e : Event) (t : TaskId) (m : MtxId) (c : Core) : Prop :=
  e.locks? s = some m ∨ (∃ m' c', e.releases s m' c') ∧ ∀ m', t ∉ c.lists (.mtx m')

/-- A task that is not robbed keeps its mutexes and may get one more. -/
structure Spared (s : Kernel) (e : Event) (t : TaskId) (c : Core) : Prop where
  grows : s.toCore.Grows c
  created : ∀ m, (c.mutex m).owner ≠ none → m < c.nmtx
  linked : ∀ m, (c.mutex m).inode = none ∨ (c.mutex m).inode = (c.mutex m).owner
  held : ∀ m, (s.mutex m).owner = some t → (c.mutex m).owner = some t
  owned : (c.task t).ownedMutexes = (s.task t).ownedMutexes ∨
    ∃ m, (c.task t).ownedMutexes = insertFirst m (s.task t).ownedMutexes ∧
      (s.mutex m).owner ≠ some t ∧ (c.mutex m).owner = some t ∧ Fed s e t m c

omit [Config] in
theorem Act.onMutex_linked (a : Act) (m : MtxId)
    (h : (c.mutex m).inode = none ∨ (c.mutex m).inode = (c.mutex m).owner) :
    (a.onMutex c m).inode = none ∨ (a.onMutex c m).inode = (a.onMutex c m).owner := by
  cases a with
  | own m' | count m' n | free m' | strip m' clear | handover m' u | newMutex =>
    simp only [onMutex]
    split
    · simp [h]
    · exact h
  | _ => exact h

/-- The owner of a mutex that the event does not take from it. -/
theorem Act.keeps_owner (ha : e.allows s a c) (hg : a.guard c) (hr : ¬e.takes s t m) (hm : m < c.nmtx)
    (ho : (c.mutex m).owner = some t) : (a.onMutex c m).owner = some t := by
  cases a with
  | own m' =>
    simp only [onMutex]
    split
    · rename_i hmm
      subst hmm
      rw [hg.1] at ho
      cases ho
    · exact ho
  | count m' n =>
    simp only [onMutex]
    split <;> exact ho
  | free m' | handover m' u =>
    simp only [onMutex]
    split
    · rename_i hmm
      subst hmm
      exact absurd (Event.releases.takes ha ho) hr
    · exact ho
  | strip m' clear =>
    simp only [onMutex]
    split
    · rename_i hmm
      subst hmm
      cases clear with
      | false => exact ho
      | true => exact absurd (.inr (.inr ha)) hr
    · exact ho
  | newMutex =>
    simp only [onMutex]
    rw [if_neg (Nat.ne_of_lt hm)]
    exact ho
  | _ => exact ho

theorem Good.lt_of_owner (h : Good s) (ho : (s.mutex m).owner = some t) : m < s.nmtx := by
  by_contra hm
  rw [h.core.mutex.fresh m (Nat.le_of_not_lt hm)] at ho
  cases ho

/-- Only a mutex that exists has an owner. -/
theorem Act.owner_created (ha : e.allows s a c) (hg : a.guard c)
    (h : ∀ m, (c.mutex m).owner ≠ none → m < c.nmtx) (ho : (a.onMutex c m).owner ≠ none) :
    m < (a.apply c).nmtx := by
  refine Nat.lt_of_lt_of_le ?_ (a.grows c).nmtx
  cases a with
  | own m' =>
    simp only [onMutex] at ho
    split at ho
    · rename_i hmm
      exact hmm ▸ hg.2.1
    · exact h m ho
  | count m' n =>
    simp only [onMutex] at ho
    split at ho <;> exact h m ho
  | strip m' clear =>
    simp only [onMutex] at ho
    split at ho
    · rename_i hmm
      exact h m (hmm ▸ hg)
    · exact h m ho
  | free m' | newMutex =>
    simp only [onMutex] at ho
    split at ho
    · exact absurd rfl ho
    · exact h m ho
  | handover m' u =>
    simp only [onMutex] at ho
    split at ho
    · rename_i hmm
      subst hmm
      refine h m ?_
      rcases ha with ⟨-, hown⟩ | ⟨o, -, hown⟩ <;> rw [hown] <;> simp
    · exact h m ho
  | _ => exact h m ho

theorem Fed.act (h : Fed s e t m c) (ha : e.allows s a c) (hg : a.guard c) :
    Fed s e t m (a.apply c) := by
  rcases h with hl | ⟨⟨m', c', hrel⟩, hout⟩
  · exact .inl hl
  · refine .inr ⟨⟨m', c', hrel⟩, fun m'' hmem => hout m'' (Act.waiter hg ?_ hmem)⟩
    rintro rfl
    obtain ⟨call, hc, hnone, -⟩ := hrel.call
    exact Event.not_sleeps_mutex hc hnone ha

omit [Config] in
theorem Fed.not_create {p : Nat} {f r : Bool} (h : Fed s e t m c) (he : e.call? = some (.taskCreate p f r)) : False := by
  rcases h with hl | ⟨⟨m', c', hrel⟩, -⟩
  · rw [Event.locks?_of_call he] at hl
    cases hl
  · rcases hrel with ⟨hu, -⟩ | ⟨o, hu, -⟩
    · simp [Event.unlocks?, he] at hu
    · simp [Event.unlocksAll?, he] at hu

namespace Spared

theorem start (hgood : Good s) : Spared s e t s.toCore where
  grows := .refl _
  created m ho := by
    cases hown : (s.mutex m).owner with
    | none => exact absurd hown ho
    | some o => exact hgood.lt_of_owner hown
  linked m := Or.inr (hgood.core.mutex.owner m (by simp)).symm
  held _ ho := ho
  owned := Or.inl rfl

/-- An action that does not touch the list of `t`. -/
theorem owned_of_eq (h : Spared s e t c) (ha : e.allows s a c) (hg : a.guard c) (hr : ¬e.robs s t)
    (he : a.onOwned c t = (c.task t).ownedMutexes) :
    ((a.apply c).task t).ownedMutexes = (s.task t).ownedMutexes ∨
      ∃ m, ((a.apply c).task t).ownedMutexes = insertFirst m (s.task t).ownedMutexes ∧
        (s.mutex m).owner ≠ some t ∧ ((a.apply c).mutex m).owner = some t ∧ Fed s e t m (a.apply c) := by
  rw [Act.owned_apply, he]
  rcases h.owned with hl | ⟨m, hl, hne, ho, hserved⟩
  · exact .inl hl
  · refine .inr ⟨m, hl, hne, ?_, hserved.act ha hg⟩
    rw [Act.mutex_apply]
    exact Act.keeps_owner ha hg (fun ht => hr ⟨m, ht⟩) (h.created m (by rw [ho]; simp)) ho

omit [Config] in
/-- A mutex that is released is not on the list of a task that is not robbed. -/
theorem inode_ne (h : Spared s e t c) (hr : ¬e.robs s t) (hrel : e.releases s m c) :
    (c.mutex m).inode ≠ some t := by
  intro hin
  rcases h.linked m with hl | hl
  · rw [hl] at hin
    cases hin
  · exact hr ⟨m, hrel.takes (hl.symm.trans hin)⟩

theorem owned_own (h : Spared s e t c) (ha : e.allows s (.own m) c) (hg : (Act.own m).guard c)
    (hcur : t = c.currp) : ((Act.own m).onOwned c t = insertFirst m (s.task t).ownedMutexes) ∧
      (s.mutex m).owner ≠ some t := by
  have hne : (s.mutex m).owner ≠ some t := by
    intro ho
    have := h.held m ho
    rw [hg.1] at this
    cases this
  refine ⟨?_, hne⟩
  simp only [Act.onOwned, if_pos hcur]
  rcases h.owned with hl | ⟨m', hl, -, ho, hlock | ⟨⟨m'', c', hrel⟩, -⟩⟩
  · rw [hl]
  · cases hlock.symm.trans ha
    rw [hg.1] at ho
    cases ho
  · exact (hrel.not_locks ha).elim

theorem owned_handover (h : Spared s e t c) (ha : e.allows s (.handover m t) c)
    (hg : (Act.handover m t).guard c) (hr : ¬e.robs s t) :
    ((Act.handover m t).onOwned c t = insertFirst m (s.task t).ownedMutexes) ∧
      (s.mutex m).owner ≠ some t := by
  have hne : (s.mutex m).owner ≠ some t := fun ho =>
    hr ⟨m, Event.releases.takes ha (h.held m ho)⟩
  refine ⟨?_, hne⟩
  simp only [Act.onOwned, if_neg (h.inode_ne hr ha), if_true]
  rcases h.owned with hl | ⟨m', hl, -, ho, hlock | ⟨-, hout⟩⟩
  · rw [hl]
  · exact (Event.releases.not_locks ha hlock).elim
  · exact absurd (List.mem_of_head? hg.2) (hout m)

theorem act (h : Spared s e t c) (hgood : Good s) (ha : e.allows s a c) (hg : a.guard c)
    (hr : ¬e.robs s t) : Spared s e t (a.apply c) := by
  refine ⟨h.grows.trans (a.grows c), fun m ho => ?_, fun m => ?_, fun m ho => ?_, ?_⟩
  · rw [Act.mutex_apply] at ho
    exact Act.owner_created ha hg h.created ho
  · rw [Act.mutex_apply]
    exact a.onMutex_linked m (h.linked m)
  · rw [Act.mutex_apply]
    have hc := h.held m ho
    exact Act.keeps_owner ha hg (fun ht => hr ⟨m, ht⟩) (h.created m (by rw [hc]; simp)) hc
  · cases a with
    | own m =>
      by_cases hcur : t = c.currp
      · obtain ⟨hl, hne⟩ := h.owned_own ha hg hcur
        refine .inr ⟨m, by rw [Act.owned_apply, hl], hne, ?_, .inl ha⟩
        rw [Act.mutex_apply]
        simp [Act.onMutex, hcur]
      · exact h.owned_of_eq ha hg hr (if_neg hcur)
    | free m => exact h.owned_of_eq ha hg hr (if_neg (h.inode_ne hr ha))
    | strip m clear =>
      cases clear with
      | false => exact h.owned_of_eq ha hg hr (if_neg (h.inode_ne hr ha))
      | true => exact absurd ⟨m, .inr (.inr ha)⟩ hr
    | handover m u =>
      by_cases hu : t = u
      · subst hu
        obtain ⟨hl, hne⟩ := h.owned_handover ha hg hr
        refine .inr ⟨m, by rw [Act.owned_apply, hl], hne, ?_, .inr ⟨⟨m, c, ha⟩, fun m' hmem => ?_⟩⟩
        · rw [Act.mutex_apply]
          simp [Act.onMutex]
        · -- the mutex was the only one the task waited for
          rw [(Act.lists_apply hg _).mem_iff] at hmem
          simp only [Act.queue] at hmem
          split at hmem
          · exact hg.1.not_mem_erase hmem
          · rename_i hmm
            exact hmm (Option.some.inj (hg.1.eq_of_mem hmem))
      · refine h.owned_of_eq ha hg hr ?_
        simp only [Act.onOwned, if_neg (h.inode_ne hr ha), if_neg hu]
    | newTask y =>
      by_cases hu : t = c.ntask
      · rcases h.owned with hl | ⟨m, -, -, -, hserved⟩
        · refine .inl ?_
          have hzero : (s.task t).ownedMutexes = [] := by
            rw [hgood.core.task.fresh t (hu ▸ h.grows.ntask)]
            rfl
          rw [Act.owned_apply, hzero]
          simp only [Act.onOwned, if_pos hu]
          exact hg.2.2.2.1
        · obtain ⟨p, f, r, hcall⟩ := ha
          exact (hserved.not_create hcall).elim
      · exact h.owned_of_eq ha hg hr (if_neg hu)
    | _ => exact h.owned_of_eq ha hg hr rfl

end Spared

/-! ## a task the event robs -/

/-- A task that is robbed gets nothing. -/
structure Robbed (s : Kernel) (t : TaskId) (c : Core) : Prop where
  ntask : s.ntask ≤ c.ntask
  waits : ∀ m, t ∈ c.lists (.mtx m) → t ∈ s.lists (.mtx m)
  owner : ∀ m, (c.mutex m).owner = some t → (s.mutex m).owner = some t
  owned : (c.task t).ownedMutexes.Sublist (s.task t).ownedMutexes

namespace Robbed

/-- The owner of a mutex does not wait for it, so nothing comes back. -/
theorem ne_of_handover (h : Robbed s t c) (hgood : Good s) {u : TaskId} (ha : e.allows s (.handover m u) c)
    (hg : (Act.handover m u).guard c) (hr : e.robs s t) : t ≠ u := by
  rintro rfl
  have hmem := h.waits m (List.mem_of_head? hg.2)
  have hown : (c.mutex m).owner ≠ some t := fun ho =>
    hgood.core.mutex.waiter_ne m (by simp) t hmem (h.owner m ho)
  obtain ⟨call, hcall, -, hdestroy⟩ := Event.releases.call ha
  obtain ⟨m', ⟨hu, rfl⟩ | hu | hd⟩ := hr
  · rcases ha with ⟨-, ho⟩ | ⟨o, ho, -⟩
    · exact hown ho
    · rw [Event.unlocksAll?_of_unlocks hu] at ho
      cases ho
  · rcases ha with ⟨ho, -⟩ | ⟨o, ho, hc⟩
    · rw [Event.unlocksAll?_of_unlocks ho] at hu
      cases hu
    · cases hu.symm.trans ho
      exact hown hc
  · exact hdestroy m' (Option.some.inj (hcall.symm.trans hd))

theorem act (h : Robbed s t c) (hgood : Good s) (ha : e.allows s a c) (hg : a.guard c)
    (hr : e.robs s t) : Robbed s t (a.apply c) := by
  obtain ⟨call, hcall, hlock, hcreate⟩ := hr.call
  have hown : ∀ m, a ≠ .own m := by
    rintro m rfl
    have hl : e.locks? s = some m := ha
    rw [Event.locks?_of_call hcall, hlock] at hl
    cases hl
  refine ⟨Nat.le_trans h.ntask (a.grows c).ntask, fun m hmem => h.waits m (Act.waiter hg ?_ hmem),
    fun m ho => ?_, ?_⟩
  · rintro rfl
    exact Event.not_sleeps_mutex hcall hlock ha
  · rw [Act.mutex_apply] at ho
    cases a with
    | own m' => exact absurd rfl (hown m')
    | handover m' u =>
      simp only [Act.onMutex] at ho
      split at ho
      · exact absurd (Option.some.inj ho).symm (h.ne_of_handover hgood ha hg hr)
      · exact h.owner m ho
    | count m' n | free m' | newMutex =>
      simp only [Act.onMutex] at ho
      split at ho
      · first
          | cases ho
          | exact h.owner m ho
      · exact h.owner m ho
    | strip m' clear =>
      simp only [Act.onMutex] at ho
      split at ho
      · cases clear with
        | false => exact h.owner m ho
        | true => cases ho
      · exact h.owner m ho
    | _ => exact h.owner m ho
  · rw [Act.owned_apply]
    cases a with
    | own m => exact absurd rfl (hown m)
    | free m | strip m clear =>
      simp only [Act.onOwned]
      split
      · exact List.erase_sublist.trans h.owned
      · exact h.owned
    | handover m u =>
      simp only [Act.onOwned, if_neg (h.ne_of_handover hgood ha hg hr)]
      split
      · exact List.erase_sublist.trans h.owned
      · exact h.owned
    | newTask y =>
      obtain ⟨p, f, r, hc⟩ := ha
      exact absurd (Option.some.inj (hcall.symm.trans hc)) (hcreate p f r)
    | _ => exact h.owned

end Robbed

/-! ## one event -/

variable {r : Kernel × Answer}

theorem step_spared (hi : Inv s) (he : enabled s e = true) (hb : BootOk e s)
    (hs : step e s = .ok r) (hr : ¬e.robs s t) : Spared s e t r.1.toCore :=
  ((step_does hi he hb).of_ok hs).path.invariant (.start hi.good) fun _ _ ha hg h =>
    h.act hi.good ha hg hr

theorem step_robbed (hi : Inv s) (he : enabled s e = true) (hb : BootOk e s)
    (hs : step e s = .ok r) (hr : e.robs s t) : Robbed s t r.1.toCore :=
  ((step_does hi he hb).of_ok hs).path.invariant ⟨Nat.le_refl _, fun _ h => h, fun _ h => h, .refl _⟩
    fun _ _ ha hg h => h.act hi.good ha hg hr

/-- A mutex that the event cannot take from its owner. -/
theorem step_keeps_owner (hi : Inv s) (he : enabled s e = true) (hb : BootOk e s)
    (hs : step e s = .ok r) (hr : ¬e.takes s t m) (ho : (s.mutex m).owner = some t) :
    (r.1.mutex m).owner = some t := by
  have hpath := ((step_does hi he hb).of_ok hs).path
  refine (hpath.invariant (P := fun c => m < c.nmtx ∧ (c.mutex m).owner = some t)
    ⟨hi.good.lt_of_owner ho, ho⟩ fun a c ha hg h => ?_).2
  refine ⟨Nat.lt_of_lt_of_le h.1 (a.grows c).nmtx, ?_⟩
  rw [Act.mutex_apply]
  exact Act.keeps_owner ha hg hr h.1 h.2

/-- A service other than those of interrupt handlers is called by the running
task or by `main`. -/
theorem step_of_call {call : Call} (he : enabled s e = true) (hb : BootOk e s) (hc : e.call? = some call)
    (hv : ∀ v, call ≠ .service v) : step e s = call.exec s := by
  cases e with
  | call c =>
    cases hc
    rfl
  | boot c =>
    cases hc
    exact step_boot he hb
  | isr v elapsed =>
    cases hc
    exact absurd rfl (hv v)
  | _ => cases hc

/-- `isix_mutex_unlock` of a mutex that was locked several times. -/
theorem isixMutexUnlock_nested (ho : (s.mutex m).owner = some s.currp)
    (hn : toInt32 ((s.mutex m).count - 1) ≠ 0) (hs : isixMutexUnlock (some m) s = .ok r) :
    r = (s.withMutex m fun x => { x with count := toInt32 (x.count - 1) }, .code isixEok) := by
  unfold isixMutexUnlock at hs
  simp only [ho, ne_eq, not_true_eq_false, if_false] at hs
  split at hs
  · cases hs
  · rw [if_neg (by simpa [Kernel.withMutex] using hn)] at hs
    cases hs
    rfl

omit [Config] in
theorem listDelete_mutex {s' : Kernel} (hs : s.listDelete t = .ok s') : s'.mutex = s.mutex := by
  unfold Kernel.listDelete at hs
  split at hs
  · cases hs
  · rename_i l _
    cases hs
    cases l <;> rfl

omit [Config] in
/-- The sleep of `isix_condvar_wait` leaves the mutexes alone. -/
theorem condvarSleep_spec {v : CondId} {timeout : Nat}
    (hs : condvarSleep v m timeout s = .ok r) :
    r.2 = .blocked ∧ r.1.mutex = s.mutex ∧ (r.1.task r.1.currp).frame = .condvarWait m := by
  obtain ⟨s₁, hsleep, hr⟩ := of_bind_ok hs
  obtain ⟨s₂, hset, hsleep⟩ := of_bind_ok hsleep
  obtain ⟨s₃, hdel, hset⟩ := of_bind_ok hset
  obtain ⟨s₄, hdel, hready⟩ := of_bind_ok hdel
  have hsame := listDelete_mutex hdel
  cases hready
  cases hset
  cases hsleep
  cases hr
  refine ⟨rfl, ?_, ?_⟩
  · unfold isixYield
    split <;> split <;> exact hsame
  · unfold isixYield
    split <;> split <;> simp [Kernel.withTask]

theorem caller_of_enabled {call : Call} (hi : Inv s) (hc : e.call? = some call)
    (hv : ∀ v, call ≠ .service v) (he : enabled s e = true) : Caller s ∧ call.valid s = true := by
  cases e with
  | call c =>
    cases hc
    exact (caller_of_call he).2
  | boot c =>
    cases hc
    exact caller_of_boot hi he
  | isr v elapsed =>
    cases hc
    exact absurd rfl (hv v)
  | _ => cases hc

/-- An unlock that is not the last one leaves the owner. -/
theorem step_nested (he : enabled s e = true) (hb : BootOk e s) (hs : step e s = .ok r)
    (hu : e.unlocks? s = some m) (ho : (s.mutex m).owner = some s.currp)
    (hn : toInt32 ((s.mutex m).count - 1) ≠ 0) : (r.1.mutex m).owner = some s.currp := by
  have hunlock : ((s.withMutex m fun x => { x with count := toInt32 (x.count - 1) }).mutex m).owner =
      some s.currp := by
    simpa [Kernel.withMutex] using ho
  unfold Event.unlocks? at hu
  split at hu
  · rename_i m' hc
    subst hu
    rw [step_of_call he hb hc (by simp)] at hs
    rw [isixMutexUnlock_nested ho hn hs]
    exact hunlock
  · rename_i cv timeout hc
    rw [step_of_call he hb hc (by simp)] at hs
    simp only [Call.exec, isixCondvarWait] at hs
    cases cv with
    | none =>
      cases hs
      exact ho
    | some v =>
      simp only [hu] at hs
      split at hs
      · cases hs
        exact ho
      · obtain ⟨⟨s₁, ret⟩, hun, hrest⟩ := of_bind_ok hs
        cases isixMutexUnlock_nested ho hn hun
        rw [(condvarSleep_spec hrest).2.1]
        exact hunlock
  · cases hu

/-- The services that release all mutexes of a task. -/
theorem step_unlocksAll (hi : Inv s) (he : enabled s e = true) (hb : BootOk e s)
    (hs : step e s = .ok r) (hu : e.unlocksAll? s = some t) : (r.1.task t).ownedMutexes = [] := by
  unfold Event.unlocksAll? at hu
  split at hu
  · rename_i hc
    cases hu
    rw [step_of_call he hb hc (by simp)] at hs
    obtain ⟨s₁, hall, hr⟩ := of_bind_ok hs
    cases hr
    exact ((isixpMutexUnlockAllInTask_does (E := fun _ => True)
      (fun _ _ _ => trivial) ⟨by simp, by simp, by simp, by simp⟩ hi.good).of_ok hall).2.owned
  · rename_i task hc
    cases hu
    obtain ⟨hcaller, hvalid⟩ := caller_of_enabled hi hc (by simp) he
    rw [step_of_call he hb hc (by simp)] at hs
    have hboot : (Call.taskKill task).bootOk s := by
      cases e with
      | call c =>
        intro hrun
        rw [(caller_of_call he).1] at hrun
        cases hrun
      | boot c =>
        cases hc
        exact hb.call
      | _ => cases hc
    exact ((isixTaskKill_spec (E := fun _ => True) (fun _ _ _ => trivial)
      ⟨by simp, by simp, by simp, by simp⟩ ⟨by simp, by simp, by simp⟩ (by simp) hi.good
      (target_lt hi.good hvalid) (target_ne_idle hcaller hvalid hboot) hboot).of_ok hs).2
  · cases hu

theorem Good.mem_owned (h : Good s) : m ∈ (s.task t).ownedMutexes ↔ (s.mutex m).owner = some t := by
  rw [h.core.mutex.owner m (by simp)]
  exact h.core.mutex.linked.mem_iff

/-- What an event does to the mutexes of a task. -/
inductive Owning (e : Event) (s s' : Kernel) (t : TaskId) : Prop
  /-- it gets one that was not its own -/
  | gain (m : MtxId) (hl : (s'.task t).ownedMutexes = insertFirst m (s.task t).ownedMutexes)
      (ho : (s.mutex m).owner ≠ some t)
  /-- at most the one that is dropped is lost -/
  | keep (hl : (s'.task t).ownedMutexes.Sublist (s.task t).ownedMutexes)
      (hk : ∀ m ∈ (s.task t).ownedMutexes, e.drops? s ≠ some m → m ∈ (s'.task t).ownedMutexes)
  | lose (hl : (s'.task t).ownedMutexes = [])

/-- **One event**: the lists of the mutexes. -/
theorem step_owned (hi : Inv s) (he : enabled s e = true) (hb : BootOk e s)
    (hs : step e s = .ok r) (t : TaskId) : Owning e s r.1 t := by
  have hgood' : Good r.1 := ((step_does hi he hb).of_ok hs).ok
  by_cases hr : e.robs s t
  · by_cases hall : e.unlocksAll? s = some t
    · exact .lose (step_unlocksAll hi he hb hs hall)
    refine .keep (step_robbed hi he hb hs hr).owned fun m hm hd => ?_
    rw [hi.good.mem_owned] at hm
    rw [hgood'.mem_owned]
    by_cases ht : e.takes s t m
    · rcases ht with ⟨hu, rfl⟩ | hu | hdestroy
      · refine step_nested he hb hs hu hm fun hz => hd ?_
        exact Event.drops?_of_unlocks hu hz
      · exact absurd hu hall
      · exact absurd (by simp [Event.drops?, hdestroy]) hd
    · exact step_keeps_owner hi he hb hs ht hm
  · rcases (step_spared hi he hb hs hr).owned with hl | ⟨m, hl, hne, -, -⟩
    · exact .keep (hl ▸ .refl _) fun m hm _ => hl ▸ hm
    · exact .gain m hl hne

end Isix
