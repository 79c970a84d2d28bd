import Isix.Refine.Switch

/-!
# Isix.Refine.Wake

Semaphores, condition variables and events: every service is a path of
actions on the core, whatever tasks it finds on the wait list.  A loop over a
wait list wakes one task per round; a round leaves the tasks still to come on
the list and those already woken in the ready queue.
-/

namespace Isix

open Function (update)
open Kernel Outcome

/-! ## one task is woken -/

theorem asleep_of_waits {y : Task} {w : WaitHead} (h : Waits y (some w)) (hw : w ≠ .zombie) :
    y.state.asleep := by
  cases w with
  | zombie => exact absurd rfl hw
  | exit u =>
    have hs : y.state = .wtexit := h
    rw [hs]
    rfl
  | sem i | mtx m | cond v | evt v =>
    rw [h.1]
    rfl

namespace Act

variable {c : Core} {t u : TaskId} {w : Option WaitHead} {msg : Int}

theorem wake_state : (((Act.wake t w msg).apply c).task t).state = .ready := by
  simp [apply, Core.makeReady]

theorem wake_of_ne (hu : u ≠ t) : ((Act.wake t w msg).apply c).task u = c.task u := by
  simp [apply, Core.makeReady, Core.withTask, Core.untime, Core.dequeue?, hu]

theorem wake_owned (u : TaskId) :
    (((Act.wake t w msg).apply c).task u).ownedMutexes = (c.task u).ownedMutexes := by
  by_cases hu : u = t
  · subst hu
    simp [apply, Core.makeReady, Core.untime, Core.dequeue?]
  · rw [wake_of_ne hu]

theorem wake_lists (w' : WaitHead) : ((Act.wake t w msg).apply c).lists w' =
    if w = some w' then (c.lists w').erase t else c.lists w' := by
  cases w with
  | none => rfl
  | some w =>
    show update c.lists w _ w' = _
    by_cases hw : w' = w
    · subst hw
      simp
    · rw [Function.update_of_ne hw, if_neg fun he => hw (by cases he; rfl)]

end Act

variable {s s' : Kernel} {t : TaskId} {w : WaitHead}

/-- `t` was woken and did not run yet. -/
def Woken (s : Kernel) (t : TaskId) : Prop := (s.task t).state = .ready ∧ t < s.ntask

/-- What a round of a loop over the list of `w` leaves alone. -/
structure Round (w : WaitHead) (t : TaskId) (s s' : Kernel) : Prop where
  woken : Woken s' t
  owned : ∀ u, (s'.task u).ownedMutexes = (s.task u).ownedMutexes
  dead : ∀ u, (s.task u).state.dead = false → (s'.task u).state.dead = false
  active : ∀ u, (s.task u).state.active → s'.task u = s.task u
  mem : ∀ u, u ≠ t → u ∈ s.lists w → u ∈ s'.lists w
  event : s'.event = s.event
  currp : s'.currp = s.currp
  schrun : s'.schrun = s.schrun
  ntask : s'.ntask = s.ntask
  nevt : s'.nevt = s.nevt

theorem Round.keeps (h : Round w t s s') {u : TaskId} (hu : Woken s u) : Woken s' u := by
  refine ⟨?_, h.ntask ▸ hu.2⟩
  rw [h.active u (by rw [hu.1]; rfl)]
  exact hu.1

/-- The task a loop over the waiters wants to reschedule for: the caller or
a task it woke. -/
def Candidate (s : Kernel) (t : TaskId) : Prop :=
  ((s.task t).state = .ready ∨ t = s.currp) ∧ t < s.ntask

theorem Woken.candidate (h : Woken s t) : Candidate s t := ⟨.inl h.1, h.2⟩

theorem Round.candidate {u : TaskId} (h : Round w t s s') (hu : Candidate s u) :
    Candidate s' u := by
  obtain ⟨hr | rfl, hlt⟩ := hu
  · exact (h.keeps ⟨hr, hlt⟩).candidate
  · exact ⟨.inr h.currp.symm, h.ntask ▸ hlt⟩

variable [Config] {X : Set TaskId} {E : Panic → Prop} {A : Act → Core → Prop} {x : Option MtxId}
  {msg : Int}

theorem removeAndWakeup_leads (h : Ok X x s) (ht : t ∈ s.lists w)
    (hm : Wakes t msg s.toCore (some w)) (hA : A (.wake t (some w) msg) s.toCore) :
    Holds E (removeAndWakeup t msg s) fun s' => Leads A X x s s' ∧ Round w t s s' := by
  have hw : w ≠ .zombie := fun he => by rwa [he] at hm
  have hsit := h.wired.sits_of_mem ht
  have hasl := asleep_of_waits hsit.waits hw
  have hg : (Act.wake t (some w) msg).guard s.toCore := ⟨hsit, hasl, hm⟩
  refine (removeAndWakeup_spec h.wired h.core ht hw).mono fun s' hs' => ?_
  obtain ⟨hw', hc⟩ := hs'
  refine ⟨.act hw' (h.core.wake hg) hc hA hg, ?_⟩
  have hn : s'.ntask = s.ntask := by
    rw [hc]
    rfl
  have hne : ∀ u, (s.task u).state.active → u ≠ t := by
    rintro u hu rfl
    rw [not_active_of_waits hsit.waits] at hu
    cases hu
  have hother : ∀ u, u ≠ t → s'.task u = s.task u := by
    intro u hu
    rw [hc]
    exact Act.wake_of_ne hu
  have hstate : (s'.task t).state = .ready := by
    rw [hc]
    exact Act.wake_state
  refine ⟨⟨hstate, hn ▸ hsit.lt⟩, ?_, ?_, fun u hu => hother u (hne u hu), ?_, ?_, ?_, ?_, hn, ?_⟩
  · intro u
    rw [hc]
    exact Act.wake_owned u
  · intro u hu
    by_cases hut : u = t
    · rw [hut, hstate]
      rfl
    · rw [hother u hut]
      exact hu
  · intro u hu hmem
    rw [hc, Act.wake_lists, if_pos rfl]
    exact (List.mem_erase_of_ne hu).mpr hmem
  all_goals
    rw [hc]
    rfl

/-! ## loops over a wait list -/

/-- The state in the middle of a loop over the list of `w`; the tasks `l` are
still to come. -/
structure Swept (A : Act → Core → Prop) (X : Set TaskId) (x : Option MtxId) (w : WaitHead) (s : Kernel)
    (l : List TaskId) (s' : Kernel) : Prop where
  leads : Leads A X x s s'
  nodup : l.Nodup
  mem : ∀ t ∈ l, t ∈ s'.lists w
  owned : ∀ u, (s'.task u).ownedMutexes = (s.task u).ownedMutexes
  dead : ∀ u, (s.task u).state.dead = false → (s'.task u).state.dead = false
  active : ∀ u, (s.task u).state.active → s'.task u = s.task u
  event : s'.event = s.event
  currp : s'.currp = s.currp
  schrun : s'.schrun = s.schrun
  ntask : s'.ntask = s.ntask
  nevt : s'.nevt = s.nevt

namespace Swept

variable {l : List TaskId}

theorem start (h : Ok X x s) : Swept A X x w s (s.lists w) s :=
  ⟨.refl h, h.core.list.nodup w, fun _ => id, fun _ => rfl, fun _ => id, fun _ _ => rfl, rfl, rfl, rfl,
    rfl, rfl⟩

section

variable (h : Swept A X x w s (t :: l) s')

include h

theorem round {s'' : Kernel} (hl : Leads A X x s' s'')
    (hr : Round w t s' s'') : Swept A X x w s l s'' := by
  have hnd := List.nodup_cons.mp h.nodup
  refine ⟨h.leads.trans hl, hnd.2, ?_, fun u => (hr.owned u).trans (h.owned u),
    fun u hu => hr.dead u (h.dead u hu), ?_, hr.event.trans h.event, hr.currp.trans h.currp,
    hr.schrun.trans h.schrun, hr.ntask.trans h.ntask, hr.nevt.trans h.nevt⟩
  · intro u hu
    have hut : u ≠ t := by
      rintro rfl
      exact hnd.1 hu
    exact hr.mem u hut (h.mem u (List.mem_cons_of_mem _ hu))
  · intro u hu
    have hu' := h.active u hu
    rw [hr.active u (by rw [hu']; exact hu), hu']

theorem skip : Swept A X x w s l s' :=
  { h with nodup := (List.nodup_cons.mp h.nodup).2, mem := fun u hu => h.mem u (List.mem_cons_of_mem _ hu) }

theorem head_mem : t ∈ s'.lists w := h.mem t List.mem_cons_self

end

end Swept

theorem wakeupAll_leads (h : Ok X x s)
    (hm : ∀ t c, Wakes t msg c (some w)) (hA : ∀ t c, A (.wake t (some w) msg) c) :
    Holds E (wakeupAll w msg s) fun s' =>
      Swept A X x w s [] s' ∧ ∀ t ∈ s.lists w, Woken s' t := by
  have hloop := Holds.foldlM (P := E) (f := fun s t => removeAndWakeup t msg s)
    (I := fun l s' => Swept A X x w s l s' ∧ ∀ t ∈ s.lists w, t ∈ l ∨ Woken s' t) (s.lists w)
    ⟨.start h, fun _ => .inl⟩ ?_
  · refine hloop.mono fun s' hs' => ⟨hs'.1, fun t ht => ?_⟩
    exact (hs'.2 t ht).resolve_left (List.not_mem_nil)
  · rintro t l s₁ ⟨hs₁, hdone⟩
    refine (removeAndWakeup_leads hs₁.leads.ok hs₁.head_mem (hm _ _) (hA _ _)).mono
      fun s₂ hs₂ => ⟨hs₁.round hs₂.1 hs₂.2, fun u hu => ?_⟩
    rcases hdone u hu with hl | hwk
    · rcases List.mem_cons.mp hl with rfl | hl
      · exact .inr hs₂.2.woken
      · exact .inl hl
    · exact .inr (hs₂.2.keeps hwk)

variable {ctx : Context}

/-- `sem_wakeup_all` and `condvar_broadcast_msg` -/
theorem wakeupAll_does (hQ : Quiet A) (h : Good s)
    (hm : ∀ t c, Wakes t msg c (some w)) (hA : ∀ t c, A (.wake t (some w) msg) c) :
    Holds E (do
      let wkup := (s.lists w).head?
      let s ← wakeupAll w msg s
      leaveCritical ctx wkup s) (Does A s) := by
  refine (wakeupAll_leads h hm hA).bind fun s₁ hs₁ => ?_
  refine (leaveCritical_does hQ hs₁.1.leads.ok fun t ht => ?_).mono fun _ => hs₁.1.leads.trans
  obtain ⟨hr, hlt⟩ := hs₁.2 t (List.mem_of_head? ht)
  exact ⟨.inl hr, hlt⟩

/-! ## semaphores -/

/-- The caller of a service: the current task, or `main`. -/
structure Caller (s : Kernel) : Prop where
  active : (s.task s.currp).state.active
  not_idle : s.schrun = true → s.currp ≠ idle

theorem Good.sits_current (h : Good s) (ha : (s.task s.currp).state.active) :
    Sits s.currp none s.toCore := by
  have hsit := h.wired.sits (Set.notMem_empty _) h.core.task.currp_lt
  rwa [h.wired.inode_of_active (Set.notMem_empty _) ha] at hsit

/-- The sleep of a service. -/
theorem Does.sleep {k : Sleep} (h : Good s) (hcall : Caller s) (hrun : s.schrun = true)
    (hA : A (.sleep k) s.toCore) (hv : k.valid s.toCore) (hw : Wired ∅ s')
    (hc : s'.toCore = (Act.sleep k).apply s.toCore) : Does A s s' := by
  have hg : (Act.sleep k).guard s.toCore :=
    ⟨h.sits_current hcall.active, hcall.not_idle hrun, hrun, hcall.active, hv⟩
  exact .act hw (h.core.sleep hg) hc hA hg

/-- The answer of a service that may block: a service called by `main` does
not. -/
def Replies (A : Act → Core → Prop) (s : Kernel) (r : Kernel × Answer) : Prop :=
  (s.schrun = false → r.2 ≠ .blocked) → Does A s r.1

theorem Replies.of_does {a : Answer} (h : Does A s s') : Replies A s (s', a) := fun _ => h

theorem Replies.blocked (h : s.schrun = true → Does A s s') : Replies A s (s', .blocked) := by
  intro hb
  cases hr : s.schrun with
  | true => exact h hr
  | false => exact absurd rfl (hb hr)

theorem Does.setSem {i : SemId} {a : AtomicSem} (h : Good s) (hA : A (.setSem i a) s.toCore) :
    Does A s (s.setSem i a) :=
  .book h rfl rfl rfl rfl hA trivial rfl rfl rfl
    (h.core.congr rfl rfl rfl rfl rfl rfl rfl rfl rfl rfl rfl fun w he => by cases w <;> exact he)

/-- A semaphore is written by the services called on it. -/
def SemOk (A : Act → Core → Prop) (i : SemId) : Prop := ∀ a c, A (.setSem i a) c

theorem semSleep_spec {i : SemId} {timeout start tout : Nat} (h : Good s)
    (ha : (s.task s.currp).state.active) :
    Holds E (semSleep i timeout start tout s) fun r => r.2 = .blocked ∧ ∃ s₁, r.1 = isixYield s₁ ∧
      Wired ∅ s₁ ∧ s₁.toCore = s.toCore.fallAsleep (.sem i timeout start tout) := by
  have hs := sleep_spec (E := E) (.sem i timeout start tout) rfl
    (f := fun y => { y with obj := .sem i, waitAborted := false })
    (g := fun y => { y with frame := .semWait i timeout start }) h ha (fun _ => rfl)
    (fun _ => ⟨rfl, rfl⟩) (fun _ => ⟨rfl, rfl⟩) fun _ _ _ => rfl
  refine hs.bind fun s₁ hs₁ => ?_
  obtain ⟨hw, hc⟩ := hs₁ _ (.inl ⟨rfl, rfl⟩)
  exact ⟨rfl, _, rfl, hw, hc⟩

theorem semWaitBody_replies {i : SemId} {timeout start : Nat} (hQ : Quiet A) (hS : SemOk A i)
    (hK : ∀ n c, A (.sleep (.sem i timeout start n)) c) (h : Good s) (hcall : Caller s)
    (hi : i < s.nsem) (ht : timeout < tickMod) :
    Holds E (semWaitBody i timeout start s) (Replies A s) := by
  have h₁ : Does A s (s.setSem i (s.sem i).dec) := .setSem h (hS _ _)
  have hsleep : ∀ n, n < tickMod →
      Holds E (semSleep i timeout start n (s.setSem i (s.sem i).dec)) (Replies A s) := by
    intro n hn
    refine (semSleep_spec h₁.ok hcall.active).mono fun r hr => ?_
    obtain ⟨hb, s₂, hr₂, hw, hc⟩ := hr
    obtain ⟨s₃, a⟩ := r
    subst hb hr₂
    refine .blocked fun hrun => ?_
    have h₂ : Does A s s₂ := .sleep h hcall hrun (hK n _) ⟨hi, ht, hn⟩ hw hc
    exact h₂.trans (isixYield_does hQ h₂.ok)
  unfold semWaitBody
  simp only
  split
  · exact .of_does h₁
  · split
    · exact hsleep _ ht
    · split
      · exact .of_does (h₁.trans (Does.setSem h₁.ok (hS _ _)))
      · exact hsleep _ (Nat.lt_of_le_of_lt (Nat.sub_le _ _) ht)

variable {sem : Option SemId}

theorem isixSemWait_replies {timeout start : Nat} (hQ : Quiet A)
    (hS : ∀ i, sem = some i → SemOk A i)
    (hK : ∀ i n c, sem = some i → A (.sleep (.sem i timeout start n)) c) (h : Good s)
    (hcall : Caller s) (hi : ∀ i, sem = some i → i < s.nsem) (ht : timeout < tickMod) :
    Holds E (isixSemWait sem timeout start s) (Replies A s) := by
  unfold isixSemWait
  cases sem with
  | none => exact .of_does (.refl h)
  | some i =>
    simp only
    split
    · exact .of_does (.setSem h (hS i rfl _ _))
    · exact semWaitBody_replies hQ (hS i rfl) (fun n c => hK i n c rfl) h hcall (hi i rfl) ht

/-- A task was taken from its list and is woken from a task or an ISR. -/
theorem signalTask_does {s₀ : Kernel} (hQ : Quiet A)
    (hw : Holds E (wakeupTask t isixEok s) fun s' => Does A s₀ s' ∧ Woken s' t) :
    Holds E (signalTask t ctx s) (Does A s₀) := by
  cases ctx with
  | none =>
    refine hw.bind fun s₁ hs₁ => ?_
    exact hs₁.1.trans (isixpDoReschedule_does hQ hs₁.1.ok (.inl hs₁.2.1) hs₁.2.2)
  | some elapsed =>
    refine hw.bind fun s₁ hs₁ => ?_
    exact (isixpExitCriticalIsr_does hQ hs₁.1.ok).mono fun _ => hs₁.1.trans

theorem isixpSemSignal_does (hQ : Quiet A)
    (hS : ∀ i, sem = some i → SemOk A i) (hA : ∀ i t c, sem = some i → A (.signal i t) c) (h : Good s) :
    Holds E (isixpSemSignal sem ctx s) fun r => Does A s r.1 := by
  unfold isixpSemSignal
  cases sem with
  | none => exact Leads.refl h
  | some i =>
    have h₁ : Does A s (s.setSem i (s.sem i).inc) := .setSem h (hS i rfl _ _)
    simp only
    split
    · cases hl : (s.setSem i (s.sem i).inc).lists (.sem i) with
      | nil => exact h₁
      | cons t l =>
        have hmem : t ∈ (s.setSem i (s.sem i).inc).lists (.sem i) := by
          rw [hl]
          exact List.mem_cons_self
        have hsit := h.wired.sits_of_mem hmem
        have hi := h₁.ok.wired.mem_lists.mp hmem
        have hg : (Act.signal i t).guard s.toCore :=
          ⟨hsit, (congrArg List.head? hl : (s.lists (.sem i)).head? = _)⟩
        have hwake : Holds E (wakeupTask t isixEok
            ((s.setSem i (s.sem i).inc).unlink t (.wait (.sem i)))) fun s' =>
            Does A s s' ∧ Woken s' t := by
          refine (wakeupTask_spec (h₁.ok.wired.unlinkWait hi) (Set.notMem_empty _) hsit.lt
            (h.core.task.prio_le t) (not_ready_of_waits hsit.waits)
            (not_zombie_of_waits hsit.waits (by simp))).mono fun s' hs' => ?_
          obtain ⟨hw, hc⟩ := hs'
          refine ⟨.act hw (h.core.signal hg) hc (hA i t _ rfl) hg, ?_, ?_⟩
          · rw [hc]
            simp [Core.makeReady]
          · rw [hc]
            exact hsit.lt
        have hstate : (((s.setSem i (s.sem i).inc).unlink t (.wait (.sem i))).task t).state = .wtsem :=
          hsit.waits.1
        simp only [h₁.ok.wired.listDelete_of_mem hmem, ok_bind, signalWaiter, hstate, if_true]
        exact (signalTask_does hQ hwake).bind fun s' hs' => hs'
    · exact h₁

theorem isixSemTrywait_does (hS : ∀ i, sem = some i → SemOk A i) (h : Good s) :
    Holds E (isixSemTrywait sem s) fun r => Does A s r.1 := by
  cases sem with
  | none => exact Leads.refl h
  | some i => exact Does.setSem h (hS i rfl _ _)

theorem isixpSemReset_does {val : Int} (hQ : Quiet A)
    (hS : ∀ i, sem = some i → SemOk A i)
    (hA : ∀ i t c, sem = some i → A (.wake t (some (.sem i)) isixEreset) c) (h : Good s) :
    Holds E (isixpSemReset sem val ctx s) fun r => Does A s r.1 := by
  cases sem with
  | none => exact Leads.refl h
  | some i =>
    have h₁ : Does A s (s.setSem i ((s.sem i).writeVal val)) := .setSem h (hS i rfl _ _)
    have hm : ∀ t c, Wakes t isixEreset c (some (.sem i)) := fun _ _ => .inl rfl
    exact (wakeupAll_does hQ h₁.ok hm fun t c => hA i t c rfl).bind
      fun s₂ h₂ => h₁.trans h₂

theorem isixSemDestroy_does (hQ : Quiet A)
    (hA : ∀ i t c, sem = some i → A (.wake t (some (.sem i)) isixEdestroy) c) (h : Good s) :
    Holds E (isixSemDestroy sem s) fun r => Does A s r.1 := by
  cases sem with
  | none => exact Leads.refl h
  | some i =>
    have hm : ∀ t c, Wakes t isixEdestroy c (some (.sem i)) := fun _ _ => .inr rfl
    exact (wakeupAll_does hQ h hm fun t c => hA i t c rfl).bind fun s₂ h₂ => h₂

/-! ## condition variables -/

theorem isixpCondvarSignal_does {cv : Option CondId} (hQ : Quiet A)
    (hA : ∀ v t c, cv = some v → A (.wake t (some (.cond v)) isixEok) c) (h : Good s) :
    Holds E (isixpCondvarSignal cv ctx s) fun r => Does A s r.1 := by
  unfold isixpCondvarSignal
  cases cv with
  | none => exact Leads.refl h
  | some v =>
    simp only
    cases hl : s.lists (.cond v) with
    | nil => exact Leads.refl h
    | cons t l =>
      have hmem : t ∈ s.lists (.cond v) := by
        rw [hl]
        exact List.mem_cons_self
      have hsit := h.wired.sits_of_mem hmem
      have hstate : ((s.unlink t (.wait (.cond v))).task t).state = .wtcond := hsit.waits.1
      have hwake := removeAndWakeup_leads (E := E) h hmem (.inl rfl) (hA v t _ rfl)
      rw [removeAndWakeup, h.wired.listDelete_of_mem hmem, ok_bind] at hwake
      simp only [h.wired.listDelete_of_mem hmem, ok_bind, hstate, if_true]
      exact (signalTask_does hQ (hwake.mono fun s' hs' => ⟨hs'.1, hs'.2.woken⟩)).bind
        fun s' hs' => hs'

theorem isixpCondvarBroadcast_does {cv : Option CondId} (hQ : Quiet A)
    (hA : ∀ v t c, cv = some v → A (.wake t (some (.cond v)) isixEok) c) (h : Good s) :
    Holds E (isixpCondvarBroadcast cv ctx s) fun r => Does A s r.1 := by
  cases cv with
  | none => exact Leads.refl h
  | some v =>
    have hm : ∀ t c, Wakes t isixEok c (some (.cond v)) := fun _ _ => .inl rfl
    exact (wakeupAll_does hQ h hm fun t c => hA v t c rfl).bind fun s₂ h₂ => h₂

theorem isixCondvarDestroy_does {cv : Option CondId} (hQ : Quiet A)
    (hA : ∀ v t c, cv = some v → A (.wake t (some (.cond v)) isixEdestroy) c) (h : Good s) :
    Holds E (isixCondvarDestroy cv s) fun r => Does A s r.1 := by
  cases cv with
  | none => exact Leads.refl h
  | some v =>
    have hm : ∀ t c, Wakes t isixEdestroy c (some (.cond v)) := fun _ _ => .inr rfl
    exact (wakeupAll_does hQ h hm fun t c => hA v t c rfl).bind fun s₂ h₂ => h₂

end Isix
