import Isix.Frames
import Isix.Refine.Mutex

/-!
# Isix.Refine.Condvar

`isix_condvar_wait` is two critical sections of the source in one: the unlock
of the mutex and the sleep of the caller.  Between them the caller is still the
current task and still on the ready queue, because the unlock does nothing but
*calm* actions.
-/

namespace Isix

open Function (update)
open Kernel Outcome

/-! ## calm actions -/

/-- Actions that leave the CPU to the task that has it. -/
def Act.calm : Act → Bool
  | .count _ _ | .free _ | .strip _ _ | .handover _ _ | .reprio _ _ => true
  | a => a.quiet

/-- What calm actions keep. -/
structure Core.Calm (c c' : Core) : Prop where
  grows : c.Grows c'
  schrun : c'.schrun = c.schrun
  currp : c.schrun = true → c'.currp = c.currp
  active : ∀ t, (c.task t).state.active → (c'.task t).state.active

theorem Core.Calm.refl (c : Core) : c.Calm c := ⟨.refl c, rfl, fun _ => rfl, fun _ => id⟩

theorem Core.Calm.trans {c c' c'' : Core} (h : c.Calm c') (h' : c'.Calm c'') : c.Calm c'' :=
  ⟨h.grows.trans h'.grows, h'.schrun.trans h.schrun,
    fun hr => (h'.currp (h.schrun.trans hr)).trans (h.currp hr), fun t ht => h'.active t (h.active t ht)⟩

theorem Act.active_of_calm {a : Act} {c : Core} {t : TaskId} (ha : a.calm)
    (ht : (c.task t).state.active) : ((a.apply c).task t).state.active := by
  have hs : ((a.apply c).task t).state = (a.onTask c t).state :=
    congrArg Thread.state (a.thread_apply c t)
  rw [hs]
  cases a with
  | handover m u | expire u w =>
    simp only [onTask]
    split
    · rfl
    · exact ht
  | reprio u p =>
    simp only [onTask]
    split
    · rfl
    · exact ht
  | count m n | free m | strip m b | pend | skipped n | yieldPending b | jiffies n | swap
  | current u => exact ht
  | _ => cases ha

theorem Act.calm_apply [Config] {a : Act} {c : Core} (ha : a.calm) (hg : a.guard c) :
    c.Calm (a.apply c) := by
  have hactive : ∀ t, (c.task t).state.active → ((a.apply c).task t).state.active :=
    fun t => Act.active_of_calm ha
  have hsame : (a.apply c).schrun = c.schrun → (a.apply c).currp = c.currp → c.Calm (a.apply c) :=
    fun hr hcur => ⟨a.grows c, hr, fun _ => hcur, hactive⟩
  cases a with
  | current t => exact ⟨grows _ _, rfl, fun hr => (by rw [hg.1] at hr; cases hr), hactive⟩
  | reprio t p =>
    refine hsame ?_ ?_
    all_goals
      simp only [apply]
      cases Core.prioHead (c.task t) <;> rfl
  | handover m t | free m | strip m b | expire t w =>
    refine hsame ?_ ?_
    all_goals
      simp only [apply, Core.makeReady, Core.untime, Core.linkMutex, Core.unlinkMutex, Core.dequeue,
        Core.dequeue?, Core.giveBack, Core.withTask, Core.withMutex]
  | count m n | pend | skipped n | yieldPending b | jiffies n | swap => exact hsame rfl rfl
  | _ => cases ha

theorem Quiet.calm {A : Act → Core → Prop} (h : Quiet A) : Quiet fun a c => A a c ∧ a.calm := by
  intro a c ha
  refine ⟨h a c ha, ?_⟩
  cases a <;> first | exact ha | rfl

theorem Path.calm [Config] {A : Act → Core → Prop} {c c' : Core}
    (h : Path (fun a c => A a c ∧ a.calm) c c') : c.Calm c' := by
  induction h with
  | refl => exact .refl _
  | step a _ ha hg ih => exact ih.trans (Act.calm_apply ha.2 hg)

/-! ## the wait -/

variable [Config] {s s' : Kernel} {E : Panic → Prop} {A : Act → Core → Prop} {m : MtxId} {v : CondId}

theorem Replies.after {r : Kernel × Answer} (h : Replies A s' r) (h₁ : Does A s s')
    (hs : s'.schrun = s.schrun) : Replies A s r := fun hb => h₁.trans (h fun hr => hb (hs ▸ hr))

/-- The caller is still running after calm actions. -/
theorem Caller.calm (h : Caller s) (hgood : Good s') (hc : s.toCore.Calm s'.toCore) : Caller s' := by
  cases hrun : s.schrun with
  | true =>
    have hcur : s'.currp = s.currp := hc.currp hrun
    refine ⟨?_, fun _ => ?_⟩
    · rw [hcur]
      exact hc.active _ h.active
    · rw [hcur]
      exact h.not_idle hrun
  | false =>
    have hrun' : s'.schrun = false := hc.schrun.trans hrun
    refine ⟨?_, fun hr => ?_⟩
    · rw [hgood.core.task.boot hrun']
      rfl
    · rw [hrun'] at hr
      cases hr

theorem condvarSleep_replies {timeout : Nat} (hQ : Quiet A)
    (hK : A (.sleep (.cond v m timeout)) s.toCore) (h : Good s) (hcall : Caller s) (hv : v < s.ncond)
    (hm : m < s.nmtx) (ht : timeout < tickMod) :
    Holds E (condvarSleep v m timeout s) (Replies A s) := by
  have hs := sleep_spec (E := E) (.cond v m timeout) rfl
    (g := fun y => { y with obj := .cond v, frame := .condvarWait m }) h hcall.active (fun _ => rfl)
    (fun _ => ⟨rfl, rfl⟩) (fun _ => ⟨rfl, rfl⟩) fun _ _ _ => rfl
  rw [show s.withTask s.currp (fun y => y) = s by simp [withTask]] at hs
  refine hs.bind fun s₁ hs₁ => .blocked fun hrun => ?_
  obtain ⟨hw, hc⟩ := hs₁ _ (.inl ⟨rfl, rfl⟩)
  have hvalid : (Sleep.cond v m timeout).valid s.toCore := ⟨hv, hm, ht⟩
  have h₁ := Does.sleep h hcall hrun hK hvalid hw hc
  exact h₁.trans (isixYield_does hQ h₁.ok)

theorem isixCondvarWait_replies {cv : Option CondId} {timeout : Nat} (hE : ∀ p, CountPanic p → E p)
    (hQ : Quiet A) (hR : ReleaseOk A s.currp fun m => isixpGetTopCurrtMutex s = some m)
    (hA : ∀ m n c, isixpGetTopCurrtMutex s = some m → A (.count m n) c)
    (hK : ∀ v m c, cv = some v → isixpGetTopCurrtMutex s = some m → A (.sleep (.cond v m timeout)) c)
    (h : Good s) (hcall : Caller s) (hv : ∀ v, cv = some v → v < s.ncond) (ht : timeout < tickMod) :
    Holds E (isixCondvarWait cv timeout s) (Replies A s) := by
  unfold isixCondvarWait
  cases cv with
  | none => exact .of_does (.refl h)
  | some v =>
    simp only
    split
    · exact .of_does (.refl h)
    · cases htop : isixpGetTopCurrtMutex s with
      | none => exact .of_does (.refl h)
      | some m =>
        have hm : m < s.nmtx := by
          have hin := h.core.mutex.linked.mem_iff.mp (List.mem_of_head? htop)
          refine h.core.lt_of_owner ?_
          rw [h.core.mutex.owner m (by simp), hin]
          simp
        have hun : Holds E (isixMutexUnlock (some m) s) _ := isixMutexUnlock_does
          hE hQ.calm ⟨fun m' c hm' ho => ⟨hR.free m' c (by cases hm'; exact htop) ho, rfl⟩,
            fun m' c hm' ho => ⟨hR.strip m' c (by cases hm'; exact htop) ho, rfl⟩,
            fun m' t c hm' ho => ⟨hR.handover m' t c (by cases hm'; exact htop) ho, rfl⟩,
            fun t p c => ⟨hR.reprio t p c, rfl⟩⟩
          (fun m' n c hm' => ⟨hA m' n c (by cases hm'; exact htop), rfl⟩) h hcall
        refine hun.bind fun r hr => ?_
        obtain ⟨s₁, ret⟩ := r
        have hc := Path.calm hr.path
        have h₁ : Does A s s₁ := ⟨hr.ok, hr.path.mono fun _ _ ha => ha.1⟩
        split
        · exact (condvarSleep_replies hQ (hK v m _ rfl htop) h₁.ok (hcall.calm h₁.ok hc)
            (Nat.lt_of_lt_of_le (hv v rfl) hc.grows.ncond)
            (Nat.lt_of_lt_of_le hm hc.grows.nmtx) ht).mono fun r hr => hr.after h₁ hc.schrun
        · exact .of_does h₁

end Isix
