import Isix.System

/-!
# Isix.Returns

Which services return at once: all that do not have to wait (`Call.waits`) when
they are called before the scheduler runs.
-/

namespace Isix

variable {s : Kernel} {c : Call}

/-- The caller does not go to sleep. -/
def Returns (m : Reply) : Prop := ∀ s', m ≠ .ok (s', .blocked)

theorem Returns.bind {α : Type} {m : Except Panic α} {f : α → Reply} (h : ∀ x, Returns (f x)) : Returns (m >>= f) := by
  cases m with
  | error p => exact fun s' hs => by cases hs
  | ok x => exact h x

theorem Returns.answer {a : Answer} (ha : a ≠ .blocked) : Returns (.ok (s, a)) := fun s' hs => ha (by cases hs; rfl)

theorem Returns.error {p : Panic} : Returns (.error p) := fun s' hs => by cases hs

theorem semWait_returns {sem : Option SemId} {timeout start : Nat} (hw : (Call.semWait sem timeout start).waits s = false) :
    Returns (isixSemWait sem timeout start s) := by
  cases sem with
  | none => exact .answer (by simp)
  | some x =>
    simp only [Call.waits, timeOver, Bool.and_eq_false_iff, Bool.not_eq_false', Bool.and_eq_true,
      decide_eq_false_iff_not, decide_eq_true_eq] at hw
    simp only [isixSemWait, semWaitBody, Kernel.setSem, Function.update_self]
    split
    · exact .answer (by simp)
    split
    · exact .answer (by simp)
    rename_i hne hneg
    have hover := hw.resolve_left (not_or.mpr ⟨not_not.mpr hne, not_not.mpr (Int.not_le.mp hneg)⟩)
    rw [if_neg hover.1, if_pos hover.2]
    exact .answer (by simp)

theorem eventWait_returns {evth : Option EvtId} {bits : Bits} {clear all : Bool} {timeout start : Nat}
    (hw : (Call.eventWait evth bits clear all timeout start).waits s = false) :
    Returns (isixEventWait evth bits clear all timeout start s) := by
  cases evth with
  | none => exact .answer (by simp)
  | some v =>
    simp only [isixEventWait]
    split
    · exact .answer (by simp)
    rename_i hbits
    rw [not_or, not_not] at hbits
    unfold eventWaitBody
    split
    · exact .answer (by simp)
    split
    · exact .answer (by simp)
    rename_i hcond hne
    have hover : timeout ≠ timeInfinite ∧ timeout ≤ tickSub s.jiffies start := by
      simpa [Call.waits, timeOver, hbits, hcond, hne] using hw
    rw [if_neg hover.1]
    exact if_pos hover.2 ▸ .answer (by simp)

theorem taskWaitFor_returns {task : Option TaskId} (hw : (Call.taskWaitFor task).waits s = false) :
    Returns (isixTaskWaitFor task s) := by
  cases task with
  | none => exact .answer (by simp)
  | some t =>
    simp only [isixTaskWaitFor, waitForBody]
    split
    · exact .answer (by simp)
    split
    · exact .answer (by simp)
    split
    · exact .answer (by simp)
    rename_i hne href hstate
    rw [not_or] at hstate
    simp [Call.waits, hne, href, hstate] at hw

variable [Config]

theorem Service.exec_returns (v : Service) (ctx : Context) : Returns (v.exec ctx s) := by
  cases v <;>
    simp only [Service.exec, isixpSemSignal, isixSemTrywait, isixpSemReset, isixpCondvarSignal,
      isixpCondvarBroadcast, isixpEventSet, isixpEventClear] <;>
    repeat first
      | exact .answer (by simp)
      | exact .error
      | (refine .bind fun _ => ?_)
      | split

theorem mutexLock_returns {mutex : Option MtxId} (hw : (Call.mutexLock mutex).waits s = false) :
    Returns (isixMutexLock mutex s) := by
  cases mutex with
  | none => exact .answer (by simp)
  | some m =>
    simp only [Call.waits] at hw
    simp only [isixMutexLock, mutexLockBody]
    cases ho : (s.mutex m).owner with
    | none => exact .bind fun _ => .answer (by simp)
    | some o =>
      have hself : o = s.currp := by simpa [ho] using hw
      dsimp only
      split
      · exact .error
      · exact .answer (by simp)

theorem condvarWait_returns {cv : Option CondId} {timeout : Nat} (hw : (Call.condvarWait cv timeout).waits s = false) :
    Returns (isixCondvarWait cv timeout s) := by
  cases cv with
  | none => exact .answer (by simp)
  | some v =>
    simp only [isixCondvarWait]
    split
    · exact .answer (by simp)
    · rename_i hne
      have hnone : isixpGetTopCurrtMutex s = none := by simpa [Call.waits, hne] using hw
      rw [hnone]
      exact .answer (by simp)

theorem eventSync_returns {evth : Option EvtId} {bitsToSet bits : Bits} {timeout start : Nat}
    (hw : (Call.eventSync evth bitsToSet bits timeout start).waits s = false) :
    Returns (isixEventSync evth bitsToSet bits timeout start s) := by
  cases evth with
  | none => exact .answer (by simp)
  | some v =>
    simp only [isixEventSync]
    split
    · exact .answer (by simp)
    split
    · exact .answer (by simp)
    rename_i hset hbits
    rw [not_not] at hset
    rw [not_or, not_not] at hbits
    refine .bind fun r => ?_
    split
    · exact .answer (by simp)
    split
    · exact .answer (by simp)
    rename_i hall hne
    simp [Call.waits, hset, hbits, hall, hne] at hw

/-- A service that does not have to wait returns. -/
theorem Call.exec_returns (hw : c.waits s = false) (hrun : s.schrun = false) : Returns (c.exec s) := by
  cases c with
  | service v => exact v.exec_returns none
  | semWait sem timeout start => exact semWait_returns hw
  | mutexLock mutex => exact mutexLock_returns hw
  | condvarWait cv timeout => exact condvarWait_returns hw
  | eventWait evth bits clear all timeout start => exact eventWait_returns hw
  | eventSync evth bitsToSet bits timeout start => exact eventSync_returns hw
  | taskWaitFor task => exact taskWaitFor_returns hw
  | wait timeout =>
    simp only [Call.exec, isixWait, hrun]
    exact .answer (by simp)
  | semCreate val limitVal =>
    simp only [Call.exec, isixSemCreateLimited]
    split <;> exact .answer (by simp)
  | _ =>
    simp only [Call.exec, isixTaskCreate, isixTaskChangePrio, isixTaskKill, isixTaskSuspend, isixTaskResume, isixTaskRef,
      isixTaskUnref, isixSemDestroy, isixMutexCreate, isixMutexTrylock, isixMutexUnlock, isixMutexDestroy,
      isixCondvarCreate, isixCondvarDestroy, isixEventCreate, isixEventDestroy]
    repeat first
      | exact .answer (by simp)
      | exact .error
      | (refine .bind fun _ => ?_)
      | split

end Isix
