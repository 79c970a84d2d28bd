import Isix.Co.Event
import Isix.Properties.CoNodes

/-!
# Isix.Properties.CoEvent

No signal of a coroutine event is lost.  When a set takes effect, all the
waiters are woken with its status or it is latched; a latched signal is taken
by one dispatch, which wakes all the waiters, or by one wait, with the latest
status in both cases; and as long as it is latched with coroutines waiting, the
event is queued for dispatch (`Signals`).

The status is kept in 16 bits, so all this holds of statuses that fit.
-/

namespace Isix.Co.Event

open Function (update)
open Runs (Run Reached reached Meeting meeting_of_guarded of_guard of_guard_map)

variable {s s' : State} {x : Int}

/-! ## the invariant -/

structure Signals (s : State) : Prop where
  linked : s.sched.Linked
  status : s.status = toInt16 s.latest
  queued : s.pc ≠ .dispatching → s.signaled = true → s.waiters ≠ [] → s.queued = true
  counted : s.consumed + s.signaled.toNat ≤ s.latches

theorem signals_init (time : Nat) : Signals (.init time) where
  linked := Scheduler.linked_init time
  status := toInt16_eok.symm
  queued _ := nofun
  counted := Nat.le_refl 0

theorem Signals.latch {queued : Bool} {pc : Pc} (hs : Signals s) (h : s.waiters = [] ∨ queued = true) :
    Signals { latch x s with queued, pc } where
  linked := hs.linked
  status := rfl
  queued _ _ hw := h.resolve_left hw
  counted := by
    have := hs.counted
    show s.consumed + 1 ≤ s.latches + 1
    omega

/-- All the waiters are woken. -/
structure Woken (x : Int) (s s' : State) : Prop where
  none : s'.waiters = []
  ready : ∀ n ∈ s.waiters, (s'.sched.node n).state = .ready ∧ (s'.sched.node n).result = toInt16 x

theorem woken_wakeAll (hs : s.sched.Linked) : Woken x s { wakeAll x s with pc := .idle } := by
  obtain ⟨-, hwaiters, hnode⟩ := hs.wakeAll rfl x
  refine ⟨hwaiters, fun n hn => ?_⟩
  have hself := hnode n
  rw [if_pos (show n ∈ s.sched.waiters 0 from hn)] at hself
  exact ⟨congrArg WaitNode.state hself, congrArg WaitNode.result hself⟩

theorem Signals.wakeAll (hs : Signals s) : Signals { wakeAll x s with pc := .idle } where
  linked := (hs.linked.wakeAll rfl x).1
  status := hs.status
  queued _ _ hw := absurd (woken_wakeAll hs.linked).none hw
  counted := hs.counted

theorem Signals.consume (hs : Signals s) (h : s.signaled = true) : Signals (consume s) where
  linked := hs.linked
  status := hs.status
  queued _ := nofun
  counted := by
    have := hs.counted
    rw [h] at this
    exact this

theorem Signals.answer {r : Int} (hs : Signals s) : Signals (s.answer r) :=
  { hs with }

/-! ## the steps -/

theorem Signals.apply (hs : Signals s) : Signals (apply s) := by
  unfold Event.apply
  split
  · split
    next hw => exact hs.latch (.inl (List.isEmpty_iff.mp hw))
    · exact hs.wakeAll
  · exact hs.latch (.inr rfl)
  · exact hs

theorem Signals.dispatch (hs : Signals s) : Signals (dispatch s) := by
  unfold Event.dispatch
  split
  next h =>
    refine { hs with queued := fun _ hsig hw => ?_ }
    cases h with
    | inl h => exact absurd (List.isEmpty_iff.mp h) hw
    | inr h => exact absurd (h.symm.trans hsig) (by decide)
  next h =>
    have hsig : s.signaled = true := by simpa using fun h0 => h (.inr h0)
    exact (hs.consume hsig).wakeAll

theorem Signals.await {n : NodeId} {h : Handle} {timeout : Nat} {cancelled foreign : Bool} (hs : Signals s)
    (hn : (s.sched.node n).state = .idle) : Signals (await n h timeout cancelled foreign s) := by
  unfold Event.await
  split
  next hsig => exact (hs.consume hsig).answer
  next hsig =>
    split
    · exact hs.answer
    split
    · exact hs.answer
    split
    · exact hs.answer
    exact ⟨hs.linked.waitOn hn, hs.status, fun _ h0 => absurd h0 hsig, hs.counted⟩

theorem Signals.step {a : Action} (hs : Signals s) (h : Step a s s') : Signals s' := by
  cases a with
  | set x =>
    cases h
    exact hs.latch (.inr rfl)
  | setDriver x =>
    obtain ⟨hpc, rfl⟩ := of_guard h
    exact { hs with queued := fun _ => hs.queued (by simp [hpc]) }
  | apply =>
    obtain ⟨-, rfl⟩ := of_guard h
    exact hs.apply
  | await n c timeout cancelled foreign =>
    obtain ⟨⟨-, hn, -⟩, rfl⟩ := of_guard h
    exact hs.await hn
  | release =>
    obtain ⟨-, rfl⟩ := of_guard h
    exact { hs with queued := fun h0 => absurd rfl h0 }
  | dispatch =>
    obtain ⟨-, rfl⟩ := of_guard h
    exact hs.dispatch
  | resume =>
    obtain ⟨-, ⟨n, t⟩, hr, rfl⟩ := of_guard_map h
    have hlinked := hs.linked.resume hr
    obtain ⟨rest, -, rfl⟩ := Scheduler.exists_of_resume hr
    exact Signals.answer { hs with linked := hlinked }
  | background b =>
    obtain ⟨hpc, t, hb, rfl⟩ := of_guard_map h
    have hsub := hs.linked.background_waiters hb 0
    have hlinked := (hs.linked.background (P := fun _ => True) (fun _ _ _ _ _ _ _ => trivial)
      (fun _ _ _ _ _ _ => trivial) trivial hb).1
    exact ⟨hlinked, hs.status, fun hpc hsig hw => hs.queued hpc hsig fun h0 => hw (List.sublist_nil.mp (h0 ▸ hsub)),
      hs.counted⟩

/-! ## what a step does to the signal -/

/-- The step in which a set with the status `x` takes effect. -/
def Sets (a : Action) (s : State) (x : Int) : Prop :=
  a = .set x ∨ a = .apply ∧ (s.pc = .direct x ∨ s.pc = .inbox x)

/-- The signal with the status `x` is latched. -/
def Latched (x : Int) (s : State) : Prop := s.signaled = true ∧ s.latest = x

theorem latched_or_woken {a : Action} (hs : Signals s) (h : Step a s s') (hx : Sets a s x) :
    Latched x s' ∨ s.waiters ≠ [] ∧ Woken x s s' := by
  rcases hx with rfl | ⟨rfl, hpc⟩
  · cases h
    exact .inl ⟨rfl, rfl⟩
  · obtain ⟨-, rfl⟩ := of_guard h
    rcases hpc with hpc | hpc
    · simp only [apply, hpc]
      split
      · exact .inl ⟨rfl, rfl⟩
      next hw => exact .inr ⟨by simpa using hw, woken_wakeAll hs.linked⟩
    · simp only [apply, hpc]
      exact .inl ⟨rfl, rfl⟩

/-- The wait takes a latched signal and returns. -/
theorem await_latched {n : NodeId} {c : Handle} {timeout : Nat} {cancelled foreign : Bool}
    (h : Step (.await n c timeout cancelled foreign) s s') (hsig : s.signaled = true) :
    s'.signaled = false ∧ s'.returned = s.status :: s.returned := by
  obtain ⟨-, rfl⟩ := of_guard h
  unfold await
  rw [if_pos hsig]
  exact ⟨rfl, rfl⟩

theorem consumed_by {a : Action} (hs : Signals s) (h : Step a s s') (hsig : s.signaled = true)
    (hgone : s'.signaled = false) :
    s.waiters ≠ [] ∧ Woken s.status s s' ∨
    (∃ n c timeout cancelled foreign, a = .await n c timeout cancelled foreign) ∧
      s'.returned = s.status :: s.returned := by
  have hstays : s'.signaled = s.signaled → False := fun he => by
    rw [hgone, hsig] at he
    cases he
  cases a with
  | await n c timeout cancelled foreign =>
    exact .inr ⟨⟨n, c, timeout, cancelled, foreign, rfl⟩, (await_latched h hsig).2⟩
  | dispatch =>
    obtain ⟨-, rfl⟩ := of_guard h
    unfold dispatch at hstays ⊢
    split
    next h0 =>
      rw [if_pos h0] at hstays
      exact absurd rfl hstays
    next h0 =>
      have hwoken := woken_wakeAll (x := s.status) hs.linked
      exact .inl ⟨by simpa using fun hw => h0 (.inl hw), hwoken.none, hwoken.ready⟩
  | set x =>
    cases h
    cases hgone
  | setDriver x =>
    obtain ⟨-, rfl⟩ := of_guard h
    exact absurd rfl hstays
  | apply =>
    obtain ⟨-, rfl⟩ := of_guard h
    unfold apply at hgone hstays
    split at hgone
    · split at hgone
      · cases hgone
      · exact (hstays (by simp_all [wakeAll])).elim
    · cases hgone
    · exact (hstays (by simp_all)).elim
  | release =>
    obtain ⟨-, rfl⟩ := of_guard h
    exact absurd rfl hstays
  | resume =>
    obtain ⟨-, ⟨n, t⟩, -, rfl⟩ := of_guard_map h
    exact absurd rfl hstays
  | background b =>
    obtain ⟨-, t, -, rfl⟩ := of_guard_map h
    exact absurd rfl hstays

/-! ## statuses of 16 bits -/

/-- The status fits into `m_status`. -/
def Fits (x : Int) : Prop := -32768 ≤ x ∧ x ≤ 32767

instance (x : Int) : Decidable (Fits x) := inferInstanceAs (Decidable (_ ∧ _))

theorem toInt16_of_fits (h : Fits x) : toInt16 x = x := by
  unfold Fits at h
  unfold toInt16
  rw [Int.bmod]
  split <;> omega

/-- The condition on the steps: the status of a set fits. -/
def Small : Action → State → Prop
  | .set x, _ => Fits x
  | .setDriver x, _ => Fits x
  | _, _ => True

instance : ∀ a s, Decidable (Small a s)
  | .set x, _ => inferInstanceAs (Decidable (Fits x))
  | .setDriver x, _ => inferInstanceAs (Decidable (Fits x))
  | .apply, _ | .await .., _ | .release, _ | .dispatch, _ | .resume, _ | .background _, _ => isTrue trivial

/-- The statuses under way fit. -/
structure AllFit (s : State) : Prop where
  latest : Fits s.latest
  direct : ∀ x, s.pc = .direct x → Fits x
  inbox : ∀ x, s.pc = .inbox x → Fits x

theorem AllFit.idle {sched : Scheduler} {signaled queued : Bool} {consumed : Nat} {returned : List Int} {pc : Pc}
    (hs : AllFit s) (hpc : pc = s.pc ∨ pc = .idle ∨ pc = .dispatching) :
    AllFit { s with sched, signaled, queued, consumed, returned, pc } := by
  refine ⟨hs.latest, fun x hx => ?_, fun x hx => ?_⟩
  · rcases hpc with rfl | rfl | rfl
    · exact hs.direct x hx
    · cases hx
    · cases hx
  · rcases hpc with rfl | rfl | rfl
    · exact hs.inbox x hx
    · cases hx
    · cases hx

theorem AllFit.latch {queued : Bool} {pc : Pc} (hs : AllFit s) (hx : Fits x) (hpc : pc = s.pc ∨ pc = .idle) :
    AllFit { latch x s with queued, pc } := by
  refine ⟨hx, fun y hy => ?_, fun y hy => ?_⟩
  · rcases hpc with rfl | rfl
    · exact hs.direct y hy
    · cases hy
  · rcases hpc with rfl | rfl
    · exact hs.inbox y hy
    · cases hy

theorem AllFit.step {a : Action} (hs : AllFit s) (h : Meeting Step Small a s s') : AllFit s' := by
  obtain ⟨h, hsmall⟩ := h
  cases a with
  | set x =>
    cases h
    exact hs.latch hsmall (.inl rfl)
  | setDriver x =>
    obtain ⟨-, rfl⟩ := of_guard h
    unfold setDriver
    refine ⟨hs.latest, fun y hy => ?_, fun y hy => ?_⟩
    · cases hq : s.queued <;> simp [hq] at hy
      exact hy ▸ hsmall
    · cases hq : s.queued <;> simp [hq] at hy
      exact hy ▸ hsmall
  | apply =>
    obtain ⟨-, rfl⟩ := of_guard h
    unfold apply
    split
    next x hpc =>
      split
      · exact hs.latch (hs.direct x hpc) (.inr rfl)
      · exact hs.idle (.inr (.inl rfl))
    next x hpc => exact hs.latch (hs.inbox x hpc) (.inr rfl)
    · exact hs
  | await n c timeout cancelled foreign =>
    obtain ⟨-, rfl⟩ := of_guard h
    unfold await
    repeat' split
    all_goals exact hs.idle (.inl rfl)
  | release =>
    obtain ⟨-, rfl⟩ := of_guard h
    exact hs.idle (.inr (.inr rfl))
  | dispatch =>
    obtain ⟨-, rfl⟩ := of_guard h
    unfold dispatch
    split
    · exact hs.idle (.inr (.inl rfl))
    · exact hs.idle (.inr (.inl rfl))
  | resume =>
    obtain ⟨-, ⟨n, t⟩, -, rfl⟩ := of_guard_map h
    exact hs.idle (.inl rfl)
  | background b =>
    obtain ⟨-, t, -, rfl⟩ := of_guard_map h
    exact hs.idle (.inl rfl)

/-! ## the main result -/

/-- All the coroutines that wait in `s` are ready in `s'`, with the result `x`. -/
def AllWoken (x : Int) (s s' : State) : Prop :=
  s.waiters ≠ [] ∧ s'.waiters = [] ∧
    ∀ n ∈ s.waiters, (s'.sched.node n).state = .ready ∧ (s'.sched.node n).result = x

/-- **No signal is lost**, in runs whose statuses fit into 16 bits.  Outside of a dispatch an event that
is signaled while coroutines wait has its link queued, and signals are consumed at most once.  A set wakes
all the waiters with its status at once, or it is latched with its status.  A latched signal goes away in
one way only: a dispatch wakes all the waiters, or a wait returns, with the latest status; and a wait that
finds the event signaled returns the latest status and resets it. -/
theorem event_loses_nothing (time : Nat) (s : State) (h : Run (Meeting Step Small) (.init time) s) :
    (s.pc ≠ .dispatching → s.signaled = true → s.waiters ≠ [] → s.queued = true) ∧
    s.consumed + s.signaled.toNat ≤ s.latches ∧
    ∀ a s', Meeting Step Small a s s' →
      (∀ x, Sets a s x → (s'.signaled = true ∧ s'.latest = x ∧ s'.status = x) ∨ AllWoken x s s') ∧
      (s.signaled = true → s'.signaled = false → AllWoken s.latest s s' ∨
        (∃ n c timeout cancelled foreign, a = .await n c timeout cancelled foreign) ∧
          s'.returned = s.latest :: s.returned) ∧
      (∀ n c timeout cancelled foreign, a = .await n c timeout cancelled foreign → s.signaled = true →
        s'.signaled = false ∧ s'.returned = s.latest :: s.returned) := by
  have hs : Signals s := h.keeps (fun _ _ _ hs hstep => hs.step hstep.1) (signals_init time)
  have hfit : AllFit s := h.keeps (fun _ _ _ hs hstep => hs.step hstep) ⟨show Fits isixEok by decide, nofun, nofun⟩
  have hstatus : s.status = s.latest := hs.status.trans (toInt16_of_fits hfit.latest)
  refine ⟨hs.queued, hs.counted, fun a s' hstep => ⟨fun x hx => ?_, fun hsig hgone => ?_, ?_⟩⟩
  · have hx' : Fits x := by
      rcases hx with rfl | ⟨rfl, hpc | hpc⟩
      · exact hstep.2
      · exact hfit.direct x hpc
      · exact hfit.inbox x hpc
    cases latched_or_woken hs hstep.1 hx with
    | inl hl =>
      have hs' := hs.step hstep.1
      exact .inl ⟨hl.1, hl.2, by rw [hs'.status, hl.2, toInt16_of_fits hx']⟩
    | inr hw =>
      refine .inr ⟨hw.1, hw.2.none, fun n hn => ?_⟩
      obtain ⟨hready, hresult⟩ := hw.2.ready n hn
      exact ⟨hready, hresult.trans (toInt16_of_fits hx')⟩
  · cases consumed_by hs hstep.1 hsig hgone with
    | inl hw =>
      refine .inl ⟨hw.1, hw.2.none, fun n hn => ?_⟩
      obtain ⟨hready, hresult⟩ := hw.2.ready n hn
      rw [hstatus] at hresult
      exact ⟨hready, hresult.trans (toInt16_of_fits hfit.latest)⟩
    | inr hr => exact .inr ⟨hr.1, hstatus ▸ hr.2⟩
  · rintro n c timeout cancelled foreign rfl hsig
    obtain ⟨hgone, hret⟩ := await_latched hstep.1 hsig
    exact ⟨hgone, hstatus ▸ hret⟩

/-- A coroutine waits; another thread sets the event. -/
def setWhileWaiting : Reached (Meeting Step Small) (.init 0) fun s =>
    s.pc = .idle ∧ s.signaled = true ∧ s.waiters = [0] ∧ s.latest = 5 :=
  reached (meeting_of_guarded fun _ _ _ h => h)
    [.background (.enter 7), .await 0 7 0 false false, .set 5] (by decide +kernel)

theorem setWhileWaiting_queued : ∃ s, Run (Meeting Step Small) (.init 0) s ∧ s.waiters = [0] ∧
    s.signaled = true ∧ s.queued = true := by
  obtain ⟨s, hrun, hpc, hsig, hw, -⟩ := setWhileWaiting
  exact ⟨s, hrun, hw, hsig, (event_loses_nothing 0 s hrun).1 (by simp [hpc]) hsig (by simp [hw])⟩

/-- A status that does not fit. -/
def largeStatus : Reached Step (.init 0) fun s =>
    s.latest = 65536 ∧ s.signaled = false ∧ s.sched.ready = [0] ∧ (s.sched.node 0).result = 0 :=
  reached (fun _ _ _ h => h)
    [.background (.enter 7), .await 0 7 0 false false, .set 65536, .release, .dispatch] (by decide +kernel)

/-- The event is set with the status 65536 and the coroutine that waits for it gets 0. -/
theorem largeStatus_truncated : ∃ s, Run Step (.init 0) s ∧
    s.latest = 65536 ∧ s.signaled = false ∧ s.sched.ready = [0] ∧ (s.sched.node 0).result = 0 := largeStatus.exists

end Isix.Co.Event
